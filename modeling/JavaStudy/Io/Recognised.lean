/-
# The reading loop of `CompareDBScript` on any lines whatsoever

A line that the outer loop takes for a header makes it look for a name and then fill a table; the
table gets into the map at a line that trims to `)`, and only there.  So there are two ways to lose
a table.  A header without a parenthesis behind its `table` has no name, and `substring` throws.  A
block that is not closed is at an end when the script is, and the loops end without a word.

`traceTables` and `traceColumns` are the two loops with a record of what they do.

* `trace_result`, `trace_replays`: the record is one of `readTables`, and the map is what the
  recorded calls of `put` make.
* `complete_iff_blocks`: a script is `Complete`, lines that are no headers and whole blocks, if all
  its `blocks` are whole.
* `whole_iff`: every header that was recognised is followed by the `put` of its table, and nothing
  is thrown, exactly if the script is complete.
-/
import JavaStudy.Io.Script

namespace JavaStudy
namespace CompareDBScript

open JavaText

/-! ## 1. The loops with a record -/

inductive Event where
  /-- The outer loop takes the line for a header. -/
  | recognised (line : JString)
  | put (tableName : JString) (myTable : MyTable)

mutual

/-- The outer loop. -/
def traceTables : List JString → Tables → List Event × Except Failure Tables
  | [], map => ([], .ok map)
  | line :: lines, map =>
    if isHeader line then
      match tableName line with
      | .ok name =>
        let r := traceColumns ⟨name, .empty⟩ lines map
        (.recognised line :: r.1, r.2)
      | .error e => ([.recognised line], .error e)
    else traceTables lines map

/-- The inner loop. -/
def traceColumns : MyTable → List JString → Tables → List Event × Except Failure Tables
  | _, [], map => ([], .ok map)
  | myTable, line :: lines, map =>
    if trim line ≠ [unit ')'] then
      match MyColumn.ofLine line with
      | .ok column =>
        traceColumns { myTable with columnMap := myTable.columnMap.put column.name column }
          lines map
      | .error e => ([], .error e)
    else
      let r := traceTables lines (map.put myTable.tableName myTable)
      (.put myTable.tableName myTable :: r.1, r.2)

end

/-- A table with one more column. -/
def MyTable.add (myTable : MyTable) (line : JString) : MyTable :=
  { myTable with columnMap := myTable.columnMap.put (columnOf line).name (columnOf line) }

theorem trim_ne_of_not_closes {line : JString} (hclose : closes line = false) :
    trim line ≠ [unit ')'] := by
  intro h
  rw [closes_iff.mpr h] at hclose
  exact absurd hclose (by simp)

/-! What one round of the loops is. -/

theorem traceTables_header {line name : JString} (hheader : isHeader line = true)
    (hname : tableName line = .ok name) (lines : List JString) (map : Tables) :
    traceTables (line :: lines) map
      = (.recognised line :: (traceColumns ⟨name, .empty⟩ lines map).1,
        (traceColumns ⟨name, .empty⟩ lines map).2) := by
  rw [traceTables, if_pos hheader, hname]

theorem traceTables_unreadable {line : JString} (hheader : isHeader line = true) {e : Failure}
    (hname : tableName line = .error e) (lines : List JString) (map : Tables) :
    traceTables (line :: lines) map = ([.recognised line], .error e) := by
  rw [traceTables, if_pos hheader, hname]

theorem traceTables_filler {line : JString} (hheader : isHeader line = false)
    (lines : List JString) (map : Tables) :
    traceTables (line :: lines) map = traceTables lines map := by
  rw [traceTables, hheader, if_neg Bool.false_ne_true]

theorem traceColumns_close {line : JString} (hclose : closes line = true) (myTable : MyTable)
    (lines : List JString) (map : Tables) :
    traceColumns myTable (line :: lines) map
      = (.put myTable.tableName myTable ::
          (traceTables lines (map.put myTable.tableName myTable)).1,
        (traceTables lines (map.put myTable.tableName myTable)).2) := by
  rw [traceColumns, if_neg (not_not.mpr (closes_iff.mp hclose))]

theorem traceColumns_column {line : JString} (hclose : closes line = false) (myTable : MyTable)
    (lines : List JString) (map : Tables) :
    traceColumns myTable (line :: lines) map = traceColumns (myTable.add line) lines map := by
  rw [traceColumns, if_pos (trim_ne_of_not_closes hclose), ofLine_eq]
  rfl

/-- **The record is one of the loops.** -/
theorem trace_result (lines : List JString) :
    (∀ map, (traceTables lines map).2 = readTables lines map) ∧
    ∀ myTable map, (traceColumns myTable lines map).2 = readColumns myTable lines map := by
  induction lines with
  | nil => exact ⟨fun _ => rfl, fun _ _ => rfl⟩
  | cons line lines ih =>
    obtain ⟨houter, hinner⟩ := ih
    refine ⟨?_, ?_⟩
    · intro map
      cases hheader : isHeader line with
      | true =>
        cases hname : tableName line with
        | ok name =>
          rw [traceTables_header hheader hname, readTables, if_pos hheader, hname]
          exact hinner _ map
        | error e =>
          rw [traceTables_unreadable hheader hname, readTables, if_pos hheader, hname]
      | false =>
        rw [traceTables_filler hheader, readTables, hheader, if_neg Bool.false_ne_true]
        exact houter map
    · intro myTable map
      cases hclose : closes line with
      | true =>
        rw [traceColumns_close hclose, readColumns, if_neg (not_not.mpr (closes_iff.mp hclose))]
        exact houter _
      | false =>
        rw [traceColumns_column hclose, readColumns, if_pos (trim_ne_of_not_closes hclose),
          ofLine_eq]
        exact hinner _ map

/-- The tables that were put, under their names. -/
def puts (events : List Event) : List (JString × MyTable) :=
  events.filterMap fun
    | .recognised _ => none
    | .put name myTable => some (name, myTable)

/-- **The map is what the recorded calls of `put` make.** -/
theorem trace_replays (lines : List JString) :
    (∀ map m, (traceTables lines map).2 = .ok m →
      m = map.putAll (puts (traceTables lines map).1)) ∧
    ∀ myTable map m, (traceColumns myTable lines map).2 = .ok m →
      m = map.putAll (puts (traceColumns myTable lines map).1) := by
  induction lines with
  | nil => exact ⟨fun _ _ h => (Except.ok.inj h).symm, fun _ _ _ h => (Except.ok.inj h).symm⟩
  | cons line lines ih =>
    obtain ⟨houter, hinner⟩ := ih
    refine ⟨?_, ?_⟩
    · intro map m h
      cases hheader : isHeader line with
      | true =>
        cases hname : tableName line with
        | ok name =>
          rw [traceTables_header hheader hname] at h ⊢
          exact hinner _ map m h
        | error e =>
          rw [traceTables_unreadable hheader hname] at h
          exact absurd h (by simp)
      | false =>
        rw [traceTables_filler hheader] at h ⊢
        exact houter map m h
    · intro myTable map m h
      cases hclose : closes line with
      | true =>
        rw [traceColumns_close hclose] at h ⊢
        exact houter _ m h
      | false =>
        rw [traceColumns_column hclose] at h ⊢
        exact hinner _ map m h

/-! ## 2. Names -/

/-- A parenthesis stands somewhere behind the first `table`. -/
def Opens (header : JString) : Prop :=
  ∃ i, firstIndex table header = some i ∧ unit '(' ∈ header.drop (i + 5)

theorem exists_table_of_isHeader {line : JString} (h : isHeader line = true) :
    ∃ i, firstIndex table line = some i := by
  obtain ⟨pre, gap, post, hline, -⟩ := isHeader_iff.mp h
  have hparts : line = (pre ++ (create ++ gap)) ++ (table ++ post) := by
    simp only [hline, List.append_assoc]
  rw [hparts]
  exact firstIndex_isSome (by simp [table]) _ post

/-- **A header has a name exactly if it opens a parenthesis.** -/
theorem tableName_isOk_iff {line : JString} (h : isHeader line = true) :
    (∃ name, tableName line = .ok name) ↔ Opens line := by
  obtain ⟨i, hi⟩ := exists_table_of_isHeader h
  have htable : indexOf line table 0 + 5 = ((i + 5 : Nat) : Int) := by
    have hzero : (0 : Int).toNat = 0 := rfl
    rw [indexOf, hzero, List.drop_zero, hi]
    push_cast
    omega
  have hopens : Opens line ↔ unit '(' ∈ line.drop (i + 5) := by
    refine ⟨?_, fun hmem => ⟨i, hi, hmem⟩⟩
    rintro ⟨j, hj, hmem⟩
    rw [hi, Option.some.injEq] at hj
    exact hj ▸ hmem
  rw [hopens]
  by_cases hmem : unit '(' ∈ line.drop (i + 5)
  · refine iff_of_true ?_ hmem
    obtain ⟨before, after, hsplit⟩ := List.append_of_mem hmem
    obtain ⟨j, hj⟩ := firstIndex_isSome (List.cons_ne_nil (unit '(') []) before after
    rw [List.singleton_append, ← hsplit] at hj
    have hindex : indexOf line [unit '('] (i + 5 : Nat) = ((i + 5 + j : Nat) : Int) := by
      rw [indexOf, Int.toNat_natCast, hj]
      push_cast
      omega
    have hle : i + 5 + j ≤ line.length := by
      obtain ⟨pre, post, hdrop, hlength⟩ := firstIndex_spec hj
      have hlengths := congrArg List.length hdrop
      simp only [List.length_drop, List.length_append, List.length_singleton] at hlengths
      omega
    simp only [tableName, htable, hindex, substring]
    rw [if_pos ⟨by omega, by omega, by omega⟩]
    exact ⟨_, rfl⟩
  · refine iff_of_false ?_ hmem
    have hindex : indexOf line [unit '('] (i + 5 : Nat) = -1 := by
      rw [indexOf, Int.toNat_natCast, firstIndex_char_none hmem]
    rintro ⟨name, hname⟩
    simp only [tableName, htable, hindex, substring] at hname
    rw [if_neg (by omega)] at hname
    exact absurd hname (by simp)

/-! ## 3. Whole blocks -/

/-- The script consists of lines that are no headers and of blocks that are whole: a header that
opens a parenthesis, lines that do not close the block, and one that does. -/
inductive Complete : List JString → Prop where
  | nil : Complete []
  | filler {line : JString} {lines : List JString} (hheader : isHeader line = false)
      (hlines : Complete lines) : Complete (line :: lines)
  | block {header close : JString} {inner lines : List JString} (hheader : isHeader header = true)
      (hopens : Opens header) (hinner : ∀ line ∈ inner, closes line = false)
      (hclose : closes close = true) (hlines : Complete lines) :
      Complete (header :: (inner ++ close :: lines))

/-- The block that was begun is closed, and the rest is complete. -/
def Closed (lines : List JString) : Prop :=
  ∃ inner close rest, lines = inner ++ close :: rest ∧ (∀ line ∈ inner, closes line = false) ∧
    closes close = true ∧ Complete rest

theorem complete_header_iff {header : JString} (hheader : isHeader header = true)
    {lines : List JString} : Complete (header :: lines) ↔ Opens header ∧ Closed lines := by
  constructor
  · intro h
    cases h with
    | filler hnot hlines => exact absurd hheader (by simp [hnot])
    | block _ hopens hinner hclose hlines => exact ⟨hopens, _, _, _, rfl, hinner, hclose, hlines⟩
  · rintro ⟨hopens, inner, close, rest, rfl, hinner, hclose, hrest⟩
    exact .block hheader hopens hinner hclose hrest

theorem complete_filler_iff {line : JString} (hheader : isHeader line = false)
    {lines : List JString} : Complete (line :: lines) ↔ Complete lines := by
  refine ⟨?_, .filler hheader⟩
  intro h
  cases h with
  | filler _ hlines => exact hlines
  | block hblock _ _ _ _ => exact absurd hblock (by simp [hheader])

theorem not_closed_nil : ¬ Closed [] := by
  rintro ⟨inner, close, rest, h, -⟩
  exact absurd h.symm (by simp)

theorem closed_close_iff {line : JString} (hclose : closes line = true) {lines : List JString} :
    Closed (line :: lines) ↔ Complete lines := by
  constructor
  · rintro ⟨inner, close, rest, h, hinner, -, hrest⟩
    cases inner with
    | nil =>
      cases h
      exact hrest
    | cons first inner =>
      cases h
      have hnot := hinner line List.mem_cons_self
      exact absurd hclose (by simp [hnot])
  · intro h
    exact ⟨[], line, lines, rfl, nofun, hclose, h⟩

theorem closed_column_iff {line : JString} (hclose : closes line = false) {lines : List JString} :
    Closed (line :: lines) ↔ Closed lines := by
  constructor
  · rintro ⟨inner, close, rest, h, hinner, hend, hrest⟩
    cases inner with
    | nil =>
      cases h
      exact absurd hend (by simp [hclose])
    | cons first inner =>
      cases h
      exact ⟨inner, close, rest, rfl, fun l hl => hinner l (List.mem_cons_of_mem _ hl), hend, hrest⟩
  · rintro ⟨inner, close, rest, rfl, hinner, hend, hrest⟩
    exact ⟨line :: inner, close, rest, rfl, List.forall_mem_cons.mpr ⟨hclose, hinner⟩, hend, hrest⟩

/-- A block that is whole. -/
def Block.Whole (block : Block) : Prop := Opens block.header ∧ block.closed = true

/-- **The complete scripts are those whose blocks are all whole.** -/
theorem complete_iff_blocks (lines : List JString) :
    (Complete lines ↔ ∀ block ∈ blocks lines, block.Whole) ∧
    ∀ header inner, (Opens header ∧ Closed lines ↔
      ∀ block ∈ blocksFrom header inner lines, block.Whole) := by
  induction lines with
  | nil =>
    refine ⟨iff_of_true .nil nofun, ?_⟩
    intro header inner
    refine iff_of_false (fun h => not_closed_nil h.2) ?_
    intro h
    exact absurd (h _ (List.mem_singleton_self _)).2 (by simp)
  | cons line lines ih =>
    obtain ⟨houter, hinner⟩ := ih
    refine ⟨?_, ?_⟩
    · rw [blocks]
      cases hheader : isHeader line with
      | true => rw [complete_header_iff hheader, if_pos rfl, hinner line []]
      | false => rw [complete_filler_iff hheader, if_neg Bool.false_ne_true, houter]
    · intro header inner
      rw [blocksFrom]
      cases hclose : closes line with
      | true =>
        rw [closed_close_iff hclose, if_pos rfl, List.forall_mem_cons, houter]
        exact and_congr_left' ⟨fun h => ⟨h, rfl⟩, And.left⟩
      | false =>
        rw [closed_column_iff hclose, if_neg Bool.false_ne_true]
        exact hinner header (inner ++ [line])

/-! ## 4. Which tables reach the map -/

/-- Every header is followed at once by the `put` of its own table. -/
inductive Paired : List Event → Prop where
  | nil : Paired []
  | table {line name : JString} {myTable : MyTable} {events : List Event}
      (hname : tableName line = .ok name) (hevents : Paired events) :
      Paired (.recognised line :: .put name myTable :: events)

theorem paired_table_iff {line : JString} {myTable : MyTable}
    (hname : tableName line = .ok myTable.tableName) {events : List Event} :
    Paired (.recognised line :: .put myTable.tableName myTable :: events) ↔ Paired events := by
  refine ⟨?_, .table hname⟩
  intro h
  cases h with
  | table _ hevents => exact hevents

theorem not_paired_singleton (line : JString) : ¬ Paired [.recognised line] := by
  intro h
  cases h

/-- The loop returns, and no table is lost on the way. -/
def Whole (r : List Event × Except Failure Tables) : Prop := (∃ map, r.2 = .ok map) ∧ Paired r.1

/-- **No table is lost exactly if the script is complete**, by induction on the lines that are left:
for the outer loop, and for the inner one behind its header. -/
theorem whole_iff (lines : List JString) :
    (∀ map, Whole (traceTables lines map) ↔ Complete lines) ∧
    ∀ header myTable map, tableName header = .ok myTable.tableName →
      (Whole (.recognised header :: (traceColumns myTable lines map).1,
        (traceColumns myTable lines map).2) ↔ Closed lines) := by
  induction lines with
  | nil =>
    refine ⟨fun map => iff_of_true ⟨⟨map, rfl⟩, .nil⟩ .nil, ?_⟩
    intro header myTable map hname
    exact iff_of_false (fun h => not_paired_singleton header h.2) not_closed_nil
  | cons line lines ih =>
    obtain ⟨houter, hinner⟩ := ih
    refine ⟨?_, ?_⟩
    · intro map
      cases hheader : isHeader line with
      | true =>
        rw [complete_header_iff hheader, ← tableName_isOk_iff hheader]
        cases hname : tableName line with
        | ok name =>
          rw [traceTables_header hheader hname, hinner line ⟨name, .empty⟩ map hname]
          exact (and_iff_right ⟨name, rfl⟩).symm
        | error e =>
          rw [traceTables_unreadable hheader hname]
          refine iff_of_false (fun h => not_paired_singleton line h.2) ?_
          rintro ⟨⟨name, h⟩, -⟩
          exact absurd h (by simp)
      | false => rw [traceTables_filler hheader, houter map, complete_filler_iff hheader]
    · intro header myTable map hname
      cases hclose : closes line with
      | true =>
        rw [traceColumns_close hclose, closed_close_iff hclose,
          ← houter (map.put myTable.tableName myTable), Whole, Whole, paired_table_iff hname]
      | false =>
        rw [traceColumns_column hclose, closed_column_iff hclose]
        exact hinner header (myTable.add line) map hname

/-- The loop does not throw, and every line that it recognises as a header yields an entry, by a
`put` of its own. -/
def NoneDropped (lines : List JString) (result : Except Failure Tables) : Prop :=
  ∃ map, result = .ok map ∧
    (∀ line, Event.recognised line ∈ (traceTables lines .empty).1 →
      ∃ name, tableName line = .ok name ∧ name ∈ map.keySet) ∧
    Paired (traceTables lines .empty).1

/-- A header that is followed by the `put` of its table has that table among the `puts`. -/
theorem Paired.mem_puts {events : List Event} (h : Paired events) {line : JString}
    (hline : .recognised line ∈ events) :
    ∃ name, tableName line = .ok name ∧ name ∈ (puts events).map Prod.fst := by
  induction h with
  | nil => cases hline
  | table hname hevents ih =>
    rename_i header name myTable events
    have hputs : puts (.recognised header :: .put name myTable :: events)
        = (name, myTable) :: puts events := rfl
    rw [hputs, List.map_cons]
    rcases List.mem_cons.mp hline with heq | hline
    · cases heq
      exact ⟨name, hname, List.mem_cons_self⟩
    · rcases List.mem_cons.mp hline with heq | hline
      · cases heq
      · obtain ⟨other, hother, hmem⟩ := ih hline
        exact ⟨other, hother, List.mem_cons_of_mem _ hmem⟩

theorem noneDropped_iff_whole (lines : List JString) :
    NoneDropped lines (readTables lines .empty) ↔ Whole (traceTables lines .empty) := by
  have hresult := (trace_result lines).1 .empty
  constructor
  · rintro ⟨map, hmap, -, hpaired⟩
    exact ⟨⟨map, hresult.trans hmap⟩, hpaired⟩
  · rintro ⟨⟨map, hmap⟩, hpaired⟩
    refine ⟨map, hresult.symm.trans hmap, ?_, hpaired⟩
    intro line hline
    obtain ⟨name, hname, hmem⟩ := hpaired.mem_puts hline
    refine ⟨name, hname, ?_⟩
    obtain ⟨myTable, hlast⟩ := Option.isSome_iff_exists.mp (Hashtable.lastValue_isSome_iff.mpr hmem)
    have hget : map.get name = some myTable := by
      rw [(trace_replays lines).1 .empty map hmap, Hashtable.get_putAll, hlast]
      rfl
    exact Hashtable.mem_keySet_of_get hget

/-- **Both loops finish and drop no table for exactly the complete scripts.** -/
theorem noneDropped_iff (lines : List JString) :
    (NoneDropped lines (leftLoop lines) ↔ Complete lines) ∧
      (NoneDropped lines (rightLoop lines) ↔ Complete lines) := by
  have hiff : NoneDropped lines (readTables lines .empty) ↔ Complete lines :=
    (noneDropped_iff_whole lines).trans ((whole_iff lines).1 .empty)
  exact ⟨hiff, hiff⟩

/-- The parenthesis stands on the next line. -/
def parenthesisBelow : List JString :=
  [text "create table t", text "(", text "id int", text ")"]

/-- The statement has its semicolon. -/
def withSemicolon : List JString := [text "create table t (", text "id int", text ");"]

/-- The first of these makes the loop throw; of the second it recognises a table, and drops it. -/
theorem tables_lost :
    ¬ NoneDropped parenthesisBelow (leftLoop parenthesisBelow) ∧
      ¬ NoneDropped withSemicolon (leftLoop withSemicolon) := by
  refine ⟨?_, ?_⟩
  · intro h
    have hpaired := ((noneDropped_iff_whole _).mp h).2
    have hname : tableName (text "create table t") = .error .stringIndexOutOfBounds := rfl
    rw [parenthesisBelow, traceTables_unreadable rfl hname] at hpaired
    exact not_paired_singleton _ hpaired
  · intro h
    have hpaired := ((noneDropped_iff_whole _).mp h).2
    have hname : tableName (text "create table t (") = .ok (text "t") := rfl
    rw [withSemicolon, traceTables_header rfl hname, traceColumns_column rfl,
      traceColumns_column rfl] at hpaired
    exact not_paired_singleton _ hpaired

end CompareDBScript
end JavaStudy
