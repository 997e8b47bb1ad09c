/-
# What the comparison of two scripts says about their lines

`differences_iff` is about the two maps.  Here the maps were read from scripts, and the question is
what a report says about the lines of a table.

A table is the collection of its lines, except that of lines with one first token only the last one
is left: `columnsDiffer_tableOf_iff`.  Two things follow.

* A difference between the lines of a table can be missed (`misses_nothing_iff`).
* A comma is part of the token that it stands behind, so the order of the columns matters as soon as
  another one comes last (`permuted_iff`).
-/
import JavaStudy.Io.Comparison
import JavaStudy.Io.Script

namespace JavaStudy
namespace CompareDBScript

open JavaText

section

variable (caseMap : CaseMap) (hashSet : IterationOrder JString)

/-! ## 1. A table is its lines -/

/-- Tokens in one case. -/
def folded (tokens : List JString) : List JString := tokens.map fun token => token.map caseMap.fold

/-- The parameters of a column in one case. -/
def foldedParams (params : List Token) : List JString :=
  folded caseMap (params.map fun token => token.val)

theorem paramsDiffer_iff {left right : List Token} :
    ParamsDiffer caseMap left right ↔
      foldedParams caseMap left ≠ foldedParams caseMap right := by
  induction left generalizing right with
  | nil =>
    cases right with
    | nil => simp [ParamsDiffer, foldedParams, folded]
    | cons r right => simp [ParamsDiffer, foldedParams, folded]
  | cons l left ih =>
    cases right with
    | nil => simp [ParamsDiffer, foldedParams, folded]
    | cons r right =>
      rw [paramsDiffer_cons, ih, ← Bool.not_eq_true, caseMap.equalsIgnoreCase_iff, ← not_and_or]
      simp only [foldedParams, folded, List.map_cons, ne_eq, List.cons.injEq]

/-- A line as the comparison sees it: the first token, and the others in one case. -/
def lineOf (line : JString) : JString × List JString :=
  ((columnOf line).name, foldedParams caseMap (columnOf line).params)

/-- The lines whose first token does not come again. -/
def survivingLines (inner : List JString) : List (JString × List JString) :=
  Hashtable.survivors (inner.map (lineOf caseMap))

theorem columnsDiffer_iff {left right : MyTable} :
    ColumnsDiffer caseMap left right ↔
      ∃ key, (left.columnMap.get key).map (fun c => foldedParams caseMap c.params) ≠
        (right.columnMap.get key).map fun c => foldedParams caseMap c.params := by
  unfold ColumnsDiffer
  rw [← exists_or]
  refine exists_congr ?_
  intro key
  rw [Hashtable.mem_keySet_iff, Hashtable.mem_keySet_iff]
  simp only [paramsDiffer_iff]
  cases left.columnMap.get key with
  | none => cases right.columnMap.get key <;> simp
  | some l => cases right.columnMap.get key <;> simp

/-- **Two tables differ exactly if the lines that are left do.** -/
theorem columnsDiffer_tableOf_iff {name name' : JString} {inner inner' : List JString} :
    ColumnsDiffer caseMap (tableOf name inner) (tableOf name' inner') ↔
      ¬ (survivingLines caseMap inner).Perm (survivingLines caseMap inner') := by
  have hget : ∀ (name : JString) (inner : List JString) (key : JString),
      ((tableOf name inner).columnMap.get key).map (fun c => foldedParams caseMap c.params)
        = Hashtable.lastValue (inner.map (lineOf caseMap)) key := by
    intro name inner key
    have hlines : inner.map (lineOf caseMap)
        = (inner.map entry).map fun e => (e.1, foldedParams caseMap e.2.params) := by
      rw [List.map_map]
      rfl
    rw [hlines, Hashtable.lastValue_map fun c : MyColumn => foldedParams caseMap c.params, tableOf,
      Hashtable.get_ofList]
  rw [columnsDiffer_iff, survivingLines, survivingLines, Hashtable.survivors_perm_iff, not_forall]
  simp only [hget]

end

/-! ## 2. Scripts with one block of a table -/

/-- The script has one block of the table, and it is closed. -/
def OnlyBlock (lines : List JString) (name : JString) (inner : List JString) : Prop :=
  ∃ before header after, blocks lines = before ++ ⟨header, inner, true⟩ :: after ∧
    tableName header = .ok name ∧ ∀ block ∈ before ++ after, tableName block.header ≠ .ok name

theorem Block.name_eq {block : Block} {e : JString × MyTable} (h : block.table? = some e) :
    tableName block.header = .ok e.1 := by
  unfold Block.table? at h
  split at h
  · rename_i name hname
    split at h
    · cases h
      exact hname
    · exact absurd h (by simp)
  · exact absurd h (by simp)

/-- The table is in the map. -/
theorem OnlyBlock.get {lines : List JString} {name : JString} {inner : List JString}
    (h : OnlyBlock lines name inner) :
    (Hashtable.ofList ((blocks lines).filterMap Block.table?)).get name
      = some (tableOf name inner) := by
  obtain ⟨before, header, after, hblocks, hname, hothers⟩ := h
  have htable : Block.table? ⟨header, inner, true⟩ = some (name, tableOf name inner) := by
    rw [Block.table?, hname]
    rfl
  have hafter : name ∉ (after.filterMap Block.table?).map Prod.fst := by
    intro hmem
    obtain ⟨e, he, rfl⟩ := List.mem_map.mp hmem
    obtain ⟨block, hblock, hsome⟩ := List.mem_filterMap.mp he
    exact hothers block (List.mem_append_right _ hblock) (Block.name_eq hsome)
  rw [Hashtable.get_ofList, hblocks, List.filterMap_append, List.filterMap_cons_some htable,
    Hashtable.lastValue_append_cons _ _ hafter]

/-- A line that begins a table. -/
structure Header where
  line : JString
  name : JString
  isHeader : isHeader line = true
  named : tableName line = .ok name

/-- A script that is one block. -/
def oneBlock (header : Header) (inner : List JString) (close : { line : JString // closes line }) :
    List JString :=
  header.line :: (inner ++ [close.val])

section OneBlock

variable (header : Header) {inner : List JString} (hinner : ∀ line ∈ inner, closes line = false)
  (close : { line : JString // closes line })

include hinner

theorem blocks_oneBlock : blocks (oneBlock header inner close) = [⟨header.line, inner, true⟩] := by
  rw [oneBlock, blocks, if_pos header.isHeader, blocksFrom_close _ hinner close.property]
  rfl

theorem onlyBlock_oneBlock : OnlyBlock (oneBlock header inner close) header.name inner :=
  ⟨[], header.line, [], blocks_oneBlock header hinner close, header.named, nofun⟩

theorem readable_oneBlock : ∀ block ∈ blocks (oneBlock header inner close), Readable block := by
  rw [blocks_oneBlock header hinner close, List.forall_mem_singleton]
  exact ⟨header.name, header.named⟩

/-- **A block is read as the table of its lines.** -/
theorem readTables_oneBlock : ∃ map, readTables (oneBlock header inner close) .empty = .ok map ∧
    map.get header.name = some (tableOf header.name inner) := by
  rcases readTables_eq (oneBlock header inner close) with ⟨-, heq⟩ | ⟨⟨block, hmem, hnot⟩, -⟩
  · exact ⟨_, heq, (onlyBlock_oneBlock header hinner close).get⟩
  · exact absurd (readable_oneBlock header hinner close block hmem) hnot

end OneBlock

/-- The table of the name, as it is read from either script. -/
def ReadAs (lines lines' : List JString) (name : JString) (left right : MyTable) : Prop :=
  ∃ leftMap rightMap, leftLoop lines = .ok leftMap ∧ rightLoop lines' = .ok rightMap ∧
    leftMap.get name = some left ∧ rightMap.get name = some right

theorem readAs_oneBlock_iff (header : Header) (close : { line : JString // closes line })
    {inner inner' : List JString} (hinner : ∀ line ∈ inner, closes line = false)
    (hinner' : ∀ line ∈ inner', closes line = false) {left right : MyTable} :
    ReadAs (oneBlock header inner close) (oneBlock header inner' close) header.name left right ↔
      left = tableOf header.name inner ∧ right = tableOf header.name inner' := by
  obtain ⟨map, hmap, hget⟩ := readTables_oneBlock header hinner close
  obtain ⟨map', hmap', hget'⟩ := readTables_oneBlock header hinner' close
  simp only [ReadAs, leftLoop, rightLoop, hmap, hmap', Except.ok.injEq]
  constructor
  · rintro ⟨_, _, rfl, rfl, hleft, hright⟩
    rw [hget, Option.some.injEq] at hleft
    rw [hget', Option.some.injEq] at hright
    exact ⟨hleft.symm, hright.symm⟩
  · rintro ⟨rfl, rfl⟩
    exact ⟨map, map', rfl, rfl, hget, hget'⟩

/-! ## 3. Differences that are missed -/

section

variable (caseMap : CaseMap) (hashSet : IterationOrder JString)

/-- The run ends, and it prints a difference line about the table. -/
def Reports (left right : List JString) (name : JString) : Prop :=
  ∃ report, compareScripts caseMap hashSet left right = .ok report ∧ ReportsDifference report name

/-- **When a table is reported.** -/
theorem reports_iff {left right : List JString} {name : JString} {inner inner' : List JString}
    (hleft : OnlyBlock left name inner) (hright : OnlyBlock right name inner') :
    Reports caseMap hashSet left right name ↔
      (∀ block ∈ blocks left ++ blocks right, Readable block) ∧
        ¬ (survivingLines caseMap inner).Perm (survivingLines caseMap inner') := by
  rw [List.forall_mem_append, and_assoc, Reports, compareScripts, leftLoop, rightLoop]
  rcases readTables_eq left with ⟨hok, heq⟩ | ⟨⟨block, hmem, hnot⟩, e, heq⟩
  · rcases readTables_eq right with ⟨hok', heq'⟩ | ⟨⟨block, hmem, hnot⟩, e, heq'⟩
    · have hkey : name ∈ (Hashtable.ofList ((blocks left).filterMap Block.table?)).keySet :=
        Hashtable.mem_keySet_of_get hleft.get
      have hkey' : name ∈ (Hashtable.ofList ((blocks right).filterMap Block.table?)).keySet :=
        Hashtable.mem_keySet_of_get hright.get
      have hlines : ColumnsDiffer caseMap (tableOf name inner) (tableOf name inner') ↔
          ¬ (survivingLines caseMap inner).Perm (survivingLines caseMap inner') :=
        columnsDiffer_tableOf_iff caseMap
      rw [heq, heq', and_iff_right hok, and_iff_right hok', ← hlines]
      simp [reportsDifference_iff, hkey, hkey', hleft.get, hright.get]
    · rw [heq, heq']
      simp only [reduceCtorEq, false_and, exists_false, false_iff]
      exact fun h => hnot (h.2.1 block hmem)
  · rw [heq]
    simp only [reduceCtorEq, false_and, exists_false, false_iff]
    exact fun h => hnot (h.1 block hmem)

/-- A line split on whitespace, with its tokens after the first in one case. -/
def lineTokens (line : JString) : List JString :=
  match words line with
  | [] => []
  | first :: rest => first :: folded caseMap rest

/-- The lines of the two tables differ, as multisets. -/
def LinesDiffer (inner inner' : List JString) : Prop :=
  ¬ (inner.map (lineTokens caseMap)).Perm (inner'.map (lineTokens caseMap))

/-- **When no difference is missed.**  Lines that differ are reported exactly if the run ends and
the lines that no later line overwrites differ too. -/
theorem misses_nothing_iff {left right : List JString} {name : JString}
    {inner inner' : List JString} (hleft : OnlyBlock left name inner)
    (hright : OnlyBlock right name inner') :
    (LinesDiffer caseMap inner inner' → Reports caseMap hashSet left right name) ↔
      ¬ LinesDiffer caseMap inner inner' ∨
        ((∀ block ∈ blocks left ++ blocks right, Readable block) ∧
          ¬ (survivingLines caseMap inner).Perm (survivingLines caseMap inner')) := by
  rw [reports_iff caseMap hashSet hleft hright, imp_iff_not_or]

end

/-! Scripts with a table `t`; the case tables on ASCII. -/

def header : Header := ⟨text "create table t (", text "t", rfl, rfl⟩

def close : { line : JString // closes line } := ⟨text ")", rfl⟩

def asciiCase : CaseMap where
  toUpperCase c := if 0x61 ≤ c.toNat ∧ c.toNat ≤ 0x7A then c - 0x20 else c
  toLowerCase c := if 0x41 ≤ c.toNat ∧ c.toNat ≤ 0x5A then c + 0x20 else c

/-- Each element where it was added last. -/
def lastAdded : IterationOrder JString := ⟨List.dedup, fun _ => .refl _⟩

/-- A column that changed is reported. -/
theorem changed_column_reported :
    Reports asciiCase lastAdded (oneBlock header [text "id int", text "name CHAR"] close)
      (oneBlock header [text "name int", text "id INT"] close) (text "t") := by
  have hleft : ∀ line ∈ [text "id int", text "name CHAR"], closes line = false := by decide
  have hright : ∀ line ∈ [text "name int", text "id INT"], closes line = false := by decide
  have hreadable := List.forall_mem_append.mpr
    ⟨readable_oneBlock header hleft close, readable_oneBlock header hright close⟩
  refine (misses_nothing_iff asciiCase lastAdded (onlyBlock_oneBlock header hleft close)
    (onlyBlock_oneBlock header hright close)).mpr (Or.inr ⟨hreadable, ?_⟩) ?_
  · decide
  · unfold LinesDiffer
    decide

/-- Of two keys only the last one counts, and the other one may change. -/
theorem first_key_missed :
    ¬ ∀ (caseMap : CaseMap) (hashSet : IterationOrder JString) (left right : List JString)
      (name : JString) (inner inner' : List JString), OnlyBlock left name inner →
      OnlyBlock right name inner' → LinesDiffer caseMap inner inner' →
      Reports caseMap hashSet left right name := by
  intro h
  have hleft : ∀ line ∈ [text "key a", text "key b"], closes line = false := by decide
  have hright : ∀ line ∈ [text "key c", text "key b"], closes line = false := by decide
  have honly := onlyBlock_oneBlock header hleft close
  have honly' := onlyBlock_oneBlock header hright close
  have hdiffer : LinesDiffer asciiCase [text "key a", text "key b"]
      [text "key c", text "key b"] := by
    unfold LinesDiffer
    decide
  have hreports := h asciiCase lastAdded _ _ _ _ _ honly honly' hdiffer
  refine ((reports_iff asciiCase lastAdded honly honly').mp hreports).2 ?_
  decide

/-! ## 4. The order of the columns -/

/-- A column as SQL writes it, with the blanks in front of a comma that follows it. -/
structure SqlColumn extends ColumnLine where
  beforeComma : Blanks
  /-- A comma at the end of the name would be the one that follows the column. -/
  noComma : name.val.getLast? ≠ some (unit ',')

def SqlColumn.textComma (column : SqlColumn) : JString :=
  column.lead.val ++ (column.body ++ column.beforeComma.val ++ [unit ',']) ++ column.trail.val

/-- The lines of a block: a comma follows every column but the last. -/
def sqlText (columns : List SqlColumn) : List JString :=
  columns.dropLast.map SqlColumn.textComma ++ columns.getLast?.toList.map fun column => column.text

/-- The column itself: its name and the tokens behind it. -/
def ColumnLine.tokens (line : ColumnLine) : JString × List JString :=
  (line.name.val, line.params.map fun gw => gw.2.val)

/-- What follows a column: nothing, a comma at its last token, or a comma that is a token. -/
inductive Ending where
  | bare
  | glued
  | apart
  deriving DecidableEq

/-- A comma at the last token. -/
def glue : JString → List JString → JString × List JString
  | first, [] => (first ++ [unit ','], [])
  | first, token :: tokens => (first, (glue token tokens).1 :: (glue token tokens).2)

/-- The tokens of a column with its ending. -/
def Ending.apply : Ending → JString × List JString → JString × List JString
  | .bare, column => column
  | .glued, column => glue column.1 column.2
  | .apart, column => (column.1, column.2 ++ [[unit ',']])

def SqlColumn.ending (column : SqlColumn) : Ending :=
  if column.beforeComma.val = [] then .glued else .apart

/-- The columns of a block with their endings. -/
def endings (columns : List SqlColumn) : List ((JString × List JString) × Ending) :=
  (columns.dropLast.map fun column => (column.tokens, column.ending)) ++
    columns.getLast?.toList.map fun column => (column.tokens, .bare)

/-! ### The comma is read as part of the column -/

def Word.glue (w : Word) : Word where
  val := w.val ++ [unit ',']
  ne_nil := List.concat_ne_nil _ _
  above := List.forall_mem_append.mpr ⟨w.above, List.forall_mem_singleton.mpr rfl⟩

def commaWord : Word where
  val := [unit ',']
  ne_nil := List.cons_ne_nil _ _
  above := List.forall_mem_singleton.mpr rfl

/-- A comma at the last word. -/
def glueWord : Word → List (Gap × Word) → Word × List (Gap × Word)
  | first, [] => (first.glue, [])
  | first, (g, w) :: rest => (first, (g, (glueWord w rest).1) :: (glueWord w rest).2)

def restOf (params : List (Gap × Word)) : List (JString × JString) :=
  params.map fun gw => (gw.1.val, gw.2.val)

theorem joined_glueWord (first : Word) (rest : List (Gap × Word)) :
    joined (glueWord first rest).1.val (restOf (glueWord first rest).2)
      = joined first.val (restOf rest) ++ [unit ','] := by
  induction rest generalizing first with
  | nil => simp [glueWord, joined, restOf, Word.glue]
  | cons gw rest ih =>
    obtain ⟨g, w⟩ := gw
    have hrest := ih w
    rw [restOf] at hrest
    rw [glueWord, restOf, List.map_cons, restOf, List.map_cons, joined_cons, joined_cons, hrest,
      List.append_assoc, List.append_assoc]
    rfl

theorem joined_concat (first g w : JString) (rest : List (JString × JString)) :
    joined first (rest ++ [(g, w)]) = joined first rest ++ g ++ w := by
  simp [joined]

theorem ne_closing (s : JString) : s ++ [unit ','] ≠ [unit ')'] := by
  intro h
  have hlast := congrArg List.getLast? h
  rw [List.getLast?_concat, List.getLast?_singleton] at hlast
  exact absurd hlast (by decide)

/-- The line of a column and its comma. -/
def SqlColumn.commaLine (column : SqlColumn) : ColumnLine :=
  if h : column.beforeComma.val = [] then
    { lead := column.lead
      name := (glueWord column.name column.params).1
      params := (glueWord column.name column.params).2
      trail := column.trail
      notClosing := fun heq => ne_closing _ ((joined_glueWord _ _).symm.trans heq) }
  else
    { lead := column.lead
      name := column.name
      params := column.params ++ [(⟨column.beforeComma, h⟩, commaWord)]
      trail := column.trail
      notClosing := by
        rw [List.map_append]
        exact fun heq => ne_closing _ ((joined_concat _ _ _ _).symm.trans heq) }

theorem SqlColumn.text_commaLine (column : SqlColumn) :
    column.commaLine.text = column.textComma := by
  have hbody : column.commaLine.body = column.body ++ column.beforeComma.val ++ [unit ','] := by
    unfold commaLine
    split
    · rename_i h
      rw [h, List.append_nil]
      exact joined_glueWord column.name column.params
    · have hrest : restOf (column.params ++ [(⟨column.beforeComma, ‹_›⟩, commaWord)])
          = restOf column.params ++ [(column.beforeComma.val, [unit ','])] := List.map_append
      exact (congrArg (joined column.name.val) hrest).trans (joined_concat _ _ _ _)
  have hpadding : column.commaLine.lead = column.lead ∧ column.commaLine.trail = column.trail := by
    unfold commaLine
    split
    · exact ⟨rfl, rfl⟩
    · exact ⟨rfl, rfl⟩
  rw [ColumnLine.text, hbody, hpadding.1, hpadding.2, textComma]

theorem glueWord_eq_glue (first : Word) (rest : List (Gap × Word)) :
    ((glueWord first rest).1.val, (glueWord first rest).2.map fun gw => gw.2.val)
      = glue first.val (rest.map fun gw => gw.2.val) := by
  induction rest generalizing first with
  | nil => rfl
  | cons gw rest ih =>
    obtain ⟨g, w⟩ := gw
    rw [glueWord, List.map_cons, List.map_cons, glue, ← ih w]

/-- **The tokens of a line with a comma.** -/
theorem SqlColumn.tokens_commaLine (column : SqlColumn) :
    column.commaLine.tokens = column.ending.apply column.tokens := by
  unfold commaLine ending
  split
  · exact glueWord_eq_glue _ _
  · simp [ColumnLine.tokens, Ending.apply, commaWord]

section

variable (caseMap : CaseMap) (hashSet : IterationOrder JString)

theorem lineOf_text (line : ColumnLine) :
    lineOf caseMap line.text = (line.tokens.1, folded caseMap line.tokens.2) := by
  rw [lineOf, columnOf_text, ColumnLine.tokens, foldedParams, ColumnLine.column, List.map_map]
  rfl

/-- A column and its ending, as the comparison sees their line. -/
def written (ce : (JString × List JString) × Ending) : JString × List JString :=
  ((ce.2.apply ce.1).1, folded caseMap (ce.2.apply ce.1).2)

/-- **A block as the comparison sees it.** -/
theorem map_lineOf_sqlText (columns : List SqlColumn) :
    (sqlText columns).map (lineOf caseMap) = (endings columns).map (written caseMap) := by
  rw [sqlText, endings, List.map_append, List.map_append, List.map_map, List.map_map, List.map_map,
    List.map_map]
  congr 1
  · refine List.map_congr_left ?_
    intro column _
    dsimp only [Function.comp]
    rw [← column.text_commaLine, lineOf_text, column.tokens_commaLine]
    rfl
  · refine List.map_congr_left ?_
    intro column _
    exact lineOf_text caseMap column.toColumnLine

theorem closes_sqlText (columns : List SqlColumn) :
    ∀ line ∈ sqlText columns, closes line = false := by
  intro line hline
  rcases List.mem_append.mp hline with hline | hline
  · obtain ⟨column, -, rfl⟩ := List.mem_map.mp hline
    rw [← column.text_commaLine]
    exact closes_text _
  · obtain ⟨column, -, rfl⟩ := List.mem_map.mp hline
    exact closes_text _

/-! ### Lines tell columns and endings apart -/

/-- The number of characters in the tokens of a line. -/
def size (line : JString × List JString) : Nat := line.1.length + (line.2.map List.length).sum

theorem length_glue (first : JString) (tokens : List JString) :
    (glue first tokens).2.length = tokens.length := by
  induction tokens generalizing first with
  | nil => rfl
  | cons token tokens ih => exact congrArg (· + 1) (ih token)

theorem size_glue (first : JString) (tokens : List JString) :
    size (glue first tokens) = size (first, tokens) + 1 := by
  induction tokens generalizing first with
  | nil => simp [glue, size]
  | cons token tokens ih =>
    have hrest := ih token
    simp only [size] at hrest
    simp only [glue, size, List.map_cons, List.sum_cons]
    omega

theorem size_written (column : JString × List JString) (e : Ending) :
    size (written caseMap (column, e)) = size column + if e = .bare then 0 else 1 := by
  have hfold : size (written caseMap (column, e)) = size (e.apply column) := by
    simp [written, size, folded, Function.comp_def]
  rw [hfold]
  cases e with
  | bare => rfl
  | glued => exact size_glue column.1 column.2
  | apart => simp [Ending.apply, size, Nat.add_assoc]

theorem length_written (column : JString × List JString) (e : Ending) :
    (written caseMap (column, e)).2.length = column.2.length + if e = .apart then 1 else 0 := by
  rw [written, folded, List.length_map]
  cases e with
  | bare => rfl
  | glued => exact length_glue column.1 column.2
  | apart => exact List.length_append

/-- One column, two endings: the lines differ. -/
theorem ending_eq {column : JString × List JString} {e e' : Ending}
    (h : written caseMap (column, e) = written caseMap (column, e')) : e = e' := by
  have hsize := congrArg size h
  have hlength := congrArg (fun line => line.2.length) h
  simp only [size_written, length_written] at hsize hlength
  cases e <;> cases e' <;> simp at hsize hlength ⊢

theorem apply_fst (e : Ending) (column : JString × List JString) :
    (e.apply column).1 = column.1 ∨ (e.apply column).1 = column.1 ++ [unit ','] := by
  cases e with
  | bare => exact Or.inl rfl
  | glued =>
    obtain ⟨first, tokens⟩ := column
    cases tokens with
    | nil => exact Or.inr rfl
    | cons token tokens => exact Or.inl rfl
  | apart => exact Or.inl rfl

/-- One key, one name. -/
theorem name_eq {column column' : JString × List JString} {e e' : Ending}
    (h : column.1.getLast? ≠ some (unit ',')) (h' : column'.1.getLast? ≠ some (unit ','))
    (heq : (e.apply column).1 = (e'.apply column').1) : column.1 = column'.1 := by
  rcases apply_fst e column with hkey | hkey
  · rcases apply_fst e' column' with hkey' | hkey'
    · rw [← hkey, heq, hkey']
    · rw [hkey, hkey'] at heq
      rw [heq, List.getLast?_concat] at h
      exact absurd rfl h
  · rcases apply_fst e' column' with hkey' | hkey'
    · rw [hkey, hkey'] at heq
      rw [← heq, List.getLast?_concat] at h'
      exact absurd rfl h'
    · rw [hkey, hkey'] at heq
      exact List.append_cancel_right heq

/-- **Two blocks make the same lines exactly if each column has one ending in both.** -/
theorem written_perm_iff {block block' : List ((JString × List JString) × Ending)}
    (hperm : (block.map Prod.fst).Perm (block'.map Prod.fst))
    (hnodup : (block.map fun ce => ce.1.1).Nodup) (hnodup' : (block'.map fun ce => ce.1.1).Nodup)
    (hcomma : ∀ ce ∈ block, ce.1.1.getLast? ≠ some (unit ','))
    (hcomma' : ∀ ce ∈ block', ce.1.1.getLast? ≠ some (unit ',')) :
    (block.map (written caseMap)).Perm (block'.map (written caseMap)) ↔
      ∀ column e e', (column, e) ∈ block → (column, e') ∈ block' → e = e' := by
  constructor
  · intro h column e e' he he'
    obtain ⟨ce, hce, heq⟩ := List.mem_map.mp (h.mem_iff.mp (List.mem_map_of_mem he))
    have hkey : (ce.2.apply ce.1).1 = (e.apply column).1 := (Prod.ext_iff.mp heq).1
    have hname : ce.1.1 = column.1 := name_eq (hcomma' ce hce) (hcomma _ he) hkey
    have hsame : ce = (column, e') := List.inj_on_of_nodup_map hnodup' hce he' hname
    rw [hsame] at heq
    exact (ending_eq caseMap heq).symm
  · intro h
    refine List.Perm.map _ ?_
    rw [List.perm_ext_iff_of_nodup (.of_map _ hnodup) (.of_map _ hnodup')]
    rintro ⟨column, e⟩
    constructor
    · intro he
      obtain ⟨⟨c, e'⟩, he', rfl⟩ := List.mem_map.mp (hperm.mem_iff.mp (List.mem_map_of_mem he))
      rw [h c e e' he he']
      exact he'
    · intro he'
      obtain ⟨⟨c, e⟩, he, rfl⟩ := List.mem_map.mp (hperm.mem_iff.mpr (List.mem_map_of_mem he'))
      rw [← h c e _ he he']
      exact he

theorem map_fst_endings (columns : List SqlColumn) :
    (endings columns).map Prod.fst = columns.map fun column => column.tokens := by
  rcases List.eq_nil_or_concat columns with rfl | ⟨init, last, rfl⟩
  · rfl
  · simp [endings]

theorem mem_endings_iff {columns : List SqlColumn} {column : JString × List JString} {e : Ending} :
    (column, e) ∈ endings columns ↔
      (∃ c ∈ columns.dropLast, c.tokens = column ∧ c.ending = e) ∨
        ∃ c ∈ columns.getLast?, c.tokens = column ∧ Ending.bare = e := by
  simp only [endings, List.mem_append, List.mem_map, Prod.mk.injEq, Option.mem_toList,
    Option.mem_def]

section Endings

variable {columns : List SqlColumn}
  (hnames : (columns.map fun column => column.name.val).Nodup)

include hnames

theorem nodup_endings : ((endings columns).map fun ce => ce.1.1).Nodup := by
  have hfst : (endings columns).map (fun ce => ce.1.1)
      = columns.map fun column => column.name.val := by
    have hmap := congrArg (List.map Prod.fst) (map_fst_endings columns)
    rw [List.map_map, List.map_map] at hmap
    exact hmap
  rw [hfst]
  exact hnames

omit hnames in
theorem noComma_endings : ∀ ce ∈ endings columns, ce.1.1.getLast? ≠ some (unit ',') := by
  intro ce hce
  have hmem : ce.1 ∈ columns.map fun column => column.tokens := by
    rw [← map_fst_endings]
    exact List.mem_map_of_mem hce
  obtain ⟨column, -, heq⟩ := List.mem_map.mp hmem
  rw [← heq]
  exact column.noComma

/-- No line of a block overwrites another. -/
theorem survivingLines_sqlText :
    survivingLines caseMap (sqlText columns) = (endings columns).map (written caseMap) := by
  rw [survivingLines, map_lineOf_sqlText]
  refine Hashtable.survivors_eq_self ?_
  rw [List.map_map]
  refine List.Nodup.map_on ?_ (.of_map _ (nodup_endings hnames))
  intro ce hce ce' hce' hkey
  have hname : ce.1.1 = ce'.1.1 :=
    name_eq (noComma_endings ce hce) (noComma_endings ce' hce') hkey
  exact List.inj_on_of_nodup_map (nodup_endings hnames) hce hce' hname

end Endings

/-- The same column is the last one of both blocks, and the comma of each other column is set off by
blanks in both or in none. -/
def SameEndings (columns columns' : List SqlColumn) : Prop :=
  columns.getLast?.map (fun column => column.tokens)
      = columns'.getLast?.map (fun column => column.tokens) ∧
    ∀ column ∈ columns.dropLast, ∀ column' ∈ columns'.dropLast, column.tokens = column'.tokens →
      (column.beforeComma.val = [] ↔ column'.beforeComma.val = [])

theorem ending_ne_bare (column : SqlColumn) : column.ending ≠ .bare := by
  unfold SqlColumn.ending
  split <;> decide

theorem ending_eq_iff {column column' : SqlColumn} : column.ending = column'.ending ↔
    (column.beforeComma.val = [] ↔ column'.beforeComma.val = []) := by
  unfold SqlColumn.ending
  by_cases h : column.beforeComma.val = [] <;> by_cases h' : column'.beforeComma.val = [] <;>
    simp [h, h']

/-- The last column is none of the others. -/
theorem tokens_ne_last {init : List SqlColumn} {last column : SqlColumn}
    (hnames : ((init ++ [last]).map fun column => column.name.val).Nodup) (h : column ∈ init) :
    column.tokens ≠ last.tokens := by
  intro heq
  rw [List.map_append, List.nodup_append] at hnames
  exact hnames.2.2 _ (List.mem_map_of_mem h) _ (List.mem_singleton_self _)
    (Prod.ext_iff.mp heq).1

/-- **The endings are the same exactly if the last column is, and the commas are set alike.** -/
theorem endings_agree_iff {columns columns' : List SqlColumn}
    (hnames : (columns.map fun column => column.name.val).Nodup)
    (hnames' : (columns'.map fun column => column.name.val).Nodup)
    (hperm : (columns.map fun column => column.tokens).Perm
      (columns'.map fun column => column.tokens)) :
    (∀ column e e', (column, e) ∈ endings columns → (column, e') ∈ endings columns' → e = e') ↔
      SameEndings columns columns' := by
  rcases List.eq_nil_or_concat' columns with rfl | ⟨init, last, rfl⟩
  · have hnil : columns' = [] := List.map_eq_nil_iff.mp hperm.nil_eq.symm
    rw [hnil]
    exact iff_of_true nofun ⟨rfl, nofun⟩
  rcases List.eq_nil_or_concat' columns' with rfl | ⟨init', last', rfl⟩
  · simp at hperm
  simp only [mem_endings_iff, SameEndings, List.dropLast_concat, List.getLast?_concat,
    Option.map_some, Option.some.injEq, Option.mem_def, exists_eq_left']
  constructor
  · intro h
    constructor
    · have hmem : last.tokens ∈ (init' ++ [last']).map fun column => column.tokens :=
        hperm.mem_iff.mp (List.mem_map_of_mem List.mem_concat_self)
      obtain ⟨column, hcolumn, heq⟩ := List.mem_map.mp hmem
      rcases List.mem_append.mp hcolumn with hinit | hlast
      · have hbare := h last.tokens .bare column.ending (Or.inr ⟨rfl, rfl⟩)
          (Or.inl ⟨column, hinit, heq, rfl⟩)
        exact absurd hbare.symm (ending_ne_bare column)
      · rw [← heq, List.mem_singleton.mp hlast]
    · intro column hcolumn column' hcolumn' heq
      exact ending_eq_iff.mp (h column.tokens _ _ (Or.inl ⟨column, hcolumn, rfl, rfl⟩)
        (Or.inl ⟨column', hcolumn', heq.symm, rfl⟩))
  · rintro ⟨hlast, hcommas⟩ tokens e e' (⟨column, hcolumn, rfl, rfl⟩ | ⟨rfl, rfl⟩)
      (⟨column', hcolumn', heq, rfl⟩ | ⟨heq, rfl⟩)
    · exact ending_eq_iff.mpr (hcommas column hcolumn column' hcolumn' heq.symm)
    · exact absurd (heq.symm.trans hlast.symm) (tokens_ne_last hnames hcolumn)
    · exact absurd (heq.trans hlast) (tokens_ne_last hnames' hcolumn')
    · rfl

/-- The comparison of two tables reports no difference. -/
def NoDifference (left right : MyTable) : Prop :=
  ∀ line ∈ compareTable caseMap hashSet left right, line.isDifference = false

theorem noDifference_sqlText_iff {name name' : JString} {columns columns' : List SqlColumn}
    (hnames : (columns.map fun column => column.name.val).Nodup)
    (hperm : (columns.map fun column => column.tokens).Perm
      (columns'.map fun column => column.tokens)) :
    NoDifference caseMap hashSet (tableOf name (sqlText columns))
        (tableOf name' (sqlText columns')) ↔ SameEndings columns columns' := by
  have hnames' : (columns'.map fun column => column.name.val).Nodup := by
    have hmap := hperm.map Prod.fst
    rw [List.map_map, List.map_map] at hmap
    exact hmap.nodup_iff.mp hnames
  have hendings : ((endings columns).map Prod.fst).Perm ((endings columns').map Prod.fst) := by
    rw [map_fst_endings, map_fst_endings]
    exact hperm
  have hnone : NoDifference caseMap hashSet (tableOf name (sqlText columns))
      (tableOf name' (sqlText columns')) ↔
      ¬ ColumnsDiffer caseMap (tableOf name (sqlText columns))
        (tableOf name' (sqlText columns')) := by
    rw [← exists_difference_compareTable caseMap hashSet]
    simp [NoDifference]
  rw [hnone, columnsDiffer_tableOf_iff, not_not, survivingLines_sqlText caseMap hnames,
    survivingLines_sqlText caseMap hnames',
    written_perm_iff caseMap hendings (nodup_endings hnames) (nodup_endings hnames')
      noComma_endings noComma_endings,
    endings_agree_iff hnames hnames' hperm]

/-- **When the order of the columns does not matter.**  Two blocks with the same columns in another
order are read, and no difference is reported exactly if the same column comes last and the commas
are set alike. -/
theorem permuted_iff (header : Header) (close : { line : JString // closes line })
    {columns columns' : List SqlColumn}
    (hnames : (columns.map fun column => column.name.val).Nodup)
    (hperm : (columns.map fun column => column.tokens).Perm
      (columns'.map fun column => column.tokens)) :
    ∃ left right, ReadAs (oneBlock header (sqlText columns) close)
        (oneBlock header (sqlText columns') close) header.name left right ∧
      (NoDifference caseMap hashSet left right ↔ SameEndings columns columns') := by
  refine ⟨_, _, (readAs_oneBlock_iff header close (closes_sqlText columns)
    (closes_sqlText columns')).mpr ⟨rfl, rfl⟩, ?_⟩
  exact noDifference_sqlText_iff caseMap hashSet hnames hperm

end

/-! Columns of numbers. -/

def wordA : Word := ⟨text "a", by decide, by simp [text, unit, blank]⟩

def wordB : Word := ⟨text "b", by decide, by simp [text, unit, blank]⟩

def wordC : Word := ⟨text "c", by decide, by simp [text, unit, blank]⟩

def wordInt : Word := ⟨text "int", by decide, by simp [text, unit, blank]⟩

/-- `NAME int`. -/
def intColumn (name : Word) (h : name.val.getLast? ≠ some (unit ',')) : SqlColumn where
  lead := ⟨[], nofun⟩
  name := name
  params := [(⟨⟨[unit ' '], by simp⟩, by decide⟩, wordInt)]
  trail := ⟨[], nofun⟩
  notClosing := by
    intro heq
    have hlength := congrArg List.length heq
    simp [joined, wordInt, text] at hlength
  beforeComma := ⟨[], nofun⟩
  noComma := h

def columnA : SqlColumn := intColumn wordA (by decide)

def columnB : SqlColumn := intColumn wordB (by decide)

def columnC : SqlColumn := intColumn wordC (by decide)

/-- The first two of three columns change places, and nothing is reported. -/
theorem first_columns_swapped : ∃ left right,
    ReadAs (oneBlock header (sqlText [columnA, columnB, columnC]) close)
      (oneBlock header (sqlText [columnB, columnA, columnC]) close) header.name left right ∧
    NoDifference asciiCase lastAdded left right := by
  have hnames : ([columnA, columnB, columnC].map fun column => column.name.val).Nodup := by decide
  have hperm : ([columnA, columnB, columnC].map fun column => column.tokens).Perm
      ([columnB, columnA, columnC].map fun column => column.tokens) := by decide
  have hsame : SameEndings [columnA, columnB, columnC] [columnB, columnA, columnC] := by
    have hglued : ∀ column ∈ [columnA, columnB], column.beforeComma.val = [] :=
      List.forall_mem_cons.mpr ⟨rfl, List.forall_mem_singleton.mpr rfl⟩
    have hglued' : ∀ column ∈ [columnB, columnA], column.beforeComma.val = [] :=
      List.forall_mem_cons.mpr ⟨rfl, List.forall_mem_singleton.mpr rfl⟩
    refine ⟨rfl, ?_⟩
    intro column hcolumn column' hcolumn' _
    exact iff_of_true (hglued column hcolumn) (hglued' column' hcolumn')
  obtain ⟨left, right, hread, hiff⟩ :=
    permuted_iff asciiCase lastAdded header close hnames hperm
  exact ⟨left, right, hread, hiff.mpr hsame⟩

/-- The two columns of a block change places, and both are reported to differ. -/
theorem last_column_swapped :
    ¬ ∀ (caseMap : CaseMap) (hashSet : IterationOrder JString) (header : Header)
      (close : { line : JString // closes line }) (columns columns' : List SqlColumn),
      (columns.map fun column => column.name.val).Nodup →
      (columns.map fun column => column.tokens).Perm (columns'.map fun column => column.tokens) →
      ∃ left right, ReadAs (oneBlock header (sqlText columns) close)
          (oneBlock header (sqlText columns') close) header.name left right ∧
        NoDifference caseMap hashSet left right := by
  intro h
  have hnames : ([columnA, columnB].map fun column => column.name.val).Nodup := by decide
  have hperm : ([columnA, columnB].map fun column => column.tokens).Perm
      ([columnB, columnA].map fun column => column.tokens) := by decide
  obtain ⟨left, right, hread, hnone⟩ := h asciiCase lastAdded header close _ _ hnames hperm
  obtain ⟨rfl, rfl⟩ := (readAs_oneBlock_iff header close (closes_sqlText _)
    (closes_sqlText _)).mp hread
  have hsame := (noDifference_sqlText_iff asciiCase lastAdded hnames hperm).mp hnone
  exact absurd hsame.1 (by decide)

end CompareDBScript
end JavaStudy
