/-
# What the comparison of `CompareDBScript` reports

For any two maps of tables, whether they were read from scripts or not: a difference line is
printed exactly if table names, column names, or the parameters of some column differ
(`differences_iff`), and what is missing on the left when `(L, R)` is compared is missing on the
right when `(R, L)` is.

What is printed about a table is settled one key at a time, since a `HashSet` that two key sets were
added to is iterated over exactly those keys.
-/
import Mathlib.Data.List.Dedup
import JavaStudy.Io.CompareDBScript

namespace JavaStudy
namespace CompareDBScript

open JavaText

/-- The line reports a difference. -/
def Line.isDifference : Line → Bool
  | .missingLeftTable _ => true
  | .missingRightTable _ => true
  | .missingLeftColumn _ => true
  | .missingRightColumn _ => true
  | .differing _ _ => true
  | _ => false

theorem mem_order (hashSet : IterationOrder JString) {left right : List JString} {key : JString} :
    key ∈ hashSet.order (left ++ right) ↔ key ∈ left ∨ key ∈ right := by
  rw [(hashSet.perm _).mem_iff, List.mem_dedup, List.mem_append]

/-- **What is printed for a key of one of the maps.** -/
theorem mem_compareKey_iff {ν : Type} {missingLeft missingRight : List Line}
    {compare : ν → ν → List Line} {left right : LinkedHashMap JString ν} {key : JString}
    {line : Line} :
    line ∈ compareKey missingLeft missingRight compare left right key ∧
        (key ∈ left.keySet ∨ key ∈ right.keySet) ↔
      (key ∉ left.keySet ∧ key ∈ right.keySet ∧ line ∈ missingLeft) ∨
      (key ∈ left.keySet ∧ key ∉ right.keySet ∧ line ∈ missingRight) ∨
      ∃ l r, left.get key = some l ∧ right.get key = some r ∧ line ∈ compare l r := by
  have hleft : key ∈ left.keySet ↔ ∃ l, left.get key = some l := Hashtable.mem_keySet_iff
  have hright : key ∈ right.keySet ↔ ∃ r, right.get key = some r := Hashtable.mem_keySet_iff
  unfold compareKey
  rw [hleft, hright]
  cases left.get key with
  | none => cases right.get key <;> simp
  | some l => cases right.get key <;> simp

section

variable (caseMap : CaseMap) (hashSet : IterationOrder JString)

/-! ## 1. Columns -/

/-- The parameter lists differ in length or in some position, ignoring case. -/
def ParamsDiffer (left right : List Token) : Prop :=
  left.length ≠ right.length ∨
    ∃ (i : Nat) (l r : Token), left[i]? = some l ∧ right[i]? = some r ∧
      caseMap.equalsIgnoreCase l.val r.val = false

theorem paramsDiffer_cons {l r : Token} {left right : List Token} :
    ParamsDiffer caseMap (l :: left) (r :: right) ↔
      caseMap.equalsIgnoreCase l.val r.val = false ∨ ParamsDiffer caseMap left right := by
  unfold ParamsDiffer
  constructor
  · rintro (hlen | ⟨i, a, b, ha, hb, h⟩)
    · exact Or.inr (Or.inl fun heq => hlen (congrArg (· + 1) heq))
    · cases i with
      | zero =>
        cases ha
        cases hb
        exact Or.inl h
      | succ i => exact Or.inr (Or.inr ⟨i, a, b, ha, hb, h⟩)
  · rintro (h | hlen | ⟨i, a, b, ha, hb, h⟩)
    · exact Or.inr ⟨0, l, r, rfl, rfl, h⟩
    · exact Or.inl fun heq => hlen (Nat.succ.inj heq)
    · exact Or.inr ⟨i + 1, a, b, ha, hb, h⟩

theorem compareParams_spec (left right : MyColumn) {leftList rightList : List Token}
    (hlen : leftList.length = rightList.length) :
    (ParamsDiffer caseMap leftList rightList ∧
        compareParams caseMap left right leftList rightList = [.differing left right]) ∨
    (¬ ParamsDiffer caseMap leftList rightList ∧
        compareParams caseMap left right leftList rightList = []) := by
  induction leftList generalizing rightList with
  | nil =>
    cases rightList with
    | nil => exact Or.inr ⟨by simp [ParamsDiffer], rfl⟩
    | cons r rightList => exact absurd hlen (by simp)
  | cons l leftList ih =>
    cases rightList with
    | nil => exact absurd hlen (by simp)
    | cons r rightList =>
      rw [compareParams, l.property, r.property, paramsDiffer_cons]
      have hrest := ih (Nat.succ.inj hlen)
      cases h : caseMap.equalsIgnoreCase l.val r.val with
      | true => simpa using hrest
      | false => simp

/-- **What `compareColumn` prints.** -/
theorem mem_compareColumn_iff {left right : MyColumn} {line : Line} :
    line ∈ compareColumn caseMap left right ↔
      line = .differing left right ∧ ParamsDiffer caseMap left.params right.params := by
  unfold compareColumn
  split
  · rename_i hlen
    have hdiffer : ParamsDiffer caseMap left.params right.params := Or.inl hlen
    rw [List.mem_singleton, and_iff_left hdiffer]
  · rename_i hlen
    rcases compareParams_spec caseMap left right (not_not.mp hlen) with ⟨hdiffer, heq⟩ | ⟨hnot, heq⟩
    · rw [heq, List.mem_singleton, and_iff_left hdiffer]
    · rw [heq]
      exact iff_of_false nofun fun h => hnot h.2

/-! ## 2. Tables -/

/-- Column names differ, or the parameters of a common column do. -/
def ColumnsDiffer (left right : MyTable) : Prop :=
  (∃ key, ¬(key ∈ left.columnMap.keySet ↔ key ∈ right.columnMap.keySet)) ∨
    ∃ key leftColumn rightColumn, left.columnMap.get key = some leftColumn ∧
      right.columnMap.get key = some rightColumn ∧
      ParamsDiffer caseMap leftColumn.params rightColumn.params

theorem mem_compareTable_iff {left right : MyTable} {line : Line} :
    line ∈ compareTable caseMap hashSet left right ↔
      line = .comparing left.tableName ∨ line = .blank ∨
      ∃ key, (key ∉ left.columnMap.keySet ∧ key ∈ right.columnMap.keySet ∧
          line = .missingLeftColumn key) ∨
        (key ∈ left.columnMap.keySet ∧ key ∉ right.columnMap.keySet ∧
          line = .missingRightColumn key) ∨
        ∃ l r, left.columnMap.get key = some l ∧ right.columnMap.get key = some r ∧
          line ∈ compareColumn caseMap l r := by
  have hkeys : line ∈ (hashSet.order (left.columnMap.keySet ++ right.columnMap.keySet)).flatMap
      (compareColumnKey caseMap left right) ↔
      ∃ key, line ∈ compareColumnKey caseMap left right key ∧
        (key ∈ left.columnMap.keySet ∨ key ∈ right.columnMap.keySet) := by
    rw [List.mem_flatMap]
    refine exists_congr ?_
    intro key
    rw [mem_order, and_comm]
  rw [compareTable, List.mem_append, List.mem_cons, List.mem_singleton, hkeys, or_assoc]
  refine or_congr_right ?_
  rw [or_comm]
  refine or_congr_right (exists_congr ?_)
  intro key
  rw [compareColumnKey, mem_compareKey_iff, List.mem_singleton, List.mem_singleton]

/-- **`compareTable` reports a difference exactly if there is one.** -/
theorem exists_difference_compareTable {left right : MyTable} :
    (∃ line ∈ compareTable caseMap hashSet left right, line.isDifference = true) ↔
      ColumnsDiffer caseMap left right := by
  simp only [mem_compareTable_iff, mem_compareColumn_iff]
  constructor
  · rintro ⟨line, rfl | rfl | ⟨key, ⟨hl, hr, -⟩ | ⟨hl, hr, -⟩ | ⟨l, r, hl, hr, -, hdiffer⟩⟩, hdiff⟩
    · exact absurd hdiff Bool.false_ne_true
    · exact absurd hdiff Bool.false_ne_true
    · exact Or.inl ⟨key, fun h => hl (h.mpr hr)⟩
    · exact Or.inl ⟨key, fun h => hr (h.mp hl)⟩
    · exact Or.inr ⟨key, l, r, hl, hr, hdiffer⟩
  · rintro (⟨key, hkey⟩ | ⟨key, l, r, hl, hr, hdiffer⟩)
    · rcases (xor_iff_not_iff _ _).mpr hkey with ⟨hl, hr⟩ | ⟨hr, hl⟩
      · exact ⟨_, Or.inr (Or.inr ⟨key, Or.inr (Or.inl ⟨hl, hr, rfl⟩)⟩), rfl⟩
      · exact ⟨_, Or.inr (Or.inr ⟨key, Or.inl ⟨hl, hr, rfl⟩⟩), rfl⟩
    · exact ⟨_, Or.inr (Or.inr ⟨key, Or.inr (Or.inr ⟨l, r, hl, hr, rfl, hdiffer⟩)⟩), rfl⟩

/-! ## 3. Maps of tables -/

theorem mem_compareTables_iff {left right : Tables} {key : JString} {line : Line} :
    (key, line) ∈ compareTables caseMap hashSet left right ↔
      (key ∉ left.keySet ∧ key ∈ right.keySet ∧ (line = .missingLeftTable key ∨ line = .blank)) ∨
      (key ∈ left.keySet ∧ key ∉ right.keySet ∧ (line = .missingRightTable key ∨ line = .blank)) ∨
      ∃ l r, left.get key = some l ∧ right.get key = some r ∧
        line ∈ compareTable caseMap hashSet l r := by
  have hkey : (key, line) ∈ compareTables caseMap hashSet left right ↔
      line ∈ compareTableKey caseMap hashSet left right key ∧
        (key ∈ left.keySet ∨ key ∈ right.keySet) := by
    simp only [compareTables, List.mem_flatMap, mem_order, List.mem_map, Prod.mk.injEq]
    constructor
    · rintro ⟨k, hk, l, hl, rfl, rfl⟩
      exact ⟨hl, hk⟩
    · rintro ⟨hl, hk⟩
      exact ⟨key, hk, line, hl, rfl, rfl⟩
  rw [hkey, compareTableKey, mem_compareKey_iff]
  simp only [List.mem_cons, List.not_mem_nil, or_false]

/-- Is the line about that table a difference line? -/
def ReportsDifference (report : List (JString × Line)) (key : JString) : Prop :=
  ∃ line, (key, line) ∈ report ∧ line.isDifference = true

/-- **A table is reported exactly if it is in one map only or its columns differ.** -/
theorem reportsDifference_iff {left right : Tables} {key : JString} :
    ReportsDifference (compareTables caseMap hashSet left right) key ↔
      ¬(key ∈ left.keySet ↔ key ∈ right.keySet) ∨
      ∃ l r, left.get key = some l ∧ right.get key = some r ∧ ColumnsDiffer caseMap l r := by
  simp only [ReportsDifference, mem_compareTables_iff,
    ← exists_difference_compareTable caseMap hashSet]
  constructor
  · rintro ⟨line, ⟨hl, hr, -⟩ | ⟨hl, hr, -⟩ | ⟨l, r, hl, hr, hline⟩, hdiff⟩
    · exact Or.inl fun h => hl (h.mpr hr)
    · exact Or.inl fun h => hr (h.mp hl)
    · exact Or.inr ⟨l, r, hl, hr, line, hline, hdiff⟩
  · rintro (hkey | ⟨l, r, hl, hr, line, hline, hdiff⟩)
    · rcases (xor_iff_not_iff _ _).mpr hkey with ⟨hl, hr⟩ | ⟨hr, hl⟩
      · exact ⟨_, Or.inr (Or.inl ⟨hl, hr, Or.inl rfl⟩), rfl⟩
      · exact ⟨_, Or.inl ⟨hl, hr, Or.inl rfl⟩, rfl⟩
    · exact ⟨line, Or.inr (Or.inr ⟨l, r, hl, hr, hline⟩), hdiff⟩

/-- `compareTable` names no missing table. -/
theorem not_mem_compareTable {left right : MyTable} (table : JString) :
    .missingLeftTable table ∉ compareTable caseMap hashSet left right ∧
      .missingRightTable table ∉ compareTable caseMap hashSet left right := by
  simp [mem_compareTable_iff, mem_compareColumn_iff]

theorem missingLeftColumn_mem_iff {left right : MyTable} {column : JString} :
    .missingLeftColumn column ∈ compareTable caseMap hashSet left right ↔
      column ∉ left.columnMap.keySet ∧ column ∈ right.columnMap.keySet := by
  simp [mem_compareTable_iff, mem_compareColumn_iff]

theorem missingRightColumn_mem_iff {left right : MyTable} {column : JString} :
    .missingRightColumn column ∈ compareTable caseMap hashSet left right ↔
      column ∈ left.columnMap.keySet ∧ column ∉ right.columnMap.keySet := by
  simp [mem_compareTable_iff, mem_compareColumn_iff]

theorem missingLeftTable_iff {left right : Tables} {key table : JString} :
    (key, .missingLeftTable table) ∈ compareTables caseMap hashSet left right ↔
      key ∉ left.keySet ∧ key ∈ right.keySet ∧ table = key := by
  simp [mem_compareTables_iff, not_mem_compareTable]

theorem missingRightTable_iff {left right : Tables} {key table : JString} :
    (key, .missingRightTable table) ∈ compareTables caseMap hashSet left right ↔
      key ∈ left.keySet ∧ key ∉ right.keySet ∧ table = key := by
  simp [mem_compareTables_iff, not_mem_compareTable]

theorem missingLeftColumn_iff {left right : Tables} {key column : JString} :
    (key, .missingLeftColumn column) ∈ compareTables caseMap hashSet left right ↔
      ∃ l r, left.get key = some l ∧ right.get key = some r ∧
        column ∉ l.columnMap.keySet ∧ column ∈ r.columnMap.keySet := by
  simp [mem_compareTables_iff, missingLeftColumn_mem_iff]

theorem missingRightColumn_iff {left right : Tables} {key column : JString} :
    (key, .missingRightColumn column) ∈ compareTables caseMap hashSet left right ↔
      ∃ l r, left.get key = some l ∧ right.get key = some r ∧
        column ∈ l.columnMap.keySet ∧ column ∉ r.columnMap.keySet := by
  simp [mem_compareTables_iff, missingRightColumn_mem_iff]

/-- The names of the tables differ, or the columns of a common table do. -/
def TablesDiffer (left right : Tables) : Prop :=
  (∃ key, ¬(key ∈ left.keySet ↔ key ∈ right.keySet)) ∨
    ∃ key l r, left.get key = some l ∧ right.get key = some r ∧ ColumnsDiffer caseMap l r

/-- **The comparison is sound and complete, and it has a mirror.**  A difference line is printed
exactly if the maps differ; and a table or column is named missing on the left exactly if it is
named missing on the right when the maps are compared the other way round. -/
theorem differences_iff (mirrored : IterationOrder JString) (left right : Tables) :
    ((∃ key, ReportsDifference (compareTables caseMap hashSet left right) key) ↔
      TablesDiffer caseMap left right) ∧
    (∀ key table, (key, .missingLeftTable table) ∈ compareTables caseMap hashSet left right ↔
      (key, .missingRightTable table) ∈ compareTables caseMap mirrored right left) ∧
    (∀ key column, (key, .missingLeftColumn column) ∈ compareTables caseMap hashSet left right ↔
      (key, .missingRightColumn column) ∈ compareTables caseMap mirrored right left) := by
  refine ⟨?_, ?_, ?_⟩
  · simp only [reportsDifference_iff, exists_or, TablesDiffer]
  · intro key table
    rw [missingLeftTable_iff, missingRightTable_iff, and_left_comm]
  · intro key column
    rw [missingLeftColumn_iff, missingRightColumn_iff]
    constructor
    · rintro ⟨l, r, hl, hr, hcl, hcr⟩
      exact ⟨r, l, hr, hl, hcr, hcl⟩
    · rintro ⟨r, l, hr, hl, hcr, hcl⟩
      exact ⟨l, r, hl, hr, hcl, hcr⟩

end

end CompareDBScript
end JavaStudy
