/-
# `CompareDBScript`: two database scripts, read and compared

`main` reads a script line by line into a map of tables, each a map of columns, does the same with
a second script, and prints how the two maps differ.  The two reading loops are copies of one
another.

A script is the list of the lines that `readLine` returns.  What is printed is a list of `Line`s,
each of which has its text.  The maps are `LinkedHashMap`s, so their entries stand in the order in
which the keys came first; the union of two key sets is iterated in the order of a `HashSet`, which
is a parameter.

`isHeader_iff` says which lines the pattern of `main` matches.
-/
import JavaStudy.Lib.Hashtable
import JavaStudy.Lib.JavaString

namespace JavaStudy
namespace CompareDBScript

open JavaText

/-! ## 1. Tables and columns -/

/-- Entries in insertion order; see `Hashtable.putAll_empty`. -/
abbrev LinkedHashMap (κ ν : Type) := Hashtable κ ν

/-- A string without blanks around it. -/
def Token := { s : JString // trim s = s }

def Token.ofTrim (s : JString) : Token := ⟨trim s, trim_trim s⟩

structure MyColumn where
  name : JString
  params : List Token

structure MyTable where
  tableName : JString
  columnMap : LinkedHashMap JString MyColumn

abbrev Tables := LinkedHashMap JString MyTable

/-- What leaves `main` uncaught. -/
inductive Failure where
  | stringIndexOutOfBounds
  | arrayIndexOutOfBounds
  deriving DecidableEq

/-! ## 2. The reading loop -/

def create : JString := ['c', 'r', 'e', 'a', 't', 'e'].map unit

def table : JString := ['t', 'a', 'b', 'l', 'e'].map unit

/-- The line terminators of `java.util.regex`. -/
def terminators : List JChar := [0x0A, 0x0D, 0x85, 0x2028, 0x2029]

/-- What `.` matches. -/
def dot (c : JChar) : Bool := !terminators.contains c

/-- The text matches `create\\s*table.*`.  A `t` is no whitespace, so `\\s*` takes all it can. -/
def headerHere (s : JString) : Bool :=
  create.isPrefixOf s &&
    (let rest := (s.drop create.length).dropWhile space
     table.isPrefixOf rest && (rest.drop table.length).all dot)

/-- `p.matcher(line).matches()` for the pattern `.*(create){1}\\s*(table){1}.*`. -/
def isHeader : JString → Bool
  | [] => false
  | c :: s => headerHere (c :: s) || (dot c && isHeader s)

theorem headerHere_iff {s : JString} : headerHere s = true ↔
    ∃ gap post, s = create ++ (gap ++ (table ++ post)) ∧ (∀ c ∈ gap, space c = true) ∧
      ∀ c ∈ post, dot c = true := by
  unfold headerHere
  simp only [Bool.and_eq_true, List.isPrefixOf_iff_prefix, List.all_eq_true]
  constructor
  · rintro ⟨⟨s', rfl⟩, ⟨post, hpost⟩, hdot⟩
    rw [List.drop_left] at hpost hdot
    rw [← hpost, List.drop_left] at hdot
    refine ⟨s'.takeWhile space, post, ?_, ?_, hdot⟩
    · rw [hpost, List.takeWhile_append_dropWhile]
    · intro c hc
      exact List.mem_takeWhile_imp hc
  · rintro ⟨gap, post, rfl, hgap, hpost⟩
    have hrest : (gap ++ (table ++ post)).dropWhile space = table ++ post := by
      rw [List.dropWhile_append_of_pos hgap]
      rfl
    rw [List.drop_left, hrest, List.drop_left]
    exact ⟨List.prefix_append _ _, List.prefix_append _ _, hpost⟩

/-- **The language of the pattern.** -/
theorem isHeader_iff {line : JString} :
    isHeader line = true ↔ ∃ pre gap post, line = pre ++ (create ++ (gap ++ (table ++ post))) ∧
      (∀ c ∈ pre, dot c = true) ∧ (∀ c ∈ gap, space c = true) ∧ ∀ c ∈ post, dot c = true := by
  induction line with
  | nil =>
    constructor
    · exact nofun
    · rintro ⟨pre, gap, post, h, -⟩
      have hnil := (List.append_eq_nil_iff.mp h.symm).2
      cases hnil
  | cons c line ih =>
    rw [isHeader, Bool.or_eq_true, Bool.and_eq_true, headerHere_iff, ih]
    constructor
    · rintro (⟨gap, post, h, hgap, hpost⟩ | ⟨hc, pre, gap, post, rfl, hpre, hgap, hpost⟩)
      · exact ⟨[], gap, post, h, nofun, hgap, hpost⟩
      · exact ⟨c :: pre, gap, post, rfl, List.forall_mem_cons.mpr ⟨hc, hpre⟩, hgap, hpost⟩
    · rintro ⟨pre, gap, post, h, hpre, hgap, hpost⟩
      cases pre with
      | nil => exact Or.inl ⟨gap, post, h, hgap, hpost⟩
      | cons d pre =>
        rw [List.cons_append, List.cons.injEq] at h
        obtain ⟨rfl, rfl⟩ := h
        obtain ⟨hc, hpre⟩ := List.forall_mem_cons.mp hpre
        exact Or.inr ⟨hc, pre, gap, post, rfl, hpre, hgap, hpost⟩

/-- The name in a header line: from behind the first `table` to the next parenthesis. -/
def tableName (line : JString) : Except Failure JString :=
  let tableIndex := indexOf line table 0 + 5
  let endIndex := indexOf line [unit '('] tableIndex
  match substring line tableIndex endIndex with
  | some name => .ok (trim name)
  | none => .error .stringIndexOutOfBounds

/-- A line inside a table. -/
def MyColumn.ofLine (line : JString) : Except Failure MyColumn :=
  match splitSpaces (trim line) with
  | [] => .error .arrayIndexOutOfBounds
  | name :: params => .ok ⟨name, params.map Token.ofTrim⟩

/-- The column that a line yields. -/
def columnOf (line : JString) : MyColumn :=
  let strs := splitSpaces (trim line)
  ⟨strs.head (splitSpaces_trim_ne_nil line), strs.tail.map Token.ofTrim⟩

/-- There is always a first string. -/
theorem ofLine_eq (line : JString) : MyColumn.ofLine line = .ok (columnOf line) := by
  unfold MyColumn.ofLine
  split
  · rename_i hnil
    exact absurd hnil (splitSpaces_trim_ne_nil line)
  · rename_i name params hstrs
    simp only [columnOf, hstrs, List.head_cons, List.tail_cons]

mutual

/-- The outer loop. -/
def readTables : List JString → Tables → Except Failure Tables
  | [], map => .ok map
  | line :: lines, map =>
    if isHeader line then
      match tableName line with
      | .ok name => readColumns ⟨name, .empty⟩ lines map
      | .error e => .error e
    else readTables lines map

/-- The inner loop, with the table that it is filling.  At the end of the script both loops end, and
the table is not put into the map. -/
def readColumns : MyTable → List JString → Tables → Except Failure Tables
  | _, [], map => .ok map
  | myTable, line :: lines, map =>
    if trim line ≠ [unit ')'] then
      match MyColumn.ofLine line with
      | .ok column =>
        readColumns { myTable with columnMap := myTable.columnMap.put column.name column } lines map
      | .error e => .error e
    else readTables lines (map.put myTable.tableName myTable)

end

/-- The loop over the left file. -/
def leftLoop (lines : List JString) : Except Failure Tables := readTables lines .empty

/-- The loop over the right file. -/
def rightLoop (lines : List JString) : Except Failure Tables := readTables lines .empty

/-! ## 3. The comparison -/

/-- How a `HashSet` iterates over what was added to it: each element once, in some order. -/
structure IterationOrder (α : Type) [DecidableEq α] where
  order : List α → List α
  perm : ∀ added, (order added).Perm added.dedup

/-- A printed line. -/
inductive Line where
  | leftTables (n : Nat)
  | rightTables (n : Nat)
  | begin
  | missingLeftTable (key : JString)
  | missingRightTable (key : JString)
  | comparing (tableName : JString)
  | missingLeftColumn (key : JString)
  | missingRightColumn (key : JString)
  | differing (left right : MyColumn)
  | blank

/-- The text of a string literal. -/
def text (s : String) : JString := s.toList.map unit

def MyColumn.toString (column : MyColumn) : JString :=
  text "[" ++ (text "  ").intercalate (column.params.map Subtype.val) ++ text "]"

/-- What is printed. -/
def Line.text : Line → JString
  | .leftTables n => CompareDBScript.text "生产共有表： " ++ digits n
  | .rightTables n => CompareDBScript.text "全网产共有表： " ++ digits n
  | .begin => CompareDBScript.text "开始比较："
  | .missingLeftTable key => CompareDBScript.text "生产缺失表：" ++ key
  | .missingRightTable key => CompareDBScript.text "全网缺失表：" ++ key
  | .comparing tableName => CompareDBScript.text "开始比较表：" ++ tableName
  | .missingLeftColumn key => CompareDBScript.text "生产表缺失字段：" ++ key
  | .missingRightColumn key => CompareDBScript.text "全网缺失表缺失字段：" ++ key
  | .differing left right => left.toString ++ CompareDBScript.text " -- " ++ right.toString
  | .blank => []

/-- What the loops over two key sets print for one key: what is missing on the left, else what is
missing on the right, else how the two values compare. -/
def compareKey {ν : Type} (missingLeft missingRight : List Line) (compare : ν → ν → List Line)
    (left right : LinkedHashMap JString ν) (key : JString) : List Line :=
  match left.get key, right.get key with
  | none, _ => missingLeft
  | some _, none => missingRight
  | some l, some r => compare l r

section Compare

variable (caseMap : CaseMap) (hashSet : IterationOrder JString)

/-- The loop of `compareColumn`, from the parameters that are left. -/
def compareParams (left right : MyColumn) : List Token → List Token → List Line
  | l :: leftList, r :: rightList =>
    if caseMap.equalsIgnoreCase (trim l.val) (trim r.val) then
      compareParams left right leftList rightList
    else [.differing left right]
  | _, _ => []

def compareColumn (left right : MyColumn) : List Line :=
  if left.params.length ≠ right.params.length then [.differing left right]
  else compareParams caseMap left right left.params right.params

/-- One round of the loop of `compareTable`. -/
def compareColumnKey (left right : MyTable) (key : JString) : List Line :=
  compareKey [.missingLeftColumn key] [.missingRightColumn key] (compareColumn caseMap)
    left.columnMap right.columnMap key

def compareTable (left right : MyTable) : List Line :=
  .comparing left.tableName ::
    (hashSet.order (left.columnMap.keySet ++ right.columnMap.keySet)).flatMap
      (compareColumnKey caseMap left right) ++ [.blank]

/-- One round of the loop of `main`. -/
def compareTableKey (left right : Tables) (key : JString) : List Line :=
  compareKey [.missingLeftTable key, .blank] [.missingRightTable key, .blank]
    (compareTable caseMap hashSet) left right key

/-- The loop of `main`: each line with the table that it is about. -/
def compareTables (left right : Tables) : List (JString × Line) :=
  (hashSet.order (left.keySet ++ right.keySet)).flatMap fun key =>
    (compareTableKey caseMap hashSet left right key).map fun line => (key, line)

/-- What the loop of `main` prints for two scripts. -/
def compareScripts (leftLines rightLines : List JString) :
    Except Failure (List (JString × Line)) :=
  match leftLoop leftLines with
  | .error e => .error e
  | .ok left =>
    match rightLoop rightLines with
    | .error e => .error e
    | .ok right => .ok (compareTables caseMap hashSet left right)

def main (leftLines rightLines : List JString) : Except Failure (List JString) :=
  match leftLoop leftLines with
  | .error e => .error e
  | .ok left =>
    match rightLoop rightLines with
    | .error e => .error e
    | .ok right =>
      let lines := .leftTables left.keySet.length :: .rightTables right.keySet.length :: .begin ::
        (compareTables caseMap hashSet left right).map Prod.snd
      .ok (lines.map Line.text)

end Compare

end CompareDBScript
end JavaStudy
