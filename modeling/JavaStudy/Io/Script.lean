/-
# What the reading loop of `CompareDBScript` makes of a script

Of any script: the loop sees it as `Block`s, a header line and the lines after it up to one that
trims to `)`, or to the end.  It puts the table of each block that is closed into the map, and
throws at a header without a parenthesis (`readTables_eq`).

Of a script in the block format: `loops_read` says that the map has the tables that were written,
with the columns that were written.
-/
import JavaStudy.Io.CompareDBScript

namespace JavaStudy
namespace CompareDBScript

open JavaText

/-! ## 1. Blocks -/

structure Block where
  header : JString
  inner : List JString
  /-- A line that trims to `)` ends it. -/
  closed : Bool
  deriving DecidableEq

/-- The line ends a block. -/
def closes (line : JString) : Bool := trim line == [unit ')']

theorem closes_iff {line : JString} : closes line = true ↔ trim line = [unit ')'] := beq_iff_eq

mutual

/-- The blocks of a script. -/
def blocks : List JString → List Block
  | [] => []
  | line :: lines => if isHeader line then blocksFrom line [] lines else blocks lines

/-- The blocks from inside one on. -/
def blocksFrom (header : JString) (inner : List JString) : List JString → List Block
  | [] => [⟨header, inner, false⟩]
  | line :: lines =>
    if closes line then ⟨header, inner, true⟩ :: blocks lines
    else blocksFrom header (inner ++ [line]) lines

end

/-- A column under its name. -/
def entry (line : JString) : JString × MyColumn := ((columnOf line).name, columnOf line)

/-- The table that the inner lines make up. -/
def tableOf (name : JString) (inner : List JString) : MyTable :=
  ⟨name, Hashtable.ofList (inner.map entry)⟩

/-- What a block does to the map. -/
def readBlock (map : Tables) (block : Block) : Except Failure Tables :=
  match tableName block.header with
  | .ok name => .ok (if block.closed then map.put name (tableOf name block.inner) else map)
  | .error e => .error e

theorem tableOf_concat (name : JString) (inner : List JString) (line : JString) :
    { tableOf name inner with
      columnMap := (tableOf name inner).columnMap.put (columnOf line).name (columnOf line) }
      = tableOf name (inner ++ [line]) := by
  simp only [tableOf, List.map_append, List.map_singleton, entry, Hashtable.ofList_concat]

/-- A block that was begun is the first of the rest. -/
theorem blocksFrom_eq_cons (header : JString) (inner lines : List JString) :
    ∃ block rest, blocksFrom header inner lines = block :: rest ∧ block.header = header := by
  induction lines generalizing inner with
  | nil => exact ⟨_, _, rfl, rfl⟩
  | cons line lines ih =>
    rw [blocksFrom]
    split
    · exact ⟨_, _, rfl, rfl⟩
    · exact ih (inner ++ [line])

/-- The two loops, by induction on the lines that are left. -/
theorem read_eq (lines : List JString) :
    (∀ map, readTables lines map = (blocks lines).foldlM readBlock map) ∧
    ∀ header inner name map, tableName header = .ok name →
      readColumns (tableOf name inner) lines map
        = (blocksFrom header inner lines).foldlM readBlock map := by
  induction lines with
  | nil =>
    constructor
    · intro map
      rfl
    · intro header inner name map hname
      rw [readColumns, blocksFrom, List.foldlM_cons, readBlock, hname]
      rfl
  | cons line lines ih =>
    obtain ⟨houter, hinner⟩ := ih
    constructor
    · intro map
      rw [readTables, blocks]
      split
      · cases hname : tableName line with
        | ok name => exact hinner line [] name map hname
        | error e =>
          obtain ⟨block, rest, hblocks, hheader⟩ := blocksFrom_eq_cons line [] lines
          rw [hblocks, List.foldlM_cons, readBlock, hheader, hname]
          rfl
      · exact houter map
    · intro header inner name map hname
      rw [readColumns, blocksFrom, ofLine_eq]
      by_cases hclose : closes line = true
      · rw [if_neg (not_not.mpr (closes_iff.mp hclose)), if_pos hclose, List.foldlM_cons, readBlock,
          hname]
        exact houter _
      · rw [if_pos (mt closes_iff.mpr hclose), if_neg hclose]
        dsimp only
        rw [tableOf_concat]
        exact hinner header _ name map hname

/-- The header of a block has a parenthesis behind its `table`. -/
def Readable (block : Block) : Prop := ∃ name, tableName block.header = .ok name

/-- The name and the table that a block contributes. -/
def Block.table? (block : Block) : Option (JString × MyTable) :=
  match tableName block.header with
  | .ok name => if block.closed then some (name, tableOf name block.inner) else none
  | .error _ => none

theorem foldlM_readBlock {bs : List Block} (h : ∀ block ∈ bs, Readable block) (map : Tables) :
    bs.foldlM readBlock map = .ok (map.putAll (bs.filterMap Block.table?)) := by
  induction bs generalizing map with
  | nil => rfl
  | cons block bs ih =>
    obtain ⟨name, hname⟩ := h block List.mem_cons_self
    have hrest := ih fun b hb => h b (List.mem_cons_of_mem _ hb)
    rw [List.foldlM_cons, readBlock, hname]
    cases hclosed : block.closed with
    | true =>
      have htable : block.table? = some (name, tableOf name block.inner) := by
        rw [Block.table?, hname, hclosed]
        rfl
      rw [List.filterMap_cons_some htable]
      exact hrest _
    | false =>
      have htable : block.table? = none := by
        rw [Block.table?, hname, hclosed]
        rfl
      rw [List.filterMap_cons_none htable]
      exact hrest _

theorem foldlM_readBlock_error {bs : List Block} (h : ∃ block ∈ bs, ¬ Readable block)
    (map : Tables) : ∃ e, bs.foldlM readBlock map = .error e := by
  induction bs generalizing map with
  | nil =>
    obtain ⟨block, hmem, -⟩ := h
    cases hmem
  | cons block bs ih =>
    rw [List.foldlM_cons, readBlock]
    cases hname : tableName block.header with
    | error e => exact ⟨e, rfl⟩
    | ok name =>
      have hrest : ∃ block ∈ bs, ¬ Readable block := by
        obtain ⟨b, hb, hnot⟩ := h
        rcases List.mem_cons.mp hb with rfl | hb
        · exact absurd ⟨name, hname⟩ hnot
        · exact ⟨b, hb, hnot⟩
      exact ih hrest _

/-- **What the loop makes of a script**: the tables of its closed blocks, or an exception at a
header that it cannot read. -/
theorem readTables_eq (lines : List JString) :
    ((∀ block ∈ blocks lines, Readable block) ∧
      readTables lines .empty = .ok (Hashtable.ofList ((blocks lines).filterMap Block.table?))) ∨
    ((∃ block ∈ blocks lines, ¬ Readable block) ∧ ∃ e, readTables lines .empty = .error e) := by
  rw [(read_eq lines).1]
  by_cases h : ∀ block ∈ blocks lines, Readable block
  · left
    rw [foldlM_readBlock h, Hashtable.putAll_empty]
    exact ⟨h, rfl⟩
  · right
    have hbad : ∃ block ∈ blocks lines, ¬ Readable block := by simpa using h
    exact ⟨hbad, foldlM_readBlock_error hbad _⟩

/-! ## 2. Scripts in the block format -/

/-- A non-empty token of characters above U+0020. -/
structure Word where
  val : JString
  ne_nil : val ≠ []
  above : ∀ c ∈ val, blank c = false

/-- Blanks or tabs, or nothing. -/
structure Blanks where
  val : JString
  blank : ∀ c ∈ val, c = unit ' ' ∨ c = unit '\t'

/-- At least one blank or tab. -/
structure Gap extends Blanks where
  ne_nil : val ≠ []

/-- A line that defines a column. -/
structure ColumnLine where
  lead : Blanks
  name : Word
  params : List (Gap × Word)
  trail : Blanks
  /-- It does not end the block. -/
  notClosing : joined name.val (params.map fun gw => (gw.1.val, gw.2.val)) ≠ [unit ')']

/-- Printable ASCII without a parenthesis that opens, and without blanks around it. -/
structure TableName where
  val : JString
  ne_nil : val ≠ []
  printable : ∀ c ∈ val, 0x20 ≤ c.toNat ∧ c.toNat ≤ 0x7E
  noParenthesis : unit '(' ∉ val
  trimmed : trim val = val

inductive Item where
  | filler (line : JString) (h : isHeader line = false)
  | block (name : TableName) (columns : List ColumnLine) (close : { line : JString // closes line })

/-- The words of a line behind its name, with the gaps in front of them. -/
def ColumnLine.rest (line : ColumnLine) : List (JString × JString) :=
  line.params.map fun gw => (gw.1.val, gw.2.val)

def ColumnLine.body (line : ColumnLine) : JString := joined line.name.val line.rest

def ColumnLine.text (line : ColumnLine) : JString := line.lead.val ++ line.body ++ line.trail.val

/-- `create table NAME (`. -/
def TableName.header (name : TableName) : JString :=
  create ++ unit ' ' :: (table ++ unit ' ' :: (name.val ++ [unit ' ', unit '(']))

def Item.text : Item → List JString
  | .filler line _ => [line]
  | .block name columns close => name.header :: (columns.map ColumnLine.text ++ [close.val])

theorem trim_of_above {s : JString} (h : ∀ c ∈ s, blank c = false) : trim s = s :=
  trim_eq_self (fun c hc => h c (List.mem_of_mem_head? hc))
    fun c hc => h c (List.mem_of_mem_getLast? hc)

def Word.token (w : Word) : Token := ⟨w.val, trim_of_above w.above⟩

/-- The column that a line defines. -/
def ColumnLine.column (line : ColumnLine) : MyColumn :=
  ⟨line.name.val, line.params.map fun gw => gw.2.token⟩

/-- The table that a block defines: under each name the last column of that name. -/
def tableOfColumns (name : TableName) (columns : List ColumnLine) : MyTable :=
  ⟨name.val, Hashtable.ofList (columns.map fun line => (line.name.val, line.column))⟩

def Item.table? : Item → Option (JString × MyTable)
  | .filler _ _ => none
  | .block name columns _ => some (name.val, tableOfColumns name columns)

/-- Under each name the table of the last block of that name. -/
def tablesOf (script : List Item) : Tables := Hashtable.ofList (script.filterMap Item.table?)

theorem Word.isWord (w : Word) : IsWord w.val :=
  ⟨w.ne_nil, fun c hc => space_of_not_blank (w.above c hc)⟩

theorem Gap.isGap (g : Gap) : IsGap g.val := by
  refine ⟨g.ne_nil, ?_⟩
  intro c hc
  rcases g.blank c hc with rfl | rfl
  · decide
  · decide

theorem Blanks.blank_of_mem (b : Blanks) : ∀ c ∈ b.val, JavaText.blank c = true := by
  intro c hc
  rcases b.blank c hc with rfl | rfl
  · decide
  · decide

theorem ColumnLine.mem_rest {line : ColumnLine} {gw : JString × JString} (h : gw ∈ line.rest) :
    ∃ (g : Gap) (w : Word), gw = (g.val, w.val) := by
  obtain ⟨⟨g, w⟩, -, rfl⟩ := List.mem_map.mp h
  exact ⟨g, w, rfl⟩

/-- **A line is trimmed to its body.** -/
theorem ColumnLine.trim_text (line : ColumnLine) : trim line.text = line.body := by
  rw [ColumnLine.text, trim_append line.lead.blank_of_mem line.trail.blank_of_mem, ColumnLine.body]
  refine trim_joined line.name.ne_nil ?_ ?_
  · intro gw hgw
    obtain ⟨g, w, rfl⟩ := line.mem_rest hgw
    exact w.ne_nil
  · intro w hw
    rcases List.mem_cons.mp hw with rfl | hw
    · exact line.name.above
    · obtain ⟨gw, hgw, rfl⟩ := List.mem_map.mp hw
      obtain ⟨g, w, rfl⟩ := line.mem_rest hgw
      exact w.above

/-- **A line is read as the column that it defines.** -/
theorem columnOf_text (line : ColumnLine) : columnOf line.text = line.column := by
  have hsplit : splitSpaces (trim line.text) = line.name.val :: line.rest.map Prod.snd := by
    rw [line.trim_text]
    refine splitSpaces_joined line.name.isWord ?_
    intro gw hgw
    obtain ⟨g, w, rfl⟩ := line.mem_rest hgw
    exact ⟨g.isGap, w.isWord⟩
  have htoken : ∀ w : Word, Token.ofTrim w.val = w.token :=
    fun w => Subtype.ext (trim_of_above w.above)
  simp only [columnOf, hsplit, List.head_cons, List.tail_cons, ColumnLine.column, ColumnLine.rest,
    List.map_map]
  congr 1
  exact List.map_congr_left fun gw _ => htoken gw.2

theorem closes_text (line : ColumnLine) : closes line.text = false := by
  rw [Bool.eq_false_iff, ne_eq, closes_iff, line.trim_text]
  exact line.notClosing

/-! ## 3. The header -/

theorem dot_of_printable {c : JChar} (h : 0x20 ≤ c.toNat ∧ c.toNat ≤ 0x7E) : dot c = true := by
  have hnone : ∀ d ∈ terminators, d.toNat < 0x20 ∨ 0x7E < d.toNat := by simp [terminators]
  rw [dot, Bool.not_eq_true', List.contains_eq_mem, decide_eq_false_iff_not]
  intro hc
  have hc := hnone c hc
  omega

theorem isHeader_header (name : TableName) : isHeader name.header = true := by
  have hgap : ∀ c ∈ [unit ' '], space c = true := List.forall_mem_singleton.mpr rfl
  have hpost : ∀ c ∈ unit ' ' :: (name.val ++ [unit ' ', unit '(']), dot c = true := by
    rw [List.forall_mem_cons, List.forall_mem_append, List.forall_mem_cons,
      List.forall_mem_singleton]
    exact ⟨rfl, fun c hc => dot_of_printable (name.printable c hc), rfl, rfl⟩
  exact isHeader_iff.mpr ⟨[], [unit ' '], _, rfl, nofun, hgap, hpost⟩

/-- What stands between `table` and the parenthesis. -/
def TableName.padded (name : TableName) : JString := unit ' ' :: (name.val ++ [unit ' '])

theorem TableName.trim_padded (name : TableName) : trim name.padded = name.val := by
  have hblank : ∀ c ∈ [unit ' '], blank c = true := List.forall_mem_singleton.mpr rfl
  calc trim name.padded = trim name.val := trim_append hblank hblank name.val
    _ = name.val := name.trimmed

/-- **The name is read from the header.** -/
theorem tableName_header (name : TableName) : tableName name.header = .ok name.val := by
  have hheader : name.header = create ++ unit ' ' :: table ++ name.padded ++ [unit '('] := by
    simp [TableName.header, TableName.padded]
  have htable : indexOf name.header table 0 = 7 := rfl
  have hnone : unit '(' ∉ name.padded := by
    rw [TableName.padded, List.mem_cons, List.mem_append, List.mem_singleton]
    rintro (h | h | h)
    · exact absurd h (by decide)
    · exact name.noParenthesis h
    · exact absurd h (by decide)
  have hindex : indexOf name.header [unit '('] 12 = 12 + name.padded.length := by
    have hdrop : name.header.drop 12 = name.padded ++ [unit '('] := by
      rw [hheader]
      rfl
    have hfirst : firstIndex [unit '('] (name.padded ++ [unit '(']) = some name.padded.length :=
      firstIndex_char hnone []
    have htwelve : (12 : Int).toNat = 12 := rfl
    rw [indexOf, htwelve, hdrop, hfirst]
    rfl
  have hsub : substring name.header 12 (12 + name.padded.length) = some name.padded := by
    rw [hheader]
    exact substring_middle (create ++ unit ' ' :: table) name.padded [unit '(']
  have hbegin : (7 : Int) + 5 = 12 := rfl
  simp only [tableName, htable]
  rw [hbegin, hindex, hsub]
  exact congrArg Except.ok name.trim_padded

/-! ## 4. The block format is read back -/

theorem blocks_filler {line : JString} (h : isHeader line = false) (lines : List JString) :
    blocks (line :: lines) = blocks lines := by
  rw [blocks, h]
  rfl

theorem blocksFrom_close (header : JString) {inner : List JString}
    (hinner : ∀ line ∈ inner, closes line = false) {close : JString} (hclose : closes close = true)
    (before lines : List JString) :
    blocksFrom header before (inner ++ close :: lines)
      = ⟨header, before ++ inner, true⟩ :: blocks lines := by
  induction inner generalizing before with
  | nil => rw [List.nil_append, blocksFrom, if_pos hclose, List.append_nil]
  | cons line inner ih =>
    obtain ⟨hline, hinner⟩ := List.forall_mem_cons.mp hinner
    rw [List.cons_append, blocksFrom, hline, if_neg Bool.false_ne_true, ih hinner,
      List.append_assoc]
    rfl

/-- The blocks of a script in the block format are the ones that were written. -/
def Item.block? : Item → Option Block
  | .filler _ _ => none
  | .block name columns _ => some ⟨name.header, columns.map ColumnLine.text, true⟩

def scriptText (script : List Item) : List JString := script.flatMap Item.text

theorem blocks_scriptText (script : List Item) :
    blocks (scriptText script) = script.filterMap Item.block? := by
  induction script with
  | nil => rfl
  | cons item script ih =>
    rw [scriptText, List.flatMap_cons]
    cases item with
    | filler line h => exact (blocks_filler h _).trans ih
    | block name columns close =>
      have hinner : ∀ line ∈ columns.map ColumnLine.text, closes line = false := by
        intro line hline
        obtain ⟨column, -, rfl⟩ := List.mem_map.mp hline
        exact closes_text column
      rw [Item.text, List.cons_append, blocks, if_pos (isHeader_header name), List.append_assoc]
      exact (blocksFrom_close _ hinner close.2 [] _).trans (congrArg _ ih)

theorem tableOf_columns (name : TableName) (columns : List ColumnLine) :
    tableOf name.val (columns.map ColumnLine.text) = tableOfColumns name columns := by
  have hentry : ∀ column : ColumnLine,
      entry column.text = (column.name.val, column.column) := by
    intro column
    rw [entry, columnOf_text]
    rfl
  simp only [tableOf, tableOfColumns, List.map_map]
  congr 2
  exact List.map_congr_left fun column _ => hentry column

/-- **A block of the format contributes the table that was written.** -/
theorem table?_block (item : Item) : (item.block?.bind Block.table?) = item.table? := by
  cases item with
  | filler line h => rfl
  | block name columns close =>
    simp only [Item.block?, Option.bind_some, Block.table?, tableName_header, if_true,
      tableOf_columns, Item.table?]

theorem readable_block {item : Item} {block : Block} (h : item.block? = some block) :
    Readable block := by
  cases item with
  | filler line hline => cases h
  | block name columns close =>
    cases h
    exact ⟨name.val, tableName_header name⟩

theorem readTables_script (script : List Item) :
    readTables (scriptText script) .empty = .ok (tablesOf script) := by
  have hreadable : ∀ block ∈ blocks (scriptText script), Readable block := by
    rw [blocks_scriptText]
    intro block hblock
    obtain ⟨item, -, hitem⟩ := List.mem_filterMap.mp hblock
    exact readable_block hitem
  rcases readTables_eq (scriptText script) with ⟨-, heq⟩ | ⟨⟨block, hmem, hnot⟩, -⟩
  · rw [heq, blocks_scriptText, List.filterMap_filterMap, tablesOf]
    simp only [table?_block]
  · exact absurd (hreadable block hmem) hnot

/-- **Both loops read what was written**: under each name the table of the last block of that name,
with the columns of its lines, each under the first token of the line; of two lines with the same
first token the last one counts.  Names and columns stand in the order in which they came first. -/
theorem loops_read (script : List Item) :
    leftLoop (scriptText script) = .ok (tablesOf script) ∧
      rightLoop (scriptText script) = .ok (tablesOf script) :=
  ⟨readTables_script script, readTables_script script⟩

end CompareDBScript
end JavaStudy
