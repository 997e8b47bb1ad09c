/-
# `LoveRandomAccessFile`: row numbers that overwrite the rows

`addRowNumAtRowHead` writes a row number at the pointer and then reads the line that is there.  A
`write` replaces bytes and inserts none, and `writeUTF` puts the length of its text in front, so
each row loses its first bytes; where a row is too short, the next ones are overwritten as well,
and at the end of the file `readLine` returns `null`, on which the method throws.

* `length_of_ok`: a run that does not throw leaves the length of the file as it was.
* `addRowNumAtRowHead_eq_iff`: so it never numbers the rows, unless there are none.

What the method prints is left out.
-/
import JavaStudy.Lib.RandomAccessFile
import JavaStudy.Lib.BigEndian
import JavaStudy.Lib.Utf8

namespace JavaStudy
namespace LoveRandomAccessFile

open JavaText (JChar JString digits unit)

inductive Throwable where
  | utfDataFormat
  | nullPointer
  deriving DecidableEq

/-! ## 1. The method -/

/-- `getBytes("ISO-8859-1")`. -/
def getBytes (s : JString) : List Byte :=
  s.map fun c => if c.toNat < 0x100 then c.setWidth 8 else 0x3F

/-- `new String(bytes, "UTF-8")`, for bytes that are well formed. -/
def newString (bytes : List Byte) : JString := (Utf8.decode bytes).getD []

/-- The bytes of a `char` in the modified UTF-8 of `writeUTF`. -/
def utfBytes (c : JChar) : List Byte :=
  if 1 ≤ c.toNat ∧ c.toNat ≤ 0x7F then [c.setWidth 8]
  else if 0x7FF < c.toNat then
    [.ofNat 8 (0xE0 + c.toNat / 0x1000), .ofNat 8 (0x80 + c.toNat / 0x40 % 0x40),
      .ofNat 8 (0x80 + c.toNat % 0x40)]
  else [.ofNat 8 (0xC0 + c.toNat / 0x40), .ofNat 8 (0x80 + c.toNat % 0x40)]

def writeUTF (inOut : RandomAccessFile) (str : JString) : Except Throwable RandomAccessFile :=
  let utf := str.flatMap utfBytes
  if 0xFFFF < utf.length then .error .utfDataFormat
  else .ok (inOut.write (BigEndian.toBytes 2 utf.length ++ utf))

theorem writeUTF_ok {inOut inOut' : RandomAccessFile} {str : JString}
    (h : writeUTF inOut str = .ok inOut') :
    ∃ new, 2 ≤ new.length ∧ inOut' = inOut.write new := by
  unfold writeUTF at h
  dsimp only at h
  split at h
  · exact absurd h (by simp)
  · refine ⟨_, ?_, (Except.ok.inj h).symm⟩
    rw [List.length_append, BigEndian.length_toBytes]
    omega

/-- A row that is read behind a written number: nothing was written past the end. -/
theorem row_read {inOut inOut' : RandomAccessFile} {str : JString} {line : List Byte}
    (hwrite : writeUTF inOut str = .ok inOut') (hread : inOut'.readLine.1 = some line) :
    inOut'.readLine.2.length = inOut.length ∧
      inOut.pointer + 2 ≤ inOut'.readLine.2.pointer := by
  obtain ⟨new, hnew, rfl⟩ := writeUTF_ok hwrite
  have hmore : ¬(inOut.write new).length ≤ (inOut.write new).pointer := by
    rw [← RandomAccessFile.readLine_eq_none_iff, hread]
    simp
  have hlength := inOut.length_write new
  have hpointer := (inOut.write new).pointer_le_readLine
  have hsame : (inOut.write new).readLine.2.length = (inOut.write new).length := rfl
  rw [RandomAccessFile.pointer_write] at hmore hpointer
  constructor
  · omega
  · omega

/-- The loop, from the row `rowNum` on: its result, and the file after it. -/
def loop (rowNum : Nat) (inOut : RandomAccessFile) : Except Throwable Unit × List Byte :=
  if inOut.pointer < inOut.length then
    let str := newString (getBytes (digits rowNum ++ [unit ' ']))
    match _hwrite : writeUTF inOut str with
    | .error e => (.error e, inOut.bytes)
    | .ok inOut' =>
      match _hread : inOut'.readLine.1 with
      | none => (.error .nullPointer, inOut'.bytes)
      | some _ => loop (rowNum + 1) inOut'.readLine.2
  else (.ok (), inOut.bytes)
termination_by inOut.length - inOut.pointer
decreasing_by
  obtain ⟨hlength, hpointer⟩ := row_read _hwrite _hread
  omega

theorem loop_row {rowNum : Nat} {inOut inOut' : RandomAccessFile} {line : List Byte}
    (hmore : inOut.pointer < inOut.length)
    (hwrite : writeUTF inOut (newString (getBytes (digits rowNum ++ [unit ' ']))) = .ok inOut')
    (hread : inOut'.readLine.1 = some line) :
    loop rowNum inOut = loop (rowNum + 1) inOut'.readLine.2 := by
  rw [loop, if_pos hmore]
  dsimp only
  split
  · rename_i e he
    exact absurd (hwrite.symm.trans he) (by simp)
  · rename_i g hg
    obtain rfl : inOut' = g := Except.ok.inj (hwrite.symm.trans hg)
    split
    · rename_i hnone
      exact absurd (hread.symm.trans hnone) (by simp)
    · rfl

theorem loop_end {rowNum : Nat} {inOut : RandomAccessFile} (hend : ¬inOut.pointer < inOut.length) :
    loop rowNum inOut = (.ok (), inOut.bytes) := by
  rw [loop, if_neg hend]

def addRowNumAtRowHead (file : List Byte) : Except Throwable Unit × List Byte :=
  loop 1 (.ofBytes file)

/-! ## 2. Numbered rows -/

/-- Does a line end with this byte, when those bytes follow? -/
def endsLine (c : Byte) (rest : List Byte) : Bool :=
  c = RandomAccessFile.LF ∨ (c = RandomAccessFile.CR ∧ rest.head? ≠ some RandomAccessFile.LF)

/-- The lines, each with its terminator. -/
def lines : List Byte → List (List Byte)
  | [] => []
  | c :: rest =>
    if endsLine c rest then [c] :: lines rest
    else
      match lines rest with
      | [] => [[c]]
      | line :: more => (c :: line) :: more

/-- The lines one after the other, the n-th one behind the number n and a space. -/
def numbered (file : List Byte) : List Byte :=
  ((lines file).zipIdx 1).flatMap fun p => getBytes (digits p.2 ++ [unit ' ']) ++ p.1

theorem flatten_lines (file : List Byte) : (lines file).flatten = file := by
  induction file with
  | nil => rfl
  | cons c rest ih =>
    rw [lines]
    split
    · rw [List.flatten_cons, ih, List.singleton_append]
    · cases hlines : lines rest with
      | nil =>
        rw [hlines, List.flatten_nil] at ih
        simp [← ih]
      | cons line more =>
        rw [hlines] at ih
        simp [← ih]

/-- Numbers take up room. -/
theorem length_numbered (ls : List (List Byte)) (n : Nat) :
    ls.flatten.length + ls.length ≤
      ((ls.zipIdx n).flatMap fun p => getBytes (digits p.2 ++ [unit ' ']) ++ p.1).length := by
  induction ls generalizing n with
  | nil => simp
  | cons line ls ih =>
    have hrest := ih (n + 1)
    have hnumber : 1 ≤ (getBytes (digits n ++ [unit ' '])).length := by simp [getBytes]
    simp only [List.zipIdx_cons, List.flatMap_cons, List.length_append, List.flatten_cons,
      List.length_cons]
    omega

/-! ## 3. What the method does -/

/-- **A run that does not throw overwrites, and inserts nothing.** -/
theorem length_of_ok {rowNum : Nat} {inOut : RandomAccessFile} {result : List Byte}
    (h : loop rowNum inOut = (.ok (), result)) : result.length = inOut.length := by
  fun_induction loop rowNum inOut with
  | case1 rowNum inOut hmore str e hwrite => exact absurd h (by simp)
  | case2 rowNum inOut hmore str inOut' hwrite hread => exact absurd h (by simp)
  | case3 rowNum inOut hmore str inOut' hwrite line hread ih =>
    rw [ih h, (row_read hwrite hread).1]
  | case4 rowNum inOut hmore => rw [← (Prod.mk.inj h).2]; rfl

/-- **The rows are never numbered**, if there are any. -/
theorem addRowNumAtRowHead_ne {file : List Byte} (hne : file ≠ []) :
    addRowNumAtRowHead file ≠ (.ok (), numbered file) := by
  intro h
  have hlength : (numbered file).length = file.length := length_of_ok h
  have hlonger := length_numbered (lines file) 1
  rw [flatten_lines] at hlonger
  have hlines : (lines file).length ≠ 0 := by
    intro hzero
    have hnil := flatten_lines file
    rw [List.length_eq_zero_iff.mp hzero] at hnil
    exact hne hnil.symm
  unfold numbered at hlength
  omega

theorem addRowNumAtRowHead_nil : addRowNumAtRowHead [] = (.ok (), []) := loop_end (by decide)

/-- **The method does what its comment says for the empty file, and for no other.** -/
theorem addRowNumAtRowHead_eq_iff (file : List Byte) :
    addRowNumAtRowHead file = (.ok (), numbered file) ↔ file = [] := by
  constructor
  · intro h
    by_contra hne
    exact addRowNumAtRowHead_ne hne h
  · rintro rfl
    exact addRowNumAtRowHead_nil

/-- **A row of eight letters has lost four of them.** -/
theorem addRowNumAtRowHead_letters :
    addRowNumAtRowHead [0x61, 0x62, 0x63, 0x64, 0x65, 0x66, 0x67, 0x68, 0x0A] =
        (.ok (), [0x00, 0x02, 0x31, 0x20, 0x65, 0x66, 0x67, 0x68, 0x0A]) ∧
      numbered [0x61, 0x62, 0x63, 0x64, 0x65, 0x66, 0x67, 0x68, 0x0A] =
        [0x31, 0x20, 0x61, 0x62, 0x63, 0x64, 0x65, 0x66, 0x67, 0x68, 0x0A] ∧
      addRowNumAtRowHead [0x61, 0x62, 0x63, 0x64, 0x65, 0x66, 0x67, 0x68, 0x0A] ≠
        (.ok (), numbered [0x61, 0x62, 0x63, 0x64, 0x65, 0x66, 0x67, 0x68, 0x0A]) := by
  refine ⟨?_, by decide, addRowNumAtRowHead_ne (by decide)⟩
  rw [addRowNumAtRowHead, loop_row (by decide) rfl rfl, loop_end (by decide)]
  decide

end LoveRandomAccessFile
end JavaStudy
