/-
# `java.io.RandomAccessFile`: bytes and one pointer for reading and writing

The pointer stands inside the file or at its end, which the type carries.  A `write` replaces what
is at the pointer and makes the file longer only where it goes past the end (`length_write`);
`readLine` moves the pointer behind the next line (`pointer_le_readLine`) and changes no byte.
-/
import JavaStudy.Lib.ByteBuffer
import Mathlib.Data.List.TakeDrop

namespace JavaStudy

structure RandomAccessFile where
  bytes : List Byte
  pointer : Nat
  pointer_le : pointer ≤ bytes.length

namespace RandomAccessFile

def CR : Byte := 0x0D
def LF : Byte := 0x0A

/-! ## 1. The operations -/

theorem zero_le_length (bytes : List Byte) : 0 ≤ bytes.length := Nat.zero_le _

/-- A file that was opened. -/
def ofBytes (bytes : List Byte) : RandomAccessFile := ⟨bytes, 0, zero_le_length bytes⟩

def length (f : RandomAccessFile) : Nat := f.bytes.length

def write (f : RandomAccessFile) (new : List Byte) : RandomAccessFile where
  bytes := f.bytes.take f.pointer ++ new ++ f.bytes.drop (f.pointer + new.length)
  pointer := f.pointer + new.length
  pointer_le := by
    have hle := f.pointer_le
    simp only [List.length_append, List.length_take, List.length_drop]
    omega

/-- The line that is at the beginning of some bytes, without its terminator, and the number of
bytes that it takes up with it. -/
def lineAt : List Byte → List Byte × Nat
  | [] => ([], 0)
  | c :: rest =>
    if c = LF then ([], 1)
    else if c = CR then ([], if rest.head? = some LF then 2 else 1)
    else (c :: (lineAt rest).1, (lineAt rest).2 + 1)

theorem lineAt_le (bytes : List Byte) : (lineAt bytes).2 ≤ bytes.length := by
  induction bytes with
  | nil => exact Nat.le_refl 0
  | cons c rest ih =>
    rw [lineAt, List.length_cons]
    split
    · exact Nat.le_add_left 1 _
    · split
      · cases rest with
        | nil => simp
        | cons d rest =>
          simp only [List.length_cons]
          split <;> omega
      · exact Nat.succ_le_succ ih

/-- The bytes from the pointer on. -/
def rest (f : RandomAccessFile) : List Byte := f.bytes.drop f.pointer

theorem pointer_add_le (f : RandomAccessFile) : f.pointer + (lineAt f.rest).2 ≤ f.bytes.length := by
  have hle := f.pointer_le
  have hline := lineAt_le f.rest
  rw [rest, List.length_drop] at hline
  rw [rest]
  omega

/-- `readLine`; it returns `null` at the end of the file. -/
def readLine (f : RandomAccessFile) : Option (List Byte) × RandomAccessFile :=
  (if f.rest = [] then none else some (lineAt f.rest).1,
    { bytes := f.bytes, pointer := f.pointer + (lineAt f.rest).2, pointer_le := f.pointer_add_le })

/-! ## 2. What they change -/

theorem length_write (f : RandomAccessFile) (new : List Byte) :
    (f.write new).length = max f.length (f.pointer + new.length) := by
  have hle := f.pointer_le
  simp only [length, write, List.length_append, List.length_take, List.length_drop]
  omega

@[simp] theorem pointer_write (f : RandomAccessFile) (new : List Byte) :
    (f.write new).pointer = f.pointer + new.length := rfl

theorem pointer_le_readLine (f : RandomAccessFile) : f.pointer ≤ f.readLine.2.pointer :=
  Nat.le_add_right ..

/-- There is a line exactly if the pointer is not at the end. -/
theorem readLine_eq_none_iff (f : RandomAccessFile) : f.readLine.1 = none ↔ f.length ≤ f.pointer := by
  simp [readLine, rest, length]

end RandomAccessFile
end JavaStudy
