/-
# A file that is written to at positions

A write that starts behind the end makes the file longer, and leaves bytes in between that nobody
wrote.  What these are is open: a parameter, `gap`, says it.

`byteAt` reads a file as if it went on with the gap behind its end.  Then a write changes what it
covers and nothing else (`byteAt_write`), and after many writes a byte is the one of the last write
that covers it, or the old one (`byteAt_writes`).
-/
import JavaStudy.Lib.ByteBuffer

namespace JavaStudy
namespace SparseFile

/-! ## 1. One write -/

/-- Some bytes, to be written to a position. -/
structure Write where
  position : Nat
  bytes : List Byte
  deriving DecidableEq

/-- The byte that is written to `i`. -/
def Write.byte (w : Write) (i : Nat) : Option Byte :=
  if w.position ≤ i then w.bytes[i - w.position]? else none

/-- Behind the last byte. -/
def Write.stop (w : Write) : Nat := w.position + w.bytes.length

variable (gap : Nat → Byte)

/-- The bytes that nobody wrote, between two positions. -/
def between (start stop : Nat) : List Byte := (List.range' start (stop - start)).map gap

def write (file : List Byte) (w : Write) : List Byte :=
  if w.bytes = [] then file
  else file.take w.position ++ between gap file.length w.position ++ w.bytes ++ file.drop w.stop

def byteAt (file : List Byte) (i : Nat) : Byte := file[i]?.getD (gap i)

variable {gap}

theorem byte_eq_none_iff {w : Write} {i : Nat} : w.byte i = none ↔ i < w.position ∨ w.stop ≤ i := by
  rw [Write.byte, Write.stop]
  split
  · rw [List.getElem?_eq_none_iff]
    omega
  · simp only [true_iff]
    omega

theorem getElem?_of_lt {file : List Byte} {i : Nat} (h : i < file.length) :
    file[i]? = some (byteAt gap file i) := by
  rw [byteAt, List.getElem?_eq_getElem h]
  rfl

@[simp] theorem length_between (start stop : Nat) :
    (between gap start stop).length = stop - start := by simp [between]

theorem length_write (file : List Byte) (w : Write) :
    (write gap file w).length = if w.bytes = [] then file.length else max file.length w.stop := by
  rw [write]
  split
  · rfl
  · simp only [List.length_append, List.length_take, length_between, List.length_drop, Write.stop]
    omega

/-- What stands before the bytes that are written: the file, and the gap behind it. -/
theorem getElem?_front {file : List Byte} {position i : Nat} (h : i < position) :
    (file.take position ++ between gap file.length position)[i]? = some (byteAt gap file i) := by
  by_cases hi : i < file.length
  · rw [List.getElem?_append_left (by rw [List.length_take]; omega), List.getElem?_take, if_pos h,
      getElem?_of_lt hi]
  · have hk : i - min position file.length < position - file.length := by omega
    rw [List.getElem?_append_right (by rw [List.length_take]; omega), List.length_take, between,
      List.getElem?_map, List.getElem?_range' hk, byteAt, List.getElem?_eq_none (by omega)]
    simp only [Option.map_some, Option.getD_none]
    congr 2
    omega

/-- **A write changes what it covers, and nothing else.** -/
theorem byteAt_write (file : List Byte) (w : Write) (i : Nat) :
    byteAt gap (write gap file w) i = (w.byte i).getD (byteAt gap file i) := by
  rw [write]
  split
  · rename_i hnil
    simp [Write.byte, hnil]
  · have hfront : (file.take w.position ++ between gap file.length w.position).length =
        w.position := by
      rw [List.length_append, List.length_take, length_between]
      omega
    rw [byteAt]
    by_cases hbefore : i < w.position
    · rw [byte_eq_none_iff.mpr (.inl hbefore), List.append_assoc,
        List.getElem?_append_left (by rwa [hfront]), getElem?_front hbefore]
      rfl
    · rw [List.append_assoc, List.getElem?_append_right (by omega), hfront, Write.byte,
        if_pos (by omega)]
      by_cases hin : i - w.position < w.bytes.length
      · rw [List.getElem?_append_left hin, List.getElem?_eq_getElem hin]
        rfl
      · rw [List.getElem?_append_right (by omega), List.getElem?_drop,
          List.getElem?_eq_none (l := w.bytes) (by omega), Write.stop,
          show w.position + w.bytes.length + (i - w.position - w.bytes.length) = i by omega]
        rfl

/-! ## 2. Many writes -/

def writes (gap : Nat → Byte) (file : List Byte) (ws : List Write) : List Byte :=
  ws.foldl (write gap) file

/-- The byte of the last write that covers `i`. -/
def lastByte (i : Nat) : List Write → Option Byte
  | [] => none
  | w :: ws => (lastByte i ws).or (w.byte i)

/-- **After many writes, a byte is the last that was written, or the old one.** -/
theorem byteAt_writes (file : List Byte) (ws : List Write) (i : Nat) :
    byteAt gap (writes gap file ws) i = (lastByte i ws).getD (byteAt gap file i) := by
  induction ws generalizing file with
  | nil => rfl
  | cons w ws ih =>
    rw [writes, List.foldl_cons, ← writes, ih, byteAt_write, lastByte]
    cases lastByte i ws <;> rfl

/-- **The file is as long as its last byte that was ever written requires.** -/
theorem length_writes {file : List Byte} {ws : List Write} (h : ∀ w ∈ ws, w.bytes ≠ []) :
    (writes gap file ws).length = (ws.map Write.stop).foldl max file.length := by
  induction ws generalizing file with
  | nil => rfl
  | cons w ws ih =>
    rw [writes, List.foldl_cons, ← writes, ih fun w' hw' => h w' (List.mem_cons_of_mem _ hw'),
      length_write, if_neg (h w List.mem_cons_self)]
    rfl

/-- A byte that no later write covers stays. -/
theorem lastByte_eq_none {i : Nat} {ws : List Write} (h : ∀ w ∈ ws, i < w.position ∨ w.stop ≤ i) :
    lastByte i ws = none := by
  induction ws with
  | nil => rfl
  | cons w ws ih =>
    rw [lastByte, ih fun w' hw' => h w' (List.mem_cons_of_mem _ hw'),
      byte_eq_none_iff.mpr (h w List.mem_cons_self)]
    rfl

theorem lastByte_append (i : Nat) (ws ws' : List Write) :
    lastByte i (ws ++ ws') = (lastByte i ws').or (lastByte i ws) := by
  induction ws with
  | nil => simp [lastByte]
  | cons w ws ih => rw [List.cons_append, lastByte, ih, lastByte, Option.or_assoc]

theorem length_le_write (file : List Byte) (w : Write) :
    file.length ≤ (write gap file w).length := by
  rw [length_write]
  split
  · exact le_rfl
  · exact Nat.le_max_left ..

theorem length_le_writes (file : List Byte) (ws : List Write) :
    file.length ≤ (writes gap file ws).length := by
  induction ws generalizing file with
  | nil => exact le_rfl
  | cons w ws ih => exact Nat.le_trans (length_le_write file w) (ih (write gap file w))

/-- **What no later write overlaps is read back.** -/
theorem read_back (file : List Byte) (before : List Write) {w : Write} {after : List Write}
    (h : ∀ w' ∈ after, w.stop ≤ w'.position ∨ w'.stop ≤ w.position) :
    ((writes gap file (before ++ w :: after)).drop w.position).take w.bytes.length = w.bytes := by
  refine List.ext_getElem? ?_
  intro j
  rw [List.getElem?_take]
  split
  · rename_i hj
    have hlast : lastByte (w.position + j) after = none := by
      refine lastByte_eq_none ?_
      intro w' hw'
      have hdisjoint := h w' hw'
      rw [Write.stop] at hdisjoint
      omega
    have hsome : w.bytes ≠ [] := List.ne_nil_of_length_pos (Nat.zero_lt_of_lt hj)
    have hlength : w.stop ≤ (writes gap file (before ++ w :: after)).length := by
      rw [writes, List.foldl_append, List.foldl_cons]
      refine le_trans ?_ (length_le_writes _ after)
      rw [length_write, if_neg hsome]
      exact Nat.le_max_right ..
    rw [Write.stop] at hlength
    rw [List.getElem?_drop, getElem?_of_lt (by omega), byteAt_writes, lastByte_append,
      lastByte, hlast, Option.none_or, Write.byte, if_pos (Nat.le_add_right ..),
      Nat.add_sub_cancel_left, List.getElem?_eq_getElem hj]
    rfl
  · rename_i hj
    rw [List.getElem?_eq_none (by omega)]

end SparseFile
end JavaStudy
