/-
# `FileHole`: records at positions far apart

`putData` writes a record that names its position to this position of the file.  `main` does so
three times, once backwards.  For any positions, in any order, the size is the largest that was
written, as `main` prints it; the records that are not written over are read back, and all other
bytes are those that stood there, or of a hole.
-/
import JavaStudy.Lib.Ascii
import JavaStudy.Lib.SparseFile

namespace JavaStudy
namespace FileHole

open JavaText SparseFile

inductive Throwable where
  | illegalArgument
  | bufferOverflow
  deriving DecidableEq

/-- `"*<-- location " + position`. -/
def string (position : JInt) : JString :=
  "*<-- location ".toList.map unit ++ Integer.toString position

/-- `putData` on a file; what it leaves in the file is returned, with the buffer. -/
def putData (gap : Nat → Byte) (position : JInt) (buffer : ByteBuffer) (file : List Byte) :
    Except Throwable (ByteBuffer × List Byte) :=
  match buffer.clear.put (Ascii.getBytes (string position)) with
  | none => .error .bufferOverflow
  | some buffer =>
    if position.toInt < 0 then .error .illegalArgument
    else .ok ((buffer.flip.takeUpTo buffer.flip.remaining).2,
      write gap file ⟨position.toNat, buffer.flip.content⟩)

/-- `putData` again and again. -/
def putAll (gap : Nat → Byte) :
    List JInt → ByteBuffer → List Byte → Except Throwable (ByteBuffer × List Byte)
  | [], buffer, file => .ok (buffer, file)
  | position :: positions, buffer, file => do
    let (buffer, file) ← putData gap position buffer file
    putAll gap positions buffer file

/-- `main` on the file that it finds: the size that it prints, and the file. -/
def main (gap : Nat → Byte) (file : List Byte) : Except Throwable (Nat × List Byte) :=
  (putAll gap [0, 5000000, 40000] (.allocate 100) file).map fun r => (r.2.length, r.2)

/-! ## 1. One record -/

def record (position : JInt) : Write := ⟨position.toNat, Ascii.getBytes (string position)⟩

theorem toString_of_nonneg {position : JInt} (h : 0 ≤ position.toInt) :
    Integer.toString position = digits position.toInt.natAbs := by
  rw [Integer.toString, if_neg (Int.not_lt.mpr h)]

theorem ascii_string {position : JInt} (h : 0 ≤ position.toInt) :
    Ascii.IsAscii (string position) := by
  have htext : Ascii.IsAscii ("*<-- location ".toList.map unit) := by decide
  unfold string
  rw [toString_of_nonneg h]
  intro c hc
  rcases List.mem_append.mp hc with hc | hc
  · exact htext c hc
  · exact Ascii.ascii_digits _ c hc

theorem length_record {position : JInt} (h : 0 ≤ position.toInt) :
    (record position).bytes ≠ [] ∧ (record position).bytes.length ≤ 24 := by
  have hlength := Ascii.length_getBytes (ascii_string h)
  have htext : ("*<-- location ".toList.map unit).length = 14 := by decide
  have hdigits : (digits position.toInt.natAbs).length ≤ 10 := by
    refine length_digits_le (by decide) ?_
    have hlt := position.toInt_lt
    omega
  have hbytes : (record position).bytes.length = 14 + (digits position.toInt.natAbs).length := by
    rw [record, hlength]
    unfold string
    rw [toString_of_nonneg h, List.length_append, htext]
  refine ⟨List.ne_nil_of_length_pos ?_, ?_⟩
  · omega
  · omega

/-- **`putData` writes the record**, and the buffer is as large as before. -/
theorem putData_eq {gap : Nat → Byte} {position : JInt} (h : 0 ≤ position.toInt)
    {buffer : ByteBuffer} (hbuffer : 24 ≤ buffer.capacity) (file : List Byte) :
    ∃ buffer', putData gap position buffer file = .ok (buffer', write gap file (record position)) ∧
      buffer'.capacity = buffer.capacity := by
  have hroom : (record position).bytes.length ≤ buffer.clear.remaining :=
    Nat.le_trans (length_record h).2 hbuffer
  obtain ⟨filled, hput, hcapacity⟩ := ByteBuffer.exists_put hroom
  obtain ⟨taken, htake, hsame⟩ := filled.flip.exists_take_remaining
  have hcontent : filled.flip.content = (record position).bytes :=
    ByteBuffer.content_flip_put rfl hput
  refine ⟨taken, ?_, hsame.trans hcapacity⟩
  rw [record] at hput
  rw [putData, hput]
  simp only [if_neg (Int.not_lt.mpr h), hcontent, ByteBuffer.takeUpTo, Nat.min_self,
    htake, Option.getD_some]
  rfl

/-! ## 2. Many records -/

theorem putAll_eq (gap : Nat → Byte) {positions : List JInt}
    (h : ∀ position ∈ positions, 0 ≤ position.toInt) {buffer : ByteBuffer}
    (hbuffer : 24 ≤ buffer.capacity) (file : List Byte) :
    ∃ buffer', putAll gap positions buffer file =
      .ok (buffer', writes gap file (positions.map record)) := by
  induction positions generalizing buffer file with
  | nil => exact ⟨buffer, rfl⟩
  | cons position positions ih =>
    obtain ⟨buffer', hput, hcapacity⟩ := putData_eq (h position List.mem_cons_self) hbuffer file
    obtain ⟨last, hlast⟩ := ih (fun p hp => h p (List.mem_cons_of_mem _ hp))
      (hcapacity.symm ▸ hbuffer) (write gap file (record position))
    refine ⟨last, ?_⟩
    rw [putAll, hput]
    exact hlast

/-- What is in the file after records have been put to some positions, in that order. -/
structure Holds (gap : Nat → Byte) (file : List Byte) (positions : List JInt)
    (result : List Byte) : Prop where
  /-- The size is the largest position that was written. -/
  size : result.length = ((positions.map record).map Write.stop).foldl max file.length
  /-- Each byte is of the last record that covers it, or of the old file, or of a hole. -/
  bytes : ∀ i, i < result.length → result[i]? =
    some ((lastByte i (positions.map record)).getD (file[i]?.getD (gap i)))
  /-- A record that is not written over is read back. -/
  readBack : ∀ before position after, positions = before ++ position :: after →
    (∀ later ∈ after, (record position).stop ≤ (record later).position ∨
      (record later).stop ≤ (record position).position) →
    (result.drop position.toNat).take (string position).length = Ascii.getBytes (string position)

/-- **Records at any positions**, in any order: no `putData` fails, and the file holds them. -/
theorem putAll_holds (gap : Nat → Byte) {positions : List JInt}
    (h : ∀ position ∈ positions, 0 ≤ position.toInt) {buffer : ByteBuffer}
    (hbuffer : 24 ≤ buffer.capacity) (file : List Byte) :
    ∃ buffer' result, putAll gap positions buffer file = .ok (buffer', result) ∧
      Holds gap file positions result := by
  obtain ⟨buffer', hput⟩ := putAll_eq gap h hbuffer file
  refine ⟨buffer', _, hput, ?_, ?_, ?_⟩
  · refine length_writes ?_
    intro w hw
    obtain ⟨position, hposition, rfl⟩ := List.mem_map.mp hw
    exact (length_record (h position hposition)).1
  · intro i hi
    rw [getElem?_of_lt hi, byteAt_writes]
    rfl
  · rintro before position after rfl hafter
    have hlength := Ascii.length_getBytes (ascii_string (h position (by simp)))
    rw [← hlength, List.map_append, List.map_cons]
    exact read_back file (before.map record) (w := record position) (by simpa using hafter)

/-- The three records of `main`, on an empty file; it prints the size that its comment promises. -/
theorem main_holds : ∃ result, main (fun _ => 0) [] = .ok (5000021, result) ∧
    Holds (fun _ => 0) [] [0, 5000000, 40000] result := by
  obtain ⟨buffer, result, hput, hholds⟩ := putAll_holds (fun _ => 0)
    (by simp : ∀ position ∈ [(0 : JInt), 5000000, 40000], 0 ≤ position.toInt)
    (by decide : 24 ≤ (ByteBuffer.allocate 100).capacity) []
  have hsize : result.length = 5000021 := by
    rw [hholds.size]
    decide
  refine ⟨result, ?_, hholds⟩
  rw [main, hput, Except.map, hsize]

end FileHole
end JavaStudy
