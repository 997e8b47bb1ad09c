/-
# Numbers as bytes, the most significant byte first

`toBytes w n` are the last `w` bytes of `n`, `ofBytes` is the number bytes stand for.  The rules
are the round trips (`ofBytes_toBytes`, `toBytes_ofBytes`), what appending bytes does to the number
(`ofBytes_append`), that the bytes of a number end with the bytes of a shorter width
(`drop_toBytes`), and that bytes are told apart by the numbers they stand for (`ofBytes_inj`).

An `IntBuffer` over a buffer is a view of the same bytes, four to an `int`: `intAt` reads one, and
`putInt` writes one, and `ints` are the bytes of a list of them.

A `slice` of a buffer is another buffer that shares its bytes.  `Sliced` is a buffer with a slice of
its end: the bytes before the slice, and the slice with its own position and limit.
-/
import JavaStudy.Lib.ByteBuffer
import Mathlib.Data.List.Induction
import Mathlib.Tactic.Ring

namespace JavaStudy
namespace BigEndian

/-! ## 1. Bytes and numbers -/

/-- The number that the bytes stand for. -/
def ofBytes (bytes : List Byte) : Nat := bytes.foldl (fun n b => 256 * n + b.toNat) 0

/-- The last `w` bytes of `n`. -/
def toBytes : Nat → Nat → List Byte
  | 0, _ => []
  | w + 1, n => toBytes w (n / 256) ++ [BitVec.ofNat 8 n]

@[simp] theorem ofBytes_nil : ofBytes [] = 0 := rfl

theorem ofBytes_concat (bytes : List Byte) (b : Byte) :
    ofBytes (bytes ++ [b]) = 256 * ofBytes bytes + b.toNat := by
  simp only [ofBytes, List.foldl_append, List.foldl_cons, List.foldl_nil]

@[simp] theorem length_toBytes (w n : Nat) : (toBytes w n).length = w := by
  induction w generalizing n with
  | zero => rfl
  | succ w ih => rw [toBytes, List.length_append, ih, List.length_singleton]

theorem ofBytes_append (bytes rest : List Byte) :
    ofBytes (bytes ++ rest) = ofBytes bytes * 256 ^ rest.length + ofBytes rest := by
  induction rest using List.reverseRecOn with
  | nil => simp
  | append_singleton rest b ih =>
    rw [← List.append_assoc, ofBytes_concat, ofBytes_concat, ih, List.length_append,
      List.length_singleton, pow_succ]
    ring

theorem ofBytes_lt (bytes : List Byte) : ofBytes bytes < 256 ^ bytes.length := by
  induction bytes using List.reverseRecOn with
  | nil => decide
  | append_singleton bytes b ih =>
    have hb : b.toNat < 256 := b.isLt
    rw [ofBytes_concat, List.length_append, List.length_singleton, pow_succ]
    omega

/-- **The bytes of a number stand for it, up to their width.** -/
theorem ofBytes_toBytes (w n : Nat) : ofBytes (toBytes w n) = n % 256 ^ w := by
  induction w generalizing n with
  | zero => rw [toBytes, ofBytes_nil, pow_zero, Nat.mod_one]
  | succ w ih =>
    rw [toBytes, ofBytes_concat, ih, BitVec.toNat_ofNat, pow_succ' 256 w, Nat.mod_mul]
    omega

theorem toBytes_ofBytes (bytes : List Byte) : toBytes bytes.length (ofBytes bytes) = bytes := by
  induction bytes using List.reverseRecOn with
  | nil => rfl
  | append_singleton bytes b ih =>
    have hb : b.toNat < 256 := b.isLt
    have hdiv : (256 * ofBytes bytes + b.toNat) / 256 = ofBytes bytes := by omega
    have hlast : BitVec.ofNat 8 (256 * ofBytes bytes + b.toNat) = b := by
      apply BitVec.eq_of_toNat_eq
      rw [BitVec.toNat_ofNat]
      omega
    rw [List.length_append, List.length_singleton, ofBytes_concat, toBytes, hdiv, hlast, ih]

/-- Bytes of one length that stand for the same number are the same. -/
theorem ofBytes_inj {bytes bytes' : List Byte} (hlength : bytes.length = bytes'.length) :
    ofBytes bytes = ofBytes bytes' ↔ bytes = bytes' := by
  refine ⟨?_, congrArg ofBytes⟩
  intro h
  rw [← toBytes_ofBytes bytes, h, hlength, toBytes_ofBytes]

/-- The bytes of a number end with its bytes in a shorter width. -/
theorem drop_toBytes (k w n : Nat) : (toBytes (k + w) n).drop k = toBytes w n := by
  induction w generalizing n with
  | zero => exact List.drop_of_length_le (le_of_eq (length_toBytes k n))
  | succ w ih =>
    have hle : k ≤ (toBytes (k + w) (n / 256)).length := by
      rw [length_toBytes]
      omega
    rw [← Nat.add_assoc, toBytes, List.drop_append_of_le_length hle, ih, toBytes]

theorem ofBytes_zeros (n : Nat) : ofBytes (List.replicate n 0) = 0 := by
  induction n with
  | zero => rfl
  | succ n ih =>
    rw [List.replicate_succ', ofBytes_concat, ih]
    rfl

/-! ## 2. A buffer and a slice of its end -/

/-- A buffer of which a slice sees all but the first bytes. -/
structure Sliced where
  before : List Byte
  slice : ByteBuffer

namespace Sliced

/-- The bytes of the whole buffer. -/
def array (b : Sliced) : List Byte := b.before ++ b.slice.array

/-- `ByteBuffer.allocate(offset + capacity)`, `position(offset)` and `slice()`. -/
def allocate (offset capacity : Nat) : Sliced := ⟨List.replicate offset 0, .allocate capacity⟩

/-- A put of the whole buffer at index 0; it moves no index of the slice. -/
def putAll (b : Sliced) (bytes : List Byte) : Option Sliced :=
  if h : bytes.length = b.before.length + b.slice.capacity then
    some
      { before := bytes.take b.before.length
        slice :=
          { array := bytes.drop b.before.length
            position := b.slice.position
            limit := b.slice.limit
            position_le := b.slice.position_le
            limit_le := by
              rw [List.length_drop, h, Nat.add_sub_cancel_left]
              exact b.slice.limit_le } }
  else none

theorem exists_putAll {b : Sliced} {bytes : List Byte}
    (h : bytes.length = b.before.length + b.slice.capacity) :
    ∃ b', b.putAll bytes = some b' ∧ b'.before = bytes.take b.before.length ∧
      b'.slice.array = bytes.drop b.before.length ∧ ByteBuffer.Alike b.slice b'.slice := by
  refine ⟨_, dif_pos h, rfl, rfl, rfl, rfl, ?_⟩
  simp only [ByteBuffer.capacity, List.length_drop, h, Nat.add_sub_cancel_left]

end Sliced

/-! ## 3. A view of ints -/

/-- The bytes of the `int` with that index. -/
def slot (bytes : List Byte) (n : Nat) : List Byte := (bytes.drop (4 * n)).take 4

/-- The `int` with that index. -/
def intAt (bytes : List Byte) (n : Nat) : BitVec 32 := BitVec.ofNat 32 (ofBytes (slot bytes n))

theorem limit_le_putInt {b : ByteBuffer} {n : Nat} (h : 4 * n + 4 ≤ b.capacity)
    (value : BitVec 32) :
    b.limit ≤
      (b.array.take (4 * n) ++ toBytes 4 value.toNat ++ b.array.drop (4 * n + 4)).length := by
  have hlimit : b.limit ≤ b.array.length := b.limit_le
  simp only [ByteBuffer.capacity] at h
  simp only [List.length_append, List.length_take, List.length_drop, length_toBytes]
  omega

/-- Put an `int` at that index; the indices of the buffer itself do not move. -/
def putInt (b : ByteBuffer) (n : Nat) (value : BitVec 32) : Option ByteBuffer :=
  if h : 4 * n + 4 ≤ b.capacity then
    some
      { array := b.array.take (4 * n) ++ toBytes 4 value.toNat ++ b.array.drop (4 * n + 4)
        position := b.position
        limit := b.limit
        position_le := b.position_le
        limit_le := limit_le_putInt h value }
  else none

/-- The bytes of those `int`s. -/
def ints (values : List (BitVec 32)) : List Byte := values.flatMap fun v => toBytes 4 v.toNat

theorem ints_concat (values : List (BitVec 32)) (v : BitVec 32) :
    ints (values ++ [v]) = ints values ++ toBytes 4 v.toNat := by
  simp [ints]

@[simp] theorem length_ints (values : List (BitVec 32)) :
    (ints values).length = 4 * values.length := by
  induction values using List.reverseRecOn with
  | nil => rfl
  | append_singleton values v ih =>
    rw [ints_concat, List.length_append, ih, length_toBytes, List.length_append,
      List.length_singleton, Nat.mul_add]

theorem exists_putInt {b : ByteBuffer} {n : Nat} (h : 4 * n + 4 ≤ b.capacity)
    (value : BitVec 32) :
    ∃ b', putInt b n value = some b' ∧ b'.capacity = b.capacity ∧
      b'.array.take (4 * (n + 1)) = b.array.take (4 * n) ++ toBytes 4 value.toNat := by
  simp only [ByteBuffer.capacity] at h
  have hlength : (b.array.take (4 * n) ++ toBytes 4 value.toNat).length = 4 * (n + 1) := by
    rw [List.length_append, List.length_take, length_toBytes]
    omega
  refine ⟨_, dif_pos h, ?_, List.take_left' hlength⟩
  simp only [ByteBuffer.capacity, List.length_append, List.length_take, List.length_drop,
    length_toBytes]
  omega

theorem slot_ints {values : List (BitVec 32)} {n : Nat} {v : BitVec 32}
    (h : values[n]? = some v) : slot (ints values) n = toBytes 4 v.toNat := by
  induction values using List.reverseRecOn with
  | nil => exact absurd h (by simp)
  | append_singleton values w ih =>
    rw [List.getElem?_append] at h
    rw [slot, ints_concat]
    split at h
    · rename_i hn
      rw [List.drop_append_of_le_length (by rw [length_ints]; omega),
        List.take_append_of_le_length (by rw [List.length_drop, length_ints]; omega)]
      exact ih h
    · rw [List.getElem?_singleton] at h
      split at h
      · rename_i hn
        cases h
        have hlast : 4 * n = (ints values).length := by
          rw [length_ints]
          omega
        rw [hlast, List.drop_left]
        exact List.take_of_length_le (le_of_eq (length_toBytes 4 _))
      · exact absurd h (by simp)

/-- **What was put at an index is read there.** -/
theorem intAt_ints {values : List (BitVec 32)} {n : Nat} {v : BitVec 32}
    (h : values[n]? = some v) : intAt (ints values) n = v := by
  rw [intAt, slot_ints h, ofBytes_toBytes]
  apply BitVec.eq_of_toNat_eq
  rw [BitVec.toNat_ofNat]
  have hlt : v.toNat < 2 ^ 32 := v.isLt
  omega

theorem getElem?_slot (bytes : List Byte) (n : Nat) {j : Nat} (hj : j < 4) :
    (slot bytes n)[j]? = bytes[4 * n + j]? := by
  rw [slot, List.getElem?_take_of_lt hj, List.getElem?_drop]

theorem length_slot {bytes : List Byte} {n : Nat} (h : 4 * n + 4 ≤ bytes.length) :
    (slot bytes n).length = 4 := by
  rw [slot, List.length_take, List.length_drop]
  omega

theorem toNat_intAt {bytes : List Byte} {n : Nat} (h : 4 * n + 4 ≤ bytes.length) :
    (intAt bytes n).toNat = ofBytes (slot bytes n) := by
  have hlt : ofBytes (slot bytes n) < 2 ^ 32 :=
    lt_of_lt_of_eq (ofBytes_lt _) (by rw [length_slot h]; decide)
  rw [intAt, BitVec.toNat_ofNat, Nat.mod_eq_of_lt hlt]

/-- `int`s are the same exactly if their bytes are. -/
theorem intAt_inj {bytes bytes' : List Byte} {n n' : Nat} (h : 4 * n + 4 ≤ bytes.length)
    (h' : 4 * n' + 4 ≤ bytes'.length) :
    intAt bytes n = intAt bytes' n' ↔ ∀ j < 4, bytes[4 * n + j]? = bytes'[4 * n' + j]? := by
  have hlength : (slot bytes n).length = 4 := length_slot h
  have hlength' : (slot bytes' n').length = 4 := length_slot h'
  rw [← BitVec.toNat_inj, toNat_intAt h, toNat_intAt h', ofBytes_inj (hlength.trans hlength'.symm),
    List.ext_getElem?_iff]
  constructor
  · intro hslot j hj
    rw [← getElem?_slot bytes n hj, ← getElem?_slot bytes' n' hj]
    exact hslot j
  · intro hbytes j
    by_cases hj : j < 4
    · rw [getElem?_slot bytes n hj, getElem?_slot bytes' n' hj]
      exact hbytes j hj
    · rw [List.getElem?_eq_none (by omega), List.getElem?_eq_none (by omega)]

end BigEndian
end JavaStudy
