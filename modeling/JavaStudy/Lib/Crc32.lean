/-
# CRC-32

`java.util.zip.CRC32`: a register of 32 bits, shifted right once for each bit of the input, the
polynomial added whenever a 1 falls out; the value is the complement of the register.

A shift can be undone, since the bit that falls out comes back as the highest one
(`shift_injective`).  So an update tells its bytes apart (`update_inj`), and two inputs that differ
in their last byte only have different values (`crc_concat_inj`).
-/
import JavaStudy.Lib.ByteBuffer
import Mathlib.Logic.Function.Iterate

namespace JavaStudy
namespace Crc32

/-! ## 1. The algorithm -/

def POLYNOMIAL : BitVec 32 := 0xEDB88320

/-- One bit of the input. -/
def shift (register : BitVec 32) : BitVec 32 :=
  if register.getLsbD 0 then (register >>> 1) ^^^ POLYNOMIAL else register >>> 1

/-- `update(int)` on the value: it sees the low eight bits of its argument. -/
def update (crc : BitVec 32) (b : BitVec 32) : BitVec 32 :=
  ~~~(shift^[8] (~~~crc ^^^ (b.setWidth 8).setWidth 32))

/-- The value of a new `CRC32`. -/
def new : BitVec 32 := 0

/-- The value after those bytes. -/
def crc (bytes : List Byte) : BitVec 32 :=
  bytes.foldl (fun crc b => update crc (b.setWidth 32)) new

/-! ## 2. What an update sees -/

theorem crc_concat (bytes : List Byte) (b : Byte) :
    crc (bytes ++ [b]) = update (crc bytes) (b.setWidth 32) := by
  rw [crc, List.foldl_append]
  rfl

/-- A byte comes back from the `int` that it was widened to. -/
theorem setWidth_setWidth_byte (b : Byte) : (b.setWidth 32).setWidth 8 = b := by
  rw [BitVec.setWidth_setWidth (by omega), BitVec.setWidth_eq]

theorem setWidth_signExtend_byte (b : Byte) : (b.signExtend 32).setWidth 8 = b := by
  apply BitVec.eq_of_getLsbD_eq
  intro i hi
  have hi32 : i < 32 := by omega
  rw [BitVec.getLsbD_setWidth, BitVec.getLsbD_signExtend, if_pos hi, decide_eq_true hi,
    decide_eq_true hi32, Bool.true_and, Bool.true_and]

/-- How a byte is widened makes no difference. -/
theorem update_signExtend (value : BitVec 32) (b : Byte) :
    update value (b.signExtend 32) = update value (b.setWidth 32) := by
  rw [update, update, setWidth_signExtend_byte, setWidth_setWidth_byte]

/-- The bit that falls out comes back as the highest one. -/
theorem getLsbD_shift (register : BitVec 32) :
    (shift register).getLsbD 31 = register.getLsbD 0 := by
  unfold shift
  split
  · rename_i h
    rw [h, BitVec.getLsbD_xor, BitVec.getLsbD_ushiftRight, BitVec.getLsbD_of_ge _ _ (by decide)]
    rfl
  · rename_i h
    rw [Bool.eq_false_iff.mpr h, BitVec.getLsbD_ushiftRight, BitVec.getLsbD_of_ge _ _ (by decide)]

/-- **A shift can be undone.** -/
theorem shift_injective : Function.Injective shift := by
  intro a b h
  have hlow : a.getLsbD 0 = b.getLsbD 0 := by
    rw [← getLsbD_shift, ← getLsbD_shift, h]
  have hhigh : a >>> 1 = b >>> 1 := by
    unfold shift at h
    rw [hlow] at h
    split at h
    · exact BitVec.xor_left_inj _ |>.mp h
    · exact h
  apply BitVec.eq_of_getLsbD_eq
  intro i _
  cases i with
  | zero => exact hlow
  | succ i =>
    have hbit := congrArg (BitVec.getLsbD · i) hhigh
    simp only [BitVec.getLsbD_ushiftRight] at hbit
    rw [Nat.add_comm i 1]
    exact hbit

/-- An update tells its bytes apart. -/
theorem update_inj {value b b' : BitVec 32} :
    update value b = update value b' ↔ b.setWidth 8 = b'.setWidth 8 := by
  constructor
  · intro h
    have hregister := (shift_injective.iterate 8) (BitVec.not_inj.mp h)
    have hwide := (BitVec.xor_right_inj _).mp hregister
    have hbyte := congrArg (BitVec.setWidth 8) hwide
    rw [setWidth_setWidth_byte, setWidth_setWidth_byte] at hbyte
    exact hbyte
  · intro h
    rw [update, update, h]

/-- **Inputs that differ in the last byte only have different values.** -/
theorem crc_concat_inj {bytes : List Byte} {b b' : Byte} :
    crc (bytes ++ [b]) = crc (bytes ++ [b']) ↔ b = b' := by
  rw [crc_concat, crc_concat, update_inj, setWidth_setWidth_byte, setWidth_setWidth_byte]

set_option maxRecDepth 4000 in
/-- The check value of the algorithm. -/
example : crc [0x31, 0x32, 0x33, 0x34, 0x35, 0x36, 0x37, 0x38, 0x39] = 0xCBF43926 := by decide

end Crc32
end JavaStudy
