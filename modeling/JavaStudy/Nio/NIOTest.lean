/-
# `NIOTest`: four ways to the CRC-32 of a file

A stream read byte by byte, the same through a buffer, a `RandomAccessFile` with a counter of 64
bits, and a mapped file with a counter of 32 bits.  The streams give a byte as an `int` from 0 to
255, the other two as a signed `byte`, which makes no difference to a CRC.

The difference is in the length: `(int) channel.size()` keeps 32 bits of it.  From `2 ^ 31` bytes on
it may be negative, and then `map` throws; from `2 ^ 32` bytes on it is too small, and then only a
beginning of the file is mapped.
-/
import JavaStudy.Lib.Crc32
import Mathlib.Algebra.Ring.Int.Defs
import Mathlib.Algebra.Group.Nat.Defs

namespace JavaStudy
namespace NIOTest

open Crc32 (crc update)

/-! ## 1. The four functions -/

abbrev JInt := BitVec 32
abbrev JLong := BitVec 64

inductive Throwable where
  | eof
  | illegalArgument
  | indexOutOfBounds
  deriving DecidableEq

/-- `crc.getValue()`: the value as a `long`. -/
def getValue (crc : BitVec 32) : JLong := crc.setWidth 64

/-- `while((c = in.read()) != -1) crc.update(c)`, on a stream that has those bytes left. -/
def drain (crc : BitVec 32) : List Byte → BitVec 32
  | [] => crc
  | b :: rest =>
    let c : JInt := b.setWidth 32
    if c = -1 then crc else drain (update crc c) rest

def checksumInputStream (file : List Byte) : JLong := getValue (drain Crc32.new file)

/-- The buffer of a `BufferedInputStream`. -/
def DEFAULT_BUFFER_SIZE : Nat := 8192

/-- The same loop on a `BufferedInputStream`: `buf` are the bytes of its buffer that were not given
out yet, `src` those that it has not read.  The fill number `k` gets `transfer k` bytes, as far as
there are and there is room, and at least one. -/
def drainBuffered (transfer : Nat → Nat) (k : Nat) (crc : BitVec 32) :
    List Byte → List Byte → BitVec 32
  | [], [] => crc
  | [], b :: src =>
    let n := max 1 (min (transfer k) (min DEFAULT_BUFFER_SIZE (b :: src).length))
    drainBuffered transfer (k + 1) crc ((b :: src).take n) ((b :: src).drop n)
  | b :: buf, src =>
    let c : JInt := b.setWidth 32
    if c = -1 then crc else drainBuffered transfer k (update crc c) buf src
termination_by buf src => (src.length, buf.length)
decreasing_by
  · refine Prod.Lex.left _ _ ?_
    rw [List.length_drop, List.length_cons]
    omega
  · exact Prod.Lex.right _ (Nat.lt_succ_self _)

def checksumBufferedInputStream (transfer : Nat → Nat) (file : List Byte) : JLong :=
  getValue (drainBuffered transfer 0 Crc32.new [] file)

/-- A counter below its bound comes nearer to it. -/
theorem toNat_sub_succ_lt {w : Nat} {length p : BitVec w} (h : p.slt length = true) :
    (length - (p + 1)).toNat < (length - p).toNat := by
  have hne : (length - p).toNat ≠ 0 := by
    intro hzero
    have hdiff : length - p = 0#w := BitVec.eq_of_toNat_eq (by rw [hzero, BitVec.toNat_zero])
    have heq : length = p := by
      rw [← BitVec.sub_add_cancel length p, hdiff, BitVec.zero_add]
    simp [heq, BitVec.slt_iff_toInt_lt] at h
  have hpos : 0 < w := by
    by_contra hw
    have hpow : 2 ^ w = 1 := by rw [Nat.eq_zero_of_not_pos hw, Nat.pow_zero]
    have hlt : (length - p).toNat < 2 ^ w := (length - p).isLt
    omega
  have hone : (1#w).toNat = 1 := BitVec.toNat_one hpos
  have hle : 1#w ≤ length - p := by
    rw [BitVec.le_def, hone]
    omega
  change (length - (p + 1#w)).toNat < (length - p).toNat
  rw [← BitVec.sub_sub, BitVec.toNat_sub_of_le hle, hone]
  omega

/-- `for(p = 0; p < length; p++)`, from `p` on, with `p` and `length` of `w` bits: the byte at `p`
is widened as a signed one. -/
def countUp {w : Nat} (read : Nat → Except Throwable Byte) (length p : BitVec w)
    (crc : BitVec 32) : Except Throwable (BitVec 32) :=
  if p.slt length then
    match read p.toNat with
    | .ok b => countUp read length (p + 1) (update crc (b.signExtend 32))
    | .error e => .error e
  else .ok crc
termination_by (length - p).toNat
decreasing_by exact toNat_sub_succ_lt (by assumption)

/-- `seek` and `readByte`. -/
def readByte (file : List Byte) (p : Nat) : Except Throwable Byte :=
  match file[p]? with
  | some b => .ok b
  | none => .error .eof

def checksumRandomAccessInputStream (file : List Byte) : Except Throwable JLong :=
  let length : JLong := BitVec.ofNat 64 file.length
  (countUp (readByte file) length 0 Crc32.new).map getValue

/-- `channel.map` of a read-only region. -/
def map (file : List Byte) (position size : JLong) : Except Throwable (List Byte) :=
  if 0 ≤ size.toInt ∧ size.toInt < 2 ^ 31 then
    .ok ((file.drop position.toNat).take size.toNat)
  else .error .illegalArgument

/-- `buffer.get(p)`. -/
def get (buffer : List Byte) (p : Nat) : Except Throwable Byte :=
  match buffer[p]? with
  | some b => .ok b
  | none => .error .indexOutOfBounds

def checksumMappedFile (file : List Byte) : Except Throwable JLong :=
  let size : JLong := BitVec.ofNat 64 file.length
  let length : JInt := size.setWidth 32
  match map file 0 (length.signExtend 64) with
  | .ok buffer => (countUp (get buffer) length 0 Crc32.new).map getValue
  | .error e => .error e

/-! ## 2. What each of them computes -/

/-- The value after those bytes, from some value on. -/
def updates (crc : BitVec 32) (bytes : List Byte) : BitVec 32 :=
  bytes.foldl (fun crc b => update crc (b.setWidth 32)) crc

/-- A byte of a stream is never taken for its end. -/
theorem setWidth_ne (b : Byte) : (b.setWidth 32 : JInt) ≠ -1 := by
  intro h
  have hvalue := congrArg BitVec.toNat h
  have hlt : b.toNat < 2 ^ 8 := b.isLt
  rw [BitVec.toNat_setWidth, Nat.mod_eq_of_lt (by omega)] at hvalue
  change b.toNat = 4294967295 at hvalue
  omega

theorem drain_eq (crc : BitVec 32) (bytes : List Byte) : drain crc bytes = updates crc bytes := by
  induction bytes generalizing crc with
  | nil => rfl
  | cons b rest ih =>
    simp only [drain]
    rw [if_neg (setWidth_ne b)]
    exact ih _

/-- However the buffer is filled, it gives out the bytes of the file. -/
theorem drainBuffered_eq (transfer : Nat → Nat) (k : Nat) (crc : BitVec 32)
    (buf src : List Byte) : drainBuffered transfer k crc buf src = updates crc (buf ++ src) := by
  fun_induction drainBuffered transfer k crc buf src with
  | case1 k crc => rfl
  | case2 k crc b src n ih => rw [ih, List.take_append_drop, List.nil_append]
  | case3 k crc b buf src c hc => exact absurd hc (setWidth_ne b)
  | case4 k crc b buf src c hc ih => exact ih

/-- **The counting loop** reads the bytes from `p` to `length`, if both are no negative numbers. -/
theorem countUp_eq {w : Nat} {read : Nat → Except Throwable Byte} {bytes : List Byte}
    (hread : ∀ i b, bytes[i]? = some b → read i = .ok b) {length p : BitVec w} {crc : BitVec 32}
    (hlength : length.toNat = bytes.length) (hw : 2 * bytes.length < 2 ^ w)
    (hp : p.toNat ≤ bytes.length) :
    countUp read length p crc = .ok (updates crc (bytes.drop p.toNat)) := by
  have hlengthInt : length.toInt = length.toNat := BitVec.toInt_eq_toNat_of_lt (by omega)
  have hpInt : p.toInt = p.toNat := BitVec.toInt_eq_toNat_of_lt (by omega)
  fun_induction countUp read length p crc with
  | case1 p crc hlt b hb ih =>
    have hplt : p.toNat < bytes.length := by
      rw [BitVec.slt_iff_toInt_lt] at hlt
      omega
    have hpos : 0 < w := by
      by_contra hzero
      rw [Nat.eq_zero_of_not_pos hzero, Nat.pow_zero] at hw
      omega
    have hnext : (p + 1).toNat = p.toNat + 1 := by
      change (p + 1#w).toNat = p.toNat + 1
      rw [BitVec.toNat_add, BitVec.toNat_one hpos, Nat.mod_eq_of_lt (by omega)]
    have hbyte : b = bytes[p.toNat] := by
      have hb' := hread p.toNat _ (List.getElem?_eq_getElem hplt)
      rw [hb] at hb'
      exact Except.ok.inj hb'
    have hnextInt : (p + 1).toInt = (p + 1).toNat := BitVec.toInt_eq_toNat_of_lt (by omega)
    rw [ih (by omega) hnextInt, hnext, List.drop_eq_getElem_cons hplt, Crc32.update_signExtend,
      hbyte]
    rfl
  | case2 p crc hlt e he =>
    have hplt : p.toNat < bytes.length := by
      rw [BitVec.slt_iff_toInt_lt] at hlt
      omega
    rw [hread p.toNat _ (List.getElem?_eq_getElem hplt)] at he
    exact absurd he (by simp)
  | case3 p crc hge =>
    have hple : bytes.length ≤ p.toNat := by
      rw [BitVec.slt_iff_toInt_lt] at hge
      omega
    rw [List.drop_of_length_le hple]
    rfl

theorem countUp_zero {w : Nat} {read : Nat → Except Throwable Byte} {bytes : List Byte}
    (hread : ∀ i b, bytes[i]? = some b → read i = .ok b) {length : BitVec w}
    (hlength : length.toNat = bytes.length) (hw : 2 * bytes.length < 2 ^ w) :
    countUp read length 0 Crc32.new = .ok (crc bytes) := by
  have hzero : (0 : BitVec w).toNat = 0 := BitVec.toNat_zero
  rw [countUp_eq hread hlength hw (by rw [hzero]; exact Nat.zero_le _), hzero]
  rfl

theorem checksumInputStream_eq (file : List Byte) :
    checksumInputStream file = getValue (crc file) :=
  congrArg getValue (drain_eq _ file)

theorem checksumBufferedInputStream_eq (transfer : Nat → Nat) (file : List Byte) :
    checksumBufferedInputStream transfer file = getValue (crc file) :=
  congrArg getValue (drainBuffered_eq transfer 0 _ [] file)

/-- A `long` is wide enough for the length of a file. -/
theorem checksumRandomAccessInputStream_eq {file : List Byte} (h : file.length < 2 ^ 63) :
    checksumRandomAccessInputStream file = .ok (getValue (crc file)) := by
  have hread : ∀ i b, file[i]? = some b → readByte file i = .ok b := by
    intro i b hb
    rw [readByte, hb]
  have hlength : (BitVec.ofNat 64 file.length).toNat = file.length := by
    rw [BitVec.toNat_ofNat, Nat.mod_eq_of_lt (by omega)]
  rw [checksumRandomAccessInputStream, countUp_zero hread hlength (by omega)]
  rfl

/-- What `(int) channel.size()` is, seen as a number without sign. -/
theorem toNat_size (file : List Byte) :
    ((BitVec.ofNat 64 file.length).setWidth 32).toNat = file.length % 2 ^ 32 := by
  rw [BitVec.toNat_setWidth, BitVec.toNat_ofNat]
  omega

/-- A mapped file is read as far as 32 bits of its length tell. -/
theorem checksumMappedFile_eq {file : List Byte} (h : file.length % 2 ^ 32 < 2 ^ 31) :
    checksumMappedFile file = .ok (getValue (crc (file.take (file.length % 2 ^ 32)))) := by
  obtain ⟨size, hsize⟩ : ∃ size : JInt, size = (BitVec.ofNat 64 file.length).setWidth 32 :=
    ⟨_, rfl⟩
  have hnat : size.toNat = file.length % 2 ^ 32 := by rw [hsize, toNat_size]
  have hint : size.toInt = size.toNat := BitVec.toInt_eq_toNat_of_lt (by omega)
  have hlong : (size.signExtend 64).toInt = size.toNat := by
    rw [BitVec.toInt_signExtend_of_le (by omega), hint]
  have hlongNat : (size.signExtend 64).toNat = size.toNat := by
    rw [BitVec.toInt_eq_toNat_cond] at hlong
    split at hlong <;> omega
  have hmap : map file 0 (size.signExtend 64) = .ok (file.take (file.length % 2 ^ 32)) := by
    rw [map, if_pos (by omega), hlongNat, hnat]
    rfl
  have hread : ∀ i b, (file.take (file.length % 2 ^ 32))[i]? = some b →
      get (file.take (file.length % 2 ^ 32)) i = .ok b := by
    intro i b hb
    rw [get, hb]
  have hlength : (file.take (file.length % 2 ^ 32)).length = file.length % 2 ^ 32 := by
    rw [List.length_take, Nat.min_eq_left (Nat.mod_le _ _)]
  rw [checksumMappedFile, ← hsize]
  simp only [hmap]
  rw [countUp_zero hread (hnat.trans hlength.symm) (by omega)]
  rfl

/-- A length whose 32 bits are a negative `int`. -/
theorem checksumMappedFile_throws {file : List Byte} (h : 2 ^ 31 ≤ file.length % 2 ^ 32) :
    checksumMappedFile file = .error .illegalArgument := by
  obtain ⟨size, hsize⟩ : ∃ size : JInt, size = (BitVec.ofNat 64 file.length).setWidth 32 :=
    ⟨_, rfl⟩
  have hnat : size.toNat = file.length % 2 ^ 32 := by rw [hsize, toNat_size]
  have hlong : (size.signExtend 64).toInt < 0 := by
    rw [BitVec.toInt_signExtend_of_le (by omega), BitVec.toInt_eq_toNat_cond, if_neg (by omega)]
    omega
  have hmap : map file 0 (size.signExtend 64) = .error .illegalArgument := by
    rw [map, if_neg (by omega)]
  rw [checksumMappedFile, ← hsize]
  simp only [hmap]

/-! ## 3. When they agree -/

/-- The four functions return the same value. -/
def Agree (transfer : Nat → Nat) (file : List Byte) : Prop :=
  ∃ value, checksumInputStream file = value ∧ checksumBufferedInputStream transfer file = value ∧
    checksumRandomAccessInputStream file = .ok value ∧ checksumMappedFile file = .ok value

theorem getValue_inj {crc crc' : BitVec 32} : getValue crc = getValue crc' ↔ crc = crc' := by
  refine ⟨?_, congrArg getValue⟩
  intro h
  have hvalue := congrArg BitVec.toNat h
  have hlt : crc.toNat < 2 ^ 32 := crc.isLt
  have hlt' : crc'.toNat < 2 ^ 32 := crc'.isLt
  rw [getValue, getValue, BitVec.toNat_setWidth, BitVec.toNat_setWidth,
    Nat.mod_eq_of_lt (by omega), Nat.mod_eq_of_lt (by omega)] at hvalue
  exact BitVec.eq_of_toNat_eq hvalue

/-- They agree if the file is mapped without loss to its value. -/
theorem agree_iff {transfer : Nat → Nat} {file : List Byte} (h : file.length < 2 ^ 63) :
    Agree transfer file ↔ file.length % 2 ^ 32 < 2 ^ 31 ∧
      crc (file.take (file.length % 2 ^ 32)) = crc file := by
  have hagree : Agree transfer file ↔ checksumMappedFile file = .ok (getValue (crc file)) := by
    unfold Agree
    rw [checksumInputStream_eq, checksumBufferedInputStream_eq,
      checksumRandomAccessInputStream_eq h]
    constructor
    · rintro ⟨value, rfl, -, -, hmapped⟩
      exact hmapped
    · intro hmapped
      exact ⟨_, rfl, rfl, rfl, hmapped⟩
  rw [hagree]
  by_cases hsize : file.length % 2 ^ 32 < 2 ^ 31
  · rw [checksumMappedFile_eq hsize, Except.ok.injEq, getValue_inj]
    exact ⟨fun heq => ⟨hsize, heq⟩, And.right⟩
  · rw [checksumMappedFile_throws (Nat.le_of_not_lt hsize)]
    exact ⟨fun hthrows => absurd hthrows (by simp), fun hmapped => absurd hmapped.1 hsize⟩

/-- **The four checksums agree on all files of a length exactly if that is less than `2 ^ 31`.**  On
a single longer file they agree only if 32 bits of its length are no negative `int` and the beginning
of that length happens to have the value of the whole. -/
theorem checksums_agree_iff {length : Nat} (h : length < 2 ^ 63) :
    ((∀ transfer (file : List Byte), file.length = length → Agree transfer file) ↔
      length < 2 ^ 31) ∧
    ∀ transfer (file : List Byte), file.length = length →
      (Agree transfer file ↔
        length % 2 ^ 32 < 2 ^ 31 ∧ crc (file.take (length % 2 ^ 32)) = crc file) := by
  have hagree : ∀ transfer (file : List Byte), file.length = length →
      (Agree transfer file ↔
        length % 2 ^ 32 < 2 ^ 31 ∧ crc (file.take (length % 2 ^ 32)) = crc file) := by
    rintro transfer file rfl
    exact agree_iff h
  refine ⟨⟨?_, ?_⟩, hagree⟩
  · intro hall
    by_contra hlong
    -- two files that differ in the last byte, which is not mapped
    obtain ⟨bytes, hbytes⟩ : ∃ bytes : List Byte, bytes.length + 1 = length :=
      ⟨List.replicate (length - 1) 0, by rw [List.length_replicate]; omega⟩
    have hvalue : ∀ b : Byte, length % 2 ^ 32 < 2 ^ 31 ∧
        crc (bytes.take (length % 2 ^ 32)) = crc (bytes ++ [b]) := by
      intro b
      have hlength : (bytes ++ [b]).length = length := by
        rw [List.length_append, List.length_singleton, hbytes]
      obtain ⟨hsize, heq⟩ := (hagree id _ hlength).mp (hall id _ hlength)
      rw [List.take_append_of_le_length (by omega)] at heq
      exact ⟨hsize, heq⟩
    have hsame : crc (bytes ++ [0]) = crc (bytes ++ [1]) := (hvalue 0).2.symm.trans (hvalue 1).2
    exact absurd (Crc32.crc_concat_inj.mp hsame) (by decide)
  · intro hshort transfer file hfile
    have hmod : length % 2 ^ 32 = length := Nat.mod_eq_of_lt (by omega)
    refine (hagree transfer file hfile).mpr ⟨by omega, ?_⟩
    rw [hmod, ← hfile, List.take_length]

/-- `checksums_agree_iff` for the files of three bytes. -/
theorem checksums_agree_iff_three :
    ∃ value, checksumInputStream [1, 0x80, 0xFF] = value ∧
      checksumBufferedInputStream (fun _ => 2) [1, 0x80, 0xFF] = value ∧
      checksumRandomAccessInputStream [1, 0x80, 0xFF] = .ok value ∧
      checksumMappedFile [1, 0x80, 0xFF] = .ok value :=
  (checksums_agree_iff (show 3 < 2 ^ 63 by decide)).1.mpr (by decide) (fun _ => 2) _ rfl

/-- A file of `2 ^ 31` bytes cannot be mapped: its length is a negative `int`. -/
theorem large_file_throws :
    ¬∀ (transfer : Nat → Nat) (file : List Byte), file.length < 2 ^ 63 → Agree transfer file := by
  intro h
  have hlength : (List.replicate (2 ^ 31) (0 : Byte)).length = 2 ^ 31 := List.length_replicate
  obtain ⟨value, -, -, -, hmapped⟩ :=
    h id (List.replicate (2 ^ 31) 0) (by rw [hlength]; decide)
  have hlarge : 2 ^ 31 ≤ (List.replicate (2 ^ 31) (0 : Byte)).length % 2 ^ 32 := by
    have hsmall : 2 ^ 31 ≤ 2 ^ 31 % 2 ^ 32 := by decide
    exact Nat.le_trans hsmall (Nat.le_of_eq (by rw [hlength]))
  rw [checksumMappedFile_throws hlarge] at hmapped
  exact absurd hmapped (by simp)

end NIOTest
end JavaStudy
