/-
# `LoveInputStream`: three ways to copy a file

`testFileInputStream` copies in chunks of up to 512 bytes, `testDataInputStream` `char` by `char`,
and `testPushbackInputStream` looks for the first '1' and copies from there, `char` by `char` too,
but a single byte at the end as a byte.  That last case is what `testDataInputStream` lacks: a file
of odd length ends in the middle of a `char`, and it throws.

Each method is a function from the content of the input file to its result and the content of the
output file, which is new or was cut to length 0.  What the methods print is left out.
-/
import JavaStudy.Lib.DataStream

namespace JavaStudy
namespace LoveInputStream

open DataStream
open JavaText (JInt)

/-! ## 1. `testFileInputStream` -/

def BUFFER_SIZE : Nat := 512

/-- The loop; the read number `k` gets `transfer k` bytes, as far as there are and there is room,
and at least one. -/
def copyChunks (transfer : Nat → Nat) (k : Nat) (bytes : List Byte) (left out : List Byte) :
    List Byte :=
  if 0 < left.length then
    let i := max 1 (min (transfer k) (min BUFFER_SIZE left.length))
    let bytes := left.take i ++ bytes.drop i
    copyChunks transfer (k + 1) bytes (left.drop i) (out ++ bytes.take i)
  else out
termination_by left.length
decreasing_by
  rw [List.length_drop]
  omega

def testFileInputStream (transfer : Nat → Nat) (input : List Byte) :
    Except IOException Unit × List Byte :=
  (.ok (), copyChunks transfer 0 (List.replicate BUFFER_SIZE 0) input [])

theorem copyChunks_eq (transfer : Nat → Nat) (k : Nat) (bytes left out : List Byte) :
    copyChunks transfer k bytes left out = out ++ left := by
  fun_induction copyChunks transfer k bytes left out with
  | case1 k bytes left out hleft i bytes' ih =>
    have hi : i ≤ left.length := by omega
    have hwritten : bytes'.take i = left.take i := by
      have hlength : (left.take i).length = i := by rw [List.length_take, Nat.min_eq_left hi]
      rw [List.take_left' hlength]
    rw [ih, hwritten, List.append_assoc, List.take_append_drop]
  | case2 k bytes left out hleft =>
    have hnil : left = [] := List.length_eq_zero_iff.mp (by omega)
    rw [hnil, List.append_nil]

/-- **The copy in chunks is exact**, whatever the sizes of the chunks. -/
theorem testFileInputStream_eq (transfer : Nat → Nat) (input : List Byte) :
    testFileInputStream transfer input = (.ok (), input) := by
  rw [testFileInputStream, copyChunks_eq, List.nil_append]

/-! ## 2. `testDataInputStream` -/

section
variable {S : InputStream}

/-- `while(available() > 0) writeChar(readChar())`. -/
def copyChars (s : S.State) (out : List Byte) : Except IOException Unit × List Byte :=
  if 0 < S.available s then
    match _h : readChar S s with
    | (.ok c, s') => copyChars s' (out ++ writeChar (c.setWidth 32))
    | (.error e, _) => (.error e, out)
  else (.ok (), out)
termination_by (S.left s).length
decreasing_by
  obtain ⟨b, d, hleft, -⟩ := readChar_ok _h
  rw [hleft, List.length_cons, List.length_cons]
  omega

end

/-- The output is flushed when it is closed, also after an exception. -/
def testDataInputStream (input : List Byte) : Except IOException Unit × List Byte :=
  copyChars (S := file) input []

/-- **The copy in `char`s**: of an odd number of bytes the last one is not copied, and it throws. -/
theorem copyChars_eq {S : InputStream} (s : S.State) (out : List Byte) :
    copyChars s out =
      if (S.left s).length % 2 = 0 then (.ok (), out ++ S.left s)
      else (.error .eof, out ++ (S.left s).dropLast) := by
  fun_induction copyChars s out with
  | case1 s out havailable c s' h ih =>
    obtain ⟨b, d, hleft, rfl⟩ := readChar_ok h
    have hparity : (S.left s).length % 2 = (S.left s').length % 2 := by
      rw [hleft, List.length_cons, List.length_cons]
      omega
    rw [ih, writeChar_char, hparity, hleft]
    by_cases heven : (S.left s').length % 2 = 0
    · rw [if_pos heven, if_pos heven, List.append_assoc]
      rfl
    · have hne : S.left s' ≠ [] := by
        intro hnil
        rw [hnil] at heven
        exact heven rfl
      rw [if_neg heven, if_neg heven, List.append_assoc, List.dropLast_cons_of_ne_nil (by simp),
        List.dropLast_cons_of_ne_nil hne]
      rfl
  | case2 s out havailable e s' h =>
    rw [S.available_eq] at havailable
    cases hleft : S.left s with
    | nil => exact absurd havailable (by simp [hleft])
    | cons b rest =>
      cases rest with
      | nil =>
        obtain ⟨_, hread, -⟩ := readChar_one hleft
        obtain ⟨he, -⟩ := Prod.mk.inj (h.symm.trans hread)
        obtain rfl : e = .eof := Except.error.inj he
        simp
      | cons d rest =>
        obtain ⟨_, hread, -⟩ := readChar_two hleft
        exact absurd (h.symm.trans hread) (by simp)
  | case3 s out havailable =>
    rw [left_eq_nil havailable]
    simp

/-- **The copies agree exactly for a file of even length.** -/
theorem copies_eq_iff (transfer : Nat → Nat) (input : List Byte) :
    testFileInputStream transfer input = (.ok (), input) ∧
        testDataInputStream input = (.ok (), input) ↔
      input.length % 2 = 0 := by
  have hdata : testDataInputStream input = if input.length % 2 = 0 then (.ok (), [] ++ input)
      else (.error .eof, [] ++ input.dropLast) := copyChars_eq (S := file) input []
  rw [hdata, testFileInputStream_eq]
  by_cases heven : input.length % 2 = 0
  · simp [heven]
  · simp [heven]

/-- **Of a file of three bytes two are copied, and then there is an `EOFException`.** -/
theorem testDataInputStream_three :
    testFileInputStream (fun _ => 512) [0x61, 0x62, 0x63] = (.ok (), [0x61, 0x62, 0x63]) ∧
      testDataInputStream [0x61, 0x62, 0x63] = (.error .eof, [0x61, 0x62]) := by
  refine ⟨testFileInputStream_eq _ _, ?_⟩
  exact copyChars_eq (S := file) [0x61, 0x62, 0x63] []

/-! ## 3. `testPushbackInputStream` -/

section
variable {S : InputStream}

/-- The first loop: read up to the first '1', and push it back. -/
def scan (s : (pushback S).State) : Except IOException (pushback S).State :=
  if 0 < (pushback S).available s then
    match _h : (pushback S).read s with
    | (content, s') => if content = 0x31 then unread S s' content else scan s'
  else .ok s
termination_by ((pushback S).left s).length
decreasing_by
  rename_i havailable _
  obtain ⟨b, hleft, -⟩ := read_ok havailable _h
  rw [hleft]
  exact Nat.lt_succ_self _

/-- The second loop: a `char` as long as there are two bytes, else a byte. -/
def copyRest (s : S.State) (out : List Byte) : Except IOException Unit × List Byte :=
  if 0 < S.available s then
    if 1 < S.available s then
      match _h : readChar S s with
      | (.ok readChar, s') => copyRest s' (out ++ writeChar (readChar.setWidth 32))
      | (.error e, _) => (.error e, out)
    else
      match _h : readByte S s with
      | (.ok readChar, s') => copyRest s' (out ++ writeByte (readChar.signExtend 32))
      | (.error e, _) => (.error e, out)
  else (.ok (), out)
termination_by (S.left s).length
decreasing_by
  · obtain ⟨b, d, hleft, -⟩ := readChar_ok _h
    rw [hleft, List.length_cons, List.length_cons]
    omega
  · have hleft := readByte_ok _h
    simp [hleft]

end

def testPushbackInputStream (input : List Byte) : Except IOException Unit × List Byte :=
  match scan (S := file) (none, input) with
  | .error e => (.error e, [])
  | .ok s => copyRest (S := pushback file) s []

/-- The bytes from the first '1' on. -/
def fromOne (input : List Byte) : List Byte := input.dropWhile (· != 0x31)

theorem setWidth_eq_one_iff (b : Byte) : (b.setWidth 32 : JInt) = 0x31 ↔ b = 0x31 := by
  constructor
  · intro h
    apply BitVec.eq_of_toNat_eq
    have hnat := congrArg BitVec.toNat h
    rwa [BitVec.toNat_setWidth_of_le (by decide)] at hnat
  · rintro rfl
    rfl

/-- **The first loop stops in front of the first '1'**, or at the end if there is none. -/
theorem scan_eq {S : InputStream} (s : (pushback S).State) :
    ∃ s', scan s = .ok s' ∧ (pushback S).left s' = fromOne ((pushback S).left s) := by
  fun_induction scan s with
  | case1 s havailable s' h =>
    obtain ⟨b, hleft, hb⟩ := read_ok havailable h
    obtain rfl : b = 0x31 := (setWidth_eq_one_iff b).mp hb.symm
    obtain ⟨t, ht, htleft⟩ := unread_read (b := 0x31) h
    exact ⟨t, ht, by rw [htleft, hleft]; rfl⟩
  | case2 s havailable content s' h hcontent ih =>
    obtain ⟨b, hleft, rfl⟩ := read_ok havailable h
    have hb : b ≠ 0x31 := fun hb => hcontent ((setWidth_eq_one_iff b).mpr hb)
    rwa [hleft, fromOne, List.dropWhile_cons_of_pos (by simpa using hb)]
  | case3 s havailable =>
    exact ⟨s, rfl, by rw [left_eq_nil havailable]; rfl⟩

/-- **The second loop copies what is left**, whatever its length. -/
theorem copyRest_eq {S : InputStream} (s : S.State) (out : List Byte) :
    copyRest s out = (.ok (), out ++ S.left s) := by
  fun_induction copyRest s out with
  | case1 s out havailable htwo c s' h ih =>
    obtain ⟨b, d, hleft, rfl⟩ := readChar_ok h
    rw [ih, writeChar_char, hleft, List.append_assoc]
    rfl
  | case2 s out havailable htwo e s' h =>
    rw [S.available_eq] at htwo
    obtain ⟨b, d, rest, hleft⟩ : ∃ b d rest, S.left s = b :: d :: rest := by
      match hleft : S.left s with
      | [] => exact absurd htwo (by simp [hleft])
      | [_] => exact absurd htwo (by simp [hleft])
      | b :: d :: rest => exact ⟨b, d, rest, rfl⟩
    obtain ⟨_, hread, -⟩ := readChar_two hleft
    exact absurd (h.symm.trans hread) (by simp)
  | case3 s out havailable htwo c s' h ih =>
    rw [ih, writeByte_signExtend, readByte_ok h, List.append_assoc]
    rfl
  | case4 s out havailable htwo e s' h =>
    rw [S.available_eq] at havailable htwo
    obtain ⟨b, hleft⟩ := List.length_eq_one_iff.mp (by omega : (S.left s).length = 1)
    obtain ⟨_, hread, -⟩ := readByte_cons hleft
    exact absurd (h.symm.trans hread) (by simp)
  | case5 s out havailable => rw [left_eq_nil havailable, List.append_nil]

/-- **`testPushbackInputStream` copies the file from its first '1' on.** -/
theorem testPushbackInputStream_eq (input : List Byte) :
    testPushbackInputStream input = (.ok (), input.dropWhile (· != 0x31)) := by
  obtain ⟨s, hs, hleft⟩ := scan_eq (S := file) (none, input)
  simp only [testPushbackInputStream, hs]
  rw [copyRest_eq, hleft]
  rfl

end LoveInputStream
end JavaStudy
