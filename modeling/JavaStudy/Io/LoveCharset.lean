/-
# `LoveCharset`: a string as the bytes of a character set, and back

`switchUnicodeToCharset` returns the array behind the buffer that `Charset.encode` filled, and does
not look at the buffer's limit.  The JDK allocates that array by a guess from the length of the
string, so it may be longer than the encoding, and the bytes behind the limit are zero.  Nothing of
this is in the repository: the character set is a parameter, and `DocumentedUtf8` is what is
assumed of it.  The way back then decodes the zeros as well (`switch_switch`).
-/
import JavaStudy.Lib.Utf8

namespace JavaStudy

open JavaText

namespace LoveCharset

inductive CharsetException where
  | illegalCharsetName
  | unsupportedCharset
  | illegalArgument
  | nullPointer
  deriving DecidableEq

/-- `java.nio.charset.Charset`: `decode` is given the bytes between position and limit. -/
structure Charset where
  canEncode : Bool
  encode : JString → ByteBuffer
  decode : List Byte → JString

/-- `Charset.forName`; `none` is `null`, as the argument and as the result. -/
abbrev ForName := Option JString → Except CharsetException (Option Charset)

section
variable (forName : ForName)

def switchUnicodeToCharset (unicodeStr charsetName : Option JString) :
    Except CharsetException (Option (List Byte)) :=
  match forName charsetName with
  | .error e => .error e
  | .ok none => .ok none
  | .ok (some cset) =>
    if cset.canEncode then
      match unicodeStr with
      | none => .error .nullPointer
      | some s => .ok (some (cset.encode s).array)
    else .ok none

def switchCharsetToUnicode (bytes : Option (List Byte)) (charsetName : Option JString) :
    Except CharsetException (Option JString) :=
  match forName charsetName with
  | .error e => .error e
  | .ok none => .ok none
  | .ok (some cset) =>
    if cset.canEncode then
      match bytes with
      | none => .error .nullPointer
      | some bytes => .ok (some (cset.decode (ByteBuffer.wrap bytes).content))
    else .ok none

/-- `switchCharsetToUnicode(switchUnicodeToCharset(s, name), name)`. -/
def switchBack (s charsetName : Option JString) : Except CharsetException (Option JString) :=
  match switchUnicodeToCharset forName s charsetName with
  | .error e => .error e
  | .ok bytes => switchCharsetToUnicode forName bytes charsetName

end

def utf8Name : JString := ['U', 'T', 'F', '-', '8'].map unit

/-- What the JDK documents of its UTF-8 character set: the bytes up to the limit are the encoding,
the array may go on with zeros, and a well-formed encoding is decoded as a whole. -/
structure DocumentedUtf8 (cset : Charset) : Prop where
  canEncode : cset.canEncode = true
  encoded : ∀ text, (cset.encode (Utf8.units text)).array.take
    (cset.encode (Utf8.units text)).limit = Utf8.encode text
  zeros : ∀ text, ∀ b ∈ (cset.encode (Utf8.units text)).array.drop
    (cset.encode (Utf8.units text)).limit, b = 0
  decoded : ∀ text, cset.decode (Utf8.encode text) = Utf8.units text

/-- How many bytes stand behind the limit of the buffer in which a string is encoded. -/
def Charset.surplus (cset : Charset) (s : JString) : Nat :=
  (cset.encode s).capacity - (cset.encode s).limit

/-- Zero bytes are the encoding of as many NUL characters. -/
theorem encode_append_zeros (text : List Char) (n : Nat) :
    Utf8.encode text ++ List.replicate n 0 =
      Utf8.encode (text ++ List.replicate n (Char.ofNat 0)) := by
  have hzeros : Utf8.encode (List.replicate n (Char.ofNat 0)) = List.replicate n 0 := by
    induction n with
    | zero => rfl
    | succ n ih =>
      rw [List.replicate_succ, Utf8.encode_cons, ih, List.replicate_succ]
      rfl
  rw [← hzeros, Utf8.encode, Utf8.encode, Utf8.encode, List.flatMap_append]

theorem units_zeros (n : Nat) :
    Utf8.units (List.replicate n (Char.ofNat 0)) = List.replicate n 0 := by
  induction n with
  | zero => rfl
  | succ n ih =>
    rw [List.replicate_succ, Utf8.units_cons, ih, List.replicate_succ]
    rfl

/-- The array is the encoding and the surplus. -/
theorem array_encode {cset : Charset} (h : DocumentedUtf8 cset) (text : List Char) :
    (cset.encode (Utf8.units text)).array =
      Utf8.encode text ++ List.replicate (cset.surplus (Utf8.units text)) 0 := by
  have hdrop : (cset.encode (Utf8.units text)).array.drop (cset.encode (Utf8.units text)).limit =
      List.replicate (cset.surplus (Utf8.units text)) 0 := by
    rw [List.eq_replicate_iff]
    exact ⟨List.length_drop, h.zeros text⟩
  rw [← h.encoded text, ← hdrop, List.take_append_drop]

/-- **What comes back is the string, and a NUL for every byte of the surplus.** -/
theorem switch_switch {forName : ForName} {cset : Charset}
    (hname : forName (some utf8Name) = .ok (some cset)) (h : DocumentedUtf8 cset) {s : JString}
    (hs : Utf8.paired s = true) :
    switchBack forName (some s) (some utf8Name) =
      .ok (some (s ++ List.replicate (cset.surplus s) 0)) := by
  obtain ⟨text, rfl⟩ : ∃ text, s = Utf8.units text := ⟨Utf8.chars s, (Utf8.units_chars hs).symm⟩
  simp only [switchBack, switchUnicodeToCharset, switchCharsetToUnicode, hname, h.canEncode,
    if_true, ByteBuffer.content_wrap]
  rw [array_encode h, encode_append_zeros, h.decoded, Utf8.units_append, units_zeros]

/-- **The string comes back exactly if the JDK allocated no more than its encoding needs.** -/
theorem switch_switch_iff {forName : ForName} {cset : Charset}
    (hname : forName (some utf8Name) = .ok (some cset)) (h : DocumentedUtf8 cset) {s : JString}
    (hs : Utf8.paired s = true) :
    switchBack forName (some s) (some utf8Name) = .ok (some s) ↔ cset.surplus s = 0 := by
  rw [switch_switch hname h hs]
  constructor
  · intro heq
    have hlength := congrArg List.length (Option.some.inj (Except.ok.inj heq))
    rw [List.length_append, List.length_replicate] at hlength
    omega
  · intro hzero
    rw [hzero, List.replicate_zero, List.append_nil]

/-! ## The JDK's guess

`CharsetEncoder.encode` allocates 1.1 bytes for a code unit, and where that is not enough, twice as
many and one more, until it is. -/

/-- The number of bytes allocated, from the guess `n`; `fuel` bounds the growth. -/
def grow (needed : Nat) : Nat → Nat → Nat
  | 0, n => max needed n
  | fuel + 1, n => if needed ≤ n then n else grow needed fuel (2 * n + 1)

/-- The guess is 1.1 bytes for a unit.  The JDK multiplies by the `float`, which rounds to another
number on very long strings. -/
def jdkCapacity (s : JString) : Nat :=
  grow (Utf8.encode (Utf8.chars s)).length (Utf8.encode (Utf8.chars s)).length (11 * s.length / 10)

/-- UTF-8 as the JDK has it, on texts that are not very long and on the bytes of a text: where the
real decoder replaces malformed bytes, this one has nothing. -/
def jdkUtf8 : Charset where
  canEncode := true
  encode s :=
    { array := Utf8.encode (Utf8.chars s) ++
        List.replicate (jdkCapacity s - (Utf8.encode (Utf8.chars s)).length) 0
      position := 0
      limit := (Utf8.encode (Utf8.chars s)).length
      position_le := Nat.zero_le _
      limit_le := by simp }
  decode bytes := (Utf8.decode bytes).getD []

def jdkForName : ForName
  | none => .error .illegalArgument
  | some name => if name = utf8Name then .ok (some jdkUtf8) else .error .unsupportedCharset

theorem jdkForName_utf8 : jdkForName (some utf8Name) = .ok (some jdkUtf8) := rfl

theorem documented_jdkUtf8 : DocumentedUtf8 jdkUtf8 where
  canEncode := rfl
  encoded text := by
    simp only [jdkUtf8, Utf8.chars_units]
    exact List.take_left ..
  zeros text b hb := by
    simp only [jdkUtf8, Utf8.chars_units, List.drop_left] at hb
    exact List.eq_of_mem_replicate hb
  decoded text := by
    simp only [jdkUtf8, Utf8.decode_encode, Option.getD_some]

/-- Nine letters take the nine bytes that are allocated. -/
theorem switch_switch_iff_nine :
    switchBack jdkForName (some (['a', 'b', 'c', 'd', 'e', 'f', 'g', 'h', 'i'].map unit))
        (some utf8Name) =
      .ok (some (['a', 'b', 'c', 'd', 'e', 'f', 'g', 'h', 'i'].map unit)) :=
  (switch_switch_iff jdkForName_utf8 documented_jdkUtf8 (by decide)).mpr (by decide)

/-- **For ten letters eleven bytes are allocated, and the last one comes back as a NUL.** -/
theorem switch_switch_ten :
    Utf8.paired (['a', 'b', 'c', 'd', 'e', 'f', 'g', 'h', 'i', 'j'].map unit) = true ∧
    jdkForName (some utf8Name) = .ok (some jdkUtf8) ∧ DocumentedUtf8 jdkUtf8 ∧
    switchBack jdkForName (some (['a', 'b', 'c', 'd', 'e', 'f', 'g', 'h', 'i', 'j'].map unit))
        (some utf8Name) =
      .ok (some (['a', 'b', 'c', 'd', 'e', 'f', 'g', 'h', 'i', 'j'].map unit ++ [0])) ∧
    ¬ ∀ (forName : ForName) (cset : Charset), forName (some utf8Name) = .ok (some cset) →
      DocumentedUtf8 cset → ∀ s, Utf8.paired s = true →
        switchBack forName (some s) (some utf8Name) = .ok (some s) := by
  have hpaired : Utf8.paired (['a', 'b', 'c', 'd', 'e', 'f', 'g', 'h', 'i', 'j'].map unit) = true := by
    decide
  have hback : switchBack jdkForName
      (some (['a', 'b', 'c', 'd', 'e', 'f', 'g', 'h', 'i', 'j'].map unit)) (some utf8Name) =
      .ok (some (['a', 'b', 'c', 'd', 'e', 'f', 'g', 'h', 'i', 'j'].map unit ++ [0])) :=
    switch_switch jdkForName_utf8 documented_jdkUtf8 hpaired
  refine ⟨hpaired, jdkForName_utf8, documented_jdkUtf8, hback, ?_⟩
  intro hall
  have hsame := hall jdkForName jdkUtf8 jdkForName_utf8 documented_jdkUtf8 _ hpaired
  rw [hback] at hsame
  exact absurd (Option.some.inj (Except.ok.inj hsame)) (by decide)

end LoveCharset
end JavaStudy
