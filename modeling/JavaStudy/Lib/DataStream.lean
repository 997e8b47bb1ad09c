/-
# `java.io` streams of bytes: `read`, `readChar` and push-back

A stream is known by what is left of it: `read` gives the next byte as an `int` from 0 to 255, or
-1, and `available` counts what is left.  These laws are fields, so every stream that wraps another
one (`pushback`) has to prove them, and every loop over a stream may use them.

`readChar` puts two bytes together, `writeChar` takes a `char` apart; `writeChar_char` says that
they fit, for all bytes.  The end of the stream in the middle of a `char` is an `EOFException`.
-/
import JavaStudy.Lib.ByteBuffer
import JavaStudy.Lib.JavaText

namespace JavaStudy
namespace DataStream

open JavaText (JChar JInt)

inductive IOException where
  | eof
  /-- "Push back buffer is full". -/
  | pushbackFull
  deriving DecidableEq

/-! ## 1. Streams -/

structure InputStream where
  State : Type
  read : State → JInt × State
  available : State → Nat
  /-- The bytes that are left. -/
  left : State → List Byte
  available_eq : ∀ s, available s = (left s).length
  read_nil : ∀ s, left s = [] → read s = (-1, s)
  read_cons : ∀ s b rest, left s = b :: rest → ∃ s', read s = (b.setWidth 32, s') ∧ left s' = rest

/-- A file that is read from some position on. -/
def file : InputStream where
  State := List Byte
  read
    | [] => (-1, [])
    | b :: rest => (b.setWidth 32, rest)
  available := List.length
  left := id
  available_eq _ := rfl
  read_nil s h := by
    obtain rfl : s = [] := h
    rfl
  read_cons s b rest h := by
    obtain rfl : s = b :: rest := h
    exact ⟨rest, rfl, rfl⟩

variable (S : InputStream)

/-- `DataInputStream.readChar`. -/
def readChar (s : S.State) : Except IOException JChar × S.State :=
  let (ch1, s) := S.read s
  let (ch2, s) := S.read s
  if (ch1 ||| ch2).slt 0 then (.error .eof, s)
  else (.ok (((ch1 <<< 8) + (ch2 <<< 0)).setWidth 16), s)

/-- `DataInputStream.readByte`. -/
def readByte (s : S.State) : Except IOException Byte × S.State :=
  let (ch, s) := S.read s
  if ch.slt 0 then (.error .eof, s) else (.ok (ch.setWidth 8), s)

/-- What `DataOutputStream.writeChar` writes. -/
def writeChar (v : JInt) : List Byte := [(v >>> 8).setWidth 8, (v >>> 0).setWidth 8]

/-- What `DataOutputStream.writeByte` writes. -/
def writeByte (v : JInt) : List Byte := [v.setWidth 8]

/-! ## 2. Bytes and `char`s -/

/-- The `char` of two bytes. -/
def char (b c : Byte) : JChar := (((b.setWidth 32 : JInt) <<< 8) + (c.setWidth 32 <<< 0)).setWidth 16

/-- **A `char` that was put together is taken apart into its two bytes.** -/
theorem writeChar_char (b c : Byte) : writeChar ((char b c).setWidth 32) = [b, c] := by
  have hb := b.isLt
  have hc := c.isLt
  simp only [writeChar, char, List.cons.injEq, and_true]
  constructor
  · apply BitVec.eq_of_toNat_eq
    simp only [BitVec.toNat_setWidth, BitVec.toNat_ushiftRight, BitVec.toNat_add,
      BitVec.toNat_shiftLeft, Nat.shiftLeft_eq, Nat.shiftRight_eq_div_pow]
    omega
  · apply BitVec.eq_of_toNat_eq
    simp only [BitVec.toNat_setWidth, BitVec.toNat_ushiftRight, BitVec.toNat_add,
      BitVec.toNat_shiftLeft, Nat.shiftLeft_eq, Nat.shiftRight_eq_div_pow]
    omega

theorem writeByte_signExtend (b : Byte) : writeByte (b.signExtend 32) = [b] := by
  have hlow : (b.signExtend 32).setWidth 8 = b := by
    ext i hi
    rw [BitVec.getElem_setWidth, BitVec.getLsbD_signExtend]
    simp [show i < 32 by omega, hi]
  rw [writeByte, hlow]

/-- A byte that was read is not negative. -/
theorem slt_zero_setWidth (b : Byte) : (b.setWidth 32 : JInt).slt 0 = false := by
  refine BitVec.slt_zero_eq_msb.trans ?_
  rw [BitVec.msb_setWidth]
  simp

theorem or_slt_zero (b c : Byte) : ((b.setWidth 32 : JInt) ||| c.setWidth 32).slt 0 = false := by
  rw [← BitVec.setWidth_or]
  exact slt_zero_setWidth (b ||| c)

theorem or_neg_one_slt_zero (v : JInt) : (v ||| -1).slt 0 = true := by
  refine BitVec.slt_zero_eq_msb.trans ?_
  rw [BitVec.msb_or, show (-1 : JInt).msb = true by decide, Bool.or_true]

/-! ## 3. Reading -/

variable {S}

theorem left_eq_nil {s : S.State} (h : ¬0 < S.available s) : S.left s = [] := by
  rw [S.available_eq] at h
  exact List.length_eq_zero_iff.mp (by omega)

/-- A read from a stream that is not at its end gives the next byte. -/
theorem read_ok {s s' : S.State} {v : JInt} (havailable : 0 < S.available s)
    (h : S.read s = (v, s')) : ∃ b : Byte, S.left s = b :: S.left s' ∧ v = b.setWidth 32 := by
  rw [S.available_eq] at havailable
  cases hleft : S.left s with
  | nil => exact absurd havailable (by simp [hleft])
  | cons b rest =>
    obtain ⟨_, hs', hrest⟩ := S.read_cons s b rest hleft
    obtain ⟨hv, rfl⟩ := Prod.mk.inj (h.symm.trans hs')
    exact ⟨b, by rw [hrest], hv⟩

theorem readChar_two {s : S.State} {b c : Byte} {rest : List Byte} (h : S.left s = b :: c :: rest) :
    ∃ s', readChar S s = (.ok (char b c), s') ∧ S.left s' = rest := by
  obtain ⟨s₁, h₁, hleft₁⟩ := S.read_cons s b (c :: rest) h
  obtain ⟨s₂, h₂, hleft₂⟩ := S.read_cons s₁ c rest hleft₁
  refine ⟨s₂, ?_, hleft₂⟩
  simp only [readChar, h₁, h₂, or_slt_zero, if_neg Bool.false_ne_true]
  rfl

/-- Inside a `char` the stream may not end. -/
theorem readChar_one {s : S.State} {b : Byte} (h : S.left s = [b]) :
    ∃ s', readChar S s = (.error .eof, s') ∧ S.left s' = [] := by
  obtain ⟨s₁, h₁, hleft₁⟩ := S.read_cons s b [] h
  refine ⟨s₁, ?_, hleft₁⟩
  simp only [readChar, h₁, S.read_nil s₁ hleft₁, or_neg_one_slt_zero, if_true]

theorem readByte_cons {s : S.State} {b : Byte} {rest : List Byte} (h : S.left s = b :: rest) :
    ∃ s', readByte S s = (.ok b, s') ∧ S.left s' = rest := by
  obtain ⟨s', hs', hleft⟩ := S.read_cons s b rest h
  refine ⟨s', ?_, hleft⟩
  simp only [readByte, hs', slt_zero_setWidth, if_neg Bool.false_ne_true]
  rw [BitVec.setWidth_setWidth_of_le b (by decide), BitVec.setWidth_eq]

/-- A `char` is two bytes that were left. -/
theorem readChar_ok {s s' : S.State} {v : JChar} (h : readChar S s = (.ok v, s')) :
    ∃ b c, S.left s = b :: c :: S.left s' ∧ v = char b c := by
  cases hleft : S.left s with
  | nil =>
    simp only [readChar, S.read_nil s hleft, or_neg_one_slt_zero, if_true] at h
    exact absurd h (by simp)
  | cons b rest =>
    cases rest with
    | nil =>
      obtain ⟨_, hs', -⟩ := readChar_one hleft
      exact absurd (h.symm.trans hs') (by simp)
    | cons c rest =>
      obtain ⟨_, hs', hrest⟩ := readChar_two hleft
      obtain ⟨hv, rfl⟩ := Prod.mk.inj (h.symm.trans hs')
      exact ⟨b, c, by rw [hrest], Except.ok.inj hv⟩

theorem readByte_ok {s s' : S.State} {v : Byte} (h : readByte S s = (.ok v, s')) :
    S.left s = v :: S.left s' := by
  cases hleft : S.left s with
  | nil =>
    have hneg : (-1 : JInt).slt 0 = true := by decide
    simp only [readByte, S.read_nil s hleft, hneg, if_true] at h
    exact absurd h (by simp)
  | cons b rest =>
    obtain ⟨_, hs', hrest⟩ := readByte_cons hleft
    obtain ⟨hv, rfl⟩ := Prod.mk.inj (h.symm.trans hs')
    rw [hrest, Except.ok.inj hv]

/-! ## 4. Push-back -/

variable (S)

/-- `PushbackInputStream` with a buffer for one byte. -/
def pushback : InputStream where
  State := Option Byte × S.State
  read
    | (some b, s) => (b.setWidth 32, none, s)
    | (none, s) => ((S.read s).1, none, (S.read s).2)
  available p := p.1.toList.length + S.available p.2
  left p := p.1.toList ++ S.left p.2
  available_eq p := by rw [S.available_eq, List.length_append]
  read_nil p h := by
    rcases p with ⟨_ | b, s⟩
    · dsimp only
      rw [S.read_nil s h]
    · exact absurd h (by simp)
  read_cons p b rest h := by
    rcases p with ⟨_ | c, s⟩
    · obtain ⟨s', hs', hleft⟩ := S.read_cons s b rest h
      exact ⟨(none, s'), by dsimp only; rw [hs'], hleft⟩
    · obtain ⟨rfl, hrest⟩ := List.cons.inj h
      exact ⟨(none, s), rfl, hrest⟩

/-- `unread(b)`. -/
def unread (p : (pushback S).State) (b : JInt) : Except IOException (pushback S).State :=
  match p with
  | (some _, _) => .error .pushbackFull
  | (none, s) => .ok (some (b.setWidth 8), s)

variable {S}

/-- After a `read` there is room to push back. -/
theorem read_pushback {p p' : (pushback S).State} {v : JInt} (h : (pushback S).read p = (v, p')) :
    p'.1 = none := by
  rcases p with ⟨_ | b, s⟩
  · rw [← (Prod.mk.inj h).2]
  · rw [← (Prod.mk.inj h).2]

/-- **What was read can be pushed back.** -/
theorem unread_read {p p' : (pushback S).State} {b : Byte}
    (h : (pushback S).read p = (b.setWidth 32, p')) :
    ∃ p'', unread S p' (b.setWidth 32) = .ok p'' ∧
      (pushback S).left p'' = b :: (pushback S).left p' := by
  have hroom := read_pushback h
  obtain ⟨pushed, s⟩ := p'
  obtain rfl : pushed = none := hroom
  refine ⟨_, rfl, ?_⟩
  rw [BitVec.setWidth_setWidth_of_le b (by decide), BitVec.setWidth_eq]
  rfl

end DataStream
end JavaStudy
