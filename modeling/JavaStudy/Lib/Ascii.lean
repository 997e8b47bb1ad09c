/-
# US-ASCII, as the JDK encodes it

`getBytes` writes one byte for each character of a string: its own one, or a question mark where
the character is not in the set.  A character is not a `char`: two surrogates are one character, so
the bytes are fewer than the `char`s exactly if there is such a pair (`length_getBytes_eq_iff`).
-/
import JavaStudy.Lib.Utf8

namespace JavaStudy
namespace Ascii

open JavaText Utf8

def encode (c : Char) : Byte := if c.toNat < 0x80 then BitVec.ofNat 8 c.toNat else 0x3F

/-- `s.getBytes("US-ASCII")`. -/
def getBytes (s : JString) : List Byte := (chars s).map encode

/-- All characters are in the set. -/
def IsAscii (s : JString) : Prop := ∀ c ∈ s, c.toNat < 0x80

/-- No two surrogates are a character. -/
def NoPair (s : JString) : Prop :=
  s.IsChain fun c d => (highSurrogate c && lowSurrogate d) = false

instance (s : JString) : Decidable (IsAscii s) := List.decidableBAll _ s

instance (s : JString) : Decidable (NoPair s) := inferInstanceAs (Decidable (s.IsChain _))

/-! ## 1. The characters of a string -/

/-- A string can be cut wherever no pair is cut. -/
theorem chars_append {s t : JString}
    (h : ∀ c ∈ s.getLast?, ∀ d ∈ t.head?, (highSurrogate c && lowSurrogate d) = false) :
    chars (s ++ t) = chars s ++ chars t := by
  fun_induction chars s with
  | case1 => rfl
  | case2 c =>
    cases t with
    | nil => rfl
    | cons d t =>
      have hcd : (highSurrogate c && lowSurrogate d) = false := h c rfl d rfl
      rw [List.singleton_append, chars, hcd]
      rfl
  | case3 c d s hpair ih =>
    rw [List.cons_append, List.cons_append, chars, if_pos hpair, ih, List.cons_append]
    intro a ha b hb
    cases s with
    | nil => cases ha
    | cons e s => exact h a (by rwa [List.getLast?_cons_cons, List.getLast?_cons_cons]) b hb
  | case4 c d s hpair ih =>
    rw [List.cons_append, List.cons_append, chars, if_neg hpair, ← List.cons_append, ih,
      List.cons_append]
    intro a ha b hb
    exact h a (by rwa [List.getLast?_cons_cons]) b hb

theorem length_chars_le (s : JString) : (chars s).length ≤ s.length := by
  fun_induction chars s with
  | case1 => exact le_refl _
  | case2 c => exact le_refl _
  | case3 c d s hpair ih =>
    simp only [List.length_cons]
    omega
  | case4 c d s hpair ih =>
    simp only [List.length_cons] at ih ⊢
    omega

/-- A character has two `char`s at most. -/
theorem length_le_chars (s : JString) : s.length ≤ 2 * (chars s).length := by
  fun_induction chars s with
  | case1 => exact le_refl _
  | case2 c => exact Nat.le_succ 1
  | case3 c d s hpair ih =>
    simp only [List.length_cons]
    omega
  | case4 c d s hpair ih =>
    simp only [List.length_cons] at ih ⊢
    omega

theorem length_chars_eq_iff (s : JString) : (chars s).length = s.length ↔ NoPair s := by
  unfold NoPair
  fun_induction chars s with
  | case1 => simp
  | case2 c => simp
  | case3 c d s hpair ih =>
    have hle := length_chars_le s
    rw [List.isChain_cons_cons, hpair]
    simp only [List.length_cons]
    refine iff_of_false (by omega) ?_
    exact fun h => absurd h.1 (by decide)
  | case4 c d s hpair ih =>
    rw [List.isChain_cons_cons, ← ih, List.length_cons, List.length_cons (a := c)]
    simp [hpair]

/-! ## 2. The bytes -/

/-- **There is a byte for every `char` exactly if no two of them are one character.** -/
theorem length_getBytes_eq_iff (s : JString) : (getBytes s).length = s.length ↔ NoPair s := by
  rw [getBytes, List.length_map, length_chars_eq_iff]

theorem length_le_getBytes (s : JString) : s.length ≤ 2 * (getBytes s).length := by
  rw [getBytes, List.length_map]
  exact length_le_chars s

theorem not_surrogate_of_ascii {s : JString} (h : IsAscii s) {c : JChar} (hc : c ∈ s) :
    highSurrogate c = false ∧ lowSurrogate c = false := by
  have hlt := h c hc
  rw [Bool.eq_false_iff, Bool.eq_false_iff, ne_eq, ne_eq, highSurrogate_iff, lowSurrogate_iff]
  omega

theorem getBytes_append_right {s : JString} (h : IsAscii s) (t : JString) :
    getBytes (s ++ t) = getBytes s ++ getBytes t := by
  rw [getBytes, chars_append, List.map_append]
  · rfl
  · intro c hc d _
    rw [(not_surrogate_of_ascii h (List.mem_of_mem_getLast? hc)).1, Bool.false_and]

theorem getBytes_append_left (s : JString) {t : JString} (h : IsAscii t) :
    getBytes (s ++ t) = getBytes s ++ getBytes t := by
  rw [getBytes, chars_append, List.map_append]
  · rfl
  · intro c _ d hd
    rw [(not_surrogate_of_ascii h (List.mem_of_mem_head? hd)).2, Bool.and_false]

/-- The characters of the set have their own bytes. -/
theorem getBytes_cons {c : JChar} {s : JString} (h : IsAscii (c :: s)) :
    getBytes (c :: s) = c.setWidth 8 :: getBytes s := by
  obtain ⟨hhigh, hlow⟩ := not_surrogate_of_ascii h List.mem_cons_self
  have hlt := h c List.mem_cons_self
  have hchar : (Char.ofNat c.toNat).toNat = c.toNat := toNat_ofNat (by unfold Scalar; omega)
  rw [getBytes, chars_cons hhigh hlow, List.map_cons, encode, hchar, if_pos hlt]
  rfl

theorem length_getBytes {s : JString} (h : IsAscii s) : (getBytes s).length = s.length := by
  induction s with
  | nil => rfl
  | cons c s ih =>
    rw [getBytes_cons h, List.length_cons, ih fun d hd => h d (List.mem_cons_of_mem _ hd),
      List.length_cons]

/-- **A text in the set can be read back from its bytes.** -/
theorem map_getBytes {s : JString} (h : IsAscii s) : (getBytes s).map (·.setWidth 16) = s := by
  induction s with
  | nil => rfl
  | cons c s ih =>
    have hback : (c.setWidth 8).setWidth 16 = c := by
      have hlt := h c List.mem_cons_self
      refine BitVec.eq_of_toNat_eq ?_
      rw [BitVec.toNat_setWidth, BitVec.toNat_setWidth]
      omega
    rw [getBytes_cons h, List.map_cons, hback, ih fun d hd => h d (List.mem_cons_of_mem _ hd)]

theorem getBytes_inj {s t : JString} (hs : IsAscii s) (ht : IsAscii t)
    (h : getBytes s = getBytes t) : s = t := by
  rw [← map_getBytes hs, h, map_getBytes ht]

theorem ascii_digits (n : Nat) : IsAscii (digits n) := by
  have hall : ∀ d < 10, (unit (Nat.digitChar d)).toNat < 0x80 := by decide
  intro c hc
  obtain ⟨d, hd, rfl⟩ := mem_digits hc
  exact hall d hd

end Ascii
end JavaStudy
