/-
# Java text: strings of code units, `trim`, `split`, and decimal integers

A `char` is a UTF-16 code unit and a `String` a list of them.  This module has the operations of
`java.lang.String` and `java.lang.Integer` on which the text codecs of the repository rest, and
what those codecs need to know about them:

* `trim_padded`: `trim` takes a padding of blanks off again;
* `split_pair`: `split` finds the two parts around a single separator;
* `parseInt_toString`: `Integer.parseInt` reads back every `int` that `Integer.toString` wrote, the
  negative ones and `Integer.MIN_VALUE` included.
-/
import Mathlib.Data.List.DropRight
import Mathlib.Data.Nat.Digits.Defs

namespace JavaStudy
namespace JavaText

abbrev JChar := BitVec 16
abbrev JString := List JChar
abbrev JInt := BitVec 32

/-- The code unit of a character of the basic plane. -/
def unit (c : Char) : JChar := BitVec.ofNat 16 c.toNat

/-- The unchecked exceptions that a codec can raise. -/
inductive RuntimeException where
  | nullPointer
  | numberFormat
  | arrayIndexOutOfBounds
  deriving DecidableEq

/-! ## 1. `trim` and `split` -/

/-- What `trim` removes: the space and everything below it. -/
def blank (c : JChar) : Bool := c.toNat ≤ 0x20

def trim (s : JString) : JString := (s.dropWhile blank).rdropWhile blank

/-- `split` at a separator that is no regex character: trailing empty strings are dropped, except
that a string without a separator is returned as it is. -/
def split (sep : JChar) (s : JString) : List JString :=
  if sep ∈ s then (s.splitOn sep).rdropWhile List.isEmpty else [s]

theorem rdropWhile_append_of_pos {α : Type} {p : α → Bool} (l : List α) {r : List α}
    (h : ∀ x ∈ r, p x = true) : (l ++ r).rdropWhile p = l.rdropWhile p := by
  rw [List.rdropWhile, List.reverse_append,
    List.dropWhile_append_of_pos fun x hx => h x (List.mem_reverse.mp hx)]
  rfl

/-- A padding of blanks comes off. -/
theorem trim_padded {pre s post : JString} (hs : s ≠ []) (hblank : ∀ c ∈ s, blank c = false)
    (hpre : ∀ c ∈ pre, blank c = true) (hpost : ∀ c ∈ post, blank c = true) :
    trim (pre ++ s ++ post) = s := by
  obtain ⟨c, rest, rfl⟩ := List.exists_cons_of_ne_nil hs
  have hc : blank c = false := hblank c List.mem_cons_self
  have hfront : (pre ++ (c :: rest) ++ post).dropWhile blank = c :: rest ++ post := by
    rw [List.append_assoc, List.dropWhile_append_of_pos hpre, List.cons_append,
      List.dropWhile_cons_of_neg (by simp [hc])]
  have hlast : blank ((c :: rest).getLast hs) = false := hblank _ (List.getLast_mem hs)
  rw [trim, hfront, rdropWhile_append_of_pos _ hpost, List.rdropWhile_eq_self_iff]
  exact fun _ => by simp [hlast]

/-- Two parts around a single separator. -/
theorem split_pair {sep : JChar} {a b : JString} (ha : sep ∉ a) (hb : sep ∉ b) (hne : b ≠ []) :
    split sep (a ++ sep :: b) = [a, b] := by
  unfold split
  rw [if_pos (by simp), List.splitOn_append_cons_self_of_not_mem ha, List.splitOn_eq_singleton hb,
    List.rdropWhile_eq_self_iff]
  exact fun _ => by simpa using hne

theorem rdropWhile_cons_of_ne_nil {α : Type} {p : α → Bool} {l : List α} (a : α)
    (h : l.rdropWhile p ≠ []) : (a :: l).rdropWhile p = a :: l.rdropWhile p := by
  have hrev : l.reverse.dropWhile p ≠ [] := fun hnil => h (by rw [List.rdropWhile, hnil]; rfl)
  rw [List.rdropWhile, List.reverse_cons, List.dropWhile_append, if_neg (by simpa using hrev),
    List.reverse_append]
  rfl

/-- Only what stands behind an element that stays can be dropped. -/
theorem rdropWhile_append_cons {α : Type} {p : α → Bool} (l : List α) {a : α} (ha : ¬p a)
    (s : List α) : (l ++ a :: s).rdropWhile p = l ++ a :: s.rdropWhile p := by
  induction s using List.reverseRecOn with
  | nil => rw [List.rdropWhile_concat_neg _ _ _ ha, List.rdropWhile_nil]
  | append_singleton s x ih =>
    rw [← List.cons_append, ← List.append_assoc]
    by_cases hx : p x
    · rw [List.rdropWhile_concat_pos _ _ _ hx, List.rdropWhile_concat_pos _ _ _ hx, ih]
    · rw [List.rdropWhile_concat_neg _ _ _ hx, List.rdropWhile_concat_neg _ _ _ hx,
        List.append_assoc, List.cons_append]

/-- A part in front of a text that keeps its own parts. -/
theorem split_cons {sep : JChar} {a b first : JString} {rest : List JString} (ha : sep ∉ a)
    (hne : b ≠ []) (hb : split sep b = first :: rest) :
    split sep (a ++ sep :: b) = a :: first :: rest := by
  have hparts : (b.splitOn sep).rdropWhile List.isEmpty = first :: rest := by
    unfold split at hb
    split at hb
    · exact hb
    · rename_i hsep
      rw [List.splitOn_eq_singleton hsep, ← hb, List.rdropWhile_eq_self_iff]
      exact fun _ => by simpa using hne
  unfold split
  rw [if_pos (by simp), List.splitOn_append_cons_self_of_not_mem ha,
    rdropWhile_cons_of_ne_nil a (by simp [hparts]), hparts]

theorem not_mem_of_mem_splitOn {sep : JChar} {s part : JString} (h : part ∈ s.splitOn sep) :
    sep ∉ part := by
  induction s generalizing part with
  | nil =>
    rw [List.splitOn_nil, List.mem_singleton] at h
    simp [h]
  | cons c s ih =>
    obtain ⟨first, rest, hparts⟩ := List.exists_cons_of_ne_nil (List.splitOn_ne_nil sep s)
    rw [hparts] at ih
    rw [List.splitOn_cons_eq_if_modifyHead, hparts] at h
    split at h
    · rcases List.mem_cons.mp h with rfl | h
      · simp
      · exact ih h
    · rename_i hc
      rw [List.modifyHead_cons] at h
      rcases List.mem_cons.mp h with rfl | h
      · have hfirst := ih (List.mem_cons_self (a := first) (l := rest))
        intro hmem
        rcases List.mem_cons.mp hmem with rfl | hmem
        · exact hc (by simp)
        · exact hfirst hmem
      · exact ih (List.mem_cons_of_mem _ h)

/-- **No part of a split text contains the separator.** -/
theorem not_mem_of_mem_split {sep : JChar} {s part : JString} (h : part ∈ split sep s) :
    sep ∉ part := by
  unfold split at h
  split at h
  · exact not_mem_of_mem_splitOn ((List.rdropWhile_prefix _ _).subset h)
  · rename_i hsep
    rw [List.mem_singleton.mp h]
    exact hsep

/-! ## 2. Decimal integers -/

/-- Where the runs of ten decimal digits start in the basic plane. -/
def zeros : List Nat :=
  [0x30, 0x660, 0x6F0, 0x7C0, 0x966, 0x9E6, 0xA66, 0xAE6, 0xB66, 0xBE6, 0xC66, 0xCE6, 0xD66, 0xE50,
    0xED0, 0xF20, 0x1040, 0x1090, 0x17E0, 0x1810, 0x1946, 0x19D0, 0x1A80, 0x1A90, 0x1B50, 0x1BB0,
    0x1C40, 0x1C50, 0xA620, 0xA8D0, 0xA900, 0xA9D0, 0xAA50, 0xABF0, 0xFF10]

/-- `Character.digit` in radix 10. -/
def digit (c : JChar) : Option Nat :=
  (zeros.find? fun z => z ≤ c.toNat ∧ c.toNat < z + 10).map fun z => c.toNat - z

/-- The value of a digit string, most significant digit first. -/
def digitsValue (s : JString) : Option Nat :=
  s.foldlM (fun value c => (digit c).map fun d => 10 * value + d) 0

/-- The decimal digits of a natural number. -/
def digits (n : Nat) : JString := (Nat.toDigits 10 n).map unit

/-- `Integer.toString`. -/
def Integer.toString (i : JInt) : JString :=
  if i.toInt < 0 then unit '-' :: digits i.toInt.natAbs else digits i.toInt.natAbs

/-- A leading sign and the rest. -/
def sign : JString → Bool × JString
  | [] => (false, [])
  | c :: rest =>
    if c = unit '-' then (true, rest) else if c = unit '+' then (false, rest) else (false, c :: rest)

/-- `Integer.parseInt` in radix 10. -/
def Integer.parseInt (s : JString) : Except RuntimeException JInt :=
  if (sign s).2 = [] then .error .numberFormat
  else
    match digitsValue (sign s).2 with
    | none => .error .numberFormat
    | some value =>
      let i : Int := if (sign s).1 then -value else value
      if -2 ^ 31 ≤ i ∧ i < 2 ^ 31 then .ok (BitVec.ofInt 32 i) else .error .numberFormat

/-- The last digit of a number stands behind the digits of the rest. -/
theorem digits_eq (n : Nat) : digits n =
    if n < 10 then [unit n.digitChar] else digits (n / 10) ++ [unit (n % 10).digitChar] := by
  unfold digits
  rw [Nat.toDigits_eq_if (by decide)]
  split
  · rfl
  · rw [List.map_append, List.map_singleton]

theorem digits_ne_nil (n : Nat) : digits n ≠ [] := by
  unfold digits
  simp

theorem length_digits_le {n k : Nat} (hk : 0 < k) (hn : n < 10 ^ k) : (digits n).length ≤ k := by
  rw [digits, List.length_map]
  exact Nat.toDigits_length 10 n k hk hn

theorem mem_digits {n : Nat} {c : JChar} (h : c ∈ digits n) : ∃ d < 10, c = unit d.digitChar := by
  induction n using Nat.strong_induction_on with
  | _ n ih =>
    rw [digits_eq] at h
    split at h
    · exact ⟨n, ‹_›, List.mem_singleton.mp h⟩
    · rcases List.mem_append.mp h with h | h
      · exact ih (n / 10) (by omega) h
      · exact ⟨n % 10, Nat.mod_lt n (by decide), List.mem_singleton.mp h⟩

theorem digit_digitChar : ∀ d < 10, digit (unit (Nat.digitChar d)) = some d := by
  decide

theorem digitsValue_concat (s : JString) (c : JChar) :
    digitsValue (s ++ [c]) = (digitsValue s).bind fun value =>
      (digit c).map fun d => 10 * value + d := by
  unfold digitsValue
  rw [List.foldlM_append]
  cases s.foldlM (fun value c => (digit c).map fun d => 10 * value + d) 0 with
  | none => rfl
  | some value => simp

theorem digitsValue_digits (n : Nat) : digitsValue (digits n) = some n := by
  induction n using Nat.strong_induction_on with
  | _ n ih =>
    rw [digits_eq]
    split
    · rename_i hn
      have hconcat := digitsValue_concat [] (unit n.digitChar)
      rw [digit_digitChar n hn] at hconcat
      exact hconcat.trans (by simp [digitsValue])
    · rw [digitsValue_concat, ih (n / 10) (by omega), digit_digitChar _ (Nat.mod_lt n (by decide)),
        Option.bind_some, Option.map_some, Nat.div_add_mod]

/-- The characters of a decimal numeral. -/
def numerals : List JChar :=
  ['-', '0', '1', '2', '3', '4', '5', '6', '7', '8', '9'].map unit

theorem mem_numerals {i : JInt} {c : JChar} (h : c ∈ Integer.toString i) : c ∈ numerals := by
  have hdigit : ∀ d < 10, unit (Nat.digitChar d) ∈ numerals := by decide
  have hdigits : ∀ n, c ∈ digits n → c ∈ numerals := by
    intro n hn
    obtain ⟨d, hd, rfl⟩ := mem_digits hn
    exact hdigit d hd
  unfold Integer.toString at h
  split at h
  · rcases List.mem_cons.mp h with rfl | h
    · decide
    · exact hdigits _ h
  · exact hdigits _ h

/-- The characters of a numeral are neither blanks nor the tilde that the codecs put
between their fields. -/
theorem numeral_spec {c : JChar} (h : c ∈ numerals) : blank c = false ∧ c ≠ unit '~' := by
  have hall : (numerals.all fun c => !blank c && c != unit '~') = true := by decide
  have hc := List.all_eq_true.mp hall c h
  simpa using hc

/-- Digits carry no sign. -/
theorem sign_digits (n : Nat) : sign (digits n) = (false, digits n) := by
  have hno : ∀ d < 10, unit (Nat.digitChar d) ≠ unit '-' ∧ unit (Nat.digitChar d) ≠ unit '+' := by
    decide
  cases h : digits n with
  | nil => rfl
  | cons c rest =>
    obtain ⟨d, hd, rfl⟩ := mem_digits (h ▸ List.mem_cons_self : c ∈ digits n)
    simp only [sign, if_neg (hno d hd).1, if_neg (hno d hd).2]

/-- A signed digit string in the range of an `int` is read as its value. -/
theorem parseInt_of_sign {s : JString} {negative : Bool} {n : Nat} {i : JInt}
    (hs : sign s = (negative, digits n)) (hi : (if negative then -n else n : Int) = i.toInt) :
    Integer.parseInt s = .ok i := by
  unfold Integer.parseInt
  rw [hs]
  simp only [if_neg (digits_ne_nil n), digitsValue_digits, hi]
  rw [if_pos ⟨i.le_toInt, i.toInt_lt⟩, BitVec.ofInt_toInt]

/-- **`Integer.parseInt` reads back what `Integer.toString` wrote.** -/
theorem parseInt_toString (i : JInt) : Integer.parseInt (Integer.toString i) = .ok i := by
  unfold Integer.toString
  split
  · rename_i hneg
    have hsign : sign (unit '-' :: digits i.toInt.natAbs) = (true, digits i.toInt.natAbs) := rfl
    refine parseInt_of_sign hsign ?_
    rw [if_pos rfl]
    omega
  · refine parseInt_of_sign (sign_digits _) ?_
    rw [if_neg (by decide)]
    omega

/-- A digit lies in one of the runs. -/
theorem digit_range {c : JChar} {d : Nat} (h : digit c = some d) :
    ∃ z ∈ zeros, z ≤ c.toNat ∧ c.toNat < z + 10 := by
  obtain ⟨z, hz, -⟩ := Option.map_eq_some_iff.mp h
  exact ⟨z, List.mem_of_find?_eq_some hz, by simpa using List.find?_some hz⟩

theorem digit_of_digitsValue {s : JString} {value : Nat} (h : digitsValue s = some value)
    {c : JChar} (hc : c ∈ s) : ∃ d, digit c = some d := by
  induction s using List.reverseRecOn generalizing value with
  | nil => cases hc
  | append_singleton s last ih =>
    rw [digitsValue_concat] at h
    obtain ⟨front, hfront, hlast⟩ := Option.bind_eq_some_iff.mp h
    rcases List.mem_append.mp hc with hc | hc
    · exact ih hfront hc
    · rw [List.mem_singleton.mp hc]
      obtain ⟨d, hd, -⟩ := Option.map_eq_some_iff.mp hlast
      exact ⟨d, hd⟩

/-- **What `Integer.parseInt` reads consists of a sign and digits.** -/
theorem mem_of_parseInt {s : JString} {i : JInt} (h : Integer.parseInt s = .ok i) {c : JChar}
    (hc : c ∈ s) : c = unit '-' ∨ c = unit '+' ∨ ∃ d, digit c = some d := by
  have hdigits : ∀ c ∈ (sign s).2, ∃ d, digit c = some d := by
    intro c hc
    unfold Integer.parseInt at h
    rw [if_neg (List.ne_nil_of_mem hc)] at h
    split at h
    · exact absurd h (by simp)
    · rename_i value hvalue
      exact digit_of_digitsValue hvalue hc
  cases s with
  | nil => cases hc
  | cons first rest =>
    by_cases hminus : first = unit '-'
    · simp only [sign, if_pos hminus] at hdigits
      rcases List.mem_cons.mp hc with rfl | hc
      · exact Or.inl hminus
      · exact Or.inr (Or.inr (hdigits c hc))
    · by_cases hplus : first = unit '+'
      · simp only [sign, if_neg hminus, if_pos hplus] at hdigits
        rcases List.mem_cons.mp hc with rfl | hc
        · exact Or.inr (Or.inl hplus)
        · exact Or.inr (Or.inr (hdigits c hc))
      · simp only [sign, if_neg hminus, if_neg hplus] at hdigits
        exact Or.inr (Or.inr (hdigits c hc))

theorem ne_nil_of_parseInt {s : JString} {i : JInt} (h : Integer.parseInt s = .ok i) : s ≠ [] := by
  rintro rfl
  exact absurd h (by simp [Integer.parseInt, sign])

end JavaText
end JavaStudy
