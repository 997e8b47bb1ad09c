/-
# UTF-8, as a strict decoder reads it

A character is written as a LEAD byte and up to three CONTINUATION bytes.  `decode` is Java's
UTF-8 decoder with the action REPORT on both kinds of error: it returns the UTF-16 code units, or
nothing where the decoder throws, which it does on every overlong form, on surrogates, on values
past U+10FFFF and on a character that is not complete.

* `decode_encode`: the encoding of a text is decoded to its code units.
* `decode_eq_some`: nothing else is decoded.
* `exists_split`: a cut of an encoding after which no continuation byte stands is a cut between
  two characters.  So a stream that is cut into chunks is decoded chunk by chunk exactly if no
  chunk begins with a continuation byte (`decode_chunks_iff`).
* `units_chars` and `chars_units`: a string without an unpaired surrogate is the code units of its
  characters, and a text is the characters of its code units.
-/
import JavaStudy.Lib.JavaText
import JavaStudy.Lib.ByteBuffer

namespace JavaStudy
namespace Utf8

open JavaText

/-! ## 1. The two encodings of a character -/

def byte (n : Nat) : Byte := BitVec.ofNat 8 n

/-- The continuation bytes are those from 0x80 to 0xBF. -/
def continuation (b : Byte) : Bool := 0x80 ≤ b.toNat && b.toNat < 0xC0

/-- The UTF-8 bytes of a code point. -/
def encodeNat (n : Nat) : List Byte :=
  if n < 0x80 then [byte n]
  else if n < 0x800 then [byte (0xC0 + n / 0x40), byte (0x80 + n % 0x40)]
  else if n < 0x10000 then
    [byte (0xE0 + n / 0x1000), byte (0x80 + n / 0x40 % 0x40), byte (0x80 + n % 0x40)]
  else
    [byte (0xF0 + n / 0x40000), byte (0x80 + n / 0x1000 % 0x40), byte (0x80 + n / 0x40 % 0x40),
      byte (0x80 + n % 0x40)]

/-- The UTF-16 code units of a code point. -/
def unitsNat (n : Nat) : JString :=
  if n < 0x10000 then [BitVec.ofNat 16 n]
  else
    [BitVec.ofNat 16 (0xD800 + (n - 0x10000) / 0x400),
      BitVec.ofNat 16 (0xDC00 + (n - 0x10000) % 0x400)]

def encode (text : List Char) : List Byte := text.flatMap fun c => encodeNat c.toNat

def units (text : List Char) : JString := text.flatMap fun c => unitsNat c.toNat

/-! ## 2. The decoder -/

/-- The value of the low six bits. -/
def low (b : Byte) : Nat := b.toNat - 0x80

/-- The code point that two bytes stand for. -/
def two (a b : Byte) : Option Nat :=
  let n := (a.toNat - 0xC0) * 0x40 + low b
  if 0xC0 ≤ a.toNat ∧ a.toNat < 0xE0 ∧ continuation b = true ∧ 0x80 ≤ n then some n else none

def three (a b c : Byte) : Option Nat :=
  let n := (a.toNat - 0xE0) * 0x1000 + low b * 0x40 + low c
  if 0xE0 ≤ a.toNat ∧ a.toNat < 0xF0 ∧ continuation b = true ∧ continuation c = true ∧
      0x800 ≤ n ∧ ¬(0xD800 ≤ n ∧ n < 0xE000) then some n
  else none

def four (a b c d : Byte) : Option Nat :=
  let n := (a.toNat - 0xF0) * 0x40000 + low b * 0x1000 + low c * 0x40 + low d
  if 0xF0 ≤ a.toNat ∧ continuation b = true ∧ continuation c = true ∧ continuation d = true ∧
      0x10000 ≤ n ∧ n < 0x110000 then some n
  else none

def decode : List Byte → Option JString
  | [] => some []
  | a :: rest =>
    if a.toNat < 0x80 then (decode rest).map (unitsNat a.toNat ++ ·)
    else
      match rest with
      | [] => none
      | b :: rest =>
        match two a b with
        | some n => (decode rest).map (unitsNat n ++ ·)
        | none =>
          match rest with
          | [] => none
          | c :: rest =>
            match three a b c with
            | some n => (decode rest).map (unitsNat n ++ ·)
            | none =>
              match rest with
              | [] => none
              | d :: rest =>
                match four a b c d with
                | some n => (decode rest).map (unitsNat n ++ ·)
                | none => none

example : decode [0x61, 0xC3, 0xA9, 0xF0, 0x9F, 0x98, 0x80] = some [0x61, 0xE9, 0xD83D, 0xDE00] := by
  decide

theorem decode_cons (a : Byte) (rest : List Byte) :
    decode (a :: rest) =
      if a.toNat < 0x80 then (decode rest).map (unitsNat a.toNat ++ ·)
      else
        match rest with
        | [] => none
        | b :: rest =>
          match two a b with
          | some n => (decode rest).map (unitsNat n ++ ·)
          | none =>
            match rest with
            | [] => none
            | c :: rest =>
              match three a b c with
              | some n => (decode rest).map (unitsNat n ++ ·)
              | none =>
                match rest with
                | [] => none
                | d :: rest =>
                  match four a b c d with
                  | some n => (decode rest).map (unitsNat n ++ ·)
                  | none => none :=
  decode.eq_def _

/-! ## 3. One character -/

/-- The values of characters. -/
def Scalar (n : Nat) : Prop := n < 0xD800 ∨ (0xDFFF < n ∧ n < 0x110000)

theorem toNat_byte {n : Nat} (h : n < 0x100) : (byte n).toNat = n := by
  rw [byte, BitVec.toNat_ofNat]
  exact Nat.mod_eq_of_lt h

theorem continuation_iff {b : Byte} : continuation b = true ↔ 0x80 ≤ b.toNat ∧ b.toNat < 0xC0 := by
  simp [continuation]

theorem two_eq_some_iff {a b : Byte} {n : Nat} :
    two a b = some n ↔
      a.toNat = 0xC0 + n / 0x40 ∧ b.toNat = 0x80 + n % 0x40 ∧ 0x80 ≤ n ∧ n < 0x800 := by
  unfold two low
  simp only [continuation_iff, Option.ite_none_right_eq_some, Option.some.injEq]
  omega

theorem three_eq_some_iff {a b c : Byte} {n : Nat} :
    three a b c = some n ↔
      a.toNat = 0xE0 + n / 0x1000 ∧ b.toNat = 0x80 + n / 0x40 % 0x40 ∧
        c.toNat = 0x80 + n % 0x40 ∧ 0x800 ≤ n ∧ n < 0x10000 ∧ Scalar n := by
  unfold three low Scalar
  simp only [continuation_iff, Option.ite_none_right_eq_some, Option.some.injEq]
  omega

theorem four_eq_some_iff {a b c d : Byte} {n : Nat} :
    four a b c d = some n ↔
      a.toNat = 0xF0 + n / 0x40000 ∧ b.toNat = 0x80 + n / 0x1000 % 0x40 ∧
        c.toNat = 0x80 + n / 0x40 % 0x40 ∧ d.toNat = 0x80 + n % 0x40 ∧
        0x10000 ≤ n ∧ n < 0x110000 := by
  unfold four low
  simp only [continuation_iff, Option.ite_none_right_eq_some, Option.some.injEq]
  omega

/-- No two bytes stand for a character if the first is no lead of two. -/
theorem two_eq_none {a : Byte} (h : a.toNat < 0xC0 ∨ 0xE0 ≤ a.toNat) (b : Byte) :
    two a b = none := by
  rw [Option.eq_none_iff_forall_ne_some]
  intro n hn
  have := two_eq_some_iff.mp hn
  omega

theorem three_eq_none {a : Byte} (h : a.toNat < 0xE0 ∨ 0xF0 ≤ a.toNat) (b c : Byte) :
    three a b c = none := by
  rw [Option.eq_none_iff_forall_ne_some]
  intro n hn
  have := three_eq_some_iff.mp hn
  omega

theorem four_eq_none {a : Byte} (h : a.toNat < 0xF0) (b c d : Byte) : four a b c d = none := by
  rw [Option.eq_none_iff_forall_ne_some]
  intro n hn
  have := four_eq_some_iff.mp hn
  omega

/-- **A character is decoded, and the rest is decoded after it.** -/
theorem decode_encodeNat {n : Nat} (h : Scalar n) (rest : List Byte) :
    decode (encodeNat n ++ rest) = (decode rest).map (unitsNat n ++ ·) := by
  have hn : n < 0x110000 := by
    unfold Scalar at h
    omega
  unfold encodeNat
  split_ifs with h1 h2 h3
  · have ha : (byte n).toNat = n := toNat_byte (by omega)
    rw [List.singleton_append, decode_cons, ha, if_pos h1]
  · have ha : (byte (0xC0 + n / 0x40)).toNat = 0xC0 + n / 0x40 := toNat_byte (by omega)
    have hb : (byte (0x80 + n % 0x40)).toNat = 0x80 + n % 0x40 := toNat_byte (by omega)
    have htwo := two_eq_some_iff.mpr ⟨ha, hb, by omega, h2⟩
    rw [List.cons_append, decode_cons, if_neg (by omega)]
    simp only [List.cons_append, List.nil_append, htwo]
  · have ha : (byte (0xE0 + n / 0x1000)).toNat = 0xE0 + n / 0x1000 := toNat_byte (by omega)
    have hb : (byte (0x80 + n / 0x40 % 0x40)).toNat = 0x80 + n / 0x40 % 0x40 :=
      toNat_byte (by omega)
    have hc : (byte (0x80 + n % 0x40)).toNat = 0x80 + n % 0x40 := toNat_byte (by omega)
    have htwo : two (byte (0xE0 + n / 0x1000)) (byte (0x80 + n / 0x40 % 0x40)) = none :=
      two_eq_none (Or.inr (by omega)) _
    have hthree := three_eq_some_iff.mpr ⟨ha, hb, hc, by omega, h3, h⟩
    rw [List.cons_append, decode_cons, if_neg (by omega)]
    simp only [List.cons_append, List.nil_append, htwo, hthree]
  · have ha : (byte (0xF0 + n / 0x40000)).toNat = 0xF0 + n / 0x40000 := toNat_byte (by omega)
    have hb : (byte (0x80 + n / 0x1000 % 0x40)).toNat = 0x80 + n / 0x1000 % 0x40 :=
      toNat_byte (by omega)
    have hc : (byte (0x80 + n / 0x40 % 0x40)).toNat = 0x80 + n / 0x40 % 0x40 :=
      toNat_byte (by omega)
    have hd : (byte (0x80 + n % 0x40)).toNat = 0x80 + n % 0x40 := toNat_byte (by omega)
    have htwo : two (byte (0xF0 + n / 0x40000)) (byte (0x80 + n / 0x1000 % 0x40)) = none :=
      two_eq_none (Or.inr (by omega)) _
    have hthree : three (byte (0xF0 + n / 0x40000)) (byte (0x80 + n / 0x1000 % 0x40))
        (byte (0x80 + n / 0x40 % 0x40)) = none :=
      three_eq_none (Or.inr (by omega)) _ _
    have hfour := four_eq_some_iff.mpr ⟨ha, hb, hc, hd, by omega, hn⟩
    rw [List.cons_append, decode_cons, if_neg (by omega)]
    simp only [List.cons_append, List.nil_append, htwo, hthree, hfour]

/-- A character is a lead byte, and continuation bytes. -/
theorem encodeNat_eq_cons {n : Nat} (h : Scalar n) :
    ∃ lead tail, encodeNat n = lead :: tail ∧ continuation lead = false ∧
      ∀ b ∈ tail, continuation b = true := by
  have hcont : ∀ {m : Nat}, m < 0x40 → continuation (byte (0x80 + m)) = true := by
    intro m hm
    rw [continuation_iff, toNat_byte (by omega)]
    omega
  have hlead : ∀ {m : Nat}, m < 0x80 ∨ (0xC0 ≤ m ∧ m < 0x100) → continuation (byte m) = false := by
    intro m hm
    rw [Bool.eq_false_iff, ne_eq, continuation_iff, toNat_byte (by omega)]
    omega
  unfold Scalar at h
  unfold encodeNat
  split_ifs with h1 h2 h3
  · exact ⟨_, _, rfl, hlead (by omega), nofun⟩
  · refine ⟨_, _, rfl, hlead (by omega), ?_⟩
    simp only [List.mem_singleton, forall_eq]
    exact hcont (by omega)
  · refine ⟨_, _, rfl, hlead (by omega), ?_⟩
    simp only [List.mem_cons, List.not_mem_nil, or_false, forall_eq_or_imp, forall_eq]
    exact ⟨hcont (by omega), hcont (by omega)⟩
  · refine ⟨_, _, rfl, hlead (by omega), ?_⟩
    simp only [List.mem_cons, List.not_mem_nil, or_false, forall_eq_or_imp, forall_eq]
    exact ⟨hcont (by omega), hcont (by omega), hcont (by omega)⟩

/-- Nothing that begins with a continuation byte is decoded. -/
theorem decode_continuation {b : Byte} (h : continuation b = true) (rest : List Byte) :
    decode (b :: rest) = none := by
  obtain ⟨hlow, hhigh⟩ := continuation_iff.mp h
  rw [decode_cons, if_neg (by omega)]
  split
  · rfl
  · rw [two_eq_none (Or.inl hhigh)]
    dsimp only
    split
    · rfl
    · rw [three_eq_none (Or.inl (by omega))]
      dsimp only
      split
      · rfl
      · rw [four_eq_none (by omega)]

/-! ## 4. Texts -/

theorem scalar_toNat (c : Char) : Scalar c.toNat := c.valid

theorem exists_char {n : Nat} (h : Scalar n) : ∃ c : Char, c.toNat = n :=
  ⟨Char.ofNatAux n h, rfl⟩

theorem encode_cons (c : Char) (text : List Char) :
    encode (c :: text) = encodeNat c.toNat ++ encode text := List.flatMap_cons

theorem units_cons (c : Char) (text : List Char) :
    units (c :: text) = unitsNat c.toNat ++ units text := List.flatMap_cons

theorem units_append (t u : List Char) : units (t ++ u) = units t ++ units u :=
  List.flatMap_append

/-- **The encoding of a text is decoded to its code units.** -/
theorem decode_encode (text : List Char) : decode (encode text) = some (units text) := by
  induction text with
  | nil => rfl
  | cons c text ih =>
    rw [encode_cons, units_cons, decode_encodeNat (scalar_toNat c), ih]
    rfl

/-- **Nothing else is decoded.** -/
theorem decode_eq_some {bytes : List Byte} {s : JString} (h : decode bytes = some s) :
    ∃ text, bytes = encode text ∧ s = units text := by
  -- a character in front of what the induction hypothesis is about
  have step : ∀ {n : Nat} {rest : List Byte} {s : JString}, Scalar n →
      (∀ {s : JString}, decode rest = some s → ∃ text, rest = encode text ∧ s = units text) →
      (decode rest).map (unitsNat n ++ ·) = some s →
      ∃ text, encodeNat n ++ rest = encode text ∧ s = units text := by
    intro n rest s hn ih h
    obtain ⟨s', hs', rfl⟩ := Option.map_eq_some_iff.mp h
    obtain ⟨text, rfl, rfl⟩ := ih hs'
    obtain ⟨c, rfl⟩ := exists_char hn
    exact ⟨c :: text, (encode_cons c text).symm, (units_cons c text).symm⟩
  have hbyte : ∀ {b : Byte} {n : Nat}, b.toNat = n → byte n = b := by
    rintro b n rfl
    rw [byte, BitVec.ofNat_toNat, BitVec.setWidth_eq]
  fun_induction decode bytes generalizing s with
  | case1 =>
    cases h
    exact ⟨[], rfl, rfl⟩
  | case2 a rest ha ih =>
    have henc : encodeNat a.toNat = [a] := by
      rw [encodeNat, if_pos ha, hbyte rfl]
    have hscalar : Scalar a.toNat := Or.inl (by omega)
    have hnew := step hscalar ih h
    rwa [henc] at hnew
  | case4 a ha b rest n htwo ih =>
    obtain ⟨ha', hb, hlow, hhigh⟩ := two_eq_some_iff.mp htwo
    have henc : encodeNat n = [a, b] := by
      rw [encodeNat, if_neg (by omega), if_pos hhigh, hbyte ha', hbyte hb]
    have hnew := step (Or.inl (by omega)) ih h
    rwa [henc] at hnew
  | case6 a ha b htwo c rest n hthree ih =>
    obtain ⟨ha', hb, hc, hlow, hhigh, hscalar⟩ := three_eq_some_iff.mp hthree
    have henc : encodeNat n = [a, b, c] := by
      rw [encodeNat, if_neg (by omega), if_neg (by omega), if_pos hhigh, hbyte ha', hbyte hb,
        hbyte hc]
    have hnew := step hscalar ih h
    rwa [henc] at hnew
  | case8 a ha b htwo c hthree d rest n hfour ih =>
    obtain ⟨ha', hb, hc, hd, hlow, hhigh⟩ := four_eq_some_iff.mp hfour
    have henc : encodeNat n = [a, b, c, d] := by
      rw [encodeNat, if_neg (by omega), if_neg (by omega), if_neg (by omega), hbyte ha', hbyte hb,
        hbyte hc, hbyte hd]
    have hnew := step (Or.inr (by omega)) ih h
    rwa [henc] at hnew
  | _ => exact absurd h (by simp)

/-- The bytes are the encoding of a text. -/
def WellFormed (bytes : List Byte) : Prop := ∃ text, bytes = encode text

theorem decode_isSome_iff {bytes : List Byte} :
    (decode bytes).isSome = true ↔ WellFormed bytes := by
  rw [Option.isSome_iff_exists]
  constructor
  · rintro ⟨s, hs⟩
    obtain ⟨text, hbytes, -⟩ := decode_eq_some hs
    exact ⟨text, hbytes⟩
  · rintro ⟨text, rfl⟩
    exact ⟨units text, decode_encode text⟩

instance decidableWellFormed (bytes : List Byte) : Decidable (WellFormed bytes) :=
  decidable_of_iff ((decode bytes).isSome = true) decode_isSome_iff

/-! ## 5. Cuts -/

/-- The bytes do not begin in the middle of a character. -/
def Aligned (bytes : List Byte) : Prop := ∀ b ∈ bytes.head?, continuation b = false

instance decidableAligned (bytes : List Byte) : Decidable (Aligned bytes) :=
  inferInstanceAs (Decidable (∀ b ∈ bytes.head?, continuation b = false))

/-- **A cut after which no continuation byte stands is a cut between two characters.** -/
theorem exists_split {text : List Char} {l r : List Byte} (h : l ++ r = encode text)
    (hr : Aligned r) : ∃ t u, text = t ++ u ∧ l = encode t ∧ r = encode u := by
  induction text generalizing l with
  | nil =>
    obtain ⟨rfl, rfl⟩ := List.append_eq_nil_iff.mp h
    exact ⟨[], [], rfl, rfl, rfl⟩
  | cons c text ih =>
    rw [encode_cons] at h
    rcases List.append_eq_append_iff.mp h with ⟨m, hm, rfl⟩ | ⟨m, rfl, hm⟩
    · -- the cut is in the character, so it is in front of it
      obtain ⟨lead, tail, htail, -, hcont⟩ := encodeNat_eq_cons (scalar_toNat c)
      cases l with
      | nil => exact ⟨[], c :: text, rfl, rfl, by rw [encode_cons, hm]; rfl⟩
      | cons a l =>
        cases m with
        | nil =>
          rw [List.append_nil] at hm
          have hc : a :: l = encode [c] := by
            rw [encode_cons, hm, encode, List.flatMap_nil, List.append_nil]
          exact ⟨[c], text, rfl, hc, rfl⟩
        | cons b m =>
          rw [hm, List.cons_append, List.cons.injEq] at htail
          have hb : continuation b = true := hcont b (by rw [← htail.2]; simp)
          have hb' : continuation b = false := hr b (by simp)
          rw [hb] at hb'
          cases hb'
    · obtain ⟨t, u, rfl, rfl, hu⟩ := ih hm.symm
      exact ⟨c :: t, u, rfl, (encode_cons c t).symm, hu⟩

theorem mapM_decode_cons (chunk : List Byte) (chunks : List (List Byte)) :
    (chunk :: chunks).mapM decode
      = (decode chunk).bind fun s => (chunks.mapM decode).map (s :: ·) := by
  rw [List.mapM_cons]
  cases decode chunk with
  | none => rfl
  | some s => cases chunks.mapM decode <;> rfl

/-- Chunks that are decoded one by one begin with a character each. -/
theorem aligned_of_mapM {chunks : List (List Byte)} {strs : List JString}
    (h : chunks.mapM decode = some strs) : ∀ chunk ∈ chunks, Aligned chunk := by
  induction chunks generalizing strs with
  | nil => exact nofun
  | cons chunk chunks ih =>
    rw [mapM_decode_cons] at h
    obtain ⟨s, hs, h⟩ := Option.bind_eq_some_iff.mp h
    obtain ⟨rest, hrest, -⟩ := Option.map_eq_some_iff.mp h
    intro c hc
    rcases List.mem_cons.mp hc with rfl | hc
    · intro b hb
      obtain ⟨tail, rfl⟩ := List.head?_eq_some_iff.mp hb
      by_contra hcont
      rw [decode_continuation (Bool.not_eq_false _ ▸ hcont)] at hs
      cases hs
    · exact ih hrest c hc

theorem aligned_flatten {chunks : List (List Byte)} (hne : ∀ chunk ∈ chunks, chunk ≠ [])
    (h : ∀ chunk ∈ chunks, Aligned chunk) : Aligned chunks.flatten := by
  cases chunks with
  | nil => exact nofun
  | cons chunk chunks =>
    obtain ⟨b, rest, rfl⟩ := List.exists_cons_of_ne_nil (hne chunk List.mem_cons_self)
    exact h (b :: rest) List.mem_cons_self

/-- Chunks of a text that begin with a character each are decoded one by one. -/
theorem mapM_of_aligned {text : List Char} {chunks : List (List Byte)}
    (hne : ∀ chunk ∈ chunks, chunk ≠ []) (h : chunks.flatten = encode text)
    (haligned : ∀ chunk ∈ chunks, Aligned chunk) :
    (chunks.mapM decode).map List.flatten = some (units text) := by
  induction chunks generalizing text with
  | nil =>
    have hnil : decode [] = some (units text) := by
      rw [← decode_encode text, ← h]
      rfl
    exact hnil
  | cons chunk chunks ih =>
    have hrest : Aligned chunks.flatten :=
      aligned_flatten (fun c hc => hne c (List.mem_cons_of_mem _ hc))
        fun c hc => haligned c (List.mem_cons_of_mem _ hc)
    obtain ⟨t, u, rfl, rfl, hu⟩ := exists_split (List.flatten_cons ▸ h) hrest
    have hdecoded := ih (fun c hc => hne c (List.mem_cons_of_mem _ hc)) hu
      fun c hc => haligned c (List.mem_cons_of_mem _ hc)
    obtain ⟨strs, hstrs, hflatten⟩ := Option.map_eq_some_iff.mp hdecoded
    rw [mapM_decode_cons, decode_encode, hstrs, units_append, ← hflatten]
    rfl

/-- **A text that is cut into chunks is decoded chunk by chunk exactly if no chunk begins in the
middle of a character.** -/
theorem decode_chunks_iff {text : List Char} {chunks : List (List Byte)}
    (hne : ∀ chunk ∈ chunks, chunk ≠ []) (h : chunks.flatten = encode text) :
    (chunks.mapM decode).map List.flatten = some (units text) ↔
      ∀ chunk ∈ chunks, Aligned chunk := by
  constructor
  · intro hdecoded
    obtain ⟨strs, hstrs, -⟩ := Option.map_eq_some_iff.mp hdecoded
    exact aligned_of_mapM hstrs
  · exact mapM_of_aligned hne h

/-! ## 6. Surrogates -/

def highSurrogate (c : JChar) : Bool := 0xD800 ≤ c.toNat && c.toNat < 0xDC00

def lowSurrogate (c : JChar) : Bool := 0xDC00 ≤ c.toNat && c.toNat < 0xE000

/-- There is no unpaired surrogate: behind every high one stands a low one, and only there. -/
def paired : JString → Bool
  | [] => true
  | [c] => !highSurrogate c && !lowSurrogate c
  | c :: d :: rest =>
    if highSurrogate c then lowSurrogate d && paired rest
    else !lowSurrogate c && paired (d :: rest)

theorem highSurrogate_iff {c : JChar} :
    highSurrogate c = true ↔ 0xD800 ≤ c.toNat ∧ c.toNat < 0xDC00 := by
  simp [highSurrogate]

theorem lowSurrogate_iff {c : JChar} :
    lowSurrogate c = true ↔ 0xDC00 ≤ c.toNat ∧ c.toNat < 0xE000 := by
  simp [lowSurrogate]

/-- The character that one code unit stands for; an unpaired surrogate is replaced. -/
def single (c : JChar) : Char := if highSurrogate c || lowSurrogate c then '?' else Char.ofNat c.toNat

/-- The character that two surrogates stand for. -/
def pair (c d : JChar) : Char :=
  Char.ofNat (0x10000 + (c.toNat - 0xD800) * 0x400 + (d.toNat - 0xDC00))

/-- The characters of a string, as an encoder reads them. -/
def chars : JString → List Char
  | [] => []
  | [c] => [single c]
  | c :: d :: rest =>
    if highSurrogate c && lowSurrogate d then pair c d :: chars rest
    else single c :: chars (d :: rest)

theorem toNat_ofNat {n : Nat} (h : Scalar n) : (Char.ofNat n).toNat = n := by
  have hvalid : n.isValidChar := h
  rw [Char.ofNat, dif_pos hvalid]
  rfl

theorem ofNat_eq {c : JChar} {n : Nat} (h : c.toNat = n) : BitVec.ofNat 16 n = c := by
  rw [← h]
  exact BitVec.ofNat_toNat ..

theorem chars_cons {c : JChar} (hhigh : highSurrogate c = false) (hlow : lowSurrogate c = false)
    (rest : JString) : chars (c :: rest) = Char.ofNat c.toNat :: chars rest := by
  cases rest with
  | nil => simp [chars, single, hhigh, hlow]
  | cons d rest => simp [chars, single, hhigh, hlow]

/-- The units of a character are read as one: it is no surrogate, or it is a pair of them. -/
theorem unitsNat_cases {n : Nat} (h : Scalar n) :
    (∃ c : JChar, unitsNat n = [c] ∧ c.toNat = n ∧ highSurrogate c = false ∧
      lowSurrogate c = false) ∨
    ∃ c d : JChar, unitsNat n = [c, d] ∧ highSurrogate c = true ∧ lowSurrogate d = true ∧
      0x10000 + (c.toNat - 0xD800) * 0x400 + (d.toNat - 0xDC00) = n := by
  unfold Scalar at h
  unfold unitsNat
  split
  · rename_i hn
    have hc : (BitVec.ofNat 16 n).toNat = n := (BitVec.toNat_ofNat ..).trans (Nat.mod_eq_of_lt hn)
    refine Or.inl ⟨_, rfl, hc, ?_, ?_⟩
    · rw [Bool.eq_false_iff, ne_eq, highSurrogate_iff, hc]
      omega
    · rw [Bool.eq_false_iff, ne_eq, lowSurrogate_iff, hc]
      omega
  · have hc : (BitVec.ofNat 16 (0xD800 + (n - 0x10000) / 0x400)).toNat
        = 0xD800 + (n - 0x10000) / 0x400 := by
      rw [BitVec.toNat_ofNat]
      omega
    have hd : (BitVec.ofNat 16 (0xDC00 + (n - 0x10000) % 0x400)).toNat
        = 0xDC00 + (n - 0x10000) % 0x400 := by
      rw [BitVec.toNat_ofNat]
      omega
    refine Or.inr ⟨_, _, rfl, ?_, ?_, ?_⟩
    · rw [highSurrogate_iff, hc]
      omega
    · rw [lowSurrogate_iff, hd]
      omega
    · omega

/-- **The characters of the units of a text are the text.** -/
theorem chars_units (text : List Char) : chars (units text) = text := by
  induction text with
  | nil => rfl
  | cons c text ih =>
    rw [units_cons]
    rcases unitsNat_cases (scalar_toNat c) with
      ⟨u, hu, hc, hhigh, hlow⟩ | ⟨u, v, huv, hhigh, hlow, hc⟩
    · rw [hu, List.singleton_append, chars_cons hhigh hlow, ih, hc, Char.ofNat_toNat]
    · simp [huv, chars, hhigh, hlow, ih, pair, hc]

/-- The units of a character that is no surrogate are the one it came from. -/
theorem units_chars_cons {c : JChar} {rest : JString} (hhigh : highSurrogate c = false)
    (hlow : lowSurrogate c = false) (ih : units (chars rest) = rest) :
    units (chars (c :: rest)) = c :: rest := by
  rw [chars_cons hhigh hlow, units_cons, ih]
  rw [Bool.eq_false_iff, ne_eq, highSurrogate_iff] at hhigh
  rw [Bool.eq_false_iff, ne_eq, lowSurrogate_iff] at hlow
  have hc := c.isLt
  rw [toNat_ofNat (by unfold Scalar; omega), unitsNat, if_pos (by omega), ofNat_eq rfl]
  rfl

/-- **A string without an unpaired surrogate is the units of its characters.** -/
theorem units_chars {s : JString} (h : paired s = true) : units (chars s) = s := by
  fun_induction paired s with
  | case1 => rfl
  | case2 c =>
    simp only [Bool.and_eq_true, Bool.not_eq_true'] at h
    exact units_chars_cons h.1 h.2 rfl
  | case3 c d rest hhigh ih =>
    rw [Bool.and_eq_true] at h
    rw [chars, hhigh, h.1, Bool.and_self, if_pos rfl, units_cons, ih h.2, pair]
    have hlow := lowSurrogate_iff.mp h.1
    rw [highSurrogate_iff] at hhigh
    rw [toNat_ofNat (by unfold Scalar; omega), unitsNat, if_neg (by omega),
      ofNat_eq (c := c) (by omega), ofNat_eq (c := d) (by omega)]
    rfl
  | case4 c d rest hhigh ih =>
    simp only [Bool.and_eq_true, Bool.not_eq_true'] at h
    exact units_chars_cons (Bool.eq_false_iff.mpr hhigh) h.1 (ih h.2)

end Utf8
end JavaStudy
