/-
# More of `java.lang.String`: search, substrings, whitespace, case

* `indexOf` and `substring` with their error values: -1, and the exception.
* `split` at runs of whitespace (`"\\s+"`): `splitSpaces_joined` finds the words between gaps, and
  a text that was trimmed is never split into nothing (`splitSpaces_trim_ne_nil`).
* `equalsIgnoreCase`, over the two case tables of `Character`, which are a parameter.  It compares
  the strings folded to one case (`equalsIgnoreCase_iff`).
-/
import JavaStudy.Lib.JavaText

namespace JavaStudy
namespace JavaText

/-! ## 1. `indexOf` and `substring` -/

/-- Where a non-empty string first occurs in another. -/
def firstIndex (str : JString) : JString → Option Nat
  | [] => none
  | c :: s => if str.isPrefixOf (c :: s) then some 0 else (firstIndex str s).map (· + 1)

/-- `s.indexOf(str, fromIndex)` for a non-empty `str`. -/
def indexOf (s str : JString) (fromIndex : Int) : Int :=
  match firstIndex str (s.drop fromIndex.toNat) with
  | some i => fromIndex.toNat + i
  | none => -1

/-- `s.substring(beginIndex, endIndex)`; none for the `StringIndexOutOfBoundsException`. -/
def substring (s : JString) (beginIndex endIndex : Int) : Option JString :=
  if 0 ≤ beginIndex ∧ beginIndex ≤ endIndex ∧ endIndex ≤ s.length then
    some ((s.take endIndex.toNat).drop beginIndex.toNat)
  else none

theorem firstIndex_char {c : JChar} {s : JString} (h : c ∉ s) (rest : JString) :
    firstIndex [c] (s ++ c :: rest) = some s.length := by
  induction s with
  | nil => simp [firstIndex]
  | cons d s ih =>
    rw [List.mem_cons, not_or] at h
    have hd : ¬ c = d := h.1
    simp [firstIndex, hd, ih h.2]

theorem firstIndex_char_none {c : JChar} {s : JString} (h : c ∉ s) : firstIndex [c] s = none := by
  induction s with
  | nil => rfl
  | cons d s ih =>
    rw [List.mem_cons, not_or] at h
    have hd : ¬ c = d := h.1
    simp [firstIndex, hd, ih h.2]

/-- **What `firstIndex` finds is there.** -/
theorem firstIndex_spec {str s : JString} {i : Nat} (h : firstIndex str s = some i) :
    ∃ pre post, s = pre ++ (str ++ post) ∧ pre.length = i := by
  induction s generalizing i with
  | nil => cases h
  | cons c s ih =>
    rw [firstIndex] at h
    split at h
    · rename_i hprefix
      obtain ⟨post, hpost⟩ := List.isPrefixOf_iff_prefix.mp hprefix
      cases h
      exact ⟨[], post, hpost.symm, rfl⟩
    · obtain ⟨j, hj, rfl⟩ := Option.map_eq_some_iff.mp h
      obtain ⟨pre, post, rfl, hlength⟩ := ih hj
      exact ⟨c :: pre, post, rfl, by rw [List.length_cons, hlength]⟩

/-- What is there is found, here or before. -/
theorem firstIndex_isSome {str : JString} (hstr : str ≠ []) (pre post : JString) :
    ∃ i, firstIndex str (pre ++ (str ++ post)) = some i := by
  induction pre with
  | nil =>
    obtain ⟨c, str', rfl⟩ := List.exists_cons_of_ne_nil hstr
    refine ⟨0, ?_⟩
    rw [List.nil_append, List.cons_append, firstIndex, ← List.cons_append,
      if_pos (List.isPrefixOf_iff_prefix.mpr (List.prefix_append _ _))]
  | cons c pre ih =>
    obtain ⟨i, hi⟩ := ih
    rw [List.cons_append, firstIndex, hi]
    split
    · exact ⟨_, rfl⟩
    · exact ⟨_, rfl⟩

/-- `substring` takes the middle out of a text. -/
theorem substring_middle (pre s post : JString) :
    substring (pre ++ s ++ post) pre.length (pre.length + s.length : Nat) = some s := by
  have htake : (pre ++ s ++ post).take (pre.length + s.length) = pre ++ s := by
    rw [← List.length_append, List.take_left]
  unfold substring
  rw [if_pos, Int.toNat_natCast, Int.toNat_natCast, htake, List.drop_left]
  simp only [List.length_append]
  omega

/-! ## 2. Whitespace -/

/-- `\\s`: space, tab, line feed, vertical tab, form feed, carriage return. -/
def space (c : JChar) : Bool := c.toNat == 0x20 || (0x09 ≤ c.toNat && c.toNat ≤ 0x0D)

/-- `s.split("\\s+")`.  A string in front of the first run stays even if it is empty, the ones at
the end do not, and a string without whitespace is returned as it is. -/
def splitSpaces (s : JString) : List JString :=
  if s.any space then
    match s.splitOnP space with
    | [] => []
    | first :: rest => (first :: rest.filter (· ≠ [])).rdropWhile List.isEmpty
  else [s]

theorem blank_of_space {c : JChar} (h : space c = true) : blank c = true := by
  simp only [space, Bool.or_eq_true, beq_iff_eq, Bool.and_eq_true, decide_eq_true_eq] at h
  simp only [blank, decide_eq_true_eq]
  omega

/-- A trimmed text does not begin with a blank. -/
theorem blank_head_trim {s t : JString} {c : JChar} (h : trim s = c :: t) : blank c = false := by
  obtain ⟨rest, hrest⟩ := List.rdropWhile_prefix blank (s.dropWhile blank)
  have hfront : (s.dropWhile blank).head? = some c := by
    rw [← hrest]
    exact congrArg (fun l => (l ++ rest).head?) h
  have hnot := List.head?_dropWhile_not blank s
  rw [hfront] at hnot
  exact hnot

theorem trim_trim (s : JString) : trim (trim s) = trim s := by
  have hfront : (trim s).dropWhile blank = trim s := by
    cases h : trim s with
    | nil => rfl
    | cons c t => rw [List.dropWhile_cons_of_neg (by simp [blank_head_trim h])]
  rw [trim, hfront]
  exact List.rdropWhile_idempotent blank _

/-- A padding of blanks comes off any text. -/
theorem trim_append {pre post : JString} (hpre : ∀ c ∈ pre, blank c = true)
    (hpost : ∀ c ∈ post, blank c = true) (s : JString) : trim (pre ++ s ++ post) = trim s := by
  rw [trim, List.append_assoc, List.dropWhile_append_of_pos hpre, List.dropWhile_append]
  split
  · rename_i hempty
    have hs : s.dropWhile blank = [] := List.isEmpty_iff.mp hempty
    have hpost' : post.dropWhile blank = [] := List.dropWhile_eq_nil_iff.mpr hpost
    rw [hpost', trim, hs]
  · exact rdropWhile_append_of_pos _ hpost

/-- A text between two characters that are no blanks stays as it is. -/
theorem trim_eq_self {s : JString} (hfirst : ∀ c ∈ s.head?, blank c = false)
    (hlast : ∀ c ∈ s.getLast?, blank c = false) : trim s = s := by
  have hfront : s.dropWhile blank = s := by
    cases s with
    | nil => rfl
    | cons c s => rw [List.dropWhile_cons_of_neg (by simp [hfirst c rfl])]
  rw [trim, hfront, List.rdropWhile_eq_self_iff]
  intro hne
  simp [hlast _ (List.getLast?_eq_some_getLast hne)]

theorem space_of_not_blank {c : JChar} (h : blank c = false) : space c = false := by
  by_contra hspace
  rw [blank_of_space (Bool.not_eq_false _ ▸ hspace)] at h
  cases h

/-- A text that was trimmed is not split into nothing. -/
theorem splitSpaces_trim_ne_nil (s : JString) : splitSpaces (trim s) ≠ [] := by
  unfold splitSpaces
  split
  · cases h : trim s with
    | nil =>
      rename_i hany
      rw [h] at hany
      cases hany
    | cons c t =>
      rw [List.splitOnP_cons_eq_if_modifyHead,
        if_neg (by simp [space_of_not_blank (blank_head_trim h)])]
      cases hsplit : t.splitOnP space with
      | nil => exact absurd hsplit (List.splitOnP_ne_nil _ _)
      | cons first rest =>
        rw [List.modifyHead_cons]
        dsimp only
        rw [ne_eq, List.rdropWhile_eq_nil_iff]
        exact fun hall => absurd (hall _ List.mem_cons_self) (by simp)
  · exact List.cons_ne_nil _ _

/-! ## 3. Words between gaps -/

/-- A word: not empty, and without whitespace. -/
structure IsWord (w : JString) : Prop where
  ne_nil : w ≠ []
  space : ∀ c ∈ w, space c = false

/-- A gap between two words. -/
structure IsGap (g : JString) : Prop where
  ne_nil : g ≠ []
  space : ∀ c ∈ g, space c = true

/-- A word, and more words behind gaps. -/
def joined (first : JString) (rest : List (JString × JString)) : JString :=
  first ++ rest.flatMap fun gw => gw.1 ++ gw.2

/-- The strings between whitespace. -/
def words (s : JString) : List JString := (s.splitOnP space).filter (· ≠ [])

theorem joined_cons (first g w : JString) (rest : List (JString × JString)) :
    joined first ((g, w) :: rest) = first ++ (g ++ joined w rest) := by
  simp only [joined, List.flatMap_cons, List.append_assoc]

theorem words_gap {g : JString} (hg : ∀ c ∈ g, space c = true) (s : JString) :
    words (g ++ s) = words s := by
  induction g with
  | nil => rfl
  | cons c g ih =>
    have hnone : ∀ d ∈ ([] : JString), space d = false := nofun
    have hsplit : (c :: (g ++ s)).splitOnP space = [] :: (g ++ s).splitOnP space :=
      List.splitOnP_append_cons_of_forall_mem hnone c (hg c List.mem_cons_self) _
    rw [List.cons_append, words, hsplit, List.filter_cons_of_neg (by simp)]
    exact ih fun d hd => hg d (List.mem_cons_of_mem _ hd)

/-- A word and what comes behind it. -/
theorem splitOnP_word {w g s : JString} (hw : ∀ c ∈ w, space c = false) (hg : IsGap g) :
    ∃ rest, (w ++ (g ++ s)).splitOnP space = w :: rest ∧ rest.filter (· ≠ []) = words s := by
  obtain ⟨c, g', rfl⟩ := List.exists_cons_of_ne_nil hg.ne_nil
  refine ⟨(g' ++ s).splitOnP space, ?_, ?_⟩
  · exact List.splitOnP_append_cons_of_forall_mem hw c (hg.space c List.mem_cons_self) _
  · exact words_gap (fun d hd => hg.space d (List.mem_cons_of_mem _ hd)) s

theorem words_joined {first : JString} {rest : List (JString × JString)} (hfirst : IsWord first)
    (hrest : ∀ gw ∈ rest, IsGap gw.1 ∧ IsWord gw.2) :
    words (joined first rest) = first :: rest.map Prod.snd := by
  induction rest generalizing first with
  | nil =>
    have hone : joined first [] = first := List.append_nil first
    rw [hone, words, List.splitOnP_eq_singleton hfirst.space,
      List.filter_cons_of_pos (by simpa using hfirst.ne_nil)]
    rfl
  | cons gw rest ih =>
    obtain ⟨g, w⟩ := gw
    obtain ⟨hg, hw⟩ := hrest _ List.mem_cons_self
    obtain ⟨pieces, hsplit, hwords⟩ := splitOnP_word (s := joined w rest) hfirst.space hg
    rw [joined_cons, words, hsplit, List.filter_cons_of_pos (by simpa using hfirst.ne_nil), hwords,
      ih hw fun gw hgw => hrest gw (List.mem_cons_of_mem _ hgw)]
    rfl

/-- **Words between gaps are split into the words.** -/
theorem splitSpaces_joined {first : JString} {rest : List (JString × JString)}
    (hfirst : IsWord first) (hrest : ∀ gw ∈ rest, IsGap gw.1 ∧ IsWord gw.2) :
    splitSpaces (joined first rest) = first :: rest.map Prod.snd := by
  cases rest with
  | nil =>
    have hone : joined first [] = first := List.append_nil first
    have hnone : first.any space = false := by simpa using hfirst.space
    rw [hone, splitSpaces, if_neg (by simp [hnone])]
    rfl
  | cons gw rest =>
    obtain ⟨g, w⟩ := gw
    obtain ⟨hg, hw⟩ := hrest _ List.mem_cons_self
    have hrest' : ∀ gw ∈ rest, IsGap gw.1 ∧ IsWord gw.2 :=
      fun gw hgw => hrest gw (List.mem_cons_of_mem _ hgw)
    obtain ⟨pieces, hsplit, hwords⟩ := splitOnP_word (s := joined w rest) hfirst.space hg
    obtain ⟨c, hc⟩ := List.exists_mem_of_ne_nil g hg.ne_nil
    have hany : (first ++ (g ++ joined w rest)).any space = true := by
      rw [List.any_eq_true]
      exact ⟨c, by simp [hc], hg.space c hc⟩
    rw [joined_cons, splitSpaces, if_pos hany, hsplit]
    dsimp only
    rw [hwords, words_joined hw hrest', List.map_cons, List.rdropWhile_eq_self_iff]
    intro hne
    have hnonempty : ∀ x ∈ first :: w :: rest.map Prod.snd, ¬ x.isEmpty = true := by
      intro x hx
      rw [List.isEmpty_iff]
      rcases List.mem_cons.mp hx with rfl | hx
      · exact hfirst.ne_nil
      · rcases List.mem_cons.mp hx with rfl | hx
        · exact hw.ne_nil
        · obtain ⟨gw, hgw, rfl⟩ := List.mem_map.mp hx
          exact (hrest' gw hgw).2.ne_nil
    exact hnonempty _ (List.getLast_mem hne)

/-- A word ends a text of words. -/
theorem exists_getLast?_joined {first : JString} (hfirst : first ≠ [])
    {rest : List (JString × JString)} (hrest : ∀ gw ∈ rest, gw.2 ≠ []) :
    ∃ w ∈ first :: rest.map Prod.snd, (joined first rest).getLast? = w.getLast? := by
  induction rest generalizing first with
  | nil => exact ⟨first, List.mem_cons_self, congrArg List.getLast? (List.append_nil first)⟩
  | cons gw rest ih =>
    obtain ⟨g, w⟩ := gw
    have hw : w ≠ [] := hrest _ List.mem_cons_self
    obtain ⟨v, hv, hlast⟩ := ih hw fun gw hgw => hrest gw (List.mem_cons_of_mem _ hgw)
    have hne : joined w rest ≠ [] := by
      rw [joined]
      exact List.append_ne_nil_of_left_ne_nil hw _
    refine ⟨v, List.mem_cons_of_mem _ hv, ?_⟩
    rw [joined_cons, ← List.append_assoc, List.getLast?_append_of_ne_nil _ hne, hlast]

/-- Words without blanks, behind gaps: there is nothing to trim. -/
theorem trim_joined {first : JString} (hfirst : first ≠ [])
    {rest : List (JString × JString)} (hrest : ∀ gw ∈ rest, gw.2 ≠ [])
    (hblank : ∀ w ∈ first :: rest.map Prod.snd, ∀ c ∈ w, blank c = false) :
    trim (joined first rest) = joined first rest := by
  refine trim_eq_self ?_ ?_
  · intro c hc
    obtain ⟨d, first, rfl⟩ := List.exists_cons_of_ne_nil hfirst
    cases hc
    exact hblank _ List.mem_cons_self c List.mem_cons_self
  · intro c hc
    obtain ⟨w, hw, hlast⟩ := exists_getLast?_joined hfirst hrest
    rw [hlast] at hc
    exact hblank w hw c (List.mem_of_mem_getLast? hc)

/-! ## 4. Case -/

/-- The case tables of `Character`. -/
structure CaseMap where
  toUpperCase : JChar → JChar
  toLowerCase : JChar → JChar

namespace CaseMap

variable (m : CaseMap)

/-- What `equalsIgnoreCase` tries for two characters, one after the other. -/
def equalsChar (c d : JChar) : Bool :=
  c == d || m.toUpperCase c == m.toUpperCase d ||
    m.toLowerCase (m.toUpperCase c) == m.toLowerCase (m.toUpperCase d)

def equalsIgnoreCase (s t : JString) : Bool :=
  s.length == t.length && (s.zip t).all fun cd => m.equalsChar cd.1 cd.2

/-- A character in the one case that all comparisons agree on. -/
def fold (c : JChar) : JChar := m.toLowerCase (m.toUpperCase c)

theorem equalsChar_iff {c d : JChar} :
    m.equalsChar c d = true ↔ m.fold c = m.fold d := by
  simp only [equalsChar, Bool.or_eq_true, beq_iff_eq, fold]
  constructor
  · rintro ((h | h) | h)
    · rw [h]
    · rw [h]
    · exact h
  · exact Or.inr

/-- **`equalsIgnoreCase` compares the folded strings.** -/
theorem equalsIgnoreCase_iff {s t : JString} :
    m.equalsIgnoreCase s t = true ↔ s.map m.fold = t.map m.fold := by
  unfold equalsIgnoreCase
  induction s generalizing t with
  | nil => cases t <;> simp
  | cons c s ih =>
    cases t with
    | nil => simp
    | cons d t =>
      have htail := @ih t
      simp only [Bool.and_eq_true, beq_iff_eq] at htail ⊢
      rw [List.zip_cons_cons, List.all_cons, Bool.and_eq_true, m.equalsChar_iff, List.map_cons,
        List.map_cons, List.cons.injEq, ← htail]
      simp only [List.length_cons, Nat.add_right_cancel_iff]
      tauto

end CaseMap

end JavaText
end JavaStudy
