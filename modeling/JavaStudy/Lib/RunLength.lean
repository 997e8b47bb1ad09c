/-
# Run lengths: a list in which the runs of one element are replaced by their lengths

A list of tokens stands for the list that it expands to.  It is proper when it is the shortest one
that does: no item is the element whose runs are counted, no run is empty, and no two runs touch.

* `items_eq`: the items are the other elements, in order.
* `length_expand`: items and lengths make up the whole list.
* `existsUnique_run`: **the runs of a proper list are the maximal runs of its expansion**, each at
  its place and each once.
-/
import Mathlib.Algebra.GroupWithZero.Nat
import Mathlib.Data.List.Basic

namespace JavaStudy
namespace RunLength

variable {α : Type}

inductive Token (α : Type) where
  | item (a : α)
  | run (length : Nat)
  deriving DecidableEq

def Token.expand (z : α) : Token α → List α
  | .item a => [a]
  | .run n => List.replicate n z

/-- The list that the tokens stand for. -/
def expand (z : α) (tokens : List (Token α)) : List α := tokens.flatMap (Token.expand z)

def items : List (Token α) → List α
  | [] => []
  | .item a :: tokens => a :: items tokens
  | .run _ :: tokens => items tokens

def lengths : List (Token α) → List Nat
  | [] => []
  | .item _ :: tokens => lengths tokens
  | .run n :: tokens => n :: lengths tokens

/-- How many elements the tokens before the `k`-th one stand for. -/
def place (tokens : List (Token α)) (k : Nat) : Nat :=
  (items (tokens.take k)).length + (lengths (tokens.take k)).sum

def Token.isRun : Token α → Bool
  | .item _ => false
  | .run _ => true

/-- The shortest list of tokens for its expansion. -/
def Proper (z : α) : List (Token α) → Prop
  | [] => True
  | .item a :: tokens => a ≠ z ∧ Proper z tokens
  | .run n :: tokens => 0 < n ∧ (∀ t ∈ tokens.head?, t.isRun = false) ∧ Proper z tokens

/-- `n` elements from the index `i` on are a run that cannot be extended. -/
def MaximalRun (z : α) (s : List α) (i n : Nat) : Prop :=
  ∃ before behind, s = before ++ (List.replicate n z ++ behind) ∧ before.length = i ∧ 0 < n ∧
    before.getLast? ≠ some z ∧ behind.head? ≠ some z

variable {z : α}

@[simp] theorem expand_nil : expand z [] = [] := rfl

@[simp] theorem expand_item (a : α) (tokens : List (Token α)) :
    expand z (.item a :: tokens) = a :: expand z tokens := rfl

@[simp] theorem expand_run (n : Nat) (tokens : List (Token α)) :
    expand z (.run n :: tokens) = List.replicate n z ++ expand z tokens := rfl

theorem expand_append (tokens tokens' : List (Token α)) :
    expand z (tokens ++ tokens') = expand z tokens ++ expand z tokens' :=
  List.flatMap_append

/-- **Items and lengths make up the whole list.** -/
theorem length_expand (tokens : List (Token α)) :
    (expand z tokens).length = (items tokens).length + (lengths tokens).sum := by
  induction tokens with
  | nil => rfl
  | cons token tokens ih =>
    cases token with
    | item a =>
      rw [expand_item, items, lengths, List.length_cons, List.length_cons, ih]
      omega
    | run n =>
      rw [expand_run, items, lengths, List.length_append, List.length_replicate, List.sum_cons, ih]
      omega

theorem length_expand_take (tokens : List (Token α)) (k : Nat) :
    (expand z (tokens.take k)).length = place tokens k :=
  length_expand _

/-- **The items are the other elements, in order.** -/
theorem items_eq [DecidableEq α] {tokens : List (Token α)} (h : Proper z tokens) :
    items tokens = (expand z tokens).filter (· ≠ z) := by
  induction tokens with
  | nil => rfl
  | cons token tokens ih =>
    cases token with
    | item a =>
      rw [items, expand_item, List.filter_cons_of_pos (by simpa using h.1), ih h.2]
    | run n =>
      have hrun : (List.replicate n z).filter (· ≠ z) = [] := by simp
      rw [items, expand_run, List.filter_append, hrun, List.nil_append, ih h.2.2]

/-! ## The maximal runs -/

/-- What follows a run does not begin with another one. -/
theorem head?_expand {tokens : List (Token α)} (h : Proper z tokens)
    (hhead : ∀ t ∈ tokens.head?, t.isRun = false) : (expand z tokens).head? ≠ some z := by
  cases tokens with
  | nil => simp
  | cons token tokens =>
    cases token with
    | item a =>
      rw [expand_item, List.head?_cons, ne_eq, Option.some.injEq]
      exact h.1
    | run n => exact absurd (hhead _ rfl) (by simp [Token.isRun])

/-- A run and what stands around it. -/
theorem Proper.around {before behind : List (Token α)} {n : Nat}
    (h : Proper z (before ++ .run n :: behind)) :
    (expand z before).getLast? ≠ some z ∧ 0 < n ∧ (expand z behind).head? ≠ some z := by
  induction before with
  | nil => exact ⟨by simp, h.1, head?_expand h.2.2 h.2.1⟩
  | cons token before ih =>
    cases token with
    | item a =>
      obtain ⟨hlast, hn, hhead⟩ := ih h.2
      refine ⟨?_, hn, hhead⟩
      rw [expand_item]
      cases hbefore : expand z before with
      | nil =>
        rw [List.getLast?_singleton, ne_eq, Option.some.injEq]
        exact h.1
      | cons b rest =>
        rw [List.getLast?_cons_cons, ← hbefore]
        exact hlast
    | run m =>
      obtain ⟨hlast, hn, hhead⟩ := ih h.2.2
      refine ⟨?_, hn, hhead⟩
      -- between two runs stands an item
      cases before with
      | nil => exact absurd (h.2.1 _ rfl) (by simp [Token.isRun])
      | cons token before =>
        cases token with
        | run k => exact absurd (h.2.1 _ rfl) (by simp [Token.isRun])
        | item a =>
          rw [expand_run, List.getLast?_append_of_ne_nil _ (by simp)]
          exact hlast

/-- A run at the beginning is the first token. -/
theorem replicate_append_inj {m n : Nat} {s t : List α} (hs : s.head? ≠ some z)
    (ht : t.head? ≠ some z) (h : List.replicate m z ++ s = List.replicate n z ++ t) :
    m = n ∧ s = t := by
  induction m generalizing n with
  | zero =>
    cases n with
    | zero => exact ⟨rfl, h⟩
    | succ n =>
      rw [List.replicate_zero, List.nil_append] at h
      exact absurd (by rw [h, List.replicate_succ, List.cons_append, List.head?_cons]) hs
  | succ m ih =>
    cases n with
    | zero =>
      rw [List.replicate_zero, List.nil_append] at h
      exact absurd (by rw [← h, List.replicate_succ, List.cons_append, List.head?_cons]) ht
    | succ n =>
      obtain ⟨hmn, hst⟩ := ih (List.cons.inj h).2
      exact ⟨congrArg Nat.succ hmn, hst⟩

/-- What does not end in `z` reaches beyond a run that it begins with. -/
theorem exists_of_append {m : Nat} {s before rest : List α} (hne : before ≠ [])
    (hlast : before.getLast? ≠ some z) (h : List.replicate m z ++ s = before ++ rest) :
    ∃ before', before = List.replicate m z ++ before' ∧ before' ≠ [] ∧ s = before' ++ rest := by
  -- the last element of `before` would be one of the run's
  have hends : before.getLast hne ∉ List.replicate m z := by
    intro hmem
    have hz := List.eq_of_mem_replicate hmem
    exact hlast (by rw [List.getLast?_eq_some_getLast hne, hz])
  rcases List.append_eq_append_iff.mp h with ⟨before', hbefore, hs⟩ | ⟨t, ht, -⟩
  · refine ⟨before', hbefore, ?_, hs⟩
    rintro rfl
    rw [List.append_nil] at hbefore
    rw [← hbefore] at hends
    exact hends (List.getLast_mem hne)
  · rw [ht] at hends
    exact absurd (List.mem_append_left _ (List.getLast_mem hne)) hends

/-- A maximal run behind an item. -/
theorem MaximalRun.of_item {a : α} {s : List α} {i n : Nat} (ha : a ≠ z)
    (h : MaximalRun z (a :: s) i n) : ∃ j, i = j + 1 ∧ MaximalRun z s j n := by
  obtain ⟨before, behind, heq, rfl, hn, hlast, hhead⟩ := h
  cases before with
  | nil =>
    obtain ⟨n, rfl⟩ := Nat.exists_eq_succ_of_ne_zero (Nat.ne_of_gt hn)
    exact absurd (List.cons.inj heq).1 ha
  | cons b before =>
    refine ⟨before.length, rfl, before, behind, (List.cons.inj heq).2, rfl, hn, ?_, hhead⟩
    cases before with
    | nil => simp
    | cons c before => rwa [List.getLast?_cons_cons] at hlast

/-- A maximal run is the one at the beginning, or behind it. -/
theorem MaximalRun.of_run {m : Nat} {s : List α} {i n : Nat} (hs : s.head? ≠ some z)
    (h : MaximalRun z (List.replicate m z ++ s) i n) :
    i = 0 ∧ n = m ∨ ∃ j, i = m + j ∧ MaximalRun z s j n := by
  obtain ⟨before, behind, heq, rfl, hn, hlast, hhead⟩ := h
  by_cases hne : before = []
  · rw [hne] at heq ⊢
    exact Or.inl ⟨rfl, (replicate_append_inj hs hhead heq).1.symm⟩
  · obtain ⟨before', rfl, hne', hs'⟩ := exists_of_append hne hlast heq
    rw [List.getLast?_append_of_ne_nil _ hne'] at hlast
    refine Or.inr ⟨before'.length, ?_, before', behind, hs', rfl, hn, hlast, hhead⟩
    rw [List.length_append, List.length_replicate]

theorem place_item (a : α) (tokens : List (Token α)) (k : Nat) :
    place (.item a :: tokens) (k + 1) = place tokens k + 1 := by
  simp only [place, List.take_succ_cons, items, lengths, List.length_cons]
  omega

theorem place_run (m : Nat) (tokens : List (Token α)) (k : Nat) :
    place (.run m :: tokens) (k + 1) = m + place tokens k := by
  simp only [place, List.take_succ_cons, items, lengths, List.sum_cons]
  omega

/-- **Every maximal run of the expansion is a token.** -/
theorem exists_run {tokens : List (Token α)} (h : Proper z tokens) {i n : Nat}
    (hrun : MaximalRun z (expand z tokens) i n) :
    ∃ k, tokens[k]? = some (.run n) ∧ place tokens k = i := by
  induction tokens generalizing i with
  | nil =>
    obtain ⟨before, behind, heq, -, hn, -⟩ := hrun
    have hlength := congrArg List.length heq
    simp only [expand_nil, List.length_nil, List.length_append, List.length_replicate] at hlength
    omega
  | cons token tokens ih =>
    cases token with
    | item a =>
      rw [expand_item] at hrun
      obtain ⟨j, rfl, htail⟩ := hrun.of_item h.1
      obtain ⟨k, hk, rfl⟩ := ih h.2 htail
      exact ⟨k + 1, hk, place_item a tokens k⟩
    | run m =>
      rw [expand_run] at hrun
      rcases hrun.of_run (head?_expand h.2.2 h.2.1) with ⟨rfl, rfl⟩ | ⟨j, rfl, htail⟩
      · exact ⟨0, rfl, rfl⟩
      · obtain ⟨k, hk, rfl⟩ := ih h.2.2 htail
        exact ⟨k + 1, hk, place_run m tokens k⟩

/-- **Every run among the tokens is a maximal one.** -/
theorem maximalRun {tokens : List (Token α)} (h : Proper z tokens) {k n : Nat}
    (hk : tokens[k]? = some (.run n)) :
    MaximalRun z (expand z tokens) (place tokens k) n := by
  obtain ⟨hlt, hget⟩ := List.getElem?_eq_some_iff.mp hk
  have hsplit : tokens = tokens.take k ++ .run n :: tokens.drop (k + 1) := by
    rw [← hget, List.getElem_cons_drop, List.take_append_drop]
  rw [hsplit] at h
  obtain ⟨hlast, hn, hhead⟩ := h.around
  refine ⟨_, _, ?_, length_expand_take tokens k, hn, hlast, hhead⟩
  rw [← expand_run, ← expand_append, ← hsplit]

/-- A run is at a place of its own. -/
theorem place_lt {tokens : List (Token α)} (h : Proper z tokens) {j k n : Nat}
    (hj : tokens[j]? = some (.run n)) (hjk : j < k) : place tokens j < place tokens k := by
  obtain ⟨-, -, -, -, hn, -⟩ := maximalRun h hj
  obtain ⟨rest, hrest⟩ : tokens.take (j + 1) <+: tokens.take k := List.take_prefix_take_left hjk
  have hrun : (expand z (some (Token.run n)).toList).length = n := by simp [expand, Token.expand]
  rw [← length_expand_take (z := z), ← length_expand_take (z := z), ← hrest, List.take_add_one, hj,
    expand_append, expand_append, List.length_append, List.length_append, hrun]
  omega

/-- **Each maximal run is one token**, and every run among the tokens is a maximal one. -/
theorem existsUnique_run {tokens : List (Token α)} (h : Proper z tokens) {i n : Nat} :
    MaximalRun z (expand z tokens) i n ↔
      ∃! k, tokens[k]? = some (.run n) ∧ place tokens k = i := by
  constructor
  · intro hrun
    obtain ⟨k, hk, hplace⟩ := exists_run h hrun
    refine ⟨k, ⟨hk, hplace⟩, ?_⟩
    rintro j ⟨hj, hplace'⟩
    rcases Nat.lt_trichotomy j k with hlt | heq | hlt
    · have hne := place_lt h hj hlt
      omega
    · exact heq
    · have hne := place_lt h hk hlt
      omega
  · rintro ⟨k, ⟨hk, rfl⟩, -⟩
    exact maximalRun h hk

/-! ## Lists of something else -/

/-- Runs only depend on which elements are `z`. -/
theorem maximalRun_map {β : Type} {w : β} {f : α → β} (hf : ∀ a, f a = w ↔ a = z) {s : List α}
    {i n : Nat} : MaximalRun w (s.map f) i n ↔ MaximalRun z s i n := by
  have hlast : ∀ a : Option α, a.map f ≠ some w ↔ a ≠ some z := by
    intro a
    cases a with
    | none => simp
    | some a => simp [hf a]
  constructor
  · rintro ⟨before, behind, heq, rfl, hn, hbefore, hbehind⟩
    obtain ⟨s₁, s', rfl, rfl, heq'⟩ := List.map_eq_append_iff.mp heq
    obtain ⟨s₂, s₃, rfl, hrun, rfl⟩ := List.map_eq_append_iff.mp heq'
    rw [List.getLast?_map, hlast] at hbefore
    rw [List.head?_map, hlast] at hbehind
    obtain ⟨hlength, hall⟩ := List.eq_replicate_iff.mp hrun
    rw [List.length_map] at hlength
    have hrun' : s₂ = List.replicate n z :=
      List.eq_replicate_iff.mpr
        ⟨hlength, fun a ha => (hf a).mp (hall (f a) (List.mem_map_of_mem ha))⟩
    exact ⟨s₁, s₃, by rw [hrun'], (List.length_map f).symm, hn, hbefore, hbehind⟩
  · rintro ⟨before, behind, rfl, rfl, hn, hbefore, hbehind⟩
    refine ⟨before.map f, behind.map f, ?_, List.length_map f, hn, ?_, ?_⟩
    · rw [List.map_append, List.map_append, List.map_replicate, (hf z).mpr rfl]
    · rw [List.getLast?_map, hlast]
      exact hbefore
    · rw [List.head?_map, hlast]
      exact hbehind

end RunLength
end JavaStudy
