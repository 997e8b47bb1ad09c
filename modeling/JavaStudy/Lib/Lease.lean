/-
# Leases: resources that are flagged while somebody holds them

A pool keeps a flag for each resource of type `κ`, `true` for available and `none` for a resource
that is not the pool's; each party of type `ι` holds one resource or none.  `Exclusive` is the
discipline of such a pool: the flag is down for exactly the resources that are held, and no two
parties hold the same one.

An acquisition and a release keep the discipline (`Exclusive.acquire`, `Exclusive.release`), each
under the guard that the code of a pool has to establish.

`Governed` is what a lease is good for: the state of a resource is as its holder left it, and a
resource that nobody holds is in order.  A step changes one party, one resource, or a party with
the resource that it holds, and there is a frame rule for each.
-/
import Mathlib.Logic.Function.Basic
import Mathlib.Logic.ExistsUnique
import Mathlib.Combinatorics.Enumerative.DoubleCounting

namespace JavaStudy
namespace Lease

variable {κ ι : Type}

/-- The flag of a resource is down exactly if some party holds it, and then a single one. -/
structure Exclusive (flag : κ → Option Bool) (holds : ι → Option κ) : Prop where
  down_iff : ∀ k, flag k = some false ↔ ∃ i, holds i = some k
  unique : ∀ i j k, holds i = some k → holds j = some k → i = j

/-- Nothing is held and every flag is up. -/
theorem exclusive_of_free {flag : κ → Option Bool} {holds : ι → Option κ}
    (hflag : ∀ k, flag k ≠ some false) (hholds : ∀ i, holds i = none) : Exclusive flag holds where
  down_iff k := by
    constructor
    · exact fun h => absurd h (hflag k)
    · rintro ⟨i, hi⟩
      rw [hholds i] at hi
      cases hi
  unique i j k hi := by
    rw [hholds i] at hi
    cases hi

namespace Exclusive

variable {flag : κ → Option Bool} {holds : ι → Option κ}

/-- **Exactly one holder.** -/
theorem down_iff_existsUnique (h : Exclusive flag holds) (k : κ) :
    flag k = some false ↔ ∃! i, holds i = some k := by
  rw [h.down_iff k]
  constructor
  · rintro ⟨i, hi⟩
    exact ⟨i, hi, fun j hj => h.unique j i k hj hi⟩
  · rintro ⟨i, hi, -⟩
    exact ⟨i, hi⟩

/-- **A pool is empty only if there are as many holders**: resources whose flags are down are no more
than the parties that may hold one. -/
theorem card_le (h : Exclusive flag holds) {resources : Finset κ} {parties : Finset ι}
    (hdown : ∀ k ∈ resources, flag k = some false)
    (hparties : ∀ i k, holds i = some k → i ∈ parties) : resources.card ≤ parties.card := by
  refine Finset.card_le_card_of_forall_subsingleton (fun k i => holds i = some k) ?_ ?_
  · intro k hk
    obtain ⟨i, hi⟩ := (h.down_iff k).mp (hdown k hk)
    exact ⟨i, hparties i k hi, hi⟩
  · intro i _ k hk k' hk'
    exact Option.some.inj (hk.2.symm.trans hk'.2)

variable [DecidableEq κ] [DecidableEq ι]

/-- A party without a resource takes an available one. -/
theorem acquire (h : Exclusive flag holds) {i : ι} {k : κ} (hk : flag k = some true)
    (hi : holds i = none) :
    Exclusive (Function.update flag k (some false)) (Function.update holds i (some k)) := by
  have hfree : ∀ j, holds j ≠ some k := by
    intro j hj
    have hdown := (h.down_iff k).mpr ⟨j, hj⟩
    rw [hk] at hdown
    cases hdown
  refine ⟨?_, ?_⟩
  · intro k'
    by_cases hk' : k' = k
    · subst hk'
      rw [Function.update_self]
      exact ⟨fun _ => ⟨i, Function.update_self ..⟩, fun _ => rfl⟩
    · rw [Function.update_of_ne hk', h.down_iff k']
      constructor
      · rintro ⟨j, hj⟩
        have hji : j ≠ i := by
          rintro rfl
          rw [hi] at hj
          cases hj
        exact ⟨j, by rw [Function.update_of_ne hji]; exact hj⟩
      · rintro ⟨j, hj⟩
        by_cases hji : j = i
        · subst hji
          rw [Function.update_self, Option.some.injEq] at hj
          exact absurd hj.symm hk'
        · rw [Function.update_of_ne hji] at hj
          exact ⟨j, hj⟩
  · intro a b k' ha hb
    -- a resource that two parties held afterwards was `k` for both, or held before
    by_cases hai : a = i <;> by_cases hbi : b = i
    · rw [hai, hbi]
    · subst hai
      rw [Function.update_self, Option.some.injEq] at ha
      rw [Function.update_of_ne hbi, ← ha] at hb
      exact absurd hb (hfree b)
    · subst hbi
      rw [Function.update_self, Option.some.injEq] at hb
      rw [Function.update_of_ne hai, ← hb] at ha
      exact absurd ha (hfree a)
    · rw [Function.update_of_ne hai] at ha
      rw [Function.update_of_ne hbi] at hb
      exact h.unique a b k' ha hb

/-- A party gives up the resource that it holds, which becomes available or leaves the pool. -/
theorem release (h : Exclusive flag holds) {i : ι} {k : κ} (hi : holds i = some k)
    {v : Option Bool} (hv : v ≠ some false) :
    Exclusive (Function.update flag k v) (Function.update holds i none) := by
  have hne : ∀ {j k'}, Function.update holds i none j = some k' → j ≠ i ∧ holds j = some k' := by
    intro j k' hj
    by_cases hji : j = i
    · subst hji
      rw [Function.update_self] at hj
      cases hj
    · rw [Function.update_of_ne hji] at hj
      exact ⟨hji, hj⟩
  refine ⟨?_, fun a b k' ha hb => h.unique a b k' (hne ha).2 (hne hb).2⟩
  intro k'
  by_cases hk' : k' = k
  · subst hk'
    rw [Function.update_self]
    constructor
    · exact fun hflag => absurd hflag hv
    · rintro ⟨j, hj⟩
      obtain ⟨hji, hj⟩ := hne hj
      exact absurd (h.unique j i _ hj hi) hji
  · rw [Function.update_of_ne hk', h.down_iff k']
    constructor
    · rintro ⟨j, hj⟩
      have hji : j ≠ i := by
        rintro rfl
        rw [hi, Option.some.injEq] at hj
        exact hk' hj.symm
      exact ⟨j, by rw [Function.update_of_ne hji]; exact hj⟩
    · rintro ⟨j, hj⟩
      exact ⟨j, (hne hj).2⟩

/-- A party hands the resource that it holds over to a party without one. -/
theorem transfer (h : Exclusive flag holds) {i j : ι} {k : κ} (hi : holds i = some k)
    (hj : holds j = none) :
    Exclusive flag (Function.update (Function.update holds i none) j (some k)) := by
  have hdown : flag k = some false := (h.down_iff k).mpr ⟨i, hi⟩
  have hj' : Function.update holds i none j = none := by
    rw [Function.update_apply, hj, ite_self]
  -- the flag goes up for a moment
  have hup := h.release hi (v := some true) (by decide)
  have hnew := hup.acquire (Function.update_self ..) hj'
  rwa [Function.update_idem, ← hdown, Function.update_eq_self] at hnew

omit [DecidableEq ι] in
/-- A new resource comes into the pool. -/
theorem add (h : Exclusive flag holds) {k : κ} (hk : flag k = none) :
    Exclusive (Function.update flag k (some true)) holds := by
  refine ⟨?_, h.unique⟩
  intro k'
  by_cases hk' : k' = k
  · subst hk'
    rw [Function.update_self, ← h.down_iff k', hk]
    simp
  · rw [Function.update_of_ne hk', h.down_iff k']

end Exclusive

/-! ## What the holder of a resource answers for -/

/-- `hold` reads off a party what it holds.  A resource that nobody holds is `idle`, and the others
are as their holders need them. -/
structure Governed {P R : Type} (hold : P → Option κ) (idle : R → Prop) (held : ι → P → R → Prop)
    (party : ι → P) (res : κ → R) : Prop where
  free : ∀ k, (∀ i, hold (party i) ≠ some k) → idle (res k)
  held : ∀ i k, hold (party i) = some k → held i (party i) (res k)

namespace Governed

variable [DecidableEq κ] [DecidableEq ι] {P R : Type} {hold : P → Option κ} {idle : R → Prop}
  {held : ι → P → R → Prop} {party : ι → P} {res : κ → R}

omit [DecidableEq κ] in
/-- One party changes.  It may take a resource only if that fits it, and let one go only if that is
idle. -/
theorem setParty (h : Governed hold idle held party res) {i : ι} {p : P}
    (hheld : ∀ k, hold p = some k → held i p (res k))
    (hreleased : ∀ k, hold (party i) = some k → hold p ≠ some k → idle (res k)) :
    Governed hold idle held (Function.update party i p) res where
  free k hk := by
    by_cases hfree : ∀ j, hold (party j) ≠ some k
    · exact h.free k hfree
    · obtain ⟨j, hj⟩ := not_forall_not.mp hfree
      have hnot := hk j
      by_cases hji : j = i
      · subst hji
        rw [Function.update_self] at hnot
        exact hreleased k hj hnot
      · rw [Function.update_of_ne hji] at hnot
        exact absurd hj hnot
  held j k hj := by
    by_cases hji : j = i
    · subst hji
      rw [Function.update_self] at hj ⊢
      exact hheld k hj
    · rw [Function.update_of_ne hji] at hj ⊢
      exact h.held j k hj

omit [DecidableEq ι] in
/-- One resource changes by itself. -/
theorem setRes (h : Governed hold idle held party res) {k : κ} {r : R}
    (hidle : idle (res k) → idle r)
    (hheld : ∀ i, hold (party i) = some k → held i (party i) (res k) → held i (party i) r) :
    Governed hold idle held party (Function.update res k r) where
  free k' hk' := by
    have hold' := h.free k' hk'
    by_cases hkk : k' = k
    · subst hkk
      rw [Function.update_self]
      exact hidle hold'
    · rw [Function.update_of_ne hkk]
      exact hold'
  held i k' hi := by
    have hold' := h.held i k' hi
    by_cases hkk : k' = k
    · subst hkk
      rw [Function.update_self]
      exact hheld i hi hold'
    · rw [Function.update_of_ne hkk]
      exact hold'

/-- **A party changes together with the resource that it holds**: it keeps it or gives it up. -/
theorem setBoth (h : Governed hold idle held party res)
    (hunique : ∀ i j k, hold (party i) = some k → hold (party j) = some k → i = j) {i : ι} {k : κ}
    (hi : hold (party i) = some k) {p : P} {r : R}
    (hnew : (hold p = some k ∧ held i p r) ∨ (hold p = none ∧ idle r)) :
    Governed hold idle held (Function.update party i p) (Function.update res k r) where
  free k' hk' := by
    by_cases hkk : k' = k
    · subst hkk
      rw [Function.update_self]
      rcases hnew with ⟨hp, -⟩ | ⟨-, hr⟩
      · exact absurd hp (by simpa using hk' i)
      · exact hr
    · rw [Function.update_of_ne hkk]
      refine h.free k' ?_
      intro j hj
      have hnot := hk' j
      by_cases hji : j = i
      · subst hji
        rw [hi, Option.some.injEq] at hj
        exact hkk hj.symm
      · rw [Function.update_of_ne hji] at hnot
        exact hnot hj
  held j k' hj := by
    by_cases hji : j = i
    · subst hji
      rw [Function.update_self] at hj ⊢
      rcases hnew with ⟨hp, hr⟩ | ⟨hp, -⟩
      · rw [hp, Option.some.injEq] at hj
        subst hj
        rw [Function.update_self]
        exact hr
      · rw [hp] at hj
        cases hj
    · rw [Function.update_of_ne hji] at hj ⊢
      have hkk : k' ≠ k := by
        rintro rfl
        exact hji (hunique j i k' hj hi)
      rw [Function.update_of_ne hkk]
      exact h.held j k' hj

end Governed

end Lease
end JavaStudy
