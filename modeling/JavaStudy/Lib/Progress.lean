/-
# Progress: machines whose runs end, and where they end

An invariant says that nothing wrong happens; this module has the rules for what does happen.
A `measure` that every step makes smaller bounds the length of every run (`length_add_le`); steps
that leave it as it is are counted apart (`DecreasesBut.length_add_le`).  If, in
addition, some step is possible as long as a condition `P` does not hold, every run arrives at `P`
unless it is broken off (`Ends.exists_finish`).  Where only some parties are to move, a rank that
they make smaller leads to `P` by their steps alone (`exists_run`).

The runs may be restricted by a condition `C` on their steps: a program that waits with a timeout is
to arrive without it.  `restrict` builds the restriction into the machine, where the bound needs it:
of any number of parties, these few.
-/
import JavaStudy.Lib.Machine

namespace JavaStudy
namespace Machine

variable {σ α : Type} {M : Machine σ α}

theorem Reachable.run {s t : σ} {as : List α} (h : M.Reachable s) (hr : M.run s as = some t) :
    M.Reachable t := by
  obtain ⟨before, hbefore⟩ := h
  exact ⟨before ++ as, by rw [run_append, hbefore]; exact hr⟩

/-- Some schedule leads from `s` to `t`. -/
def Leads (M : Machine σ α) (s t : σ) : Prop := ∃ as, M.run s as = some t

theorem Leads.refl (s : σ) : M.Leads s s := ⟨[], rfl⟩

theorem Leads.head {s t u : σ} {a : α} (hst : M.step s a = some t) (h : M.Leads t u) :
    M.Leads s u := by
  obtain ⟨as, has⟩ := h
  exact ⟨a :: as, by rw [run_cons, hst]; exact has⟩

theorem Leads.trans {s t u : σ} (h : M.Leads s t) (h' : M.Leads t u) : M.Leads s u := by
  obtain ⟨as, has⟩ := h
  obtain ⟨bs, hbs⟩ := h'
  exact ⟨as ++ bs, by rw [run_append, has]; exact hbs⟩

/-- What every step keeps, holds as far as a schedule leads. -/
theorem Leads.induct {I : σ → Prop} (hs : ∀ s a t, I s → M.step s a = some t → I t) {s t : σ}
    (h : M.Leads s t) (hI : I s) : I t := by
  obtain ⟨as, has⟩ := h
  induction as generalizing s with
  | nil =>
    cases has
    exact hI
  | cons a as ih =>
    obtain ⟨u, hu, hrest⟩ := Option.bind_eq_some_iff.mp has
    exact ih (hs s a u hI hu) hrest

theorem Reachable.leads {s t : σ} (h : M.Reachable s) (hst : M.Leads s t) : M.Reachable t := by
  obtain ⟨as, has⟩ := hst
  exact h.run has

/-- Every step from a reachable state makes the measure smaller. -/
def Decreases (M : Machine σ α) (measure : σ → Nat) : Prop :=
  ∀ s a t, M.Reachable s → M.step s a = some t → measure t < measure s

/-- A run is as long as its measure allows. -/
theorem Decreases.length_add_le {measure : σ → Nat} (h : M.Decreases measure) {s t : σ}
    {as : List α} (hs : M.Reachable s) (hr : M.run s as = some t) :
    as.length + measure t ≤ measure s := by
  induction as generalizing s with
  | nil =>
    cases hr
    simp
  | cons a as ih =>
    obtain ⟨u, hu, hrest⟩ := Option.bind_eq_some_iff.mp hr
    have hless := h s a u hs hu
    have hle := ih (hs.step hu) hrest
    rw [List.length_cons]
    omega

/-- How many steps of a schedule meet `C`, each in the state before it. -/
def count (M : Machine σ α) (C : σ → α → Bool) : σ → List α → Nat
  | _, [] => 0
  | s, a :: as => (C s a).toNat + ((M.step s a).map fun t => M.count C t as).getD 0

/-- Every step from a reachable state makes the measure smaller, but for those that meet `C`, which
make it no greater. -/
def DecreasesBut (M : Machine σ α) (C : σ → α → Bool) (measure : σ → Nat) : Prop :=
  ∀ s a t, M.Reachable s → M.step s a = some t → measure t < measure s + (C s a).toNat

/-- **A run is as long as its measure allows**, and by as many steps longer as meet `C`. -/
theorem DecreasesBut.length_add_le {C : σ → α → Bool} {measure : σ → Nat}
    (h : M.DecreasesBut C measure) {s t : σ} {as : List α} (hs : M.Reachable s)
    (hr : M.run s as = some t) : as.length + measure t ≤ measure s + M.count C s as := by
  induction as generalizing s with
  | nil =>
    cases hr
    simp
  | cons a as ih =>
    obtain ⟨u, hu, hrest⟩ := Option.bind_eq_some_iff.mp hr
    have hless := h s a u hs hu
    have hle := ih (hs.step hu) hrest
    rw [List.length_cons, count, hu, Option.map_some, Option.getD_some]
    omega

/-- **A run that cannot go on for ever gets stuck.** -/
theorem Decreases.exists_stuck {measure : σ → Nat} (h : M.Decreases measure) {s : σ}
    (hs : M.Reachable s) : ∃ t, M.Leads s t ∧ ∀ a, M.step t a = none := by
  induction hm : measure s using Nat.strong_induction_on generalizing s with
  | _ m ih =>
    by_cases hstuck : ∀ a, M.step s a = none
    · exact ⟨s, .refl s, hstuck⟩
    · obtain ⟨a, ha⟩ := not_forall.mp hstuck
      obtain ⟨u, hu⟩ := Option.ne_none_iff_exists'.mp ha
      obtain ⟨t, hut, ht⟩ := ih (measure u) (hm ▸ h s a u hs hu) (hs.step hu) rfl
      exact ⟨t, .head hu hut, ht⟩

/-- **A rank leads to `P`**: whoever has not arrived has a step that meets `C`, keeps `I` and makes
the rank smaller. -/
theorem exists_run {I P : σ → Prop} {C : σ → α → Prop} (rank : σ → Nat)
    (h : ∀ s, I s → ¬P s → ∃ a t, C s a ∧ M.step s a = some t ∧ I t ∧ rank t < rank s) {s : σ}
    (hs : I s) : ∃ as t, M.run s as = some t ∧ M.Meets C s as ∧ I t ∧ P t := by
  induction hn : rank s using Nat.strong_induction_on generalizing s with
  | _ n ih =>
    by_cases hP : P s
    · exact ⟨[], s, rfl, trivial, hs, hP⟩
    · obtain ⟨a, u, ha, hu, hI, hless⟩ := h s hs hP
      obtain ⟨as, t, hrun, hmeets, ht⟩ := ih (rank u) (hn ▸ hless) hI rfl
      refine ⟨a :: as, t, ?_, ⟨ha, ?_⟩, ht⟩
      · rw [run_cons, hu]
        exact hrun
      · intro u' hu'
        rw [hu, Option.some.injEq] at hu'
        exact hu' ▸ hmeets

/-- A schedule that goes through meets a condition on its labels label by label. -/
theorem forall_of_meets {C : α → Prop} {s t : σ} {as : List α} (hr : M.run s as = some t)
    (h : M.Meets (fun _ a => C a) s as) : ∀ a ∈ as, C a := by
  induction as generalizing s with
  | nil => exact fun a ha => absurd ha List.not_mem_nil
  | cons a as ih =>
    obtain ⟨u, hu, hrest⟩ := Option.bind_eq_some_iff.mp hr
    exact List.forall_mem_cons.mpr ⟨h.1, ih hrest (h.2 u hu)⟩

/-- The machine that takes no steps but those that meet `C`. -/
def restrict (M : Machine σ α) (C : σ → α → Prop) [∀ s a, Decidable (C s a)] : Machine σ α where
  init := M.init
  step s a := if C s a then M.step s a else none

theorem restrict_step_eq_some {C : σ → α → Prop} [∀ s a, Decidable (C s a)] {s t : σ} {a : α} :
    (M.restrict C).step s a = some t ↔ C s a ∧ M.step s a = some t :=
  Option.ite_none_right_eq_some

theorem Reachable.of_restrict {C : σ → α → Prop} [∀ s a, Decidable (C s a)] {s : σ}
    (h : (M.restrict C).Reachable s) : M.Reachable s := by
  refine Reachable.simulate (M := M.restrict C) (N := M) id reachable_init ?_ h
  intro s a t _ hst
  exact Or.inr ⟨a, (restrict_step_eq_some.mp hst).2⟩

/-- What a change of one summand does to a sum. -/
theorem sum_of_ne {ι : Type} [DecidableEq ι] {f g : ι → Nat} {S : Finset ι} {i : ι} (hi : i ∈ S)
    (h : ∀ j, j ≠ i → g j = f j) : ∑ j ∈ S, g j + f i = ∑ j ∈ S, f j + g i := by
  have hrest : ∑ j ∈ S.erase i, g j = ∑ j ∈ S.erase i, f j :=
    Finset.sum_congr rfl fun j hj => h j (Finset.ne_of_mem_erase hj)
  rw [← Finset.add_sum_erase S g hi, ← Finset.add_sum_erase S f hi, hrest]
  omega

/-- `sum_update` for a sum over some of the parties. -/
theorem sum_update_mem {ι κ : Type} [DecidableEq ι] (f : κ → Nat) (parties : ι → κ)
    {S : Finset ι} {i : ι} (hi : i ∈ S) (p : κ) :
    ∑ j ∈ S, f (Function.update parties i p j) + f (parties i) = ∑ j ∈ S, f (parties j) + f p := by
  have hi' := sum_of_ne (f := fun j => f (parties j))
    (g := fun j => f (Function.update parties i p j)) hi fun j hj => by
      rw [Function.update_of_ne hj]
  rwa [Function.update_self] at hi'

/-- Every run has at most `bound` steps, and as long as a run whose steps all meet `C` has not
arrived at `P`, some step that meets `C` is possible. -/
structure Ends (M : Machine σ α) (C : σ → α → Prop) (bound : Nat) (P : σ → Prop) : Prop where
  bounded : ∀ as s, M.run M.init as = some s → as.length ≤ bound
  goes_on : ∀ s, M.Within C s → ¬ P s → ∃ a t, C s a ∧ M.step s a = some t

/-- **A run that has not arrived can be completed.** -/
theorem Ends.exists_finish {C : σ → α → Prop} {bound : Nat} {P : σ → Prop} (h : M.Ends C bound P)
    {s : σ} (hs : M.Within C s) : ∃ as t, M.run s as = some t ∧ M.Meets C s as ∧ P t := by
  obtain ⟨before, hbefore, hmeets⟩ := hs
  induction hn : bound - before.length using Nat.strong_induction_on generalizing before s with
  | _ n ih =>
    by_cases hP : P s
    · exact ⟨[], s, rfl, trivial, hP⟩
    · obtain ⟨a, u, ha, hu⟩ := h.goes_on s ⟨before, hbefore, hmeets⟩ hP
      have hrun : M.run M.init (before ++ [a]) = some u := by
        rw [run_concat, hbefore]
        exact hu
      have hmeets' : M.Meets C M.init (before ++ [a]) := by
        refine meets_concat.mpr ⟨hmeets, ?_⟩
        intro t ht
        rw [hbefore, Option.some.injEq] at ht
        exact ht ▸ ha
      have hlength := h.bounded (before ++ [a]) u hrun
      rw [List.length_append, List.length_singleton] at hlength
      obtain ⟨as, t, ht, hmeet, hPt⟩ := ih (bound - (before ++ [a]).length)
        (by rw [List.length_append, List.length_singleton]; omega) (before ++ [a]) hrun hmeets' rfl
      refine ⟨a :: as, t, ?_, ⟨ha, ?_⟩, hPt⟩
      · rw [run_cons, hu]
        exact ht
      · intro u' hu'
        rw [hu, Option.some.injEq] at hu'
        exact hu' ▸ hmeet

end Machine
end JavaStudy
