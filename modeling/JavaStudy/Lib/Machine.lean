/-
# Step machines: runs, reachable states, and the invariant rules

Every concurrent program of this development is a `Machine`: one initial state and a partial
step function that takes the LABEL of the step.  All nondeterminism sits in the labels (which
thread moves, how many bytes a transfer accepts, whether a wait times out), so a schedule is a
list of labels, `run` executes it, and a concrete schedule can be evaluated.

The rules below package the inductions once.

* `Reachable.induct`: an invariant of the initial state and of every step holds in every
  reachable state.
* `Within.induct`: the same along runs whose steps all meet a side condition on the state and
  the label; it is the rule for a property that needs its schedules restricted.
* `iff_meets`: a property that is lost for good by a step that does not meet a condition.
* `Reachable.simulate`: a state map that sends each step to a step or to a stutter carries
  reachability over, so the invariants of an abstract machine pull back.
* `sum_update`: a sum over all parties when one of them moves, for invariants that count and for
  measures.
-/
import Mathlib.Algebra.BigOperators.Group.Finset.Basic
import Mathlib.Data.Fintype.BigOperators
import Mathlib.Data.List.Induction

namespace JavaStudy

/-- A labelled step machine.  `step s a = none` says that the step `a` is not enabled in `s`. -/
structure Machine (σ α : Type) where
  init : σ
  step : σ → α → Option σ

namespace Machine

variable {σ α τ β : Type} {M : Machine σ α}

/-! ## 1. Runs -/

/-- Execute a schedule from `s`; `none` as soon as one of its steps is not enabled. -/
def run (M : Machine σ α) : σ → List α → Option σ
  | s, [] => some s
  | s, a :: as => (M.step s a).bind fun t => M.run t as

@[simp] theorem run_nil (s : σ) : M.run s [] = some s := rfl

theorem run_cons (s : σ) (a : α) (as : List α) :
    M.run s (a :: as) = (M.step s a).bind fun t => M.run t as := rfl

theorem run_append (s : σ) (as bs : List α) :
    M.run s (as ++ bs) = (M.run s as).bind fun t => M.run t bs := by
  induction as generalizing s with
  | nil => rfl
  | cons a as ih =>
    rw [List.cons_append, run_cons, run_cons]
    cases M.step s a with
    | none => rfl
    | some t => exact ih t

theorem run_concat (s : σ) (as : List α) (a : α) :
    M.run s (as ++ [a]) = (M.run s as).bind fun t => M.step t a := by
  rw [run_append]
  cases M.run s as with
  | none => rfl
  | some t => cases h : M.step t a <;> simp [run_cons, h]

/-- A run that ends with a step splits before it. -/
theorem run_concat_eq_some {s u : σ} {as : List α} {a : α} (h : M.run s (as ++ [a]) = some u) :
    ∃ t, M.run s as = some t ∧ M.step t a = some u := by
  rw [run_concat] at h
  cases hr : M.run s as with
  | none => rw [hr] at h; simp at h
  | some t => rw [hr] at h; exact ⟨t, rfl, h⟩

/-! ## 2. Reachable states -/

/-- Some schedule leads from the initial state to `s`. -/
def Reachable (M : Machine σ α) (s : σ) : Prop := ∃ as, M.run M.init as = some s

theorem reachable_init : M.Reachable M.init := ⟨[], rfl⟩

theorem Reachable.step {s t : σ} {a : α} (h : M.Reachable s) (hst : M.step s a = some t) :
    M.Reachable t := by
  obtain ⟨as, has⟩ := h
  exact ⟨as ++ [a], by rw [run_concat, has]; exact hst⟩

/-- **The invariant rule.**  The step case may use that the state before the step is itself
reachable. -/
theorem Reachable.induct {I : σ → Prop} (h0 : I M.init)
    (hs : ∀ s a t, M.Reachable s → I s → M.step s a = some t → I t)
    {s : σ} (h : M.Reachable s) : I s := by
  obtain ⟨as, has⟩ := h
  induction as using List.reverseRecOn generalizing s with
  | nil => rw [run_nil, Option.some.injEq] at has; exact has ▸ h0
  | append_singleton as a ih =>
    obtain ⟨t, ht, hst⟩ := run_concat_eq_some has
    exact hs t a s ⟨as, ht⟩ (ih ht) hst

/-! ## 3. Runs under a condition on their steps -/

/-- Every step of the schedule meets `C`, a condition on the label and the state before. -/
def Meets (M : Machine σ α) (C : σ → α → Prop) : σ → List α → Prop
  | _, [] => True
  | s, a :: as => C s a ∧ ∀ t, M.step s a = some t → M.Meets C t as

/-- `s` is reached by a run whose steps all meet `C`. -/
def Within (M : Machine σ α) (C : σ → α → Prop) (s : σ) : Prop :=
  ∃ as, M.run M.init as = some s ∧ M.Meets C M.init as

theorem meets_concat {C : σ → α → Prop} {s : σ} {as : List α} {a : α} :
    M.Meets C s (as ++ [a]) ↔
      M.Meets C s as ∧ ∀ t, M.run s as = some t → C t a := by
  induction as generalizing s with
  | nil => simp [Meets]
  | cons b as ih =>
    rw [List.cons_append]
    simp only [Meets, run_cons, ih]
    constructor
    · rintro ⟨hb, h⟩
      refine ⟨⟨hb, fun t ht => (h t ht).1⟩, ?_⟩
      intro u hu
      obtain ⟨t, ht, hu⟩ := Option.bind_eq_some_iff.mp hu
      exact (h t ht).2 u hu
    · rintro ⟨⟨hb, h⟩, hlast⟩
      refine ⟨hb, fun t ht => ⟨h t ht, fun u hu => hlast u ?_⟩⟩
      rw [ht]
      exact hu

/-- A condition that every label of the schedule meets in any state. -/
theorem meets_of_forall {C : σ → α → Prop} {as : List α} (h : ∀ a ∈ as, ∀ s, C s a) (s : σ) :
    M.Meets C s as := by
  induction as generalizing s with
  | nil => trivial
  | cons a as ih =>
    exact ⟨h a List.mem_cons_self s, fun t _ => ih (fun b hb => h b (List.mem_cons_of_mem _ hb)) t⟩

instance decidableMeets {C : σ → α → Prop} [∀ s a, Decidable (C s a)] :
    ∀ (as : List α) (s : σ), Decidable (M.Meets C s as)
  | [], _ => .isTrue trivial
  | a :: as, s =>
    match h : M.step s a with
    | none => decidable_of_iff (C s a) (by simp [Meets, h])
    | some t =>
      have : Decidable (M.Meets C t as) := decidableMeets as t
      decidable_of_iff (C s a ∧ M.Meets C t as) (by simp [Meets, h])

/-- `P` holds in every state that the schedule passes through. -/
def Along (M : Machine σ α) (P : σ → Prop) : σ → List α → Prop
  | s, [] => P s
  | s, a :: as => P s ∧ ∀ t, M.step s a = some t → M.Along P t as

theorem along_concat {P : σ → Prop} {s : σ} {as : List α} {a : α} :
    M.Along P s (as ++ [a]) ↔ M.Along P s as ∧ ∀ t, M.run s (as ++ [a]) = some t → P t := by
  induction as generalizing s with
  | nil => simp [Along, run_cons]
  | cons b as ih =>
    rw [List.cons_append]
    simp only [Along, run_cons, ih]
    constructor
    · rintro ⟨hs, h⟩
      refine ⟨⟨hs, fun t ht => (h t ht).1⟩, ?_⟩
      intro u hu
      obtain ⟨t, ht, hu⟩ := Option.bind_eq_some_iff.mp hu
      exact (h t ht).2 u hu
    · rintro ⟨⟨hs, h⟩, hlast⟩
      refine ⟨hs, fun t ht => ⟨h t ht, fun u hu => hlast u ?_⟩⟩
      rw [ht]
      exact hu

theorem Along.last {P : σ → Prop} {s t : σ} {as : List α} (h : M.Along P s as)
    (hr : M.run s as = some t) : P t := by
  induction as generalizing s with
  | nil => cases hr; exact h
  | cons a as ih =>
    obtain ⟨u, hu, hr⟩ := Option.bind_eq_some_iff.mp hr
    exact ih (h.2 u hu) hr

/-- **Exactness of a step condition.**  If, from a reachable state with `P`, a step keeps `P`
exactly when it meets `C`, then a run keeps `P` throughout exactly when all its steps meet
`C`. -/
theorem along_iff_meets {P : σ → Prop} {C : σ → α → Prop} (h0 : P M.init)
    (hs : ∀ s a t, M.Reachable s → P s → M.step s a = some t → (P t ↔ C s a))
    {as : List α} {s : σ} (h : M.run M.init as = some s) :
    M.Along P M.init as ↔ M.Meets C M.init as := by
  induction as using List.reverseRecOn generalizing s with
  | nil => exact ⟨fun _ => trivial, fun _ => h0⟩
  | append_singleton as a ih =>
    obtain ⟨t, ht, hst⟩ := run_concat_eq_some h
    rw [along_concat, meets_concat, ← ih ht]
    refine and_congr_right ?_
    intro hP
    have hstep := hs t a s ⟨as, ht⟩ (hP.last ht) hst
    constructor
    · intro hlast u hu
      rw [ht, Option.some.injEq] at hu
      exact hu ▸ hstep.mp (hlast s h)
    · intro hC u hu
      rw [h, Option.some.injEq] at hu
      exact hu ▸ hstep.mpr (hC t ht)

/-- **Exactness for what cannot be made good.**  If a step leads to `P` exactly when there was `P`
before it and it meets `C`, then a run ends with `P` exactly when all its steps meet `C`. -/
theorem iff_meets {P : σ → Prop} {C : σ → α → Prop} (h0 : P M.init)
    (hs : ∀ s a t, M.Reachable s → M.step s a = some t → (P t ↔ P s ∧ C s a))
    {as : List α} {s : σ} (h : M.run M.init as = some s) : P s ↔ M.Meets C M.init as := by
  induction as using List.reverseRecOn generalizing s with
  | nil =>
    cases h
    exact ⟨fun _ => trivial, fun _ => h0⟩
  | append_singleton as a ih =>
    obtain ⟨t, ht, hst⟩ := run_concat_eq_some h
    rw [meets_concat, hs t a s ⟨as, ht⟩ hst, ih ht]
    refine and_congr_right ?_
    intro _
    constructor
    · intro hC u hu
      rw [ht, Option.some.injEq] at hu
      exact hu ▸ hC
    · exact fun hC => hC t ht

theorem Within.reachable {C : σ → α → Prop} {s : σ} (h : M.Within C s) : M.Reachable s :=
  h.imp fun _ hr => hr.1

theorem Within.step {C : σ → α → Prop} {s t : σ} {a : α} (h : M.Within C s) (ha : C s a)
    (hst : M.step s a = some t) : M.Within C t := by
  obtain ⟨as, has, hm⟩ := h
  refine ⟨as ++ [a], by rw [run_concat, has]; exact hst, meets_concat.mpr ⟨hm, ?_⟩⟩
  intro u hu
  rw [has, Option.some.injEq] at hu
  exact hu ▸ ha

/-- **The invariant rule under a step condition.** -/
theorem Within.induct {C : σ → α → Prop} {I : σ → Prop} (h0 : I M.init)
    (hs : ∀ s a t, M.Reachable s → I s → C s a → M.step s a = some t → I t)
    {s : σ} (h : M.Within C s) : I s := by
  obtain ⟨as, has, hm⟩ := h
  induction as using List.reverseRecOn generalizing s with
  | nil => rw [run_nil, Option.some.injEq] at has; exact has ▸ h0
  | append_singleton as a ih =>
    obtain ⟨t, ht, hst⟩ := run_concat_eq_some has
    obtain ⟨hm', hC⟩ := meets_concat.mp hm
    exact hs t a s ⟨as, ht⟩ (ih ht hm') (hC t ht) hst

/-! ## 4. Simulation -/

/-- **Simulation.**  If `f` sends the initial state to a reachable one and each step either to
a step or to a stutter, it sends reachable states to reachable states. -/
theorem Reachable.simulate {N : Machine τ β} (f : σ → τ) (h0 : N.Reachable (f M.init))
    (hs : ∀ s a t, M.Reachable s → M.step s a = some t →
      f t = f s ∨ ∃ b, N.step (f s) b = some (f t))
    {s : σ} (h : M.Reachable s) : N.Reachable (f s) := by
  refine Reachable.induct (I := fun s => N.Reachable (f s)) h0 ?_ h
  intro s a t hr ih hst
  rcases hs s a t hr hst with heq | ⟨b, hb⟩
  · rw [heq]; exact ih
  · exact ih.step hb

/-! ## 5. Sums over the parties -/

/-- What the move of one party does to a sum over all of them. -/
theorem sum_update {ι κ : Type} [Fintype ι] [DecidableEq ι] (f : κ → Nat) (parties : ι → κ) (i : ι)
    (p : κ) : ∑ j, f (Function.update parties i p j) + f (parties i) = ∑ j, f (parties j) + f p := by
  have hcomp : (fun j => f (Function.update parties i p j)) =
      Function.update (fun j => f (parties j)) i (f p) := Function.comp_update f parties i p
  rw [hcomp, Finset.sum_update_of_mem (Finset.mem_univ i),
    ← Finset.add_sum_erase Finset.univ _ (Finset.mem_univ i), Finset.sdiff_singleton_eq_erase]
  omega

end Machine

end JavaStudy
