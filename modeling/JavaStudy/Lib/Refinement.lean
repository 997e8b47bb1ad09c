/-
# Refinement: what of a run can be seen

A machine refines another one if a map `f` of the states sends each of its steps to one step of the
other, or to none.  `visible` says which: it gives the other machine's label for a step that counts,
and nothing for a step that is not seen from outside.  For a program under a lock that is the taking
of the lock, and the whole call counts there.

* `Refines.run`: the visible labels of a run are a run of the other machine.
* `Refines.run_iff`: the refinement may need a condition on the steps.  If a step that does not meet
  it shows, the refinement holds along a run exactly if all its steps meet the condition.
-/
import JavaStudy.Lib.Machine

namespace JavaStudy
namespace Machine

variable {σ α τ β : Type} {M : Machine σ α} {N : Machine τ β}

/-- `f` sends the steps of `M` that meet `C` to steps of `N` or, where nothing is visible, to
none. -/
structure Refines (M : Machine σ α) (N : Machine τ β) (f : σ → τ) (visible : α → Option β)
    (C : σ → α → Prop) : Prop where
  init : f M.init = N.init
  seen : ∀ s a t b, M.Within C s → C s a → M.step s a = some t → visible a = some b →
    N.step (f s) b = some (f t)
  unseen : ∀ s a t, M.Within C s → C s a → M.step s a = some t → visible a = none → f t = f s

variable {f : σ → τ} {visible : α → Option β} {C : σ → α → Prop}

/-- One more step on both sides. -/
theorem Refines.concat (h : Refines M N f visible C) {as : List α} {s t : σ} {a : α}
    (hs : M.Within C s) (hC : C s a) (hst : M.step s a = some t)
    (hrun : N.run N.init (as.filterMap visible) = some (f s)) :
    N.run N.init ((as ++ [a]).filterMap visible) = some (f t) := by
  rw [List.filterMap_append, run_append, hrun]
  cases hb : visible a with
  | none =>
    rw [List.filterMap_cons_none hb, List.filterMap_nil, h.unseen s a t hs hC hst hb]
    rfl
  | some b =>
    rw [List.filterMap_cons_some hb, List.filterMap_nil]
    simp [run_cons, h.seen s a t b hs hC hst hb]

/-- **The visible labels of a run are a run of the other machine.** -/
theorem Refines.run (h : Refines M N f visible C) {as : List α} {s : σ}
    (hr : M.run M.init as = some s) (hm : M.Meets C M.init as) :
    N.run N.init (as.filterMap visible) = some (f s) := by
  induction as using List.reverseRecOn generalizing s with
  | nil =>
    cases hr
    rw [List.filterMap_nil, run_nil, h.init]
  | append_singleton as a ih =>
    obtain ⟨t, ht, hst⟩ := run_concat_eq_some hr
    obtain ⟨hm', hC⟩ := meets_concat.mp hm
    exact h.concat ⟨as, ht, hm'⟩ (hC t ht) hst (ih ht hm')

/-- At every moment of a run, the visible labels so far lead to the state that `f` shows. -/
def Follows (M : Machine σ α) (N : Machine τ β) (f : σ → τ) (visible : α → Option β)
    (as : List α) : Prop :=
  ∀ bs t, bs <+: as → M.run M.init bs = some t →
    N.run N.init (bs.filterMap visible) = some (f t)

theorem Refines.follows (h : Refines M N f visible C) {as : List α} {s : σ}
    (hr : M.run M.init as = some s) (hm : M.Meets C M.init as) : Follows M N f visible as := by
  rintro bs t ⟨cs, rfl⟩ ht
  refine h.run ht ?_
  clear hr ht
  induction cs using List.reverseRecOn with
  | nil => rwa [List.append_nil] at hm
  | append_singleton cs c ih =>
    rw [← List.append_assoc] at hm
    exact ih (meets_concat.mp hm).1

/-- **Exactness of a refinement.**  If a step that does not meet the condition is not visible and
yet shows, then a run follows the other machine exactly if all its steps meet the condition. -/
theorem Refines.run_iff (h : Refines M N f visible C)
    (hexact : ∀ s a t, M.Within C s → M.step s a = some t → ¬ C s a → visible a = none ∧ f t ≠ f s)
    {as : List α} {s : σ} (hr : M.run M.init as = some s) :
    Follows M N f visible as ↔ M.Meets C M.init as := by
  refine ⟨?_, h.follows hr⟩
  intro hfollows
  induction as using List.reverseRecOn generalizing s with
  | nil => trivial
  | append_singleton as a ih =>
    obtain ⟨t, ht, hst⟩ := run_concat_eq_some hr
    have hm : M.Meets C M.init as :=
      ih ht fun bs u hbs hu => hfollows bs u (hbs.trans (List.prefix_append as [a])) hu
    refine meets_concat.mpr ⟨hm, ?_⟩
    intro u hu
    rw [ht, Option.some.injEq] at hu
    subst hu
    by_contra hC
    obtain ⟨hnone, hshows⟩ := hexact t a s ⟨as, ht, hm⟩ hst hC
    -- the same labels are visible before and after the step
    have hbefore := hfollows as t (List.prefix_append as [a]) ht
    have hafter := hfollows (as ++ [a]) s (List.prefix_refl _) hr
    rw [List.filterMap_append, List.filterMap_cons_none hnone, List.filterMap_nil,
      List.append_nil, hbefore, Option.some.injEq] at hafter
    exact hshows hafter.symm

end Machine
end JavaStudy
