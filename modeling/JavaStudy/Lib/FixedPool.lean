/-
# A fixed pool of threads behind a FIFO work queue

`FixedPool φ τ` is the executor that `newFixedThreadPool(n)` returns, for tasks that are given as
a `φ` and whose activation on a thread has the local state `τ`.  The queue is first in, first
out, so tasks are taken in the order in which they were submitted.  The model uses that: the
tasks ever submitted are `tasks` (taken, in order) followed by `queue` (not taken yet), and the
NUMBER of a task is its position in that list.  It never changes.

A thread is occupied by a task until the task is over, whatever the task is doing, so
`take` compares the number of occupied threads with the size of the pool.

The quantity a proof conserves is a `weight`: a value for each queued and each taken task, added
up.  A submission adds one summand, a take moves one, and a step of one task changes one
(`weight_submit`, `weight_take`, `weight_setTask`).
-/
import Mathlib.Algebra.BigOperators.Group.List.Basic
import Mathlib.Algebra.Order.BigOperators.Group.List
import Mathlib.Algebra.Order.Group.Nat
import Mathlib.Tactic.Abel

namespace JavaStudy

/-- The tasks of a fixed pool: the taken ones with their activations, the queued ones. -/
structure FixedPool (φ τ : Type) where
  tasks : List τ
  queue : List φ

/-! ## 1. One summand of a sum changes -/

/-- Replacing one entry of a list replaces one summand. -/
theorem sum_map_set {α M : Type} [AddCommMonoid M] (f : α → M) {l : List α} {i : Nat} {a : α}
    (h : l[i]? = some a) (b : α) : ((l.set i b).map f).sum + f a = (l.map f).sum + f b := by
  induction l generalizing i with
  | nil => simp at h
  | cons x l ih =>
    cases i with
    | zero =>
      rw [List.getElem?_cons_zero, Option.some.injEq] at h
      subst h
      simp only [List.set_cons_zero, List.map_cons, List.sum_cons]
      abel
    | succ i =>
      rw [List.getElem?_cons_succ] at h
      simp only [List.set_cons_succ, List.map_cons, List.sum_cons, add_assoc, ih h]

/-- One summand is at most the whole sum. -/
theorem le_sum_map {α : Type} (f : α → Nat) {l : List α} {i : Nat} {a : α}
    (h : l[i]? = some a) : f a ≤ (l.map f).sum :=
  List.le_sum_of_mem (List.mem_map_of_mem (List.mem_of_getElem? h))

namespace FixedPool

variable {φ τ M : Type} [AddCommMonoid M]

/-! ## 2. The operations -/

/-- The pool `newFixedThreadPool` returns. -/
def empty : FixedPool φ τ := ⟨[], []⟩

/-- Hand a task to the pool. -/
def submit (p : FixedPool φ τ) (f : φ) : FixedPool φ τ := { p with queue := p.queue ++ [f] }

/-- The number that the next submitted task gets. -/
def nextNumber (p : FixedPool φ τ) : Nat := p.tasks.length + p.queue.length

/-- How many threads are occupied. -/
def occupied (p : FixedPool φ τ) (busy : τ → Bool) : Nat := p.tasks.countP busy

/-- A free thread takes the head of the queue and enters the task. -/
def take (p : FixedPool φ τ) (busy : τ → Bool) (n : Nat) (enter : φ → τ) :
    Option (FixedPool φ τ) :=
  match p.queue with
  | [] => none
  | f :: rest => if p.occupied busy < n then some ⟨p.tasks ++ [enter f], rest⟩ else none

/-- The local state of task number `i` becomes `t`. -/
def setTask (p : FixedPool φ τ) (i : Nat) (t : τ) : FixedPool φ τ :=
  { p with tasks := p.tasks.set i t }

@[simp] theorem tasks_submit (p : FixedPool φ τ) (f : φ) : (p.submit f).tasks = p.tasks := rfl
@[simp] theorem queue_submit (p : FixedPool φ τ) (f : φ) :
    (p.submit f).queue = p.queue ++ [f] := rfl
@[simp] theorem tasks_setTask (p : FixedPool φ τ) (i : Nat) (t : τ) :
    (p.setTask i t).tasks = p.tasks.set i t := rfl
@[simp] theorem queue_setTask (p : FixedPool φ τ) (i : Nat) (t : τ) :
    (p.setTask i t).queue = p.queue := rfl

/-- **What a take does.** -/
theorem take_eq_some {p q : FixedPool φ τ} {busy : τ → Bool} {n : Nat} {enter : φ → τ}
    (h : p.take busy n enter = some q) :
    ∃ f rest, p.queue = f :: rest ∧ p.occupied busy < n ∧ q = ⟨p.tasks ++ [enter f], rest⟩ := by
  unfold take at h
  split at h
  · exact absurd h (by simp)
  · rename_i f rest hq
    split at h
    · rename_i hlt
      exact ⟨f, rest, hq, hlt, by simpa using h.symm⟩
    · exact absurd h (by simp)

/-- A free thread and a queued task: a take is enabled. -/
theorem take_enabled {p : FixedPool φ τ} {busy : τ → Bool} {n : Nat} {enter : φ → τ}
    (hq : p.queue ≠ []) (hn : p.occupied busy < n) : ∃ q, p.take busy n enter = some q := by
  unfold take
  split
  · exact absurd ‹_› hq
  · rw [if_pos hn]; exact ⟨_, rfl⟩

/-! ## 3. Weights -/

/-- The sum of a value for each queued and each taken task. -/
def weight (p : FixedPool φ τ) (wq : φ → M) (wt : τ → M) : M :=
  (p.tasks.map wt).sum + (p.queue.map wq).sum

@[simp] theorem weight_empty (wq : φ → M) (wt : τ → M) :
    (empty : FixedPool φ τ).weight wq wt = 0 := by
  simp [weight, empty]

theorem weight_submit (p : FixedPool φ τ) (f : φ) (wq : φ → M) (wt : τ → M) :
    (p.submit f).weight wq wt = p.weight wq wt + wq f := by
  simp [weight, submit, add_assoc]

theorem weight_take {p q : FixedPool φ τ} {busy : τ → Bool} {n : Nat} {enter : φ → τ}
    {wq : φ → M} {wt : τ → M} (hw : ∀ f, wt (enter f) = wq f)
    (h : p.take busy n enter = some q) : q.weight wq wt = p.weight wq wt := by
  obtain ⟨f, rest, hq, -, rfl⟩ := take_eq_some h
  simp [weight, hq, hw, add_assoc]

theorem weight_setTask {p : FixedPool φ τ} {i : Nat} {t : τ} (h : p.tasks[i]? = some t)
    (u : τ) (wq : φ → M) (wt : τ → M) :
    (p.setTask i u).weight wq wt + wt t = p.weight wq wt + wt u := by
  simp only [weight, tasks_setTask, queue_setTask]
  rw [add_right_comm, sum_map_set wt h, add_right_comm]

/-- A task's value is at most the weight of the pool. -/
theorem le_weight {p : FixedPool φ τ} {i : Nat} {t : τ} (h : p.tasks[i]? = some t)
    (wq : φ → Nat) (wt : τ → Nat) : wt t ≤ p.weight wq wt :=
  le_trans (le_sum_map wt h) (Nat.le_add_right _ _)

/-- A weight of naturals vanishes exactly if every summand does. -/
theorem weight_eq_zero {p : FixedPool φ τ} {wq : φ → Nat} {wt : τ → Nat} :
    p.weight wq wt = 0 ↔ (∀ t ∈ p.tasks, wt t = 0) ∧ ∀ f ∈ p.queue, wq f = 0 := by
  simp [weight, List.sum_eq_zero_iff]

/-- If the summands vanish, so does the weight, in any monoid. -/
theorem weight_of_zero {p : FixedPool φ τ} {wq : φ → M} {wt : τ → M}
    (ht : ∀ t ∈ p.tasks, wt t = 0) (hf : ∀ f ∈ p.queue, wq f = 0) : p.weight wq wt = 0 := by
  rw [weight, List.sum_eq_zero (by simpa using ht), List.sum_eq_zero (by simpa using hf),
    add_zero]

/-- If every occupied thread's task weighs something, the weight bounds the occupied threads. -/
theorem occupied_le_weight {p : FixedPool φ τ} {busy : τ → Bool} {wt : τ → Nat} (wq : φ → Nat)
    (h : ∀ t ∈ p.tasks, busy t = true → 1 ≤ wt t) : p.occupied busy ≤ p.weight wq wt := by
  refine le_trans ?_ (Nat.le_add_right _ _)
  unfold occupied
  generalize p.tasks = ts at h
  induction ts with
  | nil => exact Nat.le_refl 0
  | cons t ts ih =>
    have ht := h t List.mem_cons_self
    have hts := ih fun u hu => h u (List.mem_cons_of_mem _ hu)
    rw [List.countP_cons, List.map_cons, List.sum_cons]
    split
    · have := ht ‹_›
      omega
    · omega

/-- **A pool with work left can go on**: a task on a thread, or a thread that takes one.  `wt` and
`wq` say what work is, and a task that is over has none. -/
theorem exists_move {p : FixedPool φ τ} {n : Nat} {wq : φ → Nat} {wt : τ → Nat} (busy : τ → Bool)
    (enter : φ → τ) (hn : 1 ≤ n) (hover : ∀ t ∈ p.tasks, busy t = false → wt t = 0)
    (hwork : p.weight wq wt ≠ 0) :
    (∃ (i : Nat) (t : τ), p.tasks[i]? = some t ∧ busy t = true) ∨
      ∃ q, p.take busy n enter = some q := by
  by_cases hbusy : ∃ t ∈ p.tasks, busy t = true
  · obtain ⟨t, ht, hb⟩ := hbusy
    obtain ⟨i, hi⟩ := List.mem_iff_getElem?.mp ht
    exact Or.inl ⟨i, t, hi, hb⟩
  · have hidle : ∀ t ∈ p.tasks, busy t = false := by
      intro t ht
      rw [← Bool.not_eq_true]
      exact fun hb => hbusy ⟨t, ht, hb⟩
    refine Or.inr (take_enabled ?_ ?_)
    · intro hq
      refine hwork (weight_eq_zero.mpr ⟨fun t ht => hover t ht (hidle t ht), ?_⟩)
      intro f hf
      rw [hq] at hf
      exact absurd hf List.not_mem_nil
    · have hzero : p.occupied busy = 0 :=
        List.countP_eq_zero.mpr fun t ht => by simp [hidle t ht]
      omega

/-! ## 4. What was submitted

If the local state of a task remembers the `φ` that it was given, the tasks ever submitted can be
read off the pool, each at its number. -/

/-- The tasks ever submitted, in order. -/
def submitted (p : FixedPool φ τ) (given : τ → φ) : List φ := p.tasks.map given ++ p.queue

theorem length_submitted (p : FixedPool φ τ) (given : τ → φ) :
    (p.submitted given).length = p.nextNumber := by
  simp [submitted, nextNumber]

theorem submitted_submit (p : FixedPool φ τ) (given : τ → φ) (f : φ) :
    (p.submit f).submitted given = p.submitted given ++ [f] := by
  simp [submitted]

theorem submitted_take {p q : FixedPool φ τ} {given : τ → φ} {busy : τ → Bool} {n : Nat}
    {enter : φ → τ} (hg : ∀ f, given (enter f) = f) (h : p.take busy n enter = some q) :
    q.submitted given = p.submitted given := by
  obtain ⟨f, rest, hq, -, rfl⟩ := take_eq_some h
  simp [submitted, hq, hg]

theorem submitted_setTask {p : FixedPool φ τ} {given : τ → φ} {i : Nat} {t u : τ}
    (h : p.tasks[i]? = some t) (hg : given u = given t) :
    (p.setTask i u).submitted given = p.submitted given := by
  obtain ⟨hlt, rfl⟩ := List.getElem?_eq_some_iff.mp h
  have hset : (p.tasks.map given).set i (given p.tasks[i]) = p.tasks.map given := by
    rw [← List.map_set, List.set_getElem_self]
  rw [submitted, tasks_setTask, queue_setTask, List.map_set, hg, hset]
  rfl

/-- A taken task was submitted under its number. -/
theorem submitted_of_task {p : FixedPool φ τ} {given : τ → φ} {i : Nat} {t : τ}
    (h : p.tasks[i]? = some t) : (p.submitted given)[i]? = some (given t) := by
  have hi : (p.tasks.map given)[i]? = some (given t) := by rw [List.getElem?_map, h]; rfl
  rw [submitted, List.getElem?_append_left (List.getElem?_eq_some_iff.mp hi).1, hi]

end FixedPool

end JavaStudy
