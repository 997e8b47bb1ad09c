/-
# `synchronized` blocks: many small steps that count as one

Threads run one block each on a shared state, under one lock.  The block is given step by step, so
the schedule is free between any two accesses to the shared state; what the lock gives is that only
its owner is inside.  `Completes` says what is left of the block from each of its places, and then

* `exists_order`: whenever the lock is free, the shared state is what the whole blocks leave, one
  after the other, in some order of the threads that have been inside;
* `exists_finish`: from every state that is reached, all threads can leave, if the block is finite.
-/
import JavaStudy.Lib.Machine

namespace JavaStudy
namespace Synchronized

/-! ## 1. Blocks -/

/-- A block of code, for each thread `i`: a step leads to another place of the block or, with
`none`, out of it. -/
structure Block (ι σ κ : Type) where
  entry : κ
  step : ι → κ → σ → Option κ × σ

inductive Phase (κ : Type) where
  | waiting
  | inside (place : κ)
  | left
  deriving DecidableEq

structure State (ι σ κ : Type) where
  shared : σ
  phase : ι → Phase κ
  owner : Option ι

variable {ι σ κ : Type}

/-- `rest i k` is what the thread `i` still does from the place `k` on. -/
structure Completes (B : Block ι σ κ) (rest : ι → κ → σ → σ) : Prop where
  stay : ∀ i k s k' s', B.step i k s = (some k', s') → rest i k' s' = rest i k s
  leave : ∀ i k s s', B.step i k s = (none, s') → s' = rest i k s

/-- The shared state when the owner of the lock has left. -/
def State.completed (rest : ι → κ → σ → σ) (s : State ι σ κ) : σ :=
  match s.owner with
  | none => s.shared
  | some i =>
    match s.phase i with
    | .inside k => rest i k s.shared
    | _ => s.shared

theorem completed_inside {rest : ι → κ → σ → σ} {s : State ι σ κ} {i : ι} {k : κ}
    (howner : s.owner = some i) (hin : s.phase i = .inside k) :
    s.completed rest = rest i k s.shared := by
  simp only [State.completed, howner, hin]

/-- The blocks of the threads of a list, one after the other. -/
def inOrder (B : Block ι σ κ) (rest : ι → κ → σ → σ) (init : σ) (order : List ι) : σ :=
  order.foldl (fun s i => rest i B.entry s) init

theorem inOrder_concat (B : Block ι σ κ) (rest : ι → κ → σ → σ) (init : σ) (order : List ι) (i : ι) :
    inOrder B rest init (order ++ [i]) = rest i B.entry (inOrder B rest init order) :=
  List.foldl_append ..

/-! ## 2. The lock -/

variable [DecidableEq ι]

/-- The thread `i` takes the lock, makes a step inside, or releases the lock. -/
def step (B : Block ι σ κ) (s : State ι σ κ) (i : ι) : Option (State ι σ κ) :=
  match s.phase i with
  | .waiting =>
    match s.owner with
    | none => some { s with phase := Function.update s.phase i (.inside B.entry), owner := some i }
    | some _ => none
  | .inside k =>
    match B.step i k s.shared with
    | (some k', shared) =>
      some { s with shared := shared, phase := Function.update s.phase i (.inside k') }
    | (none, shared) =>
      some { shared := shared, phase := Function.update s.phase i .left, owner := none }
  | .left => none

def machine (B : Block ι σ κ) (init : σ) : Machine (State ι σ κ) ι where
  init := { shared := init, phase := fun _ => .waiting, owner := none }
  step := step B

/-- What a step can do. -/
theorem step_cases {B : Block ι σ κ} {s t : State ι σ κ} {i : ι} (h : step B s i = some t) :
    (s.phase i = .waiting ∧ s.owner = none ∧
      t = { s with phase := Function.update s.phase i (.inside B.entry), owner := some i }) ∨
    (∃ k k' shared, s.phase i = .inside k ∧ B.step i k s.shared = (some k', shared) ∧
      t = { s with shared := shared, phase := Function.update s.phase i (.inside k') }) ∨
    ∃ k shared, s.phase i = .inside k ∧ B.step i k s.shared = (none, shared) ∧
      t = { shared := shared, phase := Function.update s.phase i .left, owner := none } := by
  unfold step at h
  cases hphase : s.phase i with
  | waiting =>
    cases howner : s.owner with
    | none =>
      simp only [hphase, howner, Option.some.injEq] at h
      exact Or.inl ⟨rfl, rfl, h.symm⟩
    | some j => exact absurd h (by simp [hphase, howner])
  | inside k =>
    rcases hstep : B.step i k s.shared with ⟨_ | k', shared⟩
    · simp only [hphase, hstep, Option.some.injEq] at h
      exact Or.inr (Or.inr ⟨k, shared, rfl, hstep, h.symm⟩)
    · simp only [hphase, hstep, Option.some.injEq] at h
      exact Or.inr (Or.inl ⟨k, k', shared, rfl, hstep, h.symm⟩)
  | left => exact absurd h (by simp [hphase])

theorem update_eq_inside {phase : ι → Phase κ} {i j : ι} {p : Phase κ} {k : κ} :
    Function.update phase i p j = .inside k ↔
      (j = i ∧ p = .inside k) ∨ (j ≠ i ∧ phase j = .inside k) := by
  rw [Function.update_apply]
  by_cases hj : j = i
  · simp [hj]
  · simp [hj]

theorem update_ne_waiting {phase : ι → Phase κ} {i j : ι} {p : Phase κ} (hp : p ≠ .waiting) :
    Function.update phase i p j ≠ .waiting ↔ j = i ∨ phase j ≠ .waiting := by
  rw [Function.update_apply]
  by_cases hj : j = i
  · simp [hj, hp]
  · simp [hj]

/-- The owner of the lock is inside, and nobody else is. -/
def Locked (s : State ι σ κ) : Prop := ∀ i, (∃ k, s.phase i = .inside k) ↔ s.owner = some i

theorem step_locked {B : Block ι σ κ} {s t : State ι σ κ} {i : ι} (hs : Locked s)
    (h : step B s i = some t) : Locked t := by
  intro j
  rcases step_cases h with ⟨hwait, hfree, rfl⟩ | ⟨k, k', shared, hin, -, rfl⟩ |
    ⟨k, shared, hin, -, rfl⟩
  · have hj := hs j
    rw [hfree] at hj
    simp only [update_eq_inside, Option.some.injEq]
    by_cases hji : j = i
    · simp [hji]
    · simpa [hji, Ne.symm hji] using hj
  · have howner : s.owner = some i := (hs i).mp ⟨k, hin⟩
    have hj := hs j
    rw [howner, Option.some.injEq] at hj ⊢
    simp only [update_eq_inside]
    by_cases hji : j = i
    · simp [hji]
    · simpa [hji] using hj
  · have howner : s.owner = some i := (hs i).mp ⟨k, hin⟩
    have hj := hs j
    rw [howner, Option.some.injEq] at hj
    simp only [update_eq_inside]
    by_cases hji : j = i
    · simp [hji]
    · simpa [hji, Ne.symm hji] using hj

theorem locked {B : Block ι σ κ} {init : σ} {s : State ι σ κ} (h : (machine B init).Reachable s) :
    Locked s :=
  Machine.Reachable.induct (I := Locked) (fun _ => by simp [machine])
    (fun _ _ _ _ hs hst => step_locked hs hst) h

/-- **As long as a thread has not left, some thread can go on.** -/
theorem exists_step {B : Block ι σ κ} {init : σ} {s : State ι σ κ}
    (h : (machine B init).Reachable s) {i : ι} (hi : s.phase i ≠ .left) :
    ∃ j t, step B s j = some t := by
  have hinside : ∀ {j k}, s.phase j = .inside k → ∃ t, step B s j = some t := by
    intro j k hj
    rcases hstep : B.step j k s.shared with ⟨_ | k', shared⟩
    · exact ⟨_, by simp only [step, hj, hstep]; rfl⟩
    · exact ⟨_, by simp only [step, hj, hstep]; rfl⟩
  cases howner : s.owner with
  | some j =>
    obtain ⟨k, hk⟩ := (locked h j).mpr howner
    exact ⟨j, hinside hk⟩
  | none =>
    cases hphase : s.phase i with
    | waiting => exact ⟨i, _, by simp only [step, hphase, howner]; rfl⟩
    | inside k => exact ⟨i, hinside hphase⟩
    | left => exact absurd hphase hi

/-! ## 3. The order of the blocks -/

/-- Once the owner has left, the blocks of those who have been inside have been run in some order. -/
def Serial (B : Block ι σ κ) (rest : ι → κ → σ → σ) (init : σ) (s : State ι σ κ) : Prop :=
  ∃ order : List ι, order.Nodup ∧ (∀ i, i ∈ order ↔ s.phase i ≠ .waiting) ∧
    s.completed rest = inOrder B rest init order

theorem step_serial {B : Block ι σ κ} {rest : ι → κ → σ → σ} {init : σ} {s t : State ι σ κ} {i : ι}
    (hB : Completes B rest) (hlock : Locked s) (hs : Serial B rest init s)
    (h : step B s i = some t) : Serial B rest init t := by
  obtain ⟨order, hnodup, hmem, hcompleted⟩ := hs
  have stays : ∀ {p : Phase κ}, p ≠ .waiting → i ∈ order →
      ∀ j, j ∈ order ↔ Function.update s.phase i p j ≠ .waiting := by
    intro p hp hi j
    rw [update_ne_waiting hp, ← hmem j]
    exact (or_iff_right_of_imp fun hj => hj ▸ hi).symm
  rcases step_cases h with ⟨hwait, hfree, rfl⟩ | ⟨k, k', shared, hin, hstep, rfl⟩ |
    ⟨k, shared, hin, hstep, rfl⟩
  · -- the block of `i` counts as run when `i` takes the lock
    have hi : i ∉ order := fun hi => (hmem i).mp hi hwait
    refine ⟨order ++ [i], ?_, fun j => ?_, ?_⟩
    · rw [List.nodup_append]
      refine ⟨hnodup, by simp, fun a ha b hb hab => hi ?_⟩
      rwa [← List.mem_singleton.mp hb, ← hab]
    · rw [List.mem_append, List.mem_singleton, hmem j, or_comm]
      exact (update_ne_waiting (by simp)).symm
    · rw [completed_inside (i := i) (k := B.entry) rfl (Function.update_self ..)]
      have hshared : s.shared = inOrder B rest init order := by
        rw [← hcompleted]
        simp only [State.completed, hfree]
      rw [inOrder_concat, ← hshared]
  · have howner : s.owner = some i := (hlock i).mp ⟨k, hin⟩
    have hi : i ∈ order := (hmem i).mpr (by simp [hin])
    refine ⟨order, hnodup, stays (by simp) hi, ?_⟩
    have hin' : Function.update s.phase i (.inside k') i = .inside k' := Function.update_self ..
    rw [← hcompleted, completed_inside howner hin, ← hB.stay i k s.shared k' shared hstep]
    simp only [State.completed, howner, hin']
  · have howner : s.owner = some i := (hlock i).mp ⟨k, hin⟩
    have hi : i ∈ order := (hmem i).mpr (by simp [hin])
    refine ⟨order, hnodup, stays (by simp) hi, ?_⟩
    rw [← hcompleted, completed_inside howner hin, ← hB.leave i k s.shared shared hstep]
    rfl

/-- **Whenever the lock is free, the shared state is what whole blocks leave in some order.** -/
theorem exists_order {B : Block ι σ κ} {rest : ι → κ → σ → σ} {init : σ} {s : State ι σ κ}
    (hB : Completes B rest) (h : (machine B init).Reachable s) (hfree : s.owner = none) :
    ∃ order : List ι, order.Nodup ∧ (∀ i, i ∈ order ↔ s.phase i ≠ .waiting) ∧
      s.shared = inOrder B rest init order := by
  have hserial : Serial B rest init s := by
    refine Machine.Reachable.induct (I := Serial B rest init) ?_ ?_ h
    · exact ⟨[], List.nodup_nil, fun i => by simp [machine], rfl⟩
    · exact fun s i t hr hs hst => step_serial hB (locked hr) hs hst
  obtain ⟨order, hnodup, hmem, hcompleted⟩ := hserial
  refine ⟨order, hnodup, hmem, ?_⟩
  rw [← hcompleted]
  simp only [State.completed, hfree]

/-! ## 4. The end -/

/-- How many steps a thread has before it, at most; `size` is that for a place of the block. -/
def Phase.steps (entry : κ) (size : κ → Nat) : Phase κ → Nat
  | .waiting => size entry + 2
  | .inside k => size k + 1
  | .left => 0

def State.steps [Fintype ι] (B : Block ι σ κ) (size : κ → Nat) (s : State ι σ κ) : Nat :=
  ∑ i, (s.phase i).steps B.entry size

theorem step_steps [Fintype ι] {B : Block ι σ κ} {size : κ → Nat} {s t : State ι σ κ} {i : ι}
    (hsize : ∀ i k s k' s', B.step i k s = (some k', s') → size k' < size k)
    (h : step B s i = some t) : t.steps B size < s.steps B size := by
  have hsum := Machine.sum_update (Phase.steps B.entry size) s.phase i
  rcases step_cases h with ⟨hwait, -, rfl⟩ | ⟨k, k', shared, hin, hstep, rfl⟩ |
    ⟨k, shared, hin, -, rfl⟩
  · have hmove := hsum (.inside B.entry)
    rw [hwait] at hmove
    simp only [Phase.steps] at hmove
    simp only [State.steps, Phase.steps]
    omega
  · have hless := hsize i k s.shared k' shared hstep
    have hmove := hsum (.inside k')
    rw [hin] at hmove
    simp only [Phase.steps] at hmove
    simp only [State.steps, Phase.steps]
    omega
  · have hmove := hsum .left
    rw [hin] at hmove
    simp only [Phase.steps] at hmove
    simp only [State.steps, Phase.steps]
    omega

/-- **From every state that is reached all threads can leave.** -/
theorem exists_finish [Fintype ι] {B : Block ι σ κ} {init : σ} (size : κ → Nat)
    (hsize : ∀ i k s k' s', B.step i k s = (some k', s') → size k' < size k)
    {s : State ι σ κ} (h : (machine B init).Reachable s) :
    ∃ as t, (machine B init).run s as = some t ∧ ∀ i, t.phase i = .left := by
  induction hn : s.steps B size using Nat.strong_induction_on generalizing s with
  | _ n ih =>
    by_cases hall : ∀ i, s.phase i = .left
    · exact ⟨[], s, rfl, hall⟩
    · obtain ⟨i, hi⟩ := not_forall.mp hall
      obtain ⟨j, t, ht⟩ := exists_step h hi
      obtain ⟨as, u, hu, hleft⟩ := ih (t.steps B size) (hn ▸ step_steps hsize ht) (h.step ht) rfl
      refine ⟨j :: as, u, ?_, hleft⟩
      rw [Machine.run_cons, show (machine B init).step s j = some t from ht]
      exact hu

end Synchronized
end JavaStudy
