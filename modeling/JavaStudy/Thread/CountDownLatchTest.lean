/-
# `CountDownLatchTest`: a start gate and an end gate

The main thread starts the workers one by one; each waits for `startGate`, runs the task, and
counts `endGate` down in a `finally` block, so also when the task throws.  The main thread samples
the time, opens `startGate`, waits for `endGate` and samples the time again.

The workers and the main thread take their steps in any order.  A task ends in either way, or it is
blocked by something outside for a while (`Act.block`), or it goes on without an end.  No thread is
interrupted.

What carries every proof is `Inv.count`: the count of `endGate` is the number of workers that have
not counted down.  A worker that has not been started is one of them, so it does not matter for the
main thread that the workers are started one by one.
-/
import JavaStudy.Lib.Machine

namespace JavaStudy
namespace CountDownLatchTest

abbrev JLong := BitVec 64

/-! ## 1. The threads -/

/-- Where the main thread stands in `timeTasks`. -/
inductive Main where
  /-- At the head of the loop. -/
  | starting (i : Nat)
  /-- Before the first `System.nanoTime`. -/
  | sampling
  | opening (start : JLong)
  | awaiting (start : JLong)
  /-- Past `endGate.await`. -/
  | samplingEnd (start : JLong)
  | returned (elapsed : JLong)
  deriving DecidableEq

/-- Where a worker stands. -/
inductive Worker where
  | unborn
  | awaiting
  /-- Past `startGate.await`. -/
  | passed
  /-- In `task.run`. -/
  | running (blocked : Bool)
  /-- `task.run` has ended; in the `finally` block. -/
  | leaving (threw : Bool)
  | ended (threw : Bool)
  deriving DecidableEq

structure State (n : Nat) where
  startGate : Nat
  endGate : Nat
  main : Main
  workers : Fin n → Worker

inductive Act (n : Nat) where
  /-- The main thread goes on; it would sample this time. -/
  | main (nanoTime : JLong)
  | worker (i : Fin n)
  /-- `task.run` returns or throws. -/
  | finish (i : Fin n) (threw : Bool)
  | block (i : Fin n)
  | unblock (i : Fin n)
  deriving DecidableEq

variable {n : Nat}

/-- The worker `i` goes on. -/
def State.set (s : State n) (i : Fin n) (worker : Worker) : State n :=
  { s with workers := Function.update s.workers i worker }

def step (s : State n) : Act n → Option (State n)
  | .main nanoTime =>
    match s.main with
    | .starting i =>
      if h : i < n then some { s.set ⟨i, h⟩ .awaiting with main := .starting (i + 1) }
      else some { s with main := .sampling }
    | .sampling => some { s with main := .opening nanoTime }
    | .opening start => some { s with startGate := s.startGate - 1, main := .awaiting start }
    | .awaiting start =>
      if s.endGate = 0 then some { s with main := .samplingEnd start } else none
    | .samplingEnd start => some { s with main := .returned (nanoTime - start) }
    | .returned _ => none
  | .worker i =>
    match s.workers i with
    | .awaiting => if s.startGate = 0 then some (s.set i .passed) else none
    | .passed => some (s.set i (.running false))
    | .leaving threw => some { s.set i (.ended threw) with endGate := s.endGate - 1 }
    | _ => none
  | .finish i threw =>
    if s.workers i = .running false then some (s.set i (.leaving threw)) else none
  | .block i => if s.workers i = .running false then some (s.set i (.running true)) else none
  | .unblock i => if s.workers i = .running true then some (s.set i (.running false)) else none

/-- `timeTasks(n, task)`. -/
def timeTasks (n : Nat) : Machine (State n) (Act n) where
  init := { startGate := 1, endGate := n, main := .starting 0, workers := fun _ => .unborn }
  step := step

/-- The start time is sampled. -/
def Main.sampled : Main → Bool
  | .starting _ | .sampling => false
  | _ => true

/-- `startGate` is counted down. -/
def Main.opened : Main → Bool
  | .awaiting _ | .samplingEnd _ | .returned _ => true
  | _ => false

/-- `endGate.await` has let the main thread through. -/
def Main.past : Main → Bool
  | .samplingEnd _ | .returned _ => true
  | _ => false

/-- `task.run` has begun. -/
def Worker.begun : Worker → Bool
  | .running _ | .leaving _ | .ended _ => true
  | _ => false

/-- `task.run` has returned or thrown. -/
def Worker.finished : Worker → Bool
  | .leaving _ | .ended _ => true
  | _ => false

/-! ## 2. What a step can do -/

inductive Stepped (s : State n) : Act n → State n → Prop where
  | start {i : Nat} {nanoTime : JLong} (hmain : s.main = .starting i) (hi : i < n) :
      Stepped s (.main nanoTime) { s.set ⟨i, hi⟩ .awaiting with main := .starting (i + 1) }
  | started {i : Nat} {nanoTime : JLong} (hmain : s.main = .starting i) (hi : ¬i < n) :
      Stepped s (.main nanoTime) { s with main := .sampling }
  | sample {nanoTime : JLong} (hmain : s.main = .sampling) :
      Stepped s (.main nanoTime) { s with main := .opening nanoTime }
  | openGate {nanoTime start : JLong} (hmain : s.main = .opening start) :
      Stepped s (.main nanoTime) { s with startGate := s.startGate - 1, main := .awaiting start }
  | await {nanoTime start : JLong} (hmain : s.main = .awaiting start) (hgate : s.endGate = 0) :
      Stepped s (.main nanoTime) { s with main := .samplingEnd start }
  | sampleEnd {nanoTime start : JLong} (hmain : s.main = .samplingEnd start) :
      Stepped s (.main nanoTime) { s with main := .returned (nanoTime - start) }
  | pass {i : Fin n} (hi : s.workers i = .awaiting) (hgate : s.startGate = 0) :
      Stepped s (.worker i) (s.set i .passed)
  | run {i : Fin n} (hi : s.workers i = .passed) : Stepped s (.worker i) (s.set i (.running false))
  | countDown {i : Fin n} {threw : Bool} (hi : s.workers i = .leaving threw) :
      Stepped s (.worker i) { s.set i (.ended threw) with endGate := s.endGate - 1 }
  | finish {i : Fin n} {threw : Bool} (hi : s.workers i = .running false) :
      Stepped s (.finish i threw) (s.set i (.leaving threw))
  | block {i : Fin n} (hi : s.workers i = .running false) :
      Stepped s (.block i) (s.set i (.running true))
  | unblock {i : Fin n} (hi : s.workers i = .running true) :
      Stepped s (.unblock i) (s.set i (.running false))

theorem stepped_of_step {s t : State n} {a : Act n} (h : step s a = some t) : Stepped s a t := by
  cases a with
  | main nanoTime =>
    cases hmain : s.main with
    | starting i =>
      by_cases hi : i < n
      · obtain rfl : _ = t := by simpa [step, hmain, hi] using h
        exact .start hmain hi
      · obtain rfl : _ = t := by simpa [step, hmain, hi] using h
        exact .started hmain hi
    | sampling =>
      obtain rfl : _ = t := by simpa [step, hmain] using h
      exact .sample hmain
    | opening start =>
      obtain rfl : _ = t := by simpa [step, hmain] using h
      exact .openGate hmain
    | awaiting start =>
      obtain ⟨hgate, rfl⟩ : s.endGate = 0 ∧ _ = t := by simpa [step, hmain] using h
      exact .await hmain hgate
    | samplingEnd start =>
      obtain rfl : _ = t := by simpa [step, hmain] using h
      exact .sampleEnd hmain
    | returned elapsed => exact absurd h (by simp [step, hmain])
  | worker i =>
    cases hi : s.workers i with
    | awaiting =>
      obtain ⟨hgate, rfl⟩ : s.startGate = 0 ∧ _ = t := by simpa [step, hi] using h
      exact .pass hi hgate
    | passed =>
      obtain rfl : _ = t := by simpa [step, hi] using h
      exact .run hi
    | leaving threw =>
      obtain rfl : _ = t := by simpa [step, hi] using h
      exact .countDown hi
    | _ => exact absurd h (by simp [step, hi])
  | finish i threw =>
    obtain ⟨hi, rfl⟩ : s.workers i = .running false ∧ _ = t := by simpa [step] using h
    exact .finish hi
  | block i =>
    obtain ⟨hi, rfl⟩ : s.workers i = .running false ∧ _ = t := by simpa [step] using h
    exact .block hi
  | unblock i =>
    obtain ⟨hi, rfl⟩ : s.workers i = .running true ∧ _ = t := by simpa [step] using h
    exact .unblock hi

/-! ## 3. The invariant -/

/-- How many workers have been started. -/
def Main.born (n : Nat) : Main → Nat
  | .starting i => i
  | _ => n

/-- `startGate.await` has let the worker through. -/
def Worker.through : Worker → Bool
  | .unborn | .awaiting => false
  | _ => true

/-- What the worker still has to count down. -/
def Worker.pending : Worker → Nat
  | .ended _ => 0
  | _ => 1

structure Inv (s : State n) : Prop where
  loop : s.main.born n ≤ n
  unborn : ∀ i, s.workers i = .unborn ↔ s.main.born n ≤ i
  gate : s.startGate = if s.main.opened then 0 else 1
  through : ∀ i, (s.workers i).through = true → s.startGate = 0
  count : s.endGate = ∑ i, (s.workers i).pending
  past : s.main.past = true → s.endGate = 0

theorem inv_init : Inv (timeTasks n).init where
  loop := Nat.zero_le n
  unborn i := by simp [timeTasks, Main.born]
  gate := rfl
  through i h := by simp [timeTasks, Worker.through] at h
  count := by simp [timeTasks, Worker.pending]
  past h := by simp [timeTasks, Main.past] at h

/-- A worker that goes on without counting down. -/
theorem Inv.set {s : State n} (h : Inv s) {i : Fin n} {w : Worker} (hold : s.workers i ≠ .unborn)
    (hnew : w ≠ .unborn) (hpending : w.pending = (s.workers i).pending)
    (hgate : w.through = true → s.startGate = 0) : Inv (s.set i w) where
  loop := h.loop
  unborn j := by
    simp only [State.set, Function.update_apply]
    by_cases hj : j = i
    · rw [if_pos hj, ← h.unborn j, hj]
      exact iff_of_false hnew hold
    · rw [if_neg hj]
      exact h.unborn j
  gate := h.gate
  through j := by
    simp only [State.set, Function.update_apply]
    by_cases hj : j = i
    · rw [if_pos hj]
      exact hgate
    · rw [if_neg hj]
      exact h.through j
  count := by
    have hsum := Machine.sum_update Worker.pending s.workers i w
    have hcount := h.count
    simp only [State.set]
    omega
  past := h.past

/-- A worker that is through the gate goes on without counting down. -/
theorem Inv.move {s : State n} (h : Inv s) {i : Fin n} {w : Worker}
    (hthrough : (s.workers i).through = true) (hnew : w ≠ .unborn)
    (hpending : w.pending = (s.workers i).pending) : Inv (s.set i w) := by
  have hold : s.workers i ≠ .unborn := by
    intro hunborn
    rw [hunborn] at hthrough
    exact absurd hthrough (by simp [Worker.through])
  exact h.set hold hnew hpending fun _ => h.through i hthrough

/-- **The invariant is kept.** -/
theorem step_inv {s t : State n} {a : Act n} (h : Inv s) (hst : Stepped s a t) : Inv t := by
  cases hst with
  | @start i nanoTime hmain hi =>
    have hborn : s.main.born n = i := by rw [hmain]; rfl
    have hworker : s.workers ⟨i, hi⟩ = .unborn := (h.unborn ⟨i, hi⟩).mpr (le_of_eq hborn)
    refine ⟨hi, fun j => ?_, ?_, fun j => ?_, ?_, nofun⟩
    · have hj := h.unborn j
      rw [hborn] at hj
      simp only [State.set, Function.update_apply, Main.born]
      by_cases hji : j = ⟨i, hi⟩
      · rw [if_pos hji, hji]
        exact iff_of_false nofun (by simp)
      · rw [if_neg hji, hj]
        have hne : j.val ≠ i := fun hval => hji (Fin.ext hval)
        omega
    · have hgate := h.gate
      rw [hmain] at hgate
      exact hgate
    · simp only [State.set, Function.update_apply]
      by_cases hji : j = ⟨i, hi⟩
      · rw [if_pos hji]
        exact nofun
      · rw [if_neg hji]
        exact h.through j
    · have hsum := Machine.sum_update Worker.pending s.workers ⟨i, hi⟩ .awaiting
      have hcount := h.count
      rw [hworker] at hsum
      change _ + 1 = _ + 1 at hsum
      exact hcount.trans (Nat.add_right_cancel hsum).symm
  | @started i nanoTime hmain hi =>
    have hborn : s.main.born n = i := by rw [hmain]; rfl
    have hloop : i = n := by have := h.loop; omega
    refine ⟨le_refl n, fun j => ?_, ?_, h.through, h.count, nofun⟩
    · have hj := h.unborn j
      rwa [hborn, hloop] at hj
    · have hgate := h.gate
      rw [hmain] at hgate
      exact hgate
  | sample hmain =>
    obtain ⟨-, hunborn, hgate, hthrough, hcount, -⟩ := h
    rw [hmain] at hunborn hgate
    exact ⟨le_refl n, hunborn, hgate, hthrough, hcount, nofun⟩
  | openGate hmain =>
    obtain ⟨-, hunborn, hgate, -, hcount, -⟩ := h
    rw [hmain] at hunborn hgate
    have hopen : s.startGate - 1 = 0 := by rw [hgate]; rfl
    exact ⟨le_refl n, hunborn, hopen, fun _ _ => hopen, hcount, nofun⟩
  | await hmain hend =>
    obtain ⟨-, hunborn, hgate, hthrough, hcount, -⟩ := h
    rw [hmain] at hunborn hgate
    exact ⟨le_refl n, hunborn, hgate, hthrough, hcount, fun _ => hend⟩
  | sampleEnd hmain =>
    obtain ⟨-, hunborn, hgate, hthrough, hcount, hpast⟩ := h
    rw [hmain] at hunborn hgate hpast
    exact ⟨le_refl n, hunborn, hgate, hthrough, hcount, fun _ => hpast rfl⟩
  | pass hi hgate => exact h.set (by simp [hi]) nofun (by rw [hi]; rfl) fun _ => hgate
  | run hi => exact h.move (by rw [hi]; rfl) nofun (by rw [hi]; rfl)
  | @countDown i threw hi =>
    have hgate := h.through i (by rw [hi]; rfl)
    have hsum := Machine.sum_update Worker.pending s.workers i (.ended threw)
    rw [hi, ← h.count] at hsum
    change _ + 1 = s.endGate + 0 at hsum
    refine ⟨h.loop, fun j => ?_, h.gate, fun _ _ => hgate, ?_, fun hpast => ?_⟩
    · simp only [State.set, Function.update_apply]
      by_cases hj : j = i
      · rw [if_pos hj, hj, ← h.unborn i, hi]
        exact iff_of_false nofun nofun
      · rw [if_neg hj]
        exact h.unborn j
    · simp only [State.set]
      omega
    · have hzero : s.endGate = 0 := h.past hpast
      simp [hzero]
  | finish hi => exact h.move (by rw [hi]; rfl) nofun (by rw [hi]; rfl)
  | block hi => exact h.move (by rw [hi]; rfl) nofun (by rw [hi]; rfl)
  | unblock hi => exact h.move (by rw [hi]; rfl) nofun (by rw [hi]; rfl)

theorem inv {s : State n} (h : (timeTasks n).Reachable s) : Inv s :=
  Machine.Reachable.induct (I := Inv) inv_init
    (fun _ _ _ _ hs hst => step_inv hs (stepped_of_step hst)) h

/-! ## 4. Safety -/

/-- `task.run` is begun by the worker that is through the gate, and by no other step. -/
theorem passed_of_begun {s t : State n} {a : Act n} (hst : Stepped s a t) {j : Fin n}
    (hold : (s.workers j).begun = false) (hnew : (t.workers j).begun = true) :
    s.workers j = .passed := by
  -- a step of the worker `i` to a place where nothing begins
  have other : ∀ {i : Fin n} {w : Worker}, (w.begun = true → (s.workers i).begun = true) →
      (Function.update s.workers i w j).begun = true → False := by
    intro i w hw hbegun
    rw [Function.update_apply] at hbegun
    by_cases hj : j = i
    · rw [if_pos hj] at hbegun
      rw [hj, hw hbegun] at hold
      exact absurd hold (by simp)
    · rw [if_neg hj, hold] at hbegun
      exact absurd hbegun (by simp)
  cases hst with
  | start hmain hi => exact (other (w := .awaiting) nofun hnew).elim
  | pass hi hgate => exact (other (w := .passed) nofun hnew).elim
  | @run i hi =>
    by_cases hj : j = i
    · rw [hj, hi]
    · have hsame : Function.update s.workers i (.running false) j = s.workers j :=
        Function.update_of_ne hj ..
      have hbegun : (Function.update s.workers i (.running false) j).begun = true := hnew
      rw [hsame, hold] at hbegun
      exact absurd hbegun (by simp)
  | countDown hi => exact (other (fun _ => by rw [hi]; rfl) hnew).elim
  | finish hi => exact (other (fun _ => by rw [hi]; rfl) hnew).elim
  | block hi => exact (other (fun _ => by rw [hi]; rfl) hnew).elim
  | unblock hi => exact (other (fun _ => by rw [hi]; rfl) hnew).elim
  | _ => exact absurd (hold.symm.trans hnew) (by simp)

/-- The gate is open once the main thread has counted it down. -/
theorem opened_of_gate {s : State n} (h : Inv s) (hgate : s.startGate = 0) :
    s.main.sampled = true ∧ s.main.opened = true := by
  have heq := h.gate
  rw [hgate] at heq
  cases hmain : s.main with
  | awaiting start => exact ⟨rfl, rfl⟩
  | samplingEnd start => exact ⟨rfl, rfl⟩
  | returned elapsed => exact ⟨rfl, rfl⟩
  | _ => exact absurd heq (by simp [hmain, Main.opened])

/-- Nothing is left to count down when the count is zero. -/
theorem ended_of_endGate {s : State n} (h : Inv s) (hend : s.endGate = 0) (i : Fin n) :
    ∃ threw, s.workers i = .ended threw := by
  have hsum : ∑ j, (s.workers j).pending = 0 := h.count.symm.trans hend
  have hi : (s.workers i).pending = 0 := Finset.sum_eq_zero_iff.mp hsum i (Finset.mem_univ i)
  cases hworker : s.workers i with
  | ended threw => exact ⟨threw, rfl⟩
  | _ => exact absurd hi (by simp [hworker, Worker.pending])

/-! ## 5. Progress -/

/-- The main thread has returned, and no worker has anything left to do. -/
def State.Over (s : State n) : Prop :=
  (∃ elapsed, s.main = .returned elapsed) ∧ ∀ i, ∃ threw, s.workers i = .ended threw

/-- The step is one of the program, and not one of its surroundings. -/
def Act.own : Act n → Bool
  | .main _ | .worker _ | .finish _ _ => true
  | .block _ | .unblock _ => false

/-- A worker that is started and has not ended can go on when the gate is open. -/
theorem worker_goes_on {s : State n} (hgate : s.startGate = 0) {i : Fin n}
    (hborn : s.workers i ≠ .unborn) (hended : ∀ threw, s.workers i ≠ .ended threw)
    (hblocked : s.workers i ≠ .running true) : ∃ a t, Act.own a = true ∧ step s a = some t := by
  cases hi : s.workers i with
  | unborn => exact absurd hi hborn
  | awaiting => exact ⟨.worker i, s.set i .passed, rfl, by simp [step, hi, hgate]⟩
  | passed => exact ⟨.worker i, s.set i (.running false), rfl, by simp [step, hi]⟩
  | running blocked =>
    cases blocked with
    | false => exact ⟨.finish i false, s.set i (.leaving false), rfl, by simp [step, hi]⟩
    | true => exact absurd hi hblocked
  | leaving threw => exact ⟨.worker i, _, rfl, by simp only [step, hi]; rfl⟩
  | ended threw => exact absurd hi (hended threw)

/-- **Nothing is stuck while no task is blocked.** -/
theorem goes_on {s : State n} (h : Inv s) (hover : ¬s.Over)
    (hblocked : ∀ i, s.workers i ≠ .running true) :
    ∃ a t, Act.own a = true ∧ step s a = some t := by
  cases hmain : s.main with
  | starting i =>
    by_cases hi : i < n
    · exact ⟨.main 0, _, rfl, by simp only [step, hmain, dif_pos hi]; rfl⟩
    · exact ⟨.main 0, _, rfl, by simp only [step, hmain, dif_neg hi]; rfl⟩
  | sampling => exact ⟨.main 0, _, rfl, by simp only [step, hmain]; rfl⟩
  | opening start => exact ⟨.main 0, _, rfl, by simp only [step, hmain]; rfl⟩
  | awaiting start =>
    by_cases hend : s.endGate = 0
    · exact ⟨.main 0, _, rfl, by simp only [step, hmain, if_pos hend]; rfl⟩
    · -- some worker has not counted down, and the gate is open for it
      have hsum : ∑ j, (s.workers j).pending ≠ 0 := fun hzero => hend (h.count.trans hzero)
      obtain ⟨i, -, hi⟩ := Finset.exists_ne_zero_of_sum_ne_zero hsum
      have hgate : s.startGate = 0 := by rw [h.gate, hmain]; rfl
      have hborn : s.workers i ≠ .unborn := by
        rw [ne_eq, h.unborn i, hmain, not_le]
        exact i.isLt
      refine worker_goes_on hgate hborn (fun threw hended => hi ?_) (hblocked i)
      rw [hended]
      rfl
  | samplingEnd start => exact ⟨.main 0, _, rfl, by simp only [step, hmain]; rfl⟩
  | returned elapsed =>
    have hend : s.endGate = 0 := h.past (by rw [hmain]; rfl)
    exact absurd ⟨⟨elapsed, hmain⟩, ended_of_endGate h hend⟩ hover

/-- **`timeTasks`.**  No task begins before the start time is sampled and the gate is open; past
`endGate.await` every task has been run to its end; and nothing is stuck unless a task is. -/
theorem timeTasks_measures_all {s : State n} (h : (timeTasks n).Reachable s) :
    (∀ i a t, step s a = some t → (s.workers i).begun = false → (t.workers i).begun = true →
        s.main.sampled = true ∧ s.main.opened = true ∧ s.startGate = 0) ∧
      (s.main.past = true → ∀ i, (s.workers i).finished = true) ∧
      (¬s.Over → (∀ i, s.workers i ≠ .running true) →
        ∃ a t, Act.own a = true ∧ step s a = some t) := by
  have hinv := inv h
  refine ⟨fun i a t hst hold hnew => ?_, fun hpast i => ?_, goes_on hinv⟩
  · have hpassed := passed_of_begun (stepped_of_step hst) hold hnew
    have hgate : s.startGate = 0 := hinv.through i (by rw [hpassed]; rfl)
    obtain ⟨hsampled, hopened⟩ := opened_of_gate hinv hgate
    exact ⟨hsampled, hopened, hgate⟩
  · obtain ⟨threw, hended⟩ := ended_of_endGate hinv (hinv.past hpast) i
    rw [hended]
    rfl

/-- Two workers, the first of which waits before the second is started, and one of which throws. -/
theorem timeTasks_measures_all_two : ∃ s : State 2, (timeTasks 2).Reachable s ∧
    s.main = .samplingEnd 5 ∧ ∀ i, (s.workers i).finished = true := by
  have hreach : (timeTasks 2).Reachable _ :=
    ⟨[.main 0, .main 0, .main 0, .main 5, .main 6, .worker 1, .worker 0, .worker 1, .worker 0,
      .finish 0 true, .worker 0, .finish 1 false, .worker 1, .main 7], rfl⟩
  exact ⟨_, hreach, rfl, (timeTasks_measures_all hreach).2.1 rfl⟩

end CountDownLatchTest
end JavaStudy
