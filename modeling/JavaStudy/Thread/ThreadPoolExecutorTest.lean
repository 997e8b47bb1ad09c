/-
# `ThreadPoolExecutorTest`: tasks for a pool with a bounded queue

`executorTasks` hands over its tasks one by one.  The executor starts a thread for a task while it
has fewer than `corePoolSize`, then it queues, and only when the queue is full it starts more
threads, up to `maximumPoolSize`; then it throws.  `execute` looks three times, and the threads of
the pool go on in between; a thread beyond the core may give up while it waits for a task.  The
main thread then waits until all tasks have counted down.

* `never_rejected_iff`: in no run `execute` throws, exactly if there are at most as many tasks as
  the largest pool and the queue hold together.
* `shuts_down`: then every run ends, and goes on until the main thread has shut the pool down; by
  then each task has run exactly once.

The core has at least one thread, as the one of the program has; so the queue is never left alone.
-/
import JavaStudy.Lib.FixedPool
import JavaStudy.Lib.Progress
import Mathlib.Data.List.Perm.Basic

namespace JavaStudy
namespace ThreadPoolExecutorTest

/-! ## 1. The program -/

structure ThreadPoolExecutor where
  corePoolSize : Nat
  maximumPoolSize : Nat
  /-- The capacity of the `ArrayBlockingQueue`. -/
  capacity : Nat
  core_pos : 0 < corePoolSize
  core_le : corePoolSize ≤ maximumPoolSize

def TASK_NUM : Nat := 6

/-- The pool of `main`. -/
def threadPoolExecutor : ThreadPoolExecutor where
  corePoolSize := 10
  maximumPoolSize := 30
  capacity := 5
  core_pos := by decide
  core_le := by decide

/-- A thread of the pool. -/
inductive Worker where
  /-- In `TaskThread.run`, with the task of that number. -/
  | running (task : Nat)
  | idle
  | gone
  deriving DecidableEq

/-- Where the main thread stands. -/
inductive Main where
  /-- At `execute` of the task of that number: are there fewer threads than the core has? -/
  | execute (task : Nat)
  | offer (task : Nat)
  /-- The queue was full. -/
  | addWorker (task : Nat)
  /-- `RejectedExecutionException`, which nobody catches. -/
  | rejected (task : Nat)
  | await
  | ended
  deriving DecidableEq

structure State where
  workers : List Worker
  queue : List Nat
  countDownLatch : Nat
  main : Main
  /-- The tasks that have ended, in that order. -/
  ran : List Nat
  deriving DecidableEq

inductive Act where
  | main
  /-- The thread takes a task from the queue. -/
  | take (i : Nat)
  /-- It ends its task, with `countDown`. -/
  | countDown (i : Nat)
  /-- It has waited for a task too long. -/
  | expire (i : Nat)
  deriving DecidableEq

def Worker.alive : Worker → Bool
  | .gone => false
  | _ => true

def State.poolSize (s : State) : Nat := s.workers.countP Worker.alive

/-- A new thread, for the task. -/
def State.start (s : State) (task : Nat) : State :=
  { s with workers := s.workers ++ [.running task], main := .execute (task + 1) }

/-- `main`, with `TASK_NUM = n`. -/
def mainStep (pool : ThreadPoolExecutor) (n : Nat) (s : State) : Main → Option State
  | .execute task =>
    if task = n then some { s with main := .await }
    else if s.poolSize < pool.corePoolSize then some (s.start task)
    else some { s with main := .offer task }
  | .offer task =>
    if s.queue.length < pool.capacity then
      some { s with queue := s.queue ++ [task], main := .execute (task + 1) }
    else some { s with main := .addWorker task }
  | .addWorker task =>
    if s.poolSize < pool.maximumPoolSize then some (s.start task)
    else some { s with main := .rejected task }
  | .await => if s.countDownLatch = 0 then some { s with main := .ended } else none
  | .rejected _ | .ended => none

def step (pool : ThreadPoolExecutor) (n : Nat) (s : State) : Act → Option State
  | .main => mainStep pool n s s.main
  | .take i =>
    match s.workers[i]?, s.queue with
    | some .idle, task :: queue =>
      some { s with workers := s.workers.set i (.running task), queue }
    | _, _ => none
  | .countDown i =>
    match s.workers[i]? with
    | some (.running task) =>
      some { s with
        workers := s.workers.set i .idle
        countDownLatch := s.countDownLatch - 1
        ran := s.ran ++ [task] }
    | _ => none
  | .expire i =>
    match s.workers[i]? with
    | some .idle =>
      if pool.corePoolSize < s.poolSize then some { s with workers := s.workers.set i .gone }
      else none
    | _ => none

def machine (pool : ThreadPoolExecutor) (n : Nat) : Machine State Act where
  init := ⟨[], [], n, .execute 0, []⟩
  step := step pool n

/-! ## 2. What a step does -/

/-- The task that a thread has. -/
def Worker.task : Worker → List Nat
  | .running task => [task]
  | _ => []

/-- The tasks that were handed over, wherever they are. -/
def State.tasks (s : State) : List Nat := s.queue ++ s.workers.flatMap Worker.task ++ s.ran

/-- How many tasks have been handed over. -/
def Main.submitted (n : Nat) : Main → Nat
  | .execute task | .offer task | .addWorker task | .rejected task => task
  | .await | .ended => n

/-- What a step of the pool keeps. -/
structure Pooled (pool : ThreadPoolExecutor) (s t : State) : Prop where
  main : t.main = s.main
  tasks : t.tasks.Perm s.tasks
  latch : ∀ n, s.countDownLatch = n - s.ran.length → t.countDownLatch = n - t.ran.length
  ran : s.ran.length ≤ t.ran.length
  workers : t.workers.length = s.workers.length
  queue : t.queue.length ≤ s.queue.length
  poolSize : min s.poolSize pool.corePoolSize ≤ t.poolSize

/-- One thread changes. -/
theorem exists_split {workers : List Worker} {i : Nat} {w : Worker} (h : workers[i]? = some w) :
    ∃ before after, workers = before ++ w :: after ∧
      ∀ w', workers.set i w' = before ++ w' :: after := by
  obtain ⟨hi, rfl⟩ := List.getElem?_eq_some_iff.mp h
  refine ⟨workers.take i, workers.drop (i + 1), ?_, fun w' => ?_⟩
  · rw [List.getElem_cons_drop, List.take_append_drop]
  · rw [List.set_eq_take_append_cons_drop, if_pos hi]

/-- The tasks in hand change by those of one thread. -/
theorem count_set {workers : List Worker} {i : Nat} {w : Worker} (h : workers[i]? = some w)
    (w' : Worker) (task : Nat) :
    ((workers.set i w').flatMap Worker.task).count task + w.task.count task =
      (workers.flatMap Worker.task).count task + w'.task.count task := by
  obtain ⟨before, after, hworkers, hset⟩ := exists_split h
  rw [hset, hworkers]
  simp only [List.flatMap_append, List.flatMap_cons, List.count_append]
  omega

/-- A thread that stays alive leaves the size as it is. -/
theorem countP_set {workers : List Worker} {i : Nat} {w : Worker} (h : workers[i]? = some w)
    (w' : Worker) : (workers.set i w').countP Worker.alive + w.alive.toNat =
      workers.countP Worker.alive + w'.alive.toNat := by
  obtain ⟨before, after, hworkers, hset⟩ := exists_split h
  rw [hset, hworkers]
  simp only [List.countP_append, List.countP_cons]
  cases w.alive <;> cases w'.alive <;> simp +arith

theorem take_pooled {pool : ThreadPoolExecutor} {s : State} {i task : Nat} {queue : List Nat}
    (hw : s.workers[i]? = some .idle) (hq : s.queue = task :: queue) :
    Pooled pool s { s with workers := s.workers.set i (.running task), queue } := by
  refine ⟨rfl, ?_, fun _ h => h, le_rfl, List.length_set .., by simp [hq], ?_⟩
  · refine List.perm_iff_count.mpr fun a => ?_
    have hcount := count_set hw (.running task) a
    simp only [Worker.task, List.count_nil, List.count_cons] at hcount
    simp only [State.tasks, hq, List.count_append, List.count_cons]
    omega
  · have hsize := countP_set hw (.running task)
    exact Nat.le_trans (Nat.min_le_left ..) (Nat.le_of_eq (Nat.add_right_cancel hsize).symm)

theorem countDown_pooled {pool : ThreadPoolExecutor} {s : State} {i task : Nat}
    (hw : s.workers[i]? = some (.running task)) :
    Pooled pool s { s with
      workers := s.workers.set i .idle
      countDownLatch := s.countDownLatch - 1
      ran := s.ran ++ [task] } := by
  refine ⟨rfl, ?_, ?_, by simp, List.length_set .., le_rfl, ?_⟩
  · refine List.perm_iff_count.mpr fun a => ?_
    have hcount := count_set hw .idle a
    simp only [Worker.task, List.count_nil] at hcount
    simp only [State.tasks, List.count_append]
    omega
  · intro n h
    simp only [List.length_append, List.length_singleton, h]
    omega
  · have hsize := countP_set hw .idle
    exact Nat.le_trans (Nat.min_le_left ..) (Nat.le_of_eq (Nat.add_right_cancel hsize).symm)

theorem expire_pooled {pool : ThreadPoolExecutor} {s : State} {i : Nat}
    (hw : s.workers[i]? = some .idle) (hcore : pool.corePoolSize < s.poolSize) :
    Pooled pool s { s with workers := s.workers.set i .gone } := by
  refine ⟨rfl, ?_, fun _ h => h, le_rfl, List.length_set .., le_rfl, ?_⟩
  · refine List.perm_iff_count.mpr fun a => ?_
    have hcount := count_set hw .gone a
    simp only [Worker.task, List.count_nil] at hcount
    simp only [State.tasks, List.count_append]
    omega
  · have hsize := countP_set hw .gone
    simp only [Worker.alive, Bool.toNat_true, Bool.toNat_false] at hsize
    rw [State.poolSize] at hcore
    simp only [State.poolSize]
    omega

/-- **What the threads of the pool keep.** -/
theorem step_pooled {pool : ThreadPoolExecutor} {n : Nat} {s t : State} {a : Act} (ha : a ≠ .main)
    (h : step pool n s a = some t) : Pooled pool s t := by
  cases a with
  | main => exact absurd rfl ha
  | take i =>
    simp only [step] at h
    split at h
    · rename_i task queue hw hq
      exact Option.some.inj h ▸ take_pooled hw hq
    · cases h
  | countDown i =>
    simp only [step] at h
    split at h
    · rename_i task hw
      exact Option.some.inj h ▸ countDown_pooled hw
    · cases h
  | expire i =>
    simp only [step] at h
    split at h
    · rename_i hw
      split at h
      · rename_i hcore
        exact Option.some.inj h ▸ expire_pooled hw hcore
      · cases h
    · cases h

/-! ## 3. The invariant -/

/-- The main thread has found that there are as many threads as the core has. -/
def Main.offering : Main → Prop
  | .offer _ | .addWorker _ => True
  | _ => False

/-- The task that the main thread is about to hand over. -/
def Main.current : Main → Option Nat
  | .offer task | .addWorker task | .rejected task => some task
  | _ => none

structure Inv (pool : ThreadPoolExecutor) (n : Nat) (s : State) : Prop where
  tasks : s.tasks.Perm (List.range (s.main.submitted n))
  le : s.main.submitted n ≤ n
  current : ∀ task, s.main.current = some task → task < n
  latch : s.countDownLatch = n - s.ran.length
  /-- Each thread has had a task that was never in the queue. -/
  room : s.workers.length + s.queue.length ≤ s.main.submitted n
  full : ∀ task, s.main = .addWorker task → s.workers.length + pool.capacity ≤ task
  core : s.queue ≠ [] ∨ s.main.offering → pool.corePoolSize ≤ s.poolSize
  rejected : ∀ task, s.main = .rejected task → pool.maximumPoolSize + pool.capacity ≤ task
  ended : s.main = .ended → s.countDownLatch = 0

theorem inv_init (pool : ThreadPoolExecutor) (n : Nat) : Inv pool n (machine pool n).init where
  tasks := .refl _
  le := Nat.zero_le n
  current _ h := by cases h
  latch := rfl
  room := le_rfl
  full _ h := by cases h
  core h := by simp [machine, Main.offering] at h
  rejected _ h := by cases h
  ended h := by cases h

theorem Inv.pooled {pool : ThreadPoolExecutor} {n : Nat} {s t : State} (hi : Inv pool n s)
    (h : Pooled pool s t) : Inv pool n t where
  tasks := h.main.symm ▸ h.tasks.trans hi.tasks
  le := h.main.symm ▸ hi.le
  current := h.main.symm ▸ hi.current
  latch := h.latch n hi.latch
  room := by
    have hroom := hi.room
    have hqueue := h.queue
    rw [h.main, h.workers]
    omega
  full := h.main.symm ▸ h.workers.symm ▸ hi.full
  core hcore := by
    have hold : s.queue ≠ [] ∨ s.main.offering := by
      rw [h.main] at hcore
      refine hcore.imp_left fun hne hnil => hne ?_
      rw [← List.length_eq_zero_iff]
      have hqueue := h.queue
      rw [hnil] at hqueue
      exact Nat.le_zero.mp hqueue
    have hsize := h.poolSize
    rwa [Nat.min_eq_right (hi.core hold)] at hsize
  rejected := h.main.symm ▸ hi.rejected
  ended hended := by
    have hzero := hi.ended (h.main ▸ hended)
    have hlatch := hi.latch
    have hran := h.ran
    rw [h.latch n hlatch]
    omega

section MainThread
variable {pool : ThreadPoolExecutor} {n : Nat} {s : State} (hi : Inv pool n s)
include hi

/-- The main thread looks, and hands nothing over. -/
theorem Inv.look {main : Main} (hsubmitted : main.submitted n = s.main.submitted n)
    (hcurrent : ∀ task, main.current = some task → task < n)
    (hfull : ∀ task, main = .addWorker task → s.workers.length + pool.capacity ≤ task)
    (hcore : main.offering → pool.corePoolSize ≤ s.poolSize)
    (hrejected : ∀ task, main = .rejected task → pool.maximumPoolSize + pool.capacity ≤ task)
    (hended : main = .ended → s.countDownLatch = 0) : Inv pool n { s with main } where
  tasks := hsubmitted.symm ▸ hi.tasks
  le := hsubmitted.symm ▸ hi.le
  current := hcurrent
  latch := hi.latch
  room := hsubmitted.symm ▸ hi.room
  full := hfull
  core := fun h => h.elim (fun hqueue => hi.core (.inl hqueue)) hcore
  rejected := hrejected
  ended := hended

theorem Inv.start {task : Nat} (hmain : s.main.submitted n = task) (htask : task < n) :
    Inv pool n (s.start task) where
  tasks := by
    refine .trans ?_ (List.range_succ (n := task) ▸ (hmain ▸ hi.tasks).append_right [task])
    refine List.perm_iff_count.mpr fun a => ?_
    simp only [State.tasks, State.start, List.flatMap_append, List.flatMap_cons, List.flatMap_nil,
      Worker.task, List.count_append, List.count_nil]
    omega
  le := htask
  current _ h := by cases h
  latch := hi.latch
  room := by
    have hroom := hi.room
    rw [hmain] at hroom
    simp only [State.start, Main.submitted, List.length_append, List.length_singleton]
    omega
  full _ h := by cases h
  core h := by
    have hcore := hi.core (.inl (h.resolve_right id))
    rw [State.poolSize] at hcore
    simp only [State.poolSize, State.start, List.countP_append]
    omega
  rejected _ h := by cases h
  ended h := by cases h

theorem Inv.enqueue {task : Nat} (hmain : s.main = .offer task) :
    Inv pool n { s with queue := s.queue ++ [task], main := .execute (task + 1) } where
  tasks := by
    have htasks := hi.tasks
    rw [hmain] at htasks
    refine .trans ?_ (List.range_succ (n := task) ▸ htasks.append_right [task])
    refine List.perm_iff_count.mpr fun a => ?_
    simp only [State.tasks, List.count_append]
    omega
  le := hi.current task (by rw [hmain]; rfl)
  current _ h := by cases h
  latch := hi.latch
  room := by
    have hroom := hi.room
    rw [hmain] at hroom
    simp only [Main.submitted, List.length_append, List.length_singleton] at hroom ⊢
    omega
  full _ h := by cases h
  core _ := hi.core (.inr (by rw [hmain]; trivial))
  rejected _ h := by cases h
  ended h := by cases h

theorem main_inv {t : State} (h : mainStep pool n s s.main = some t) : Inv pool n t := by
  cases hmain : s.main with
  | execute task =>
    have hle := hi.le
    rw [hmain] at h hle
    simp only [mainStep] at h
    split at h
    · rename_i hn
      exact Option.some.inj h ▸ hi.look (by rw [hmain, hn]; rfl) (by simp [Main.current])
        (by simp) (by simp [Main.offering]) (by simp) (by simp)
    · rename_i hn
      have htask : task < n := Nat.lt_of_le_of_ne hle hn
      split at h
      · exact Option.some.inj h ▸ hi.start (by rw [hmain]; rfl) htask
      · rename_i hcore
        exact Option.some.inj h ▸ hi.look (by rw [hmain]; rfl) (by simp [Main.current, htask])
          (by simp) (fun _ => Nat.not_lt.mp hcore) (by simp) (by simp)
  | offer task =>
    have htask := hi.current task (by rw [hmain]; rfl)
    have hroom := hi.room
    rw [hmain] at h hroom
    simp only [mainStep] at h
    split at h
    · exact Option.some.inj h ▸ hi.enqueue hmain
    · rename_i hfull
      refine Option.some.inj h ▸ hi.look (by rw [hmain]; rfl) (by simp [Main.current, htask]) ?_
        (fun _ => hi.core (.inr (by rw [hmain]; trivial))) (by simp) (by simp)
      simp only [Main.submitted] at hroom
      rintro _ ⟨⟩
      omega
  | addWorker task =>
    have htask := hi.current task (by rw [hmain]; rfl)
    have hfull := hi.full task hmain
    rw [hmain] at h
    simp only [mainStep] at h
    split at h
    · exact Option.some.inj h ▸ hi.start (by rw [hmain]; rfl) htask
    · rename_i hmax
      refine Option.some.inj h ▸ hi.look (by rw [hmain]; rfl) (by simp [Main.current, htask])
        (by simp) (by simp [Main.offering]) ?_ (by simp)
      have hsize : s.poolSize ≤ s.workers.length := List.countP_le_length
      rintro _ ⟨⟩
      omega
  | rejected task => rw [hmain] at h; cases h
  | await =>
    rw [hmain] at h
    simp only [mainStep] at h
    split at h
    · rename_i hzero
      exact Option.some.inj h ▸ hi.look (by rw [hmain]; rfl) (by simp [Main.current]) (by simp)
        (by simp [Main.offering]) (by simp) (fun _ => hzero)
    · cases h
  | ended => rw [hmain] at h; cases h

end MainThread

theorem step_inv {pool : ThreadPoolExecutor} {n : Nat} {s t : State} {a : Act}
    (hi : Inv pool n s) (h : step pool n s a = some t) : Inv pool n t := by
  by_cases ha : a = .main
  · subst ha
    exact main_inv hi h
  · exact hi.pooled (step_pooled ha h)

theorem reachable_inv {pool : ThreadPoolExecutor} {n : Nat} {s : State}
    (h : (machine pool n).Reachable s) : Inv pool n s :=
  h.induct (inv_init pool n) fun _ _ _ _ hi hst => step_inv hi hst

/-! ## 4. When a task is rejected -/

theorem reachable_main {pool : ThreadPoolExecutor} {n : Nat} {s t : State} {main : Main}
    (hs : (machine pool n).Reachable s) (hmain : s.main = main)
    (h : mainStep pool n s main = some t) : (machine pool n).Reachable t := by
  subst hmain
  exact hs.step (a := .main) h

/-- The main thread has handed over some tasks, and no thread of the pool has done anything. -/
structure Flooded (pool : ThreadPoolExecutor) (s : State) (task : Nat) : Prop where
  main : s.main = .execute task
  poolSize : s.poolSize + s.queue.length = task
  queue : s.queue.length = min (task - pool.corePoolSize) pool.capacity

theorem poolSize_start (s : State) (task : Nat) : (s.start task).poolSize = s.poolSize + 1 := by
  rw [State.poolSize, State.start, List.countP_append]
  rfl

/-- One more task is accepted, as long as there is room. -/
theorem Flooded.next {pool : ThreadPoolExecutor} {n task : Nat} {s : State}
    (h : Flooded pool s task) (hs : (machine pool n).Reachable s) (hn : task < n)
    (hroom : task < pool.maximumPoolSize + pool.capacity) :
    ∃ t, (machine pool n).Reachable t ∧ Flooded pool t (task + 1) := by
  have hsize := h.poolSize
  have hqueue := h.queue
  have hne : task ≠ n := Nat.ne_of_lt hn
  by_cases hcore : s.poolSize < pool.corePoolSize
  · refine ⟨s.start task, reachable_main hs h.main (by simp [mainStep, hne, hcore]), rfl, ?_, ?_⟩
    · rw [poolSize_start]
      simp only [State.start]
      omega
    · simp only [State.start]
      omega
  · have hoffer : (machine pool n).Reachable { s with main := .offer task } :=
      reachable_main hs h.main (by simp [mainStep, hne, hcore])
    by_cases hfull : s.queue.length < pool.capacity
    · refine ⟨{ s with queue := s.queue ++ [task], main := .execute (task + 1) },
        reachable_main hoffer rfl (by simp [mainStep, hfull]), rfl, ?_, ?_⟩
      · simp only [State.poolSize, List.length_append, List.length_singleton] at hsize ⊢
        omega
      · simp only [List.length_append, List.length_singleton]
        omega
    · have hadd : (machine pool n).Reachable { s with main := .addWorker task } :=
        reachable_main hoffer rfl (by simp [mainStep, hfull])
      have hmax : s.poolSize < pool.maximumPoolSize := by omega
      refine ⟨s.start task, reachable_main hadd rfl (if_pos hmax), rfl, ?_, ?_⟩
      · rw [poolSize_start]
        simp only [State.start]
        omega
      · simp only [State.start]
        omega

theorem exists_flooded (pool : ThreadPoolExecutor) {n task : Nat} (hn : task ≤ n)
    (hroom : task ≤ pool.maximumPoolSize + pool.capacity) :
    ∃ s, (machine pool n).Reachable s ∧ Flooded pool s task := by
  induction task with
  | zero => exact ⟨_, Machine.reachable_init, rfl, rfl, by simp [machine]⟩
  | succ task ih =>
    obtain ⟨s, hs, hflooded⟩ := ih (by omega) (by omega)
    exact hflooded.next hs hn hroom

/-- **No task is ever rejected, exactly if the largest pool and the queue can hold all tasks.** -/
theorem never_rejected_iff (pool : ThreadPoolExecutor) (n : Nat) :
    (∀ s, (machine pool n).Reachable s → ∀ task, s.main ≠ .rejected task) ↔
      n ≤ pool.maximumPoolSize + pool.capacity := by
  constructor
  · intro hnever
    by_contra hmore
    rw [not_le] at hmore
    obtain ⟨s, hs, hflooded⟩ := exists_flooded pool (Nat.le_of_lt hmore) le_rfl
    have hsize := hflooded.poolSize
    have hqueue := hflooded.queue
    have hle := pool.core_le
    have hcore : ¬ s.poolSize < pool.corePoolSize := by omega
    have hfull : ¬ s.queue.length < pool.capacity := by omega
    have hmax : ¬ s.poolSize < pool.maximumPoolSize := by omega
    have hoffer := reachable_main hs hflooded.main
      (t := { s with main := .offer (pool.maximumPoolSize + pool.capacity) })
      (by simp [mainStep, Nat.ne_of_lt hmore, hcore])
    have hadd := reachable_main hoffer rfl
      (t := { s with main := .addWorker (pool.maximumPoolSize + pool.capacity) })
      (by simp [mainStep, hfull])
    have hrejected := reachable_main hadd rfl
      (t := { s with main := .rejected (pool.maximumPoolSize + pool.capacity) }) (if_neg hmax)
    exact hnever _ hrejected _ rfl
  · intro hle s hs task hmain
    have hi := reachable_inv hs
    have htask := hi.current task (by rw [hmain]; rfl)
    have hfull := hi.rejected task hmain
    omega

/-! ## 5. How a run ends -/

/-- The steps that a thread has before it, with its task and without one. -/
def Worker.steps : Worker → Nat
  | .running _ => 2
  | .idle => 1
  | .gone => 0

/-- For each task three steps at most, and three of a thread that is started for it. -/
def Main.steps (n : Nat) : Main → Nat
  | .execute task => 6 * (n - task) + 2
  | .offer task => 6 * (n - task) + 1
  | .addWorker task => 6 * (n - task)
  | .await => 1
  | .rejected _ | .ended => 0

def State.steps (n : Nat) (s : State) : Nat :=
  s.main.steps n + 2 * s.queue.length + (s.workers.map Worker.steps).sum

theorem steps_start {n task : Nat} (s : State) (htask : task < n) :
    (s.start task).steps n + 4 =
      6 * (n - task) + 2 * s.queue.length + (s.workers.map Worker.steps).sum + 2 := by
  simp only [State.steps, State.start, Main.steps, List.map_append, List.map_cons, List.map_nil,
    List.sum_append, List.sum_cons, List.sum_nil, Worker.steps]
  omega

theorem main_steps {pool : ThreadPoolExecutor} {n : Nat} {s t : State} (hi : Inv pool n s)
    (h : mainStep pool n s s.main = some t) : t.steps n < s.steps n := by
  have hle := hi.le
  have hcurrent := hi.current
  cases hmain : s.main with
  | execute task =>
    rw [hmain] at h hle
    simp only [Main.submitted] at hle
    have hsteps : s.steps n = 6 * (n - task) + 2 + 2 * s.queue.length +
        (s.workers.map Worker.steps).sum := by rw [State.steps, hmain]; rfl
    simp only [mainStep] at h
    split at h
    · rw [← Option.some.inj h, hsteps]
      simp only [State.steps, Main.steps]
      omega
    · have hstart := steps_start s (show task < n by omega)
      split at h
      · rw [← Option.some.inj h, hsteps]
        omega
      · rw [← Option.some.inj h, hsteps]
        simp only [State.steps, Main.steps]
        omega
  | offer task =>
    have htask := hcurrent task (by rw [hmain]; rfl)
    rw [hmain] at h
    have hsteps : s.steps n = 6 * (n - task) + 1 + 2 * s.queue.length +
        (s.workers.map Worker.steps).sum := by rw [State.steps, hmain]; rfl
    simp only [mainStep] at h
    split at h
    · rw [← Option.some.inj h, hsteps]
      simp only [State.steps, Main.steps, List.length_append, List.length_singleton]
      omega
    · rw [← Option.some.inj h, hsteps]
      simp only [State.steps, Main.steps]
      omega
  | addWorker task =>
    have htask := hcurrent task (by rw [hmain]; rfl)
    rw [hmain] at h
    have hsteps : s.steps n = 6 * (n - task) + 2 * s.queue.length +
        (s.workers.map Worker.steps).sum := by rw [State.steps, hmain]; rfl
    have hstart := steps_start s htask
    simp only [mainStep] at h
    split at h
    · rw [← Option.some.inj h, hsteps]
      omega
    · rw [← Option.some.inj h, hsteps]
      simp only [State.steps, Main.steps]
      omega
  | rejected task => rw [hmain] at h; cases h
  | await =>
    rw [hmain] at h
    have hsteps : s.steps n = 1 + 2 * s.queue.length + (s.workers.map Worker.steps).sum := by
      rw [State.steps, hmain]; rfl
    simp only [mainStep] at h
    split at h
    · rw [← Option.some.inj h, hsteps]
      simp only [State.steps, Main.steps]
      omega
    · cases h
  | ended => rw [hmain] at h; cases h

theorem step_steps {pool : ThreadPoolExecutor} {n : Nat} {s t : State} {a : Act}
    (hi : Inv pool n s) (h : step pool n s a = some t) : t.steps n < s.steps n := by
  cases a with
  | main => exact main_steps hi h
  | take i =>
    simp only [step] at h
    split at h
    · rename_i task queue hw hq
      have hsum := sum_map_set Worker.steps hw (.running task)
      rw [← Option.some.inj h]
      simp only [State.steps, hq, List.length_cons, Worker.steps] at hsum ⊢
      omega
    · cases h
  | countDown i =>
    simp only [step] at h
    split at h
    · rename_i task hw
      have hsum := sum_map_set Worker.steps hw .idle
      rw [← Option.some.inj h]
      simp only [State.steps, Worker.steps] at hsum ⊢
      omega
    · cases h
  | expire i =>
    simp only [step] at h
    split at h
    · rename_i hw
      have hsum := sum_map_set Worker.steps hw .gone
      split at h
      · rw [← Option.some.inj h]
        simp only [State.steps, Worker.steps] at hsum ⊢
        omega
      · cases h
    · cases h

/-- While a task has not ended, some thread of the pool can go on. -/
theorem pool_goes_on {pool : ThreadPoolExecutor} {n : Nat} {s : State} (hi : Inv pool n s)
    (hsubmitted : s.main.submitted n = n) (hlatch : s.countDownLatch ≠ 0) :
    ∃ a t, step pool n s a = some t := by
  have hlength := hi.tasks.length_eq
  rw [hsubmitted, List.length_range] at hlength
  simp only [State.tasks, List.length_append] at hlength
  have hran := hi.latch
  by_cases hrunning : s.workers.flatMap Worker.task = []
  · -- then a task is queued, and one of the threads of the core is idle
    have hqueue : s.queue ≠ [] := by
      intro hnil
      rw [hrunning, hnil] at hlength
      simp only [List.length_nil] at hlength
      omega
    have hcore := hi.core (.inl hqueue)
    have hpos := pool.core_pos
    obtain ⟨w, hw, halive⟩ := List.countP_pos_iff.mp (Nat.lt_of_lt_of_le hpos hcore)
    obtain ⟨i, hget⟩ := List.mem_iff_getElem?.mp hw
    obtain ⟨task, queue, hq⟩ := List.exists_cons_of_ne_nil hqueue
    have hnone := List.flatMap_eq_nil_iff.mp hrunning w hw
    cases w with
    | running task => simp [Worker.task] at hnone
    | gone => simp [Worker.alive] at halive
    | idle => exact ⟨.take i, _, by simp only [step, hget, hq]; rfl⟩
  · obtain ⟨task, htask⟩ := List.exists_mem_of_ne_nil _ hrunning
    obtain ⟨w, hw, hmem⟩ := List.mem_flatMap.mp htask
    obtain ⟨i, hget⟩ := List.mem_iff_getElem?.mp hw
    cases w with
    | running task' => exact ⟨.countDown i, _, by simp only [step, hget]; rfl⟩
    | gone => simp [Worker.task] at hmem
    | idle => simp [Worker.task] at hmem

/-- When the main thread has gone past `await`, each task has run once. -/
theorem ran_of_ended {pool : ThreadPoolExecutor} {n : Nat} {s : State} (hi : Inv pool n s)
    (h : s.main = .ended) : s.ran.Perm (List.range n) := by
  have htasks := hi.tasks
  have hlatch := hi.latch
  rw [hi.ended h] at hlatch
  rw [h, Main.submitted] at htasks
  have hlength := htasks.length_eq
  rw [List.length_range] at hlength
  simp only [State.tasks, List.length_append] at hlength
  have hqueue : s.queue = [] := List.length_eq_zero_iff.mp (by omega)
  have hrunning : s.workers.flatMap Worker.task = [] := List.length_eq_zero_iff.mp (by omega)
  rwa [State.tasks, hqueue, hrunning] at htasks

/-- **If there is room for all tasks, every run ends**, and goes on until the main thread has shut
the pool down; each task has run exactly once then. -/
theorem shuts_down {pool : ThreadPoolExecutor} {n : Nat}
    (hn : n ≤ pool.maximumPoolSize + pool.capacity) :
    (machine pool n).Ends (fun _ _ => True) (6 * n + 2)
      (fun s => s.main = .ended ∧ s.ran.Perm (List.range n)) where
  bounded as s h := by
    have hdecreases : (machine pool n).Decreases (State.steps n) := fun _ _ _ hs hst =>
      step_steps (reachable_inv hs) hst
    have hle := hdecreases.length_add_le Machine.reachable_init h
    have hinit : (machine pool n).init.steps n = 6 * n + 2 := by
      simp [machine, State.steps, Main.steps]
    omega
  goes_on s h hP := by
    have hi := reachable_inv h.reachable
    have hmain : ∀ t, mainStep pool n s s.main = some t →
        ∃ a t, True ∧ (machine pool n).step s a = some t := fun t ht => ⟨.main, t, trivial, ht⟩
    cases hm : s.main with
    | execute task =>
      rw [hm] at hmain
      simp only [mainStep] at hmain
      split at hmain
      · exact hmain _ rfl
      · split at hmain <;> exact hmain _ rfl
    | offer task =>
      rw [hm] at hmain
      simp only [mainStep] at hmain
      split at hmain <;> exact hmain _ rfl
    | addWorker task =>
      rw [hm] at hmain
      simp only [mainStep] at hmain
      split at hmain <;> exact hmain _ rfl
    | rejected task =>
      have htask := hi.current task (by rw [hm]; rfl)
      have hfull := hi.rejected task hm
      omega
    | await =>
      by_cases hlatch : s.countDownLatch = 0
      · exact hmain _ (by rw [hm]; exact if_pos hlatch)
      · obtain ⟨a, t, ht⟩ := pool_goes_on hi (by rw [hm]; rfl) hlatch
        exact ⟨a, t, trivial, ht⟩
    | ended => exact absurd ⟨hm, ran_of_ended hi hm⟩ hP

/-- The tasks of `main`. -/
theorem shuts_down_six : ∃ as s, (machine threadPoolExecutor TASK_NUM).run
      (machine threadPoolExecutor TASK_NUM).init as = some s ∧
    s.main = .ended ∧ s.ran.Perm (List.range 6) := by
  obtain ⟨as, s, hrun, -, hs⟩ := (shuts_down (n := TASK_NUM)
    (by decide : TASK_NUM ≤ threadPoolExecutor.maximumPoolSize +
      threadPoolExecutor.capacity)).exists_finish ⟨[], rfl, trivial⟩
  exact ⟨as, s, hrun, hs⟩

end ThreadPoolExecutorTest
end JavaStudy
