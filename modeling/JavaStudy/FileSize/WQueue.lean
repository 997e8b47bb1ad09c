/-
# `TotalFileSizeConcurrentWQueue`: a counter of pending visits and a bounded queue of sizes

Every entry that is not a regular file, the root included, is explored by a task of the pool.
`startExploreDir` increments `pendingFileVisits` and hands the task over; the task scans, puts ONE
size on the queue `fileSizes`, which holds at most `c` of them, and decrements the counter.  The
calling thread adds up what it polls, until it reads a counter of zero and then, in a second
step, an empty queue.

A poll that finds nothing for ten seconds returns `null`, and `totalSize += size` throws
(`Act.timeout`).  Either way the pool is shut down at the end, and an `execute` after that
rejects.

* The result is right (`returned_total`): a task registers its children before its own put, and
  puts before it decrements, so a counter of zero means that every size is on the queue or taken.
* The poll is not always supplied (`consumer_supplied_iff`): a task that has put and not yet
  decremented still counts, and the caller may enter a poll that nobody will serve.
-/
import JavaStudy.Lib.Machine
import JavaStudy.FileSize.Sequential

namespace JavaStudy
namespace TotalFileSizeConcurrentWQueue

open TotalFileSizeSequential

/-! ## 1. The program -/

/-- Where an activation of `exploreDir` stands. -/
inductive Visit where
  /-- At the top of the method. -/
  | enter (file : File)
  /-- At the head of the `for` loop, with the children left. -/
  | scan (fileSize : Long) (children : List File)
  /-- In `startExploreDir(child)`, past `incrementAndGet`, before `service.execute`. -/
  | execute (fileSize : Long) (child : File) (children : List File)
  | put (fileSize : Long)
  | decrementAndGet
  | finished
  /-- `service.execute` threw `RejectedExecutionException`. -/
  | rejected (fileSize : Long) (child : File) (children : List File)

/-- Where the calling thread stands in `getTotalSizeOfFile`. -/
inductive Main where
  /-- In `startExploreDir(root)`. -/
  | incrementAndGet (file : File)
  | execute (file : File)
  /-- At `pendingFileVisits.get() > 0`. -/
  | pending (totalSize : Long)
  /-- At `fileSizes.size() > 0`. -/
  | size (totalSize : Long)
  | poll (totalSize : Long)
  /-- In the `finally` block; `none` is the `NullPointerException`. -/
  | shutdown (result : Option Long)
  | ended (result : Option Long)

structure State where
  pendingFileVisits : Int
  fileSizes : List Long
  isShutdown : Bool
  service : FixedPool File Visit
  main : Main
  /-- Every size ever put on the queue, and every size ever polled from it, in order. -/
  puts : List Long
  polled : List Long

inductive Act where
  | main
  | timeout
  | take
  | task (i : Nat)
  deriving DecidableEq

/-- A pool thread is free again once its visit is over. -/
def Visit.busy : Visit → Bool
  | .finished => false
  | .rejected _ _ _ => false
  | _ => true

/-- One step of `exploreDir`; a put waits while the queue is full. -/
def exploreDir (c : Nat) (s : State) : Visit → Option (State × Visit)
  | .enter file =>
    if file.isFile then some (s, .put file.length)
    else
      match file.listFiles with
      | some children => some (s, .scan 0 children)
      | none => some (s, .put 0)
  | .scan fileSize [] => some (s, .put fileSize)
  | .scan fileSize (child :: children) =>
    if child.isFile then some (s, .scan (fileSize + child.length) children)
    else
      some ({ s with pendingFileVisits := s.pendingFileVisits + 1 },
        .execute fileSize child children)
  | .execute fileSize child children =>
    if s.isShutdown then some (s, .rejected fileSize child children)
    else some ({ s with service := s.service.submit child }, .scan fileSize children)
  | .put fileSize =>
    if s.fileSizes.length < c then
      some ({ s with fileSizes := s.fileSizes ++ [fileSize], puts := s.puts ++ [fileSize] },
        .decrementAndGet)
    else none
  | .decrementAndGet =>
    some ({ s with pendingFileVisits := s.pendingFileVisits - 1 }, .finished)
  | .finished => none
  | .rejected _ _ _ => none

/-- One step of the calling thread; a poll waits while the queue is empty. -/
def getTotalSizeOfFile (s : State) : Main → Option State
  | .incrementAndGet file =>
    some { s with pendingFileVisits := s.pendingFileVisits + 1, main := .execute file }
  | .execute file => some { s with service := s.service.submit file, main := .pending 0 }
  | .pending totalSize =>
    some { s with main := if 0 < s.pendingFileVisits then .poll totalSize else .size totalSize }
  | .size totalSize =>
    some { s with
      main := if 0 < s.fileSizes.length then .poll totalSize else .shutdown (some totalSize) }
  | .poll totalSize =>
    match s.fileSizes with
    | size :: rest =>
      some { s with fileSizes := rest, polled := s.polled ++ [size],
                    main := .pending (totalSize + size) }
    | [] => none
  | .shutdown result => some { s with isShutdown := true, main := .ended result }
  | .ended _ => none

def step (c n : Nat) (s : State) : Act → Option State
  | .main => getTotalSizeOfFile s s.main
  | .timeout =>
    match s.main, s.fileSizes with
    | .poll _, [] => some { s with main := .shutdown none }
    | _, _ => none
  | .take => (s.service.take Visit.busy n .enter).map fun p => { s with service := p }
  | .task i =>
    match s.service.tasks[i]? with
    | some v =>
      (exploreDir c s v).map fun r => { r.1 with service := r.1.service.setTask i r.2 }
    | none => none

/-- `getTotalSizeOfFile` on `root`, with a queue of capacity `c` and a pool of `n` threads. -/
def machine (c n : Nat) (root : File) : Machine State Act where
  init :=
    { pendingFileVisits := 0, fileSizes := [], isShutdown := false, service := .empty,
      main := .incrementAndGet root, puts := [], polled := [] }
  step := step c n

/-! ## 2. The registered visits, and sums over them -/

/-- A visit is registered from its `incrementAndGet` on: `announced` by whoever counted it, then
`queued`, then `active` on a pool thread. -/
inductive Registered where
  | announced (child : File)
  | queued (file : File)
  | active (v : Visit)

def Visit.registered : Visit → List Registered
  | .execute fileSize child children =>
    [.active (.execute fileSize child children), .announced child]
  | .rejected fileSize child children =>
    [.active (.rejected fileSize child children), .announced child]
  | v => [.active v]

def Main.registered : Main → List Registered
  | .execute file => [.announced file]
  | _ => []

/-- Every visit registered so far. -/
def State.registered (s : State) : List Registered :=
  s.main.registered ++ s.service.tasks.flatMap Visit.registered
    ++ s.service.queue.map .queued

/-- The visit has put its size on the queue. -/
def Registered.hasPut : Registered → Bool
  | .active .decrementAndGet => true
  | .active .finished => true
  | _ => false

/-- A value for the calling thread and for each visit; a queued visit counts like one that is
just entered. -/
structure Weighing (M : Type) [AddCommMonoid M] where
  main : Main → M
  visit : Visit → M

/-- What the calling thread has added up, or is still to hand over. -/
def Main.holds : Main → Long
  | .incrementAndGet file | .execute file => getTotalsizeOfFilesInDir file
  | .pending totalSize | .size totalSize | .poll totalSize => totalSize
  | .shutdown result | .ended result => result.getD 0

/-- What a visit has still to put, its unregistered sub-entries and the child it announces
included. -/
def Visit.owed : Visit → Long
  | .enter file => getTotalsizeOfFilesInDir file
  | .scan fileSize children => fileSize + (children.map getTotalsizeOfFilesInDir).sum
  | .execute fileSize child children
  | .rejected fileSize child children =>
    fileSize + getTotalsizeOfFilesInDir child + (children.map getTotalsizeOfFilesInDir).sum
  | .put fileSize => fileSize
  | .decrementAndGet | .finished => 0

/-- How many visits one activation stands for that are registered and not decremented. -/
def Visit.open_ : Visit → Nat
  | .execute _ _ _ | .rejected _ _ _ => 2
  | .finished => 0
  | _ => 1

/-- How many visits one activation stands for that are registered and have not put. -/
def Visit.unput : Visit → Nat
  | .execute _ _ _ | .rejected _ _ _ => 2
  | .decrementAndGet | .finished => 0
  | _ => 1

def Main.announces : Main → Nat
  | .execute _ => 1
  | _ => 0

def owing : Weighing Long := ⟨Main.holds, Visit.owed⟩
def opening : Weighing Nat := ⟨Main.announces, Visit.open_⟩
def unputting : Weighing Nat := ⟨Main.announces, Visit.unput⟩

/-- The values of the calling thread and of all the visits, added up. -/
def State.weight {M : Type} [AddCommMonoid M] (W : Weighing M) (s : State) : M :=
  W.main s.main + s.service.weight (fun f => W.visit (.enter f)) W.visit

/-- The size that is not on the queue: added up already, or still to be put. -/
abbrev State.owed (s : State) : Long := s.weight owing

/-- How many visits are registered and not decremented. -/
abbrev State.open_ (s : State) : Nat := s.weight opening

/-- How many visits are registered and have not put. -/
abbrev State.unput (s : State) : Nat := s.weight unputting

/-- The sum `State.unput` counts the list of registered visits. -/
theorem unput_eq_countP (s : State) :
    s.unput = s.registered.countP fun r => !r.hasPut := by
  have hmain : (s.main.registered.countP fun r => !r.hasPut) = s.main.announces := by
    cases s.main <;> rfl
  have htasks : ((s.service.tasks.flatMap Visit.registered).countP fun r => !r.hasPut)
      = (s.service.tasks.map Visit.unput).sum := by
    rw [List.countP_flatMap]
    exact congrArg List.sum (List.map_congr_left fun v _ => by cases v <;> rfl)
  have hqueue : ((s.service.queue.map Registered.queued).countP fun r => !r.hasPut)
      = (s.service.queue.map fun f => (Visit.enter f).unput).sum := by
    induction s.service.queue with
    | nil => rfl
    | cons f q ih =>
      rw [List.map_cons, List.map_cons, List.sum_cons, ← ih, List.countP_cons]
      exact Nat.add_comm _ _
  rw [State.registered, List.countP_append, List.countP_append, hmain, htasks, hqueue,
    Nat.add_assoc]
  rfl

theorem unput_pos_iff (s : State) : 0 < s.unput ↔ ∃ r ∈ s.registered, r.hasPut = false := by
  rw [unput_eq_countP, List.countP_pos_iff]
  simp

/-! ## 3. What one step does to the sums -/

section Weight

variable {M : Type} [AddCommMonoid M] (W : Weighing M)

/-! The sums read the pool and the calling thread only. -/

@[simp] theorem weight_setPending (s : State) (p : Int) :
    ({ s with pendingFileVisits := p } : State).weight W = s.weight W := rfl

@[simp] theorem weight_setSizes (s : State) (q x : List Long) :
    ({ s with fileSizes := q, puts := x } : State).weight W = s.weight W := rfl

theorem weight_submit (s : State) (f : File) :
    ({ s with service := s.service.submit f } : State).weight W
      = s.weight W + W.visit (.enter f) := by
  simp only [State.weight, FixedPool.weight_submit, add_assoc]

theorem weight_task {s : State} {i : Nat} {v : Visit} (h : s.service.tasks[i]? = some v)
    (v' : Visit) :
    ({ s with service := s.service.setTask i v' } : State).weight W + W.visit v
      = s.weight W + W.visit v' := by
  simp only [State.weight, add_assoc, FixedPool.weight_setTask h]

end Weight

/-- Everything a step of a visit can do. -/
theorem exploreDir_spec {c : Nat} {s u : State} {v v' : Visit}
    (h : exploreDir c s v = some (u, v')) :
    u.main = s.main ∧ u.service.tasks = s.service.tasks ∧ u.polled = s.polled ∧
    (∃ x, u.fileSizes = s.fileSizes ++ x ∧ u.puts = s.puts ++ x) ∧
    u.fileSizes.sum + (u.owed + v'.owed) = s.fileSizes.sum + (s.owed + v.owed) ∧
    u.pendingFileVisits + (s.open_ + v.open_ : Nat)
      = s.pendingFileVisits + (u.open_ + v'.open_ : Nat) ∧
    1 ≤ v.open_ ∧
    (s.unput + v.unput ≤ u.unput + v'.unput ∨ u.fileSizes ≠ []) := by
  cases v with
  | enter file =>
    simp only [exploreDir] at h
    split at h
    · rename_i hfile
      cases h
      simp [Visit.owed, Visit.open_, Visit.unput, total_of_isFile hfile]
    · rename_i hfile
      rw [Bool.not_eq_true] at hfile
      split at h
      · rename_i cs hcs
        cases h
        simp [Visit.owed, Visit.open_, Visit.unput, total_of_listFiles hcs]
      · rename_i hnull
        cases h
        simp [Visit.owed, Visit.open_, Visit.unput, total_of_null hfile hnull]
  | scan fileSize children =>
    cases children with
    | nil =>
      simp only [exploreDir, Option.some.injEq, Prod.mk.injEq] at h
      obtain ⟨rfl, rfl⟩ := h
      simp [Visit.owed, Visit.open_, Visit.unput]
    | cons child children =>
      simp only [exploreDir] at h
      split at h
      · rename_i hfile
        cases h
        simp [Visit.owed, Visit.open_, Visit.unput, total_of_isFile hfile, add_assoc]
      · cases h
        refine ⟨rfl, rfl, rfl, ⟨[], by simp⟩, ?_, ?_, le_rfl, Or.inl ?_⟩
        · simp [Visit.owed, add_assoc]
        · simp only [State.open_, weight_setPending, Visit.open_]
          omega
        · simp [Visit.unput]
  | execute fileSize child children =>
    simp only [exploreDir] at h
    split at h
    · cases h
      simp [Visit.owed, Visit.open_, Visit.unput]
    · cases h
      refine ⟨rfl, rfl, rfl, ⟨[], by simp⟩, ?_, ?_, Nat.le_succ 1, Or.inl ?_⟩
      · have hq : owing.visit (.enter child) = getTotalsizeOfFilesInDir child := rfl
        simp only [State.owed, weight_submit, hq, Visit.owed]
        abel
      · have hq : opening.visit (.enter child) = 1 := rfl
        simp only [State.open_, weight_submit, hq, Visit.open_]
      · have hq : unputting.visit (.enter child) = 1 := rfl
        simp only [State.unput, weight_submit, hq, Visit.unput]
        omega
  | put fileSize =>
    simp only [exploreDir] at h
    split at h
    · cases h
      refine ⟨rfl, rfl, rfl, ⟨[fileSize], rfl, rfl⟩, ?_, rfl, le_rfl, Or.inr (by simp)⟩
      simp only [State.owed, weight_setSizes, Visit.owed, List.sum_append, List.sum_singleton]
      abel
    · exact absurd h (by simp)
  | decrementAndGet =>
    simp only [exploreDir, Option.some.injEq, Prod.mk.injEq] at h
    obtain ⟨rfl, rfl⟩ := h
    refine ⟨rfl, rfl, rfl, ⟨[], by simp⟩, rfl, ?_, le_rfl, Or.inl le_rfl⟩
    simp [Visit.open_]
  | finished => cases h
  | rejected => cases h

/-- **Everything a step of the machine can do.**  The calling thread moves, or its poll times out;
or a visit `v` becomes `v'`; or a thread takes a task, which changes no sum. -/
theorem step_cases {c n : Nat} {s t : State} {a : Act} (h : step c n s a = some t) :
    (a = .main ∧ getTotalSizeOfFile s s.main = some t) ∨
    (∃ totalSize, s.main = .poll totalSize ∧ s.fileSizes = [] ∧ a = .timeout ∧
      t = { s with main := .shutdown none }) ∨
    (∃ v u v', exploreDir c s v = some (u, v') ∧ a ≠ .main ∧ t.main = s.main ∧
      t.fileSizes = u.fileSizes ∧ t.pendingFileVisits = u.pendingFileVisits ∧
      t.puts = u.puts ∧ t.polled = s.polled ∧
      (∀ {M : Type} [AddCommMonoid M] (W : Weighing M),
        t.weight W + W.visit v = u.weight W + W.visit v') ∧
      (∀ W : Weighing Nat, W.visit v ≤ s.weight W)) ∨
    (a ≠ .main ∧ t.main = s.main ∧ t.fileSizes = s.fileSizes ∧
      t.pendingFileVisits = s.pendingFileVisits ∧ t.puts = s.puts ∧ t.polled = s.polled ∧
      (∀ {M : Type} [AddCommMonoid M] (W : Weighing M), t.weight W = s.weight W)) := by
  cases a with
  | main => exact Or.inl ⟨rfl, h⟩
  | timeout =>
    simp only [step] at h
    split at h
    · rename_i totalSize hm hq
      exact Or.inr (Or.inl ⟨totalSize, hm, hq, rfl, by simpa using h.symm⟩)
    · exact absurd h (by simp)
  | take =>
    obtain ⟨p, hp, rfl⟩ := Option.map_eq_some_iff.mp h
    refine Or.inr (Or.inr (Or.inr ⟨by simp, rfl, rfl, rfl, rfl, rfl, fun W => ?_⟩))
    simp only [State.weight]
    rw [FixedPool.weight_take (fun _ => rfl) hp]
  | task i =>
    simp only [step] at h
    split at h
    · rename_i v hv
      obtain ⟨⟨u, v'⟩, hu, rfl⟩ := Option.map_eq_some_iff.mp h
      obtain ⟨hum, hut, hup, -⟩ := exploreDir_spec hu
      have huv : u.service.tasks[i]? = some v := hut ▸ hv
      exact Or.inr (Or.inr (Or.inl ⟨v, u, v', hu, by simp, hum, rfl, rfl, rfl, hup,
        fun W => weight_task W huv v',
        fun W => le_trans (FixedPool.le_weight hv _ _) (Nat.le_add_left _ _)⟩))
    · exact absurd h (by simp)

/-! ## 4. The invariant -/

/-- What the calling thread has added up, until it throws. -/
def Main.added : Main → Option Long
  | .incrementAndGet _ | .execute _ => some 0
  | .pending totalSize | .size totalSize | .poll totalSize => some totalSize
  | .shutdown result | .ended result => result

/-- The calling thread has read a counter of zero since it last polled. -/
def Main.sawZero : Main → Bool
  | .size _ => true
  | .shutdown result | .ended result => result.isSome
  | _ => false

/-- The calling thread has also read an empty queue. -/
def Main.sawEmpty : Main → Bool
  | .shutdown result | .ended result => result.isSome
  | _ => false

structure Inv (root : File) (s : State) : Prop where
  size : s.main.added.isSome → s.fileSizes.sum + s.owed = getTotalsizeOfFilesInDir root
  pending : s.pendingFileVisits = (s.open_ : Int)
  history : s.puts = s.polled ++ s.fileSizes
  added : ∀ totalSize, s.main.added = some totalSize → totalSize = s.polled.sum
  /-- A counter of zero stays: no visit is left that could move. -/
  zero : s.main.sawZero = true → s.open_ = 0
  empty : s.main.sawEmpty = true → s.fileSizes = []

theorem inv_init (c n : Nat) (root : File) : Inv root (machine c n root).init := by
  refine ⟨?_, rfl, rfl, ?_, fun h => (by cases h), fun h => (by cases h)⟩
  · intro _
    simp [machine, State.weight, owing, Main.holds]
  · intro t ht
    cases ht
    rfl

/-- The calling thread's own steps. -/
theorem main_inv {root : File} {s t : State} (hi : Inv root s)
    (h : getTotalSizeOfFile s s.main = some t) : Inv root t := by
  have hsize := hi.size
  have hpending := hi.pending
  have hadded := hi.added
  cases hm : s.main with
  | incrementAndGet file =>
    rw [hm] at h hsize hadded
    cases h
    simp only [State.owed, State.open_, State.weight, hm] at hsize hpending
    refine ⟨hsize, ?_, hi.history, hadded, fun h => (by cases h), fun h => (by cases h)⟩
    simp only [State.open_, State.weight]
    rw [hpending]
    simp [opening, Main.announces, Int.add_comm]
  | execute file =>
    rw [hm] at h hsize hadded
    cases h
    simp only [State.owed, State.open_, State.weight, hm] at hsize hpending
    refine ⟨?_, ?_, hi.history, hadded, fun h => (by cases h), fun h => (by cases h)⟩
    · intro _
      simp only [State.owed, State.weight, FixedPool.weight_submit]
      rw [← hsize rfl]
      simp only [owing, Main.holds, Visit.owed]
      abel
    · simp only [State.open_, State.weight, FixedPool.weight_submit]
      rw [hpending]
      simp [opening, Main.announces, Visit.open_, Int.add_comm]
  | pending totalSize =>
    rw [hm] at h hsize hadded
    cases h
    simp only [State.owed, State.open_, State.weight, hm] at hsize hpending
    by_cases hpos : 0 < s.pendingFileVisits
    · simp only [if_pos hpos]
      exact ⟨hsize, hpending, hi.history, hadded, fun h => (by cases h), fun h => (by cases h)⟩
    · simp only [if_neg hpos]
      refine ⟨hsize, hpending, hi.history, hadded, ?_, fun h => (by cases h)⟩
      intro _
      -- the counter is not positive, so nothing is open
      simp only [State.open_, State.weight]
      have hm0 : opening.main (.size totalSize) = opening.main (.pending totalSize) := rfl
      rw [hm0]
      omega
  | size totalSize =>
    have hzero := hi.zero
    rw [hm] at h hsize hadded hzero
    cases h
    simp only [State.owed, State.open_, State.weight, hm] at hsize hpending hzero
    by_cases hpos : 0 < s.fileSizes.length
    · simp only [if_pos hpos]
      exact ⟨hsize, hpending, hi.history, hadded, fun h => (by cases h), fun h => (by cases h)⟩
    · simp only [if_neg hpos]
      exact ⟨hsize, hpending, hi.history, hadded, fun _ => hzero rfl,
        fun _ => List.length_eq_zero_iff.mp (Nat.eq_zero_of_not_pos hpos)⟩
  | poll totalSize =>
    rw [hm] at h hsize hadded
    simp only [getTotalSizeOfFile] at h
    split at h
    · rename_i x rest hq
      cases h
      simp only [State.owed, State.open_, State.weight, hm, hq] at hsize hpending
      refine ⟨fun _ => ?_, hpending, ?_, fun u hu => ?_, fun h => (by cases h),
        fun h => (by cases h)⟩
      · simp only [State.owed, State.weight]
        rw [← hsize rfl]
        simp only [owing, Main.holds, List.sum_cons]
        abel
      · rw [hi.history, hq, List.append_assoc, List.singleton_append]
      · cases hu
        rw [List.sum_append, List.sum_singleton, ← hadded totalSize rfl]
    · exact absurd h (by simp)
  | shutdown result =>
    have hzero := hi.zero
    have hempty := hi.empty
    rw [hm] at h hsize hadded hzero hempty
    cases h
    simp only [State.owed, State.open_, State.weight, hm] at hsize hpending hzero
    exact ⟨hsize, hpending, hi.history, hadded, hzero, hempty⟩
  | ended result => rw [hm] at h; cases h

theorem step_inv {c n : Nat} {root : File} {s t : State} {a : Act} (hi : Inv root s)
    (h : step c n s a = some t) : Inv root t := by
  rcases step_cases h with ⟨-, h⟩ | ⟨totalSize, hm, hq, -, rfl⟩ |
    ⟨v, u, v', hu, -, hm, hfs, hpend, hputs, hpolled, hW, hle⟩ |
    ⟨-, hm, hfs, hpend, hputs, hpolled, hW⟩
  · exact main_inv hi h
  · -- the poll times out: what is left of the invariant are the counter and the history
    have hpending := hi.pending
    simp only [State.open_, State.weight, hm] at hpending
    exact ⟨fun h => (by cases h), hpending, hi.history, fun _ h => (by cases h),
      fun h => (by cases h), fun h => (by cases h)⟩
  · -- one visit moves on, and it was open
    obtain ⟨-, -, -, ⟨x, hx, hxp⟩, hsize, hpending, hopen1, -⟩ := exploreDir_spec hu
    have hown : t.owed + v.owed = u.owed + v'.owed := hW owing
    have hopen : t.open_ + v.open_ = u.open_ + v'.open_ := hW opening
    have hvopen : v.open_ ≤ s.open_ := hle opening
    have hlive : s.open_ ≠ 0 := by omega
    refine ⟨?_, ?_, ?_, ?_, ?_, ?_⟩
    · intro hsome
      rw [hm] at hsome
      rw [hfs, ← hi.size hsome]
      refine add_right_cancel (b := v.owed) ?_
      rw [add_assoc, hown, hsize, add_assoc]
    · have hp := hi.pending
      rw [hpend]
      omega
    · rw [hputs, hpolled, hfs, hx, hxp, hi.history, List.append_assoc]
    · rw [hm, hpolled]; exact hi.added
    · intro hz
      rw [hm] at hz
      exact absurd (hi.zero hz) hlive
    · intro hz
      rw [hm] at hz
      refine absurd (hi.zero ?_) hlive
      cases hs : s.main <;> rw [hs] at hz <;> first | exact hz | cases hz
  · have hown : t.owed = s.owed := hW owing
    have hopen : t.open_ = s.open_ := hW opening
    refine ⟨?_, ?_, ?_, ?_, ?_, ?_⟩
    · rw [hm, hfs, hown]; exact hi.size
    · rw [hpend, hopen]; exact hi.pending
    · rw [hputs, hpolled, hfs]; exact hi.history
    · rw [hm, hpolled]; exact hi.added
    · rw [hm, hopen]; exact hi.zero
    · rw [hm, hfs]; exact hi.empty

theorem reachable_inv {c n : Nat} {root : File} {s : State}
    (h : (machine c n root).Reachable s) : Inv root s :=
  h.induct (inv_init c n root) fun _ _ _ _ hi hst => step_inv hi hst

/-! ## 5. The result -/

/-- When nothing is open, every registered visit has put. -/
theorem hasPut_of_open {s : State} (hm : s.main.announces = 0) (h : s.open_ = 0) :
    ∀ r ∈ s.registered, r.hasPut = true := by
  have hservice := (Nat.add_eq_zero_iff.mp h).2
  obtain ⟨htasks, hqueue⟩ := FixedPool.weight_eq_zero.mp hservice
  have hunput : s.unput = 0 := by
    refine Nat.add_eq_zero_iff.mpr ⟨hm, FixedPool.weight_eq_zero.mpr ⟨?_, hqueue⟩⟩
    intro v hv
    have hv0 : v.open_ = 0 := htasks v hv
    cases v <;> first | rfl | exact absurd hv0 (by simp [Visit.open_])
  rw [unput_eq_countP, List.countP_eq_zero] at hunput
  exact fun r hr => by simpa using hunput r hr

/-- When nothing is open, no visit owes anything. -/
theorem owed_of_open {s : State} (h : s.open_ = 0) : s.owed = s.main.holds := by
  have hservice := (Nat.add_eq_zero_iff.mp h).2
  obtain ⟨htasks, hqueue⟩ := FixedPool.weight_eq_zero.mp hservice
  have hw : s.service.weight (fun f => owing.visit (.enter f)) owing.visit = 0 := by
    refine FixedPool.weight_of_zero (fun v hv => ?_)
      fun f hf => absurd (hqueue f hf) Nat.one_ne_zero
    have hv0 : v.open_ = 0 := htasks v hv
    cases v <;> first | rfl | exact absurd hv0 (by simp [Visit.open_])
  rw [State.owed, State.weight, hw, add_zero]
  rfl

/-- **A normal return yields the complete total.**  Every size put on the queue was polled, once
and in order, no registered visit had still to put one, and the value returned is the sequential
total. -/
theorem returned_total {c n : Nat} {root : File} {s : State} {v : Long}
    (h : (machine c n root).Reachable s) (hret : s.main = .ended (some v)) :
    v = getTotalsizeOfFilesInDir root ∧ v = s.polled.sum ∧ s.polled = s.puts ∧
      s.fileSizes = [] ∧ ∀ r ∈ s.registered, r.hasPut = true := by
  have hi := reachable_inv h
  have hopen : s.open_ = 0 := hi.zero (by rw [hret]; rfl)
  have hempty : s.fileSizes = [] := hi.empty (by rw [hret]; rfl)
  have hsize := hi.size (by rw [hret]; rfl)
  have hhistory := hi.history
  rw [hempty, owed_of_open hopen, List.sum_nil, zero_add, hret] at hsize
  rw [hempty, List.append_nil] at hhistory
  exact ⟨hsize, hi.added v (by rw [hret]; rfl), hhistory.symm, hempty,
    hasPut_of_open (by rw [hret]; rfl) hopen⟩

/-- A run to the normal return, with a queue that holds one size. -/
theorem returned_total_nested :
    ∃ s, (machine 1 2 (.directory (some [.regular 3, .directory none]))).Reachable s ∧
      s.main = .ended (some 3) ∧ (3 : Long) = getTotalsizeOfFilesInDir
        (.directory (some [.regular 3, .directory none])) := by
  have h : (machine 1 2 (.directory (some [.regular 3, .directory none]))).Reachable
      _ := ⟨[.main, .main, .take, .task 0, .task 0, .task 0, .task 0, .take, .task 1, .task 0,
        .task 1, .main, .main, .task 0, .task 1, .task 0, .main, .main, .main, .main, .main,
        .main], rfl⟩
  exact ⟨_, h, rfl, (returned_total h rfl).1⟩

/-! ## 6. The poll -/

/-- A caller in `fileSizes.poll` finds a size, or some registered task has still to put one. -/
def Supplied (s : State) : Prop :=
  ∀ totalSize, s.main = .poll totalSize →
    s.fileSizes ≠ [] ∨ ∃ r ∈ s.registered, r.hasPut = false

/-- The window between the last put and its decrement: the queue is empty and every registered
task has put, but the counter is still positive. -/
def State.window (s : State) : Prop :=
  s.fileSizes = [] ∧ (∀ r ∈ s.registered, r.hasPut = true) ∧ 0 < s.pendingFileVisits

/-- The condition on a step: if it reads `pendingFileVisits` for the loop test, it does not read it
in the window. -/
def ReadsOutside (s : State) (a : Act) : Prop :=
  ∀ totalSize, s.main = .pending totalSize → a = .main → ¬ s.window

instance (s : State) : Decidable s.window :=
  inferInstanceAs (Decidable (s.fileSizes = [] ∧ (∀ r ∈ s.registered, r.hasPut = true) ∧
    0 < s.pendingFileVisits))

instance (s : State) (a : Act) : Decidable (ReadsOutside s a) :=
  match h : s.main with
  | .pending totalSize => decidable_of_iff (a = .main → ¬ s.window)
      ⟨fun h' _ _ => h', fun h' => h' totalSize h⟩
  | .incrementAndGet _ | .execute _ | .size _ | .poll _ | .shutdown _ | .ended _ =>
    .isTrue fun _ h' => nomatch h.symm.trans h'

theorem supplied_iff (s : State) :
    Supplied s ↔ ∀ totalSize, s.main = .poll totalSize → s.fileSizes ≠ [] ∨ 0 < s.unput := by
  simp only [Supplied, unput_pos_iff]

theorem window_iff (s : State) :
    s.window ↔ s.fileSizes = [] ∧ s.unput = 0 ∧ 0 < s.pendingFileVisits := by
  rw [State.window, unput_eq_countP, List.countP_eq_zero]
  simp

/-- A step of another thread keeps the poll supplied. -/
theorem supplied_of_other {c n : Nat} {s t : State} {a : Act} (hs : Supplied s)
    (ha : a ≠ .main) (h : step c n s a = some t) : Supplied t := by
  rw [supplied_iff] at hs ⊢
  intro totalSize ht
  rcases step_cases h with ⟨rfl, -⟩ | ⟨_, _, _, -, rfl⟩ |
    ⟨v, u, v', hu, -, hm, hfs, -, -, -, hW, -⟩ | ⟨-, hm, hfs, -, -, -, hW⟩
  · exact absurd rfl ha
  · exact absurd ht (by simp)
  · obtain ⟨-, -, -, ⟨x, hx, -⟩, -, -, -, hun⟩ := exploreDir_spec hu
    have hunput : t.unput + v.unput = u.unput + v'.unput := hW unputting
    rw [hfs]
    rcases hs totalSize (hm ▸ ht) with hne | hpos
    · left
      rw [hx]
      exact List.append_ne_nil_of_left_ne_nil hne x
    · rcases hun with hle | hne
      · right
        omega
      · exact Or.inl hne
  · have hunput : t.unput = s.unput := hW unputting
    rw [hfs, hunput]
    exact hs totalSize (hm ▸ ht)

/-- **One step.**  From a supplied state, a step leads to a supplied state exactly if it does not
read the counter in the window. -/
theorem supplied_step {c n : Nat} {s t : State} {a : Act} (hs : Supplied s)
    (h : step c n s a = some t) : Supplied t ↔ ReadsOutside s a := by
  by_cases ha : a = .main
  · subst ha
    change getTotalSizeOfFile s s.main = some t at h
    have htrivial : ∀ (hm : ∀ totalSize, s.main ≠ .pending totalSize), ReadsOutside s .main :=
      fun hm totalSize h' => absurd h' (hm totalSize)
    cases hm : s.main with
    | pending totalSize =>
      rw [hm] at h
      cases h
      by_cases hpos : 0 < s.pendingFileVisits
      · simp only [if_pos hpos]
        constructor
        · intro hsup totalSize' _ _ hwin
          obtain ⟨hempty, hput, -⟩ := hwin
          rcases hsup totalSize rfl with hne | ⟨r, hr, hno⟩
          · exact hne hempty
          · have hr' : r ∈ s.registered := by
              rw [State.registered, hm]
              exact hr
            rw [hput r hr'] at hno
            cases hno
        · intro hout
          rw [supplied_iff]
          intro totalSize' _
          by_contra hno
          push Not at hno
          refine hout totalSize hm rfl ((window_iff s).mpr ⟨hno.1, ?_, hpos⟩)
          have hunput : s.unput = ({ s with main := .poll totalSize } : State).unput := by
            simp only [State.unput, State.weight, hm]
            rfl
          exact hunput.trans (Nat.le_zero.mp hno.2)
      · simp only [if_neg hpos]
        exact ⟨fun _ _ _ _ hwin => hpos hwin.2.2, fun _ _ h' => (by cases h')⟩
    | size totalSize =>
      rw [hm] at h
      cases h
      refine ⟨fun _ => htrivial (by simp [hm]), ?_⟩
      intro _ totalSize' ht
      by_cases hpos : 0 < s.fileSizes.length
      · exact Or.inl (List.length_pos_iff.mp hpos)
      · simp only [if_neg hpos] at ht
        cases ht
    | poll totalSize =>
      rw [hm] at h
      simp only [getTotalSizeOfFile] at h
      split at h
      · cases h
        exact ⟨fun _ => htrivial (by simp [hm]), fun _ _ ht => (by cases ht)⟩
      · exact absurd h (by simp)
    | ended => rw [hm] at h; cases h
    | _ =>
      rw [hm] at h
      cases h
      exact ⟨fun _ => htrivial (by simp [hm]), fun _ _ ht => (by cases ht)⟩
  · exact ⟨fun _ _ _ h' => absurd h' ha, fun _ => supplied_of_other hs ha h⟩

/-- **When the poll is supplied.**  In every state of a run, a caller in `fileSizes.poll` finds a
size or a task that has still to put one, exactly if no step of the run reads
`pendingFileVisits` in the window between the last put and its decrement. -/
theorem consumer_supplied_iff {c n : Nat} {root : File} {as : List Act} {s : State}
    (h : (machine c n root).run (machine c n root).init as = some s) :
    (machine c n root).Along Supplied (machine c n root).init as ↔
      (machine c n root).Meets ReadsOutside (machine c n root).init as :=
  Machine.along_iff_meets (fun _ h' => (by cases h')) (fun _ _ _ _ hs hst => supplied_step hs hst) h

/-- The schedule in which the caller polls the only size, and reads the counter again before the
task that put it has decremented. -/
def overtaken : List Act :=
  [.main, .main, .take, .task 0, .task 0, .main, .main, .main]

/-- What that schedule leaves registered is past its put. -/
theorem overtaken_unsupplied {s : State}
    (h : (machine 500 100 (.regular 5)).run (machine 500 100 (.regular 5)).init overtaken = some s) :
    ¬ Supplied s := by
  cases h
  intro hs
  rcases hs 5 rfl with hne | ⟨r, hr, hno⟩
  · exact hne rfl
  · have hr' : r ∈ [Registered.active .decrementAndGet] := hr
    rw [List.mem_singleton.mp hr'] at hno
    cases hno

/-- The schedule in which the caller reads the counter before the task has put its size, polls the
size, and reads the counter again after the decrement. -/
def punctual : List Act :=
  [.main, .main, .main, .take, .task 0, .task 0, .main, .task 0, .main, .main, .main]

theorem consumer_supplied_iff_overtaken :
    ¬ (machine 500 100 (.regular 5)).Meets ReadsOutside (machine 500 100 (.regular 5)).init
      overtaken ∧
    ∃ s, (machine 500 100 (.regular 5)).run (machine 500 100 (.regular 5)).init punctual = some s ∧
      s.polled = [5] ∧ s.main = .ended (some 5) ∧ (machine 500 100 (.regular 5)).Along Supplied
        (machine 500 100 (.regular 5)).init punctual := by
  constructor
  · intro hmeets
    have halong := (consumer_supplied_iff rfl).mpr hmeets
    exact overtaken_unsupplied rfl (halong.last rfl)
  · obtain ⟨s, hrun, hpolled, hmain⟩ : ∃ s, (machine 500 100 (.regular 5)).run
        (machine 500 100 (.regular 5)).init punctual = some s ∧ s.polled = [5] ∧
        s.main = .ended (some 5) := ⟨_, rfl, rfl, rfl⟩
    exact ⟨s, hrun, hpolled, hmain, (consumer_supplied_iff hrun).mpr (by decide)⟩

/-- **The poll is not always supplied**: the last task has put its size, the caller has taken it
and polls again, and nothing is left to come. -/
theorem poll_unsupplied :
    ¬ ∀ (c n : Nat) (root : File) (s : State), 1 ≤ c → 1 ≤ n → (machine c n root).Reachable s →
      ∀ totalSize, s.main = .poll totalSize →
        s.fileSizes ≠ [] ∨ ∃ r ∈ s.registered, r.hasPut = false := by
  intro h
  exact overtaken_unsupplied rfl
    (h 500 100 (.regular 5) _ (by decide) (by decide) ⟨overtaken, rfl⟩)

/-- There the task ends, the poll times out, and the addition throws. -/
example : ((machine 500 100 (.regular 5)).run (machine 500 100 (.regular 5)).init
    (overtaken ++ [.task 0, .timeout, .main])).map State.main = some (.ended none) := rfl

end TotalFileSizeConcurrentWQueue
end JavaStudy
