/-
# `TotalFileSizeConcurrentWLatch`: a counter of pending visits and a latch

Every entry that is not a regular file is visited by a task of its own.  A visit is REGISTERED
when `pendingFileVisits` is incremented for it, which its parent does before it hands the task to
the pool, and the visit that decrements the counter to zero opens the latch.  The calling thread
runs the root's visit itself, then waits for the latch for at most 100 seconds, then reads
`totalSize` and shuts the pool down.

The machine takes one atomic operation a step (`incrementAndGet`, `service.execute`, `addAndGet`,
`decrementAndGet`, `countDown`), so a schedule is any interleaving of the caller with at most `n`
pool threads.  The wait may end by its timeout at any moment while the latch is closed
(`Act.timeout`); after the shutdown `execute` rejects, and a visit that meets the rejection is
over without its decrement.

Two sums over all the visits carry every proof: how many are registered and not decremented
(`State.open_`), and how much size they still have to add (`State.owed`).
-/
import JavaStudy.Lib.Machine
import JavaStudy.FileSize.Sequential

namespace JavaStudy
namespace TotalFileSizeConcurrentWLatch

open TotalFileSizeSequential

/-! ## 1. The program -/

/-- Where an activation of `updateTotalSizeOfFilesInDir` stands. -/
inductive Visit where
  /-- At the top of the method. -/
  | enter (file : File)
  /-- At the head of the `for` loop, with the children left. -/
  | scan (fileSize : Long) (children : List File)
  /-- Past `incrementAndGet`, before `service.execute`. -/
  | execute (fileSize : Long) (child : File) (children : List File)
  | addAndGet (fileSize : Long)
  | decrementAndGet
  | countDown
  | finished
  /-- `service.execute` threw `RejectedExecutionException`. -/
  | rejected (fileSize : Long) (child : File) (children : List File)

/-- Where the calling thread stands in `getTotalSizeOfFile`. -/
inductive Caller where
  | start (file : File)
  | visit (v : Visit)
  | await
  | longValue
  | shutdown (result : Long)
  | returned (result : Long)

structure State where
  pendingFileVisits : Int
  totalSize : Long
  /-- The count of the `CountDownLatch`. -/
  latch : Nat
  /-- How often `countDown` was called. -/
  countDowns : Nat
  isShutdown : Bool
  service : FixedPool File Visit
  caller : Caller

inductive Act where
  | caller
  | timeout
  | take
  | task (i : Nat)
  deriving DecidableEq

/-- A pool thread is free again once its visit is over. -/
def Visit.busy : Visit → Bool
  | .finished => false
  | .rejected _ _ _ => false
  | _ => true

/-- One step of `updateTotalSizeOfFilesInDir`. -/
def updateTotalSizeOfFilesInDir (s : State) : Visit → Option (State × Visit)
  | .enter file =>
    if file.isFile then some (s, .addAndGet file.length)
    else
      match file.listFiles with
      | some children => some (s, .scan 0 children)
      | none => some (s, .addAndGet 0)
  | .scan fileSize [] => some (s, .addAndGet fileSize)
  | .scan fileSize (child :: children) =>
    if child.isFile then some (s, .scan (fileSize + child.length) children)
    else
      some ({ s with pendingFileVisits := s.pendingFileVisits + 1 },
        .execute fileSize child children)
  | .execute fileSize child children =>
    if s.isShutdown then some (s, .rejected fileSize child children)
    else some ({ s with service := s.service.submit child }, .scan fileSize children)
  | .addAndGet fileSize =>
    some ({ s with totalSize := s.totalSize + fileSize }, .decrementAndGet)
  | .decrementAndGet =>
    some ({ s with pendingFileVisits := s.pendingFileVisits - 1 },
      if s.pendingFileVisits - 1 = 0 then .countDown else .finished)
  | .countDown =>
    some ({ s with latch := s.latch - 1, countDowns := s.countDowns + 1 }, .finished)
  | .finished => none
  | .rejected _ _ _ => none

/-- One step of the calling thread. -/
def getTotalSizeOfFile (s : State) : Caller → Option State
  | .start file =>
    some { s with pendingFileVisits := s.pendingFileVisits + 1, caller := .visit (.enter file) }
  | .visit .finished => some { s with caller := .await }
  | .visit v => (updateTotalSizeOfFilesInDir s v).map fun r => { r.1 with caller := .visit r.2 }
  | .await => if s.latch = 0 then some { s with caller := .longValue } else none
  | .longValue => some { s with caller := .shutdown s.totalSize }
  | .shutdown result => some { s with isShutdown := true, caller := .returned result }
  | .returned _ => none

def step (n : Nat) (s : State) : Act → Option State
  | .caller => getTotalSizeOfFile s s.caller
  | .timeout =>
    match s.caller with
    | .await => if s.latch = 0 then none else some { s with caller := .longValue }
    | _ => none
  | .take => (s.service.take Visit.busy n .enter).map fun p => { s with service := p }
  | .task i =>
    match s.service.tasks[i]? with
    | some v =>
      (updateTotalSizeOfFilesInDir s v).map fun r =>
        { r.1 with service := r.1.service.setTask i r.2 }
    | none => none

/-- `getTotalSizeOfFile` on `root`, with a pool of `n` threads. -/
def machine (n : Nat) (root : File) : Machine State Act where
  init :=
    { pendingFileVisits := 0, totalSize := 0, latch := 1, countDowns := 0, isShutdown := false,
      service := .empty, caller := .start root }
  step := step n

/-! ## 2. The registered visits, and sums over them

A visit is registered from its `incrementAndGet` on.  The visit that the caller runs itself and
those taken by pool threads are `active`; a queued one is `queued`; a child that was counted but
has not reached the queue is `announced` by its parent, and stays so if `execute` rejected it. -/

inductive Registered where
  | announced (child : File)
  | queued (file : File)
  | active (v : Visit)

def Visit.registered : Visit → List Registered
  | .execute fileSize child children =>
    [.active (.execute fileSize child children), .announced child]
  | .rejected fileSize child children =>
    [.active (.rejected fileSize child children), .announced child]
  | v => [.active v]

def Caller.registered : Caller → List Registered
  | .start _ => []
  | .visit v => v.registered
  | _ => [.active .finished]

/-- Every visit registered so far. -/
def State.registered (s : State) : List Registered :=
  s.caller.registered ++ s.service.tasks.flatMap Visit.registered
    ++ s.service.queue.map .queued

/-- The visit is past its `decrementAndGet`. -/
def Registered.decremented : Registered → Bool
  | .active .countDown => true
  | .active .finished => true
  | _ => false

/-- A value for each activation that a finished visit no longer has; a queued visit counts like
one that is just entered. -/
structure Weighing (M : Type) [AddCommMonoid M] where
  start : File → M
  visit : Visit → M
  finished : visit .finished = 0

section Weight

variable {M : Type} [AddCommMonoid M]

def Caller.weight (W : Weighing M) : Caller → M
  | .start file => W.start file
  | .visit v => W.visit v
  | _ => 0

/-- The values of all the visits, added up. -/
def State.weight (W : Weighing M) (s : State) : M :=
  s.caller.weight W + s.service.weight (fun f => W.visit (.enter f)) W.visit

/-- What one visit has still to add to `totalSize`, its unregistered sub-entries and the child it
announces included. -/
def Visit.owed : Visit → Long
  | .enter file => getTotalsizeOfFilesInDir file
  | .scan fileSize children => fileSize + (children.map getTotalsizeOfFilesInDir).sum
  | .execute fileSize child children
  | .rejected fileSize child children =>
    fileSize + getTotalsizeOfFilesInDir child + (children.map getTotalsizeOfFilesInDir).sum
  | .addAndGet fileSize => fileSize
  | .decrementAndGet | .countDown | .finished => 0

/-- How many visits one activation stands for that are registered and not decremented: itself,
and the child it announces. -/
def Visit.open_ : Visit → Nat
  | .execute _ _ _ | .rejected _ _ _ => 2
  | .countDown | .finished => 0
  | _ => 1

def Visit.closing : Visit → Nat
  | .countDown => 1
  | _ => 0

def owing : Weighing Long := ⟨getTotalsizeOfFilesInDir, Visit.owed, rfl⟩
def opening : Weighing Nat := ⟨fun _ => 0, Visit.open_, rfl⟩
def closing : Weighing Nat := ⟨fun _ => 0, Visit.closing, rfl⟩

/-- The size that is not in `totalSize` yet. -/
abbrev State.owed (s : State) : Long := s.weight owing

/-- How many visits are registered and not decremented, as a sum. -/
abbrev State.open_ (s : State) : Nat := s.weight opening

/-- How many visits are about to call `countDown`. -/
abbrev State.closing (s : State) : Nat := s.weight TotalFileSizeConcurrentWLatch.closing

end Weight

theorem countP_registered (v : Visit) :
    (v.registered.countP fun r => !r.decremented) = v.open_ := by
  cases v <;> rfl

/-- The sum `State.open_` counts the list of registered visits. -/
theorem open_eq_countP (s : State) :
    s.open_ = s.registered.countP fun r => !r.decremented := by
  have hcaller : (s.caller.registered.countP fun r => !r.decremented)
      = s.caller.weight opening := by
    cases s.caller with
    | visit v => exact countP_registered v
    | _ => rfl
  have htasks : ((s.service.tasks.flatMap Visit.registered).countP fun r => !r.decremented)
      = (s.service.tasks.map Visit.open_).sum := by
    rw [List.countP_flatMap]
    exact congrArg List.sum (List.map_congr_left fun v _ => countP_registered v)
  have hqueue : ((s.service.queue.map Registered.queued).countP fun r => !r.decremented)
      = (s.service.queue.map fun f => (Visit.enter f).open_).sum := by
    induction s.service.queue with
    | nil => rfl
    | cons f q ih =>
      rw [List.map_cons, List.map_cons, List.sum_cons, ← ih, List.countP_cons]
      exact Nat.add_comm _ _
  rw [State.registered, List.countP_append, List.countP_append, hcaller, htasks, hqueue,
    Nat.add_assoc]
  rfl

/-! ## 3. What one step does to the sums -/

section Weight

variable {M : Type} [AddCommMonoid M] (W : Weighing M)

/-! The sums read the pool and the caller only. -/

@[simp] theorem weight_setPending (s : State) (p : Int) :
    ({ s with pendingFileVisits := p } : State).weight W = s.weight W := rfl

@[simp] theorem weight_setTotal (s : State) (x : Long) :
    ({ s with totalSize := x } : State).weight W = s.weight W := rfl

theorem weight_submit (s : State) (f : File) :
    ({ s with service := s.service.submit f } : State).weight W
      = s.weight W + W.visit (.enter f) := by
  simp only [State.weight, FixedPool.weight_submit, add_assoc]

/-- The caller registers the root. -/
theorem weight_start {s : State} {file : File} (h : s.caller = .start file) (p : Int) :
    ({ s with pendingFileVisits := p, caller := .visit (.enter file) } : State).weight W
      + W.start file = s.weight W + W.visit (.enter file) := by
  simp only [State.weight, h, Caller.weight]
  abel

/-- The caller's own visit moves on. -/
theorem weight_visit {s : State} {v : Visit} (h : s.caller = .visit v) (v' : Visit) :
    ({ s with caller := .visit v' } : State).weight W + W.visit v = s.weight W + W.visit v' := by
  simp only [State.weight, h, Caller.weight]
  abel

/-- A pool thread's visit moves on. -/
theorem weight_task {s : State} {i : Nat} {v : Visit} (h : s.service.tasks[i]? = some v)
    (v' : Visit) :
    ({ s with service := s.service.setTask i v' } : State).weight W + W.visit v
      = s.weight W + W.visit v' := by
  simp only [State.weight, add_assoc, FixedPool.weight_setTask h]

end Weight

/-- Everything a step of a visit can do.  The last part is the part of the latch: the visit stays
open, or it decrements, or it calls `countDown`. -/
theorem update_spec {s u : State} {v v' : Visit}
    (h : updateTotalSizeOfFilesInDir s v = some (u, v')) :
    u.caller = s.caller ∧ u.service.tasks = s.service.tasks ∧
    u.totalSize + (u.owed + v'.owed) = s.totalSize + (s.owed + v.owed) ∧
    u.pendingFileVisits + (s.open_ + v.open_ : Nat)
      = s.pendingFileVisits + (u.open_ + v'.open_ : Nat) ∧
    u.closing = s.closing ∧
    ((1 ≤ v.open_ ∧ 1 ≤ v'.open_ ∧ v.closing = 0 ∧ v'.closing = 0 ∧ s.open_ ≤ u.open_ ∧
        u.latch = s.latch ∧ u.countDowns = s.countDowns) ∨
      (v = .decrementAndGet ∧ u.open_ = s.open_ ∧ v'.open_ = 0 ∧
        v'.closing = (if s.pendingFileVisits - 1 = 0 then 1 else 0) ∧
        u.latch = s.latch ∧ u.countDowns = s.countDowns) ∨
      (v = .countDown ∧ v' = .finished ∧ u.open_ = s.open_ ∧
        u.latch = s.latch - 1 ∧ u.countDowns = s.countDowns + 1)) := by
  cases v with
  | enter file =>
    simp only [updateTotalSizeOfFilesInDir] at h
    split at h
    · rename_i hfile
      cases h
      simp [Visit.owed, Visit.open_, Visit.closing, total_of_isFile hfile]
    · rename_i hfile
      rw [Bool.not_eq_true] at hfile
      split at h
      · rename_i cs hcs
        cases h
        simp [Visit.owed, Visit.open_, Visit.closing, total_of_listFiles hcs]
      · rename_i hnull
        cases h
        simp [Visit.owed, Visit.open_, Visit.closing, total_of_null hfile hnull]
  | scan fileSize children =>
    cases children with
    | nil =>
      simp only [updateTotalSizeOfFilesInDir, Option.some.injEq, Prod.mk.injEq] at h
      obtain ⟨rfl, rfl⟩ := h
      simp [Visit.owed, Visit.open_, Visit.closing]
    | cons child children =>
      simp only [updateTotalSizeOfFilesInDir] at h
      split at h
      · rename_i hfile
        cases h
        simp [Visit.owed, Visit.open_, Visit.closing, total_of_isFile hfile, add_assoc]
      · cases h
        refine ⟨rfl, rfl, ?_, ?_, rfl, Or.inl ?_⟩
        · simp [Visit.owed, add_assoc]
        · simp only [State.open_, weight_setPending, Visit.open_]
          omega
        · simp [Visit.open_, Visit.closing]
  | execute fileSize child children =>
    simp only [updateTotalSizeOfFilesInDir] at h
    split at h
    · cases h
      simp [Visit.owed, Visit.open_, Visit.closing]
    · cases h
      refine ⟨rfl, rfl, ?_, ?_, ?_, Or.inl ?_⟩
      · have hq : owing.visit (.enter child) = getTotalsizeOfFilesInDir child := rfl
        simp only [State.owed, weight_submit, hq, Visit.owed]
        abel
      · have hq : opening.visit (.enter child) = 1 := rfl
        simp only [State.open_, weight_submit, hq, Visit.open_]
      · exact weight_submit closing s child
      · refine ⟨Nat.le_succ 1, le_rfl, rfl, rfl, ?_, rfl, rfl⟩
        exact le_of_le_of_eq (Nat.le_add_right _ _) (weight_submit opening s child).symm
  | addAndGet fileSize =>
    simp only [updateTotalSizeOfFilesInDir, Option.some.injEq, Prod.mk.injEq] at h
    obtain ⟨rfl, rfl⟩ := h
    refine ⟨rfl, rfl, ?_, rfl, rfl, Or.inl ?_⟩
    · simp only [weight_setTotal, Visit.owed]
      abel
    · simp [Visit.open_, Visit.closing]
  | decrementAndGet =>
    simp only [updateTotalSizeOfFilesInDir, Option.some.injEq, Prod.mk.injEq] at h
    obtain ⟨rfl, rfl⟩ := h
    refine ⟨rfl, rfl, ?_, ?_, rfl, Or.inr (Or.inl ?_)⟩
    · split <;> rfl
    · split <;> simp [Visit.open_]
    · split <;> simp [Visit.open_, Visit.closing]
  | countDown =>
    simp only [updateTotalSizeOfFilesInDir, Option.some.injEq, Prod.mk.injEq] at h
    obtain ⟨rfl, rfl⟩ := h
    exact ⟨rfl, rfl, rfl, rfl, rfl, Or.inr (Or.inr ⟨rfl, rfl, rfl, rfl, rfl⟩)⟩
  | finished => cases h
  | rejected => cases h

/-- The caller's visit of the root: a step of the visit, or its end. -/
theorem caller_visit_cases {s t : State} {v : Visit}
    (h : getTotalSizeOfFile s (.visit v) = some t) :
    (v = .finished ∧ t = { s with caller := .await }) ∨
    ∃ u v', updateTotalSizeOfFilesInDir s v = some (u, v') ∧ t = { u with caller := .visit v' } := by
  by_cases hv : v = .finished
  · subst hv
    exact Or.inl ⟨rfl, by simpa [getTotalSizeOfFile] using h.symm⟩
  · have hstep : getTotalSizeOfFile s (.visit v)
        = (updateTotalSizeOfFilesInDir s v).map fun r => { r.1 with caller := .visit r.2 } := by
      cases v <;> first | rfl | exact absurd rfl hv
    rw [hstep] at h
    obtain ⟨⟨u, v'⟩, hu, rfl⟩ := Option.map_eq_some_iff.mp h
    exact Or.inr ⟨u, v', hu, rfl⟩

/-- **Everything a step of the machine can do.**  It is the caller's registration of the root; or a
step of one visit `v`, on the caller or on a pool thread, which becomes `v'`; or it changes
neither the counters nor the sums (the caller goes on, a thread takes a task). -/
theorem step_cases {n : Nat} {s t : State} {a : Act} (h : step n s a = some t) :
    (∃ file, s.caller = .start file ∧ t.caller = .visit (.enter file) ∧
      t.pendingFileVisits = s.pendingFileVisits + 1 ∧ t.totalSize = s.totalSize ∧
      t.latch = s.latch ∧ t.countDowns = s.countDowns ∧
      (∀ {M : Type} [AddCommMonoid M] (W : Weighing M),
        t.weight W + W.start file = s.weight W + W.visit (.enter file))) ∨
    (∃ v u v', updateTotalSizeOfFilesInDir s v = some (u, v') ∧
      t.pendingFileVisits = u.pendingFileVisits ∧ t.totalSize = u.totalSize ∧
      t.latch = u.latch ∧ t.countDowns = u.countDowns ∧
      (∀ file, t.caller = .start file → s.caller = .start file ∧ v ∈ s.service.tasks) ∧
      (∀ {M : Type} [AddCommMonoid M] (W : Weighing M),
        t.weight W + W.visit v = u.weight W + W.visit v') ∧
      (∀ W : Weighing Nat, W.visit v ≤ s.weight W)) ∨
    (t.pendingFileVisits = s.pendingFileVisits ∧ t.totalSize = s.totalSize ∧
      t.latch = s.latch ∧ t.countDowns = s.countDowns ∧
      (∀ file, t.caller = .start file → s.caller = .start file ∧ s.service.queue ≠ []) ∧
      (∀ {M : Type} [AddCommMonoid M] (W : Weighing M), t.weight W = s.weight W)) := by
  cases a with
  | caller =>
    simp only [step] at h
    cases hc : s.caller with
    | start file =>
      rw [hc] at h
      simp only [getTotalSizeOfFile, Option.some.injEq] at h
      subst h
      exact Or.inl ⟨file, rfl, rfl, rfl, rfl, rfl, rfl, fun W => weight_start W hc _⟩
    | visit v =>
      rw [hc] at h
      rcases caller_visit_cases h with ⟨rfl, rfl⟩ | ⟨u, v', hu, rfl⟩
      · refine Or.inr (Or.inr ⟨rfl, rfl, rfl, rfl, fun file hf => (by cases hf), fun W => ?_⟩)
        simp only [State.weight, hc, Caller.weight, W.finished]
      · have huc : u.caller = .visit v := (update_spec hu).1.trans hc
        refine Or.inr (Or.inl ⟨v, u, v', hu, rfl, rfl, rfl, rfl, fun file hf => (by cases hf),
          fun W => weight_visit W huc v', fun W => ?_⟩)
        simp only [State.weight, hc, Caller.weight]
        exact Nat.le_add_right _ _
    | await =>
      rw [hc] at h
      simp only [getTotalSizeOfFile] at h
      split at h
      · cases h
        refine Or.inr (Or.inr ⟨rfl, rfl, rfl, rfl, fun file hf => (by cases hf), fun W => ?_⟩)
        simp only [State.weight, hc, Caller.weight]
      · exact absurd h (by simp)
    | longValue =>
      rw [hc] at h
      cases h
      refine Or.inr (Or.inr ⟨rfl, rfl, rfl, rfl, fun file hf => (by cases hf), fun W => ?_⟩)
      simp only [State.weight, hc, Caller.weight]
    | shutdown result =>
      rw [hc] at h
      cases h
      refine Or.inr (Or.inr ⟨rfl, rfl, rfl, rfl, fun file hf => (by cases hf), fun W => ?_⟩)
      simp only [State.weight, hc, Caller.weight]
    | returned result => rw [hc] at h; cases h
  | timeout =>
    simp only [step] at h
    split at h
    · rename_i hc
      split at h
      · exact absurd h (by simp)
      · cases h
        refine Or.inr (Or.inr ⟨rfl, rfl, rfl, rfl, fun file hf => (by cases hf), fun W => ?_⟩)
        simp only [State.weight, hc, Caller.weight]
    · exact absurd h (by simp)
  | take =>
    obtain ⟨p, hp, rfl⟩ := Option.map_eq_some_iff.mp h
    refine Or.inr (Or.inr ⟨rfl, rfl, rfl, rfl, fun file hf => ⟨hf, ?_⟩, fun W => ?_⟩)
    · obtain ⟨f, rest, hq, -, -⟩ := FixedPool.take_eq_some hp
      rw [hq]
      exact List.cons_ne_nil _ _
    · simp only [State.weight]
      rw [FixedPool.weight_take (fun _ => rfl) hp]
  | task i =>
    simp only [step] at h
    split at h
    · rename_i v hv
      obtain ⟨⟨u, v'⟩, hu, rfl⟩ := Option.map_eq_some_iff.mp h
      obtain ⟨huc, hut, -⟩ := update_spec hu
      have huv : u.service.tasks[i]? = some v := hut ▸ hv
      refine Or.inr (Or.inl ⟨v, u, v', hu, rfl, rfl, rfl, rfl, fun file hf => ⟨huc ▸ hf, ?_⟩,
        fun W => weight_task W huv v', fun W => ?_⟩)
      · exact List.mem_of_getElem? hv
      · exact le_trans (FixedPool.le_weight hv _ _) (Nat.le_add_left _ _)
    · exact absurd h (by simp)

/-! ## 4. The invariant -/

structure Inv (root : File) (s : State) : Prop where
  size : s.totalSize + s.owed = getTotalsizeOfFilesInDir root
  pending : s.pendingFileVisits = (s.open_ : Int)
  latch : s.latch + s.countDowns = 1
  once : s.countDowns + s.closing ≤ 1
  /-- Whoever brings the counter to zero is the last: nothing is open any more. -/
  last : 1 ≤ s.countDowns + s.closing → s.open_ = 0
  fresh : ∀ file, s.caller = .start file →
    s.service.tasks = [] ∧ s.service.queue = [] ∧ s.countDowns + s.closing = 0

theorem inv_init (n : Nat) (root : File) : Inv root (machine n root).init := by
  refine ⟨?_, rfl, rfl, Nat.zero_le _, ?_, fun _ _ => ⟨rfl, rfl, rfl⟩⟩
  · simp [machine, State.weight, Caller.weight, owing]
  · intro h
    simp [machine, State.weight, Caller.weight, closing] at h

theorem step_inv {n : Nat} {root : File} {s t : State} {a : Act} (hi : Inv root s)
    (h : step n s a = some t) : Inv root t := by
  rcases step_cases h with ⟨file, hc, hc', hpend, htot, hlatch, hcd, hW⟩ |
    ⟨v, u, v', hu, hpend, htot, hlatch, hcd, hfresh, hW, hle⟩ |
    ⟨hpend, htot, hlatch, hcd, hfresh, hW⟩
  · -- the root is registered
    have hown : t.owed + getTotalsizeOfFilesInDir file
        = s.owed + getTotalsizeOfFilesInDir file := hW owing
    have hopen : t.open_ + 0 = s.open_ + 1 := hW opening
    have hclose : t.closing + 0 = s.closing + 0 := hW closing
    obtain ⟨-, -, hzero⟩ := hi.fresh file hc
    have hp := hi.pending
    have hl := hi.latch
    refine ⟨?_, by omega, by omega, by omega, by omega, ?_⟩
    · rw [htot, add_right_cancel hown]
      exact hi.size
    · intro file' hf
      rw [hc'] at hf
      cases hf
  · -- one visit moves on
    obtain ⟨-, -, hsize, hpending, hclosing, hcases⟩ := update_spec hu
    have hown : t.owed + v.owed = u.owed + v'.owed := hW owing
    have hopen : t.open_ + v.open_ = u.open_ + v'.open_ := hW opening
    have hclose : t.closing + v.closing = u.closing + v'.closing := hW closing
    have hvopen : v.open_ ≤ s.open_ := hle opening
    have hvclose : v.closing ≤ s.closing := hle closing
    have hp := hi.pending
    have hl := hi.latch
    have ho := hi.once
    have hlast := hi.last
    have hfr : ∀ file, t.caller = .start file → t.service.tasks = [] ∧ t.service.queue = [] ∧
        t.countDowns + t.closing = 0 := by
      intro file hf
      obtain ⟨hs, hv⟩ := hfresh file hf
      rw [(hi.fresh file hs).1] at hv
      cases hv
    have hsz : t.totalSize + t.owed = getTotalsizeOfFilesInDir root := by
      rw [← hi.size, htot]
      refine add_right_cancel (b := v.owed) ?_
      rw [add_assoc, hown, hsize, add_assoc]
    have hpd : t.pendingFileVisits = (t.open_ : Int) := by
      rw [hpend]
      omega
    rcases hcases with ⟨h1, h2, h3, h4, -, h6, h7⟩ | ⟨rfl, h2, h3, h4, h5, h6⟩ |
      ⟨rfl, rfl, h2, h3, h4⟩
    · -- still open, so the counter was not at zero
      refine ⟨hsz, hpd, ?_, ?_, ?_, hfr⟩ <;> omega
    · -- a decrement; it brings the counter to zero exactly if nothing else is open
      have hd1 : Visit.decrementAndGet.open_ = 1 := rfl
      have hd2 : Visit.decrementAndGet.closing = 0 := rfl
      have hclosed : s.countDowns + s.closing = 0 := by omega
      refine ⟨hsz, hpd, by omega, ?_, ?_, hfr⟩
      · split at h4 <;> omega
      · intro h1
        split at h4 <;> omega
    · -- the latch is opened
      have hd1 : Visit.countDown.open_ = 0 := rfl
      have hd2 : Visit.countDown.closing = 1 := rfl
      have hf1 : Visit.finished.open_ = 0 := rfl
      have hf2 : Visit.finished.closing = 0 := rfl
      refine ⟨hsz, hpd, ?_, ?_, ?_, hfr⟩ <;> omega
  · -- nothing changes in the sums
    have hown : t.owed = s.owed := hW owing
    have hopen : t.open_ = s.open_ := hW opening
    have hclose : t.closing = s.closing := hW closing
    refine ⟨?_, ?_, ?_, ?_, ?_, ?_⟩
    · rw [htot, hown]; exact hi.size
    · rw [hpend, hopen]; exact hi.pending
    · rw [hlatch, hcd]; exact hi.latch
    · rw [hcd, hclose]; exact hi.once
    · rw [hcd, hclose, hopen]; exact hi.last
    · intro file hf
      obtain ⟨hs, hq⟩ := hfresh file hf
      exact absurd (hi.fresh file hs).2.1 hq

theorem reachable_inv {n : Nat} {root : File} {s : State} (h : (machine n root).Reachable s) :
    Inv root s :=
  h.induct (inv_init n root) fun _ _ _ _ hi hst => step_inv hi hst

/-- A visit that is past its decrement owes nothing. -/
theorem owed_of_open {v : Visit} (h : v.open_ = 0) : v.owed = 0 := by
  cases v <;> first | rfl | exact absurd h (by simp [Visit.open_])

/-- **When nothing is open, the sum is complete.** -/
theorem owed_of_open_eq_zero {s : State} (hc : ∀ file, s.caller ≠ .start file)
    (h : s.open_ = 0) : s.owed = 0 := by
  obtain ⟨hcaller, hservice⟩ := Nat.add_eq_zero_iff.mp h
  have hcw : s.caller.weight owing = 0 := by
    cases hs : s.caller with
    | start file => exact absurd hs (hc file)
    | visit v => rw [hs] at hcaller; exact owed_of_open hcaller
    | _ => rfl
  obtain ⟨htasks, hqueue⟩ := FixedPool.weight_eq_zero.mp hservice
  have hsw : s.service.weight (fun f => owing.visit (.enter f)) owing.visit = 0 :=
    FixedPool.weight_of_zero (fun v hv => owed_of_open (htasks v hv))
      fun f hf => absurd (hqueue f hf) Nat.one_ne_zero
  rw [State.owed, State.weight, hcw, hsw, add_zero]

/-- In a state with the latch open, every visit is decremented and the sum is complete. -/
theorem complete_of_latch {root : File} {s : State} (hi : Inv root s) (h : s.latch = 0) :
    s.countDowns = 1 ∧ s.open_ = 0 ∧ s.totalSize = getTotalsizeOfFilesInDir root := by
  have hcount : s.countDowns = 1 := by
    have := hi.latch
    omega
  have hopen : s.open_ = 0 := hi.last (by omega)
  have hstart : ∀ file, s.caller ≠ .start file := fun file hf => by
    have := (hi.fresh file hf).2.2
    omega
  refine ⟨hcount, hopen, ?_⟩
  have hsize := hi.size
  rw [owed_of_open_eq_zero hstart hopen, add_zero] at hsize
  exact hsize

/-- **The counter counts, and the latch opens on the complete sum.**  In every reachable state
`pendingFileVisits` is the number of registered visits whose decrement has not happened.  In every
reachable state with the latch open, every registered visit has done its decrement, so none is
queued or scanning; the sum is the sequential total; and `countDown` was called once. -/
theorem latch_opens_on_total {n : Nat} {root : File} {s : State}
    (h : (machine n root).Reachable s) :
    s.pendingFileVisits = ((s.registered.countP fun r => !r.decremented : Nat) : Int) ∧
    (s.latch = 0 →
      (∀ r ∈ s.registered, r.decremented = true) ∧ s.service.queue = [] ∧
      (∀ v ∈ s.service.tasks, v = .countDown ∨ v = .finished) ∧
      s.totalSize = getTotalsizeOfFilesInDir root ∧ s.countDowns = 1) := by
  have hi := reachable_inv h
  refine ⟨open_eq_countP s ▸ hi.pending, ?_⟩
  intro hlatch
  obtain ⟨hcount, hopen, htotal⟩ := complete_of_latch hi hlatch
  have hall : ∀ r ∈ s.registered, r.decremented = true := by
    rw [open_eq_countP, List.countP_eq_zero] at hopen
    exact fun r hr => by simpa using hopen r hr
  refine ⟨hall, ?_, ?_, htotal, hcount⟩
  · refine List.eq_nil_iff_forall_not_mem.mpr ?_
    intro f hf
    have := hall (.queued f) (List.mem_append_right _ (List.mem_map_of_mem hf))
    cases this
  · intro v hv
    have hmem : Registered.active v ∈ s.registered := by
      refine List.mem_append_left _ (List.mem_append_right _ (List.mem_flatMap.mpr ⟨v, hv, ?_⟩))
      cases v <;> exact List.mem_cons_self
    have := hall _ hmem
    cases v <;> first | exact Or.inl rfl | exact Or.inr rfl | cases this

/-- A run to the open latch, on a directory that holds a file and a directory. -/
theorem latch_opens_on_total_nested :
    ∃ s, (machine 2 (.directory (some [.regular 3, .directory (some [.regular 4])]))).Reachable s ∧
      s.latch = 0 ∧ s.totalSize = 7 := by
  have h : (machine 2 (.directory (some [.regular 3, .directory (some [.regular 4])]))).Reachable
      _ := ⟨[.caller, .caller, .caller, .caller, .caller, .take, .task 0, .task 0, .task 0,
        .caller, .task 0, .task 0, .caller, .caller, .caller], rfl⟩
  exact ⟨_, h, rfl, ((latch_opens_on_total h).2 rfl).2.2.2.1⟩

/-! ## 5. What the method returns -/

/-- The value that the caller has read. -/
def Caller.result : Caller → Option Long
  | .shutdown result => some result
  | .returned result => some result
  | _ => none

/-- What a step does to the caller: the caller moves, or a wait times out, or another thread
moves. -/
theorem caller_cases {n : Nat} {s t : State} {a : Act} (h : step n s a = some t) :
    (a = .caller ∧ getTotalSizeOfFile s s.caller = some t) ∨
    (a = .timeout ∧ s.caller = .await ∧ t = { s with caller := .longValue }) ∨
    (t.caller = s.caller ∧ a ≠ .caller ∧ a ≠ .timeout) := by
  cases a with
  | caller => exact Or.inl ⟨rfl, h⟩
  | timeout =>
    simp only [step] at h
    split at h
    · rename_i hc
      split at h
      · exact absurd h (by simp)
      · exact Or.inr (Or.inl ⟨rfl, hc, by simpa using h.symm⟩)
    · exact absurd h (by simp)
  | take =>
    obtain ⟨p, -, rfl⟩ := Option.map_eq_some_iff.mp h
    exact Or.inr (Or.inr ⟨rfl, by simp, by simp⟩)
  | task i =>
    simp only [step] at h
    split at h
    · obtain ⟨⟨u, v'⟩, hu, rfl⟩ := Option.map_eq_some_iff.mp h
      exact Or.inr (Or.inr ⟨(update_spec hu).1, by simp, by simp⟩)
    · exact absurd h (by simp)

/-- A step either reads `totalSize`, or leaves the caller's result as it is. -/
theorem result_step {n : Nat} {s t : State} {a : Act} (h : step n s a = some t) :
    (s.caller = .longValue ∧ a = .caller ∧ t.caller.result = some s.totalSize) ∨
    (t.caller.result = s.caller.result ∧ ¬ (s.caller = .longValue ∧ a = .caller)) := by
  rcases caller_cases h with ⟨rfl, hc⟩ | ⟨rfl, hc, rfl⟩ | ⟨hc, hne, -⟩
  · cases hs : s.caller with
    | visit v =>
      rw [hs] at hc
      rcases caller_visit_cases hc with ⟨-, rfl⟩ | ⟨u, v', -, rfl⟩ <;> exact Or.inr ⟨rfl, by simp⟩
    | await =>
      rw [hs] at hc
      simp only [getTotalSizeOfFile] at hc
      split at hc
      · cases hc
        exact Or.inr ⟨rfl, by simp⟩
      · exact absurd hc (by simp)
    | longValue =>
      rw [hs] at hc
      cases hc
      exact Or.inl ⟨rfl, rfl, rfl⟩
    | returned => rw [hs] at hc; cases hc
    | _ =>
      rw [hs] at hc
      cases hc
      exact Or.inr ⟨rfl, by simp⟩
  · exact Or.inr ⟨by rw [hc]; rfl, by simp⟩
  · exact Or.inr ⟨by rw [hc], fun h' => hne h'.2⟩

/-- The wait ends with the latch open, or by its timeout. -/
theorem longValue_step {n : Nat} {s t : State} {a : Act} (h : step n s a = some t)
    (ht : t.caller = .longValue) : s.caller = .longValue ∨ s.latch = 0 ∨ a = .timeout := by
  rcases caller_cases h with ⟨rfl, hc⟩ | ⟨rfl, -, -⟩ | ⟨hc, -, -⟩
  · cases hs : s.caller with
    | visit v =>
      rw [hs] at hc
      rcases caller_visit_cases hc with ⟨-, rfl⟩ | ⟨u, v', -, rfl⟩ <;> cases ht
    | await =>
      rw [hs] at hc
      simp only [getTotalSizeOfFile] at hc
      split at hc
      · exact Or.inr (Or.inl ‹_›)
      · exact absurd hc (by simp)
    | longValue => exact Or.inl rfl
    | returned => rw [hs] at hc; cases hc
    | _ => rw [hs] at hc; cases hc; cases ht
  · exact Or.inr (Or.inr rfl)
  · exact Or.inl (hc ▸ ht)

/-- The latch never closes again. -/
theorem latch_mono {n : Nat} {s t : State} {a : Act} (h : step n s a = some t) :
    t.latch ≤ s.latch := by
  rcases step_cases h with ⟨-, -, -, -, -, hl, -⟩ | ⟨v, u, v', hu, -, -, hl, -⟩ | ⟨-, -, hl, -⟩
  · exact hl.le
  · obtain ⟨-, -, -, -, -, hcases⟩ := update_spec hu
    rcases hcases with ⟨-, -, -, -, -, h', -⟩ | ⟨-, -, -, -, h', -⟩ | ⟨-, -, -, h', -⟩ <;> omega
  · exact hl.le

/-- The condition on a step: if it reads `totalSize` for the result, then the sizes that the
registered visits have still to add come to zero (modulo 2^64). -/
def ReadsComplete (s : State) (a : Act) : Prop :=
  s.caller = .longValue → a = .caller → s.owed = 0

/-- Along a run, the value read is the sequential total exactly if the read met its condition. -/
theorem result_eq_total_iff {n : Nat} {root : File} {as : List Act} {s : State}
    (h : (machine n root).run (machine n root).init as = some s) :
    (s.caller.result = none → (machine n root).Meets ReadsComplete (machine n root).init as) ∧
    ∀ v, s.caller.result = some v → (v = getTotalsizeOfFilesInDir root ↔
      (machine n root).Meets ReadsComplete (machine n root).init as) := by
  induction as using List.reverseRecOn generalizing s with
  | nil =>
    cases h
    exact ⟨fun _ => trivial, fun v hv => (by cases hv)⟩
  | append_singleton as a ih =>
    obtain ⟨u, hu, hst⟩ := Machine.run_concat_eq_some h
    obtain ⟨ihnone, ihsome⟩ := ih hu
    have hmeets : (machine n root).Meets ReadsComplete (machine n root).init (as ++ [a]) ↔
        (machine n root).Meets ReadsComplete (machine n root).init as ∧ ReadsComplete u a := by
      rw [Machine.meets_concat]
      refine and_congr_right fun _ => ⟨fun h' => h' u hu, ?_⟩
      intro h' t ht
      rw [hu, Option.some.injEq] at ht
      exact ht ▸ h'
    rw [hmeets]
    rcases result_step hst with ⟨hread, rfl, hres⟩ | ⟨hres, hno⟩
    · -- the read: its value is what the sum lacks nothing of
      have hbefore := ihnone (by rw [hread]; rfl)
      have hsize := (reachable_inv ⟨as, hu⟩).size
      rw [hres]
      refine ⟨fun hnone => (by cases hnone), ?_⟩
      intro v hv
      rw [Option.some.injEq] at hv
      rw [← hv, ← hsize]
      constructor
      · intro heq
        exact ⟨hbefore, fun _ _ => left_eq_add.mp heq⟩
      · intro hmeet
        rw [hmeet.2 hread rfl, add_zero]
    · have hC : ReadsComplete u a := fun h1 h2 => absurd ⟨h1, h2⟩ hno
      rw [hres]
      exact ⟨fun hnone => ⟨ihnone hnone, hC⟩,
        fun v hv => (ihsome v hv).trans ⟨fun hm => ⟨hm, hC⟩, And.left⟩⟩

/-- Without a timeout, the caller reads `totalSize` with the latch open. -/
theorem result_of_no_timeout {n : Nat} {root : File} {s : State}
    (h : (machine n root).Within (fun _ a => a ≠ .timeout) s) :
    (s.caller = .longValue → s.latch = 0) ∧
    ∀ v, s.caller.result = some v → v = getTotalsizeOfFilesInDir root := by
  refine h.induct (I := fun s => (s.caller = .longValue → s.latch = 0) ∧
    ∀ v, s.caller.result = some v → v = getTotalsizeOfFilesInDir root)
    ⟨fun h' => (by cases h'), fun v hv => (by cases hv)⟩ ?_
  intro s a t hr ih hC hst
  constructor
  · intro ht
    have hle := latch_mono hst
    rcases longValue_step hst ht with hs | hs | rfl
    · have := ih.1 hs
      omega
    · omega
    · exact absurd rfl hC
  · intro v hv
    rcases result_step hst with ⟨hread, -, hres⟩ | ⟨hres, -⟩
    · rw [hres, Option.some.injEq] at hv
      exact hv ▸ (complete_of_latch (reachable_inv hr) (ih.1 hread)).2.2
    · exact ih.2 v (hres ▸ hv)

/-- **When a normal return yields the complete size.**  The result of a run is the sequential
total exactly if `totalSize` was read in a state in which the registered visits owe nothing
(modulo 2^64); and it is whenever the wait did not time out. -/
theorem returned_eq_total_iff {n : Nat} {root : File} {as : List Act} {s : State} {v : Long}
    (h : (machine n root).run (machine n root).init as = some s)
    (hret : s.caller = .returned v) :
    (v = getTotalsizeOfFilesInDir root ↔
      (machine n root).Meets ReadsComplete (machine n root).init as) ∧
    (.timeout ∉ as → v = getTotalsizeOfFilesInDir root) := by
  have hres : s.caller.result = some v := by rw [hret]; rfl
  refine ⟨(result_eq_total_iff h).2 v hres, ?_⟩
  intro hno
  have hmeets : (machine n root).Meets (fun _ a => a ≠ .timeout) (machine n root).init as :=
    Machine.meets_of_forall (fun a ha _ h' => by subst h'; exact hno ha) _
  exact (result_of_no_timeout ⟨as, h, hmeets⟩).2 v hres

/-- A directory in a directory. -/
def twoLevels : File := .directory (some [.directory (some [.regular 5])])

/-- The caller's own visit is over, and it waits for the sub-directory's task. -/
def ownVisit : List Act := List.replicate 8 .caller

/-- The schedule in which the wait times out before that task has started. -/
def impatient : List Act := ownVisit ++ [.timeout, .caller, .caller]

/-- The schedule in which that task opens the latch. -/
def patient : List Act :=
  ownVisit ++ [.take, .task 0, .task 0, .task 0, .task 0, .task 0, .task 0, .caller, .caller,
    .caller]

theorem returned_eq_total_iff_impatient :
    ¬ (machine 100 twoLevels).Meets ReadsComplete (machine 100 twoLevels).init impatient ∧
    (machine 100 twoLevels).Meets ReadsComplete (machine 100 twoLevels).init patient ∧
    ∃ s, (machine 100 twoLevels).run (machine 100 twoLevels).init patient = some s ∧
      s.caller = .returned 5 ∧ (5 : Long) = getTotalsizeOfFilesInDir twoLevels := by
  obtain ⟨s, hrun, hret⟩ : ∃ s, (machine 100 twoLevels).run (machine 100 twoLevels).init patient
      = some s ∧ s.caller = .returned 5 := ⟨_, rfl, rfl⟩
  have htotal : (5 : Long) = getTotalsizeOfFilesInDir twoLevels :=
    (returned_eq_total_iff hrun hret).2 (by decide)
  refine ⟨?_, (returned_eq_total_iff hrun hret).1.mp htotal, s, hrun, hret, htotal⟩
  intro h
  obtain ⟨t, hrun, hret⟩ : ∃ t, (machine 100 twoLevels).run (machine 100 twoLevels).init impatient
      = some t ∧ t.caller = .returned 0 := ⟨_, rfl, rfl⟩
  have hzero := (returned_eq_total_iff hrun hret).1.mpr h
  exact absurd hzero (by decide)

/-- **After a timeout the method returns an incomplete sum**: 0 for a tree of 5 bytes. -/
theorem timeout_returns_partial_sum :
    ¬ ∀ (n : Nat) (root : File) (as : List Act) (s : State) (v : Long),
      (machine n root).run (machine n root).init as = some s → s.caller = .returned v →
        v = getTotalsizeOfFilesInDir root := by
  intro h
  have := h 100 twoLevels impatient _ 0 rfl rfl
  exact absurd this (by decide)

end TotalFileSizeConcurrentWLatch
end JavaStudy
