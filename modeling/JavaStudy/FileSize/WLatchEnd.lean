/-
# `TotalFileSizeConcurrentWLatch` returns

`WLatch.lean` says what the caller reads; this module says that it gets there.  A visit has a
number of steps before it, its children's visits included, and every step of the machine takes one
off the sum (`step_steps`).  No state is stuck before the return: as long as the latch is closed,
somebody is registered or about to open it (`Live.last`), and a pool of at least one thread can move
it on.

* `returns_total`: every run has at most `8 * nodes + 3` steps, and without the timeout it goes on
  until the caller has returned the sequential total.
-/
import JavaStudy.Lib.Progress
import JavaStudy.FileSize.WLatch

namespace JavaStudy
namespace TotalFileSizeConcurrentWLatch

open TotalFileSizeSequential

/-! ## 1. How many steps are left -/

/-- The steps that a visit has before it, and those of the visits that it has still to submit. -/
def Visit.steps : Visit → Nat
  | .enter file => 8 * file.nodes - 3
  | .scan _ children => 4 + 8 * (children.map File.nodes).sum
  | .execute _ child children => 3 + 8 * child.nodes + 8 * (children.map File.nodes).sum
  | .addAndGet _ => 3
  | .decrementAndGet => 2
  | .countDown => 1
  | .finished | .rejected _ _ _ => 0

/-- A queued file has to be taken, too. -/
def queuedSteps (file : File) : Nat := 8 * file.nodes - 2

def Caller.steps : Caller → Nat
  | .start file => 8 * file.nodes + 3
  | .visit v => v.steps + 5
  | .await => 4
  | .longValue => 3
  | .shutdown _ => 2
  | .returned _ => 0

def State.steps (s : State) : Nat := s.caller.steps + s.service.weight queuedSteps Visit.steps

theorem update_steps {s u : State} {v v' : Visit}
    (h : updateTotalSizeOfFilesInDir s v = some (u, v')) :
    u.service.weight queuedSteps Visit.steps + v'.steps
      < s.service.weight queuedSteps Visit.steps + v.steps := by
  cases v with
  | enter file =>
    have hpos := file.nodes_pos
    simp only [updateTotalSizeOfFilesInDir] at h
    split at h
    · cases h
      simp only [Visit.steps]
      omega
    · split at h
      · rename_i cs hcs
        have hnodes := File.nodes_of_listFiles hcs
        cases h
        simp only [Visit.steps]
        omega
      · cases h
        simp only [Visit.steps]
        omega
  | scan fileSize children =>
    cases children with
    | nil =>
      cases h
      simp [Visit.steps]
    | cons child children =>
      have hpos := child.nodes_pos
      simp only [updateTotalSizeOfFilesInDir] at h
      split at h
      · cases h
        simp only [Visit.steps, List.map_cons, List.sum_cons]
        omega
      · cases h
        simp only [Visit.steps, List.map_cons, List.sum_cons]
        omega
  | execute fileSize child children =>
    have hpos := child.nodes_pos
    simp only [updateTotalSizeOfFilesInDir] at h
    split at h
    · cases h
      simp only [Visit.steps]
      omega
    · cases h
      simp only [FixedPool.weight_submit, queuedSteps, Visit.steps]
      omega
  | addAndGet fileSize =>
    cases h
    simp [Visit.steps]
  | decrementAndGet =>
    cases h
    split <;> simp [Visit.steps]
  | countDown =>
    cases h
    simp [Visit.steps]
  | finished => cases h
  | rejected => cases h

/-- **Every step takes one off.** -/
theorem step_steps {n : Nat} {s t : State} {a : Act} (h : step n s a = some t) :
    t.steps < s.steps := by
  cases a with
  | caller =>
    simp only [step] at h
    cases hc : s.caller with
    | start file =>
      have hpos := file.nodes_pos
      rw [hc] at h
      cases h
      simp only [State.steps, hc, Caller.steps, Visit.steps]
      omega
    | visit v =>
      rw [hc] at h
      rcases caller_visit_cases h with ⟨rfl, rfl⟩ | ⟨u, v', hu, rfl⟩
      · simp only [State.steps, hc, Caller.steps, Visit.steps]
        omega
      · have hless := update_steps hu
        simp only [State.steps, hc, Caller.steps]
        omega
    | await =>
      rw [hc] at h
      simp only [getTotalSizeOfFile] at h
      split at h
      · cases h
        simp only [State.steps, hc, Caller.steps]
        omega
      · exact absurd h (by simp)
    | longValue =>
      rw [hc] at h
      cases h
      simp only [State.steps, hc, Caller.steps]
      omega
    | shutdown result =>
      rw [hc] at h
      cases h
      simp only [State.steps, hc, Caller.steps]
      omega
    | returned result => rw [hc] at h; cases h
  | timeout =>
    simp only [step] at h
    split at h
    · rename_i hc
      split at h
      · exact absurd h (by simp)
      · cases h
        simp only [State.steps, hc, Caller.steps]
        omega
    · exact absurd h (by simp)
  | take =>
    obtain ⟨p, hp, rfl⟩ := Option.map_eq_some_iff.mp h
    obtain ⟨f, rest, hq, -, rfl⟩ := FixedPool.take_eq_some hp
    have hpos := f.nodes_pos
    simp only [State.steps, FixedPool.weight, hq, List.map_append, List.map_cons, List.map_nil,
      List.sum_append, List.sum_cons, List.sum_nil, queuedSteps, Visit.steps]
    omega
  | task i =>
    simp only [step] at h
    split at h
    · rename_i v hv
      obtain ⟨⟨u, v'⟩, hu, rfl⟩ := Option.map_eq_some_iff.mp h
      obtain ⟨huc, hut, -⟩ := update_spec hu
      have huv : u.service.tasks[i]? = some v := hut ▸ hv
      have hless := update_steps hu
      have hset := FixedPool.weight_setTask huv v' queuedSteps Visit.steps
      simp only [State.steps, huc]
      omega
    · exact absurd h (by simp)

/-! ## 2. Nothing is stuck before the return -/

def Visit.rejections : Visit → Nat
  | .rejected _ _ _ => 1
  | _ => 0

def rejecting : Weighing Nat := ⟨fun _ => 0, Visit.rejections, rfl⟩

structure Live (s : State) : Prop where
  accepting : s.isShutdown = true → ∃ v, s.caller = .returned v
  unrejected : s.isShutdown = false → s.weight rejecting = 0
  /-- As soon as nothing is open any more, somebody opens the latch or has opened it. -/
  last : (∀ file, s.caller ≠ .start file) → s.open_ = 0 → 1 ≤ s.countDowns + s.closing

theorem live_init (n : Nat) (root : File) : Live (machine n root).init where
  accepting h := by cases h
  unrejected _ := by simp [machine, State.weight, Caller.weight, rejecting]
  last h := absurd rfl (h root)

theorem update_accepting {s u : State} {v v' : Visit}
    (h : updateTotalSizeOfFilesInDir s v = some (u, v')) :
    u.isShutdown = s.isShutdown ∧ u.weight rejecting = s.weight rejecting ∧
      (s.isShutdown = false → v'.rejections = 0) := by
  cases v with
  | execute fileSize child children =>
    simp only [updateTotalSizeOfFilesInDir] at h
    split at h
    · rename_i hshut
      cases h
      refine ⟨rfl, rfl, ?_⟩
      intro hopen
      rw [hshut] at hopen
      cases hopen
    · cases h
      exact ⟨rfl, weight_submit rejecting s child, fun _ => rfl⟩
  | enter file =>
    simp only [updateTotalSizeOfFilesInDir] at h
    split at h
    · cases h
      exact ⟨rfl, rfl, fun _ => rfl⟩
    · split at h <;> cases h <;> exact ⟨rfl, rfl, fun _ => rfl⟩
  | scan fileSize children =>
    cases children with
    | nil =>
      cases h
      exact ⟨rfl, rfl, fun _ => rfl⟩
    | cons child children =>
      simp only [updateTotalSizeOfFilesInDir] at h
      split at h <;> cases h <;> exact ⟨rfl, rfl, fun _ => rfl⟩
  | addAndGet fileSize =>
    cases h
    exact ⟨rfl, rfl, fun _ => rfl⟩
  | decrementAndGet =>
    cases h
    refine ⟨rfl, rfl, fun _ => ?_⟩
    split <;> rfl
  | countDown =>
    cases h
    exact ⟨rfl, rfl, fun _ => rfl⟩
  | finished => cases h
  | rejected => cases h

/-- The pool is shut down by the return, and by nothing else. -/
theorem step_shutdown {n : Nat} {s t : State} {a : Act} (h : step n s a = some t) :
    t.isShutdown = s.isShutdown ∨ t.isShutdown = true ∧ ∃ v, t.caller = .returned v := by
  cases a with
  | caller =>
    simp only [step] at h
    cases hc : s.caller with
    | visit v =>
      rw [hc] at h
      rcases caller_visit_cases h with ⟨-, rfl⟩ | ⟨u, v', hu, rfl⟩
      · exact Or.inl rfl
      · exact Or.inl (update_accepting hu).1
    | await =>
      rw [hc] at h
      simp only [getTotalSizeOfFile] at h
      split at h
      · cases h
        exact Or.inl rfl
      · exact absurd h (by simp)
    | shutdown result =>
      rw [hc] at h
      cases h
      exact Or.inr ⟨rfl, result, rfl⟩
    | returned result => rw [hc] at h; cases h
    | _ => rw [hc] at h; cases h; exact Or.inl rfl
  | timeout =>
    rcases caller_cases h with ⟨ha, -⟩ | ⟨-, -, rfl⟩ | ⟨-, -, ha⟩
    · cases ha
    · exact Or.inl rfl
    · exact absurd rfl ha
  | take =>
    obtain ⟨p, -, rfl⟩ := Option.map_eq_some_iff.mp h
    exact Or.inl rfl
  | task i =>
    simp only [step] at h
    split at h
    · obtain ⟨⟨u, v'⟩, hu, rfl⟩ := Option.map_eq_some_iff.mp h
      exact Or.inl (update_accepting hu).1
    · exact absurd h (by simp)

/-- The caller stays where it has returned. -/
theorem step_returned {n : Nat} {s t : State} {a : Act} {v : Long} (h : step n s a = some t)
    (hv : s.caller = .returned v) : t.caller = .returned v := by
  rcases caller_cases h with ⟨-, hc⟩ | ⟨-, hc, -⟩ | ⟨hc, -⟩
  · rw [hv] at hc
    cases hc
  · rw [hv] at hc
    cases hc
  · rw [hc, hv]

/-- A step that leaves the counter as it is does not register the root. -/
theorem start_of_pending {n : Nat} {s t : State} {a : Act} {file : File} (h : step n s a = some t)
    (hpend : t.pendingFileVisits = s.pendingFileVisits) (hs : s.caller = .start file) :
    t.caller = .start file := by
  rcases caller_cases h with ⟨-, hc⟩ | ⟨-, hc, -⟩ | ⟨hc, -⟩
  · rw [hs] at hc
    cases hc
    simp only at hpend
    omega
  · rw [hs] at hc
    cases hc
  · rw [hc, hs]

theorem step_live {n : Nat} {root : File} {s t : State} {a : Act} (hi : Inv root s) (hl : Live s)
    (h : step n s a = some t) : Live t := by
  constructor
  · intro ht
    rcases step_shutdown h with hsame | ⟨-, hret⟩
    · obtain ⟨v, hv⟩ := hl.accepting (hsame ▸ ht)
      exact ⟨v, step_returned h hv⟩
    · exact hret
  · intro ht
    have hs : s.isShutdown = false := by
      rcases step_shutdown h with hsame | ⟨htrue, -⟩
      · exact hsame ▸ ht
      · rw [ht] at htrue
        cases htrue
    have hzero := hl.unrejected hs
    rcases step_cases h with ⟨file, -, -, -, -, -, -, hW⟩ |
      ⟨v, u, v', hu, -, -, -, -, -, hW, -⟩ | ⟨-, -, -, -, -, hW⟩
    · have hweight : t.weight rejecting + 0 = s.weight rejecting + 0 := hW rejecting
      omega
    · obtain ⟨-, hsame, hno⟩ := update_accepting hu
      have hweight : t.weight rejecting + v.rejections = u.weight rejecting + v'.rejections :=
        hW rejecting
      have hv' := hno hs
      omega
    · exact (hW rejecting).trans hzero
  · intro hstart hopen
    rcases step_cases h with ⟨file, -, -, -, -, -, -, hW⟩ |
      ⟨v, u, v', hu, hpend, -, -, hcd, -, hW, hle⟩ | ⟨hpend, -, -, hcd, -, hW⟩
    · have hsum : t.open_ + 0 = s.open_ + 1 := hW opening
      omega
    · obtain ⟨-, -, -, -, hsame, hcases⟩ := update_spec hu
      have hsum : t.open_ + v.open_ = u.open_ + v'.open_ := hW opening
      have hclose : t.closing + v.closing = u.closing + v'.closing := hW closing
      have hvopen : v.open_ ≤ s.open_ := hle opening
      have hp := hi.pending
      rcases hcases with ⟨-, h2, -, -, h5, -, -⟩ | ⟨rfl, h2, h3, h4, -, -⟩ | ⟨rfl, rfl, -, -, h4⟩
      · -- the visit stays open
        omega
      · -- the counter comes to zero with the last one that is open
        have hd1 : Visit.decrementAndGet.open_ = 1 := rfl
        have hd2 : Visit.decrementAndGet.closing = 0 := rfl
        rw [if_pos (by omega)] at h4
        omega
      · omega
    · have hsum : t.open_ = s.open_ := hW opening
      have hclose : t.closing = s.closing := hW closing
      have hold := hl.last (fun file hs => hstart file (start_of_pending h hpend hs)) (by omega)
      omega

theorem reachable_live {n : Nat} {root : File} {s : State} (h : (machine n root).Reachable s) :
    Live s :=
  h.induct (live_init n root) fun _ _ _ hr hl hst => step_live (reachable_inv hr) hl hst

theorem update_enabled (s : State) {v : Visit} (h : v.busy = true) :
    ∃ r, updateTotalSizeOfFilesInDir s v = some r := by
  cases v with
  | enter file =>
    simp only [updateTotalSizeOfFilesInDir]
    split
    · exact ⟨_, rfl⟩
    · split <;> exact ⟨_, rfl⟩
  | scan fileSize children =>
    cases children with
    | nil => exact ⟨_, rfl⟩
    | cons child children =>
      simp only [updateTotalSizeOfFilesInDir]
      split <;> exact ⟨_, rfl⟩
  | execute fileSize child children =>
    simp only [updateTotalSizeOfFilesInDir]
    split <;> exact ⟨_, rfl⟩
  | finished => cases h
  | rejected => cases h
  | _ => exact ⟨_, rfl⟩

/-- A visit that is over and was not rejected is neither open nor about to open the latch. -/
theorem over_of_not_busy {v : Visit} (h : v.busy = false) (hno : v.rejections = 0) :
    v.open_ + v.closing = 0 := by
  cases v with
  | finished => rfl
  | rejected => cases hno
  | _ => cases h

/-- **Without a timeout, some thread can go on until the caller has returned.** -/
theorem exists_step {n : Nat} {root : File} {s : State} (hn : 1 ≤ n)
    (h : (machine n root).Reachable s) (hret : ∀ v, s.caller ≠ .returned v) :
    ∃ a t, a ≠ Act.timeout ∧ step n s a = some t := by
  have hl := reachable_live h
  have hi := reachable_inv h
  have hopen : s.isShutdown = false := by
    rw [← Bool.not_eq_true]
    intro hs
    obtain ⟨v, hv⟩ := hl.accepting hs
    exact hret v hv
  have hunrejected := hl.unrejected hopen
  have hcaller : ∀ t, getTotalSizeOfFile s s.caller = some t →
      ∃ a t, a ≠ Act.timeout ∧ step n s a = some t := fun t ht => ⟨.caller, t, by simp, ht⟩
  cases hc : s.caller with
  | start file => exact hcaller _ (by rw [hc]; rfl)
  | visit v =>
    cases hv : v.busy with
    | true =>
      obtain ⟨r, hr⟩ := update_enabled s hv
      refine hcaller { r.1 with caller := .visit r.2 } ?_
      rw [hc]
      cases v with
      | finished => cases hv
      | rejected => cases hv
      | _ => simp only [getTotalSizeOfFile, hr, Option.map_some]
    | false =>
      cases v with
      | finished => exact hcaller _ (by rw [hc]; rfl)
      | rejected =>
        simp only [State.weight, hc, Caller.weight, rejecting, Visit.rejections] at hunrejected
        omega
      | _ => cases hv
  | await =>
    by_cases hlatch : s.latch = 0
    · exact hcaller { s with caller := .longValue } (by rw [hc]; exact if_pos hlatch)
    · -- somebody is registered, or about to open the latch: a task, or a file in the queue
      have hclosed : s.open_ ≠ 0 ∨ s.closing ≠ 0 := by
        have hlast := hl.last (by rw [hc]; exact fun _ h => by cases h)
        have hcount := hi.latch
        omega
      have hsum : s.service.weight (fun f => (Visit.enter f).open_ + (Visit.enter f).closing)
          (fun v => v.open_ + v.closing) ≠ 0 := by
        intro hzero
        obtain ⟨htasks, hqueue⟩ := FixedPool.weight_eq_zero.mp hzero
        rcases hclosed with hne | hne
        · refine hne (Nat.add_eq_zero_iff.mpr
            ⟨by rw [hc]; rfl, FixedPool.weight_eq_zero.mpr ⟨?_, ?_⟩⟩)
          · exact fun v hv => (Nat.add_eq_zero_iff.mp (htasks v hv)).1
          · exact fun f hf => (Nat.add_eq_zero_iff.mp (hqueue f hf)).1
        · refine hne (Nat.add_eq_zero_iff.mpr
            ⟨by rw [hc]; rfl, FixedPool.weight_eq_zero.mpr ⟨?_, ?_⟩⟩)
          · exact fun v hv => (Nat.add_eq_zero_iff.mp (htasks v hv)).2
          · exact fun f hf => (Nat.add_eq_zero_iff.mp (hqueue f hf)).2
      have hrej := (FixedPool.weight_eq_zero.mp (Nat.add_eq_zero_iff.mp hunrejected).2).1
      rcases FixedPool.exists_move Visit.busy Visit.enter hn
        (fun v hv hb => over_of_not_busy hb (hrej v hv)) hsum with ⟨i, v, hv, hb⟩ | ⟨q, hq⟩
      · obtain ⟨r, hr⟩ := update_enabled s hb
        exact ⟨.task i, _, by simp, by simp only [step, hv, hr, Option.map_some]; rfl⟩
      · exact ⟨.take, _, by simp, by simp only [step, hq, Option.map_some]; rfl⟩
  | longValue => exact hcaller _ (by rw [hc]; rfl)
  | shutdown result => exact hcaller _ (by rw [hc]; rfl)
  | returned result => exact absurd hc (hret result)

/-- **The method returns the total.**  Every run ends, and one in which the wait does not time out
goes on until the caller has returned what the sequential program does. -/
theorem returns_total {n : Nat} (hn : 1 ≤ n) (root : File) :
    (machine n root).Ends (fun _ a => a ≠ .timeout) (8 * root.nodes + 3)
      (fun s => s.caller = .returned (getTotalsizeOfFilesInDir root)) where
  bounded as s h := by
    have hdecreases : (machine n root).Decreases State.steps := fun _ _ _ _ hst => step_steps hst
    have hle := hdecreases.length_add_le Machine.reachable_init h
    have hinit : (machine n root).init.steps = 8 * root.nodes + 3 := by
      simp [machine, State.steps, Caller.steps]
    omega
  goes_on s h hP := by
    refine exists_step hn h.reachable ?_
    intro v hv
    have htotal := (result_of_no_timeout h).2 v (by rw [hv]; rfl)
    exact hP (by rw [hv, htotal])

/-- One pool thread is enough for a tree of three directories. -/
theorem returns_total_one :
    ∃ as s, (machine 1 (.directory (some [.directory (some [.directory (some [.regular 5])])]))).run
      (machine 1 (.directory (some [.directory (some [.directory (some [.regular 5])])]))).init as
        = some s ∧ s.caller = .returned 5 := by
  obtain ⟨as, s, hrun, -, hs⟩ := (returns_total (n := 1) (by decide)
    (.directory (some [.directory (some [.directory (some [.regular 5])])]))).exists_finish
      ⟨[], rfl, trivial⟩
  exact ⟨as, s, hrun, hs⟩

end TotalFileSizeConcurrentWLatch
end JavaStudy
