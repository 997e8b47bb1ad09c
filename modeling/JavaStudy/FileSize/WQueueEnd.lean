/-
# `TotalFileSizeConcurrentWQueue` returns, unless the caller polls too late

Every step takes one off a number of steps (`step_steps`); a size on the queue stands for the three
steps in which the caller takes it.  So all runs end, whatever the capacity of the queue and the
number of threads.

They need not end with a return: a caller that has read the counter in the window between the last
put and its decrement polls for a size that nobody will put.  `polls_to_total` says that this is all
that can go wrong.  A run that does not read the counter in the window, and in which no poll times
out, goes on until the caller has returned the sequential total.
-/
import JavaStudy.Lib.Progress
import JavaStudy.FileSize.WQueue

namespace JavaStudy
namespace TotalFileSizeConcurrentWQueue

open TotalFileSizeSequential

/-! ## 1. How many steps are left -/

/-- The steps that a visit has before it, those of the visits that it has still to submit, and the
caller's steps for the sizes that they put. -/
def Visit.steps : Visit → Nat
  | .enter file => 10 * file.nodes - 3
  | .scan _ children => 6 + 10 * (children.map File.nodes).sum
  | .execute _ child children => 5 + 10 * child.nodes + 10 * (children.map File.nodes).sum
  | .put _ => 5
  | .decrementAndGet => 1
  | .finished | .rejected _ _ _ => 0

/-- A queued file has to be taken, too. -/
def queuedSteps (file : File) : Nat := 10 * file.nodes - 2

def Main.steps : Main → Nat
  | .incrementAndGet file => 10 * file.nodes + 4
  | .execute file => 10 * file.nodes + 3
  | .pending _ => 4
  | .size _ => 3
  | .poll _ => 2
  | .shutdown _ => 1
  | .ended _ => 0

def State.steps (s : State) : Nat :=
  s.main.steps + 3 * s.fileSizes.length + s.service.weight queuedSteps Visit.steps

theorem exploreDir_steps {c : Nat} {s u : State} {v v' : Visit}
    (h : exploreDir c s v = some (u, v')) :
    3 * u.fileSizes.length + u.service.weight queuedSteps Visit.steps + v'.steps
      < 3 * s.fileSizes.length + s.service.weight queuedSteps Visit.steps + v.steps := by
  cases v with
  | enter file =>
    have hpos := file.nodes_pos
    simp only [exploreDir] at h
    split at h
    · cases h
      simp only [Visit.steps]
      omega
    · split at h
      · rename_i cs hcs
        have hnodes := File.nodes_of_listFiles hcs
        cases h
        simp only [Visit.steps]
        omega
      · cases h
        simp only [Visit.steps]
        omega
  | scan fileSize children =>
    cases children with
    | nil =>
      cases h
      simp [Visit.steps]
    | cons child children =>
      have hpos := child.nodes_pos
      simp only [exploreDir] at h
      split at h
      · cases h
        simp only [Visit.steps, List.map_cons, List.sum_cons]
        omega
      · cases h
        simp only [Visit.steps, List.map_cons, List.sum_cons]
        omega
  | execute fileSize child children =>
    have hpos := child.nodes_pos
    simp only [exploreDir] at h
    split at h
    · cases h
      simp only [Visit.steps]
      omega
    · cases h
      simp only [FixedPool.weight_submit, queuedSteps, Visit.steps]
      omega
  | put fileSize =>
    simp only [exploreDir] at h
    split at h
    · cases h
      simp only [List.length_append, List.length_singleton, Visit.steps]
      omega
    · exact absurd h (by simp)
  | decrementAndGet =>
    cases h
    simp [Visit.steps]
  | finished => cases h
  | rejected => cases h

/-- The caller's own steps. -/
theorem main_steps {s t : State} (h : getTotalSizeOfFile s s.main = some t) :
    t.steps < s.steps := by
  cases hm : s.main with
  | incrementAndGet file =>
    rw [hm] at h
    cases h
    simp only [State.steps, hm, Main.steps]
    omega
  | execute file =>
    have hpos := file.nodes_pos
    rw [hm] at h
    cases h
    simp only [State.steps, hm, Main.steps, FixedPool.weight_submit, queuedSteps]
    omega
  | pending totalSize =>
    rw [hm] at h
    cases h
    simp only [State.steps, hm]
    split <;> simp only [Main.steps] <;> omega
  | size totalSize =>
    rw [hm] at h
    cases h
    simp only [State.steps, hm]
    split <;> simp only [Main.steps] <;> omega
  | poll totalSize =>
    rw [hm] at h
    simp only [getTotalSizeOfFile] at h
    split at h
    · rename_i x rest hq
      cases h
      simp only [State.steps, hm, hq, Main.steps, List.length_cons]
      omega
    · exact absurd h (by simp)
  | shutdown result =>
    rw [hm] at h
    cases h
    simp only [State.steps, hm, Main.steps]
    omega
  | ended result => rw [hm] at h; cases h

/-- **Every step takes one off.** -/
theorem step_steps {c n : Nat} {s t : State} {a : Act} (h : step c n s a = some t) :
    t.steps < s.steps := by
  cases a with
  | main => exact main_steps h
  | timeout =>
    simp only [step] at h
    split at h
    · rename_i totalSize hm hq
      cases h
      simp only [State.steps, hm, Main.steps]
      omega
    · exact absurd h (by simp)
  | take =>
    obtain ⟨p, hp, rfl⟩ := Option.map_eq_some_iff.mp h
    obtain ⟨f, rest, hq, -, rfl⟩ := FixedPool.take_eq_some hp
    have hpos := f.nodes_pos
    simp only [State.steps, FixedPool.weight, hq, List.map_append, List.map_cons, List.map_nil,
      List.sum_append, List.sum_cons, List.sum_nil, queuedSteps, Visit.steps]
    omega
  | task i =>
    simp only [step] at h
    split at h
    · rename_i v hv
      obtain ⟨⟨u, v'⟩, hu, rfl⟩ := Option.map_eq_some_iff.mp h
      obtain ⟨hum, hut, -⟩ := exploreDir_spec hu
      have huv : u.service.tasks[i]? = some v := hut ▸ hv
      have hless := exploreDir_steps hu
      have hset := FixedPool.weight_setTask huv v' queuedSteps Visit.steps
      simp only [State.steps, hum]
      omega
    · exact absurd h (by simp)

/-! ## 2. Nothing is stuck before the return -/

/-- The step is no timeout, and does not read the counter in the window. -/
def InTime (s : State) (a : Act) : Prop := a ≠ .timeout ∧ ReadsOutside s a

/-- A visit on a thread can go on if there is room on the queue, and if it was not rejected. -/
theorem exploreDir_enabled {c : Nat} {s : State} {v : Visit} (hroom : s.fileSizes.length < c)
    (h : v.busy = true) : ∃ r, exploreDir c s v = some r := by
  cases v with
  | enter file =>
    simp only [exploreDir]
    split
    · exact ⟨_, rfl⟩
    · split <;> exact ⟨_, rfl⟩
  | scan fileSize children =>
    cases children with
    | nil => exact ⟨_, rfl⟩
    | cons child children =>
      simp only [exploreDir]
      split <;> exact ⟨_, rfl⟩
  | execute fileSize child children =>
    simp only [exploreDir]
    split <;> exact ⟨_, rfl⟩
  | put fileSize => exact ⟨_, by simp only [exploreDir, if_pos hroom]; rfl⟩
  | finished => cases h
  | rejected => cases h
  | decrementAndGet => exact ⟨_, rfl⟩

/-- The addition has thrown. -/
def Main.threw : Main → Bool
  | .shutdown result | .ended result => result.isNone
  | _ => false

/-- Nobody is rejected as long as the caller has not come to its `finally` block, and without a
timeout the caller does not throw. -/
structure Live (s : State) : Prop where
  accepting : s.isShutdown = true → ∃ result, s.main = .ended result
  unrejected : s.isShutdown = false → ∀ v ∈ s.service.tasks, v.busy = false → v.open_ = 0
  unthrown : s.main.threw = false

theorem live_init (c n : Nat) (root : File) : Live (machine c n root).init where
  accepting h := by cases h
  unrejected _ v hv := absurd hv List.not_mem_nil
  unthrown := rfl

theorem exploreDir_accepting {c : Nat} {s u : State} {v v' : Visit}
    (h : exploreDir c s v = some (u, v')) :
    u.isShutdown = s.isShutdown ∧
      (s.isShutdown = false → v'.busy = false → v'.open_ = 0) := by
  cases v with
  | enter file =>
    simp only [exploreDir] at h
    split at h
    · cases h
      exact ⟨rfl, fun _ hb => by cases hb⟩
    · split at h <;> cases h <;> exact ⟨rfl, fun _ hb => by cases hb⟩
  | scan fileSize children =>
    cases children with
    | nil =>
      cases h
      exact ⟨rfl, fun _ hb => by cases hb⟩
    | cons child children =>
      simp only [exploreDir] at h
      split at h <;> cases h <;> exact ⟨rfl, fun _ hb => by cases hb⟩
  | execute fileSize child children =>
    simp only [exploreDir] at h
    split at h
    · rename_i hshut
      cases h
      refine ⟨rfl, fun hopen => ?_⟩
      rw [hshut] at hopen
      cases hopen
    · cases h
      exact ⟨rfl, fun _ hb => by cases hb⟩
  | put fileSize =>
    simp only [exploreDir] at h
    split at h
    · cases h
      exact ⟨rfl, fun _ hb => by cases hb⟩
    · exact absurd h (by simp)
  | decrementAndGet =>
    cases h
    exact ⟨rfl, fun _ _ => rfl⟩
  | finished => cases h
  | rejected => cases h

/-- What the caller's steps do to the pool and to its end. -/
theorem main_accepting {s t : State} (h : getTotalSizeOfFile s s.main = some t) :
    t.service.tasks = s.service.tasks ∧ t.main.threw = s.main.threw ∧
      (t.isShutdown = s.isShutdown ∧ (∀ result, s.main ≠ .ended result) ∨
        t.isShutdown = true ∧ ∃ result, t.main = .ended result) := by
  cases hm : s.main with
  | pending totalSize =>
    rw [hm] at h
    cases h
    refine ⟨rfl, ?_, Or.inl ⟨rfl, by simp⟩⟩
    split <;> rfl
  | size totalSize =>
    rw [hm] at h
    cases h
    refine ⟨rfl, ?_, Or.inl ⟨rfl, by simp⟩⟩
    split <;> rfl
  | poll totalSize =>
    rw [hm] at h
    simp only [getTotalSizeOfFile] at h
    split at h
    · cases h
      exact ⟨rfl, rfl, Or.inl ⟨rfl, by simp⟩⟩
    · exact absurd h (by simp)
  | shutdown result =>
    rw [hm] at h
    cases h
    exact ⟨rfl, rfl, Or.inr ⟨rfl, result, rfl⟩⟩
  | ended result => rw [hm] at h; cases h
  | _ =>
    rw [hm] at h
    cases h
    exact ⟨rfl, rfl, Or.inl ⟨rfl, by simp⟩⟩

theorem step_live {c n : Nat} {s t : State} {a : Act} (hl : Live s) (ha : a ≠ .timeout)
    (h : step c n s a = some t) : Live t := by
  cases a with
  | main =>
    obtain ⟨htasks, hthrew, hend⟩ := main_accepting h
    refine ⟨fun ht => ?_, fun ht => ?_, hthrew.trans hl.unthrown⟩
    · rcases hend with ⟨hsame, hne⟩ | ⟨-, hended⟩
      · obtain ⟨result, hresult⟩ := hl.accepting (hsame ▸ ht)
        exact absurd hresult (hne result)
      · exact hended
    · rw [htasks]
      rcases hend with ⟨hsame, -⟩ | ⟨htrue, -⟩
      · exact hl.unrejected (hsame ▸ ht)
      · rw [ht] at htrue
        cases htrue
  | timeout => exact absurd rfl ha
  | take =>
    obtain ⟨p, hp, rfl⟩ := Option.map_eq_some_iff.mp h
    obtain ⟨f, rest, -, -, rfl⟩ := FixedPool.take_eq_some hp
    refine ⟨hl.accepting, fun ht v hv hb => ?_, hl.unthrown⟩
    rcases List.mem_append.mp hv with hv | hv
    · exact hl.unrejected ht v hv hb
    · rw [List.mem_singleton.mp hv] at hb
      cases hb
  | task i =>
    simp only [step] at h
    split at h
    · obtain ⟨⟨u, v'⟩, hu, rfl⟩ := Option.map_eq_some_iff.mp h
      obtain ⟨hum, hut, -⟩ := exploreDir_spec hu
      obtain ⟨hsame, hno⟩ := exploreDir_accepting hu
      refine ⟨fun ht => ?_, fun ht v hv hb => ?_, (congrArg Main.threw hum).trans hl.unthrown⟩
      · obtain ⟨result, hresult⟩ := hl.accepting (hsame ▸ ht)
        exact ⟨result, hum.trans hresult⟩
      · rcases List.mem_or_eq_of_mem_set hv with hv | rfl
        · exact hl.unrejected (hsame ▸ ht) v (hut ▸ hv) hb
        · exact hno (hsame ▸ ht) hb
    · exact absurd h (by simp)

theorem within_live {c n : Nat} {root : File} {s : State} (h : (machine c n root).Within InTime s) :
    Live s :=
  h.induct (live_init c n root) fun _ _ _ _ hl hC hst => step_live hl hC.1 hst

/-- As long as something is open and the queue is empty, a thread of the pool can go on. -/
theorem exists_task_step {c n : Nat} {s : State} (hc : 1 ≤ c) (hn : 1 ≤ n)
    (hl : Live s) (hmain : s.main.announces = 0) (hended : ∀ result, s.main ≠ .ended result)
    (hempty : s.fileSizes = []) (hopen : s.open_ ≠ 0) :
    ∃ a t, InTime s a ∧ step c n s a = some t := by
  have hshut : s.isShutdown = false := by
    rw [← Bool.not_eq_true]
    intro hs
    obtain ⟨result, hresult⟩ := hl.accepting hs
    exact hended result hresult
  have hwork : s.service.weight (fun f => opening.visit (.enter f)) opening.visit ≠ 0 :=
    fun hzero => hopen (Nat.add_eq_zero_iff.mpr ⟨hmain, hzero⟩)
  have hroom : s.fileSizes.length < c := by
    rw [hempty]
    exact hc
  have houtside : ∀ a : Act, a ≠ .main → ReadsOutside s a := fun a ha _ _ h => absurd h ha
  rcases FixedPool.exists_move Visit.busy Visit.enter hn (hl.unrejected hshut) hwork with
    ⟨i, v, hv, hb⟩ | ⟨q, hq⟩
  · obtain ⟨r, hr⟩ := exploreDir_enabled hroom hb
    exact ⟨.task i, _, ⟨by simp, houtside _ (by simp)⟩,
      by simp only [step, hv, hr, Option.map_some]; rfl⟩
  · exact ⟨.take, _, ⟨by simp, houtside _ (by simp)⟩,
      by simp only [step, hq, Option.map_some]; rfl⟩

/-- In a run that keeps to the condition a poll has something to wait for. -/
theorem within_supplied {c n : Nat} {root : File} {s : State}
    (h : (machine c n root).Within InTime s) : Supplied s :=
  h.induct (I := Supplied) (fun _ h' => by cases h')
    fun _ _ _ _ hs hC hst => (supplied_step hs hst).mpr hC.2

theorem ended_total {root : File} {s : State} {v : Long} (hi : Inv root s)
    (hended : s.main = .ended (some v)) : v = getTotalsizeOfFilesInDir root := by
  have hopen : s.open_ = 0 := hi.zero (by rw [hended]; rfl)
  have hempty : s.fileSizes = [] := hi.empty (by rw [hended]; rfl)
  have hsize := hi.size (by rw [hended]; rfl)
  rw [hempty, owed_of_open hopen, List.sum_nil, zero_add, hended] at hsize
  exact hsize

/-- **The method returns the total, if the caller does not poll too late.**  Every run ends, and one
in which no poll times out and the counter is not read in the window goes on until the caller has
returned what the sequential program does. -/
theorem polls_to_total {c n : Nat} (hc : 1 ≤ c) (hn : 1 ≤ n) (root : File) :
    (machine c n root).Ends InTime (10 * root.nodes + 4)
      (fun s => s.main = .ended (some (getTotalsizeOfFilesInDir root))) where
  bounded as s h := by
    have hdecreases : (machine c n root).Decreases State.steps := fun _ _ _ _ hst => step_steps hst
    have hle := hdecreases.length_add_le Machine.reachable_init h
    have hinit : (machine c n root).init.steps = 10 * root.nodes + 4 := by
      simp [machine, State.steps, Main.steps]
    omega
  goes_on s h hP := by
    have hl := within_live h
    have hi := reachable_inv h.reachable
    have hmain : ∀ t, getTotalSizeOfFile s s.main = some t →
        (∀ totalSize, s.main = .pending totalSize → ¬ s.window) →
        ∃ a t, InTime s a ∧ step c n s a = some t :=
      fun t ht hout => ⟨.main, t, ⟨by simp, fun x hx _ => hout x hx⟩, ht⟩
    cases hm : s.main with
    | incrementAndGet file => exact hmain _ (by rw [hm]; rfl) (by simp [hm])
    | execute file => exact hmain _ (by rw [hm]; rfl) (by simp [hm])
    | pending totalSize =>
      by_cases hwin : s.window
      · -- somebody has still to decrement, and goes first
        have hpending := hi.pending
        have hpos := hwin.2.2
        exact exists_task_step hc hn hl (by rw [hm]; rfl) (by simp [hm]) hwin.1 (by omega)
      · exact hmain _ (by rw [hm]; rfl) fun _ _ => hwin
    | size totalSize => exact hmain _ (by rw [hm]; rfl) (by simp [hm])
    | poll totalSize =>
      cases hq : s.fileSizes with
      | cons x rest =>
        exact hmain _ (by rw [hm]; simp only [getTotalSizeOfFile, hq]; rfl) (by simp [hm])
      | nil =>
        have hunput : 0 < s.unput := by
          rcases (supplied_iff s).mp (within_supplied h) totalSize hm with hne | hpos
          · exact absurd hq hne
          · exact hpos
        refine exists_task_step hc hn hl (by rw [hm]; rfl) (by simp [hm]) hq ?_
        intro hopen
        have hput := hasPut_of_open (by rw [hm]; rfl) hopen
        obtain ⟨r, hr, hno⟩ := (unput_pos_iff s).mp hunput
        rw [hput r hr] at hno
        cases hno
    | shutdown result => exact hmain _ (by rw [hm]; rfl) (by simp [hm])
    | ended result =>
      cases result with
      | none =>
        have hunthrown := hl.unthrown
        rw [hm] at hunthrown
        cases hunthrown
      | some v => exact absurd (by rw [hm, ended_total hi hm]) hP

/-- A queue of one size and one thread are enough. -/
theorem polls_to_total_one :
    ∃ as s, (machine 1 1 (.directory (some [.regular 3, .directory (some [.regular 4])]))).run
      (machine 1 1 (.directory (some [.regular 3, .directory (some [.regular 4])]))).init as
        = some s ∧ s.main = .ended (some 7) := by
  obtain ⟨as, s, hrun, -, hs⟩ := (polls_to_total (c := 1) (n := 1) (by decide) (by decide)
    (.directory (some [.regular 3, .directory (some [.regular 4])]))).exists_finish
      ⟨[], rfl, trivial⟩
  exact ⟨as, s, hrun, hs⟩

end TotalFileSizeConcurrentWQueue
end JavaStudy
