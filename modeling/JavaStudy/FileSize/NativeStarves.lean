/-
# The trees on which `TotalFileSizeNativeConcurrent` can starve its pool

The class is there to show how easily it happens; this module says when.  If there are as many
directories with an entry below the root as threads, some schedule puts a thread into each of `n`
of them before any of their entries is taken, and from there nothing can return.

* `Filling`: the schedule.  Tasks are taken in the order of the queue.  A file returns at once; a
  directory that has others below it submits all its entries; a directory that has none is left at
  the beginning, so that its files come last.
* `Starved`: all threads are held by tasks that wait for others, for good (`Starved.step`).
* `starves_iff`: every run ends, and some run ends before the root's call has returned if and only
  if there are at least as many such directories as threads.
-/
import JavaStudy.FileSize.NativeReturns

namespace JavaStudy

namespace File

theorem hasEntry_of_dirsBelow {f : File} (h : 0 < f.dirsBelow) : f.hasEntry = true := by
  rcases f with _ | (_ | (_ | ⟨child, children⟩)) | _ <;>
    first | rfl | exact absurd h (by simp [dirsBelow, listFiles])

/-- A directory with others below it lists one. -/
theorem exists_child {f : File} (h : 0 < f.dirsBelow) :
    ∃ children, f.listFiles = some children ∧ ∃ child ∈ children, child.hasEntry = true := by
  unfold dirsBelow at h
  split at h
  · rename_i children hlist
    refine ⟨children, hlist, ?_⟩
    obtain ⟨k, hk, hpos⟩ := List.exists_mem_ne_zero_of_sum_ne_zero (Nat.ne_of_gt h)
    obtain ⟨child, hchild, rfl⟩ := List.mem_map.mp hk
    refine ⟨child, hchild, ?_⟩
    by_contra hentry
    rw [Bool.not_eq_true] at hentry
    have hbelow : child.dirsBelow = 0 := by
      by_contra hne
      rw [hasEntry_of_dirsBelow (Nat.pos_of_ne_zero hne)] at hentry
      cases hentry
    rw [dirs_eq, hentry, hbelow] at hpos
    exact hpos rfl
  · cases h

end File

namespace TotalFileSizeNativeConcurrent

/-! ## 1. No way out -/

/-- The call does not return unless a task does that is not done: it waits for one, or will. -/
def Blocked (s : State) (file : File) : Pc → Prop
  | .enter => file.hasEntry = true
  | .submit futures children =>
      (futures ≠ [] ∨ children ≠ []) ∧ ∀ i ∈ futures, s.service.tasks.length ≤ i
  | .get _ futures => ∃ i ∈ futures, s.future i = none
  | .returned _ => False

structure Starved (n : Nat) (s : State) : Prop where
  full : n ≤ s.occupied
  main : s.main.busy = true
  calls : ∀ c call, s.call c = some call → call.busy = true → Blocked s call.file call.pc

theorem Blocked.congr {s t : State} {file : File} {pc : Pc} (h : Blocked s file pc)
    (hlength : t.service.tasks.length = s.service.tasks.length)
    (hfuture : ∀ i, t.future i = s.future i) : Blocked t file pc := by
  cases pc with
  | enter => exact h
  | submit futures children => exact ⟨h.1, fun i hi => hlength ▸ h.2 i hi⟩
  | get total futures =>
    obtain ⟨i, hi, hnone⟩ := h
    exact ⟨i, hi, (hfuture i).trans hnone⟩
  | returned total => exact h

theorem future_setCall_of_busy {s : State} {c : Caller} {call call' : Call}
    (h : s.call c = some call) (hbusy : call.busy = true) (hbusy' : call'.busy = true) (i : Nat) :
    (s.setCall c call').future i = s.future i := by
  by_cases hc : c = some i
  · subst hc
    rw [future_of_busy h hbusy, future_of_busy (call_setCall h call') hbusy']
  · have hsame := call_setCall_of_ne (s := s) (Ne.symm hc) call'
    simp only [State.call] at hsame
    rw [State.future, hsame, ← State.future]

/-- A blocked call goes on to a blocked call. -/
theorem Blocked.called {s u : State} {file : File} {pc pc' : Pc} (h : Blocked s file pc)
    (hcalled : Called s file pc u pc') : Call.busy ⟨file, pc'⟩ = true ∧ Blocked s file pc' := by
  cases hcalled with
  | file hfile =>
    rw [Blocked, File.hasEntry_of_null (File.listFiles_of_isFile hfile)] at h
    cases h
  | @list children hlist =>
    refine ⟨rfl, Or.inr ?_, fun i hi => absurd hi List.not_mem_nil⟩
    rintro rfl
    rw [Blocked, File.hasEntry, hlist] at h
    cases h
  | null hfile hnull =>
    rw [Blocked, File.hasEntry_of_null hnull] at h
    cases h
  | submit futures child children =>
    refine ⟨rfl, Or.inl (by simp), ?_⟩
    intro i hi
    rcases List.mem_append.mp hi with hi | hi
    · exact h.2 i hi
    · rw [List.mem_singleton.mp hi]
      exact Nat.le_add_right _ _
  | submitted futures =>
    obtain ⟨i, rest, rfl⟩ := List.exists_cons_of_ne_nil (h.1.resolve_right (fun h => h rfl))
    refine ⟨rfl, i, List.mem_cons_self, ?_⟩
    have hge := h.2 i List.mem_cons_self
    rw [State.future, List.getElem?_eq_none hge]
  | @get total i futures size hsize =>
    obtain ⟨k, hk, hnone⟩ := h
    refine ⟨rfl, k, ?_, hnone⟩
    rcases List.mem_cons.mp hk with rfl | hk
    · rw [hsize] at hnone
      cases hnone
    · exact hk
  | got total =>
    obtain ⟨i, hi, -⟩ := h
    cases hi

/-- **Where all threads wait, they wait for good.** -/
theorem Starved.step {n : Nat} {s t : State} {a : Act} (h : Starved n s)
    (hst : step n s a = some t) : Starved n t := by
  rcases step_caller hst with ⟨p, hp, rfl⟩ | ⟨c, file, pc, u, pc', hc, hcalled, rfl⟩
  · obtain ⟨file, rest, -, hfree, -⟩ := FixedPool.take_eq_some hp
    exact absurd h.full (not_le.mpr hfree)
  · have hbusy : Call.busy ⟨file, pc⟩ = true := by
      cases hcalled <;> rfl
    obtain ⟨hbusy', hblocked⟩ := (h.calls c _ hc hbusy).called hcalled
    have huc : u.call c = some ⟨file, pc⟩ := (call_of_called hcalled c).trans hc
    have htasks := (called_tasks hcalled).2
    have hlength : (u.setCall c ⟨file, pc'⟩).service.tasks.length = s.service.tasks.length := by
      rw [length_setCall, htasks]
    have hfuture : ∀ i, (u.setCall c ⟨file, pc'⟩).future i = s.future i := fun i =>
      (future_setCall_of_busy huc hbusy hbusy' i).trans (future_of_called hcalled i)
    refine ⟨?_, ?_, ?_⟩
    · have hoccupied : u.occupied = s.occupied := by
        rw [State.occupied, FixedPool.occupied, htasks]
        rfl
      rw [occupied_setCall huc (hbusy'.trans hbusy.symm), hoccupied]
      exact h.full
    · cases c with
      | none => exact hbusy'
      | some i => exact (congrArg Call.busy (called_tasks hcalled).1).trans h.main
    · intro d call hd hcall
      by_cases hdc : d = c
      · subst hdc
        rw [call_setCall huc, Option.some.injEq] at hd
        subst hd
        exact hblocked.congr hlength hfuture
      · rw [call_setCall_of_ne hdc, call_of_called hcalled] at hd
        exact (h.calls d call hd hcall).congr hlength hfuture

/-! ## 2. All entries are submitted -/

/-- More tasks in the queue. -/
def State.enqueue (s : State) (files : List File) : State :=
  { s with service := { s.service with queue := s.service.queue ++ files } }

/-- The call has submitted all entries and has got none. -/
def Waits (s : State) (call : Call) : Prop :=
  ∃ futures children, call.pc = .get 0 futures ∧ call.file.listFiles = some children ∧
    List.Forall₂ (fun i f => s.submitted[i]? = some f) futures children

theorem enqueue_nil (s : State) : s.enqueue [] = s := by
  simp [State.enqueue]

theorem leads_submits {n : Nat} (root : File) {file : File} {c : Caller} (children : List File) :
    ∀ {s : State} {futures : List Nat}, s.call c = some ⟨file, .submit futures children⟩ →
      ∃ futures', (machine n root).Leads s
        ((s.enqueue children).setCall c ⟨file, .submit futures' []⟩) := by
  induction children with
  | nil =>
    intro s futures hc
    refine ⟨futures, ?_⟩
    rw [enqueue_nil, setCall_self hc]
    exact .refl s
  | cons child children ih =>
    intro s futures hc
    have hsubmit := step_act (n := n) hc (.submit futures child children)
    have hc' := call_setCall (s := s.submit child) hc
      ⟨file, .submit (futures ++ [s.service.nextNumber]) children⟩
    obtain ⟨futures', hleads⟩ := ih hc'
    have hend : (State.enqueue ((s.submit child).setCall c
          ⟨file, .submit (futures ++ [s.service.nextNumber]) children⟩) children).setCall c
          ⟨file, .submit futures' []⟩
        = (s.enqueue (child :: children)).setCall c ⟨file, .submit futures' []⟩ := by
      cases c <;> simp [State.enqueue, State.setCall, State.submit, FixedPool.submit,
        FixedPool.setTask]
    rw [hend] at hleads
    exact ⟨futures', .head hsubmit hleads⟩

/-- From the top of the method to the second loop. -/
theorem leads_waits {n : Nat} {root file : File} {s : State} (hs : (machine n root).Reachable s)
    {c : Caller} (hc : s.call c = some (.enter file)) {children : List File}
    (hlist : file.listFiles = some children) :
    ∃ call, (machine n root).Leads s ((s.enqueue children).setCall c call) ∧ call.file = file ∧
      Waits ((s.enqueue children).setCall c call) call := by
  obtain ⟨futures, hleads⟩ :=
    leads_submits (n := n) root children (call_setCall hc ⟨file, .submit [] children⟩)
  have hend : (State.enqueue (s.setCall c ⟨file, .submit [] children⟩) children).setCall c
      ⟨file, .submit futures []⟩ = (s.enqueue children).setCall c ⟨file, .submit futures []⟩ := by
    cases c <;> simp [State.enqueue, State.setCall, FixedPool.setTask]
  rw [hend] at hleads
  have hfirst : (machine n root).Leads s
      ((s.enqueue children).setCall c ⟨file, .submit futures []⟩) :=
    .head (step_act hc (.list hlist)) hleads
  have hc' : ((s.enqueue children).setCall c ⟨file, .submit futures []⟩).call c
      = some ⟨file, .submit futures []⟩ := by
    have hcall : (s.enqueue children).call c = some (.enter file) := by
      cases c <;> exact hc
    exact call_setCall hcall _
  obtain ⟨done, hdone, hall⟩ := (reachable_inv (hs.leads hfirst)).good_of_call hc'
  have hsecond := step_act (n := n) hc' (.submitted futures)
  rw [setCall_setCall] at hsecond
  refine ⟨⟨file, .get 0 futures⟩, hfirst.trans (.head hsecond (.refl _)), rfl, futures, done, rfl,
    by rw [hdone, List.append_nil], ?_⟩
  have hsubmitted := submitted_setCall hc' ⟨file, .get 0 futures⟩ rfl
  rw [setCall_setCall] at hsubmitted
  rw [hsubmitted]
  exact hall

/-! ## 3. A thread in each directory -/

/-- A task is over and has no entries, or is left at the beginning of a directory of files, or has
submitted the directories below its own. -/
def Placed (s : State) (call : Call) : Prop :=
  call.busy = false ∧ call.file.hasEntry = false ∨
    call = .enter call.file ∧ call.file.hasEntry = true ∧ call.file.dirsBelow = 0 ∨
    Waits s call ∧ 0 < call.file.dirsBelow

structure Filling (s : State) : Prop where
  main : Waits s s.main
  tasks : ∀ call ∈ s.service.tasks, Placed s call

theorem Waits.mono {s t : State} {call : Call} (h : Waits s call) {x : List File}
    (hsubmitted : t.submitted = s.submitted ++ x) : Waits t call := by
  obtain ⟨futures, children, hpc, hlist, hall⟩ := h
  exact ⟨futures, children, hpc, hlist, hsubmitted ▸ forall₂_append x hall⟩

theorem Placed.mono {s t : State} {call : Call} (h : Placed s call) {x : List File}
    (hsubmitted : t.submitted = s.submitted ++ x) : Placed t call :=
  h.imp_right fun h => h.imp_right fun h => ⟨h.1.mono hsubmitted, h.2⟩

theorem Waits.busy {s : State} {call : Call} (h : Waits s call) : call.busy = true := by
  obtain ⟨futures, children, hpc, -, -⟩ := h
  simp only [Call.busy, hpc]

/-- A thread that is held stands in a directory of its own. -/
theorem Placed.dirs {s : State} {call : Call} (h : Placed s call) :
    call.dirs = if call.busy then 1 else 0 := by
  rcases h with ⟨hover, hentry⟩ | ⟨hcall, hentry, hdirs⟩ | ⟨hwaits, hdirs⟩
  · obtain ⟨total, hpc⟩ := busy_eq_false_iff.mp hover
    simp [Call.dirs, hover, hentry, hpc, Pc.below]
  · rw [hcall]
    simp [Call.dirs, Call.enter, Call.busy, Pc.below, hentry, hdirs]
  · have hentry := File.hasEntry_of_dirsBelow hdirs
    have hbusy := hwaits.busy
    obtain ⟨futures, children, hpc, -, -⟩ := hwaits
    simp [Call.dirs, hentry, hpc, Pc.below, hbusy]

theorem sum_dirs {tasks : List Call}
    (h : ∀ call ∈ tasks, call.dirs = if call.busy then 1 else 0) :
    (tasks.map Call.dirs).sum = tasks.countP Call.busy := by
  induction tasks with
  | nil => rfl
  | cons call tasks ih =>
    rw [List.map_cons, List.sum_cons, List.countP_cons, h call List.mem_cons_self,
      ih fun x hx => h x (List.mem_cons_of_mem _ hx)]
    exact Nat.add_comm _ _

/-- The directories that no thread stands in are still in the queue, or below it. -/
theorem Filling.count {root : File} {s : State} (hf : Filling s) (hi : Inv root s) :
    s.occupied + (s.service.queue.map File.dirs).sum = root.dirsBelow := by
  obtain ⟨futures, children, hpc, -, -⟩ := hf.main
  have hmain : s.main.pc.below s.main.file = 0 := by
    rw [hpc]
    rfl
  have htasks := sum_dirs fun call hcall => (hf.tasks call hcall).dirs
  have hdirs := hi.dirs_conserved
  rw [State.dirs, hmain, FixedPool.weight, htasks, Nat.zero_add] at hdirs
  exact hdirs

/-- The next task finds its place, and submits `more`. -/
theorem Filling.place {s : State} (hf : Filling s) {file : File} {rest more : List File}
    (hqueue : s.service.queue = file :: rest) {call : Call} (hfile : call.file = file)
    (hplaced : Placed { s with service := ⟨s.service.tasks ++ [call], rest ++ more⟩ } call) :
    Filling { s with service := ⟨s.service.tasks ++ [call], rest ++ more⟩ } := by
  have hsubmitted :
      State.submitted { s with service := ⟨s.service.tasks ++ [call], rest ++ more⟩ }
        = s.submitted ++ more := by
    simp [State.submitted, FixedPool.submitted, hqueue, hfile]
  refine ⟨hf.main.mono hsubmitted, ?_⟩
  intro x hx
  rcases List.mem_append.mp hx with hx | hx
  · exact (hf.tasks x hx).mono hsubmitted
  · rw [List.mem_singleton.mp hx]
    exact hplaced

/-- A task without entries returns. -/
theorem leads_returned {n : Nat} (root : File) {file : File} {s : State} {c : Caller}
    (hc : s.call c = some (.enter file)) (hentry : file.hasEntry = false) :
    ∃ total, (machine n root).Leads s (s.setCall c ⟨file, .returned total⟩) := by
  cases hlist : file.listFiles with
  | none =>
    cases hfile : file.isFile with
    | true => exact ⟨_, .head (step_act hc (.file hfile)) (.refl _)⟩
    | false => exact ⟨_, .head (step_act hc (.null hfile hlist)) (.refl _)⟩
  | some children =>
    cases children with
    | cons child children =>
      rw [File.hasEntry, hlist] at hentry
      cases hentry
    | nil =>
      have hc₁ := call_setCall hc ⟨file, .submit [] []⟩
      have hc₂ := call_setCall hc₁ ⟨file, .get 0 []⟩
      have hend : ((s.setCall c ⟨file, .submit [] []⟩).setCall c ⟨file, .get 0 []⟩).setCall c
          ⟨file, .returned 0⟩ = s.setCall c ⟨file, .returned 0⟩ := by
        rw [setCall_setCall, setCall_setCall]
      exact ⟨0, .head (step_act hc (.list hlist)) (.head (step_act hc₁ (.submitted []))
        (.head (step_act hc₂ (.got 0)) (hend ▸ .refl _)))⟩

/-- **One task more.** -/
theorem fill_one {n : Nat} {root : File} {s : State} (hs : (machine n root).Reachable s)
    (hf : Filling s) {file : File} {rest : List File} (hqueue : s.service.queue = file :: rest)
    (hfree : s.occupied < n) :
    ∃ t, (machine n root).Leads s t ∧ Filling t ∧ t.occupied ≤ n ∧
      (t.service.queue.map File.nodes).sum < (s.service.queue.map File.nodes).sum := by
  have htake : step n s .take
      = some { s with service := ⟨s.service.tasks ++ [Call.enter file], rest⟩ } := by
    have hfree' : s.service.occupied Call.busy < n := hfree
    simp only [step, FixedPool.take, hqueue, if_pos hfree', Option.map_some]
  have hcall : State.call { s with service := ⟨s.service.tasks ++ [Call.enter file], rest⟩ }
      (some s.service.tasks.length) = some (.enter file) := by
    simp [State.call]
  have hroom : ∀ (call : Call) (more : List File),
      State.occupied { s with service := ⟨s.service.tasks ++ [call], rest ++ more⟩ } ≤ n := by
    intro call more
    have hone := List.countP_le_length (p := Call.busy) (l := [call])
    simp only [State.occupied, FixedPool.occupied, List.countP_append, List.length_singleton]
      at hone hfree ⊢
    omega
  have hpos := file.nodes_pos
  cases hentry : file.hasEntry with
  | false =>
    obtain ⟨total, hleads⟩ := leads_returned (n := n) root hcall hentry
    have hend : State.setCall { s with service := ⟨s.service.tasks ++ [Call.enter file], rest⟩ }
          (some s.service.tasks.length) ⟨file, .returned total⟩
        = { s with service := ⟨s.service.tasks ++ [⟨file, .returned total⟩], rest ++ []⟩ } := by
      simp [State.setCall, FixedPool.setTask]
    rw [hend] at hleads
    refine ⟨_, .head (a := .take) htake hleads, hf.place hqueue rfl (Or.inl ⟨rfl, hentry⟩),
      hroom _ _, ?_⟩
    simp [hqueue, hpos]
  | true =>
    by_cases hdirs : file.dirsBelow = 0
    · refine ⟨_, .head (a := .take) htake (.refl _), ?_, ?_, ?_⟩
      · rw [← List.append_nil rest]
        exact hf.place hqueue rfl (Or.inr (Or.inl ⟨rfl, hentry, hdirs⟩))
      · rw [← List.append_nil rest]
        exact hroom _ _
      · simp [hqueue, hpos]
    · have hbelow := Nat.pos_of_ne_zero hdirs
      obtain ⟨children, hlist, -⟩ := File.exists_child hbelow
      obtain ⟨call, hleads, hfile, hwaits⟩ := leads_waits (hs.step (a := .take) htake) hcall hlist
      have hend : State.setCall (State.enqueue
            { s with service := ⟨s.service.tasks ++ [Call.enter file], rest⟩ } children)
            (some s.service.tasks.length) call
          = { s with service := ⟨s.service.tasks ++ [call], rest ++ children⟩ } := by
        simp [State.setCall, State.enqueue, FixedPool.setTask]
      rw [hend] at hleads hwaits
      refine ⟨_, .head (a := .take) htake hleads, hf.place hqueue hfile
        (Or.inr (Or.inr ⟨hwaits, hfile ▸ hbelow⟩)), hroom _ _, ?_⟩
      have hnodes := File.nodes_of_listFiles hlist
      simp only [hqueue, List.map_append, List.sum_append, List.map_cons, List.sum_cons]
      omega

/-- **The pool fills up.**  The induction is on the nodes in the queue. -/
theorem fill {n : Nat} {root : File} (hn : n ≤ root.dirsBelow) {s : State}
    (hs : (machine n root).Reachable s) (hf : Filling s) (hle : s.occupied ≤ n) :
    ∃ t, (machine n root).Leads s t ∧ Filling t ∧ t.occupied = n := by
  induction hm : (s.service.queue.map File.nodes).sum using Nat.strong_induction_on
    generalizing s with
  | _ m ih =>
    rcases Nat.lt_or_ge s.occupied n with hfree | hfull
    · have hcount := hf.count (reachable_inv hs)
      cases hqueue : s.service.queue with
      | nil =>
        simp only [hqueue, List.map_nil, List.sum_nil] at hcount
        omega
      | cons file rest =>
        obtain ⟨t, hleads, hft, hlet, hless⟩ := fill_one hs hf hqueue hfree
        obtain ⟨u, hleads', hfu, hu⟩ := ih _ (hm ▸ hless) (hs.leads hleads) hft hlet rfl
        exact ⟨u, hleads.trans hleads', hfu, hu⟩
    · exact ⟨s, .refl s, hf, Nat.le_antisymm hle hfull⟩

/-- A call that has submitted a directory waits for it. -/
theorem Filling.blocked {s : State} (hf : Filling s) {call : Call} (hwaits : Waits s call)
    (hdirs : 0 < call.file.dirsBelow) : Blocked s call.file call.pc := by
  obtain ⟨futures, children, hpc, hlist, hall⟩ := hwaits
  obtain ⟨children', hlist', child, hchild, hentry⟩ := File.exists_child hdirs
  rw [hlist, Option.some.injEq] at hlist'
  subst hlist'
  obtain ⟨k, hk, rfl⟩ := List.mem_iff_getElem.mp hchild
  have hk' : k < futures.length := hall.length_eq ▸ hk
  have hsubmitted := hall.get hk' hk
  rw [hpc]
  refine ⟨futures[k], List.getElem_mem hk', ?_⟩
  by_contra hdone
  obtain ⟨task, htask, hover⟩ := future_ne_none_iff.mp hdone
  have hfile : s.submitted[futures[k]]? = some task.file := FixedPool.submitted_of_task htask
  have hsame : task.file = children[k] := Option.some.inj (hfile.symm.trans hsubmitted)
  rcases hf.tasks task (List.mem_of_getElem? htask) with ⟨-, hnone⟩ | ⟨hcall, -⟩ | ⟨hwaits, -⟩
  · rw [hsame, hentry] at hnone
    cases hnone
  · rw [hcall] at hover
    cases hover
  · rw [hwaits.busy] at hover
    cases hover

/-- A pool that has been filled starves. -/
theorem Filling.starved {n : Nat} {root : File} {s : State} (hf : Filling s) (hi : Inv root s)
    (hfull : s.occupied = n) (hdirs : 0 < root.dirsBelow) : Starved n s := by
  refine ⟨le_of_eq hfull.symm, hf.main.busy, ?_⟩
  intro c call hc hbusy
  cases c with
  | none =>
    cases hc
    exact hf.blocked hf.main (hi.main_file ▸ hdirs)
  | some i =>
    rcases hf.tasks call (List.mem_of_getElem? hc) with
      ⟨hover, -⟩ | ⟨hcall, hentry, -⟩ | ⟨hwaits, hdirs⟩
    · rw [hover] at hbusy
      cases hbusy
    · rw [hcall]
      exact hentry
    · exact hf.blocked hwaits hdirs

/-! ## 4. When some run starves -/

/-- In a state in which nothing can move and the root's call has not returned, there are enough
directories to hold all threads. -/
theorem le_of_stuck {n : Nat} {root : File} {s : State} (hi : Inv root s)
    (hnot : ∀ total, s.main.pc ≠ .returned total) (hstuck : ∀ a, step n s a = none) :
    n ≤ root.dirsBelow := by
  by_contra hlt
  rcases call_cases s s.main.file s.main.pc with ⟨total, h⟩ | ⟨r, h⟩ | ⟨total, i, futures, h, hf⟩
  · exact hnot total h
  · have hmain := hstuck .main
    simp only [step, h] at hmain
    cases hmain
  · have hgood := hi.main
    rw [h] at hgood
    exact chain_ends hi hstuck (queue_empty hi hstuck (not_le.mp hlt)) _ i le_rfl
      (waiting_spec hgood).2 hf

/-- **Every run ends, and some run ends before the root's call has returned if and only if at least
as many directories below the root have an entry as there are threads.** -/
theorem starves_iff {n : Nat} (hn : 0 < n) (root : File) :
    (∀ as s, (machine n root).run (machine n root).init as = some s → as.length ≤ 6 * root.nodes) ∧
    ((∃ s, (machine n root).Reachable s ∧ (∀ total, s.main.pc ≠ .returned total) ∧
        ∀ a, (machine n root).step s a = none) ↔
      n ≤ root.dirsBelow) := by
  refine ⟨fun as s h => length_le h, ?_, ?_⟩
  · rintro ⟨s, hs, hnot, hstuck⟩
    exact le_of_stuck (reachable_inv hs) hnot hstuck
  · intro hdirs
    have hpos : 0 < root.dirsBelow := Nat.lt_of_lt_of_le hn hdirs
    obtain ⟨children, hlist, -⟩ := File.exists_child hpos
    obtain ⟨call, hmain, -, hwaits⟩ :=
      leads_waits (n := n) (c := none) Machine.reachable_init rfl hlist
    obtain ⟨t, hfill, hf, hfull⟩ := fill hdirs (Machine.reachable_init.leads hmain)
      ⟨hwaits, fun x hx => absurd hx List.not_mem_nil⟩ (Nat.zero_le n)
    have ht := Machine.reachable_init.leads (hmain.trans hfill)
    have hstarved := hf.starved (reachable_inv ht) hfull hpos
    obtain ⟨u, hend, hstuck⟩ := (decreases n root).exists_stuck ht
    have hu : Starved n u := hend.induct (fun _ _ _ h hst => h.step hst) hstarved
    refine ⟨u, ht.leads hend, ?_, hstuck⟩
    intro total hpc
    have hbusy := hu.main
    rw [Call.busy, hpc] at hbusy
    cases hbusy

/-- Two directories of one file each. -/
def twoDirectories : File :=
  .directory (some [.directory (some [.regular 1]), .directory (some [.regular 2])])

/-- Two threads can starve there, three cannot. -/
theorem starves_iff_two :
    (∃ s, (machine 2 twoDirectories).Reachable s ∧ (∀ total, s.main.pc ≠ .returned total) ∧
      ∀ a, (machine 2 twoDirectories).step s a = none) ∧
    ¬ ∃ s, (machine 3 twoDirectories).Reachable s ∧ (∀ total, s.main.pc ≠ .returned total) ∧
      ∀ a, (machine 3 twoDirectories).step s a = none :=
  ⟨(starves_iff (by decide) twoDirectories).2.mpr (by decide),
    fun h => absurd ((starves_iff (by decide) twoDirectories).2.mp h) (by decide)⟩

end TotalFileSizeNativeConcurrent
end JavaStudy
