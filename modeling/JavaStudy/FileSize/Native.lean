/-
# `TotalFileSizeNativeConcurrent`: tasks that block on their children

Every entry, regular files included, becomes a task of the same fixed pool, and a task that scans
a directory submits its entries and then waits for them, one `Future.get` after the other, without
giving its thread back.  The class exists to show that this starves the pool.  The root's own call
runs on the calling thread.

`Future` number `i` is the `i`-th task ever submitted (`FixedPool`).  The machine has no timeout of
a get: its schedules are the interleavings in which none times out.  The pool is shut down only
after the root call has returned.

Two facts settle when the program is safe.

* A task waits for tasks with a LARGER number than its own (`Good`), so a chain of waits ends: some
  awaited task is in the queue or can move (`chain_ends`).
* A task that waits was given a directory with an entry, another one for each task
  (`dirs_conserved`).  If there are fewer of these than threads, a thread is left for the queue.
-/
import JavaStudy.Lib.Machine
import JavaStudy.FileSize.Sequential

namespace JavaStudy
namespace TotalFileSizeNativeConcurrent

open TotalFileSizeSequential

/-! ## 1. The program -/

/-- Where an activation of `getTotalSizeOfFilesInDir` stands. -/
inductive Pc where
  /-- At the top of the method. -/
  | enter
  /-- In the first loop, with `partialTotalFutures` and the children left. -/
  | submit (futures : List Nat) (children : List File)
  /-- In the second loop, with the futures left. -/
  | get (total : Long) (futures : List Nat)
  | returned (total : Long)

/-- An activation, on the file it was called with. -/
structure Call where
  file : File
  pc : Pc

structure State where
  service : FixedPool File Call
  main : Call

inductive Act where
  | main
  | take
  | task (i : Nat)
  deriving DecidableEq

/-- A task holds its thread until its call returns. -/
def Call.busy (call : Call) : Bool :=
  match call.pc with
  | .returned _ => false
  | _ => true

/-- A task's activation when a thread takes it. -/
def Call.enter (file : File) : Call := ⟨file, .enter⟩

/-- The value of the future with number `i`, once its task has returned. -/
def State.future (s : State) (i : Nat) : Option Long :=
  match s.service.tasks[i]? with
  | some ⟨_, .returned total⟩ => some total
  | _ => none

/-- One step of `getTotalSizeOfFilesInDir`; a get waits for its future. -/
def getTotalSizeOfFilesInDir (s : State) (file : File) : Pc → Option (State × Pc)
  | .enter =>
    if file.isFile then some (s, .returned file.length)
    else
      match file.listFiles with
      | some children => some (s, .submit [] children)
      | none => some (s, .returned 0)
  | .submit futures (child :: children) =>
    some ({ s with service := s.service.submit child },
      .submit (futures ++ [s.service.nextNumber]) children)
  | .submit futures [] => some (s, .get 0 futures)
  | .get total (i :: futures) => (s.future i).map fun size => (s, .get (total + size) futures)
  | .get total [] => some (s, .returned total)
  | .returned _ => none

def step (n : Nat) (s : State) : Act → Option State
  | .main =>
    (getTotalSizeOfFilesInDir s s.main.file s.main.pc).map fun r =>
      { r.1 with main := ⟨s.main.file, r.2⟩ }
  | .take => (s.service.take Call.busy n Call.enter).map fun p => { s with service := p }
  | .task i =>
    match s.service.tasks[i]? with
    | some call =>
      (getTotalSizeOfFilesInDir s call.file call.pc).map fun r =>
        { r.1 with service := r.1.service.setTask i ⟨call.file, r.2⟩ }
    | none => none

/-- `getTotalSizeOfFile` on `root`, with a pool of `n` threads. -/
def machine (n : Nat) (root : File) : Machine State Act where
  init := { service := .empty, main := .enter root }
  step := step n

/-! ## 2. What an activation has to do with its file -/

/-- The futures that an activation still holds. -/
def Pc.futures : Pc → List Nat
  | .submit futures _ => futures
  | .get _ futures => futures
  | _ => []

/-- `submitted` lists all the tasks ever submitted.  The futures of a call are its file's children
in order, those that it has not got yet when it is in the second loop; what it has added up are
the totals of the others. -/
def Good (submitted : List File) (file : File) : Pc → Prop
  | .enter => True
  | .submit futures children => ∃ done, file.listFiles = some (done ++ children) ∧
      List.Forall₂ (fun i f => submitted[i]? = some f) futures done
  | .get total futures => ∃ done rest, file.listFiles = some (done ++ rest) ∧
      List.Forall₂ (fun i f => submitted[i]? = some f) futures rest ∧
      total = (done.map getTotalsizeOfFilesInDir).sum
  | .returned total => total = getTotalsizeOfFilesInDir file

/-- Every task ever submitted, in order. -/
def State.submitted (s : State) : List File := s.service.submitted Call.file

/-- A later submission changes nothing for the futures already held. -/
theorem forall₂_append {L : List File} {futures : List Nat} {files : List File} (x : List File)
    (h : List.Forall₂ (fun i f => L[i]? = some f) futures files) :
    List.Forall₂ (fun i f => (L ++ x)[i]? = some f) futures files := by
  refine h.imp fun i f hi => ?_
  rw [List.getElem?_append_left (List.getElem?_eq_some_iff.mp hi).1]
  exact hi

theorem Good.append {L : List File} {file : File} {pc : Pc} (h : Good L file pc) (x : List File) :
    Good (L ++ x) file pc := by
  cases pc with
  | enter => trivial
  | submit futures children =>
    obtain ⟨done, hlist, hall⟩ := h
    exact ⟨done, hlist, forall₂_append x hall⟩
  | get total futures =>
    obtain ⟨done, rest, hlist, hall, htotal⟩ := h
    exact ⟨done, rest, hlist, forall₂_append x hall, htotal⟩
  | returned total => exact h

/-- The directories with an entry that are still to be submitted by a call, or lie below what it
will submit. -/
def Pc.below (file : File) : Pc → Nat
  | .enter => file.dirsBelow
  | .submit _ children => (children.map File.dirs).sum
  | _ => 0

/-- A task counts its own directory as well. -/
def Call.dirs (call : Call) : Nat := (if call.file.hasEntry then 1 else 0) + call.pc.below call.file

theorem Call.dirs_enter (file : File) : (Call.enter file).dirs = file.dirs :=
  (File.dirs_eq file).symm

/-- The directories with an entry other than the root, over the whole state. -/
def State.dirs (s : State) : Nat :=
  s.main.pc.below s.main.file + s.service.weight File.dirs Call.dirs

/-- Everything a step of a call can do. -/
theorem call_spec {s u : State} {file : File} {pc pc' : Pc}
    (h : getTotalSizeOfFilesInDir s file pc = some (u, pc')) :
    u.main = s.main ∧ u.service.tasks = s.service.tasks ∧
    (∃ x, u.submitted = s.submitted ++ x) ∧
    u.service.weight File.dirs Call.dirs + pc'.below file
      = s.service.weight File.dirs Call.dirs + pc.below file ∧
    (∀ i ∈ pc'.futures, i ∈ pc.futures ∨ s.submitted.length ≤ i) ∧
    ((∀ i size, s.future i = some size → ∃ f, s.submitted[i]? = some f ∧
        size = getTotalsizeOfFilesInDir f) →
      Good s.submitted file pc → Good u.submitted file pc') := by
  cases pc with
  | enter =>
    simp only [getTotalSizeOfFilesInDir] at h
    split at h
    · rename_i hfile
      cases h
      have hnull : file.listFiles = none := by
        cases hl : file.listFiles with
        | none => rfl
        | some cs => rw [File.isFile_eq_false_of_listFiles hl] at hfile; cases hfile
      refine ⟨rfl, rfl, ⟨[], by simp⟩, ?_, by simp [Pc.futures], ?_⟩
      · simp [Pc.below, File.dirsBelow, hnull]
      · intro _ _
        exact (total_of_isFile hfile).symm
    · rename_i hfile
      rw [Bool.not_eq_true] at hfile
      split at h
      · rename_i cs hcs
        cases h
        refine ⟨rfl, rfl, ⟨[], by simp⟩, ?_, by simp [Pc.futures], ?_⟩
        · simp [Pc.below, File.dirsBelow, hcs]
        · intro _ _
          exact ⟨[], hcs, List.Forall₂.nil⟩
      · rename_i hnull
        cases h
        refine ⟨rfl, rfl, ⟨[], by simp⟩, ?_, by simp [Pc.futures], ?_⟩
        · simp [Pc.below, File.dirsBelow, hnull]
        · intro _ _
          exact (total_of_null hfile hnull).symm
  | submit futures children =>
    cases children with
    | nil =>
      simp only [getTotalSizeOfFilesInDir, Option.some.injEq, Prod.mk.injEq] at h
      obtain ⟨rfl, rfl⟩ := h
      refine ⟨rfl, rfl, ⟨[], by simp⟩, by simp [Pc.below], fun i hi => Or.inl hi, ?_⟩
      intro _ hg
      obtain ⟨done, hlist, hall⟩ := hg
      exact ⟨[], done, by simpa using hlist, hall, rfl⟩
    | cons child children =>
      simp only [getTotalSizeOfFilesInDir, Option.some.injEq, Prod.mk.injEq] at h
      obtain ⟨rfl, rfl⟩ := h
      have hsub : State.submitted { s with service := s.service.submit child }
          = s.submitted ++ [child] := FixedPool.submitted_submit _ _ _
      have hnext : s.service.nextNumber = s.submitted.length :=
        (FixedPool.length_submitted _ _).symm
      refine ⟨rfl, rfl, ⟨[child], hsub⟩, ?_, ?_, ?_⟩
      · simp only [FixedPool.weight_submit, Pc.below, List.map_cons, List.sum_cons]
        omega
      · intro i hi
        rcases List.mem_append.mp hi with hi | hi
        · exact Or.inl hi
        · rw [List.mem_singleton.mp hi, hnext]
          exact Or.inr le_rfl
      · intro _ hg
        obtain ⟨done, hlist, hall⟩ := hg
        refine ⟨done ++ [child], by simpa using hlist, ?_⟩
        rw [hsub]
        refine List.rel_append (forall₂_append _ hall) (List.Forall₂.cons ?_ List.Forall₂.nil)
        rw [hnext]
        exact List.getElem?_concat_length
  | get total futures =>
    cases futures with
    | nil =>
      simp only [getTotalSizeOfFilesInDir, Option.some.injEq, Prod.mk.injEq] at h
      obtain ⟨rfl, rfl⟩ := h
      refine ⟨rfl, rfl, ⟨[], by simp⟩, rfl, by simp [Pc.futures], ?_⟩
      intro _ hg
      obtain ⟨done, rest, hlist, hall, htotal⟩ := hg
      rw [List.forall₂_nil_left_iff.mp hall, List.append_nil] at hlist
      rw [htotal]
      exact (total_of_listFiles hlist).symm
    | cons i futures =>
      obtain ⟨size, hsize, heq⟩ := Option.map_eq_some_iff.mp h
      simp only [Prod.mk.injEq] at heq
      obtain ⟨rfl, rfl⟩ := heq
      refine ⟨rfl, rfl, ⟨[], by simp⟩, rfl, fun k hk => Or.inl (List.mem_cons_of_mem _ hk),
        fun hval hg => ?_⟩
      obtain ⟨done, rest, hlist, hall, htotal⟩ := hg
      cases hall with
      | cons hi hall =>
        rename_i f rest
        obtain ⟨f', hf', hsz⟩ := hval i size hsize
        rw [hi, Option.some.injEq] at hf'
        refine ⟨done ++ [f], rest, by simpa using hlist, hall, ?_⟩
        rw [htotal, hsz, ← hf', List.map_append, List.sum_append, List.map_singleton,
          List.sum_singleton]
  | returned total => cases h

/-! ## 3. The invariant -/

structure Inv (root : File) (s : State) : Prop where
  main_file : s.main.file = root
  main : Good s.submitted s.main.file s.main.pc
  tasks : ∀ call ∈ s.service.tasks, Good s.submitted call.file call.pc
  /-- A task waits for later tasks only. -/
  later : ∀ (j : Nat) (call : Call), s.service.tasks[j]? = some call →
    ∀ i ∈ call.pc.futures, j < i
  dirs_conserved : s.dirs = root.dirsBelow

theorem inv_init (n : Nat) (root : File) : Inv root (machine n root).init := by
  refine ⟨rfl, trivial, fun call h => (by cases h), fun j call h => (by cases h), ?_⟩
  simp [machine, State.dirs, Call.enter, Pc.below]

/-- A future that is done has the total of its task's file. -/
theorem future_total {root : File} {s : State} (hi : Inv root s) {i : Nat} {size : Long}
    (h : s.future i = some size) :
    ∃ f, s.submitted[i]? = some f ∧ size = getTotalsizeOfFilesInDir f := by
  unfold State.future at h
  split at h
  · rename_i file total hc
    cases h
    have hsub : (s.service.submitted Call.file)[i]? = some file := FixedPool.submitted_of_task hc
    exact ⟨file, hsub, hi.tasks _ (List.mem_of_getElem? hc)⟩
  · exact absurd h (by simp)

theorem step_inv {n : Nat} {root : File} {s t : State} {a : Act} (hi : Inv root s)
    (h : step n s a = some t) : Inv root t := by
  have hfut : ∀ i size, s.future i = some size → ∃ f, s.submitted[i]? = some f ∧
      size = getTotalsizeOfFilesInDir f := fun i size => future_total hi
  have hlen : s.service.tasks.length ≤ s.submitted.length := by
    rw [State.submitted, FixedPool.length_submitted]
    exact Nat.le_add_right _ _
  cases a with
  | main =>
    obtain ⟨⟨u, pc'⟩, hu, rfl⟩ := Option.map_eq_some_iff.mp h
    obtain ⟨-, htasks, ⟨x, hx⟩, hdirs, -, hgood⟩ := call_spec hu
    have hsub : State.submitted { u with main := ⟨s.main.file, pc'⟩ } = s.submitted ++ x := hx
    refine ⟨hi.main_file, ?_, ?_, ?_, ?_⟩
    · exact hgood hfut hi.main
    · intro call hc
      rw [hsub]
      exact (hi.tasks call (htasks ▸ hc)).append x
    · intro j call hc
      exact hi.later j call (htasks ▸ hc)
    · have := hi.dirs_conserved
      simp only [State.dirs] at this ⊢
      omega
  | take =>
    obtain ⟨p, hp, rfl⟩ := Option.map_eq_some_iff.mp h
    have hsub : State.submitted { s with service := p } = s.submitted :=
      FixedPool.submitted_take (fun _ => rfl) hp
    have hw : p.weight File.dirs Call.dirs = s.service.weight File.dirs Call.dirs :=
      FixedPool.weight_take Call.dirs_enter hp
    obtain ⟨f, rest, hq, -, rfl⟩ := FixedPool.take_eq_some hp
    refine ⟨hi.main_file, by rw [hsub]; exact hi.main, ?_, ?_, ?_⟩
    · intro call hc
      rw [hsub]
      rcases List.mem_append.mp hc with hc | hc
      · exact hi.tasks call hc
      · rw [List.mem_singleton.mp hc]
        trivial
    · intro j call hc
      rcases Nat.lt_or_ge j s.service.tasks.length with hj | hj
      · rw [List.getElem?_append_left hj] at hc
        exact hi.later j call hc
      · rw [List.getElem?_append_right hj] at hc
        have hmem := List.mem_of_getElem? hc
        rw [List.mem_singleton.mp hmem]
        exact fun i hi' => (by cases hi')
    · have := hi.dirs_conserved
      simp only [State.dirs] at this ⊢
      rw [hw]
      exact this
  | task j =>
    simp only [step] at h
    split at h
    · rename_i call hj
      obtain ⟨⟨u, pc'⟩, hu, rfl⟩ := Option.map_eq_some_iff.mp h
      obtain ⟨hmain, htasks, ⟨x, hx⟩, hdirs, hfutures, hgood⟩ := call_spec hu
      have huj : u.service.tasks[j]? = some call := htasks ▸ hj
      have hjlt : j < s.service.tasks.length := (List.getElem?_eq_some_iff.mp hj).1
      have hsub : State.submitted { u with service := u.service.setTask j ⟨call.file, pc'⟩ }
          = s.submitted ++ x := by
        have hset : (u.service.setTask j ⟨call.file, pc'⟩).submitted Call.file
            = u.service.submitted Call.file := FixedPool.submitted_setTask huj rfl
        exact hset.trans hx
      have hcall := hi.tasks call (List.mem_of_getElem? hj)
      refine ⟨by rw [hmain]; exact hi.main_file, ?_, ?_, ?_, ?_⟩
      · rw [hsub, hmain]
        exact hi.main.append x
      · intro c hc
        rw [hsub]
        rcases List.mem_or_eq_of_mem_set hc with hc | rfl
        · exact (hi.tasks c (htasks ▸ hc)).append x
        · rw [← hx]
          exact hgood hfut hcall
      · intro k c hc
        rw [FixedPool.tasks_setTask, htasks, List.getElem?_set] at hc
        split at hc
        · subst k
          rw [Option.some.injEq] at hc
          subst hc
          intro i hmem
          rcases hfutures i hmem with hold | hnew
          · exact hi.later j call hj i hold
          · omega
        · exact hi.later k c hc
      · have hw := FixedPool.weight_setTask (M := Nat) huj ⟨call.file, pc'⟩ File.dirs Call.dirs
        have := hi.dirs_conserved
        simp only [State.dirs, Call.dirs, hmain] at this hw ⊢
        omega
    · exact absurd h (by simp)

theorem reachable_inv {n : Nat} {root : File} {s : State} (h : (machine n root).Reachable s) :
    Inv root s :=
  h.induct (inv_init n root) fun _ _ _ _ hi hst => step_inv hi hst

/-! ## 4. Nobody is stuck -/

/-- A call has returned, or can move, or waits for a future. -/
theorem call_cases (s : State) (file : File) (pc : Pc) :
    (∃ total, pc = .returned total) ∨
    (∃ r, getTotalSizeOfFilesInDir s file pc = some r) ∨
    (∃ total i futures, pc = .get total (i :: futures) ∧ s.future i = none) := by
  cases pc with
  | enter =>
    refine Or.inr (Or.inl ?_)
    simp only [getTotalSizeOfFilesInDir]
    split
    · exact ⟨_, rfl⟩
    · split <;> exact ⟨_, rfl⟩
  | submit futures children => cases children <;> exact Or.inr (Or.inl ⟨_, rfl⟩)
  | get total futures =>
    cases futures with
    | nil => exact Or.inr (Or.inl ⟨_, rfl⟩)
    | cons i futures =>
      cases hf : s.future i with
      | none => exact Or.inr (Or.inr ⟨total, i, futures, rfl, hf⟩)
      | some size =>
        exact Or.inr (Or.inl ⟨(s, .get (total + size) futures), by
          simp only [getTotalSizeOfFilesInDir, hf, Option.map_some]⟩)
  | returned total => exact Or.inl ⟨total, rfl⟩

/-- A call that waits was given a directory with an entry, and waits for a submitted task. -/
theorem waiting_spec {L : List File} {file : File} {total : Long} {i : Nat} {futures : List Nat}
    (h : Good L file (.get total (i :: futures))) : file.hasEntry = true ∧ i < L.length := by
  obtain ⟨done, rest, hlist, hall, -⟩ := h
  cases hall with
  | cons hi _ =>
    refine ⟨?_, (List.getElem?_eq_some_iff.mp hi).1⟩
    simp only [File.hasEntry, hlist]
    cases done <;> rfl

section Stuck

variable {n : Nat} {root : File} {s : State} (hi : Inv root s) (hstuck : ∀ a, step n s a = none)

include hi hstuck

/-- In a stuck state every task has returned or waits for a later one that has not. -/
theorem task_waits {j : Nat} {call : Call} (hj : s.service.tasks[j]? = some call)
    (hbusy : ∀ total, call.pc ≠ .returned total) :
    call.file.hasEntry = true ∧ ∃ i, j < i ∧ i < s.submitted.length ∧ s.future i = none := by
  rcases call_cases s call.file call.pc with ⟨total, h⟩ | ⟨r, h⟩ | ⟨total, i, futures, h, hf⟩
  · exact absurd h (hbusy total)
  · have := hstuck (.task j)
    simp only [step, hj, h] at this
    cases this
  · have hgood := hi.tasks call (List.mem_of_getElem? hj)
    rw [h] at hgood
    obtain ⟨hentry, hlt⟩ := waiting_spec hgood
    exact ⟨hentry, i, hi.later j call hj i (by rw [h]; exact List.mem_cons_self), hlt, hf⟩

/-- With fewer directories to wait on than threads, a stuck state has taken every task. -/
theorem queue_empty (hn : root.dirsBelow < n) : s.service.queue = [] := by
  by_contra hq
  have hocc : s.service.occupied Call.busy ≤ s.service.weight File.dirs Call.dirs := by
    refine FixedPool.occupied_le_weight File.dirs ?_
    intro call hc hbusy
    obtain ⟨j, hj⟩ := List.getElem?_of_mem hc
    have hentry := (task_waits hi hstuck hj fun total h => by
      rw [Call.busy, h] at hbusy; cases hbusy).1
    rw [Call.dirs, if_pos hentry]
    exact Nat.le_add_right _ _
  have hdirs := hi.dirs_conserved
  rw [State.dirs] at hdirs
  obtain ⟨p, hp⟩ : ∃ p, s.service.take Call.busy n Call.enter = some p :=
    FixedPool.take_enabled hq (by omega)
  have := hstuck .take
  simp only [step, hp] at this
  cases this

/-- A chain of waits ends: no submitted task can be without a result.  The induction is on the
number of tasks behind it. -/
theorem chain_ends (hq : s.service.queue = []) :
    ∀ k i, s.submitted.length - i ≤ k → i < s.submitted.length → s.future i ≠ none
  | 0, i, hk, hlt, _ => by omega
  | k + 1, i, hk, hlt, hnone => by
    have hlen : s.submitted.length = s.service.tasks.length := by
      rw [State.submitted, FixedPool.length_submitted, FixedPool.nextNumber, hq]
      rfl
    obtain ⟨call, hcall⟩ : ∃ call, s.service.tasks[i]? = some call :=
      ⟨_, List.getElem?_eq_getElem (hlen ▸ hlt)⟩
    have hbusy : ∀ total, call.pc ≠ .returned total := by
      intro total h
      obtain ⟨file, pc⟩ := call
      subst h
      simp only [State.future, hcall] at hnone
      cases hnone
    obtain ⟨-, i', hlater, hlt', hnone'⟩ := task_waits hi hstuck hcall hbusy
    exact chain_ends hq k i' (by omega) hlt' hnone'

end Stuck

/-- **With fewer waiting directories than threads, nothing gets stuck, and the result is right.**
If fewer than `n` directories other than the root have an entry, then in every reachable state
before the root's call has returned some thread can move; and what the root's call returns is the
sequential total. -/
theorem no_starvation {n : Nat} {root : File} (hn : root.dirsBelow < n) :
    (∀ s, (machine n root).Reachable s → (∀ total, s.main.pc ≠ .returned total) →
      ∃ a t, (machine n root).step s a = some t) ∧
    (∀ s total, (machine n root).Reachable s → s.main.pc = .returned total →
      total = getTotalsizeOfFilesInDir root) := by
  constructor
  · intro s hr hnot
    have hi := reachable_inv hr
    by_contra hno
    have hstuck : ∀ a, step n s a = none := by
      intro a
      cases hst : step n s a with
      | none => rfl
      | some t => exact absurd ⟨a, t, hst⟩ hno
    rcases call_cases s s.main.file s.main.pc with ⟨total, h⟩ | ⟨r, h⟩ | ⟨total, i, futures, h, hf⟩
    · exact hnot total h
    · have := hstuck .main
      simp only [step, h] at this
      cases this
    · have hgood := hi.main
      rw [h] at hgood
      exact chain_ends hi hstuck (queue_empty hi hstuck hn) _ i le_rfl (waiting_spec hgood).2 hf
  · intro s total hr hret
    have hi := reachable_inv hr
    have hgood := hi.main
    rw [hret, hi.main_file] at hgood
    exact hgood

/-- One directory with an entry below the root. -/
def oneBelow : File := .directory (some [.regular 3, .directory (some [.regular 4])])

/-- The task of the directory has a thread and waits for its entry, which is in the queue. -/
def blocked : List Act :=
  [.main, .main, .main, .main, .take, .task 0, .take, .task 1, .task 1, .task 1, .main]

/-- Two threads are enough there: the entry gets the other one. -/
theorem no_starvation_blocked :
    ∃ s t, (machine 2 oneBelow).run (machine 2 oneBelow).init blocked = some s ∧
      (s.service.tasks[1]?).map Call.pc = some (.get 0 [2]) ∧ s.future 2 = none ∧
      (∃ a u, (machine 2 oneBelow).step s a = some u) ∧
      (machine 2 oneBelow).run s [.take, .task 2, .task 1, .task 1, .main, .main] = some t ∧
      t.main.pc = .returned 7 ∧ (7 : Long) = getTotalsizeOfFilesInDir oneBelow := by
  have hn : oneBelow.dirsBelow < 2 := by decide
  have hs : (machine 2 oneBelow).Reachable _ := ⟨blocked, rfl⟩
  have ht : (machine 2 oneBelow).Reachable _ :=
    ⟨blocked ++ [.take, .task 2, .task 1, .task 1, .main, .main], rfl⟩
  exact ⟨_, _, rfl, rfl, rfl, (no_starvation hn).1 _ hs (fun _ h => by cases h), rfl, rfl,
    (no_starvation hn).2 _ 7 ht rfl⟩

end TotalFileSizeNativeConcurrent
end JavaStudy
