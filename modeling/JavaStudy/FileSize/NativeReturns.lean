/-
# The trees on which `TotalFileSizeNativeConcurrent` can return

A task holds its thread while the tasks of its entries run, and so do the tasks above it.  So as
many threads are held as directories are nested, and the entry at the bottom needs one more.

* `Leveled`: above an unfinished task of level `l` there are `l` tasks that wait, each for the next
  one.  What is finished has found its threads (`Leveled.done`).
* `Completes`: conversely, a schedule in which a directory submits its next entry only when the
  one before is finished needs no more threads than that.
* `returns_iff`: some run returns if and only if fewer directories are nested below the root than
  there are threads.
-/
import JavaStudy.FileSize.NativeEnd

namespace JavaStudy

/-! ## 1. How deep directories are nested -/

namespace File

mutual

/-- How many directories with at least one entry are nested in one another. -/
def depth : File → Nat
  | regular _ => 0
  | directory none => 0
  | directory (some children) => (if children.isEmpty then 0 else 1) + depthOf children
  | other => 0

def depthOf : List File → Nat
  | [] => 0
  | child :: rest => max (depth child) (depthOf rest)

end

/-- The same without the root. -/
def depthBelow (f : File) : Nat :=
  match f.listFiles with
  | some children => depthOf children
  | none => 0

theorem depthOf_le_iff {cs : List File} {k : Nat} : depthOf cs ≤ k ↔ ∀ c ∈ cs, c.depth ≤ k := by
  induction cs with
  | nil => simp [depthOf]
  | cons c cs ih => simp [depthOf, ih]

theorem depth_eq (f : File) : f.depth = (if f.hasEntry then 1 else 0) + f.depthBelow := by
  rcases f with _ | (_ | (_ | ⟨c, cs⟩)) | _ <;> simp [depth, hasEntry, depthBelow, listFiles]

theorem depthBelow_lt_iff {f : File} {children : List File} (h : f.listFiles = some children)
    {n : Nat} (hn : 0 < n) : f.depthBelow < n ↔ ∀ child ∈ children, child.depth < n := by
  have hbelow : f.depthBelow = depthOf children := by
    rw [depthBelow, h]
  rw [hbelow, ← Nat.le_sub_one_iff_lt hn, depthOf_le_iff]
  exact forall₂_congr fun child _ => Nat.le_sub_one_iff_lt hn

theorem hasEntry_of_mem {f child : File} {children : List File} (h : f.listFiles = some children)
    (hchild : child ∈ children) : f.hasEntry = true := by
  unfold hasEntry
  rw [h]
  cases children with
  | nil => cases hchild
  | cons => rfl

theorem listFiles_of_isFile {f : File} (h : f.isFile = true) : f.listFiles = none := by
  cases hlist : f.listFiles with
  | none => rfl
  | some children =>
    rw [isFile_eq_false_of_listFiles hlist] at h
    cases h

theorem hasEntry_of_null {f : File} (h : f.listFiles = none) : f.hasEntry = false := by
  rw [hasEntry, h]

/-- A directory is deeper than what it lists. -/
theorem depth_lt {f child : File} {children : List File} (h : f.listFiles = some children)
    (hchild : child ∈ children) : child.depth < f.depth := by
  have hle : child.depth ≤ f.depthBelow := by
    have hbelow : f.depthBelow = depthOf children := by
      rw [depthBelow, h]
    rw [hbelow]
    exact depthOf_le_iff.mp (Nat.le_refl _) child hchild
  rw [depth_eq f, if_pos (hasEntry_of_mem h hchild)]
  omega

theorem nodes_lt {f child : File} {children : List File} (h : f.listFiles = some children)
    (hchild : child ∈ children) : child.nodes < f.nodes := by
  have hle : child.nodes ≤ (children.map nodes).sum :=
    List.le_sum_of_mem (List.mem_map_of_mem hchild)
  rw [nodes_of_listFiles h]
  omega

end File

namespace TotalFileSizeNativeConcurrent

/-! ## 2. One entry after the other -/

theorem busy_eq_false_iff {call : Call} :
    call.busy = false ↔ ∃ total, call.pc = .returned total := by
  obtain ⟨file, pc⟩ := call
  cases pc <;> simp [Call.busy]

/-- A future is done when its task has returned. -/
theorem future_ne_none_iff {s : State} {i : Nat} :
    s.future i ≠ none ↔ ∃ call, s.service.tasks[i]? = some call ∧ call.busy = false := by
  unfold State.future
  split
  · rename_i file total hi
    exact ⟨fun _ => ⟨_, hi, rfl⟩, fun _ => Option.some_ne_none total⟩
  · rename_i hnot
    refine ⟨fun h => absurd rfl h, ?_⟩
    rintro ⟨⟨file, pc⟩, hi, hbusy⟩
    obtain ⟨total, hpc⟩ := busy_eq_false_iff.mp hbusy
    simp only at hpc
    subst hpc
    exact absurd hi (hnot file total)

theorem future_of_busy {s : State} {i : Nat} {call : Call} (h : s.service.tasks[i]? = some call)
    (hbusy : call.busy = true) : s.future i = none := by
  by_contra hdone
  obtain ⟨call', hcall', hover⟩ := future_ne_none_iff.mp hdone
  rw [hcall', Option.some.injEq] at h
  rw [← h, hover] at hbusy
  cases hbusy

/-- More tasks, which have been taken. -/
def State.add (s : State) (more : List Call) : State :=
  { s with service := { s.service with tasks := s.service.tasks ++ more } }

def State.occupied (s : State) : Nat := s.service.occupied Call.busy

theorem add_nil (s : State) : s.add [] = s := by
  simp [State.add]

theorem add_add (s : State) (more more' : List Call) :
    (s.add more).add more' = s.add (more ++ more') := by
  simp [State.add]

theorem setCall_self {s : State} {c : Caller} {call : Call} (h : s.call c = some call) :
    s.setCall c call = s := by
  cases c with
  | none =>
    simp only [State.call, Option.some.injEq] at h
    rw [State.setCall, ← h]
  | some i =>
    obtain ⟨hlt, rfl⟩ := List.getElem?_eq_some_iff.mp h
    simp [State.setCall, FixedPool.setTask]

theorem setCall_setCall (s : State) (c : Caller) (call call' : Call) :
    (s.setCall c call).setCall c call' = s.setCall c call' := by
  cases c <;> simp [State.setCall, FixedPool.setTask]

theorem setCall_add {s : State} {c : Caller} {call : Call} (h : s.call c = some call)
    (more : List Call) (call' : Call) :
    (s.add more).setCall c call' = (s.setCall c call').add more := by
  cases c with
  | none => rfl
  | some i =>
    have hlt := (List.getElem?_eq_some_iff.mp h).1
    simp [State.setCall, State.add, FixedPool.setTask, List.set_append_left _ _ hlt]

theorem setCall_new (s : State) (call call' : Call) :
    (s.add [call]).setCall (some s.service.tasks.length) call' = s.add [call'] := by
  simp [State.setCall, State.add, FixedPool.setTask]

theorem call_setCall {s : State} {c : Caller} {call : Call} (h : s.call c = some call)
    (call' : Call) : (s.setCall c call').call c = some call' := by
  cases c with
  | none => rfl
  | some i =>
    have hlt := (List.getElem?_eq_some_iff.mp h).1
    simp [State.setCall, State.call, hlt]

theorem call_add {s : State} {c : Caller} {call : Call} (h : s.call c = some call)
    (more : List Call) : (s.add more).call c = some call := by
  cases c with
  | none => exact h
  | some i =>
    have hlt := (List.getElem?_eq_some_iff.mp h).1
    simp only [State.call, State.add]
    rw [List.getElem?_append_left hlt]
    exact h

theorem queue_setCall (s : State) (c : Caller) (call : Call) :
    (s.setCall c call).service.queue = s.service.queue := by
  cases c <;> rfl

theorem length_setCall (s : State) (c : Caller) (call : Call) :
    (s.setCall c call).service.tasks.length = s.service.tasks.length := by
  cases c <;> simp [State.setCall]

/-- A step that does not end a call frees no thread. -/
theorem occupied_setCall {s : State} {c : Caller} {call call' : Call} (h : s.call c = some call)
    (hbusy : call'.busy = call.busy) : (s.setCall c call').occupied = s.occupied := by
  cases c with
  | none => rfl
  | some i =>
    obtain ⟨hlt, hcall⟩ := List.getElem?_eq_some_iff.mp h
    have hpos : call.busy = true → 0 < s.service.tasks.countP Call.busy := fun hb =>
      List.countP_pos_iff.mpr ⟨call, List.mem_of_getElem? h, hb⟩
    simp only [State.occupied, State.setCall, FixedPool.occupied, FixedPool.tasks_setTask,
      List.countP_set hlt, hcall, hbusy]
    cases hb : call.busy with
    | true =>
      have hone := hpos hb
      simp only [if_true]
      omega
    | false => simp

theorem occupied_setCall_le {s : State} {c : Caller} {call : Call} (h : s.call c = some call)
    (hbusy : call.busy = true) (call' : Call) : (s.setCall c call').occupied ≤ s.occupied := by
  cases hbusy' : call'.busy with
  | true => exact le_of_eq (occupied_setCall h (hbusy'.trans hbusy.symm))
  | false =>
    cases c with
    | none => exact Nat.le_refl _
    | some i =>
      have hlt := (List.getElem?_eq_some_iff.mp h).1
      simp only [State.occupied, State.setCall, FixedPool.occupied, FixedPool.tasks_setTask,
        List.countP_set hlt, hbusy']
      simp

theorem occupied_add {s : State} {more : List Call} (h : ∀ call ∈ more, call.busy = false) :
    (s.add more).occupied = s.occupied := by
  have hzero : more.countP Call.busy = 0 :=
    List.countP_eq_zero.mpr fun call hcall => by simp [h call hcall]
  simp [State.occupied, State.add, FixedPool.occupied, hzero]

/-- A future that was done is done, whatever the caller that is not does next. -/
theorem future_setCall {s : State} {c : Caller} {call : Call} (h : s.call c = some call)
    (hbusy : call.busy = true) (call' : Call) {i : Nat} (hi : s.future i ≠ none) :
    (s.setCall c call').future i ≠ none := by
  obtain ⟨done, hdone, hover⟩ := future_ne_none_iff.mp hi
  refine future_ne_none_iff.mpr ⟨done, ?_, hover⟩
  cases c with
  | none => exact hdone
  | some j =>
    have hij : j ≠ i := by
      rintro rfl
      rw [State.call, hdone, Option.some.injEq] at h
      rw [← h, hover] at hbusy
      cases hbusy
    simpa [State.setCall, List.getElem?_set_ne hij] using hdone

theorem future_add {s : State} (more : List Call) {i : Nat} (hi : s.future i ≠ none) :
    (s.add more).future i ≠ none := by
  obtain ⟨done, hdone, hover⟩ := future_ne_none_iff.mp hi
  refine future_ne_none_iff.mpr ⟨done, ?_, hover⟩
  simp only [State.add]
  rw [List.getElem?_append_left (List.getElem?_eq_some_iff.mp hdone).1]
  exact hdone

section Loops

variable {n : Nat} {root file : File} {c : Caller}

variable (root) in
/-- The second loop: all the tasks are done. -/
theorem leads_get (futures : List Nat) : ∀ (total : Long) {s : State},
    s.call c = some ⟨file, .get total futures⟩ → (∀ i ∈ futures, s.future i ≠ none) →
    ∃ total', (machine n root).Leads s (s.setCall c ⟨file, .returned total'⟩) := by
  induction futures with
  | nil =>
    intro total s hc _
    exact ⟨total, .head (step_act hc (.got total)) (.refl _)⟩
  | cons i futures ih =>
    intro total s hc hdone
    obtain ⟨size, hsize⟩ := Option.ne_none_iff_exists'.mp (hdone i List.mem_cons_self)
    have hc' := call_setCall hc ⟨file, .get (total + size) futures⟩
    obtain ⟨total', hleads⟩ := ih (total + size) hc' fun k hk =>
      future_setCall hc rfl _ (hdone k (List.mem_cons_of_mem _ hk))
    rw [setCall_setCall] at hleads
    exact ⟨total', .head (step_act hc (.get total futures hsize)) hleads⟩

/-- A call for which no thread is wanting comes to its end, and so do the tasks that it submits. -/
def Completes (n : Nat) (root file : File) : Prop :=
  ∀ (s : State) (c : Caller), s.service.queue = [] → s.call c = some (.enter file) →
    (∀ children, file.listFiles = some children → ∀ child ∈ children,
      s.occupied + child.depth < n) →
    ∃ total finished, (∀ call ∈ finished, call.busy = false) ∧
      (machine n root).Leads s ((s.setCall c ⟨file, .returned total⟩).add finished)

/-- A free thread takes the one task in the queue. -/
theorem step_take {s : State} (hqueue : s.service.queue = []) (hfree : s.occupied < n)
    (child : File) : step n (s.submit child) .take = some (s.add [Call.enter child]) := by
  have htake : (s.service.submit child).take Call.busy n Call.enter
      = some ⟨s.service.tasks ++ [Call.enter child], []⟩ := by
    simp only [FixedPool.take, FixedPool.submit, hqueue, List.nil_append]
    exact if_pos hfree
  simp only [step, State.submit, htake, Option.map_some, State.add, hqueue]

/-- The one task in the queue runs by itself. -/
theorem leads_task {child : File} {s : State} (hchild : Completes n root child)
    (hqueue : s.service.queue = []) (hroom : s.occupied + child.depth < n) :
    ∃ total finished, (∀ call ∈ finished, call.busy = false) ∧
      (machine n root).Leads (s.submit child) (s.add (⟨child, .returned total⟩ :: finished)) := by
  have hbusy : (s.add [Call.enter child]).occupied = s.occupied + 1 := by
    simp [State.occupied, State.add, FixedPool.occupied, Call.busy, Call.enter]
  have hcall : (s.add [Call.enter child]).call (some s.service.tasks.length)
      = some (.enter child) := by
    simp [State.call, State.add]
  obtain ⟨total, finished, hover, hleads⟩ := hchild (s.add [Call.enter child])
    (some s.service.tasks.length) hqueue hcall fun grandchildren hlist grandchild hmem => by
      have hdepth := File.depth_lt hlist hmem
      omega
  rw [setCall_new, add_add] at hleads
  have hfree : s.occupied < n := by omega
  exact ⟨total, finished, hover, .head (a := .take) (step_take hqueue hfree child) hleads⟩

theorem submit_setCall (s : State) (c : Caller) (call : Call) (child : File) :
    (s.submit child).setCall c call = (s.setCall c call).submit child := by
  cases c <;> rfl

/-- An entry is submitted, and its task runs by itself. -/
theorem leads_child {child : File} {children : List File} {futures : List Nat} {s : State}
    (hchild : Completes n root child) (hqueue : s.service.queue = [])
    (hc : s.call c = some ⟨file, .submit futures (child :: children)⟩)
    (hroom : s.occupied + child.depth < n) :
    ∃ total finished, (∀ call ∈ finished, call.busy = false) ∧
      (machine n root).Leads s
        ((s.setCall c ⟨file, .submit (futures ++ [s.service.tasks.length]) children⟩).add
          (⟨child, .returned total⟩ :: finished)) := by
  have hnumber : s.service.nextNumber = s.service.tasks.length := by
    rw [FixedPool.nextNumber, hqueue, List.length_nil, Nat.add_zero]
  have hsubmit := step_act (n := n) hc (.submit futures child children)
  rw [hnumber, submit_setCall] at hsubmit
  have hoccupied : (s.setCall c ⟨file, .submit (futures ++ [s.service.tasks.length]) children⟩
      ).occupied = s.occupied := occupied_setCall hc rfl
  obtain ⟨total, finished, hover, hleads⟩ :=
    leads_task hchild ((queue_setCall s c _).trans hqueue) (hoccupied ▸ hroom)
  exact ⟨total, finished, hover, .head hsubmit hleads⟩

variable (root) in
/-- The first loop, one entry after the other. -/
theorem leads_submit {children : List File} (hall : ∀ child ∈ children, Completes n root child) :
    ∀ {s : State} {futures : List Nat}, s.service.queue = [] →
      s.call c = some ⟨file, .submit futures children⟩ → (∀ i ∈ futures, s.future i ≠ none) →
      (∀ child ∈ children, s.occupied + child.depth < n) →
      ∃ futures' finished, (∀ call ∈ finished, call.busy = false) ∧
        (∀ i ∈ futures',
          ((s.setCall c ⟨file, .submit futures' []⟩).add finished).future i ≠ none) ∧
        (machine n root).Leads s ((s.setCall c ⟨file, .submit futures' []⟩).add finished) := by
  induction children with
  | nil =>
    intro s futures hqueue hc hdone _
    refine ⟨futures, [], fun _ h => absurd h List.not_mem_nil, ?_⟩
    rw [add_nil, setCall_self hc]
    exact ⟨hdone, .refl s⟩
  | cons child children ih =>
    intro s futures hqueue hc hdone hroom
    obtain ⟨total, finished, hover, hleads⟩ := leads_child (hall child List.mem_cons_self) hqueue hc
      (hroom child List.mem_cons_self)
    have hmore : ∀ call ∈ (⟨child, .returned total⟩ : Call) :: finished, call.busy = false := by
      intro call hcall
      rcases List.mem_cons.mp hcall with rfl | hcall
      · rfl
      · exact hover call hcall
    generalize hX : (⟨file, .submit (futures ++ [s.service.tasks.length]) children⟩ : Call) = X
      at hleads
    have hc' : ((s.setCall c X).add (⟨child, .returned total⟩ :: finished)).call c = some X :=
      call_add (call_setCall hc X) _
    have hoccupied : ((s.setCall c X).add (⟨child, .returned total⟩ :: finished)).occupied
        = s.occupied := by
      rw [occupied_add hmore, occupied_setCall hc (by rw [← hX]; rfl)]
    have hdone' : ∀ i ∈ futures ++ [s.service.tasks.length],
        State.future ((s.setCall c X).add (⟨child, .returned total⟩ :: finished)) i ≠ none := by
      intro i hi
      rcases List.mem_append.mp hi with hi | hi
      · exact future_add _ (future_setCall hc rfl X (hdone i hi))
      · rw [List.mem_singleton.mp hi]
        refine future_ne_none_iff.mpr ⟨⟨child, .returned total⟩, ?_, rfl⟩
        rw [← length_setCall s c X]
        simp [State.add]
    obtain ⟨futures', finished', hover', hdone'', hleads'⟩ :=
      ih (s := (s.setCall c X).add (⟨child, .returned total⟩ :: finished))
        (fun child hmem => hall child (List.mem_cons_of_mem _ hmem))
        ((queue_setCall s c X).trans hqueue) (hX ▸ hc') hdone'
        fun child hmem => hoccupied ▸ hroom child (List.mem_cons_of_mem _ hmem)
    rw [setCall_add (call_setCall hc X), setCall_setCall, add_add] at hdone'' hleads'
    refine ⟨futures', ⟨child, .returned total⟩ :: finished ++ finished', ?_, hdone'',
      hleads.trans hleads'⟩
    intro call hcall
    rcases List.mem_append.mp hcall with hcall | hcall
    · exact hmore call hcall
    · exact hover' call hcall

/-- **A call with threads for its entries comes to its end.** -/
theorem completes (n : Nat) (root file : File) : Completes n root file := by
  induction hm : file.nodes using Nat.strong_induction_on generalizing file with
  | _ m ih =>
    intro s c hqueue hc hroom
    cases hlist : file.listFiles with
    | none =>
      cases hfile : file.isFile with
      | true =>
        refine ⟨file.length, [], fun _ h => absurd h List.not_mem_nil, ?_⟩
        rw [add_nil]
        exact .head (step_act hc (.file hfile)) (.refl _)
      | false =>
        refine ⟨0, [], fun _ h => absurd h List.not_mem_nil, ?_⟩
        rw [add_nil]
        exact .head (step_act hc (.null hfile hlist)) (.refl _)
    | some children =>
      have hc₁ := call_setCall hc ⟨file, .submit [] children⟩
      have hoccupied : (s.setCall c ⟨file, .submit [] children⟩).occupied = s.occupied :=
        occupied_setCall hc rfl
      obtain ⟨futures, finished, hover, hdone, hleads⟩ :=
        leads_submit root
          (fun child hmem => ih child.nodes (hm ▸ File.nodes_lt hlist hmem) child rfl)
          ((queue_setCall s c _).trans hqueue) hc₁ (fun i hi => absurd hi List.not_mem_nil)
          fun child hmem => hoccupied ▸ hroom children hlist child hmem
      rw [setCall_setCall] at hdone hleads
      have hc₂ := call_add (call_setCall hc ⟨file, .submit futures []⟩) finished
      obtain ⟨total, hget⟩ := leads_get (n := n) root futures 0
        (call_setCall hc₂ ⟨file, .get 0 futures⟩) fun i hi => future_setCall hc₂ rfl _ (hdone i hi)
      have hend : (((s.setCall c ⟨file, .submit futures []⟩).add finished).setCall c
          ⟨file, .get 0 futures⟩).setCall c ⟨file, .returned total⟩
            = (s.setCall c ⟨file, .returned total⟩).add finished := by
        rw [setCall_setCall, setCall_add (call_setCall hc _), setCall_setCall]
      rw [hend] at hget
      have hfirst : (machine n root).Leads s
          ((s.setCall c ⟨file, .submit futures []⟩).add finished) :=
        .head (step_act hc (.list hlist)) hleads
      exact ⟨total, finished, hover, hfirst.trans (.head (step_act hc₂ (.submitted futures)) hget)⟩

end Loops

/-! ## 3. The tasks above a task -/

/-- How many threads a caller and the tasks above it hold. -/
def Caller.height (level : Nat → Nat) : Caller → Nat
  | none => 0
  | some i => level i + 1

/-- A call that holds `height` threads with the tasks above it: the tasks that it has submitted are
on that level, and what it is done with has found its threads. -/
def Layered (n : Nat) (submitted : List File) (level : Nat → Nat) (height : Nat) (file : File) :
    Pc → Prop
  | .enter => True
  | .submit futures _ => ∀ i ∈ futures, level i = height
  | .get _ futures => (∀ i ∈ futures, level i = height) ∧
      ∃ done rest, file.listFiles = some (done ++ rest) ∧
        List.Forall₂ (fun i f => submitted[i]? = some f) futures rest ∧
        ∀ f ∈ done, f.depth + height < n
  | .returned _ =>
      ∀ children, file.listFiles = some children → ∀ f ∈ children, f.depth + height < n

structure Leveled (n : Nat) (s : State) (level : Nat → Nat) : Prop where
  calls : ∀ c call, s.call c = some call →
    Layered n s.submitted level (c.height level) call.file call.pc
  done : ∀ (i : Nat) (call : Call), s.service.tasks[i]? = some call → call.busy = false →
    call.file.depth + level i < n
  awaited : ∀ i < s.submitted.length, s.future i = none →
    ∃ c call, s.call c = some call ∧ i ∈ call.pc.futures
  occupied : s.occupied ≤ n

theorem leveled_init (n : Nat) (root : File) (level : Nat → Nat) :
    Leveled n (machine n root).init level where
  calls c call h := by
    cases c with
    | none =>
      cases h
      trivial
    | some i => cases h
  done i call h := by cases h
  awaited i h := absurd h (by simp [machine, State.submitted, FixedPool.submitted, FixedPool.empty])
  occupied := Nat.zero_le n

theorem busy_of_mem_futures {call : Call} {i : Nat} (h : i ∈ call.pc.futures) :
    call.busy = true := by
  obtain ⟨file, pc⟩ := call
  cases pc with
  | returned total => exact absurd h List.not_mem_nil
  | _ => rfl

theorem Layered.level_eq {n : Nat} {L : List File} {level : Nat → Nat} {height : Nat} {file : File}
    {pc : Pc} (h : Layered n L level height file pc) {i : Nat} (hi : i ∈ pc.futures) :
    level i = height := by
  cases pc with
  | enter => exact absurd hi List.not_mem_nil
  | submit futures children => exact h i hi
  | get total futures => exact h.1 i hi
  | returned total => exact absurd hi List.not_mem_nil

theorem Inv.good_of_call {root : File} {s : State} (hi : Inv root s) {c : Caller} {call : Call}
    (hc : s.call c = some call) : Good s.submitted call.file call.pc := by
  cases c with
  | none =>
    cases hc
    exact hi.main
  | some i => exact hi.tasks call (List.mem_of_getElem? hc)

theorem mem_futures_lt {L : List File} {file : File} {pc : Pc} (h : Good L file pc) {i : Nat}
    (hi : i ∈ pc.futures) : i < L.length := by
  have hall : ∀ {futures : List Nat} {files : List File},
      List.Forall₂ (fun i f => L[i]? = some f) futures files → i ∈ futures → i < L.length := by
    intro futures files hall hmem
    obtain ⟨k, hk, rfl⟩ := List.mem_iff_getElem.mp hmem
    have hget := List.Forall₂.get hall hk (hall.length_eq ▸ hk)
    exact (List.getElem?_eq_some_iff.mp hget).1
  cases pc with
  | enter => exact absurd hi List.not_mem_nil
  | submit futures children =>
    obtain ⟨done, -, hfutures⟩ := h
    exact hall hfutures hi
  | get total futures =>
    obtain ⟨done, rest, -, hfutures, -⟩ := h
    exact hall hfutures hi
  | returned total => exact absurd hi List.not_mem_nil

/-- More is submitted, and the new tasks are given their level. -/
theorem Layered.mono {n : Nat} {L : List File} {level level' : Nat → Nat} {height : Nat}
    {file : File} {pc : Pc} (h : Layered n L level height file pc) (x : List File)
    (hlevel : ∀ i ∈ pc.futures, level' i = level i) :
    Layered n (L ++ x) level' height file pc := by
  cases pc with
  | enter => trivial
  | submit futures children => exact fun i hi => (hlevel i hi).trans (h i hi)
  | get total futures =>
    obtain ⟨hfutures, done, rest, hlist, hall, hdone⟩ := h
    exact ⟨fun i hi => (hlevel i hi).trans (hfutures i hi), done, rest, hlist,
      forall₂_append x hall, hdone⟩
  | returned total => exact h

theorem countP_take_lt {tasks : List Call} {i : Nat} {call : Call} (h : tasks[i]? = some call)
    (hbusy : call.busy = true) {k : Nat} (hk : i < k) :
    (tasks.take i).countP Call.busy < (tasks.take k).countP Call.busy := by
  have hsucc : (tasks.take (i + 1)).countP Call.busy = (tasks.take i).countP Call.busy + 1 := by
    rw [List.take_add_one, h, List.countP_append]
    simp [hbusy]
  have hle : (tasks.take (i + 1)).countP Call.busy ≤ (tasks.take k).countP Call.busy :=
    (List.take_sublist_take_left hk).countP_le
  omega

section Chain

variable {n : Nat} {root : File} {s : State} {level : Nat → Nat}

/-- **As many tasks wait above a task as its level says.**  The induction is on the number of the
task: the one that waits for it has a smaller one. -/
theorem Leveled.level_le (h : Leveled n s level) (hi : Inv root s) :
    ∀ i < s.submitted.length, s.future i = none →
      level i ≤ (s.service.tasks.take i).countP Call.busy := by
  intro i
  induction i using Nat.strong_induction_on with
  | _ i ih =>
    intro hlt hnone
    obtain ⟨c, call, hc, hmem⟩ := h.awaited i hlt hnone
    have hlevel := (h.calls c call hc).level_eq hmem
    cases c with
    | none =>
      rw [hlevel]
      exact Nat.zero_le _
    | some j =>
      have hji : j < i := hi.later j call hc i hmem
      have hbusy := busy_of_mem_futures hmem
      have hle := ih j hji (hji.trans hlt) (future_of_busy hc hbusy)
      have hmore := countP_take_lt hc hbusy hji
      simp only [Caller.height] at hlevel
      omega

/-- A task that holds a thread finds those above it on others. -/
theorem Leveled.level_lt (h : Leveled n s level) (hi : Inv root s) {i : Nat} {call : Call}
    (hcall : s.service.tasks[i]? = some call) (hbusy : call.busy = true) : level i < n := by
  have hlen := (List.getElem?_eq_some_iff.mp hcall).1
  have hsubmitted : i < s.submitted.length := by
    rw [State.submitted, FixedPool.length_submitted, FixedPool.nextNumber]
    omega
  have hle := h.level_le hi i hsubmitted (future_of_busy hcall hbusy)
  have hmore := countP_take_lt hcall hbusy hlen
  rw [List.take_length] at hmore
  have hoccupied := h.occupied
  rw [State.occupied, FixedPool.occupied] at hoccupied
  omega

end Chain

/-- A level more fits above a directory if it fits above its entries. -/
theorem depth_add_lt {file : File} {children : List File} {n k : Nat}
    (hlist : file.listFiles = some children) (hk : k < n)
    (hall : ∀ child ∈ children, child.depth + (k + 1) < n) : file.depth + k < n := by
  have hbelow : file.depthBelow = File.depthOf children := by
    rw [File.depthBelow, hlist]
  rw [File.depth_eq, hbelow]
  cases children with
  | nil =>
    have hnone : file.hasEntry = false := by
      rw [File.hasEntry, hlist]
    simpa [hnone, File.depthOf] using hk
  | cons child children =>
    have hle : File.depthOf (child :: children) ≤ n - (k + 2) := by
      refine File.depthOf_le_iff.mpr ?_
      intro f hf
      have hlt := hall f hf
      omega
    have hlt := hall child List.mem_cons_self
    split <;> omega

theorem depth_of_null {file : File} (h : file.listFiles = none) : file.depth = 0 := by
  simp [File.depth_eq, File.hasEntry_of_null h, File.depthBelow, h]

theorem call_setCall_of_ne {s : State} {c d : Caller} (h : d ≠ c) (call : Call) :
    (s.setCall c call).call d = s.call d := by
  cases c with
  | none =>
    cases d with
    | none => exact absurd rfl h
    | some j => rfl
  | some i =>
    cases d with
    | none => rfl
    | some j =>
      have hij : i ≠ j := fun heq => h (heq ▸ rfl)
      simp [State.call, State.setCall, List.getElem?_set_ne hij]

theorem submitted_setCall {s : State} {c : Caller} {call : Call} (hc : s.call c = some call)
    (call' : Call) (hfile : call'.file = call.file) : (s.setCall c call').submitted = s.submitted := by
  cases c with
  | none => rfl
  | some i => exact FixedPool.submitted_setTask hc hfile

theorem called_submitted {s u : State} {file : File} {pc pc' : Pc} (h : Called s file pc u pc') :
    ∃ x, u.submitted = s.submitted ++ x := by
  cases h with
  | submit futures child children => exact ⟨[child], FixedPool.submitted_submit _ _ _⟩
  | _ => exact ⟨[], (List.append_nil _).symm⟩

theorem call_of_called {s u : State} {file : File} {pc pc' : Pc} (h : Called s file pc u pc')
    (c : Caller) : u.call c = s.call c := by
  obtain ⟨hmain, htasks⟩ := called_tasks h
  cases c with
  | none => exact congrArg some hmain
  | some i => exact congrArg (·[i]?) htasks

theorem future_of_called {s u : State} {file : File} {pc pc' : Pc} (h : Called s file pc u pc')
    (i : Nat) : u.future i = s.future i := by
  rw [State.future, State.future, (called_tasks h).2]

theorem lt_of_call {s : State} {i : Nat} {call : Call} (h : s.call (some i) = some call) :
    i < s.submitted.length := by
  have hlt := (List.getElem?_eq_some_iff.mp h).1
  rw [State.submitted, FixedPool.length_submitted, FixedPool.nextNumber]
  omega

section Step

variable {n : Nat} {root : File} {s : State} {level : Nat → Nat}

/-- A step of one caller leaves the others on their levels. -/
theorem Leveled.setCall (h : Leveled n s level) (hi : Inv root s) {c : Caller} {file : File}
    {pc pc' : Pc} {u : State} (hc : s.call c = some ⟨file, pc⟩) (hcalled : Called s file pc u pc')
    {level' : Nat → Nat} (hlevel : ∀ i < s.submitted.length, level' i = level i)
    (hnew : Layered n u.submitted level' (c.height level) file pc')
    (hdone : ∀ i, c = some i → Call.busy ⟨file, pc'⟩ = false → file.depth + level i < n)
    (hawait : ∀ i < u.submitted.length, (u.setCall c ⟨file, pc'⟩).future i = none →
      i ∈ pc.futures ∨ s.submitted.length ≤ i → i ∈ pc'.futures) :
    Leveled n (u.setCall c ⟨file, pc'⟩) level' := by
  have huc : u.call c = some ⟨file, pc⟩ := (call_of_called hcalled c).trans hc
  have hsubmitted : (u.setCall c ⟨file, pc'⟩).submitted = u.submitted := submitted_setCall huc _ rfl
  have hbusy : Call.busy ⟨file, pc⟩ = true := by
    cases hcalled <;> rfl
  have hheight : ∀ {d : Caller} {call : Call}, s.call d = some call →
      d.height level' = d.height level := by
    intro d call hd
    cases d with
    | none => rfl
    | some i => exact congrArg Nat.succ (hlevel i (lt_of_call hd))
  refine ⟨?_, ?_, ?_, ?_⟩
  · intro d call hd
    rw [hsubmitted]
    by_cases hdc : d = c
    · subst hdc
      rw [call_setCall huc, Option.some.injEq] at hd
      subst hd
      rw [hheight hc]
      exact hnew
    · rw [call_setCall_of_ne hdc, call_of_called hcalled] at hd
      obtain ⟨x, hx⟩ := called_submitted hcalled
      have hgood : Good s.submitted call.file call.pc := hi.good_of_call hd
      rw [hheight hd, hx]
      exact (h.calls d call hd).mono x fun i hmem => hlevel i (mem_futures_lt hgood hmem)
  · intro i call hcall hover
    by_cases hic : c = some i
    · have hd : (u.setCall c ⟨file, pc'⟩).call c = some call := hic ▸ hcall
      rw [call_setCall huc, Option.some.injEq] at hd
      subst hd
      rw [hlevel i (lt_of_call (hic ▸ hc))]
      exact hdone i hic hover
    · have hd : s.call (some i) = some call := by
        rw [← call_of_called hcalled, ← call_setCall_of_ne (Ne.symm hic)]
        exact hcall
      rw [hlevel i (lt_of_call hd)]
      exact h.done i call hd hover
  · intro i hlt hnone
    rw [hsubmitted] at hlt
    rcases Nat.lt_or_ge i s.submitted.length with hold | hnewer
    · have hsnone : s.future i = none := by
        by_contra hsome
        rw [← future_of_called hcalled] at hsome
        exact future_setCall huc hbusy _ hsome hnone
      obtain ⟨d, call, hd, hmem⟩ := h.awaited i hold hsnone
      by_cases hdc : d = c
      · subst hdc
        rw [hc, Option.some.injEq] at hd
        subst hd
        exact ⟨d, _, call_setCall huc _, hawait i hlt hnone (Or.inl hmem)⟩
      · refine ⟨d, call, ?_, hmem⟩
        rw [call_setCall_of_ne hdc, call_of_called hcalled]
        exact hd
    · exact ⟨c, _, call_setCall huc _, hawait i hlt hnone (Or.inr hnewer)⟩
  · have hoccupied : u.occupied = s.occupied := by
      rw [State.occupied, FixedPool.occupied, (called_tasks hcalled).2]
      rfl
    exact (occupied_setCall_le huc hbusy _).trans (hoccupied ▸ h.occupied)

/-- A thread takes a task. -/
theorem Leveled.take (h : Leveled n s level) {p : FixedPool File Call}
    (hp : s.service.take Call.busy n Call.enter = some p) :
    Leveled n { s with service := p } level := by
  have hsubmitted : State.submitted { s with service := p } = s.submitted :=
    FixedPool.submitted_take (fun _ => rfl) hp
  obtain ⟨file, rest, hqueue, hfree, rfl⟩ := FixedPool.take_eq_some hp
  refine ⟨?_, ?_, ?_, ?_⟩
  · intro c call hc
    rw [hsubmitted]
    cases c with
    | none => exact h.calls none call hc
    | some i =>
      rcases Nat.lt_or_ge i s.service.tasks.length with hi | hi
      · simp only [State.call] at hc
        rw [List.getElem?_append_left hi] at hc
        exact h.calls (some i) call hc
      · simp only [State.call] at hc
        rw [List.getElem?_append_right hi] at hc
        have hmem := List.mem_singleton.mp (List.mem_of_getElem? hc)
        subst hmem
        trivial
  · intro i call hcall hover
    rcases Nat.lt_or_ge i s.service.tasks.length with hi | hi
    · rw [List.getElem?_append_left hi] at hcall
      exact h.done i call hcall hover
    · rw [List.getElem?_append_right hi] at hcall
      have hmem := List.mem_singleton.mp (List.mem_of_getElem? hcall)
      subst hmem
      cases hover
  · intro i hlt hnone
    rw [hsubmitted] at hlt
    have hsnone : s.future i = none := by
      by_contra hsome
      exact future_add [Call.enter file] hsome hnone
    obtain ⟨c, call, hc, hmem⟩ := h.awaited i hlt hsnone
    exact ⟨c, call, call_add hc [Call.enter file], hmem⟩
  · have hone : State.occupied { s with service := ⟨s.service.tasks ++ [Call.enter file], rest⟩ }
        = s.occupied + 1 := by
      simp [State.occupied, FixedPool.occupied, Call.busy, Call.enter]
    rw [hone]
    exact hfree

/-- **Every step.** -/
theorem step_leveled (hi : Inv root s) (h : Leveled n s level) {t : State} {a : Act}
    (hst : step n s a = some t) : ∃ level', Leveled n t level' := by
  rcases step_caller hst with ⟨p, hp, rfl⟩ | ⟨c, file, pc, u, pc', hc, hcalled, rfl⟩
  · exact ⟨level, h.take hp⟩
  · have hlayered := h.calls c _ hc
    have hgood : Good s.submitted file pc := hi.good_of_call hc
    have hbusy : Call.busy ⟨file, pc⟩ = true := by
      cases hcalled <;> rfl
    have hlt : ∀ i, c = some i → level i < n := by
      rintro i rfl
      exact h.level_lt hi hc hbusy
    -- a call that submits nothing and has no futures before the step
    have hnobody : ∀ {i : Nat} {futures : List Nat}, i < s.submitted.length →
        i ∈ ([] : List Nat) ∨ s.submitted.length ≤ i → i ∈ futures := by
      rintro i futures hlt (hmem | hge)
      · exact absurd hmem List.not_mem_nil
      · omega
    cases hcalled with
    | file hfile =>
      have hnull := File.listFiles_of_isFile hfile
      refine ⟨level, h.setCall hi hc (.file hfile) (fun _ _ => rfl) ?_ ?_ ?_⟩
      · intro children hlist
        rw [hnull] at hlist
        cases hlist
      · intro i hci _
        rw [depth_of_null hnull, Nat.zero_add]
        exact hlt i hci
      · exact fun i hi' _ hor => hnobody hi' hor
    | null hfile hnull =>
      refine ⟨level, h.setCall hi hc (.null hfile hnull) (fun _ _ => rfl) ?_ ?_ ?_⟩
      · intro children hlist
        rw [hnull] at hlist
        cases hlist
      · intro i hci _
        rw [depth_of_null hnull, Nat.zero_add]
        exact hlt i hci
      · exact fun i hi' _ hor => hnobody hi' hor
    | list hlist =>
      refine ⟨level, h.setCall hi hc (.list hlist) (fun _ _ => rfl) ?_ (fun _ _ h => (by cases h))
        fun i hi' _ hor => hnobody hi' hor⟩
      exact fun i hmem => absurd hmem List.not_mem_nil
    | submit futures child children =>
      have hnumber : s.service.nextNumber = s.submitted.length :=
        (FixedPool.length_submitted _ _).symm
      have hlength : (s.submit child).submitted.length = s.submitted.length + 1 := by
        rw [State.submitted, State.submit, FixedPool.submitted_submit, List.length_append]
        rfl
      have hkept : ∀ i < s.submitted.length,
          Function.update level s.submitted.length (c.height level) i = level i :=
        fun i hi' => Function.update_of_ne (Nat.ne_of_lt hi') _ _
      refine ⟨Function.update level s.submitted.length (c.height level),
        h.setCall hi hc (.submit futures child children) hkept ?_ (fun _ _ h => (by cases h)) ?_⟩
      · intro i hmem
        rcases List.mem_append.mp hmem with hmem | hmem
        · exact (hkept i (mem_futures_lt hgood hmem)).trans (hlayered i hmem)
        · rw [List.mem_singleton.mp hmem, hnumber, Function.update_self]
      · intro i hi' _ hor
        rcases hor with hmem | hge
        · exact List.mem_append_left _ hmem
        · refine List.mem_append_right _ (List.mem_singleton.mpr ?_)
          omega
    | submitted futures =>
      obtain ⟨done, hlist, hall⟩ := hgood
      rw [List.append_nil] at hlist
      refine ⟨level, h.setCall hi hc (.submitted futures) (fun _ _ => rfl)
        ⟨hlayered, [], done, hlist, hall, fun _ h => absurd h List.not_mem_nil⟩
        (fun _ _ h => (by cases h)) ?_⟩
      rintro i hi' _ (hmem | hge)
      · exact hmem
      · omega
    | @get total i futures size hsize =>
      obtain ⟨hfutures, done, rest, hlist, hall, hdone⟩ := hlayered
      obtain ⟨task, htask, hover⟩ := future_ne_none_iff.mp (hsize ▸ Option.some_ne_none size)
      cases hall with
      | @cons _ f _ rest hf hall =>
        have hfile : task.file = f := by
          have hsub : s.submitted[i]? = some task.file := FixedPool.submitted_of_task htask
          rw [hf, Option.some.injEq] at hsub
          exact hsub.symm
        have hdeep := h.done i task htask hover
        rw [hfile, hfutures i List.mem_cons_self] at hdeep
        refine ⟨level, h.setCall hi hc (.get total futures hsize) (fun _ _ => rfl)
          ⟨fun k hk => hfutures k (List.mem_cons_of_mem _ hk), done ++ [f], rest,
            by simpa using hlist, hall, ?_⟩ (fun _ _ h => (by cases h)) ?_⟩
        · intro g hg
          rcases List.mem_append.mp hg with hg | hg
          · exact hdone g hg
          · rw [List.mem_singleton.mp hg]
            exact hdeep
        · rintro k hk hnone (hmem | hge)
          · rcases List.mem_cons.mp hmem with rfl | hmem
            · exact absurd hnone (future_setCall hc rfl _ (hsize ▸ Option.some_ne_none size))
            · exact hmem
          · omega
    | got total =>
      obtain ⟨-, done, rest, hlist, hall, hdone⟩ := hlayered
      rw [List.forall₂_nil_left_iff.mp hall, List.append_nil] at hlist
      refine ⟨level, h.setCall hi hc (.got total) (fun _ _ => rfl) ?_ ?_
        fun i hi' _ hor => hnobody hi' hor⟩
      · intro children hchildren
        rw [hlist, Option.some.injEq] at hchildren
        exact hchildren ▸ hdone
      · rintro i rfl _
        exact depth_add_lt hlist (hlt i rfl) hdone

end Step

theorem reachable_leveled {n : Nat} {root : File} {s : State}
    (h : (machine n root).Reachable s) : ∃ level, Leveled n s level := by
  refine Machine.Reachable.induct (I := fun s => ∃ level, Leveled n s level)
    ⟨fun _ => 0, leveled_init n root _⟩ ?_ h
  rintro s a t hs ⟨level, hl⟩ hst
  exact step_leveled (reachable_inv hs) hl hst

/-! ## 4. When some run returns -/

/-- **Some run returns if and only if the directories below the root are nested less deeply than
there are threads.** -/
theorem returns_iff {n : Nat} (hn : 0 < n) (root : File) :
    (∃ s total, (machine n root).Reachable s ∧ s.main.pc = .returned total) ↔
      root.depthBelow < n := by
  constructor
  · rintro ⟨s, total, hs, hpc⟩
    obtain ⟨level, hl⟩ := reachable_leveled hs
    have hmain := hl.calls none s.main rfl
    rw [hpc, (reachable_inv hs).main_file] at hmain
    cases hlist : root.listFiles with
    | none => simpa [File.depthBelow, hlist] using hn
    | some children => exact (File.depthBelow_lt_iff hlist hn).mpr (hmain children hlist)
  · intro hdepth
    obtain ⟨total, finished, -, hleads⟩ := completes n root root (machine n root).init none rfl rfl
      fun children hlist child hmem => by
        have hlt := (File.depthBelow_lt_iff hlist hn).mp hdepth child hmem
        simpa [State.occupied, machine, FixedPool.occupied, FixedPool.empty] using hlt
    exact ⟨_, total, Machine.reachable_init.leads hleads, rfl⟩

/-- A directory in a directory. -/
def nested : File := .directory (some [.directory (some [.regular 3])])

/-- Two threads are enough there for some run, and one is not. -/
theorem returns_iff_nested :
    (∃ s total, (machine 2 nested).Reachable s ∧ s.main.pc = .returned total) ∧
    ¬ ∃ s total, (machine 1 nested).Reachable s ∧ s.main.pc = .returned total :=
  ⟨(returns_iff (by decide) nested).mpr (by decide),
    fun h => absurd ((returns_iff (by decide) nested).mp h) (by decide)⟩

end TotalFileSizeNativeConcurrent
end JavaStudy
