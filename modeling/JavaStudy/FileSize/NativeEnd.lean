/-
# Every run of `TotalFileSizeNativeConcurrent` ends

A pool that starves is not busy: its threads wait.  This module says so (`native_ends`), and has
what the two modules on the outcome of a run share.

* `Caller`: the calling thread or a task.  Both run the same method, so a step is one of a caller
  (`step_act`), and what it does is a case of `Called`.
* `State.steps`: what is left to do, which every step lowers.

How a run ends is a matter of the tree and of the schedule: `NativeReturns.lean` says for which
trees some run returns, `NativeStarves.lean` for which trees some run does not.
-/
import JavaStudy.Lib.Progress
import JavaStudy.FileSize.Native

namespace JavaStudy
namespace TotalFileSizeNativeConcurrent

/-! ## 1. Callers -/

/-- Who runs the method: the calling thread (`none`) or the task with a number. -/
abbrev Caller := Option Nat

def Caller.act : Caller → Act
  | none => .main
  | some i => .task i

def State.call (s : State) : Caller → Option Call
  | none => some s.main
  | some i => s.service.tasks[i]?

def State.setCall (s : State) : Caller → Call → State
  | none, call => { s with main := call }
  | some i, call => { s with service := s.service.setTask i call }

def State.submit (s : State) (child : File) : State :=
  { s with service := s.service.submit child }

/-- What a call of `getTotalSizeOfFilesInDir` does next. -/
inductive Called (s : State) (file : File) : Pc → State → Pc → Prop where
  | file (h : file.isFile = true) : Called s file .enter s (.returned file.length)
  | list {children : List File} (h : file.listFiles = some children) :
      Called s file .enter s (.submit [] children)
  | null (hfile : file.isFile = false) (h : file.listFiles = none) :
      Called s file .enter s (.returned 0)
  | submit (futures : List Nat) (child : File) (children : List File) :
      Called s file (.submit futures (child :: children)) (s.submit child)
        (.submit (futures ++ [s.service.nextNumber]) children)
  | submitted (futures : List Nat) :
      Called s file (.submit futures []) s (.get 0 futures)
  | get (total : Long) {i : Nat} (futures : List Nat) {size : Long} (h : s.future i = some size) :
      Called s file (.get total (i :: futures)) s (.get (total + size) futures)
  | got (total : Long) : Called s file (.get total []) s (.returned total)

theorem called_iff {s u : State} {file : File} {pc pc' : Pc} :
    getTotalSizeOfFilesInDir s file pc = some (u, pc') ↔ Called s file pc u pc' := by
  constructor
  · intro h
    cases pc with
    | enter =>
      simp only [getTotalSizeOfFilesInDir] at h
      split at h
      · rename_i hfile
        cases h
        exact .file hfile
      · rename_i hfile
        split at h
        · rename_i children hchildren
          cases h
          exact .list hchildren
        · rename_i hnull
          cases h
          exact .null (Bool.eq_false_iff.mpr hfile) hnull
    | submit futures children =>
      cases children with
      | nil =>
        cases h
        exact .submitted futures
      | cons child children =>
        cases h
        exact .submit futures child children
    | get total futures =>
      cases futures with
      | nil =>
        cases h
        exact .got total
      | cons i futures =>
        obtain ⟨size, hsize, heq⟩ := Option.map_eq_some_iff.mp h
        cases heq
        exact .get total futures hsize
    | returned total => cases h
  · intro h
    cases h with
    | file hfile => simp only [getTotalSizeOfFilesInDir, hfile, if_true]
    | list hchildren =>
      simp only [getTotalSizeOfFilesInDir, File.isFile_eq_false_of_listFiles hchildren, hchildren,
        Bool.false_eq_true, if_false]
    | null hfile hnull =>
      simp only [getTotalSizeOfFilesInDir, hfile, hnull, Bool.false_eq_true, if_false]
    | submit futures child children => rfl
    | submitted futures => rfl
    | get total futures hsize => simp only [getTotalSizeOfFilesInDir, hsize, Option.map_some]
    | got total => rfl

/-- A step of a caller. -/
theorem step_act {n : Nat} {s u : State} {c : Caller} {file : File} {pc pc' : Pc}
    (hc : s.call c = some ⟨file, pc⟩) (h : Called s file pc u pc') :
    step n s c.act = some (u.setCall c ⟨file, pc'⟩) := by
  have hcalled := called_iff.mpr h
  cases c with
  | none =>
    simp only [State.call, Option.some.injEq] at hc
    simp only [Caller.act, step, hc, hcalled, Option.map_some]
    rfl
  | some i =>
    simp only [State.call] at hc
    simp only [Caller.act, step, hc, hcalled, Option.map_some]
    rfl

/-- Every step is one of a caller, or a thread takes a task. -/
theorem step_caller {n : Nat} {s t : State} {a : Act} (h : step n s a = some t) :
    (∃ p, s.service.take Call.busy n Call.enter = some p ∧ t = { s with service := p }) ∨
      ∃ c file pc u pc', s.call c = some ⟨file, pc⟩ ∧ Called s file pc u pc' ∧
        t = u.setCall c ⟨file, pc'⟩ := by
  cases a with
  | main =>
    obtain ⟨⟨u, pc'⟩, hu, rfl⟩ := Option.map_eq_some_iff.mp h
    exact Or.inr ⟨none, s.main.file, s.main.pc, u, pc', rfl, called_iff.mp hu, rfl⟩
  | take =>
    obtain ⟨p, hp, rfl⟩ := Option.map_eq_some_iff.mp h
    exact Or.inl ⟨p, hp, rfl⟩
  | task i =>
    simp only [step] at h
    split at h
    · rename_i call hcall
      obtain ⟨⟨u, pc'⟩, hu, rfl⟩ := Option.map_eq_some_iff.mp h
      exact Or.inr ⟨some i, call.file, call.pc, u, pc', hcall, called_iff.mp hu, rfl⟩
    · cases h

/-! ## 2. How many steps are left -/

/-- For each child it takes a step to submit it, one to take it, and one to get its total. -/
def Pc.steps (file : File) : Pc → Nat
  | .enter => 6 * file.nodes - 3
  | .submit futures children => 2 + futures.length + 6 * (children.map File.nodes).sum
  | .get _ futures => 1 + futures.length
  | .returned _ => 0

def Call.steps (call : Call) : Nat := call.pc.steps call.file

def queuedSteps (file : File) : Nat := 6 * file.nodes - 2

def State.steps (s : State) : Nat := s.main.steps + s.service.weight queuedSteps Call.steps

theorem called_steps {s u : State} {file : File} {pc pc' : Pc} (h : Called s file pc u pc') :
    u.service.weight queuedSteps Call.steps + pc'.steps file
      < s.service.weight queuedSteps Call.steps + pc.steps file := by
  have hpos := file.nodes_pos
  cases h with
  | file _ =>
    simp only [Pc.steps]
    omega
  | list hchildren =>
    have hnodes := File.nodes_of_listFiles hchildren
    simp only [Pc.steps, List.length_nil]
    omega
  | null _ _ =>
    simp only [Pc.steps]
    omega
  | submit futures child children =>
    have hchild := child.nodes_pos
    simp only [State.submit, FixedPool.weight_submit, queuedSteps, Pc.steps, List.length_append,
      List.length_singleton, List.map_cons, List.sum_cons]
    omega
  | submitted futures =>
    simp only [Pc.steps, List.map_nil, List.sum_nil]
    omega
  | get total futures _ =>
    simp only [Pc.steps, List.length_cons]
    omega
  | got total =>
    simp only [Pc.steps]
    omega

theorem called_tasks {s u : State} {file : File} {pc pc' : Pc} (h : Called s file pc u pc') :
    u.main = s.main ∧ u.service.tasks = s.service.tasks := by
  cases h <;> exact ⟨rfl, rfl⟩

theorem steps_setCall {s : State} {c : Caller} {call : Call} (hc : s.call c = some call)
    (call' : Call) : (s.setCall c call').steps + call.steps = s.steps + call'.steps := by
  cases c with
  | none =>
    simp only [State.call, Option.some.injEq] at hc
    simp only [State.steps, State.setCall, hc]
    omega
  | some i =>
    have hset := FixedPool.weight_setTask (M := Nat) hc call' queuedSteps Call.steps
    simp only [State.steps, State.setCall]
    omega

/-- **Every step takes from what is left.** -/
theorem step_steps {n : Nat} {s t : State} {a : Act} (h : step n s a = some t) :
    t.steps < s.steps := by
  rcases step_caller h with ⟨p, hp, rfl⟩ | ⟨c, file, pc, u, pc', hc, hcalled, rfl⟩
  · obtain ⟨f, rest, hq, -, rfl⟩ := FixedPool.take_eq_some hp
    have hpos := f.nodes_pos
    simp only [State.steps, FixedPool.weight, hq, List.map_append, List.map_cons, List.map_nil,
      List.sum_append, List.sum_cons, List.sum_nil, queuedSteps, Call.steps, Call.enter, Pc.steps]
    omega
  · have hless := called_steps hcalled
    obtain ⟨hmain, htasks⟩ := called_tasks hcalled
    have huc : u.call c = some ⟨file, pc⟩ := by
      cases c with
      | none => exact (congrArg some hmain).trans hc
      | some i => exact (congrArg (·[i]?) htasks).trans hc
    have hset : (u.setCall c ⟨file, pc'⟩).steps + pc.steps file = u.steps + pc'.steps file :=
      steps_setCall huc ⟨file, pc'⟩
    have hu : u.steps = s.main.steps + u.service.weight queuedSteps Call.steps := by
      rw [State.steps, hmain]
    have hs : s.steps = s.main.steps + s.service.weight queuedSteps Call.steps := rfl
    omega

theorem decreases (n : Nat) (root : File) : (machine n root).Decreases State.steps :=
  fun _ _ _ _ hst => step_steps hst

/-- **Every run ends.**  Each node of the tree accounts for six steps at most. -/
theorem length_le {n : Nat} {root : File} {as : List Act} {s : State}
    (h : (machine n root).run (machine n root).init as = some s) : as.length ≤ 6 * root.nodes := by
  have hlength := (decreases n root).length_add_le Machine.reachable_init h
  have hinit : (machine n root).init.steps = 6 * root.nodes - 3 := by
    simp [machine, State.steps, Call.steps, Call.enter, Pc.steps]
  omega

end TotalFileSizeNativeConcurrent
end JavaStudy
