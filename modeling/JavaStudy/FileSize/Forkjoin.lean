/-
# `TotalFileSizeConcurrentForkjoin`: the fork-join recursion

`FileSizeFinder.compute` treats a regular file at its own node (only the root ever is one) and at
its parent: the first loop adds the lengths of the children that are files and makes a task of
each other child, `invokeAll` runs the tasks, and the second loop joins them.  A join returns
what the task's `compute` returned, and a fork-join pool runs other tasks in a thread that waits,
so the computed value does not depend on the schedule; the model is the recursion itself.
-/
import JavaStudy.FileSize.Sequential

namespace JavaStudy
namespace TotalFileSizeConcurrentForkjoin

open TotalFileSizeSequential

/-! ## 1. The program -/

/-- The first loop: `size` after the children that are files. -/
def addFiles (size : Long) (children : List File) : Long :=
  children.foldl (fun size child => if child.isFile then size + child.length else size) size

/-- The list `tasks` after the first loop, a task being named by its file. -/
def tasks (children : List File) : List File := children.filter fun child => !child.isFile

mutual

/-- `FileSizeFinder.compute`. -/
def compute : File → Long
  | .regular length => length
  | .directory none => 0
  | .directory (some children) => joinAll (addFiles 0 children) children
  | .other => 0

/-- The second loop: `size += task.join()` for the children that became tasks. -/
def joinAll (size : Long) : List File → Long
  | [] => size
  | child :: rest =>
    if child.isFile then joinAll size rest else joinAll (size + compute child) rest

end

/-- `joinAll` walks the list `tasks`. -/
theorem joinAll_eq_foldl (size : Long) (children : List File) :
    joinAll size children
      = (tasks children).foldl (fun size task => size + compute task) size := by
  induction children generalizing size with
  | nil => rfl
  | cons c cs ih =>
    rw [joinAll, ih, ih]
    cases h : c.isFile <;> simp [tasks, h]

/-! ## 2. It computes the sequential total -/

theorem addFiles_eq (size : Long) (cs : List File) :
    addFiles size cs = size + ((cs.filter File.isFile).map File.length).sum := by
  induction cs generalizing size with
  | nil => simp [addFiles]
  | cons c cs ih =>
    have step : addFiles size (c :: cs)
        = addFiles (if c.isFile then size + c.length else size) cs := rfl
    rw [step, ih]
    cases h : c.isFile <;> simp [h, add_assoc]

/-- A sum over the children splits into the files, which count their length, and the rest. -/
theorem total_split (cs : List File) :
    (cs.map getTotalsizeOfFilesInDir).sum
      = ((cs.filter File.isFile).map File.length).sum
        + ((tasks cs).map getTotalsizeOfFilesInDir).sum := by
  induction cs with
  | nil => simp [tasks]
  | cons c cs ih =>
    rw [List.map_cons, List.sum_cons, ih]
    cases h : c.isFile with
    | true => simp [tasks, h, total_of_isFile h, add_assoc]
    | false => simp [tasks, h, add_left_comm]

theorem joinAll_eq (size : Long) {cs : List File}
    (ih : ∀ c ∈ cs, compute c = getTotalsizeOfFilesInDir c) :
    joinAll size cs = size + ((tasks cs).map getTotalsizeOfFilesInDir).sum := by
  induction cs generalizing size with
  | nil => simp [joinAll, tasks]
  | cons c cs ihc =>
    have hc := ih c List.mem_cons_self
    have hcs := fun size => ihc size fun d hd => ih d (List.mem_cons_of_mem _ hd)
    rw [joinAll, hcs, hcs]
    cases h : c.isFile <;> simp [tasks, h, hc, add_assoc]

/-- **`FileSizeFinder.compute` returns the sequential total**, for every root. -/
theorem compute_eq_total : ∀ f : File, compute f = getTotalsizeOfFilesInDir f
  | .regular _ => rfl
  | .directory none => rfl
  | .other => rfl
  | .directory (some children) => by
    have ih : ∀ c ∈ children, compute c = getTotalsizeOfFilesInDir c :=
      fun c _ => compute_eq_total c
    have htotal : getTotalsizeOfFilesInDir (.directory (some children))
        = (children.map getTotalsizeOfFilesInDir).sum := total_of_listFiles rfl
    rw [compute, joinAll_eq _ ih, addFiles_eq, zero_add, ← total_split, htotal]

end TotalFileSizeConcurrentForkjoin
end JavaStudy
