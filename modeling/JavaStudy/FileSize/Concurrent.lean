/-
# `TotalFileSizeConcurrent`: the level-by-level loop

Each task of this program scans ONE directory and returns its files' lengths and its other
entries; the main thread collects the entries of a whole level and submits them as the next one.
A task never waits for another, so every future completes, and `Future.get` either returns the
task's value or times out.  Which of the gets time out is a parameter (`timesOut`, by the number
of the get); a timeout leaves the loop with a `TimeoutException`.

* `Frontier.total_round`: a round keeps `total` plus the sequential totals of the frontier.
* `Frontier.nodes_round`: a round over a frontier strictly decreases the number of nodes below it,
  which is what makes the loop terminate.
-/
import JavaStudy.FileSize.Forkjoin

namespace JavaStudy
namespace TotalFileSizeConcurrent

open TotalFileSizeSequential

/-! ## 1. The program -/

structure SubDirectoriesAndSize where
  size : Long
  subDirectories : List File

/-- The loop body of `getTotalAndSubDirs`. -/
def addChild (r : SubDirectoriesAndSize) (child : File) : SubDirectoriesAndSize :=
  if child.isFile then { r with size := r.size + child.length }
  else { r with subDirectories := r.subDirectories ++ [child] }

def getTotalAndSubDirs (file : File) : SubDirectoriesAndSize :=
  if file.isDirectory then
    match file.listFiles with
    | some children => children.foldl addChild ⟨0, []⟩
    | none => ⟨0, []⟩
  else ⟨0, []⟩

/-- The variables of `getTotalSizeOfFilesInDir`, and how many gets it has done. -/
structure Frontier where
  total : Long
  directories : List File
  gets : Nat

/-- Why `getTotalSizeOfFilesInDir` leaves without a result. -/
inductive Failure where
  | timeoutException
  deriving DecidableEq

/-- Collect one future: the body of the second `for` loop. -/
def collect (timesOut : Nat → Bool) (s : Frontier) (directory : File) : Except Failure Frontier :=
  if timesOut s.gets then .error .timeoutException
  else
    let r := getTotalAndSubDirs directory
    .ok { total := s.total + r.size, directories := s.directories ++ r.subDirectories,
          gets := s.gets + 1 }

/-- One turn of the `while` loop: a task for each directory, `directories.clear()`, then the
results in order. -/
def round (timesOut : Nat → Bool) (s : Frontier) : Except Failure Frontier :=
  s.directories.foldlM (collect timesOut) { s with directories := [] }

/-- The `while` loop, for at most `fuel` tests of its condition; `none` is out of fuel. -/
def loop (timesOut : Nat → Bool) : Nat → Frontier → Option (Except Failure Long)
  | 0, _ => none
  | fuel + 1, s =>
    if s.directories.isEmpty then some (.ok s.total)
    else
      match round timesOut s with
      | .error e => some (.error e)
      | .ok s' => loop timesOut fuel s'

/-- `TotalFileSizeConcurrent.getTotalSizeOfFilesInDir`. -/
def getTotalSizeOfFilesInDir (timesOut : Nat → Bool) (fuel : Nat) (file : File) :
    Option (Except Failure Long) :=
  loop timesOut fuel ⟨0, [file], 0⟩

/-! ## 2. One task -/

theorem foldl_addChild (r : SubDirectoriesAndSize) (cs : List File) :
    cs.foldl addChild r
      = ⟨r.size + ((cs.filter File.isFile).map File.length).sum,
         r.subDirectories ++ TotalFileSizeConcurrentForkjoin.tasks cs⟩ := by
  induction cs generalizing r with
  | nil => simp [TotalFileSizeConcurrentForkjoin.tasks]
  | cons c cs ih =>
    rw [List.foldl_cons, ih]
    cases h : c.isFile <;>
      simp [addChild, TotalFileSizeConcurrentForkjoin.tasks, h, add_assoc]

/-- A listed directory: its files' lengths and its other entries. -/
theorem getTotalAndSubDirs_of_listFiles {f : File} {cs : List File} (h : f.listFiles = some cs) :
    getTotalAndSubDirs f
      = ⟨((cs.filter File.isFile).map File.length).sum,
         TotalFileSizeConcurrentForkjoin.tasks cs⟩ := by
  have hd : f.isDirectory = true := by
    rw [← Bool.not_eq_false]
    intro hd
    rw [File.listFiles_of_not_isDirectory hd] at h
    cases h
  rw [getTotalAndSubDirs, if_pos hd]
  simp [h, foldl_addChild]

theorem getTotalAndSubDirs_of_null {f : File} (h : f.listFiles = none) :
    getTotalAndSubDirs f = ⟨0, []⟩ := by
  simp [getTotalAndSubDirs, h]

/-- Nothing is lost by one task: its size and the totals of its sub-directories make up the total
of the node it scanned, if that is not a regular file. -/
theorem total_getTotalAndSubDirs {f : File} (hf : f.isFile = false) :
    (getTotalAndSubDirs f).size
        + ((getTotalAndSubDirs f).subDirectories.map getTotalsizeOfFilesInDir).sum
      = getTotalsizeOfFilesInDir f := by
  cases h : f.listFiles with
  | none => simp [getTotalAndSubDirs_of_null h, total_of_null hf h]
  | some cs =>
    rw [getTotalAndSubDirs_of_listFiles h, total_of_listFiles h]
    exact (TotalFileSizeConcurrentForkjoin.total_split cs).symm

/-- The sub-directories have fewer nodes than the node they were found in. -/
theorem nodes_getTotalAndSubDirs (f : File) :
    ((getTotalAndSubDirs f).subDirectories.map File.nodes).sum + 1 ≤ f.nodes := by
  cases h : f.listFiles with
  | none =>
    have hpos := f.nodes_pos
    simp only [getTotalAndSubDirs_of_null h, List.map_nil, List.sum_nil]
    omega
  | some cs =>
    rw [getTotalAndSubDirs_of_listFiles h, File.nodes_of_listFiles h]
    have hle : ((TotalFileSizeConcurrentForkjoin.tasks cs).map File.nodes).sum
        ≤ (cs.map File.nodes).sum :=
      (List.filter_sublist.map _).sum_le_sum fun _ _ => Nat.zero_le _
    dsimp only
    omega

/-- A task returns no regular file as a sub-directory. -/
theorem isFile_getTotalAndSubDirs (f : File) :
    ∀ d ∈ (getTotalAndSubDirs f).subDirectories, d.isFile = false := by
  cases h : f.listFiles with
  | none => simp [getTotalAndSubDirs_of_null h]
  | some cs =>
    rw [getTotalAndSubDirs_of_listFiles h]
    intro d hd
    simpa using (List.mem_filter.mp hd).2

/-! ## 3. One round -/

namespace Frontier

/-- The invariant of the loop for a root `root`: no regular file is on the frontier, and the
total with the sequential totals of the frontier is the total of the root. -/
structure Inv (root : File) (s : Frontier) : Prop where
  noFile : ∀ d ∈ s.directories, d.isFile = false
  total : s.total + (s.directories.map getTotalsizeOfFilesInDir).sum
    = getTotalsizeOfFilesInDir root

/-- What a sequence of collects has done when none of its gets timed out. -/
theorem foldlM_collect_eq_ok {timesOut : Nat → Bool} {ds : List File} {s t : Frontier}
    (h : ds.foldlM (collect timesOut) s = .ok t) :
    t.total = s.total + (ds.map fun d => (getTotalAndSubDirs d).size).sum ∧
      t.directories = s.directories ++ ds.flatMap fun d => (getTotalAndSubDirs d).subDirectories := by
  induction ds generalizing s with
  | nil =>
    rw [List.foldlM_nil] at h
    cases h
    simp
  | cons d ds ih =>
    rw [List.foldlM_cons] at h
    cases hc : collect timesOut s d with
    | error e => rw [hc] at h; cases h
    | ok u =>
      rw [hc] at h
      obtain ⟨htotal, hdirs⟩ := ih h
      unfold collect at hc
      split at hc
      · exact absurd hc (by simp)
      · cases hc
        simp [htotal, hdirs, add_assoc]

theorem foldlM_collect_of_no_timeout {timesOut : Nat → Bool} (hno : ∀ k, timesOut k = false)
    (ds : List File) (s : Frontier) : ∃ t, ds.foldlM (collect timesOut) s = .ok t := by
  induction ds generalizing s with
  | nil => exact ⟨s, rfl⟩
  | cons d ds ih =>
    rw [List.foldlM_cons]
    simp only [collect, hno, Bool.false_eq_true, if_false]
    exact ih _

/-- A sum over the entries of a level is the sum over the nodes they were found in. -/
theorem sum_flatMap {α : Type} [AddCommMonoid α] (g : File → α) (ds : List File) :
    ((ds.flatMap fun d => (getTotalAndSubDirs d).subDirectories).map g).sum
      = (ds.map fun d => ((getTotalAndSubDirs d).subDirectories.map g).sum).sum := by
  induction ds with
  | nil => simp
  | cons d ds ih => simp [ih]

/-- **A round keeps the total of the root.** -/
theorem total_round {timesOut : Nat → Bool} {root : File} {s t : Frontier}
    (hi : Inv root s) (h : round timesOut s = .ok t) : Inv root t := by
  obtain ⟨htotal, hdirs⟩ := foldlM_collect_eq_ok h
  rw [List.nil_append] at hdirs
  have hsplit : ∀ ds : List File, (∀ d ∈ ds, d.isFile = false) →
      (ds.map fun d => (getTotalAndSubDirs d).size).sum
          + (ds.map fun d => ((getTotalAndSubDirs d).subDirectories.map
              getTotalsizeOfFilesInDir).sum).sum
        = (ds.map getTotalsizeOfFilesInDir).sum := by
    intro ds
    induction ds with
    | nil => simp
    | cons d ds ih =>
      intro hds
      have hd := total_getTotalAndSubDirs (hds d List.mem_cons_self)
      have ih' := ih fun x hx => hds x (List.mem_cons_of_mem _ hx)
      rw [List.map_cons, List.map_cons, List.map_cons, List.sum_cons, List.sum_cons,
        List.sum_cons, add_add_add_comm, hd, ih']
  refine ⟨?_, ?_⟩
  · intro d hd
    rw [hdirs] at hd
    obtain ⟨f, -, hf⟩ := List.mem_flatMap.mp hd
    exact isFile_getTotalAndSubDirs f d hf
  · rw [htotal, hdirs, sum_flatMap, add_assoc, hsplit _ hi.noFile, hi.total]

/-- **A round over a nonempty frontier leaves fewer nodes below the frontier.** -/
theorem nodes_round {timesOut : Nat → Bool} {s t : Frontier} (hne : s.directories ≠ [])
    (h : round timesOut s = .ok t) :
    (t.directories.map File.nodes).sum < (s.directories.map File.nodes).sum := by
  obtain ⟨-, hdirs⟩ := foldlM_collect_eq_ok h
  rw [List.nil_append] at hdirs
  rw [hdirs, sum_flatMap]
  have hstep : ∀ ds : List File,
      (ds.map fun d => ((getTotalAndSubDirs d).subDirectories.map File.nodes).sum).sum + ds.length
        ≤ (ds.map File.nodes).sum := by
    intro ds
    induction ds with
    | nil => simp
    | cons d ds ih =>
      have hd := nodes_getTotalAndSubDirs d
      simp only [List.map_cons, List.sum_cons, List.length_cons]
      omega
  have hpos : 0 < s.directories.length := List.length_pos_iff.mpr hne
  have := hstep s.directories
  omega

end Frontier

/-! ## 4. The loop -/

/-- **The loop terminates, with any timeouts**: more fuel than there are nodes below the frontier
is enough.  Without a timeout it returns; and what it returns is the total of the root. -/
theorem loop_spec (timesOut : Nat → Bool) (root : File) :
    ∀ (fuel : Nat) (s : Frontier), s.Inv root → (s.directories.map File.nodes).sum < fuel →
      ∃ r, loop timesOut fuel s = some r ∧
        (∀ v, r = .ok v → v = getTotalsizeOfFilesInDir root) ∧
        ((∀ k, timesOut k = false) → ∃ v, r = .ok v)
  | 0, _, _, hfuel => absurd hfuel (Nat.not_lt_zero _)
  | fuel + 1, s, hi, hfuel => by
    unfold loop
    cases hds : s.directories with
    | nil =>
      have htotal : s.total = getTotalsizeOfFilesInDir root := by simpa [hds] using hi.total
      refine ⟨_, rfl, ?_, fun _ => ⟨_, rfl⟩⟩
      intro v hv
      cases hv
      exact htotal
    | cons d ds =>
      simp only [List.isEmpty_cons, Bool.false_eq_true, if_false]
      cases hr : round timesOut s with
      | error e =>
        refine ⟨_, rfl, fun v hv => (by cases hv), ?_⟩
        intro hno
        obtain ⟨t, ht⟩ := Frontier.foldlM_collect_of_no_timeout hno s.directories
          { s with directories := [] }
        rw [round, ht] at hr
        cases hr
      | ok t =>
        have hlt := Frontier.nodes_round (by rw [hds]; exact List.cons_ne_nil _ _) hr
        exact loop_spec timesOut root fuel t (Frontier.total_round hi hr) (by omega)

/-- **The three traversals agree.**  From a directory the level-by-level loop terminates, whatever
times out; if it returns, it returns the sequential total, and it does return when no get times
out.  The fork-join recursion returns the sequential total of every root. -/
theorem traversals_agree :
    (∀ root : File, root.isDirectory = true → ∀ (timesOut : Nat → Bool) (fuel : Nat),
      root.nodes < fuel →
        ∃ r, getTotalSizeOfFilesInDir timesOut fuel root = some r ∧
          (∀ v, r = .ok v → v = getTotalsizeOfFilesInDir root) ∧
          ((∀ k, timesOut k = false) → r = .ok (getTotalsizeOfFilesInDir root))) ∧
    (∀ root : File,
      TotalFileSizeConcurrentForkjoin.compute root = getTotalsizeOfFilesInDir root) := by
  refine ⟨?_, TotalFileSizeConcurrentForkjoin.compute_eq_total⟩
  intro root hdir timesOut fuel hfuel
  have hfile : root.isFile = false := by
    rcases root with _ | _ | _ <;> first | rfl | exact absurd hdir (by simp [File.isDirectory])
  have hinv : Frontier.Inv root ⟨0, [root], 0⟩ := by
    refine ⟨by simpa using hfile, by simp⟩
  obtain ⟨r, hr, hval, hret⟩ :=
    loop_spec timesOut root fuel ⟨0, [root], 0⟩ hinv (by simpa using hfuel)
  refine ⟨r, hr, hval, ?_⟩
  intro hno
  obtain ⟨v, hv⟩ := hret hno
  rw [hv, hval v hv]

/-- At a directory with a file, a directory that cannot be listed, an entry that is neither, and
a nested directory. -/
theorem traversals_agree_nested :
    getTotalSizeOfFilesInDir (fun _ => false) 7
        (.directory (some [.regular 3, .directory none, .other,
          .directory (some [.regular 4])]))
      = some (.ok 7) := by
  obtain ⟨r, hr, -, hret⟩ := traversals_agree.1
    (.directory (some [.regular 3, .directory none, .other, .directory (some [.regular 4])]))
    rfl (fun _ => false) 7 (by decide)
  rw [hr, hret fun _ => rfl]
  rfl

end TotalFileSizeConcurrent
end JavaStudy
