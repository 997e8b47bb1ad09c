/-
# File trees, and `TotalFileSizeSequential`

The six `TotalFileSize*` programs add up the lengths of the regular files below a root, each with
another threading scheme.  This module has what they share: the tree they walk, as far as
`java.io.File` shows it to them, and the single-threaded program
(`TotalFileSizeSequential.getTotalsizeOfFilesInDir`), which is what the others are compared with.

A node is a regular file with a length, a directory, whose `listFiles()` is an array or `null`
(an I/O error, a directory that may not be read), or neither (a device, a name that is gone).  The
tree is finite and does not change while a program runs.

Sums are Java `long`s, so they wrap at 64 bits.
-/
import Mathlib.Data.BitVec
import JavaStudy.Lib.FixedPool

namespace JavaStudy

/-- Java's `long`. -/
abbrev Long := BitVec 64

/-! ## 1. The tree -/

/-- A node of the file system and everything below it. -/
inductive File where
  | regular (length : Long)
  | directory (children : Option (List File))
  | other

namespace File

def isFile : File → Bool
  | regular _ => true
  | _ => false

def isDirectory : File → Bool
  | directory _ => true
  | _ => false

/-- Only asked of regular files. -/
def length : File → Long
  | regular length => length
  | _ => 0

/-- `none` is Java's `null`: not a directory, or one that cannot be listed. -/
def listFiles : File → Option (List File)
  | directory children => children
  | _ => none

mutual

/-- How many nodes the tree has. -/
def nodes : File → Nat
  | regular _ => 1
  | directory none => 1
  | directory (some children) => 1 + nodesOf children
  | other => 1

def nodesOf : List File → Nat
  | [] => 0
  | child :: rest => nodes child + nodesOf rest

end

theorem nodesOf_eq (cs : List File) : nodesOf cs = (cs.map nodes).sum := by
  induction cs with
  | nil => rfl
  | cons c cs ih => simp [nodesOf, ih]

theorem nodes_pos (f : File) : 0 < f.nodes := by
  rcases f with _ | (_ | _) | _ <;> simp [nodes]

/-- A node that lists its children counts one more than they do together. -/
theorem nodes_of_listFiles {f : File} {cs : List File} (h : f.listFiles = some cs) :
    f.nodes = 1 + (cs.map nodes).sum := by
  rcases f with _ | (_ | children) | _ <;> simp only [listFiles, reduceCtorEq] at h
  rw [Option.some.injEq] at h
  subst h
  rw [nodes, nodesOf_eq]

theorem isFile_eq_false_of_listFiles {f : File} {cs : List File} (h : f.listFiles = some cs) :
    f.isFile = false := by
  rcases f with _ | _ | _ <;> first | rfl | exact absurd h (by simp [listFiles])

/-- Only a directory lists children, so a test of `isDirectory` before `listFiles` changes
nothing. -/
theorem listFiles_of_not_isDirectory {f : File} (h : f.isDirectory = false) :
    f.listFiles = none := by
  rcases f with _ | _ | _ <;> first | rfl | exact absurd h (by simp [isDirectory])

/-! Directories that have an entry, which are the ones whose tasks wait. -/

/-- The node is a directory that lists at least one entry. -/
def hasEntry (f : File) : Bool :=
  match f.listFiles with
  | some (_ :: _) => true
  | _ => false

mutual

/-- How many directories with at least one entry the tree has. -/
def dirs : File → Nat
  | regular _ => 0
  | directory none => 0
  | directory (some children) => (if children.isEmpty then 0 else 1) + dirsOf children
  | other => 0

def dirsOf : List File → Nat
  | [] => 0
  | child :: rest => dirs child + dirsOf rest

end

/-- How many there are other than the root. -/
def dirsBelow (f : File) : Nat :=
  match f.listFiles with
  | some children => (children.map dirs).sum
  | none => 0

theorem dirsOf_eq (cs : List File) : dirsOf cs = (cs.map dirs).sum := by
  induction cs with
  | nil => rfl
  | cons c cs ih => simp [dirsOf, ih]

theorem dirs_eq (f : File) : f.dirs = (if f.hasEntry then 1 else 0) + f.dirsBelow := by
  rcases f with _ | (_ | (_ | ⟨c, cs⟩)) | _ <;>
    simp [dirs, hasEntry, dirsBelow, listFiles, dirsOf_eq]

end File

/-! ## 2. The sequential program -/

namespace TotalFileSizeSequential

mutual

/-- `TotalFileSizeSequential.getTotalsizeOfFilesInDir`. -/
def getTotalsizeOfFilesInDir : File → Long
  | .regular length => length
  | .directory none => 0
  | .directory (some children) => addChildren 0 children
  | .other => 0

/-- The `for` loop over the children. -/
def addChildren (total : Long) : List File → Long
  | [] => total
  | child :: rest => addChildren (total + getTotalsizeOfFilesInDir child) rest

end

/-- The accumulator of the loop is the sum. -/
theorem addChildren_eq (total : Long) (cs : List File) :
    addChildren total cs = total + (cs.map getTotalsizeOfFilesInDir).sum := by
  induction cs generalizing total with
  | nil => simp [addChildren]
  | cons c cs ih => rw [addChildren, ih, List.map_cons, List.sum_cons, add_assoc]

/-! The three cases of the source, in its own tests. -/

theorem total_of_isFile {f : File} (h : f.isFile = true) :
    getTotalsizeOfFilesInDir f = f.length := by
  rcases f with _ | _ | _ <;> first | rfl | exact absurd h (by simp [File.isFile])

theorem total_of_null {f : File} (hf : f.isFile = false) (h : f.listFiles = none) :
    getTotalsizeOfFilesInDir f = 0 := by
  rcases f with _ | (_ | _) | _
  · exact absurd hf (by simp [File.isFile])
  · rfl
  · exact absurd h (by simp [File.listFiles])
  · rfl

theorem total_of_listFiles {f : File} {cs : List File} (h : f.listFiles = some cs) :
    getTotalsizeOfFilesInDir f = (cs.map getTotalsizeOfFilesInDir).sum := by
  rcases f with _ | (_ | children) | _ <;> simp only [File.listFiles, reduceCtorEq] at h
  rw [Option.some.injEq] at h
  subst h
  rw [getTotalsizeOfFilesInDir, addChildren_eq, zero_add]

end TotalFileSizeSequential

end JavaStudy
