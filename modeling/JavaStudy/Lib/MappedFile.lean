/-
# A file that is mapped into memory, shared and privately

Three parties look at one file: who writes through a channel, who has mapped it for reading and
writing, and who has mapped it privately, copy on write.  What a mapping shows of changes to the
file is up to the operating system: `System` is what one does, `PageOriented` what is assumed of it.
The shared mapping shows the file.  A private put copies the page that it hits, unless that was done
before; from then on what others write there is not seen.  All other pages show the file.

* `run_spec`: the file has what was written and put, the private puts left out.  Read privately, a
  byte of a page that no private put has hit is the one of the file; otherwise it is the last that
  was put there, or else what the file had there when the page was first hit.
* `pageOriented_copyOnWrite`: a system that keeps copies of pages is like that.
-/
import JavaStudy.Lib.Machine
import JavaStudy.Lib.SparseFile

namespace JavaStudy
namespace MappedFile

open SparseFile

/-! ## 1. The operations -/

inductive Op where
  /-- A write to the file through a channel. -/
  | write (w : Write)
  /-- A put into the mapping for reading and writing. -/
  | put (w : Write)
  /-- A put into the private mapping. -/
  | putPrivate (w : Write)
  deriving DecidableEq

/-- A mapping: how large the pages are, and how many bytes are mapped.  A write behind the end of
the file leaves a gap. -/
structure Mapping where
  gap : Nat → Byte
  pageSize : Nat
  pageSize_pos : 0 < pageSize
  size : Nat

/-- What an operation writes to the file. -/
def Op.shared : Op → Option Write
  | .write w | .put w => some w
  | .putPrivate _ => none

/-- What it puts privately. -/
def Op.own : Op → Option Write
  | .putPrivate w => some w
  | _ => none

/-- A put stays inside a mapping of that size. -/
def Fits (size : Nat) : Op → Prop
  | .write _ => True
  | .put w | .putPrivate w => w.stop ≤ size

instance decidableFits (size : Nat) : (op : Op) → Decidable (Fits size op)
  | .write _ => .isTrue trivial
  | .put w => inferInstanceAs (Decidable (w.stop ≤ size))
  | .putPrivate w => inferInstanceAs (Decidable (w.stop ≤ size))

theorem Fits.mono {size size' : Nat} {op : Op} (h : Fits size op) (hle : size ≤ size') :
    Fits size' op := by
  cases op with
  | write w => trivial
  | put w => exact Nat.le_trans h hle
  | putPrivate w => exact Nat.le_trans h hle

/-- An operating system with a file that is mapped. -/
structure System (σ : Type) where
  /-- The file is mapped, shared and privately. -/
  map : List Byte → σ
  apply : σ → Op → σ
  file : σ → List Byte
  /-- The byte at an index, read through the shared mapping. -/
  shared : σ → Nat → Option Byte
  /-- The same through the private mapping. -/
  view : σ → Nat → Option Byte
  /-- The pages that were copied for the private mapping. -/
  copied : σ → Nat → Prop

variable {σ : Type}

/-- A put that does not fit into the mapping throws. -/
def machine (m : Mapping) (sys : System σ) (file : List Byte) : Machine σ Op where
  init := sys.map file
  step s op := if Fits m.size op then some (sys.apply s op) else none

theorem machine_step_eq_some {m : Mapping} {sys : System σ} {file : List Byte} {s t : σ} {op : Op} :
    (machine m sys file).step s op = some t ↔ Fits m.size op ∧ sys.apply s op = t := by
  simp [machine]

variable (m : Mapping)

/-- The operation is a private put that hits the page of `i`. -/
def Touches (i : Nat) (op : Op) : Prop :=
  ∃ w, op.own = some w ∧ ∃ j, w.position ≤ j ∧ j < w.stop ∧ j / m.pageSize = i / m.pageSize

/-- What an operation does, seen from the file and from the private mapping. -/
structure Does (sys : System σ) (s t : σ) (op : Op) : Prop where
  /-- A private put leaves the file as it is. -/
  file : sys.file t = writes m.gap (sys.file s) op.shared.toList
  /-- A private put copies what it hits. -/
  copies : ∀ i < m.size, sys.copied t (i / m.pageSize) ↔
    sys.copied s (i / m.pageSize) ∨ Touches m i op
  /-- A page that is copied is changed by private puts only. -/
  copied : ∀ i < m.size, sys.copied t (i / m.pageSize) → sys.view t i =
    (lastByte i op.own.toList).or (sys.view s i)

/-- What is assumed of the operating system, from when it has mapped that file on. -/
structure PageOriented (sys : System σ) (file : List Byte) : Prop where
  /-- To map a file changes and copies nothing. -/
  file_map : sys.file (sys.map file) = file
  not_copied_map : ∀ p, ¬ sys.copied (sys.map file) p
  /-- The shared mapping shows the file as it is. -/
  coherent : ∀ s, (machine m sys file).Reachable s → ∀ i < m.size,
    sys.shared s i = (sys.file s)[i]?
  /-- So does the private one, on a page that was not copied. -/
  follows : ∀ s, (machine m sys file).Reachable s → ∀ i < m.size,
    ¬ sys.copied s (i / m.pageSize) → sys.view s i = (sys.file s)[i]?
  does : ∀ s op t, (machine m sys file).Reachable s → (machine m sys file).step s op = some t →
    Does m sys s t op

variable {m}

/-! ## 2. Whole runs -/

theorem exists_run {sys : System σ} {file : List Byte} {ops : List Op}
    (h : ∀ op ∈ ops, Fits m.size op) (s : σ) : ∃ t, (machine m sys file).run s ops = some t := by
  induction ops generalizing s with
  | nil => exact ⟨s, rfl⟩
  | cons op ops ih =>
    obtain ⟨t, ht⟩ := ih (fun op' hop' => h op' (List.mem_cons_of_mem _ hop')) (sys.apply s op)
    refine ⟨t, Option.bind_eq_some_iff.mpr ⟨sys.apply s op, ?_, ht⟩⟩
    exact machine_step_eq_some.mpr ⟨h op List.mem_cons_self, rfl⟩

theorem filterMap_concat {β : Type} (f : Op → Option β) (ops : List Op) (op : Op) :
    (ops ++ [op]).filterMap f = ops.filterMap f ++ (f op).toList := by
  rw [List.filterMap_append]
  cases h : f op <;> simp [h]

section Runs

variable {sys : System σ} {file : List Byte} (hp : PageOriented m sys file)
include hp

/-- The file has what was written and put, the private puts left out. -/
theorem file_run {t : σ} {ops : List Op}
    (h : (machine m sys file).run (machine m sys file).init ops = some t) :
    sys.file t = writes m.gap file (ops.filterMap Op.shared) := by
  induction ops using List.reverseRecOn generalizing t with
  | nil =>
    cases h
    exact hp.file_map
  | append_singleton ops op ih =>
    obtain ⟨u, hu, hlast⟩ := Machine.run_concat_eq_some h
    rw [(hp.does u op t ⟨ops, hu⟩ hlast).file, ih hu, filterMap_concat, writes, writes, writes,
      List.foldl_append]

/-- A page that is copied shows what is put there, the put included that it is copied for. -/
theorem view_run_of_copied {s t : σ} {op : Op} {ops : List Op}
    (hs : (machine m sys file).Reachable s) {i : Nat} (hlt : i < m.size)
    (hcopied : sys.copied s (i / m.pageSize) ∨ Touches m i op)
    (h : (machine m sys file).run s (op :: ops) = some t) :
    sys.view t i = (lastByte i ((op :: ops).filterMap Op.own)).or (sys.view s i) := by
  induction ops generalizing s op with
  | nil =>
    obtain ⟨u, hu, hrest⟩ := Option.bind_eq_some_iff.mp h
    cases hrest
    have hdoes := hp.does s op t hs hu
    rw [hdoes.copied i hlt ((hdoes.copies i hlt).mpr hcopied), List.filterMap_cons]
    cases op.own <;> rfl
  | cons op' ops ih =>
    obtain ⟨u, hu, hrest⟩ := Option.bind_eq_some_iff.mp h
    have hdoes := hp.does s op u hs hu
    have hnow := (hdoes.copies i hlt).mpr hcopied
    rw [ih (hs.step hu) (.inl hnow) hrest, hdoes.copied i hlt hnow, ← Option.or_assoc,
      ← lastByte_append, List.filterMap_cons (a := op)]
    cases op.own <;> rfl

/-- A page is copied exactly if a private put has hit it. -/
theorem copies_run {t : σ} {ops : List Op} {i : Nat} (hlt : i < m.size)
    (h : (machine m sys file).run (machine m sys file).init ops = some t) :
    sys.copied t (i / m.pageSize) ↔ ∃ op ∈ ops, Touches m i op := by
  induction ops using List.reverseRecOn generalizing t with
  | nil =>
    cases h
    refine iff_of_false (hp.not_copied_map _) ?_
    rintro ⟨op, hop, -⟩
    cases hop
  | append_singleton ops op ih =>
    obtain ⟨u, hu, hlast⟩ := Machine.run_concat_eq_some h
    rw [(hp.does u op t ⟨ops, hu⟩ hlast).copies i hlt, ih hu]
    simp only [List.mem_append, List.mem_singleton, or_and_right, exists_or, exists_eq_left]

theorem view_of_untouched {t : σ} {ops : List Op} {i : Nat} (hlt : i < m.size)
    (h : (machine m sys file).run (machine m sys file).init ops = some t)
    (hno : ∀ op ∈ ops, ¬ Touches m i op) : sys.view t i = (sys.file t)[i]? := by
  refine hp.follows t ⟨ops, h⟩ i hlt ?_
  rw [copies_run hp hlt h]
  rintro ⟨op, hop, htouch⟩
  exact hno op hop htouch

end Runs

/-- What the parties see after some operations on a file. -/
structure Seen (m : Mapping) (sys : System σ) (file : List Byte) (ops : List Op) (s : σ) :
    Prop where
  /-- The file, read through a channel. -/
  channel : sys.file s = writes m.gap file (ops.filterMap Op.shared)
  /-- The shared mapping. -/
  shared : ∀ i < m.size, sys.shared s i = (sys.file s)[i]?
  /-- The private mapping, in a page that no private put has hit. -/
  untouched : ∀ i < m.size, (∀ op ∈ ops, ¬ Touches m i op) → sys.view s i = (sys.file s)[i]?
  /-- The private mapping, in a page that was hit: what was put since, on what the file had then. -/
  touched : ∀ i < m.size, ∀ before op after, ops = before ++ op :: after →
    (∀ op ∈ before, ¬ Touches m i op) → Touches m i op →
    sys.view s i = (lastByte i ((op :: after).filterMap Op.own)).or
      (writes m.gap file (before.filterMap Op.shared))[i]?

/-- **What each party sees**, after any operations that all fit. -/
theorem run_spec {sys : System σ} {file : List Byte} (hp : PageOriented m sys file)
    {ops : List Op} {s : σ}
    (h : (machine m sys file).run (machine m sys file).init ops = some s) :
    Seen m sys file ops s := by
  refine ⟨file_run hp h, hp.coherent s ⟨ops, h⟩,
    fun i hlt hno => view_of_untouched hp hlt h hno, ?_⟩
  rintro i hlt before op after rfl hno htouch
  rw [Machine.run_append] at h
  obtain ⟨t, ht, hrest⟩ := Option.bind_eq_some_iff.mp h
  rw [view_run_of_copied hp ⟨before, ht⟩ hlt (.inr htouch) hrest, view_of_untouched hp hlt ht hno,
    file_run hp ht]

/-! ## 3. Copies of pages -/

structure State where
  file : List Byte
  /-- The private copies of pages. -/
  copies : Nat → Option (List Byte)

variable (m)

def page (file : List Byte) (p : Nat) : List Byte := (file.drop (p * m.pageSize)).take m.pageSize

/-- A private put of one byte. -/
def putByte (s : State) (i : Nat) (b : Byte) : State :=
  let p := i / m.pageSize
  let copy := (s.copies p).getD (page m s.file p)
  { s with copies := Function.update s.copies p (some (copy.set (i % m.pageSize) b)) }

def putBytes (s : State) : Nat → List Byte → State
  | _, [] => s
  | i, b :: bytes => putBytes (putByte m s i b) (i + 1) bytes

/-- The byte at `i`, read through the private mapping. -/
def view (s : State) (i : Nat) : Option Byte :=
  match s.copies (i / m.pageSize) with
  | none => s.file[i]?
  | some copy => copy[i % m.pageSize]?

/-- The system that keeps a copy of each page that a private put has hit. -/
def copyOnWrite : System State where
  map file := ⟨file, fun _ => none⟩
  apply s op :=
    match op with
    | .write w | .put w => { s with file := SparseFile.write m.gap s.file w }
    | .putPrivate w => putBytes m s w.position w.bytes
  file s := s.file
  shared s i := s.file[i]?
  view := view m
  copied s p := s.copies p ≠ none

variable {m}

/-- What is mapped is in the file, and in the copy of its page, if there is one. -/
structure Inv (m : Mapping) (s : State) : Prop where
  mapped : m.size ≤ s.file.length
  copied : ∀ i copy, i < m.size → s.copies (i / m.pageSize) = some copy →
    i % m.pageSize < copy.length

theorem getElem?_page (file : List Byte) (i : Nat) :
    (page m file (i / m.pageSize))[i % m.pageSize]? = file[i]? := by
  rw [page, List.getElem?_take_of_lt (Nat.mod_lt _ m.pageSize_pos), List.getElem?_drop,
    Nat.mul_comm, Nat.div_add_mod]

/-- What a copy of the page has, if it is made now. -/
theorem getElem?_copy (s : State) (i : Nat) :
    ((s.copies (i / m.pageSize)).getD (page m s.file (i / m.pageSize)))[i % m.pageSize]? =
      view m s i := by
  rw [view]
  cases s.copies (i / m.pageSize) with
  | none => exact getElem?_page s.file i
  | some copy => rfl

theorem Inv.lt_copy {s : State} (hi : Inv m s) {i : Nat} (h : i < m.size) :
    i % m.pageSize <
      ((s.copies (i / m.pageSize)).getD (page m s.file (i / m.pageSize))).length := by
  cases hcopy : s.copies (i / m.pageSize) with
  | some copy => exact hi.copied i copy h hcopy
  | none =>
    have hsome := getElem?_page (m := m) s.file i
    rw [List.getElem?_eq_getElem (Nat.lt_of_lt_of_le h hi.mapped)] at hsome
    exact (List.getElem?_eq_some_iff.mp hsome).1

theorem copies_putByte (s : State) (i : Nat) (b : Byte) (p : Nat) :
    (putByte m s i b).copies p = if p = i / m.pageSize then
      some (((s.copies (i / m.pageSize)).getD (page m s.file (i / m.pageSize))).set
        (i % m.pageSize) b) else s.copies p := Function.update_apply ..

/-- **A private put of one byte is seen at its place only.** -/
theorem view_putByte {s : State} (hi : Inv m s) {i : Nat} (h : i < m.size) (b : Byte) (j : Nat) :
    view m (putByte m s i b) j = if j = i then some b else view m s j := by
  by_cases hpage : j / m.pageSize = i / m.pageSize
  · have hview : view m (putByte m s i b) j =
        (((s.copies (i / m.pageSize)).getD (page m s.file (i / m.pageSize))).set
          (i % m.pageSize) b)[j % m.pageSize]? := by
      rw [view, hpage, copies_putByte, if_pos rfl]
    rw [hview, List.getElem?_set]
    by_cases hji : j = i
    · subst hji
      rw [if_pos rfl, if_pos rfl, if_pos (hi.lt_copy h)]
    · have hmod : i % m.pageSize ≠ j % m.pageSize := by
        intro hmod
        have hdiv := Nat.div_add_mod j m.pageSize
        rw [hpage, ← hmod, Nat.div_add_mod] at hdiv
        exact hji hdiv.symm
      rw [if_neg hmod, if_neg hji, ← hpage, getElem?_copy]
  · have hji : j ≠ i := fun heq => hpage (by rw [heq])
    rw [if_neg hji, view, view, copies_putByte, if_neg hpage]
    rfl

theorem Inv.putByte {s : State} (hi : Inv m s) (i : Nat) (b : Byte) :
    Inv m (putByte m s i b) where
  mapped := hi.mapped
  copied j copy hj hcopy := by
    by_cases hpage : j / m.pageSize = i / m.pageSize
    · rw [hpage, copies_putByte, if_pos rfl, Option.some.injEq] at hcopy
      rw [← hcopy, List.length_set, ← hpage]
      exact hi.lt_copy hj
    · rw [copies_putByte, if_neg hpage] at hcopy
      exact hi.copied j copy hj hcopy

theorem byte_cons (i : Nat) (b : Byte) (bytes : List Byte) (j : Nat) :
    Write.byte ⟨i, b :: bytes⟩ j = if j = i then some b else Write.byte ⟨i + 1, bytes⟩ j := by
  simp only [Write.byte]
  by_cases hji : j = i
  · subst hji
    simp
  · rw [if_neg hji]
    by_cases hle : i ≤ j
    · rw [if_pos hle, if_pos (by omega), show j - i = (j - (i + 1)) + 1 by omega,
        List.getElem?_cons_succ]
    · rw [if_neg hle, if_neg (by omega)]

/-- What a private put does: the file stays, the put is seen where it covers, and the pages that it
hits are copied. -/
structure PutPrivate (m : Mapping) (s t : State) (w : Write) : Prop where
  inv : Inv m t
  file : t.file = s.file
  view : ∀ j, view m t j = (w.byte j).or (view m s j)
  copies : ∀ p, t.copies p ≠ none ↔
    s.copies p ≠ none ∨ ∃ j, w.position ≤ j ∧ j < w.stop ∧ j / m.pageSize = p

theorem putBytes_spec {s : State} (hi : Inv m s) {w : Write} (h : w.stop ≤ m.size) :
    PutPrivate m s (putBytes m s w.position w.bytes) w := by
  obtain ⟨i, bytes⟩ := w
  induction bytes generalizing s i with
  | nil =>
    refine ⟨hi, rfl, fun j => by simp [Write.byte, putBytes], fun p => ?_⟩
    simp only [putBytes, Write.stop, List.length_nil, Nat.add_zero]
    refine ⟨.inl, ?_⟩
    rintro (hcopied | ⟨j, hle, hlt, -⟩)
    · exact hcopied
    · omega
  | cons b bytes ih =>
    simp only [Write.stop, List.length_cons] at h
    have hput := hi.putByte i b
    have hrest := ih hput (i + 1) (by simp only [Write.stop]; omega)
    refine ⟨hrest.inv, hrest.file, fun j => ?_, fun p => ?_⟩
    · rw [putBytes, hrest.view j, view_putByte hi (by omega), byte_cons]
      by_cases hji : j = i
      · subst hji
        have hnone : Write.byte ⟨j + 1, bytes⟩ j = none := byte_eq_none_iff.mpr (.inl (by simp))
        simp [hnone]
      · simp [hji]
    · rw [putBytes, hrest.copies p, copies_putByte]
      simp only [Write.stop, List.length_cons]
      constructor
      · rintro (hcopied | ⟨j, hle, hlt, hp⟩)
        · split at hcopied
          · rename_i hp
            exact .inr ⟨i, le_rfl, by omega, hp.symm⟩
          · exact .inl hcopied
        · exact .inr ⟨j, by omega, by omega, hp⟩
      · rintro (hcopied | ⟨j, hle, hlt, hp⟩)
        · left
          split
          · simp
          · exact hcopied
        · by_cases hji : j = i
          · left
            rw [if_pos (by rw [← hp, hji])]
            simp
          · exact .inr ⟨j, by omega, by omega, hp⟩

/-- The file changes under the private mapping. -/
theorem Inv.does_shared {s : State} (hi : Inv m s) {w : Write} {op : Op} (hop : op.own = none)
    (hshared : op.shared = some w) :
    Inv m { s with file := SparseFile.write m.gap s.file w } ∧
      Does m (copyOnWrite m) s { s with file := SparseFile.write m.gap s.file w } op := by
  refine ⟨⟨Nat.le_trans hi.mapped (length_le_write _ _), hi.copied⟩, ?_, ?_, ?_⟩
  · rw [hshared]
    rfl
  · intro i _
    refine ⟨.inl, ?_⟩
    rintro (hcopied | ⟨w', hw', -⟩)
    · exact hcopied
    · rw [hop] at hw'
      cases hw'
  · intro i _ hcopied
    obtain ⟨copy, hcopy⟩ := Option.ne_none_iff_exists'.mp hcopied
    change view m _ i = (lastByte i op.own.toList).or (view m s i)
    rw [hop, view, view, hcopy]
    rfl

theorem Inv.step {file : List Byte} {s t : State} {op : Op} (hi : Inv m s)
    (h : (machine m (copyOnWrite m) file).step s op = some t) :
    Inv m t ∧ Does m (copyOnWrite m) s t op := by
  obtain ⟨hfits, rfl⟩ := machine_step_eq_some.mp h
  cases op with
  | write w => exact hi.does_shared rfl rfl
  | put w => exact hi.does_shared rfl rfl
  | putPrivate w =>
    have hput := putBytes_spec hi hfits
    refine ⟨hput.inv, hput.file, fun i _ => ?_, fun i _ _ => ?_⟩
    · refine (hput.copies (i / m.pageSize)).trans ?_
      simp [Touches, Op.own, copyOnWrite]
    · refine (hput.view i).trans ?_
      simp [Op.own, lastByte, copyOnWrite]

theorem reachable_inv {file : List Byte} (hsize : m.size ≤ file.length) {s : State}
    (h : (machine m (copyOnWrite m) file).Reachable s) : Inv m s :=
  h.induct ⟨hsize, fun _ _ _ hcopy => by cases hcopy⟩ fun _ _ _ _ hi hst => (hi.step hst).1

/-- **A system that keeps copies of pages is page oriented.** -/
theorem pageOriented_copyOnWrite {file : List Byte} (hsize : m.size ≤ file.length) :
    PageOriented m (copyOnWrite m) file where
  file_map := rfl
  not_copied_map _ h := h rfl
  coherent _ _ _ _ := rfl
  follows s _ i _ hnot := by
    change view m s i = s.file[i]?
    rw [view, not_not.mp hnot]
  does _ _ _ hr hst := ((reachable_inv hsize hr).step hst).2

end MappedFile
end JavaStudy
