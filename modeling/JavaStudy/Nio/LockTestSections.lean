/-
# The sections of `LockTest`

What a process does between `fc.lock` and `lock.release` is its section.

* `sections_isolated`: as long as a query holds its lock, the file stays as it is, and what is
  printed of a slot that the file reaches is from that file; as long as an update holds its lock, no
  query line is printed, and nobody else gets past its own `fc.lock`.
* `sections_end`: whoever waits for a lock gets it if those who hold one only finish their sections,
  which they can do by themselves: an update after ten numbers, a query after all its repetitions.

Both rest on what the locks say of the processes, the converse of `Holds`: who holds a lock is in
its section (`Owners`).
-/
import JavaStudy.Lib.Progress
import JavaStudy.Nio.LockTest

namespace JavaStudy
namespace LockTest

open BigEndian

/-- The process that takes the step. -/
def Act.process : Act → Nat
  | .lock p _ => p
  | .put p => p
  | .write p => p
  | .read p _ => p
  | .print p => p
  | .release p => p

/-! ## 1. Who holds a lock -/

/-- Does the process stand in its section? -/
def Process.inSection (process : Process) : Bool :=
  match process.writer, process.pc with
  | _, .locked => true
  | false, .fetched _ => true
  | true, .written => true
  | _, _ => false

/-- Who holds a lock is in its section. -/
structure Owners (s : State) : Prop where
  nodup : s.shared.Nodup
  shared : ∀ p ∈ s.shared,
    (s.processes p).writer = false ∧ (s.processes p).inSection = true
  exclusive : ∀ p, s.exclusive = some p →
    (s.processes p).writer = true ∧ (s.processes p).inSection = true

theorem inSection_of_trying {process : Process} (h : process.pc = .trying) :
    process.inSection = false := by
  simp only [Process.inSection, h]

/-- A process goes on in its section. -/
theorem Owners.move {s : State} (ho : Owners s) {p : Nat} {process : Process}
    (hwriter : process.writer = (s.processes p).writer) (hsection : process.inSection = true)
    (file : List Byte) (stored : Option (List Byte)) (printed : List Line) :
    Owners { s.set p process with file, stored, printed } where
  nodup := ho.nodup
  shared := by
    refine forall_set (P := fun q process => q ∈ s.shared → process.writer = false ∧
      process.inSection = true) ?_ fun q _ => ho.shared q
    exact fun hp => ⟨hwriter.trans (ho.shared p hp).1, hsection⟩
  exclusive := by
    refine forall_set (P := fun q process => s.exclusive = some q → process.writer = true ∧
      process.inSection = true) ?_ fun q _ => ho.exclusive q
    exact fun hp => ⟨hwriter.trans (ho.exclusive p hp).1, hsection⟩

theorem owners_init (writer : Nat → Bool) (file : List Byte) :
    Owners (machine writer file).init where
  nodup := List.nodup_nil
  shared _ h := absurd h List.not_mem_nil
  exclusive _ h := absurd h (by simp [machine])

theorem step_owners {s t : State} {a : Act} (hi : Inv s) (ho : Owners s)
    (h : step s a = some t) : Owners t := by
  cases a with
  | lock p draw =>
    simp only [step, Option.ite_none_right_eq_some] at h
    obtain ⟨⟨hpc, hfree⟩, h⟩ := h
    have hnot : p ∉ s.shared := by
      intro hp
      exact absurd (ho.shared p hp).2 (by simp [inSection_of_trying hpc])
    split at h
    · rename_i hwriter
      rw [Option.ite_none_right_eq_some, Option.some.injEq] at h
      obtain ⟨hshared, rfl⟩ := h
      refine ⟨ho.nodup, fun q hq => absurd hq (by simp [hshared, State.set]), ?_⟩
      refine forall_set (P := fun q process => some p = some q → process.writer = true ∧
        process.inSection = true) (fun _ => ⟨hwriter, rfl⟩) ?_
      exact fun q hqp hq => absurd (Option.some.inj hq).symm hqp
    · rename_i hwriter
      rw [Option.ite_none_right_eq_some, Option.some.injEq] at h
      obtain ⟨-, rfl⟩ := h
      refine ⟨List.nodup_cons.mpr ⟨hnot, ho.nodup⟩, ?_, ?_⟩
      · refine forall_set (P := fun q process => q ∈ p :: s.shared → process.writer = false ∧
          process.inSection = true) (fun _ => ⟨by simpa using hwriter, rfl⟩) ?_
        exact fun q hqp hq => ho.shared q (List.mem_of_ne_of_mem hqp hq)
      · exact fun q hq => absurd (hfree.symm.trans hq) (by simp)
  | put p =>
    simp only [step, Option.ite_none_right_eq_some] at h
    obtain ⟨⟨-, hpc, -⟩, h⟩ := h
    obtain ⟨buffer, -, rfl⟩ := Option.map_eq_some_iff.mp h
    refine ho.move ?_ ?_ _ _ _
    · rfl
    · simp only [Process.inSection, hpc]
  | write p =>
    simp only [step, Option.ite_none_right_eq_some] at h
    obtain ⟨⟨hwriter, -, -⟩, h⟩ := h
    obtain ⟨r, -, rfl⟩ := Option.map_eq_some_iff.mp h
    refine ho.move ?_ ?_ _ _ _
    · rfl
    · simp only [Process.inSection, hwriter]
  | read p n =>
    simp only [step, Option.ite_none_right_eq_some, Option.some.injEq] at h
    obtain ⟨⟨hreader, -, -⟩, rfl⟩ := h
    refine ho.move ?_ ?_ _ _ _
    · rfl
    · simp only [Process.inSection, hreader]
  | print p =>
    simp only [step] at h
    split at h
    · cases h
      refine ho.move ?_ ?_ _ _ _
      · rfl
      · rfl
    · cases h
  | release p =>
    simp only [step] at h
    split at h
    · rename_i hreader _
      rw [Option.ite_none_left_eq_some, Option.some.injEq] at h
      obtain ⟨-, rfl⟩ := h
      refine ⟨ho.nodup.erase p, ?_, ?_⟩
      · refine forall_set (P := fun q process => q ∈ s.shared.erase p → process.writer = false ∧
          process.inSection = true) ?_ fun q _ hq => ho.shared q (List.mem_of_mem_erase hq)
        exact fun hp => absurd hp ho.nodup.not_mem_erase
      · refine forall_set (P := fun q process => s.exclusive = some q → process.writer = true ∧
          process.inSection = true) ?_ fun q _ => ho.exclusive q
        exact fun hp => absurd ((ho.exclusive p hp).1.symm.trans hreader) (by simp)
    · rename_i hwriter hpc
      cases h
      have hmine : s.exclusive = some p := (hi.holds p).writer hwriter (by simp [hpc])
      have hshared : s.shared = [] := hi.exclusion (by simp [hmine])
      refine ⟨ho.nodup, fun q hq => absurd hq (by simp [hshared, State.set]), ?_⟩
      exact fun q hq => absurd hq (by simp)
    · cases h

theorem reachable_owners {writer : Nat → Bool} {file : List Byte} {s : State}
    (h : (machine writer file).Reachable s) : Owners s :=
  h.induct (owners_init writer file) fun _ _ _ hr ho hst =>
    step_owners (reachable_inv hr) ho hst

/-! ## 2. What happens during a section -/

/-- What the query has read of one of the first five slots is in the file. -/
def Current (file : List Byte) (process : Process) : Prop :=
  ∀ n, process.pc = .fetched n → n < 5 → 8 * n + 4 ≤ file.length →
    intAt process.buffer.array n = intAt file (2 * n)

/-- The view is twice as far into the file as the slot. -/
theorem current_fetch {s : State} (hi : Inv s) (p : Nat) {n : Nat} (hn : n < INDEX_COUNT)
    (hfile : 8 * n + 4 ≤ s.file.length) :
    intAt (s.fetch p n).array n = intAt s.file (2 * n) := by
  have hlength : (s.fetch p n).array.length = 40 :=
    (ByteBuffer.capacity_receive _ _).trans (hi.filled p).capacity
  change n < 10 at hn
  refine (intAt_inj (by omega) (by omega)).mpr ?_
  intro j hj
  rw [getElem?_fetch hi p hn hj, State.left, if_pos (by omega)]
  congr 1
  omega

/-- Nobody is in a query while an update writes. -/
theorem step_current {s t : State} {a : Act} (hi : Inv s)
    (hc : ∀ p, Current s.file (s.processes p)) (h : step s a = some t) :
    ∀ p, Current t.file (t.processes p) := by
  have hmove : ∀ (p : Nat) (process : Process), (∀ n, process.pc ≠ .fetched n) →
      ∀ q, Current s.file ((s.set p process).processes q) := by
    intro p process hp
    exact forall_set (P := fun _ => Current s.file) (fun n hn => absurd hn (hp n)) fun q _ => hc q
  cases a with
  | lock p draw =>
    simp only [step, Option.ite_none_right_eq_some] at h
    obtain ⟨-, h⟩ := h
    split at h
    · rw [Option.ite_none_right_eq_some, Option.some.injEq] at h
      obtain ⟨-, rfl⟩ := h
      exact hmove p _ (by simp)
    · rw [Option.ite_none_right_eq_some, Option.some.injEq] at h
      obtain ⟨-, rfl⟩ := h
      exact hmove p _ (by simp)
  | put p =>
    simp only [step, Option.ite_none_right_eq_some] at h
    obtain ⟨⟨-, hpc, -⟩, h⟩ := h
    obtain ⟨buffer, -, rfl⟩ := Option.map_eq_some_iff.mp h
    exact hmove p _ (by simp [hpc])
  | write p =>
    simp only [step, Option.ite_none_right_eq_some] at h
    obtain ⟨⟨hwriter, hpc, -⟩, h⟩ := h
    obtain ⟨r, -, rfl⟩ := Option.map_eq_some_iff.mp h
    have hmine : s.exclusive = some p := (hi.holds p).writer hwriter (by simp [hpc])
    have hshared : s.shared = [] := hi.exclusion (by simp [hmine])
    refine forall_set (P := fun _ => Current _) (fun n hn => absurd hn (by simp)) ?_
    intro q _ n hq
    have hmem := (hi.holds q).reader ((hi.filled q).fetched n hq) (by simp [hq])
    exact absurd hmem (by simp [hshared])
  | read p n =>
    simp only [step, Option.ite_none_right_eq_some, Option.some.injEq] at h
    obtain ⟨⟨-, -, -, hn⟩, rfl⟩ := h
    refine forall_set (P := fun _ => Current s.file) ?_ fun q _ => hc q
    intro m hm _ hfile
    cases hm
    exact current_fetch hi p hn hfile
  | print p =>
    simp only [step] at h
    split at h
    · cases h
      exact hmove p _ (by simp)
    · cases h
  | release p =>
    simp only [step] at h
    split at h
    · rw [Option.ite_none_left_eq_some, Option.some.injEq] at h
      obtain ⟨-, rfl⟩ := h
      exact hmove p _ (by simp)
    · cases h
      exact hmove p _ (by simp)
    · cases h

theorem reachable_current {writer : Nat → Bool} {file : List Byte} {s : State}
    (h : (machine writer file).Reachable s) : ∀ p, Current s.file (s.processes p) := by
  refine h.induct (I := fun s => ∀ p, Current s.file (s.processes p)) ?_ ?_
  · exact fun p n hn => absurd hn (by simp [machine, Process.new])
  · exact fun _ _ _ hr hc hst => step_current (reachable_inv hr) hc hst

/-- The line is from that file. -/
def Line.From (line : Line) (file : List Byte) (stored : Option (List Byte)) : Prop :=
  line.stored = stored ∧
    (line.n < 5 → 8 * line.n + 4 ≤ file.length → line.value = intAt file (2 * line.n))

/-- **A step during the section of a query**, other than its release. -/
theorem step_shared {s t : State} {a : Act} (hi : Inv s)
    (hc : ∀ p, Current s.file (s.processes p)) {p : Nat} (hp : p ∈ s.shared) (ha : a ≠ .release p)
    (h : step s a = some t) : p ∈ t.shared ∧ t.file = s.file ∧ t.stored = s.stored ∧
      ∃ lines, t.printed = s.printed ++ lines ∧ ∀ line ∈ lines, line.From s.file s.stored := by
  have hnone : ∃ lines, s.printed = s.printed ++ lines ∧
      ∀ line ∈ lines, line.From s.file s.stored :=
    ⟨[], (List.append_nil _).symm, fun _ hline => absurd hline List.not_mem_nil⟩
  cases a with
  | lock q draw =>
    simp only [step, Option.ite_none_right_eq_some] at h
    obtain ⟨-, h⟩ := h
    split at h
    · rw [Option.ite_none_right_eq_some, Option.some.injEq] at h
      obtain ⟨hshared, -⟩ := h
      rw [hshared] at hp
      cases hp
    · rw [Option.ite_none_right_eq_some, Option.some.injEq] at h
      obtain ⟨-, rfl⟩ := h
      exact ⟨List.mem_cons_of_mem _ hp, rfl, rfl, hnone⟩
  | put q =>
    simp only [step, Option.ite_none_right_eq_some] at h
    obtain ⟨-, h⟩ := h
    obtain ⟨buffer, -, rfl⟩ := Option.map_eq_some_iff.mp h
    exact ⟨hp, rfl, rfl, hnone⟩
  | write q =>
    -- an update would need the exclusive lock
    simp only [step, Option.ite_none_right_eq_some] at h
    obtain ⟨⟨hwriter, hpc, -⟩, -⟩ := h
    have hmine : s.exclusive = some q := (hi.holds q).writer hwriter (by simp [hpc])
    rw [hi.exclusion (by simp [hmine])] at hp
    cases hp
  | read q n =>
    simp only [step, Option.ite_none_right_eq_some, Option.some.injEq] at h
    obtain ⟨-, rfl⟩ := h
    exact ⟨hp, rfl, rfl, hnone⟩
  | print q =>
    simp only [step] at h
    split at h
    · rename_i n hpc
      cases h
      refine ⟨hp, rfl, rfl, [_], rfl, ?_⟩
      intro line hline
      rw [List.mem_singleton.mp hline]
      exact ⟨rfl, hc q n hpc⟩
    · cases h
  | release q =>
    have hpq : p ≠ q := fun heq => ha (heq ▸ rfl)
    simp only [step] at h
    split at h
    · rw [Option.ite_none_left_eq_some, Option.some.injEq] at h
      obtain ⟨-, rfl⟩ := h
      exact ⟨(List.mem_erase_of_ne hpq).mpr hp, rfl, rfl, hnone⟩
    · cases h
      exact ⟨hp, rfl, rfl, hnone⟩
    · cases h

/-- Who can take a step during the section of an update. -/
theorem step_exclusive {s t : State} {a : Act} (hi : Inv s) {p : Nat}
    (hp : s.exclusive = some p) (ha : a ≠ .release p) (h : step s a = some t) :
    a.process = p ∧ t.exclusive = some p ∧ t.printed = s.printed := by
  have hshared : s.shared = [] := hi.exclusion (by simp [hp])
  have hwriting : ∀ q, (s.processes q).writer = true → (s.processes q).pc ≠ .trying → q = p :=
    fun q hwriter hpc => Option.some.inj (((hi.holds q).writer hwriter hpc).symm.trans hp)
  have hreading : ∀ q, (s.processes q).writer = false → (s.processes q).pc ≠ .trying → False := by
    intro q hreader hpc
    have hmem := (hi.holds q).reader hreader hpc
    rw [hshared] at hmem
    cases hmem
  cases a with
  | lock q draw =>
    simp only [step, Option.ite_none_right_eq_some] at h
    obtain ⟨⟨-, hfree⟩, -⟩ := h
    exact absurd (hp.symm.trans hfree) (by simp)
  | put q =>
    simp only [step, Option.ite_none_right_eq_some] at h
    obtain ⟨⟨hwriter, hpc, -⟩, h⟩ := h
    obtain ⟨buffer, -, rfl⟩ := Option.map_eq_some_iff.mp h
    exact ⟨hwriting q hwriter (by simp [hpc]), hp, rfl⟩
  | write q =>
    simp only [step, Option.ite_none_right_eq_some] at h
    obtain ⟨⟨hwriter, hpc, -⟩, h⟩ := h
    obtain ⟨r, -, rfl⟩ := Option.map_eq_some_iff.mp h
    exact ⟨hwriting q hwriter (by simp [hpc]), hp, rfl⟩
  | read q n =>
    simp only [step, Option.ite_none_right_eq_some] at h
    obtain ⟨⟨hreader, hpc, -⟩, -⟩ := h
    exact (hreading q hreader (by simp [hpc])).elim
  | print q =>
    simp only [step] at h
    split at h
    · rename_i n hpc
      exact (hreading q ((hi.filled q).fetched n hpc) (by simp [hpc])).elim
    · cases h
  | release q =>
    simp only [step] at h
    split at h
    · rename_i hreader hpc
      exact (hreading q hreader (by simp [hpc])).elim
    · rename_i hwriter hpc
      exact absurd (congrArg Act.release (hwriting q hwriter (by simp [hpc]))) ha
    · cases h

/-- **Sections are isolated.**  From when a query has its lock until it releases it, nothing changes
the file, and what any process prints of a slot `n`, one of the first five, is the int at byte
`8 * n` of it, if the file is that long.  From when an update has its lock until it releases it, no
query line is printed, and no other process takes a lock, reads or writes. -/
theorem sections_isolated {writer : Nat → Bool} {file : List Byte} {s t : State}
    (h : (machine writer file).Reachable s) {p : Nat} {as : List Act} (has : .release p ∉ as)
    (hr : (machine writer file).run s as = some t) :
    (p ∈ s.shared → t.file = s.file ∧ ∃ lines, t.printed = s.printed ++ lines ∧
      ∀ line ∈ lines, line.From s.file s.stored) ∧
    (s.exclusive = some p → t.printed = s.printed ∧ ∀ a ∈ as, a.process = p) := by
  induction as generalizing s with
  | nil =>
    cases hr
    exact ⟨fun _ => ⟨rfl, [], (List.append_nil _).symm, fun _ hline => absurd hline
      List.not_mem_nil⟩, fun _ => ⟨rfl, fun _ ha => absurd ha List.not_mem_nil⟩⟩
  | cons a as ih =>
    obtain ⟨u, hst, hrest⟩ := Option.bind_eq_some_iff.mp hr
    have hi := reachable_inv h
    have ha : a ≠ .release p := fun heq => has (heq ▸ List.mem_cons_self)
    obtain ⟨hquery, hupdate⟩ :=
      ih (h.step hst) (fun hmem => has (List.mem_cons_of_mem _ hmem)) hrest
    refine ⟨?_, ?_⟩
    · intro hp
      obtain ⟨hpu, hfile, hstored, lines, hlines, hfrom⟩ :=
        step_shared hi (reachable_current h) hp ha hst
      obtain ⟨hfile', more, hmore, hfrom'⟩ := hquery hpu
      rw [hfile, hstored] at hfrom'
      refine ⟨hfile'.trans hfile, lines ++ more, by rw [hmore, hlines, List.append_assoc], ?_⟩
      intro line hline
      rcases List.mem_append.mp hline with hline | hline
      · exact hfrom line hline
      · exact hfrom' line hline
    · intro hp
      obtain ⟨hprocess, hpu, hprinted⟩ := step_exclusive hi hp ha hst
      obtain ⟨hprinted', hothers⟩ := hupdate hpu
      refine ⟨hprinted'.trans hprinted, ?_⟩
      intro b hb
      rcases List.mem_cons.mp hb with rfl | hb
      · exact hprocess
      · exact hothers b hb

/-- A file with four numbers, on which process 0 runs updates. -/
def fourNumbers : List Byte := ints [7, 8, 9, 10]

/-- While process 1 is in its section, process 2 goes through all of its own: it has drawn 0, which
is 20 repetitions. -/
def twoSections : List Act :=
  (List.replicate 20 [.read 2 1, .print 2]).flatten ++ [.read 1 0, .print 1, .release 2]

theorem sections_isolated_two :
    ∃ s t, (machine (· == 0) fourNumbers).run (machine (· == 0) fourNumbers).init
        [.lock 2 0, .lock 1 5] = some s ∧
      (machine (· == 0) fourNumbers).run s twoSections = some t ∧ t.printed.length = 21 ∧
      t.file = fourNumbers ∧ ∀ line ∈ t.printed, line.From fourNumbers none := by
  obtain ⟨s, t, hs, ht, hlength, hp, hfile, hstored, hprinted⟩ : ∃ s t,
      (machine (· == 0) fourNumbers).run (machine (· == 0) fourNumbers).init
        [.lock 2 0, .lock 1 5] = some s ∧
      (machine (· == 0) fourNumbers).run s twoSections = some t ∧ t.printed.length = 21 ∧
      1 ∈ s.shared ∧ s.file = fourNumbers ∧ s.stored = none ∧ s.printed = [] :=
    ⟨_, _, rfl, rfl, rfl, by decide, rfl, rfl, rfl⟩
  have hkept : Act.release 1 ∉ twoSections := by decide
  obtain ⟨hsame, lines, hlines, hfrom⟩ := (sections_isolated ⟨_, hs⟩ hkept ht).1 hp
  refine ⟨s, t, hs, ht, hlength, hsame.trans hfile, ?_⟩
  rw [hlines, hprinted, List.nil_append, ← hfile, ← hstored]
  exact hfrom

/-! ## 3. The end of a section -/

/-- The steps to the end of a section. -/
def Process.left (process : Process) : Nat :=
  match process.writer, process.pc with
  | false, .locked => 2 * (process.reps - process.i) + 1
  | false, .fetched _ => 2 * (process.reps - (process.i + 1)) + 2
  | true, .locked => 12 - process.position
  | true, .written => 1
  | _, _ => 0

theorem left_of_trying {process : Process} (h : process.pc = .trying) : process.left = 0 := by
  cases hwriter : process.writer <;> simp only [Process.left, h, hwriter]

/-- Who holds a lock of any kind. -/
def State.owns (s : State) (p : Nat) : Prop := p ∈ s.shared ∨ s.exclusive = some p

/-- What a process does with its section: it comes nearer to the end, and it may end it. -/
structure Finishes (p : Nat) (s t : State) : Prop where
  others : ∀ q, q ≠ p → t.processes q = s.processes q
  nearer : (t.processes p).left < (s.processes p).left
  locks : (t.shared = s.shared ∧ t.exclusive = s.exclusive) ∨
    (t.shared = s.shared.erase p ∧ t.exclusive = none)

theorem Finishes.of_set {s : State} {p : Nat} {process : Process}
    (hless : process.left < (s.processes p).left) {file : List Byte} {exclusive : Option Nat}
    {shared : List Nat} {stored : Option (List Byte)} {printed : List Line}
    (hlocks : (shared = s.shared ∧ exclusive = s.exclusive) ∨
      (shared = s.shared.erase p ∧ exclusive = none)) :
    Finishes p s { s.set p process with file, exclusive, shared, stored, printed } where
  others q hq := by
    change (s.set p process).processes q = s.processes q
    rw [set_processes, if_neg hq]
  nearer := by
    change ((s.set p process).processes p).left < (s.processes p).left
    rw [set_processes, if_pos rfl]
    exact hless
  locks := hlocks

/-- **In its section a query can go on**: with the next slot, with the line, or with the release. -/
theorem exists_finish_query {s : State} (hi : Inv s) (ho : Owners s) {p : Nat} (hp : p ∈ s.shared) :
    ∃ a t, a.process = p ∧ step s a = some t ∧ Finishes p s t := by
  obtain ⟨hreader, hsection⟩ := ho.shared p hp
  have hfree : s.exclusive = none := by
    by_contra hne
    rw [hi.exclusion hne] at hp
    cases hp
  cases hpc : (s.processes p).pc with
  | trying => exact absurd hsection (by simp [inSection_of_trying hpc])
  | locked =>
    by_cases hmore : (s.processes p).i < (s.processes p).reps
    · have hguard : (s.processes p).writer = false ∧ (s.processes p).pc = .locked ∧
          (s.processes p).i < (s.processes p).reps ∧ 0 < INDEX_COUNT :=
        ⟨hreader, hpc, hmore, by decide⟩
      refine ⟨.read p 0, ?_⟩
      simp only [step, if_pos hguard]
      refine ⟨_, rfl, rfl, Finishes.of_set ?_ (Or.inl ⟨rfl, rfl⟩)⟩
      simp only [Process.left, hreader, hpc]
      omega
    · refine ⟨.release p, ?_⟩
      simp only [step, hreader, hpc, if_neg hmore]
      refine ⟨_, rfl, rfl, Finishes.of_set ?_ (Or.inr ⟨rfl, hfree⟩)⟩
      rw [left_of_trying rfl]
      simp only [Process.left, hreader, hpc]
      omega
  | fetched n =>
    refine ⟨.print p, ?_⟩
    simp only [step, hpc]
    refine ⟨_, rfl, rfl, Finishes.of_set ?_ (Or.inl ⟨rfl, rfl⟩)⟩
    simp only [Process.left, hreader, hpc]
    omega
  | written => simp [Process.inSection, hreader, hpc] at hsection

/-- **In its section an update can go on**: with the next number, with the write, or with the
release. -/
theorem exists_finish_update {s : State} (hi : Inv s) (ho : Owners s) {p : Nat}
    (hp : s.exclusive = some p) : ∃ a t, a.process = p ∧ step s a = some t ∧ Finishes p s t := by
  obtain ⟨hwriter, hsection⟩ := ho.exclusive p hp
  have hshared : s.shared = [] := hi.exclusion (by simp [hp])
  cases hpc : (s.processes p).pc with
  | trying => exact absurd hsection (by simp [inSection_of_trying hpc])
  | locked =>
    obtain ⟨-, -, hle, -⟩ := (hi.filled p).numbers hwriter hpc
    by_cases hposition : (s.processes p).position < INDEX_COUNT
    · have hroom : 4 * (s.processes p).position + 4 ≤ (s.processes p).buffer.capacity := by
        rw [(hi.filled p).capacity]
        change 4 * (s.processes p).position + 4 ≤ 40
        change (s.processes p).position < 10 at hposition
        omega
      obtain ⟨buffer, hput, -, -⟩ := exists_putInt hroom ((s.processes p).idxval + 1)
      have hguard : (s.processes p).writer = true ∧ (s.processes p).pc = .locked ∧
          (s.processes p).position < INDEX_COUNT := ⟨hwriter, hpc, hposition⟩
      refine ⟨.put p, ?_⟩
      simp only [step, if_pos hguard, hput, Option.map_some]
      refine ⟨_, rfl, rfl, Finishes.of_set ?_ (Or.inl ⟨rfl, rfl⟩)⟩
      change (s.processes p).position < 10 at hposition
      simp only [Process.left, hwriter, hpc]
      omega
    · have hfull : (s.processes p).position = INDEX_COUNT := by omega
      obtain ⟨r, htake, -⟩ := (s.processes p).buffer.clear.exists_take_remaining
      have hguard : (s.processes p).writer = true ∧ (s.processes p).pc = .locked ∧
          (s.processes p).position = INDEX_COUNT := ⟨hwriter, hpc, hfull⟩
      refine ⟨.write p, ?_⟩
      simp only [step, if_pos hguard, htake, Option.map_some]
      refine ⟨_, rfl, rfl, Finishes.of_set ?_ (Or.inl ⟨rfl, rfl⟩)⟩
      simp only [Process.left, hwriter, hpc, hfull]
      decide
  | fetched n => exact absurd ((hi.filled p).fetched n hpc) (by simp [hwriter])
  | written =>
    refine ⟨.release p, ?_⟩
    simp only [step, hwriter, hpc]
    have hsame : s.shared = s.shared.erase p := by rw [hshared, List.erase_nil]
    refine ⟨_, rfl, rfl, Finishes.of_set ?_ (Or.inr ⟨hsame, rfl⟩)⟩
    rw [left_of_trying rfl]
    simp only [Process.left, hwriter, hpc]
    decide

theorem exists_finish {s : State} (hi : Inv s) (ho : Owners s) {p : Nat} (hp : s.owns p) :
    ∃ a t, a.process = p ∧ step s a = some t ∧ Finishes p s t := by
  rcases hp with hp | hp
  · exact exists_finish_query hi ho hp
  · exact exists_finish_update hi ho hp

/-- The process `p` goes through its section, or has released its lock. -/
structure Finishing (s : State) (p : Nat) (u : State) : Prop where
  others : ∀ q, q ≠ p → u.processes q = s.processes q
  locks : (u.shared = s.shared ∧ u.exclusive = s.exclusive) ∨
    (u.shared = s.shared.erase p ∧ u.exclusive = none)

/-- **A section can be finished**, by the steps of its process alone. -/
theorem section_ends {writer : Nat → Bool} {file : List Byte} {s : State}
    (h : (machine writer file).Reachable s) {p : Nat} (hp : s.owns p) :
    ∃ as t, (machine writer file).run s as = some t ∧ (∀ a ∈ as, a.process = p) ∧
      (∀ q, q ≠ p → t.processes q = s.processes q) ∧ t.shared = s.shared.erase p ∧
      t.exclusive = none := by
  have hstart : (machine writer file).Reachable s ∧ Finishing s p s :=
    ⟨h, fun _ _ => rfl, Or.inl ⟨rfl, rfl⟩⟩
  have hnext : ∀ u, (machine writer file).Reachable u ∧ Finishing s p u →
      ¬(u.shared = s.shared.erase p ∧ u.exclusive = none) →
      ∃ a v, a.process = p ∧ (machine writer file).step u a = some v ∧
        ((machine writer file).Reachable v ∧ Finishing s p v) ∧
        (v.processes p).left < (u.processes p).left := by
    rintro u ⟨hr, hu⟩ hnot
    obtain ⟨hshared, hexclusive⟩ := hu.locks.resolve_right hnot
    have hpu : u.owns p := by
      unfold State.owns at hp ⊢
      rw [hshared, hexclusive]
      exact hp
    obtain ⟨a, v, ha, hst, hv⟩ := exists_finish (reachable_inv hr) (reachable_owners hr) hpu
    have hlocks := hv.locks
    rw [hshared, hexclusive] at hlocks
    exact ⟨a, v, ha, hst,
      ⟨hr.step hst, fun q hq => (hv.others q hq).trans (hu.others q hq), hlocks⟩, hv.nearer⟩
  obtain ⟨as, t, hrun, hby, ⟨-, ht⟩, hdone⟩ := Machine.exists_run
    (C := fun _ (a : Act) => a.process = p) (fun u : State => (u.processes p).left) hnext hstart
  exact ⟨as, t, hrun, Machine.forall_of_meets hrun hby, ht.others, hdone⟩

/-- All sections can be finished, one after the other. -/
theorem all_sections_end {writer : Nat → Bool} {file : List Byte} {s : State}
    (h : (machine writer file).Reachable s) :
    ∃ as t, (machine writer file).run s as = some t ∧ (∀ a ∈ as, s.owns a.process) ∧
      (∀ q, ¬s.owns q → t.processes q = s.processes q) ∧ t.shared = [] ∧ t.exclusive = none := by
  -- the induction is on how many hold a lock
  induction hn : s.shared.length generalizing s with
  | zero =>
    have hshared := List.length_eq_zero_iff.mp hn
    cases hexclusive : s.exclusive with
    | none =>
      exact ⟨[], s, rfl, fun _ ha => absurd ha List.not_mem_nil, fun _ _ => rfl, hshared,
        hexclusive⟩
    | some p =>
      have hp : s.owns p := Or.inr hexclusive
      obtain ⟨as, t, hrun, hby, hothers, hshared', hfree⟩ := section_ends h hp
      refine ⟨as, t, hrun, fun a ha => hby a ha ▸ hp, ?_, ?_, hfree⟩
      · intro q hq
        exact hothers q fun heq => hq (heq ▸ hp)
      · rw [hshared', hshared]
        rfl
  | succ n ih =>
    obtain ⟨p, rest, hshared⟩ := List.exists_cons_of_length_eq_add_one hn
    have hp : s.owns p := Or.inl (hshared ▸ List.mem_cons_self)
    obtain ⟨as, u, hrun, hby, hothers, hshared', hfree⟩ := section_ends h hp
    have hfewer : ∀ q, u.owns q → s.owns q := by
      rintro q (hq | hq)
      · rw [hshared'] at hq
        exact Or.inl (List.mem_of_mem_erase hq)
      · exact absurd (hfree.symm.trans hq) (by simp)
    have hlength : u.shared.length = n := by
      rw [hshared', hshared, List.erase_cons_head]
      rw [hshared, List.length_cons] at hn
      omega
    obtain ⟨bs, t, hrun', hby', hothers', hdone⟩ := ih (h.run hrun) hlength
    refine ⟨as ++ bs, t, ?_, ?_, ?_, hdone⟩
    · rw [Machine.run_append, hrun]
      exact hrun'
    · intro a ha
      rcases List.mem_append.mp ha with ha | ha
      · exact hby a ha ▸ hp
      · exact hfewer _ (hby' a ha)
    · intro q hq
      rw [hothers' q fun hu => hq (hfewer q hu)]
      exact hothers q fun heq => hq (heq ▸ hp)

/-- **Nobody is locked out.**  Whoever waits for its lock gets it, and draws what it likes, once
those who hold one have finished their sections, which they can do without any other process. -/
theorem sections_end {writer : Nat → Bool} {file : List Byte} {s : State}
    (h : (machine writer file).Reachable s) {p : Nat} (hp : (s.processes p).pc = .trying) :
    ∃ as t, (machine writer file).run s as = some t ∧ (∀ a ∈ as, s.owns a.process) ∧
      ∀ draw < 60, ∃ u, step t (.lock p draw) = some u := by
  obtain ⟨as, t, hrun, hby, hothers, hshared, hfree⟩ := all_sections_end h
  have ho := reachable_owners h
  have hnot : ¬s.owns p := by
    rintro (hq | hq)
    · exact absurd (ho.shared p hq).2 (by simp [inSection_of_trying hp])
    · exact absurd (ho.exclusive p hq).2 (by simp [inSection_of_trying hp])
  have hguard : (t.processes p).pc = .trying ∧ t.exclusive = none :=
    ⟨by rw [hothers p hnot]; exact hp, hfree⟩
  refine ⟨as, t, hrun, hby, ?_⟩
  intro draw hdraw
  simp only [step, if_pos hguard, if_pos hshared, if_pos hdraw]
  split
  · exact ⟨_, rfl⟩
  · exact ⟨_, rfl⟩

/-- An update waits for two queries, of which one has read. -/
theorem sections_end_two :
    ∃ s as t u, (machine (· == 0) fourNumbers).run (machine (· == 0) fourNumbers).init
        [.lock 2 0, .read 2 1, .lock 1 5] = some s ∧
      (machine (· == 0) fourNumbers).run s as = some t ∧ step t (.lock 0 0) = some u := by
  have hreachable : (machine (· == 0) fourNumbers).Reachable _ :=
    ⟨[.lock 2 0, .read 2 1, .lock 1 5], rfl⟩
  obtain ⟨as, t, hrun, -, hlock⟩ := sections_end hreachable (p := 0) rfl
  obtain ⟨u, hu⟩ := hlock 0 (by decide)
  exact ⟨_, as, t, u, rfl, hrun, hu⟩

end LockTest
end JavaStudy
