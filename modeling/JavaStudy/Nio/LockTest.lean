/-
# `LockTest`: readers and writers of an index file

Every process runs either `doUpdates` or `doQueries` on one file, each with its own buffer of 40
bytes and an int view of it.  An update fills the buffer with ten consecutive numbers and writes it
to the beginning of the file, under the exclusive lock.  A query reads 40 bytes from the position
of its slot, `4 * n`, to the BEGINNING of the buffer, and then takes the int at index `n`, which is
at byte `4 * n` of the buffer, that is, at byte `8 * n` of the file if the file is that long.

A label says which process moves, and what a query draws: when it has its lock, how many repetitions
there will be, 20 to 79, and for each of them a slot.  The file has any content at first.  What
processes print beside the query lines is left out, and so are their pauses.

* `Inv`: the locks exclude each other; while no writer is at its `write`, the file begins with what
  the last update has written, ten consecutive numbers.
* `aligned_iff`: what a read leaves at the index that is taken, is the slot asked for exactly if
  `n` is 0, or `n` is 5 or more and the bytes there happen to be the same.
-/
import JavaStudy.Lib.Machine
import JavaStudy.Lib.BigEndian
import Mathlib.Logic.Function.Basic

namespace JavaStudy
namespace LockTest

open BigEndian

/-! ## 1. The processes -/

def SIZEOF_INT : Nat := 4
def INDEX_START : Nat := 0
def INDEX_COUNT : Nat := 10
def INDEX_SIZE : Nat := INDEX_COUNT * SIZEOF_INT

/-- Where a process stands. -/
inductive Pc where
  /-- Before `fc.lock`. -/
  | trying
  /-- In the loop under the lock. -/
  | locked
  /-- A query has read, and has not printed yet. -/
  | fetched (n : Nat)
  /-- An update has written. -/
  | written
  deriving DecidableEq

/-- A `LockTest` and the method that it runs. -/
structure Process where
  /-- It runs `doUpdates`, else `doQueries`. -/
  writer : Bool
  buffer : ByteBuffer
  /-- The position of `indexBuffer`. -/
  position : Nat
  idxval : BitVec 32
  /-- The repetitions of the section of a query, and how many of them are over. -/
  reps : Nat
  i : Nat
  pc : Pc

def Process.new (writer : Bool) : Process := ⟨writer, .allocate INDEX_SIZE, 0, 1, 0, 0, .trying⟩

/-- A line `Index entry n=value`, and what the last update had written by then. -/
structure Line where
  n : Nat
  value : BitVec 32
  stored : Option (List Byte)
  deriving DecidableEq

structure State where
  file : List Byte
  processes : Nat → Process
  /-- Who has the exclusive lock. -/
  exclusive : Option Nat
  /-- Who has a shared one. -/
  shared : List Nat
  /-- What the last update has written. -/
  stored : Option (List Byte)
  printed : List Line

inductive Act where
  /-- `fc.lock`; a query draws its number of repetitions then. -/
  | lock (p draw : Nat)
  /-- `indexBuffer.put(idxval)`. -/
  | put (p : Nat)
  | write (p : Nat)
  /-- A query of the slot `n`, up to its `read`. -/
  | read (p n : Nat)
  /-- `indexBuffer.get(n)`, and the line. -/
  | print (p : Nat)
  | release (p : Nat)
  deriving DecidableEq

/-- The process `p` goes on. -/
def State.set (s : State) (p : Nat) (process : Process) : State :=
  { s with processes := Function.update s.processes p process }

def step (s : State) : Act → Option State
  | .lock p draw =>
    let process := s.processes p
    if process.pc = .trying ∧ s.exclusive = none then
      if process.writer then
        if s.shared = [] then
          some { s.set p { process with position := 0, pc := .locked } with exclusive := some p }
        else none
      else if draw < 60 then
        some { s.set p { process with reps := draw + 20, i := 0, pc := .locked } with
          shared := p :: s.shared }
      else none
    else none
  | .put p =>
    let process := s.processes p
    if process.writer = true ∧ process.pc = .locked ∧ process.position < INDEX_COUNT then
      (putInt process.buffer process.position (process.idxval + 1)).map fun buffer =>
        s.set p { process with
          buffer, position := process.position + 1, idxval := process.idxval + 1 }
    else none
  | .write p =>
    let process := s.processes p
    if process.writer = true ∧ process.pc = .locked ∧ process.position = INDEX_COUNT then
      let buffer := process.buffer.clear
      (buffer.take buffer.remaining).map fun r =>
        { s.set p { process with buffer := r.2, pc := .written } with
          file := s.file.take INDEX_START ++ r.1 ++ s.file.drop (INDEX_START + r.1.length)
          stored := some r.1 }
    else none
  | .read p n =>
    let process := s.processes p
    if process.writer = false ∧ process.pc = .locked ∧ process.i < process.reps ∧
        n < INDEX_COUNT then
      let position := INDEX_START + n * SIZEOF_INT
      some (s.set p { process with
        buffer := process.buffer.clear.receive (s.file.drop position), pc := .fetched n })
    else none
  | .print p =>
    let process := s.processes p
    match process.pc with
    | .fetched n =>
      some { s.set p { process with i := process.i + 1, pc := .locked } with
        printed := s.printed ++ [⟨n, intAt process.buffer.array n, s.stored⟩] }
    | _ => none
  | .release p =>
    let process := s.processes p
    match process.writer, process.pc with
    | false, .locked =>
      if process.i < process.reps then none
      else some { s.set p { process with pc := .trying } with shared := s.shared.erase p }
    | true, .written => some { s.set p { process with pc := .trying } with exclusive := none }
    | _, _ => none

/-- Processes of which `writer` says what they run, on a file with that content. -/
def machine (writer : Nat → Bool) (file : List Byte) : Machine State Act where
  init := ⟨file, fun p => .new (writer p), none, [], none, []⟩
  step := step

/-! ## 2. The invariant -/

/-- `k` numbers from the one behind `v` on. -/
def consecutive (v : BitVec 32) (k : Nat) : List (BitVec 32) :=
  (List.range k).map fun i => v + 1 + BitVec.ofNat 32 i

/-- The process `p` holds the lock that it needs. -/
structure Holds (exclusive : Option Nat) (shared : List Nat) (p : Nat) (process : Process) :
    Prop where
  writer : process.writer = true → process.pc ≠ .trying → exclusive = some p
  reader : process.writer = false → process.pc ≠ .trying → p ∈ shared

/-- What is in a process's buffer. -/
structure Filled (process : Process) : Prop where
  capacity : process.buffer.capacity = INDEX_SIZE
  fetched : ∀ n, process.pc = .fetched n → process.writer = false
  /-- An update has put consecutive numbers. -/
  numbers : process.writer = true → process.pc = .locked →
    ∃ v, process.idxval = v + BitVec.ofNat 32 process.position ∧
      process.position ≤ INDEX_COUNT ∧
      process.buffer.array.take (4 * process.position) = ints (consecutive v process.position)

structure Inv (s : State) : Prop where
  filled : ∀ p, Filled (s.processes p)
  holds : ∀ p, Holds s.exclusive s.shared p (s.processes p)
  exclusion : s.exclusive ≠ none → s.shared = []
  /-- The file begins with what the last update has written. -/
  stored : ∀ bytes, s.stored = some bytes →
    bytes.length = INDEX_SIZE ∧ s.file.take INDEX_SIZE = bytes ∧
      ∃ v, bytes = ints (consecutive v INDEX_COUNT)

theorem inv_init (writer : Nat → Bool) (file : List Byte) : Inv (machine writer file).init where
  filled p := by
    refine ⟨ByteBuffer.capacity_allocate INDEX_SIZE, ?_, ?_⟩
    · intro n h
      exact absurd h (by simp [machine, Process.new])
    · intro _ h
      exact absurd h (by simp [machine, Process.new])
  holds p := ⟨fun _ h => absurd rfl h, fun _ h => absurd rfl h⟩
  exclusion _ := rfl
  stored bytes h := absurd h (by simp [machine])

theorem consecutive_succ (v : BitVec 32) (k : Nat) :
    consecutive v (k + 1) = consecutive v k ++ [v + 1 + BitVec.ofNat 32 k] := by
  simp only [consecutive, List.range_succ, List.map_append, List.map_cons, List.map_nil]

@[simp] theorem length_consecutive (v : BitVec 32) (k : Nat) : (consecutive v k).length = k := by
  simp [consecutive]

theorem set_processes (s : State) (p : Nat) (process : Process) (q : Nat) :
    (s.set p process).processes q = if q = p then process else s.processes q :=
  Function.update_apply ..

/-- What holds of the process that moves, and of every other one, holds of all. -/
theorem forall_set {s : State} {p : Nat} {process : Process} {P : Nat → Process → Prop}
    (hp : P p process) (h : ∀ q, q ≠ p → P q (s.processes q)) (q : Nat) :
    P q ((s.set p process).processes q) := by
  rw [set_processes]
  split
  · rename_i hqp
    exact hqp ▸ hp
  · rename_i hqp
    exact h q hqp

/-! ## 3. Every step -/

/-- A process that has its lock goes on under it. -/
theorem Inv.move {s : State} (hi : Inv s) {p : Nat} {process : Process} {printed : List Line}
    (hfilled : Filled process) (hwriter : process.writer = (s.processes p).writer)
    (hbefore : (s.processes p).pc ≠ .trying) : Inv { s.set p process with printed } where
  filled := forall_set (P := fun _ => Filled) hfilled fun q _ => hi.filled q
  holds := by
    refine forall_set (P := Holds s.exclusive s.shared) ⟨?_, ?_⟩ fun q _ => hi.holds q
    · intro h _
      exact (hi.holds p).writer (hwriter ▸ h) hbefore
    · intro h _
      exact (hi.holds p).reader (hwriter ▸ h) hbefore
  exclusion := hi.exclusion
  stored := hi.stored

/-- Locks change hands: those of the other processes stay. -/
theorem Inv.relock {s : State} (hi : Inv s) {p : Nat} {process : Process} {exclusive : Option Nat}
    {shared : List Nat} (hfilled : Filled process) (hholds : Holds exclusive shared p process)
    (hothers : ∀ q, q ≠ p → Holds s.exclusive s.shared q (s.processes q) →
      Holds exclusive shared q (s.processes q))
    (hexclusion : exclusive ≠ none → shared = []) :
    Inv { s.set p process with exclusive, shared } where
  filled := forall_set (P := fun _ => Filled) hfilled fun q _ => hi.filled q
  holds := forall_set (P := Holds exclusive shared) hholds fun q hq => hothers q hq (hi.holds q)
  exclusion := hexclusion
  stored := hi.stored

/-- What a `put` makes of the buffer: a slot more is filled. -/
theorem Filled.putInt_spec {process : Process} (h : Filled process)
    (hposition : process.position < INDEX_COUNT) {value : BitVec 32} {buffer : ByteBuffer}
    (hput : putInt process.buffer process.position value = some buffer) :
    buffer.capacity = INDEX_SIZE ∧ buffer.array.take (4 * (process.position + 1)) =
      process.buffer.array.take (4 * process.position) ++ toBytes 4 value.toNat := by
  have hroom : 4 * process.position + 4 ≤ process.buffer.capacity := by
    rw [h.capacity]
    change 4 * process.position + 4 ≤ 40
    change process.position < 10 at hposition
    omega
  obtain ⟨b, hb, hcapacity, harray⟩ := exists_putInt hroom value
  rw [hput, Option.some.injEq] at hb
  subst hb
  exact ⟨hcapacity.trans h.capacity, harray⟩

/-- A number more in the buffer of an update. -/
theorem Filled.put {process : Process} (h : Filled process) (hwriter : process.writer = true)
    (hpc : process.pc = .locked) (hposition : process.position < INDEX_COUNT) {buffer : ByteBuffer}
    (hput : putInt process.buffer process.position (process.idxval + 1) = some buffer) :
    Filled { process with
      buffer, position := process.position + 1, idxval := process.idxval + 1 } where
  capacity := (h.putInt_spec hposition hput).1
  fetched n hn := h.fetched n hn
  numbers _ _ := by
    obtain ⟨v, hv, -, hnumbers⟩ := h.numbers hwriter hpc
    have hnext : process.idxval + 1 = v + 1 + BitVec.ofNat 32 process.position := by
      rw [hv]
      bv_omega
    refine ⟨v, ?_, hposition, ?_⟩
    · rw [hnext]
      bv_omega
    · rw [(h.putInt_spec hposition hput).2, hnumbers, consecutive_succ, ints_concat, hnext]

/-- The buffer of an update that is complete. -/
theorem Filled.complete {process : Process} (h : Filled process) (hwriter : process.writer = true)
    (hpc : process.pc = .locked) (hposition : process.position = INDEX_COUNT) :
    ∃ v, process.buffer.array = ints (consecutive v INDEX_COUNT) := by
  obtain ⟨v, -, -, hnumbers⟩ := h.numbers hwriter hpc
  have hlength : process.buffer.array.length = 4 * INDEX_COUNT := h.capacity
  rw [hposition, ← hlength, List.take_length] at hnumbers
  exact ⟨v, hnumbers⟩

/-- An update writes its buffer over the beginning of the file. -/
theorem Inv.write {s : State} (hi : Inv s) {p : Nat} (hwriter : (s.processes p).writer = true)
    (hpc : (s.processes p).pc = .locked) (hposition : (s.processes p).position = INDEX_COUNT)
    {bytes : List Byte} {buffer : ByteBuffer}
    (htake : (s.processes p).buffer.clear.take (s.processes p).buffer.clear.remaining =
      some (bytes, buffer)) :
    Inv { s.set p { s.processes p with buffer, pc := .written } with
      file := s.file.take INDEX_START ++ bytes ++ s.file.drop (INDEX_START + bytes.length)
      stored := some bytes } where
  filled := by
    have hcapacity : buffer.capacity = INDEX_SIZE :=
      (ByteBuffer.take_eq_some htake).2.2.trans (hi.filled p).capacity
    exact forall_set (P := fun _ => Filled)
      ⟨hcapacity, fun _ h => absurd h (by simp), fun _ h => absurd h (by simp)⟩
      fun q _ => hi.filled q
  holds := by
    refine forall_set (P := Holds s.exclusive s.shared) ⟨?_, ?_⟩ fun q _ => hi.holds q
    · intro _ _
      exact (hi.holds p).writer hwriter (by simp [hpc])
    · intro h
      exact absurd (hwriter.symm.trans h) (by simp)
  exclusion := hi.exclusion
  stored bytes' h := by
    cases h
    obtain ⟨v, hv⟩ := (hi.filled p).complete hwriter hpc hposition
    have hbytes : bytes = ints (consecutive v INDEX_COUNT) := by
      obtain ⟨b, hb, -⟩ := (s.processes p).buffer.clear.exists_take_remaining
      rw [htake, Option.some.injEq, Prod.mk.injEq] at hb
      rw [hb.1, ByteBuffer.content_eq_array rfl rfl]
      exact hv
    have hlength : bytes.length = INDEX_SIZE := by
      rw [hbytes, length_ints, length_consecutive]
      rfl
    refine ⟨hlength, ?_, v, hbytes⟩
    rw [INDEX_START, List.take_zero, List.nil_append]
    exact List.take_left' hlength

theorem step_inv {s t : State} {a : Act} (hi : Inv s) (h : step s a = some t) : Inv t := by
  cases a with
  | lock p draw =>
    simp only [step, Option.ite_none_right_eq_some] at h
    obtain ⟨⟨hpc, hfree⟩, h⟩ := h
    have hfilled := hi.filled p
    split at h
    · rename_i hwriter
      rw [Option.ite_none_right_eq_some, Option.some.injEq] at h
      obtain ⟨hshared, rfl⟩ := h
      refine hi.relock ⟨hfilled.capacity, fun _ h => absurd h (by simp), ?_⟩ ⟨fun _ _ => rfl, ?_⟩
        ?_ fun _ => hshared
      · intro _ _
        exact ⟨(s.processes p).idxval, by simp, Nat.zero_le _, rfl⟩
      · intro h
        exact absurd (hwriter.symm.trans h) (by simp)
      · intro q _ hq
        refine ⟨?_, hq.reader⟩
        intro hw hq'
        exact absurd ((hq.writer hw hq').symm.trans hfree) (by simp)
    · rename_i hwriter
      rw [Option.ite_none_right_eq_some, Option.some.injEq] at h
      obtain ⟨-, rfl⟩ := h
      refine hi.relock ⟨hfilled.capacity, fun _ h => absurd h (by simp), ?_⟩ ⟨?_, ?_⟩ ?_ ?_
      · intro h
        exact absurd h hwriter
      · intro h
        exact absurd h hwriter
      · intro _ _
        exact List.mem_cons_self
      · intro q _ hq
        exact ⟨hq.writer, fun hr hq' => List.mem_cons_of_mem _ (hq.reader hr hq')⟩
      · intro h
        exact absurd hfree h
  | put p =>
    simp only [step, Option.ite_none_right_eq_some] at h
    obtain ⟨⟨hwriter, hpc, hposition⟩, h⟩ := h
    obtain ⟨buffer, hput, rfl⟩ := Option.map_eq_some_iff.mp h
    exact hi.move ((hi.filled p).put hwriter hpc hposition hput) rfl (by simp [hpc])
  | write p =>
    simp only [step, Option.ite_none_right_eq_some] at h
    obtain ⟨⟨hwriter, hpc, hposition⟩, h⟩ := h
    obtain ⟨⟨bytes, buffer⟩, htake, rfl⟩ := Option.map_eq_some_iff.mp h
    exact hi.write hwriter hpc hposition htake
  | read p n =>
    simp only [step, Option.ite_none_right_eq_some, Option.some.injEq] at h
    obtain ⟨⟨hreader, hpc, -⟩, rfl⟩ := h
    refine hi.move ⟨?_, fun _ _ => hreader, ?_⟩ rfl (by simp [hpc])
    · exact (ByteBuffer.capacity_receive _ _).trans (hi.filled p).capacity
    · intro h
      exact absurd (h.symm.trans hreader) (by simp)
  | print p =>
    simp only [step] at h
    split at h
    · rename_i n hpc
      cases h
      have hreader : (s.processes p).writer = false := (hi.filled p).fetched n hpc
      refine hi.move ⟨(hi.filled p).capacity, fun _ _ => hreader, ?_⟩ rfl (by simp [hpc])
      intro h
      exact absurd (h.symm.trans hreader) (by simp)
    · exact absurd h (by simp)
  | release p =>
    simp only [step] at h
    have hfilled := hi.filled p
    split at h
    · rename_i hreader hpc
      rw [Option.ite_none_left_eq_some, Option.some.injEq] at h
      obtain ⟨-, rfl⟩ := h
      refine hi.relock ⟨hfilled.capacity, fun _ h => absurd h (by simp),
        fun _ h => absurd h (by simp)⟩ ⟨fun _ h => absurd rfl h, fun _ h => absurd rfl h⟩ ?_ ?_
      · intro q hqp hq
        exact ⟨hq.writer, fun hr hq' => (List.mem_erase_of_ne hqp).mpr (hq.reader hr hq')⟩
      · intro h
        rw [hi.exclusion h]
        rfl
    · rename_i hwriter hpc
      cases h
      have hmine : s.exclusive = some p := (hi.holds p).writer hwriter (by simp [hpc])
      refine hi.relock ⟨hfilled.capacity, fun _ h => absurd h (by simp),
        fun _ h => absurd h (by simp)⟩ ⟨fun _ h => absurd rfl h, fun _ h => absurd rfl h⟩ ?_
        fun h => absurd rfl h
      intro q hqp hq
      refine ⟨?_, hq.reader⟩
      intro hw hq'
      have hother := (hq.writer hw hq').symm.trans hmine
      exact absurd (Option.some.inj hother) hqp
    · exact absurd h (by simp)

theorem reachable_inv {writer : Nat → Bool} {file : List Byte} {s : State}
    (h : (machine writer file).Reachable s) : Inv s :=
  h.induct (inv_init writer file) fun _ _ _ _ hi hst => step_inv hi hst

/-! ## 4. What a query finds -/

/-- Byte `j` at the index `n` of the view, after the read of a query of the slot `n`: a byte of the
file if the file is long enough, else what was in the buffer before. -/
def State.left (s : State) (p n j : Nat) : Option Byte :=
  if 8 * n + j < s.file.length then s.file[8 * n + j]?
  else (s.processes p).buffer.array[4 * n + j]?

/-- A query finds the slot that it asks for: the first one always, the next four never, the last
five if the bytes are the same by chance. -/
def Aligned (s : State) : Act → Prop
  | .read p n =>
    s.stored = none ∨ n = 0 ∨ 5 ≤ n ∧ ∀ j < 4, s.left p n j = s.file[4 * n + j]?
  | _ => True

instance (s : State) : ∀ a, Decidable (Aligned s a)
  | .read p n => inferInstanceAs (Decidable (s.stored = none ∨ n = 0 ∨
      5 ≤ n ∧ ∀ j < 4, s.left p n j = s.file[4 * n + j]?))
  | .lock _ _ | .put _ | .write _ | .print _ | .release _ => .isTrue trivial

/-- The buffer after the read. -/
def State.fetch (s : State) (p n : Nat) : ByteBuffer :=
  (s.processes p).buffer.clear.receive (s.file.drop (INDEX_START + n * SIZEOF_INT))

theorem getElem?_fetch {s : State} (hi : Inv s) (p : Nat) {n j : Nat} (hn : n < INDEX_COUNT)
    (hj : j < 4) : (s.fetch p n).array[4 * n + j]? = s.left p n j := by
  have hcapacity : (s.processes p).buffer.capacity = 40 := (hi.filled p).capacity
  have hoffset : INDEX_START + n * SIZEOF_INT = 4 * n := by
    rw [INDEX_START, SIZEOF_INT]
    omega
  change n < 10 at hn
  rw [State.fetch, hoffset, ByteBuffer.getElem?_receive_clear _ _ (by omega), List.length_drop,
    List.getElem?_drop, State.left]
  by_cases hfile : 8 * n + j < s.file.length
  · rw [if_pos (by omega), if_pos hfile]
    congr 1
    omega
  · rw [if_neg (by omega), if_neg hfile]

theorem getElem?_consecutive (v : BitVec 32) {k i : Nat} (h : i < k) :
    (consecutive v k)[i]? = some (v + 1 + BitVec.ofNat 32 i) := by
  rw [consecutive, List.getElem?_map, List.getElem?_range h]
  rfl

/-- **What a query finds is the slot exactly if it is aligned.** -/
theorem aligned_iff {s : State} (hi : Inv s) {bytes : List Byte} (hstored : s.stored = some bytes)
    (p : Nat) {n : Nat} (hn : n < INDEX_COUNT) :
    intAt (s.fetch p n).array n = intAt bytes n ↔ Aligned s (.read p n) := by
  obtain ⟨hlength, hfile, v, hv⟩ := hi.stored bytes hstored
  change bytes = ints (consecutive v 10) at hv
  change bytes.length = 40 at hlength
  change n < 10 at hn
  have hfetch : (s.fetch p n).array.length = 40 :=
    (ByteBuffer.capacity_receive _ _).trans (hi.filled p).capacity
  have hlong : 40 ≤ s.file.length := by
    have htake := congrArg List.length hfile
    rw [List.length_take, hlength] at htake
    change min 40 _ = 40 at htake
    omega
  have hbyte : ∀ i < 40, bytes[i]? = s.file[i]? := by
    intro i hi40
    rw [← hfile]
    exact List.getElem?_take_of_lt hi40
  have hbytes : intAt (s.fetch p n).array n = intAt bytes n ↔
      ∀ j < 4, s.left p n j = s.file[4 * n + j]? := by
    rw [intAt_inj (by omega) (by omega)]
    refine forall₂_congr ?_
    intro j hj
    rw [getElem?_fetch hi p hn hj, hbyte (4 * n + j) (by omega)]
  rw [hbytes]
  simp only [Aligned, hstored, reduceCtorEq, false_or]
  constructor
  · intro h
    by_contra hcontra
    -- what is left is the slot `2 * n`, and the numbers differ from slot to slot
    have hn4 : 0 < n ∧ n < 5 := by
      by_contra hrange
      refine hcontra ?_
      by_cases hzero : n = 0
      · exact Or.inl hzero
      · exact Or.inr ⟨by omega, h⟩
    have hsame : intAt bytes (2 * n) = intAt bytes n := by
      rw [intAt_inj (by omega) (by omega)]
      intro j hj
      have hleft := h j hj
      rw [State.left, if_pos (by omega)] at hleft
      rw [hbyte _ (by omega), hbyte _ (by omega), ← hleft]
      congr 1
      omega
    rw [hv, intAt_ints (getElem?_consecutive v (show 2 * n < 10 by omega)),
      intAt_ints (getElem?_consecutive v hn)] at hsame
    bv_omega
  · rintro (rfl | ⟨-, h⟩)
    · intro j hj
      rw [State.left, if_pos (by omega)]
    · exact h

/-- The line tells the slot as the last update has written it. -/
def Line.Right (line : Line) : Prop :=
  ∀ bytes, line.stored = some bytes → line.value = intAt bytes line.n

/-- A query that has read has the slot as the last update has written it. -/
def Fresh (s : State) (process : Process) : Prop :=
  ∀ n bytes, process.pc = .fetched n → s.stored = some bytes →
    intAt process.buffer.array n = intAt bytes n

structure Truthful (s : State) : Prop where
  fresh : ∀ p, Fresh s (s.processes p)
  lines : ∀ line ∈ s.printed, line.Right

/-- A step that is no read keeps the lines right: an update waits until nobody is in a query. -/
theorem step_truthful {s t : State} {a : Act} (hi : Inv s) (ht : Truthful s)
    (ha : Aligned s a) (h : step s a = some t) : Truthful t := by
  have hmove : ∀ (p : Nat) (process : Process), Fresh s process →
      ∀ q, Fresh s ((s.set p process).processes q) := by
    intro p process hp
    exact forall_set (P := fun _ => Fresh s) hp fun q _ => ht.fresh q
  cases a with
  | lock p draw =>
    simp only [step, Option.ite_none_right_eq_some] at h
    obtain ⟨-, h⟩ := h
    split at h
    · rw [Option.ite_none_right_eq_some, Option.some.injEq] at h
      obtain ⟨-, rfl⟩ := h
      exact ⟨hmove p _ fun _ _ h => absurd h (by simp), ht.lines⟩
    · rw [Option.ite_none_right_eq_some, Option.some.injEq] at h
      obtain ⟨-, rfl⟩ := h
      exact ⟨hmove p _ fun _ _ h => absurd h (by simp), ht.lines⟩
  | put p =>
    simp only [step, Option.ite_none_right_eq_some] at h
    obtain ⟨⟨-, hpc, -⟩, h⟩ := h
    obtain ⟨buffer, -, rfl⟩ := Option.map_eq_some_iff.mp h
    exact ⟨hmove p _ fun _ _ h => absurd (hpc.symm.trans h) (by simp), ht.lines⟩
  | write p =>
    simp only [step, Option.ite_none_right_eq_some] at h
    obtain ⟨⟨hwriter, hpc, -⟩, h⟩ := h
    obtain ⟨⟨bytes, buffer⟩, -, rfl⟩ := Option.map_eq_some_iff.mp h
    refine ⟨?_, ht.lines⟩
    have hmine : s.exclusive = some p := (hi.holds p).writer hwriter (by simp [hpc])
    have hshared : s.shared = [] := hi.exclusion (by simp [hmine])
    refine forall_set (P := fun _ => Fresh _) (fun _ _ h => absurd h (by simp)) ?_
    intro q _ n _ hq
    have hreader : (s.processes q).writer = false := (hi.filled q).fetched n hq
    have hmem := (hi.holds q).reader hreader (by simp [hq])
    exact absurd hmem (by simp [hshared])
  | read p n =>
    simp only [step, Option.ite_none_right_eq_some, Option.some.injEq] at h
    obtain ⟨⟨-, -, -, hn⟩, rfl⟩ := h
    refine ⟨hmove p _ ?_, ht.lines⟩
    intro m bytes hm hstored
    cases hm
    exact (aligned_iff hi hstored p hn).mpr ha
  | print p =>
    simp only [step] at h
    split at h
    · rename_i n hpc
      cases h
      refine ⟨hmove p _ fun _ _ h => absurd h (by simp), ?_⟩
      intro line hline
      rcases List.mem_append.mp hline with hline | hline
      · exact ht.lines line hline
      · rw [List.mem_singleton.mp hline]
        exact fun bytes hstored => ht.fresh p n bytes hpc hstored
    · exact absurd h (by simp)
  | release p =>
    simp only [step] at h
    split at h
    · rw [Option.ite_none_left_eq_some, Option.some.injEq] at h
      obtain ⟨-, rfl⟩ := h
      exact ⟨hmove p _ fun _ _ h => absurd h (by simp), ht.lines⟩
    · cases h
      exact ⟨hmove p _ fun _ _ h => absurd h (by simp), ht.lines⟩
    · exact absurd h (by simp)

theorem truthful_init (writer : Nat → Bool) (file : List Byte) :
    Truthful (machine writer file).init where
  fresh _ _ _ h := absurd h (by simp [machine, Process.new])
  lines _ h := absurd h (by simp [machine])

/-- **The lines are right as long as every read is aligned**, for any readers and writers, any file
and any interleaving that the locks allow: what a query prints is the slot as the last update has
written it.  And a query that is not aligned prints something else. -/
theorem queries_right (writer : Nat → Bool) (file : List Byte) :
    (∀ s, (machine writer file).Within Aligned s → ∀ line ∈ s.printed, line.Right) ∧
    ∀ s p n t u, (machine writer file).Reachable s → step s (.read p n) = some t →
      step t (.print p) = some u →
      ((∀ line ∈ u.printed.getLast?, line.Right) ↔ Aligned s (.read p n)) := by
  refine ⟨?_, ?_⟩
  · intro s h
    have ht : Truthful s := h.induct (truthful_init writer file)
      fun _ _ _ hr ht ha hst => step_truthful (reachable_inv hr) ht ha hst
    exact ht.lines
  · intro s p n t u hr hread hprint
    have hi : Inv s := reachable_inv hr
    simp only [step, Option.ite_none_right_eq_some, Option.some.injEq] at hread
    obtain ⟨⟨-, -, -, hn⟩, rfl⟩ := hread
    simp only [step, State.set, Function.update_self, Option.some.injEq] at hprint
    subst hprint
    simp only [List.getLast?_append, List.getLast?_singleton, Option.some_or, Option.mem_def,
      Option.some.injEq, forall_eq', Line.Right]
    constructor
    · intro hright
      cases hstored : s.stored with
      | none => exact Or.inl hstored
      | some bytes => exact (aligned_iff hi hstored p hn).mp (hright bytes hstored)
    · intro haligned bytes hstored
      exact (aligned_iff hi hstored p hn).mpr haligned

/-- Process 0 makes one update of an empty file, then process 1 asks for slots. -/
def updateThenQueries (slots : List Nat) : List Act :=
  .lock 0 0 :: List.replicate 10 (.put 0) ++ [.write 0, .release 0, .lock 1 7] ++
    slots.flatMap fun n => [.read 1 n, .print 1]

/-- The numbers of the first update. -/
def firstUpdate : List Byte := ints [2, 3, 4, 5, 6, 7, 8, 9, 10, 11]

/-- `queries_right` for a query of the first slot, which fills the buffer, and one of the sixth,
which finds there what the first has left. -/
theorem queries_right_first :
    ∃ s, (machine (· == 0) []).run (machine (· == 0) []).init (updateThenQueries [0, 5]) = some s ∧
      (machine (· == 0) []).Within Aligned s ∧
      s.printed = [⟨0, 2, some firstUpdate⟩, ⟨5, 7, some firstUpdate⟩] ∧
      ∀ line ∈ s.printed, line.Right := by
  obtain ⟨s, hrun, hprinted⟩ : ∃ s, (machine (· == 0) []).run (machine (· == 0) []).init
      (updateThenQueries [0, 5]) = some s ∧
      s.printed = [⟨0, 2, some firstUpdate⟩, ⟨5, 7, some firstUpdate⟩] := ⟨_, rfl, rfl⟩
  have hwithin : (machine (· == 0) []).Within Aligned s := ⟨_, hrun, by decide +kernel⟩
  exact ⟨s, hrun, hwithin, hprinted, (queries_right (· == 0) []).1 s hwithin⟩

/-- A query of the second slot prints the third. -/
theorem second_slot_wrong :
    ¬∀ (writer : Nat → Bool) (file : List Byte) (s : State), (machine writer file).Reachable s →
      ∀ line ∈ s.printed, line.Right := by
  intro h
  obtain ⟨s, hrun, hprinted⟩ : ∃ s, (machine (· == 0) []).run (machine (· == 0) []).init
      (updateThenQueries [1]) = some s ∧ s.printed = [⟨1, 4, some firstUpdate⟩] := ⟨_, rfl, rfl⟩
  have hline := h (· == 0) [] s ⟨_, hrun⟩ ⟨1, 4, some firstUpdate⟩ (by simp [hprinted])
  exact absurd (hline firstUpdate rfl) (by decide)

end LockTest
end JavaStudy
