/-
# `ChannelCopyTest`: two loops that copy a channel through a buffer

Both loops read from `src` until it is at its end, and write to `dest`.  `channelCopy1` writes once
after each read and compacts the buffer, so that bytes stay in it from one round to the next, and
drains it after the loop; `channelCopy2` drains it in every round and clears it.

A `read` may transfer any number of bytes, 0 included, for which there is room, and a `write` any
number of those that remain, 0 included; the number is the label of the step.  `flip`, `compact`
and `clear` belong to the step before them.

One invariant carries both: what was read is what was written, followed by what is in the buffer
(`Inv`).
-/
import JavaStudy.Lib.Machine
import JavaStudy.Lib.ByteBuffer

namespace JavaStudy
namespace ChannelCopyTest

/-! ## 1. The loops -/

/-- Where a loop stands. -/
inductive Pc where
  /-- Before `src.read`. -/
  | reading
  /-- Before `dest.write`, with a buffer that was flipped. -/
  | writing
  /-- In the loop behind the main one. -/
  | draining
  | returned
  deriving DecidableEq

structure State where
  /-- What is left of the source. -/
  src : List Byte
  buffer : ByteBuffer
  pc : Pc
  /-- Everything that was read. -/
  read : List Byte
  /-- Everything that was written. -/
  dest : List Byte

inductive Act where
  | read (n : Nat)
  /-- `read` returns -1. -/
  | eof
  | write (n : Nat)
  /-- `hasRemaining` is false. -/
  | drained
  deriving DecidableEq

/-- `src.read(buffer)` transfers `n` bytes; then the buffer is flipped. -/
def State.fill (s : State) (n : Nat) : Option State :=
  if n ≤ s.src.length then
    (s.buffer.put (s.src.take n)).map fun buffer =>
      { s with
        src := s.src.drop n
        read := s.read ++ s.src.take n
        buffer := buffer.flip
        pc := .writing }
  else none

/-- `dest.write(buffer)` transfers `n` bytes. -/
def State.write (s : State) (n : Nat) : Option State :=
  (s.buffer.take n).map fun r => { s with buffer := r.2, dest := s.dest ++ r.1 }

/-- The source is at its end. -/
def State.atEnd (s : State) : Bool := s.src.isEmpty

def channelCopy1 (s : State) : Act → Option State
  | .read n => if s.pc = .reading then s.fill n else none
  | .eof =>
    if s.pc = .reading ∧ s.atEnd = true then
      some { s with buffer := s.buffer.flip, pc := .draining }
    else none
  | .write n =>
    match s.pc with
    | .writing => (s.write n).map fun t => { t with buffer := t.buffer.compact, pc := .reading }
    | .draining => if s.buffer.hasRemaining then s.write n else none
    | _ => none
  | .drained =>
    if s.pc = .draining ∧ s.buffer.hasRemaining = false then some { s with pc := .returned }
    else none

def channelCopy2 (s : State) : Act → Option State
  | .read n => if s.pc = .reading then s.fill n else none
  | .eof => if s.pc = .reading ∧ s.atEnd = true then some { s with pc := .returned } else none
  | .write n => if s.pc = .writing ∧ s.buffer.hasRemaining = true then s.write n else none
  | .drained =>
    if s.pc = .writing ∧ s.buffer.hasRemaining = false then
      some { s with buffer := s.buffer.clear, pc := .reading }
    else none

/-- A loop on a source, with a buffer of that capacity. -/
def machine (channelCopy : State → Act → Option State) (capacity : Nat) (source : List Byte) :
    Machine State Act where
  init := ⟨source, .allocate capacity, .reading, [], []⟩
  step := channelCopy

/-! ## 2. The invariant -/

/-- What was read and not written yet. -/
def State.pending (s : State) : List Byte :=
  match s.pc with
  | .reading => s.buffer.filled
  | .writing => s.buffer.content
  | .draining => s.buffer.content
  | .returned => []

structure Inv (source : List Byte) (s : State) : Prop where
  written : s.dest ++ s.pending = s.read
  rest : s.read ++ s.src = source
  /-- Nothing is read after the end of the source. -/
  ended : s.pc = .draining ∨ s.pc = .returned → s.src = []

theorem inv_init (channelCopy : State → Act → Option State) (capacity : Nat)
    (source : List Byte) : Inv source (machine channelCopy capacity source).init where
  written := rfl
  rest := rfl
  ended h := by
    rcases h with h | h <;> cases h

theorem fill_pc {s t : State} {n : Nat} (h : s.fill n = some t) : t.pc = .writing := by
  simp only [State.fill, Option.ite_none_right_eq_some, Option.map_eq_some_iff] at h
  obtain ⟨-, buffer, -, rfl⟩ := h
  rfl

theorem Inv.fill {source : List Byte} {s t : State} (hi : Inv source s) {n : Nat}
    (hpc : s.pc = .reading) (h : s.fill n = some t) : Inv source t := by
  simp only [State.fill, Option.ite_none_right_eq_some, Option.map_eq_some_iff] at h
  obtain ⟨-, buffer, hput, rfl⟩ := h
  refine ⟨?_, ?_, ?_⟩
  · have hwritten := hi.written
    simp only [State.pending, hpc] at hwritten
    simp only [State.pending, ByteBuffer.content_flip, ByteBuffer.filled_put hput]
    rw [← List.append_assoc, hwritten]
  · rw [List.append_assoc, List.take_append_drop]
    exact hi.rest
  · intro h
    rcases h with h | h <;> cases h

/-- A write moves bytes from the buffer to the destination. -/
theorem Inv.write {source : List Byte} {s t : State} (hi : Inv source s) {n : Nat}
    (hpc : s.pc = .writing ∨ s.pc = .draining) (h : s.write n = some t) :
    Inv source t ∧ t.pc = s.pc := by
  simp only [State.write, Option.map_eq_some_iff, Prod.exists] at h
  obtain ⟨bytes, buffer, htake, rfl⟩ := h
  refine ⟨⟨?_, hi.rest, hi.ended⟩, rfl⟩
  have hwritten := hi.written
  rcases hpc with hpc | hpc
  all_goals
    simp only [State.pending, hpc] at hwritten ⊢
    rw [List.append_assoc, ByteBuffer.content_take htake]
    exact hwritten

/-- A loop goes on with a buffer in which the same bytes are pending. -/
theorem Inv.move {source : List Byte} {s : State} (hi : Inv source s) {buffer : ByteBuffer} {pc : Pc}
    (hpending : State.pending { s with buffer, pc } = s.pending)
    (hended : pc = .draining ∨ pc = .returned → s.src = []) :
    Inv source { s with buffer, pc } where
  written := by
    rw [hpending]
    exact hi.written
  rest := hi.rest
  ended := hended

theorem atEnd_iff {s : State} : s.atEnd = true ↔ s.src = [] := by
  unfold State.atEnd
  rw [List.isEmpty_iff]

/-! ## 3. Every step -/

theorem channelCopy1_inv {source : List Byte} {s t : State} {a : Act} (hi : Inv source s)
    (h : channelCopy1 s a = some t) : Inv source t := by
  cases a with
  | read n =>
    simp only [channelCopy1, Option.ite_none_right_eq_some] at h
    exact hi.fill h.1 h.2
  | eof =>
    simp only [channelCopy1, Option.ite_none_right_eq_some, Option.some.injEq] at h
    obtain ⟨⟨hpc, hend⟩, rfl⟩ := h
    refine hi.move ?_ fun _ => atEnd_iff.mp hend
    simp only [State.pending, hpc, ByteBuffer.content_flip]
  | write n =>
    simp only [channelCopy1] at h
    split at h
    · -- the bytes that the write left are kept for the next round
      rename_i hpc
      obtain ⟨u, hu, rfl⟩ := Option.map_eq_some_iff.mp h
      obtain ⟨hiu, hpcu⟩ := hi.write (Or.inl hpc) hu
      refine hiu.move ?_ ?_
      · simp only [State.pending, hpcu, hpc, ByteBuffer.filled_compact]
      · intro h
        rcases h with h | h <;> cases h
    · rename_i hpc
      rw [Option.ite_none_right_eq_some] at h
      exact (hi.write (Or.inr hpc) h.2).1
    · exact absurd h (by simp)
  | drained =>
    simp only [channelCopy1, Option.ite_none_right_eq_some, Option.some.injEq] at h
    obtain ⟨⟨hpc, hnone⟩, rfl⟩ := h
    have hpending : State.pending { s with pc := .returned } = s.pending := by
      simp only [State.pending, hpc]
      exact (ByteBuffer.hasRemaining_eq_false_iff.mp hnone).symm
    exact hi.move hpending fun _ => hi.ended (Or.inl hpc)

theorem channelCopy2_inv {source : List Byte} {s t : State} {a : Act} (hi : Inv source s)
    (hfresh : s.pc = .reading → s.buffer.filled = [])
    (h : channelCopy2 s a = some t) : Inv source t ∧ (t.pc = .reading → t.buffer.filled = []) := by
  cases a with
  | read n =>
    simp only [channelCopy2, Option.ite_none_right_eq_some] at h
    refine ⟨hi.fill h.1 h.2, ?_⟩
    have hpc : t.pc = .writing := fill_pc h.2
    rw [hpc]
    exact fun h => by cases h
  | eof =>
    simp only [channelCopy2, Option.ite_none_right_eq_some, Option.some.injEq] at h
    obtain ⟨⟨hpc, hend⟩, rfl⟩ := h
    have hpending : State.pending { s with pc := .returned } = s.pending := by
      simp only [State.pending, hpc]
      exact (hfresh hpc).symm
    exact ⟨hi.move hpending fun _ => atEnd_iff.mp hend, fun h => by cases h⟩
  | write n =>
    simp only [channelCopy2, Option.ite_none_right_eq_some] at h
    obtain ⟨⟨hpc, -⟩, h⟩ := h
    obtain ⟨hit, hpct⟩ := hi.write (Or.inl hpc) h
    refine ⟨hit, ?_⟩
    rw [hpct, hpc]
    exact fun h => by cases h
  | drained =>
    simp only [channelCopy2, Option.ite_none_right_eq_some, Option.some.injEq] at h
    obtain ⟨⟨hpc, hnone⟩, rfl⟩ := h
    refine ⟨hi.move ?_ ?_, fun _ => rfl⟩
    · simp only [State.pending, hpc, ByteBuffer.filled_clear]
      exact (ByteBuffer.hasRemaining_eq_false_iff.mp hnone).symm
    · intro h
      rcases h with h | h <;> cases h

theorem reachable_inv1 {capacity : Nat} {source : List Byte} {s : State}
    (h : (machine channelCopy1 capacity source).Reachable s) : Inv source s :=
  h.induct (inv_init channelCopy1 capacity source) fun _ _ _ _ hi hst => channelCopy1_inv hi hst

theorem reachable_inv2 {capacity : Nat} {source : List Byte} {s : State}
    (h : (machine channelCopy2 capacity source).Reachable s) :
    Inv source s ∧ (s.pc = .reading → s.buffer.filled = []) :=
  h.induct (I := fun s => Inv source s ∧ (s.pc = .reading → s.buffer.filled = []))
    ⟨inv_init channelCopy2 capacity source, fun _ => rfl⟩ fun _ _ _ _ hi hst =>
      channelCopy2_inv hi.1 hi.2 hst

/-- What a loop has done so far is in order, and complete once it has returned. -/
structure Copied (source : List Byte) (s : State) : Prop where
  written : s.dest <+: s.read
  wasRead : s.read <+: source
  complete : s.pc = .returned → s.dest = source

theorem Inv.copied {source : List Byte} {s : State} (hi : Inv source s) : Copied source s where
  written := ⟨s.pending, hi.written⟩
  wasRead := ⟨s.src, hi.rest⟩
  complete hpc := by
    have hwritten := hi.written
    have hrest := hi.rest
    simp only [State.pending, hpc, List.append_nil] at hwritten
    rw [hi.ended (Or.inr hpc), List.append_nil] at hrest
    exact hwritten.trans hrest

/-- **Both loops copy the source**, with any buffer, in any schedule of transfers: at any time a
beginning of what was read is written, and when a loop returns, the source is written in full and
in order.  So two loops that have returned agree. -/
theorem channelCopy_exact (capacity : Nat) (source : List Byte) :
    (∀ s, (machine channelCopy1 capacity source).Reachable s → Copied source s) ∧
    (∀ s, (machine channelCopy2 capacity source).Reachable s → Copied source s) ∧
    (∀ s t, (machine channelCopy1 capacity source).Reachable s → s.pc = .returned →
      (machine channelCopy2 capacity source).Reachable t → t.pc = .returned →
      s.dest = t.dest) := by
  refine ⟨fun s h => (reachable_inv1 h).copied, fun s h => (reachable_inv2 h).1.copied, ?_⟩
  intro s t hs hspc ht htpc
  have hleft : s.dest = source := (reachable_inv1 hs).copied.complete hspc
  have hright : t.dest = source := (reachable_inv2 ht).1.copied.complete htpc
  rw [hleft, hright]

/-- A run of the first loop in which the buffer is full before a read. -/
def copyInParts : List Act :=
  [.read 2, .write 1, .read 1, .write 0, .read 0, .write 1, .eof, .write 1, .drained]

/-- A run of the second loop in which the buffer is written in parts. -/
def copyInRounds : List Act :=
  [.read 2, .write 1, .write 0, .write 1, .drained, .read 1, .write 1, .drained, .eof]

theorem channelCopy_exact_full :
    ∃ s t, (machine channelCopy1 2 [1, 2, 3]).Reachable s ∧ s.pc = .returned ∧
      s.dest = [1, 2, 3] ∧ (machine channelCopy2 2 [1, 2, 3]).Reachable t ∧ t.pc = .returned ∧
      t.dest = [1, 2, 3] ∧ s.dest = t.dest := by
  obtain ⟨hfirst, hsecond, hagree⟩ := channelCopy_exact 2 [1, 2, 3]
  have hs : (machine channelCopy1 2 [1, 2, 3]).Reachable _ := ⟨copyInParts, rfl⟩
  have ht : (machine channelCopy2 2 [1, 2, 3]).Reachable _ := ⟨copyInRounds, rfl⟩
  exact ⟨_, _, hs, rfl, (hfirst _ hs).complete rfl, ht, rfl, (hsecond _ ht).complete rfl,
    hagree _ _ hs rfl ht rfl⟩

end ChannelCopyTest
end JavaStudy
