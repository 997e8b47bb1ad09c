/-
# `PipeTest`: a worker and a main loop at the two ends of a pipe

The worker writes one message a round into its buffer and writes the buffer to the pipe until a
`write` returns 0; then it begins the next message with `clear`, or closes the pipe.  The main loop
reads into its own buffer, writes it to the output once, and clears it.

A `write` may transfer any number of the bytes that remain, 0 included, and a `read` any number of
those that are in the pipe; the number is the label of the step.  So a `write` that returns 0 does
not say that the buffer is empty, and a single `write` need not empty it.  In both places what
remains is lost, and it is the only way in which bytes get lost (`held_iff`).
-/
import JavaStudy.Lib.Machine
import JavaStudy.Lib.ByteBuffer

namespace JavaStudy
namespace PipeTest

/-! ## 1. The two threads -/

/-- `getBytes`, for the characters of the texts below. -/
def getBytes (s : String) : List Byte := s.toList.map fun c => BitVec.ofNat 8 c.toNat

def products : List String :=
  ["No good deed goes unpunished", "To be, or what?", "No matter where you go, there you are",
    "Just say \"Yo\"", "My karma ran over my dogma"]

/-- The bytes of a message. -/
def message (product : Fin products.length) : List Byte :=
  getBytes (products.get product) ++ getBytes "\r\n"

def doSomeWork (buffer : ByteBuffer) (product : Fin products.length) : Option ByteBuffer :=
  (buffer.clear.put (getBytes (products.get product))).bind fun buffer =>
    (buffer.put (getBytes "\r\n")).map ByteBuffer.flip

inductive WorkerPc where
  /-- At the head of the `for` loop, in round `i`. -/
  | looping (i : Nat)
  /-- Before `channel.write`. -/
  | writing (i : Nat)
  | closed
  deriving DecidableEq

inductive MainPc where
  /-- Before `workerChannel.read`. -/
  | reading
  /-- Before `out.write`, with a buffer that was flipped. -/
  | writing
  | returned
  deriving DecidableEq

structure State where
  worker : WorkerPc
  workerBuffer : ByteBuffer
  pipe : List Byte
  main : MainPc
  buffer : ByteBuffer
  /-- What the output has accepted. -/
  out : List Byte
  /-- The messages that the worker has produced. -/
  produced : List (Fin products.length)

inductive Act where
  /-- `doSomeWork`, with this random number. -/
  | work (product : Fin products.length)
  /-- `channel.write` transfers and returns `n`. -/
  | send (n : Nat)
  | close
  | read (n : Nat)
  /-- `read` returns -1. -/
  | eof
  /-- `out.write` transfers `n`; then the buffer is cleared. -/
  | write (n : Nat)
  deriving DecidableEq

def step (reps : Nat) (s : State) : Act → Option State
  | .work product =>
    match s.worker with
    | .looping i =>
      if i < reps then
        (doSomeWork s.workerBuffer product).map fun buffer =>
          { s with
            workerBuffer := buffer, worker := .writing i, produced := s.produced ++ [product] }
      else none
    | _ => none
  | .send n =>
    match s.worker with
    | .writing i =>
      (s.workerBuffer.take n).map fun r =>
        { s with
          workerBuffer := r.2
          pipe := s.pipe ++ r.1
          worker := if 0 < n then .writing i else .looping (i + 1) }
    | _ => none
  | .close =>
    match s.worker with
    | .looping i => if i < reps then none else some { s with worker := .closed }
    | _ => none
  | .read n =>
    if s.main = .reading ∧ n ≤ s.pipe.length then
      (s.buffer.put (s.pipe.take n)).map fun buffer =>
        { s with pipe := s.pipe.drop n, buffer := buffer.flip, main := .writing }
    else none
  | .eof =>
    if s.main = .reading ∧ s.worker = .closed ∧ s.pipe = [] then some { s with main := .returned }
    else none
  | .write n =>
    if s.main = .writing then
      (s.buffer.take n).map fun r =>
        { s with buffer := r.2.clear, out := s.out ++ r.1, main := .reading }
    else none

/-- `main`, with `startWorker(reps)`. -/
def machine (reps : Nat) : Machine State Act where
  init :=
    { worker := .looping 0, workerBuffer := .allocate 100, pipe := [], main := .reading,
      buffer := .allocate 100, out := [], produced := [] }
  step := step reps

/-- The concatenation of the messages that the worker has produced. -/
def State.messages (s : State) : List Byte := s.produced.flatMap message

/-! ## 2. The messages -/

theorem length_product_le : ∀ product : Fin products.length,
    (getBytes (products.get product)).length ≤ 38 := by
  decide

/-- A message always fits into the buffer of the worker. -/
theorem doSomeWork_eq {buffer : ByteBuffer} (hcapacity : buffer.capacity = 100)
    (product : Fin products.length) : ∃ buffer', doSomeWork buffer product = some buffer' ∧
      buffer'.content = message product ∧ buffer'.capacity = 100 := by
  have hlength := length_product_le product
  have hremaining : buffer.clear.remaining = 100 := hcapacity
  have hbreaks : (getBytes "\r\n").length = 2 := by decide
  have hfits : (getBytes (products.get product)).length ≤ buffer.clear.remaining := by omega
  obtain ⟨b, hb, hcap⟩ := ByteBuffer.exists_put hfits
  have hfits' : (getBytes "\r\n").length ≤ b.remaining := by
    rw [ByteBuffer.remaining_put hb]
    omega
  obtain ⟨c, hc, hcap'⟩ := ByteBuffer.exists_put hfits'
  refine ⟨c.flip, ?_, ?_, hcap'.trans (hcap.trans hcapacity)⟩
  · rw [doSomeWork, hb, Option.bind_some, hc, Option.map_some]
  · rw [ByteBuffer.content_flip, ByteBuffer.filled_put hc, ByteBuffer.filled_put hb,
      ByteBuffer.filled_clear, List.nil_append]
    rfl

/-! ## 3. What a step can do -/

inductive Stepped (reps : Nat) (s : State) : Act → State → Prop where
  | work {product : Fin products.length} {i : Nat} {buffer : ByteBuffer}
      (hpc : s.worker = .looping i) (hi : i < reps)
      (hwork : doSomeWork s.workerBuffer product = some buffer) :
      Stepped reps s (.work product)
        { s with
          workerBuffer := buffer, worker := .writing i, produced := s.produced ++ [product] }
  | send {n i : Nat} {bytes : List Byte} {buffer : ByteBuffer} (hpc : s.worker = .writing i)
      (htake : s.workerBuffer.take n = some (bytes, buffer)) :
      Stepped reps s (.send n)
        { s with
          workerBuffer := buffer
          pipe := s.pipe ++ bytes
          worker := if 0 < n then .writing i else .looping (i + 1) }
  | close {i : Nat} (hpc : s.worker = .looping i) (hi : ¬i < reps) :
      Stepped reps s .close { s with worker := .closed }
  | read {n : Nat} {buffer : ByteBuffer} (hpc : s.main = .reading) (hn : n ≤ s.pipe.length)
      (hput : s.buffer.put (s.pipe.take n) = some buffer) :
      Stepped reps s (.read n)
        { s with pipe := s.pipe.drop n, buffer := buffer.flip, main := .writing }
  | eof (hpc : s.main = .reading) (hclosed : s.worker = .closed) (hpipe : s.pipe = []) :
      Stepped reps s .eof { s with main := .returned }
  | write {n : Nat} {bytes : List Byte} {buffer : ByteBuffer} (hpc : s.main = .writing)
      (htake : s.buffer.take n = some (bytes, buffer)) :
      Stepped reps s (.write n)
        { s with buffer := buffer.clear, out := s.out ++ bytes, main := .reading }

theorem stepped_of_step {reps : Nat} {s t : State} {a : Act} (h : step reps s a = some t) :
    Stepped reps s a t := by
  cases a with
  | work product =>
    cases hpc : s.worker with
    | looping i =>
      simp only [step, hpc, Option.ite_none_right_eq_some, Option.map_eq_some_iff] at h
      obtain ⟨hi, buffer, hwork, rfl⟩ := h
      exact .work hpc hi hwork
    | _ => exact absurd h (by simp [step, hpc])
  | send n =>
    cases hpc : s.worker with
    | writing i =>
      simp only [step, hpc, Option.map_eq_some_iff, Prod.exists] at h
      obtain ⟨bytes, buffer, htake, rfl⟩ := h
      exact .send hpc htake
    | _ => exact absurd h (by simp [step, hpc])
  | close =>
    cases hpc : s.worker with
    | looping i =>
      simp only [step, hpc, Option.ite_none_left_eq_some, Option.some.injEq] at h
      obtain ⟨hi, rfl⟩ := h
      exact .close hpc hi
    | _ => exact absurd h (by simp [step, hpc])
  | read n =>
    simp only [step, Option.ite_none_right_eq_some, Option.map_eq_some_iff] at h
    obtain ⟨⟨hpc, hn⟩, buffer, hput, rfl⟩ := h
    exact .read hpc hn hput
  | eof =>
    simp only [step, Option.ite_none_right_eq_some, Option.some.injEq] at h
    obtain ⟨⟨hpc, hclosed, hpipe⟩, rfl⟩ := h
    exact .eof hpc hclosed hpipe
  | write n =>
    simp only [step, Option.ite_none_right_eq_some, Option.map_eq_some_iff, Prod.exists] at h
    obtain ⟨hpc, bytes, buffer, htake, rfl⟩ := h
    exact .write hpc htake

/-! ## 4. The bytes on their way -/

/-- What is left of the message that the worker is writing. -/
def State.workerPending (s : State) : List Byte :=
  match s.worker with
  | .writing _ => s.workerBuffer.content
  | _ => []

/-- What the main loop has read and not written. -/
def State.pending (s : State) : List Byte :=
  match s.main with
  | .writing => s.buffer.content
  | _ => []

/-- The bytes that are not lost: what the output has, and what is on its way there. -/
def State.held (s : State) : List Byte := s.out ++ s.pending ++ s.pipe ++ s.workerPending

structure Inv (s : State) : Prop where
  capacity : s.workerBuffer.capacity = 100
  fresh : s.main = .reading → s.buffer.position = 0
  ended : s.main = .returned → s.worker = .closed ∧ s.pipe = []

theorem inv_init (reps : Nat) : Inv (machine reps).init where
  capacity := ByteBuffer.capacity_allocate 100
  fresh _ := rfl
  ended h := by cases h

theorem step_inv {reps : Nat} {s t : State} {a : Act} (h : Inv s) (hst : Stepped reps s a t) :
    Inv t := by
  have hclosed : ∀ {i : Nat}, s.worker = .looping i ∨ s.worker = .writing i →
      s.main ≠ .returned := by
    intro i hpc hreturned
    rw [(h.ended hreturned).1] at hpc
    rcases hpc with hpc | hpc <;> cases hpc
  cases hst with
  | @work product i buffer hpc hi hwork =>
    obtain ⟨buffer', hwork', -, hcapacity⟩ := doSomeWork_eq h.capacity product
    rw [hwork, Option.some.injEq] at hwork'
    exact ⟨hwork' ▸ hcapacity, h.fresh, fun hmain => absurd hmain (hclosed (Or.inl hpc))⟩
  | @send n i bytes buffer hpc htake =>
    obtain ⟨-, -, hcapacity⟩ := ByteBuffer.take_eq_some htake
    exact ⟨hcapacity.trans h.capacity, h.fresh, fun hmain => absurd hmain (hclosed (Or.inr hpc))⟩
  | @close i hpc hi =>
    exact ⟨h.capacity, h.fresh, fun hmain => absurd hmain (hclosed (Or.inl hpc))⟩
  | read hpc hn hput => exact ⟨h.capacity, nofun, nofun⟩
  | eof hpc hclosed hpipe => exact ⟨h.capacity, nofun, fun _ => ⟨hclosed, hpipe⟩⟩
  | write hpc htake => exact ⟨h.capacity, fun _ => rfl, nofun⟩

/-- No byte is lost in the step: `channel.write` returns 0 for an empty buffer only, and `out.write`
takes all there is. -/
def Lossless (s : State) : Act → Prop
  | .send n => 0 < n ∨ s.workerBuffer.remaining = 0
  | .write n => n = s.buffer.remaining
  | _ => True

instance decidableLossless (s : State) (a : Act) : Decidable (Lossless s a) :=
  match a with
  | .send n => inferInstanceAs (Decidable (0 < n ∨ s.workerBuffer.remaining = 0))
  | .write n => inferInstanceAs (Decidable (n = s.buffer.remaining))
  | .work _ | .close | .read _ | .eof => .isTrue trivial

/-- **What a step does to the bytes on their way.**  New ones come at the end, some of the old ones
may be dropped, and none is if the step is lossless. -/
theorem step_held {reps : Nat} {s t : State} {a : Act} (h : Inv s) (hst : Stepped reps s a t) :
    ∃ new, t.messages = s.messages ++ new ∧ t.held.Sublist (s.held ++ new) ∧
      ((s.held ++ new).length ≤ t.held.length ↔ Lossless s a) := by
  have kept : ∀ {held new : List Byte}, held = s.held ++ new → Lossless s a →
      held.Sublist (s.held ++ new) ∧ ((s.held ++ new).length ≤ held.length ↔ Lossless s a) := by
    rintro held new rfl hlossless
    exact ⟨List.Sublist.refl _, iff_of_true (le_refl _) hlossless⟩
  cases hst with
  | @work product i buffer hpc hi hwork =>
    obtain ⟨buffer', hwork', hcontent, -⟩ := doSomeWork_eq h.capacity product
    rw [hwork, Option.some.injEq] at hwork'
    refine ⟨message product, by simp [State.messages], kept ?_ trivial⟩
    rw [← hcontent, ← hwork']
    simp [State.held, State.pending, State.workerPending, hpc]
  | @send n i bytes buffer hpc htake =>
    have hcontent := ByteBuffer.content_take htake
    obtain ⟨hbytes, -, -⟩ := ByteBuffer.take_eq_some htake
    by_cases hn : 0 < n
    · refine ⟨[], by simp [State.messages], kept ?_ (Or.inl hn)⟩
      simp [State.held, State.pending, State.workerPending, hpc, hn, ← hcontent]
    · -- the `while` loop ends, and what is in the buffer will be cleared
      obtain rfl : n = 0 := by omega
      have hlength := s.workerBuffer.length_content
      simp only [List.take_zero] at hbytes
      refine ⟨[], by simp [State.messages], ?_, ?_⟩
      · simp [State.held, State.pending, State.workerPending, hpc, hbytes]
      · simp only [State.held, State.pending, State.workerPending, hpc, hbytes, Lossless,
          List.length_append, List.length_nil, if_neg hn]
        omega
  | @close i hpc hi =>
    refine ⟨[], by simp [State.messages], kept ?_ trivial⟩
    simp [State.held, State.pending, State.workerPending, hpc]
  | @read n buffer hpc hn hput =>
    have hcontent : buffer.flip.content = s.pipe.take n :=
      ByteBuffer.content_flip_put (h.fresh hpc) hput
    refine ⟨[], by simp [State.messages], kept ?_ trivial⟩
    simp [State.held, State.pending, State.workerPending, hpc, hcontent]
  | eof hpc hclosed hpipe =>
    refine ⟨[], by simp [State.messages], kept ?_ trivial⟩
    simp [State.held, State.pending, State.workerPending, hpc]
  | @write n bytes buffer hpc htake =>
    -- what the output has not accepted is cleared
    have hcontent := ByteBuffer.content_take htake
    obtain ⟨hbytes, hn, -⟩ := ByteBuffer.take_eq_some htake
    have hlength : bytes.length = n := by
      rw [hbytes, List.length_take, ByteBuffer.length_content, Nat.min_eq_left hn]
    have hall := congrArg List.length hcontent
    rw [List.length_append, hlength] at hall
    have hremaining := s.buffer.length_content
    refine ⟨[], by simp [State.messages], ?_, ?_⟩
    · simp [State.held, State.pending, State.workerPending, hpc, ← hcontent]
    · simp only [State.held, State.pending, State.workerPending, hpc, Lossless,
        List.length_append, hlength, List.length_nil]
      omega

/-! ## 5. Runs -/

theorem inv {reps : Nat} {s : State} (h : (machine reps).Reachable s) : Inv s :=
  h.induct (inv_init reps) fun _ _ _ _ hs hst => step_inv hs (stepped_of_step hst)

/-- What is not lost is in order. -/
theorem held_sublist {reps : Nat} {s : State} (h : (machine reps).Reachable s) :
    s.held.Sublist s.messages := by
  refine h.induct (I := fun s => s.held.Sublist s.messages) (List.Sublist.refl _) ?_
  intro s a t hr hs hst
  obtain ⟨new, hmessages, hsub, -⟩ := step_held (inv hr) (stepped_of_step hst)
  rw [hmessages]
  exact hsub.trans (hs.append (List.Sublist.refl new))

theorem step_held_iff {reps : Nat} {s t : State} {a : Act} (h : (machine reps).Reachable s)
    (hst : (machine reps).step s a = some t) :
    t.held = t.messages ↔ s.held = s.messages ∧ Lossless s a := by
  obtain ⟨new, hmessages, hsub, hlength⟩ := step_held (inv h) (stepped_of_step hst)
  have hold := held_sublist h
  rw [hmessages]
  constructor
  · intro heq
    rw [heq] at hsub hlength
    have hle := hsub.length_le
    have hle' := hold.length_le
    simp only [List.length_append] at hle hlength
    exact ⟨hold.eq_of_length (by omega), hlength.mp (by omega)⟩
  · rintro ⟨heq, hlossless⟩
    rw [hsub.eq_of_length (le_antisymm hsub.length_le (hlength.mpr hlossless)), heq]

/-- **A byte is lost in a step that is not lossless, and in no other.** -/
theorem held_iff {reps : Nat} {schedule : List Act} {s : State}
    (h : (machine reps).run (machine reps).init schedule = some s) :
    s.held = s.messages ↔ (machine reps).Meets Lossless (machine reps).init schedule :=
  Machine.iff_meets (P := fun s => s.held = s.messages) rfl
    (fun _ _ _ hr hst => step_held_iff hr hst) h

/-- **The output is complete exactly if no step was lossy**, when both threads have ended. -/
theorem out_eq_messages_iff {reps : Nat} {schedule : List Act} {s : State}
    (h : (machine reps).run (machine reps).init schedule = some s) (hmain : s.main = .returned)
    (hworker : s.worker = .closed) :
    s.out = s.messages ↔ (machine reps).Meets Lossless (machine reps).init schedule := by
  obtain ⟨-, hpipe⟩ := (inv ⟨schedule, h⟩).ended hmain
  have hheld : s.held = s.out := by
    simp [State.held, State.pending, State.workerPending, hmain, hworker, hpipe]
  rw [← held_iff h, hheld]

/-- A run for two messages, in transfers of several sizes. -/
def smallTransfers : List Act :=
  [.work ⟨1, by decide⟩, .read 0, .send 10, .write 0, .read 3, .send 7, .write 3, .send 0,
    .work ⟨3, by decide⟩, .read 14, .write 14, .send 15, .send 0, .close, .read 15, .write 15, .eof]

theorem out_eq_messages_iff_two : ∃ s, (machine 2).run (machine 2).init smallTransfers = some s ∧
    s.out = getBytes "To be, or what?\r\nJust say \"Yo\"\r\n" := by
  have h : (machine 2).run (machine 2).init smallTransfers = some _ := rfl
  refine ⟨_, h, (out_eq_messages_iff h rfl rfl).mpr ?_⟩
  decide

/-- **The channel takes five bytes of a message, then none: the rest never comes.** -/
theorem out_of_short_send : ∃ s,
    (machine 1).run (machine 1).init
      [.work ⟨1, by decide⟩, .send 5, .send 0, .close, .read 5, .write 5, .eof] = some s ∧
      s.main = .returned ∧ s.worker = .closed ∧ s.messages = getBytes "To be, or what?\r\n" ∧
      s.out = getBytes "To be" ∧ s.out ≠ s.messages := by
  have h : (machine 1).run (machine 1).init
      [.work ⟨1, by decide⟩, .send 5, .send 0, .close, .read 5, .write 5, .eof] = some _ := rfl
  exact ⟨_, h, rfl, rfl, by decide, by decide, by decide⟩

end PipeTest
end JavaStudy
