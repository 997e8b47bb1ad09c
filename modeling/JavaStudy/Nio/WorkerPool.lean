/-
# `SelectSocketsThreadPool`: worker threads behind a selection loop

The selection loop of `SelectSockets.go` hands the readable keys to idle worker threads.  A worker
is a monitor of its own: `run` and `serviceChannel` are `synchronized`, `run` gives the monitor up
only in `wait`, and a `notify` reaches a thread that IS waiting, or nobody.  The machine moves at
that granularity, and inside `drainChannel` at that of the channel operations, which transfer any
number of bytes that the buffer allows.

The selector may pick any set of keys whose interest contains OP_READ; a thread may leave `wait`
without a notification (or because it was interrupted, which the code treats in the same way).

* A worker OWNS the channel of its key until it has re-enabled OP_READ or closed the channel.  It
  still has the key then, and another worker may be given it.  An open channel without OP_READ is
  owned by exactly one worker (`Lease.Exclusive`).
* What was read from a channel is what was written back, but for what the owner has in its buffer
  (`Lease.Governed`).
-/
import JavaStudy.Lib.Machine
import JavaStudy.Lib.Progress
import JavaStudy.Lib.Lease
import JavaStudy.Lib.ByteBuffer
import Mathlib.Data.List.Nodup

namespace JavaStudy
namespace SelectSocketsThreadPool

/-! ## 1. Channels and workers -/

/-- A selection key, and its channel. -/
abbrev Key := Nat

structure Channel where
  registered : Bool
  isOpen : Bool
  /-- Is OP_READ in the interest set of the key? -/
  interest : Bool
  /-- Was the channel closed by the `catch` block? -/
  failed : Bool
  /-- Everything that workers have read from it. -/
  read : List Byte
  /-- Everything that workers have written to it. -/
  written : List Byte

/-- Where `WorkerThread.run` stands. -/
inductive Pc where
  /-- The thread is started and not in `run` yet. -/
  | started
  /-- About to wait. -/
  | ready
  | waiting
  /-- Out of the wait set, without the monitor. -/
  | awakened
  /-- Back from `wait`, before the test of the key. -/
  | woken
  /-- In `drainChannel`, before `buffer.clear`. -/
  | draining
  | reading
  | writing
  /-- At the end of the stream. -/
  | closing
  /-- About to re-enable OP_READ. -/
  | resuming
  /-- In the `catch` block. -/
  | catching
  /-- Before `key = null`. -/
  | done
  /-- Before `returnWorker`. -/
  | returning
  deriving DecidableEq

/-- Who is in the monitor of a worker. -/
inductive Owner where
  | worker
  | selector
  deriving DecidableEq

structure Worker where
  pc : Pc
  key : Option Key
  buffer : ByteBuffer
  monitor : Option Owner

inductive DrainAct where
  | clear
  | read (bytes : List Byte)
  /-- `read` returns 0. -/
  | nothing
  | eof
  | write (n : Nat)
  /-- The inner loop is over. -/
  | written
  | close
  | resume
  /-- A channel operation throws. -/
  | fail
  /-- The `catch` block. -/
  | handle
  deriving DecidableEq

/-- `drainChannel` and its `catch` block, a step of the worker with the channel of its key. -/
def drainChannel (worker : Worker) (channel : Channel) : DrainAct → Option (Worker × Channel)
  | .clear =>
    if worker.pc = .draining then
      some ({ worker with buffer := worker.buffer.clear, pc := .reading }, channel)
    else none
  | .read bytes =>
    if worker.pc = .reading ∧ channel.isOpen = true ∧ bytes ≠ [] then
      (worker.buffer.put bytes).map fun buffer =>
        ({ worker with buffer := buffer.flip, pc := .writing },
          { channel with read := channel.read ++ bytes })
    else none
  | .nothing =>
    if worker.pc = .reading ∧ channel.isOpen = true then some ({ worker with pc := .resuming }, channel)
    else none
  | .eof =>
    if worker.pc = .reading ∧ channel.isOpen = true then some ({ worker with pc := .closing }, channel)
    else none
  | .write n =>
    if worker.pc = .writing ∧ channel.isOpen = true ∧ worker.buffer.hasRemaining = true then
      (worker.buffer.take n).map fun r =>
        ({ worker with buffer := r.2 }, { channel with written := channel.written ++ r.1 })
    else none
  | .written =>
    if worker.pc = .writing ∧ worker.buffer.hasRemaining = false then
      some ({ worker with pc := .draining }, channel)
    else none
  | .close =>
    if worker.pc = .closing then some ({ worker with pc := .done }, { channel with isOpen := false })
    else none
  | .resume =>
    if worker.pc = .resuming then
      if channel.isOpen then some ({ worker with pc := .done }, { channel with interest := true })
      else some ({ worker with pc := .catching }, channel)
    else none
  | .fail =>
    if worker.pc = .reading ∨ worker.pc = .writing ∨ worker.pc = .closing then
      some ({ worker with pc := .catching }, channel)
    else none
  | .handle =>
    if worker.pc = .catching then
      some ({ worker with pc := .done }, { channel with isOpen := false, failed := true })
    else none

/-! ## 2. The system -/

/-- Where `SelectSockets.go` stands. -/
inductive SelectorPc where
  /-- Before `select`. -/
  | selecting
  /-- In the iteration over the selected keys. -/
  | handling (keys : List Key)
  /-- With a worker for the key, before its monitor. -/
  | handing (w : Nat) (key : Key) (keys : List Key)
  /-- In `serviceChannel`. -/
  | servicing (w : Nat) (key : Key) (keys : List Key)
  /-- At the end of `serviceChannel`. -/
  | serviced (w : Nat) (keys : List Key)
  /-- An exception has left `go`. -/
  | stopped

structure State where
  workers : Nat → Worker
  idle : List Nat
  channels : Key → Channel
  selector : SelectorPc

inductive WorkerAct where
  | enter
  | wait
  /-- Out of `wait` without a notification. -/
  | wakeup
  | reacquire
  | test
  | drain (a : DrainAct)
  /-- `key = null`. -/
  | forget
  | returnWorker
  deriving DecidableEq

inductive Act where
  /-- A connection comes in and is registered for OP_READ. -/
  | accept (key : Key)
  | select (keys : List Key)
  /-- The next selected key: `readDataFromSocket` up to `serviceChannel`, or the end of the loop. -/
  | next
  | acquire
  | service
  | release
  | worker (w : Nat) (a : WorkerAct)
  deriving DecidableEq

def State.setWorker (s : State) (w : Nat) (worker : Worker) : State :=
  { s with workers := Function.update s.workers w worker }

def State.setChannel (s : State) (key : Key) (channel : Channel) : State :=
  { s with channels := Function.update s.channels key channel }

@[simp] theorem workers_setWorker_self (s : State) (w : Nat) (worker : Worker) :
    (s.setWorker w worker).workers w = worker := Function.update_self ..

/-- A newly accepted channel. -/
def Channel.accepted : Channel := ⟨true, true, true, false, [], []⟩

/-- A step of `WorkerThread.run`. -/
def run (poolSize : Nat) (s : State) (w : Nat) : WorkerAct → Option State
  | .enter =>
    if w < poolSize ∧ (s.workers w).pc = .started ∧ (s.workers w).monitor = none then
      some (s.setWorker w { s.workers w with pc := .ready, monitor := some .worker })
    else none
  | .wait =>
    if (s.workers w).pc = .ready then
      some (s.setWorker w { s.workers w with pc := .waiting, monitor := none })
    else none
  | .wakeup =>
    if (s.workers w).pc = .waiting then some (s.setWorker w { s.workers w with pc := .awakened })
    else none
  | .reacquire =>
    if (s.workers w).pc = .awakened ∧ (s.workers w).monitor = none then
      some (s.setWorker w { s.workers w with pc := .woken, monitor := some .worker })
    else none
  | .test =>
    if (s.workers w).pc = .woken then
      some (s.setWorker w
        { s.workers w with pc := if (s.workers w).key = none then .ready else .draining })
    else none
  | .drain a =>
    match (s.workers w).key with
    | some key =>
      (drainChannel (s.workers w) (s.channels key) a).map fun r =>
        (s.setChannel key r.2).setWorker w r.1
    | none => none
  | .forget =>
    if (s.workers w).pc = .done then
      some (s.setWorker w { s.workers w with key := none, pc := .returning })
    else none
  | .returnWorker =>
    if (s.workers w).pc = .returning then
      some (State.setWorker { s with idle := s.idle ++ [w] } w { s.workers w with pc := .ready })
    else none

def step (poolSize : Nat) (s : State) : Act → Option State
  | .accept key =>
    match s.selector with
    | .handling _ =>
      if (s.channels key).registered then none else some (s.setChannel key .accepted)
    | _ => none
  | .select keys =>
    match s.selector with
    | .selecting =>
      if keys.Nodup ∧ ∀ key ∈ keys, (s.channels key).registered = true ∧
          (s.channels key).isOpen = true ∧ (s.channels key).interest = true then
        some { s with selector := .handling keys }
      else none
    | _ => none
  | .next =>
    match s.selector with
    | .handling [] => some { s with selector := .selecting }
    | .handling (key :: keys) =>
      -- `isReadable` throws on a cancelled key
      if (s.channels key).isOpen then
        match s.idle with
        | [] => some { s with selector := .handling keys }
        | w :: idle => some { s with idle, selector := .handing w key keys }
      else some { s with selector := .stopped }
    | _ => none
  | .acquire =>
    match s.selector with
    | .handing w key keys =>
      if (s.workers w).monitor = none then
        some (State.setWorker { s with selector := .servicing w key keys } w
          { s.workers w with monitor := some .selector })
      else none
    | _ => none
  | .service =>
    match s.selector with
    | .servicing w key keys =>
      -- `interestOps` throws on a cancelled key
      if (s.channels key).isOpen then
        some (State.setWorker
          (State.setChannel { s with selector := .serviced w keys } key
            { s.channels key with interest := false }) w
          { s.workers w with
            key := some key
            pc := if (s.workers w).pc = .waiting then .awakened else (s.workers w).pc })
      else
        some (State.setWorker { s with selector := .stopped } w
          { s.workers w with key := some key, monitor := none })
    | _ => none
  | .release =>
    match s.selector with
    | .serviced w keys =>
      some (State.setWorker { s with selector := .handling keys } w
        { s.workers w with monitor := none })
    | _ => none
  | .worker w a => run poolSize s w a

/-- The system as the constructor of `ThreadPool` leaves it: the workers are started and idle. -/
def machine (poolSize : Nat) : Machine State Act where
  init :=
    { workers := fun _ => ⟨.started, none, .allocate 1024, none⟩
      idle := List.range poolSize
      channels := fun _ => ⟨false, false, false, false, [], []⟩
      selector := .selecting }
  step := step poolSize

/-! ## 3. What a step can do -/

/-- A step of worker `w` in `run`, with its guard and its outcome. -/
inductive Ran (poolSize : Nat) (s : State) (w : Nat) : State → Prop where
  | enter (hw : w < poolSize) (hpc : (s.workers w).pc = .started)
      (hnone : (s.workers w).monitor = none) : Ran poolSize s w
        (s.setWorker w { s.workers w with pc := .ready, monitor := some .worker })
  | wait (hpc : (s.workers w).pc = .ready) : Ran poolSize s w
      (s.setWorker w { s.workers w with pc := .waiting, monitor := none })
  | wakeup (hpc : (s.workers w).pc = .waiting) : Ran poolSize s w
      (s.setWorker w { s.workers w with pc := .awakened })
  | reacquire (hpc : (s.workers w).pc = .awakened) (hnone : (s.workers w).monitor = none) :
      Ran poolSize s w
        (s.setWorker w { s.workers w with pc := .woken, monitor := some .worker })
  /-- `continue`, without a key. -/
  | again (hpc : (s.workers w).pc = .woken) (hkey : (s.workers w).key = none) : Ran poolSize s w
      (s.setWorker w { s.workers w with pc := .ready })
  | begin (hpc : (s.workers w).pc = .woken) (hkey : (s.workers w).key ≠ none) : Ran poolSize s w
      (s.setWorker w { s.workers w with pc := .draining })
  | drain {key : Key} {a : DrainAct} {x : Worker} {channel : Channel}
      (hkey : (s.workers w).key = some key)
      (h : drainChannel (s.workers w) (s.channels key) a = some (x, channel)) : Ran poolSize s w
        ((s.setChannel key channel).setWorker w x)
  | forget (hpc : (s.workers w).pc = .done) : Ran poolSize s w
      (s.setWorker w { s.workers w with key := none, pc := .returning })
  | returnWorker (hpc : (s.workers w).pc = .returning) : Ran poolSize s w
      (State.setWorker { s with idle := s.idle ++ [w] } w { s.workers w with pc := .ready })

theorem run_cases {poolSize : Nat} {s t : State} {w : Nat} {a : WorkerAct}
    (h : run poolSize s w a = some t) : Ran poolSize s w t := by
  cases a with
  | enter =>
    simp only [run, Option.ite_none_right_eq_some, Option.some.injEq] at h
    obtain ⟨⟨hw, hpc, hnone⟩, rfl⟩ := h
    exact .enter hw hpc hnone
  | wait =>
    simp only [run, Option.ite_none_right_eq_some, Option.some.injEq] at h
    obtain ⟨hpc, rfl⟩ := h
    exact .wait hpc
  | wakeup =>
    simp only [run, Option.ite_none_right_eq_some, Option.some.injEq] at h
    obtain ⟨hpc, rfl⟩ := h
    exact .wakeup hpc
  | reacquire =>
    simp only [run, Option.ite_none_right_eq_some, Option.some.injEq] at h
    obtain ⟨⟨hpc, hnone⟩, rfl⟩ := h
    exact .reacquire hpc hnone
  | test =>
    simp only [run, Option.ite_none_right_eq_some, Option.some.injEq] at h
    obtain ⟨hpc, rfl⟩ := h
    by_cases hkey : (s.workers w).key = none
    · rw [if_pos hkey]
      exact .again hpc hkey
    · rw [if_neg hkey]
      exact .begin hpc hkey
  | drain a =>
    simp only [run] at h
    split at h
    · rename_i key hkey
      obtain ⟨⟨x, channel⟩, hdrain, rfl⟩ := Option.map_eq_some_iff.mp h
      exact .drain hkey hdrain
    · exact absurd h (by simp)
  | forget =>
    simp only [run, Option.ite_none_right_eq_some, Option.some.injEq] at h
    obtain ⟨hpc, rfl⟩ := h
    exact .forget hpc
  | returnWorker =>
    simp only [run, Option.ite_none_right_eq_some, Option.some.injEq] at h
    obtain ⟨hpc, rfl⟩ := h
    exact .returnWorker hpc

/-- A step of the system, with its guard and its outcome. -/
inductive Stepped (poolSize : Nat) (s : State) : Act → State → Prop where
  | accept {key : Key} {keys : List Key} (hsel : s.selector = .handling keys)
      (hnew : (s.channels key).registered = false) :
      Stepped poolSize s (.accept key) (s.setChannel key .accepted)
  | select {keys : List Key} (hsel : s.selector = .selecting) (hnodup : keys.Nodup)
      (hkeys : ∀ key ∈ keys, (s.channels key).registered = true ∧
        (s.channels key).isOpen = true ∧ (s.channels key).interest = true) :
      Stepped poolSize s (.select keys) { s with selector := .handling keys }
  | handled (hsel : s.selector = .handling []) :
      Stepped poolSize s .next { s with selector := .selecting }
  /-- `getWorker` returns `null`. -/
  | nobody {key : Key} {keys : List Key} (hsel : s.selector = .handling (key :: keys))
      (hidle : s.idle = []) : Stepped poolSize s .next { s with selector := .handling keys }
  | somebody {key : Key} {keys : List Key} {w : Nat} {idle : List Nat}
      (hsel : s.selector = .handling (key :: keys)) (hidle : s.idle = w :: idle) :
      Stepped poolSize s .next { s with idle, selector := .handing w key keys }
  | cancelled {key : Key} {keys : List Key} (hsel : s.selector = .handling (key :: keys))
      (hclosed : (s.channels key).isOpen ≠ true) :
      Stepped poolSize s .next { s with selector := .stopped }
  | acquire {w : Nat} {key : Key} {keys : List Key} (hsel : s.selector = .handing w key keys)
      (hnone : (s.workers w).monitor = none) : Stepped poolSize s .acquire
        (State.setWorker { s with selector := .servicing w key keys } w
          { s.workers w with monitor := some .selector })
  | service {w : Nat} {key : Key} {keys : List Key} (hsel : s.selector = .servicing w key keys)
      (hopen : (s.channels key).isOpen = true) : Stepped poolSize s .service
        (State.setWorker
          (State.setChannel { s with selector := .serviced w keys } key
            { s.channels key with interest := false }) w
          { s.workers w with
            key := some key
            pc := if (s.workers w).pc = .waiting then .awakened else (s.workers w).pc })
  | refused {w : Nat} {key : Key} {keys : List Key} (hsel : s.selector = .servicing w key keys)
      (hclosed : (s.channels key).isOpen ≠ true) : Stepped poolSize s .service
        (State.setWorker { s with selector := .stopped } w
          { s.workers w with key := some key, monitor := none })
  | release {w : Nat} {keys : List Key} (hsel : s.selector = .serviced w keys) :
      Stepped poolSize s .release
        (State.setWorker { s with selector := .handling keys } w
          { s.workers w with monitor := none })
  | worker {w : Nat} {a : WorkerAct} {t : State} (hran : Ran poolSize s w t) :
      Stepped poolSize s (.worker w a) t

theorem step_cases {poolSize : Nat} {s t : State} {a : Act} (h : step poolSize s a = some t) :
    Stepped poolSize s a t := by
  cases a with
  | accept key =>
    simp only [step] at h
    split at h
    · rename_i keys hsel
      rw [Option.ite_none_left_eq_some, Bool.not_eq_true, Option.some.injEq] at h
      obtain ⟨hnew, rfl⟩ := h
      exact .accept hsel hnew
    · exact absurd h (by simp)
  | select keys =>
    simp only [step] at h
    split at h
    · rename_i hsel
      rw [Option.ite_none_right_eq_some, Option.some.injEq] at h
      obtain ⟨⟨hnodup, hkeys⟩, rfl⟩ := h
      exact .select hsel hnodup hkeys
    · exact absurd h (by simp)
  | next =>
    simp only [step] at h
    split at h
    · rename_i hsel
      cases h
      exact .handled hsel
    · rename_i key keys hsel
      split at h
      · split at h
        · rename_i hidle
          cases h
          exact .nobody hsel hidle
        · rename_i w idle hidle
          cases h
          exact .somebody hsel hidle
      · rename_i hclosed
        cases h
        exact .cancelled hsel hclosed
    · exact absurd h (by simp)
  | acquire =>
    simp only [step] at h
    split at h
    · rename_i w key keys hsel
      rw [Option.ite_none_right_eq_some, Option.some.injEq] at h
      obtain ⟨hnone, rfl⟩ := h
      exact .acquire hsel hnone
    · exact absurd h (by simp)
  | service =>
    simp only [step] at h
    split at h
    · rename_i w key keys hsel
      split at h
      · rename_i hopen
        cases h
        exact .service hsel hopen
      · rename_i hclosed
        cases h
        exact .refused hsel hclosed
    · exact absurd h (by simp)
  | release =>
    simp only [step] at h
    split at h
    · rename_i w keys hsel
      cases h
      exact .release hsel
    · exact absurd h (by simp)
  | worker w a => exact .worker (run_cases h)

/-! ## 4. Owners -/

/-- The channel that a worker owns: that of its key, until the worker is done with it. -/
def Worker.owns (worker : Worker) : Option Key :=
  match worker.pc with
  | .done => none
  | .returning => none
  | _ => worker.key

/-- `some false` for an open channel without OP_READ, `none` for one that is not open. -/
def Channel.flag (channel : Channel) : Option Bool :=
  if channel.registered && channel.isOpen then some channel.interest else none

def State.owns (s : State) (w : Nat) : Option Key := (s.workers w).owns

def State.flag (s : State) (key : Key) : Option Bool := (s.channels key).flag

/-- Is the worker in `drainChannel` or its `catch` block, at a place where it may still use the
channel? -/
def Pc.drains : Pc → Bool
  | .draining => true
  | .reading => true
  | .writing => true
  | .closing => true
  | .resuming => true
  | .catching => true
  | _ => false

/-- Is the worker at a place where it has a key for sure? -/
def Pc.busy (pc : Pc) : Bool := pc.drains || pc == .done

/-- Is the worker between two tasks, or before the test of a new key? -/
def Pc.resting : Pc → Bool
  | .started => true
  | .ready => true
  | .waiting => true
  | .awakened => true
  | .woken => true
  | _ => false

theorem owns_setWorker (s : State) (w : Nat) (worker : Worker) :
    (s.setWorker w worker).owns = Function.update s.owns w worker.owns := by
  funext v
  simp only [State.owns, State.setWorker, Function.update_apply]
  split <;> rfl

theorem flag_setChannel (s : State) (key : Key) (channel : Channel) :
    (s.setChannel key channel).flag = Function.update s.flag key channel.flag := by
  funext k
  simp only [State.flag, State.setChannel, Function.update_apply]
  split <;> rfl

/-! ## 5. What a step of `drainChannel` does -/

/-- Nobody uses the channel: what was read is written back, unless an exception closed it. -/
structure Channel.Settled (channel : Channel) : Prop where
  echoed : channel.written <+: channel.read
  equal : channel.failed = false → channel.written = channel.read
  sound : channel.isOpen = true → channel.failed = false

theorem echoed_of_eq {written read : List Byte} (h : written = read) : written <+: read :=
  h ▸ List.prefix_rfl

/-- What the owner of a channel knows about it. -/
def Local (worker : Worker) (channel : Channel) : Prop :=
  channel.failed = false ∧
  match worker.pc with
  | .reading => channel.written = channel.read ∧ worker.buffer.position = 0
  | .writing => channel.written ++ worker.buffer.content = channel.read
  | .catching => channel.written <+: channel.read
  | _ => channel.written = channel.read

theorem Local.echoed {worker : Worker} {channel : Channel} (h : Local worker channel) :
    channel.written <+: channel.read := by
  have hl := h.2
  split at hl
  · exact echoed_of_eq hl.1
  · exact hl ▸ List.prefix_append _ _
  · exact hl
  · exact echoed_of_eq hl

theorem Local.equal {worker : Worker} {channel : Channel} (h : Local worker channel)
    (hpc : worker.pc.drains = false) : channel.written = channel.read := by
  have hl := h.2
  split at hl
  · exact hl.1
  · rename_i hw
    rw [hw] at hpc
    cases hpc
  · rename_i hw
    rw [hw] at hpc
    cases hpc
  · exact hl

/-- A step of `drainChannel` keeps the channel, or is the last one that uses it. -/
inductive Drained (worker : Worker) (channel : Channel) (worker' : Worker) (channel' : Channel) :
    Prop where
  | keeps (hpc : worker'.pc.drains = true) (hflag : channel'.flag = channel.flag)
      (hlocal : Local worker channel → Local worker' channel')
  | ends (hpc : worker'.pc = .done) (hflag : channel'.flag ≠ some false)
      (hsettled : Local worker channel → channel'.Settled)

/-- **Everything a step of `drainChannel` can do.** -/
theorem drainChannel_spec {worker worker' : Worker} {channel channel' : Channel} {a : DrainAct}
    (h : drainChannel worker channel a = some (worker', channel')) :
    worker'.key = worker.key ∧ worker'.monitor = worker.monitor ∧ worker.pc.drains = true ∧
    Drained worker channel worker' channel' := by
  cases a with
  | clear =>
    simp only [drainChannel, Option.ite_none_right_eq_some, Option.some.injEq, Prod.mk.injEq] at h
    obtain ⟨hpc, rfl, rfl⟩ := h
    refine ⟨rfl, rfl, by rw [hpc]; rfl, .keeps rfl rfl ?_⟩
    intro hl
    simp only [Local, hpc] at hl ⊢
    exact ⟨hl.1, hl.2, rfl⟩
  | read bytes =>
    simp only [drainChannel, Option.ite_none_right_eq_some, Option.map_eq_some_iff,
      Prod.mk.injEq] at h
    obtain ⟨⟨hpc, -, -⟩, buffer, hput, rfl, rfl⟩ := h
    refine ⟨rfl, rfl, by rw [hpc]; rfl, .keeps rfl rfl ?_⟩
    intro hl
    simp only [Local, hpc] at hl ⊢
    refine ⟨hl.1, ?_⟩
    rw [ByteBuffer.content_flip_put hl.2.2 hput, hl.2.1]
  | nothing =>
    simp only [drainChannel, Option.ite_none_right_eq_some, Option.some.injEq, Prod.mk.injEq] at h
    obtain ⟨⟨hpc, -⟩, rfl, rfl⟩ := h
    refine ⟨rfl, rfl, by rw [hpc]; rfl, .keeps rfl rfl ?_⟩
    intro hl
    simp only [Local, hpc] at hl ⊢
    exact ⟨hl.1, hl.2.1⟩
  | eof =>
    simp only [drainChannel, Option.ite_none_right_eq_some, Option.some.injEq, Prod.mk.injEq] at h
    obtain ⟨⟨hpc, -⟩, rfl, rfl⟩ := h
    refine ⟨rfl, rfl, by rw [hpc]; rfl, .keeps rfl rfl ?_⟩
    intro hl
    simp only [Local, hpc] at hl ⊢
    exact ⟨hl.1, hl.2.1⟩
  | write n =>
    simp only [drainChannel, Option.ite_none_right_eq_some, Option.map_eq_some_iff, Prod.exists,
      Prod.mk.injEq] at h
    obtain ⟨⟨hpc, -, -⟩, bytes, buffer, htake, rfl, rfl⟩ := h
    refine ⟨rfl, rfl, by rw [hpc]; rfl, .keeps (by simp only [hpc]; rfl) rfl ?_⟩
    intro hl
    simp only [Local, hpc] at hl ⊢
    refine ⟨hl.1, ?_⟩
    rw [List.append_assoc, ByteBuffer.content_take htake, hl.2]
  | written =>
    simp only [drainChannel, Option.ite_none_right_eq_some, Option.some.injEq, Prod.mk.injEq] at h
    obtain ⟨⟨hpc, hnone⟩, rfl, rfl⟩ := h
    refine ⟨rfl, rfl, by rw [hpc]; rfl, .keeps rfl rfl ?_⟩
    intro hl
    simp only [Local, hpc] at hl ⊢
    have hrest := hl.2
    rw [ByteBuffer.hasRemaining_eq_false_iff.mp hnone, List.append_nil] at hrest
    exact ⟨hl.1, hrest⟩
  | close =>
    simp only [drainChannel, Option.ite_none_right_eq_some, Option.some.injEq, Prod.mk.injEq] at h
    obtain ⟨hpc, rfl, rfl⟩ := h
    refine ⟨rfl, rfl, by rw [hpc]; rfl, .ends rfl (by simp [Channel.flag]) ?_⟩
    intro hl
    simp only [Local, hpc] at hl
    exact ⟨echoed_of_eq hl.2, fun _ => hl.2, fun hopen => by cases hopen⟩
  | resume =>
    simp only [drainChannel, Option.ite_none_right_eq_some] at h
    obtain ⟨hpc, h⟩ := h
    split at h
    · cases h
      refine ⟨rfl, rfl, by rw [hpc]; rfl, .ends rfl ?_ ?_⟩
      · simp only [Channel.flag]
        split <;> simp
      · intro hl
        simp only [Local, hpc] at hl
        exact ⟨echoed_of_eq hl.2, fun _ => hl.2, fun _ => hl.1⟩
    · cases h
      refine ⟨rfl, rfl, by rw [hpc]; rfl, .keeps rfl rfl ?_⟩
      intro hl
      simp only [Local, hpc] at hl ⊢
      exact ⟨hl.1, echoed_of_eq hl.2⟩
  | fail =>
    simp only [drainChannel, Option.ite_none_right_eq_some, Option.some.injEq, Prod.mk.injEq] at h
    obtain ⟨hpc, rfl, rfl⟩ := h
    refine ⟨rfl, rfl, by rcases hpc with h | h | h <;> rw [h] <;> rfl, .keeps rfl rfl ?_⟩
    intro hl
    rcases hpc with hpc | hpc | hpc <;> simp only [Local, hpc] at hl ⊢
    · exact ⟨hl.1, echoed_of_eq hl.2.1⟩
    · exact ⟨hl.1, hl.2 ▸ List.prefix_append _ _⟩
    · exact ⟨hl.1, echoed_of_eq hl.2⟩
  | handle =>
    simp only [drainChannel, Option.ite_none_right_eq_some, Option.some.injEq, Prod.mk.injEq] at h
    obtain ⟨hpc, rfl, rfl⟩ := h
    refine ⟨rfl, rfl, by rw [hpc]; rfl, .ends rfl (by simp [Channel.flag]) ?_⟩
    intro hl
    simp only [Local, hpc] at hl
    exact ⟨hl.2, fun hfailed => (by cases hfailed), fun hopen => (by cases hopen)⟩

/-! ## 6. The staff: which workers are free -/

/-- A free worker has no task. -/
def Worker.Free (worker : Worker) : Prop := worker.key = none ∧ worker.pc.resting = true

/-- A worker has a key while it is busy, and none when it returns itself. -/
structure Worker.Keyed (worker : Worker) : Prop where
  busy : worker.pc.busy = true → worker.key ≠ none
  returning : worker.pc = .returning → worker.key = none

/-- `hand` is the worker that the selection loop has taken and not given its key yet. -/
structure Staff (workers : Nat → Worker) (idle : List Nat) (hand : Option Nat) : Prop where
  idle_nodup : idle.Nodup
  idle_free : ∀ w ∈ idle, (workers w).Free
  hand_free : ∀ w, hand = some w → w ∉ idle ∧ (workers w).Free
  keyed : ∀ w, (workers w).Keyed

namespace Staff

variable {workers : Nat → Worker} {idle : List Nat} {hand : Option Nat}

theorem keyed_update (h : Staff workers idle hand) {w : Nat} {x : Worker} (hx : x.Keyed) (v : Nat) :
    (Function.update workers w x v).Keyed := by
  by_cases hvw : v = w
  · subst hvw
    rw [Function.update_self]
    exact hx
  · rw [Function.update_of_ne hvw]
    exact h.keyed v

theorem free_update (w : Nat) {x : Worker} (hx : (workers w).Free → x.Free) {v : Nat}
    (hv : (workers v).Free) : (Function.update workers w x v).Free := by
  by_cases hvw : v = w
  · subst hvw
    rw [Function.update_self]
    exact hx hv
  · rw [Function.update_of_ne hvw]
    exact hv

/-- A worker moves on; if it was free, it is free. -/
theorem setWorker (h : Staff workers idle hand) {w : Nat} {x : Worker} (hx : x.Keyed)
    (hfree : (workers w).Free → x.Free) : Staff (Function.update workers w x) idle hand where
  idle_nodup := h.idle_nodup
  idle_free v hv := free_update w hfree (h.idle_free v hv)
  hand_free v hv := ⟨(h.hand_free v hv).1, free_update w hfree (h.hand_free v hv).2⟩
  keyed := h.keyed_update hx

/-- `getWorker` takes the first idle worker. -/
theorem getWorker {w : Nat} (h : Staff workers (w :: idle) none) : Staff workers idle (some w) where
  idle_nodup := (List.nodup_cons.mp h.idle_nodup).2
  idle_free v hv := h.idle_free v (List.mem_cons_of_mem _ hv)
  hand_free v hv := by
    cases hv
    exact ⟨(List.nodup_cons.mp h.idle_nodup).1, h.idle_free _ List.mem_cons_self⟩
  keyed := h.keyed

/-- The worker in hand gets its key. -/
theorem service {w : Nat} (h : Staff workers idle (some w)) {x : Worker} (hx : x.Keyed) :
    Staff (Function.update workers w x) idle none where
  idle_nodup := h.idle_nodup
  idle_free v hv := by
    have hvw : v ≠ w := by
      rintro rfl
      exact (h.hand_free v rfl).1 hv
    rw [Function.update_of_ne hvw]
    exact h.idle_free v hv
  hand_free _ hv := by cases hv
  keyed := h.keyed_update hx

/-- `returnWorker` puts a worker without a key at the end of the idle list. -/
theorem returnWorker (h : Staff workers idle hand) {w : Nat} (hpc : (workers w).pc = .returning)
    {x : Worker} (hx : x.Free) (hkeyed : x.Keyed) :
    Staff (Function.update workers w x) (idle ++ [w]) hand := by
  have hnot : ¬(workers w).Free := by
    intro hfree
    have hresting := hfree.2
    rw [hpc] at hresting
    cases hresting
  have hidle : w ∉ idle := fun hw => hnot (h.idle_free w hw)
  refine ⟨?_, ?_, ?_, h.keyed_update hkeyed⟩
  · exact h.idle_nodup.append (List.nodup_singleton w) (by simpa using hidle)
  · intro v hv
    rcases List.mem_append.mp hv with hv | hv
    · exact free_update w (fun hw => absurd hw hnot) (h.idle_free v hv)
    · rw [List.mem_singleton.mp hv, Function.update_self]
      exact hx
  · intro v hv
    obtain ⟨hvi, hvf⟩ := h.hand_free v hv
    refine ⟨?_, free_update w (fun hw => absurd hw hnot) hvf⟩
    rw [List.mem_append, List.mem_singleton]
    rintro (hmem | rfl)
    · exact hvi hmem
    · exact hnot hvf

end Staff

/-! ## 7. The custody of the channels -/

/-- The worker that the selection loop has in hand. -/
def SelectorPc.hand : SelectorPc → Option Nat
  | .handing w _ _ => some w
  | .servicing w _ _ => some w
  | _ => none

/-- The selected keys that are not handed to a worker yet. -/
def SelectorPc.pending : SelectorPc → List Key
  | .handling keys => keys
  | .handing _ key keys => key :: keys
  | .servicing _ key keys => key :: keys
  | .serviced _ keys => keys
  | _ => []

structure Inv (s : State) : Prop where
  staff : Staff s.workers s.idle s.selector.hand
  /-- An open channel without OP_READ has exactly one owner. -/
  exclusive : Lease.Exclusive s.flag s.owns
  governed : Lease.Governed Worker.owns Channel.Settled (fun _ => Local) s.workers s.channels
  pending_nodup : s.selector.pending.Nodup
  pending : ∀ key ∈ s.selector.pending, s.flag key = some true

theorem flag_eq_true_iff {s : State} {key : Key} : s.flag key = some true ↔
    (s.channels key).registered = true ∧ (s.channels key).isOpen = true ∧
      (s.channels key).interest = true := by
  unfold State.flag Channel.flag
  split
  · rename_i h
    obtain ⟨hr, ho⟩ := Bool.and_eq_true_iff.mp h
    simp [hr, ho]
  · rename_i h
    simp only [reduceCtorEq, false_iff]
    rintro ⟨hr, ho, -⟩
    exact h (by rw [hr, ho]; rfl)

theorem inv_init (poolSize : Nat) : Inv (machine poolSize).init where
  staff :=
    { idle_nodup := List.nodup_range
      idle_free := fun _ _ => ⟨rfl, rfl⟩
      hand_free := fun _ h => by cases h
      keyed := fun _ => ⟨fun h => (by cases h), fun h => (by cases h)⟩ }
  exclusive := Lease.exclusive_of_free (fun _ h => by cases h) fun _ => rfl
  governed :=
    { free := fun _ _ => ⟨List.prefix_rfl, fun _ => rfl, fun h => by cases h⟩
      held := fun _ _ h => by cases h }
  pending_nodup := List.nodup_nil
  pending := fun _ h => by cases h

/-- A worker moves on by itself: it owns what it owned, and has nothing in its buffer. -/
theorem Inv.setWorker {s : State} (hi : Inv s) {w : Nat} {x : Worker} (hkeyed : x.Keyed)
    (hfree : (s.workers w).Free → x.Free) (howns : x.owns = (s.workers w).owns)
    (hlocal : ∀ channel, Local (s.workers w) channel → Local x channel) : Inv (s.setWorker w x) where
  staff := hi.staff.setWorker hkeyed hfree
  exclusive := by
    rw [owns_setWorker, howns]
    have hsame : Function.update s.owns w (s.workers w).owns = s.owns :=
      Function.update_eq_self w s.owns
    rw [hsame]
    exact hi.exclusive
  governed := by
    refine hi.governed.setParty ?_ ?_
    · intro key hkey
      rw [howns] at hkey
      exact hlocal _ (hi.governed.held w key hkey)
    · intro key hkey hnot
      rw [howns] at hnot
      exact absurd hkey hnot
  pending_nodup := hi.pending_nodup
  pending := hi.pending

/-- Nothing changes but the place of the selection loop, the idle list and monitors. -/
theorem Inv.setSelector {s : State} (hi : Inv s) {idle : List Nat} {selector : SelectorPc}
    (hstaff : Staff s.workers idle selector.hand) (hnodup : selector.pending.Nodup)
    (hpending : ∀ key ∈ selector.pending, s.flag key = some true) :
    Inv { s with idle, selector } where
  staff := hstaff
  exclusive := hi.exclusive
  governed := hi.governed
  pending_nodup := hnodup
  pending := hpending

theorem Inv.unowned {s : State} (hi : Inv s) {key : Key} (h : s.flag key ≠ some false) (w : Nat) :
    s.owns w ≠ some key :=
  fun hw => h ((hi.exclusive.down_iff key).mpr ⟨w, hw⟩)

/-- The key of `serviceChannel` is valid. -/
theorem Inv.open_of_servicing {s : State} (hi : Inv s) {w : Nat} {key : Key} {keys : List Key}
    (hsel : s.selector = .servicing w key keys) : (s.channels key).isOpen = true := by
  have hpending := hi.pending key
  rw [hsel] at hpending
  exact (flag_eq_true_iff.mp (hpending List.mem_cons_self)).2.1

/-- A new channel is registered. -/
theorem Inv.accept {s : State} (hi : Inv s) {key : Key}
    (hnew : (s.channels key).registered = false) : Inv (s.setChannel key .accepted) := by
  have hnone : s.flag key = none := by
    simp only [State.flag, Channel.flag, hnew, Bool.false_and]
    rfl
  refine ⟨hi.staff, ?_, ?_, hi.pending_nodup, ?_⟩
  · rw [flag_setChannel]
    exact hi.exclusive.add hnone
  · refine hi.governed.setRes (fun _ => ⟨List.prefix_rfl, fun _ => rfl, fun _ => rfl⟩) ?_
    exact fun w hw => absurd hw (hi.unowned (by rw [hnone]; simp) w)
  · intro k hk
    rw [flag_setChannel]
    by_cases hkk : k = key
    · subst hkk
      rw [Function.update_self]
      rfl
    · rw [Function.update_of_ne hkk]
      exact hi.pending k hk

theorem owns_of_drains {x : Worker} (h : x.pc.drains = true) : x.owns = x.key := by
  unfold Worker.owns
  cases hpc : x.pc <;> rw [hpc] at h <;> first | rfl | cases h

theorem keyed_of_key {x : Worker} {key : Key} (hkey : x.key = some key)
    (hpc : x.pc ≠ .returning) : x.Keyed where
  busy _ := by
    rw [hkey]
    simp
  returning hret := absurd hret hpc

theorem owns_of_resting {x : Worker} (h : x.pc.resting = true) : x.owns = x.key := by
  unfold Worker.owns
  cases hpc : x.pc <;> rw [hpc] at h <;> first | rfl | cases h

theorem local_of_resting {x : Worker} {channel : Channel} (h : x.pc.resting = true)
    (hfailed : channel.failed = false) (heq : channel.written = channel.read) :
    Local x channel := by
  refine ⟨hfailed, ?_⟩
  cases hpc : x.pc <;> rw [hpc] at h <;> first | exact heq | cases h

theorem keyed_of_resting {x : Worker} (h : x.pc.resting = true) : x.Keyed := by
  constructor <;> intro hpc
  · cases hx : x.pc <;> rw [hx] at h hpc <;> first | exact absurd hpc (by decide) | cases h
  · rw [hpc] at h
    cases h

/-- `serviceChannel`: the worker in hand becomes the owner of the channel. -/
theorem Inv.service {s : State} (hi : Inv s) {w : Nat} {key : Key} {keys : List Key}
    (hsel : s.selector = .servicing w key keys) {x : Worker}
    (hx : x.key = some key) (hresting : x.pc.resting = true) :
    Inv (State.setWorker
      (State.setChannel { s with selector := .serviced w keys } key
        { s.channels key with interest := false }) w x) := by
  have hstaff := hi.staff
  have hpending := hi.pending
  have hnodup := hi.pending_nodup
  rw [hsel] at hstaff hpending hnodup
  have hflag : s.flag key = some true := hpending key List.mem_cons_self
  obtain ⟨hreg, hopen, -⟩ := flag_eq_true_iff.mp hflag
  have hfree : s.owns w = none := by
    have hw := (hstaff.hand_free w rfl).2
    rw [State.owns, owns_of_resting hw.2, hw.1]
  have hunowned : ∀ v, s.owns v ≠ some key := hi.unowned (by rw [hflag]; simp)
  have hsettled : (s.channels key).Settled := hi.governed.free key hunowned
  have hxowns : x.owns = some key := (owns_of_resting hresting).trans hx
  refine ⟨hstaff.service (keyed_of_resting hresting), ?_, ?_, ?_, ?_⟩
  · rw [owns_setWorker, hxowns]
    have hoff : Channel.flag { s.channels key with interest := false } = some false := by
      simp only [Channel.flag, hreg, hopen, Bool.and_self, if_true]
    have hacquired := hi.exclusive.acquire hflag hfree
    rw [← hoff, ← flag_setChannel] at hacquired
    exact hacquired
  · have hres := hi.governed.setRes (k := key)
      (r := { s.channels key with interest := false })
      (fun h => ⟨h.echoed, h.equal, h.sound⟩) fun v hv => absurd hv (hunowned v)
    refine hres.setParty ?_ ?_
    · intro k hk
      rw [hxowns, Option.some.injEq] at hk
      subst hk
      rw [Function.update_self]
      exact local_of_resting hresting (hsettled.sound hopen)
        (hsettled.equal (hsettled.sound hopen))
    · intro k hk
      exact absurd hk (by rw [show (s.workers w).owns = none from hfree]; simp)
  · exact (List.nodup_cons.mp hnodup).2
  · intro k hk
    have hkk : k ≠ key := by
      rintro rfl
      exact (List.nodup_cons.mp hnodup).1 hk
    show (State.setChannel s key _).flag k = some true
    rw [flag_setChannel, Function.update_of_ne hkk]
    exact hpending k (List.mem_cons_of_mem _ hk)

/-- A step of `drainChannel`: the worker keeps the channel, or is done with it. -/
theorem Inv.drain {s : State} (hi : Inv s) {w : Nat} {key : Key} {a : DrainAct} {x : Worker}
    {channel : Channel} (hkey : (s.workers w).key = some key)
    (h : drainChannel (s.workers w) (s.channels key) a = some (x, channel)) :
    Inv ((s.setChannel key channel).setWorker w x) := by
  obtain ⟨hxkey, -, hdrains, hdrained⟩ := drainChannel_spec h
  have howns : s.owns w = some key := (owns_of_drains hdrains).trans hkey
  have hlocal : Local (s.workers w) (s.channels key) := hi.governed.held w key howns
  have hdown : s.flag key = some false := (hi.exclusive.down_iff key).mpr ⟨w, howns⟩
  have hnot : ¬(s.workers w).Free := by
    intro hfree
    rw [hfree.1] at hkey
    cases hkey
  have hnotin : ∀ k ∈ s.selector.pending, k ≠ key := by
    rintro k hk rfl
    have hup := hi.pending k hk
    rw [hdown] at hup
    cases hup
  have hpending : ∀ k ∈ s.selector.pending,
      ((s.setChannel key channel).setWorker w x).flag k = some true := by
    intro k hk
    show (s.setChannel key channel).flag k = some true
    rw [flag_setChannel, Function.update_of_ne (hnotin k hk)]
    exact hi.pending k hk
  have hflag : ((s.setChannel key channel).setWorker w x).flag
      = Function.update s.flag key channel.flag := flag_setChannel s key channel
  cases hdrained with
  | keeps hpc hsame hkeep =>
    have hxowns : x.owns = some key := (owns_of_drains hpc).trans (hxkey.trans hkey)
    have hkeyed : x.Keyed := by
      refine keyed_of_key (hxkey.trans hkey) ?_
      intro hret
      rw [hret] at hpc
      cases hpc
    refine ⟨hi.staff.setWorker hkeyed fun hfree => absurd hfree hnot, ?_, ?_, hi.pending_nodup,
      hpending⟩
    · rw [hflag, owns_setWorker, hxowns, hsame]
      have hf : Function.update s.flag key (s.channels key).flag = s.flag :=
        Function.update_eq_self key s.flag
      have ho : Function.update (s.setChannel key channel).owns w (some key) = s.owns := by
        rw [← howns]
        exact Function.update_eq_self w s.owns
      rw [hf, ho]
      exact hi.exclusive
    · exact hi.governed.setBoth hi.exclusive.unique howns (Or.inl ⟨hxowns, hkeep hlocal⟩)
  | ends hpc hup hsettled =>
    have hxowns : x.owns = none := by rw [Worker.owns, hpc]
    have hkeyed : x.Keyed := by
      refine keyed_of_key (hxkey.trans hkey) ?_
      rw [hpc]
      simp
    refine ⟨hi.staff.setWorker hkeyed fun hfree => absurd hfree hnot, ?_, ?_, hi.pending_nodup,
      hpending⟩
    · rw [hflag, owns_setWorker, hxowns]
      exact hi.exclusive.release howns hup
    · exact hi.governed.setBoth hi.exclusive.unique howns (Or.inr ⟨hxowns, hsettled hlocal⟩)

/-! ## 8. Every step -/

/-- Between two tasks, a worker may go anywhere between two tasks. -/
theorem Inv.rest {s : State} (hi : Inv s) {w : Nat} {x : Worker} (hkey : x.key = (s.workers w).key)
    (hold : (s.workers w).pc.resting = true) (hnew : x.pc.resting = true) :
    Inv (s.setWorker w x) := by
  refine hi.setWorker (keyed_of_resting hnew) (fun hfree => ⟨hkey.trans hfree.1, hnew⟩) ?_ ?_
  · rw [owns_of_resting hnew, owns_of_resting hold, hkey]
  · intro channel hl
    refine local_of_resting hnew hl.1 ?_
    have heq := hl.2
    cases hpc : (s.workers w).pc <;> rw [hpc] at hold heq <;> first | exact heq | cases hold

theorem run_inv {poolSize : Nat} {s t : State} {w : Nat} (hi : Inv s) (h : Ran poolSize s w t) :
    Inv t := by
  cases h with
  | enter _ hpc _ => exact hi.rest rfl (by rw [hpc]; rfl) rfl
  | wait hpc => exact hi.rest rfl (by rw [hpc]; rfl) rfl
  | wakeup hpc => exact hi.rest rfl (by rw [hpc]; rfl) rfl
  | reacquire hpc _ => exact hi.rest rfl (by rw [hpc]; rfl) rfl
  | again hpc _ => exact hi.rest rfl (by rw [hpc]; rfl) rfl
  | begin hpc hkey =>
    refine hi.setWorker ⟨fun _ => hkey, fun hret => (by cases hret)⟩
      (fun hfree => absurd hfree.1 hkey) ?_ ?_
    · simp only [Worker.owns, hpc]
    · intro channel hl
      simp only [Local, hpc] at hl ⊢
      exact hl
  | drain hkey hdrain => exact hi.drain hkey hdrain
  | forget hpc =>
    refine hi.setWorker ⟨fun hbusy => (by cases hbusy), fun _ => rfl⟩ ?_ ?_ ?_
    · intro hfree
      have hresting := hfree.2
      rw [hpc] at hresting
      cases hresting
    · simp only [Worker.owns, hpc]
    · intro channel hl
      simp only [Local, hpc] at hl ⊢
      exact hl
  | returnWorker hpc =>
    have hnone : (s.workers w).key = none := (hi.staff.keyed w).returning hpc
    have hmoved : Inv (s.setWorker w { s.workers w with pc := .ready }) := by
      refine hi.setWorker (keyed_of_resting rfl) (fun _ => ⟨hnone, rfl⟩) ?_ ?_
      · simp only [Worker.owns, hpc, hnone]
      · intro channel hl
        simp only [Local, hpc] at hl ⊢
        exact hl
    exact ⟨hi.staff.returnWorker hpc ⟨hnone, rfl⟩ (keyed_of_resting rfl), hmoved.exclusive,
      hmoved.governed, hmoved.pending_nodup, hmoved.pending⟩

/-- The monitor of a worker changes hands. -/
theorem Inv.setMonitor {s : State} (hi : Inv s) (w : Nat) (monitor : Option Owner) :
    Inv (s.setWorker w { s.workers w with monitor }) :=
  hi.setWorker ⟨(hi.staff.keyed w).busy, (hi.staff.keyed w).returning⟩ (fun hfree => hfree) rfl
    fun _ hl => hl

theorem step_inv {poolSize : Nat} {s t : State} {a : Act} (hi : Inv s)
    (h : Stepped poolSize s a t) : Inv t := by
  have hstaff := hi.staff
  have hnodup := hi.pending_nodup
  have hpending := hi.pending
  cases h with
  | accept _ hnew => exact hi.accept hnew
  | select hsel hkeysNodup hkeys =>
    rw [hsel] at hstaff
    exact hi.setSelector hstaff hkeysNodup fun key hkey => flag_eq_true_iff.mpr (hkeys key hkey)
  | handled hsel =>
    rw [hsel] at hstaff
    exact hi.setSelector hstaff List.nodup_nil fun key hkey => by cases hkey
  | nobody hsel hidle =>
    rw [hsel] at hstaff hnodup hpending
    exact hi.setSelector hstaff (List.nodup_cons.mp hnodup).2 fun k hk =>
      hpending k (List.mem_cons_of_mem _ hk)
  | somebody hsel hidle =>
    rw [hsel] at hstaff hnodup hpending
    rw [hidle] at hstaff
    exact hi.setSelector hstaff.getWorker hnodup hpending
  | cancelled hsel hclosed =>
    rw [hsel] at hstaff
    exact hi.setSelector hstaff List.nodup_nil fun key hkey => by cases hkey
  | @acquire w key keys hsel _ =>
    rw [hsel] at hstaff hnodup hpending
    have hmoved : Inv { s with selector := .servicing w key keys } :=
      hi.setSelector hstaff hnodup hpending
    exact hmoved.setMonitor w (some .selector)
  | @service w key keys hsel _ =>
    refine hi.service hsel rfl ?_
    rw [hsel] at hstaff
    show (if (s.workers w).pc = .waiting then Pc.awakened else (s.workers w).pc).resting = true
    split
    · rfl
    · exact (hstaff.hand_free w rfl).2.2
  | refused hsel hclosed => exact absurd (hi.open_of_servicing hsel) hclosed
  | @release w keys hsel =>
    rw [hsel] at hstaff hnodup hpending
    have hmoved : Inv { s with selector := .handling keys } :=
      hi.setSelector hstaff hnodup hpending
    exact hmoved.setMonitor w none
  | worker hran => exact run_inv hi hran

theorem reachable_inv {poolSize : Nat} {s : State} (h : (machine poolSize).Reachable s) : Inv s :=
  h.induct (inv_init poolSize) fun _ _ _ _ hi hst => step_inv hi (step_cases hst)

/-- The worker drains the channel of this key. -/
def State.Draining (s : State) (w : Nat) (key : Key) : Prop :=
  (s.workers w).pc.drains = true ∧ (s.workers w).key = some key

theorem owns_of_draining {s : State} {w : Nat} {key : Key} (h : s.Draining w key) :
    s.owns w = some key := by
  obtain ⟨hpc, hkey⟩ := h
  exact (owns_of_drains hpc).trans hkey

theorem key_of_owns {s : State} {w : Nat} {key : Key} (h : s.owns w = some key) :
    (s.workers w).key = some key := by
  rw [State.owns, Worker.owns] at h
  split at h
  · exact absurd h (by simp)
  · exact absurd h (by simp)
  · exact h

/-- **The pool serves every channel with one worker at a time and echoes what it reads.**  In every
reachable state an idle worker is in the list once and without a key; no two workers drain the same
key; what was written back to a channel is a beginning of what was read from it, and all of it
unless a worker is draining the channel or an exception closed it. -/
theorem pool_safe {poolSize : Nat} {s : State} (h : (machine poolSize).Reachable s) :
    (s.idle.Nodup ∧ ∀ w ∈ s.idle, (s.workers w).key = none) ∧
    (∀ w v key, s.Draining w key → s.Draining v key → w = v) ∧
    (∀ key, (s.channels key).written <+: (s.channels key).read ∧
      ((∀ w, ¬s.Draining w key) → (s.channels key).failed = false →
        (s.channels key).written = (s.channels key).read)) := by
  have hi := reachable_inv h
  refine ⟨⟨hi.staff.idle_nodup, fun w hw => (hi.staff.idle_free w hw).1⟩, fun w v key hw hv => ?_,
    fun key => ?_⟩
  · exact hi.exclusive.unique w v key (owns_of_draining hw) (owns_of_draining hv)
  · by_cases hfree : ∀ w, s.owns w ≠ some key
    · have hsettled := hi.governed.free key hfree
      exact ⟨hsettled.echoed, fun _ => hsettled.equal⟩
    · obtain ⟨w, hw⟩ := not_forall_not.mp hfree
      have hlocal : Local (s.workers w) (s.channels key) := hi.governed.held w key hw
      refine ⟨hlocal.echoed, fun hnobody _ => hlocal.equal ?_⟩
      have hkey : (s.workers w).key = some key := key_of_owns hw
      rw [Bool.eq_false_iff]
      exact fun hdrains => hnobody w ⟨hdrains, hkey⟩

/-- Two workers drain channel 4 one after the other; the second is still writing. -/
def handover : List Act :=
  [.select [], .accept 4, .next, .worker 0 .enter, .worker 0 .wait, .worker 1 .enter,
    .worker 1 .wait, .select [4], .next, .acquire, .service, .release, .worker 0 .reacquire,
    .worker 0 .test, .worker 0 (.drain .clear), .worker 0 (.drain (.read [7])),
    .worker 0 (.drain (.write 1)), .worker 0 (.drain .written), .worker 0 (.drain .clear),
    .worker 0 (.drain .nothing), .worker 0 (.drain .resume), .next, .select [4], .next, .acquire,
    .service, .release, .worker 1 .reacquire, .worker 1 .test, .worker 1 (.drain .clear),
    .worker 1 (.drain (.read [8, 9])), .worker 1 (.drain (.write 1))]

theorem pool_safe_handover :
    ∃ s, (machine 2).Reachable s ∧ (s.channels 4).written = [7, 8] ∧
      (s.channels 4).written <+: (s.channels 4).read := by
  have hrun : ((machine 2).run (machine 2).init handover).map (fun s => (s.channels 4).written)
      = some [7, 8] := by decide +kernel
  obtain ⟨s, hs, hwritten⟩ := Option.map_eq_some_iff.mp hrun
  exact ⟨s, ⟨_, hs⟩, hwritten, ((pool_safe ⟨_, hs⟩).2.2 4).1⟩

/-! ## 9. Notifications

`notify` has no memory.  It is lost on a worker that is in `run` only if that is not in `wait`; while
the selection loop has the worker's monitor, such a worker has not entered `run` yet or is on its
way out of `wait`, and then it tests its key. -/

/-- Is the worker in its monitor? -/
def Pc.inside : Pc → Bool
  | .started => false
  | .waiting => false
  | .awakened => false
  | _ => true

/-- The worker whose monitor the selection loop is in. -/
def SelectorPc.serving : SelectorPc → Option Nat
  | .servicing w _ _ => some w
  | .serviced w _ => some w
  | _ => none

/-- Worker number `w` and its monitor; `serving` is the worker that the selection loop serves. -/
structure Turn (poolSize w : Nat) (serving : Option Nat) (worker : Worker) : Prop where
  inside : worker.pc.inside = true → worker.monitor = some .worker
  served : serving = some w → worker.monitor = some .selector
  hired : worker.pc ≠ .started → w < poolSize

structure Turns (poolSize : Nat) (s : State) : Prop where
  turn : ∀ w, Turn poolSize w s.selector.serving (s.workers w)
  idle : ∀ w ∈ s.idle, w < poolSize
  hand : ∀ w, s.selector.hand = some w → w < poolSize

theorem turns_init (poolSize : Nat) : Turns poolSize (machine poolSize).init where
  turn _ := ⟨fun h => (by cases h), fun h => (by cases h), fun h => absurd rfl h⟩
  idle _ h := List.mem_range.mp h
  hand _ h := by cases h

/-- One worker changes, and the selection loop may go on, but not into another worker's monitor. -/
theorem Turns.move {poolSize : Nat} {s : State} (ht : Turns poolSize s) {selector : SelectorPc}
    {w : Nat} {x : Worker} (hx : Turn poolSize w selector.serving x)
    (hothers : ∀ v, v ≠ w → selector.serving = some v → s.selector.serving = some v)
    (hhand : ∀ v, selector.hand = some v → v < poolSize) :
    Turns poolSize (State.setWorker { s with selector } w x) where
  turn v := by
    by_cases hvw : v = w
    · subst hvw
      simp only [State.setWorker, Function.update_self]
      exact hx
    · simp only [State.setWorker, Function.update_of_ne hvw]
      exact ⟨(ht.turn v).inside, fun hs => (ht.turn v).served (hothers v hvw hs), (ht.turn v).hired⟩
  idle := ht.idle
  hand := hhand

theorem Turns.setWorker {poolSize : Nat} {s : State} (ht : Turns poolSize s) {w : Nat} {x : Worker}
    (hx : Turn poolSize w s.selector.serving x) : Turns poolSize (s.setWorker w x) :=
  ht.move hx (fun _ _ hs => hs) ht.hand

/-- Nothing changes but the place of the selection loop, which is in no monitor, and the idle list. -/
theorem Turns.setSelector {poolSize : Nat} {s : State} (ht : Turns poolSize s) {idle : List Nat}
    {selector : SelectorPc} (hserving : selector.serving = none)
    (hidle : ∀ w ∈ idle, w < poolSize) (hhand : ∀ w, selector.hand = some w → w < poolSize) :
    Turns poolSize { s with idle, selector } where
  turn w := by
    refine ⟨(ht.turn w).inside, ?_, (ht.turn w).hired⟩
    intro hs
    rw [hserving] at hs
    cases hs
  idle := hidle
  hand := hhand

/-- A worker that is in its monitor stays there. -/
theorem Turn.stay {poolSize w : Nat} {serving : Option Nat} {worker x : Worker}
    (h : Turn poolSize w serving worker) (hin : worker.pc.inside = true)
    (hmonitor : x.monitor = worker.monitor) : Turn poolSize w serving x where
  inside _ := hmonitor.trans (h.inside hin)
  served hs := hmonitor.trans (h.served hs)
  hired _ := by
    refine h.hired ?_
    intro hstarted
    rw [hstarted] at hin
    cases hin

/-- Nobody is in the monitor, and the worker comes in. -/
theorem Turn.comeIn {poolSize w : Nat} {serving : Option Nat} {worker x : Worker}
    (h : Turn poolSize w serving worker) (hnone : worker.monitor = none)
    (hx : x.monitor = some .worker) (hw : w < poolSize) : Turn poolSize w serving x where
  inside _ := hx
  served hs := by
    have hselector := h.served hs
    rw [hnone] at hselector
    cases hselector
  hired _ := hw

/-- While the selection loop is in the monitor, the worker is not. -/
theorem Turn.outside {poolSize w : Nat} {serving : Option Nat} {worker : Worker}
    (h : Turn poolSize w serving worker) (hserving : serving = some w) :
    worker.pc.inside = false := by
  rw [Bool.eq_false_iff]
  intro hin
  have hworker := h.inside hin
  rw [h.served hserving] at hworker
  cases hworker

/-- The selection loop gives the worker its key and notifies it. -/
theorem Turn.serviced {poolSize w : Nat} {serving : Option Nat} {worker : Worker}
    (h : Turn poolSize w serving worker) (hserving : serving = some w) (key : Key) :
    Turn poolSize w (some w)
      { worker with
        key := some key
        pc := if worker.pc = .waiting then .awakened else worker.pc } where
  inside hin := by
    split at hin
    · cases hin
    · exact h.inside hin
  served _ := h.served hserving
  hired hpc := by
    refine h.hired fun hstarted => hpc ?_
    rw [hstarted]
    rfl

/-- The selection loop leaves the monitor. -/
theorem Turn.leave {poolSize w : Nat} {serving : Option Nat} {worker x : Worker}
    (h : Turn poolSize w serving worker) (hserving : serving = some w) (hpc : x.pc = worker.pc) :
    Turn poolSize w none x where
  inside hin := by
    rw [hpc, h.outside hserving] at hin
    cases hin
  served hs := by cases hs
  hired hstarted := by
    rw [hpc] at hstarted
    exact h.hired hstarted

theorem run_turns {poolSize : Nat} {s t : State} {w : Nat} (ht : Turns poolSize s)
    (h : Ran poolSize s w t) : Turns poolSize t := by
  have hturn := ht.turn w
  cases h with
  | enter hw _ hnone => exact ht.setWorker (hturn.comeIn hnone rfl hw)
  | wait hpc =>
    have hin : (s.workers w).pc.inside = true := by rw [hpc]; rfl
    refine ht.setWorker ⟨fun hin' => (by cases hin'), ?_, ?_⟩
    · intro hs
      have hmonitor := hturn.inside hin
      rw [hturn.served hs] at hmonitor
      cases hmonitor
    · intro _
      exact hturn.hired (by rw [hpc]; simp)
  | wakeup hpc =>
    exact ht.setWorker ⟨fun hin => (by cases hin), hturn.served,
      fun _ => hturn.hired (by rw [hpc]; simp)⟩
  | reacquire hpc hnone =>
    exact ht.setWorker (hturn.comeIn hnone rfl (hturn.hired (by rw [hpc]; simp)))
  | again hpc _ => exact ht.setWorker (hturn.stay (by rw [hpc]; rfl) rfl)
  | begin hpc _ => exact ht.setWorker (hturn.stay (by rw [hpc]; rfl) rfl)
  | @drain key a x channel hkey hdrain =>
    obtain ⟨-, hmonitor, hdrains, -⟩ := drainChannel_spec hdrain
    have hin : (s.workers w).pc.inside = true := by
      cases hpc : (s.workers w).pc <;> rw [hpc] at hdrains <;> first | rfl | cases hdrains
    have hset : Turns poolSize (s.setWorker w x) := ht.setWorker (hturn.stay hin hmonitor)
    exact ⟨hset.turn, hset.idle, hset.hand⟩
  | forget hpc => exact ht.setWorker (hturn.stay (by rw [hpc]; rfl) rfl)
  | returnWorker hpc =>
    have hset : Turns poolSize (s.setWorker w { s.workers w with pc := .ready }) :=
      ht.setWorker (hturn.stay (by rw [hpc]; rfl) rfl)
    refine ⟨hset.turn, ?_, hset.hand⟩
    intro v hv
    rcases List.mem_append.mp hv with hv | hv
    · exact ht.idle v hv
    · rw [List.mem_singleton.mp hv]
      exact hturn.hired (by rw [hpc]; simp)

theorem step_turns {poolSize : Nat} {s t : State} {a : Act} (ht : Turns poolSize s)
    (h : Stepped poolSize s a t) : Turns poolSize t := by
  have hidle := ht.idle
  have hhand := ht.hand
  cases h with
  | accept _ _ => exact ⟨ht.turn, ht.idle, ht.hand⟩
  | select _ _ _ => exact ht.setSelector rfl hidle fun w hw => by cases hw
  | handled _ => exact ht.setSelector rfl hidle fun w hw => by cases hw
  | nobody _ _ => exact ht.setSelector rfl hidle fun w hw => by cases hw
  | somebody _ hcons =>
    rw [hcons] at hidle
    refine ht.setSelector rfl (fun v hv => hidle v (List.mem_cons_of_mem _ hv)) ?_
    intro v hv
    cases hv
    exact hidle _ List.mem_cons_self
  | cancelled _ _ => exact ht.setSelector rfl hidle fun w hw => by cases hw
  | @acquire w key keys hsel hnone =>
    rw [hsel] at hhand
    refine ht.move ⟨?_, fun _ => rfl, (ht.turn w).hired⟩ ?_ hhand
    · intro hin
      have hworker := (ht.turn w).inside hin
      rw [hnone] at hworker
      cases hworker
    · intro v hvw hs
      exact absurd (Option.some.inj hs).symm hvw
  | @service w key keys hsel _ =>
    have hserving : s.selector.serving = some w := by rw [hsel]; rfl
    have hmoved : Turns poolSize (State.setWorker { s with selector := .serviced w keys } w _) :=
      ht.move ((ht.turn w).serviced hserving key) (fun v _ hs => hserving.trans hs) fun v hv => by
        cases hv
    exact ⟨hmoved.turn, hmoved.idle, hmoved.hand⟩
  | @refused w key keys hsel _ =>
    have hserving : s.selector.serving = some w := by rw [hsel]; rfl
    exact ht.move ((ht.turn w).leave hserving rfl) (fun _ _ hs => by cases hs) fun v hv => by
      cases hv
  | @release w keys hsel =>
    have hserving : s.selector.serving = some w := by rw [hsel]; rfl
    exact ht.move ((ht.turn w).leave hserving rfl) (fun _ _ hs => by cases hs) fun v hv => by
      cases hv
  | worker hran => exact run_turns ht hran

theorem reachable_turns {poolSize : Nat} {s : State} (h : (machine poolSize).Reachable s) :
    Turns poolSize s :=
  h.induct (turns_init poolSize) fun _ _ _ _ ht hst => step_turns ht (step_cases hst)

/-- Does `serviceChannel` run before its worker has entered `run`? -/
def State.early (s : State) : Act → Bool
  | .service =>
    match s.selector with
    | .servicing w _ _ => (s.workers w).pc == .started
    | _ => false
  | _ => false

/-- Is the worker on its way into `wait`, or in it? -/
def Pc.listens : Pc → Bool
  | .started => true
  | .ready => true
  | .waiting => true
  | _ => false

theorem listens_of_drains {pc : Pc} (h : pc.drains = true) : pc.listens = false := by
  cases pc <;> first | rfl | cases h

/-- A worker that is out of its monitor and has entered `run` gets the notification, or tests its
key next. -/
theorem listens_of_notify {pc : Pc} (hout : pc.inside = false) (hstarted : pc ≠ .started) :
    (if pc = .waiting then Pc.awakened else pc).listens = false := by
  cases pc <;> first | rfl | exact absurd rfl hstarted | cases hout

/-- A worker that waits, or is going to wait, has no key. -/
def Listening (s : State) : Prop :=
  ∀ w, (s.workers w).pc.listens = true → (s.workers w).key = none

theorem Listening.setWorker {s : State} (hl : Listening s) {w : Nat} {x : Worker}
    (hx : x.pc.listens = true → x.key = none) : Listening (s.setWorker w x) := by
  intro v hv
  by_cases hvw : v = w
  · subst hvw
    simp only [State.setWorker, Function.update_self] at hv ⊢
    exact hx hv
  · simp only [State.setWorker, Function.update_of_ne hvw] at hv ⊢
    exact hl v hv

theorem run_listening {poolSize : Nat} {s t : State} {w : Nat} (hi : Inv s) (hl : Listening s)
    (h : Ran poolSize s w t) : Listening t := by
  cases h with
  | enter _ hpc _ => exact hl.setWorker fun _ => hl w (by rw [hpc]; rfl)
  | wait hpc => exact hl.setWorker fun _ => hl w (by rw [hpc]; rfl)
  | wakeup _ => exact hl.setWorker fun hx => by cases hx
  | reacquire _ _ => exact hl.setWorker fun hx => by cases hx
  | again _ hkey => exact hl.setWorker fun _ => hkey
  | begin _ _ => exact hl.setWorker fun hx => by cases hx
  | @drain key a x channel _ hdrain =>
    obtain ⟨-, -, -, hdrained⟩ := drainChannel_spec hdrain
    have hset : Listening (s.setWorker w x) := by
      refine hl.setWorker ?_
      intro hx
      cases hdrained with
      | keeps hpc _ _ =>
        rw [listens_of_drains hpc] at hx
        cases hx
      | ends hpc _ _ =>
        rw [hpc] at hx
        cases hx
    exact hset
  | forget _ => exact hl.setWorker fun hx => by cases hx
  | returnWorker hpc =>
    have hset : Listening (s.setWorker w { s.workers w with pc := .ready }) :=
      hl.setWorker fun _ => (hi.staff.keyed w).returning hpc
    exact hset

theorem step_listening {poolSize : Nat} {s t : State} {a : Act} (hi : Inv s)
    (ht : Turns poolSize s) (hl : Listening s) (hearly : s.early a = false)
    (h : Stepped poolSize s a t) : Listening t := by
  cases h with
  | accept _ _ => exact hl
  | select _ _ _ => exact hl
  | handled _ => exact hl
  | nobody _ _ => exact hl
  | somebody _ _ => exact hl
  | cancelled _ _ => exact hl
  | acquire _ _ => exact hl.setWorker (hl _)
  | @service w key keys hsel _ =>
    have hstarted : (s.workers w).pc ≠ .started := by
      simpa only [State.early, hsel, beq_eq_false_iff_ne] using hearly
    have hout : (s.workers w).pc.inside = false := (ht.turn w).outside (by rw [hsel]; rfl)
    have hnotified := listens_of_notify hout hstarted
    refine Listening.setWorker (s := State.setChannel { s with selector := _ } key _) hl ?_
    intro hx
    rw [hnotified] at hx
    cases hx
  | refused hsel hclosed => exact absurd (hi.open_of_servicing hsel) hclosed
  | release _ => exact hl.setWorker (hl _)
  | worker hran => exact run_listening hi hl hran

theorem step_enter {poolSize : Nat} {s : State} {w : Nat} (hw : w < poolSize)
    (hpc : (s.workers w).pc = .started) (hmonitor : (s.workers w).monitor = none) :
    (machine poolSize).step s (.worker w .enter)
      = some (s.setWorker w { s.workers w with pc := .ready, monitor := some .worker }) := by
  simp only [machine, step, run, if_pos (And.intro hw (And.intro hpc hmonitor))]

theorem step_wait {poolSize : Nat} {s : State} {w : Nat} (hpc : (s.workers w).pc = .ready) :
    (machine poolSize).step s (.worker w .wait)
      = some (s.setWorker w { s.workers w with pc := .waiting, monitor := none }) := by
  simp only [machine, step, run, if_pos hpc]

/-- A worker that has its key before it enters `run` goes on to wait with it. -/
theorem waits_of_serviced {poolSize : Nat} {s : State} {w : Nat} {keys : List Key}
    (hsel : s.selector = .serviced w keys) (hpc : (s.workers w).pc = .started)
    (hw : w < poolSize) :
    ∃ u, (machine poolSize).Leads s u ∧ (u.workers w).pc = .waiting ∧
      (u.workers w).key = (s.workers w).key := by
  have hrelease : (machine poolSize).step s .release = some (State.setWorker
      { s with selector := .handling keys } w { s.workers w with monitor := none }) := by
    simp only [machine, step, hsel]
  generalize ht : State.setWorker { s with selector := .handling keys } w
    { s.workers w with monitor := none } = t at hrelease
  have hworker : t.workers w = { s.workers w with monitor := none } := by
    rw [← ht]
    exact workers_setWorker_self ..
  have henter := step_enter hw (s := t) (by rw [hworker]; exact hpc) (by rw [hworker])
  generalize hu : t.setWorker w { t.workers w with pc := .ready, monitor := some .worker } = u
    at henter
  have huw : u.workers w = { t.workers w with pc := .ready, monitor := some .worker } := by
    rw [← hu]
    exact workers_setWorker_self ..
  have hwait : (machine poolSize).step u (.worker w .wait) = some _ := step_wait (by rw [huw])
  exact ⟨_, .head hrelease (.head henter (.head hwait (.refl _))), by simp, by simp [huw, hworker]⟩

/-- What is too early leaves a worker that has its key and has not entered `run`. -/
theorem serviced_of_early {poolSize : Nat} {s t : State} {a : Act}
    (hr : (machine poolSize).Reachable s) (hearly : s.early a = true)
    (hst : (machine poolSize).step s a = some t) :
    ∃ w keys, t.selector = .serviced w keys ∧ (t.workers w).pc = .started ∧ w < poolSize ∧
      (t.workers w).key ≠ none := by
  have hhand := (reachable_turns hr).hand
  cases step_cases hst with
  | @service w key keys hsel _ =>
    rw [hsel] at hhand
    have hpc : (s.workers w).pc = .started := by
      simpa only [State.early, hsel, beq_iff_eq] using hearly
    exact ⟨w, keys, rfl, by simp [hpc], hhand w rfl, by simp⟩
  | refused hsel hclosed => exact absurd ((reachable_inv hr).open_of_servicing hsel) hclosed
  | _ => cases hearly

/-- **No wake-up is lost, unless a worker is given a key before it has entered `run`.**  In every
run in which no `serviceChannel` is that early, a worker in `wait` has no key.  And a run whose last
step is one that is so early can be continued from there to a state in which the worker that it has
served waits with its key, out of reach of the notification. -/
theorem wakeup_kept_unless_early (poolSize : Nat) :
    (∀ s, (machine poolSize).Within (fun s a => s.early a = false) s →
      ∀ w, (s.workers w).pc = .waiting → (s.workers w).key = none) ∧
    (∀ s t a, (machine poolSize).Reachable s → s.early a = true →
      (machine poolSize).step s a = some t →
      ∃ w keys u, t.selector = .serviced w keys ∧ (machine poolSize).Leads t u ∧
        (u.workers w).pc = .waiting ∧ (u.workers w).key ≠ none) := by
  constructor
  · intro s h w hpc
    have hl : Listening s := h.induct (fun _ _ => rfl) fun _ _ _ hr hl hearly hst =>
      step_listening (reachable_inv hr) (reachable_turns hr) hl hearly (step_cases hst)
    exact hl w (by rw [hpc]; rfl)
  · intro s t a hr hearly hst
    obtain ⟨w, keys, hsel, hpc, hw, hkey⟩ := serviced_of_early hr hearly hst
    obtain ⟨u, hu, hwait, hsame⟩ := waits_of_serviced hsel hpc hw
    exact ⟨w, keys, u, hsel, hu, hwait, hsame ▸ hkey⟩

/-- The only worker waits, is given the key of a connection that brings two bytes, echoes them, and
waits again. -/
def timely : List Act :=
  [.worker 0 .enter, .worker 0 .wait, .select [], .accept 4, .next, .select [4], .next, .acquire,
    .service, .release, .worker 0 .reacquire, .worker 0 .test, .worker 0 (.drain .clear),
    .worker 0 (.drain (.read [104, 105])), .worker 0 (.drain (.write 2)),
    .worker 0 (.drain .written), .worker 0 (.drain .clear), .worker 0 (.drain .nothing),
    .worker 0 (.drain .resume), .worker 0 .forget, .worker 0 .returnWorker, .worker 0 .wait]

set_option maxRecDepth 8000 in
theorem wakeup_kept_in_time :
    ∃ s, (machine 1).run (machine 1).init timely = some s ∧
      (s.channels 4).written = [104, 105] ∧ (s.workers 0).pc = .waiting ∧
      (s.workers 0).key = none := by
  have hmeets : (machine 1).Meets (fun s a => s.early a = false) (machine 1).init timely := by
    decide
  have h : (machine 1).Within (fun s a => s.early a = false) _ := ⟨timely, rfl, hmeets⟩
  exact ⟨_, rfl, rfl, rfl, (wakeup_kept_unless_early 1).1 _ h 0 rfl⟩

/-- A connection comes in and is served before the only worker has entered `run`. -/
def hasty : List Act :=
  [.select [], .accept 4, .next, .select [4], .next, .acquire, .service, .release,
    .worker 0 .enter, .worker 0 .wait]

/-- **A wake-up is lost**: the worker waits with its key, and nobody will notify it. -/
theorem wakeup_lost :
    ¬ ∀ (poolSize : Nat) (s : State), (machine poolSize).Reachable s →
      ∀ w, (s.workers w).pc = .waiting → (s.workers w).key = none := by
  intro h
  have hkey := h 1 _ ⟨hasty, rfl⟩ 0 rfl
  cases hkey

end SelectSocketsThreadPool
end JavaStudy
