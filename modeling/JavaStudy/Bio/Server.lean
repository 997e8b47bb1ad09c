/-
# `TcpIpBIOServer.server`: one acceptor, and runnables that are used again

The acceptor takes a connection, looks for a runnable whose flag is up, puts the flag down, sets the
runnable's socket and starts a NEW thread on it.  A runnable puts its own flag up at the end of
`run`, while its thread is still alive, and the acceptor may start it again at once.  `getThread`
and `freeThread` are not synchronized, so the look at a flag and the change of it are two steps
here, and so are the steps of `run` that touch the runnable's fields.

Sockets are numbered in the order of `accept`, threads in the order of `start`.

* `Inv`: the acceptor and the threads that have not freed themselves hold runnables, and the flags
  follow the discipline of `Lease.Exclusive`.  That a flag the acceptor has seen up is still up
  when it puts it down rests on there being one acceptor.
* What a thread finds in its runnable's fields is what it has put there, or what it was started
  with (`Good`).
* A connection that finds no runnable in `MAX_TRY_TIMES` attempts is dropped: it is in nobody's
  hands then, and nobody closes it.
* The pool behaves as if `getThread` and `freeThread` were atomic (`reachable_pool`).
-/
import JavaStudy.Bio.SocketData
import JavaStudy.Bio.ServerThreadPool
import JavaStudy.Lib.Lease

namespace JavaStudy
namespace TcpIpBIOServer

open JavaText
open TcpIpBIOServerThreadPool (Runnable Pool MAX_TRY_TIMES init get_init)

/-! ## 1. `TcpIpBIOServerThread` -/

abbrev Socket := Nat

/-- The fields of a runnable. -/
structure TcpIpBIOServerThread where
  socketData : SocketData
  socket : Option Socket

def TcpIpBIOServerThread.new : TcpIpBIOServerThread := ⟨⟨0, 0⟩, none⟩

def TcpIpBIOServerThread.setSocket (runnable : TcpIpBIOServerThread) (socket : Option Socket) :
    TcpIpBIOServerThread :=
  { runnable with socket }

/-- What can be thrown in `run`, as far as its `catch` clauses tell it apart. -/
inductive Throwable where
  | socketException
  | ioException
  | unchecked
  deriving DecidableEq

/-- Where `run` stands.  A line stays with the thread that has read it. -/
inductive Pc where
  /-- Before `getInputStream`. -/
  | started
  /-- Before `getOutputStream`. -/
  | opened
  /-- In `readLine`. -/
  | reading
  /-- Before `getObjFromStr`. -/
  | parsing (readStr : JString)
  /-- Before `dealData`. -/
  | dealing (readStr : JString)
  /-- Before `println`. -/
  | replying (readStr : JString)
  /-- Before the message on the console. -/
  | logging (readStr : JString)
  /-- In the `catch` clause of `IOException`. -/
  | catching
  /-- At `freeThread`, before it looks the runnable up. -/
  | freeing
  /-- In `freeThread`, before the flag goes up. -/
  | releasing
  | ended
  deriving DecidableEq

structure Thread where
  runnable : Runnable
  /-- What the runnable's field `socket` held when the thread was started. -/
  given : Option Socket
  /-- The socket that the local `read` reads from. -/
  read : Option Socket
  /-- The socket that the local `sendOut` writes to. -/
  sendOut : Option Socket
  pc : Pc
  deriving DecidableEq

def Thread.start (runnable : Runnable) (given : Option Socket) : Thread :=
  ⟨runnable, given, none, none, .started⟩

inductive ThreadAct where
  | getInputStream
  | getOutputStream
  /-- `readLine` returns a line, or `null` at the end of the stream. -/
  | readLine (readStr : Option JString)
  | getObjFromStr
  | dealData
  | println
  | log
  | throw (e : Throwable)
  /-- The `catch` clause of `IOException` prints its message. -/
  | report
  /-- `freeThread` looks the runnable up. -/
  | get
  /-- `freeThread` puts the flag up. -/
  | put

/-- What may be thrown at that place. -/
def Pc.throws : Pc → Throwable → Bool
  | .started, _ => true
  | .opened, _ => true
  | .reading, _ => true
  | .parsing _, e => e == .unchecked
  | .dealing _, e => e == .unchecked
  | .replying _, e => e == .unchecked
  | .logging _, e => e == .unchecked
  | .catching, e => e == .unchecked
  | _, _ => false

/-- Where an exception takes `run`. -/
def handler : Throwable → Pc
  | .ioException => .catching
  | .socketException => .freeing
  | .unchecked => .freeing

/-- The steps of `run` outside `freeThread`.  They see the fields of their own runnable only. -/
def serve (runnable : TcpIpBIOServerThread) (th : Thread) :
    ThreadAct → Option (TcpIpBIOServerThread × Thread)
  | .getInputStream =>
    if th.pc = .started then
      match runnable.socket with
      | some socket => some (runnable, { th with read := some socket, pc := .opened })
      | none => some (runnable, { th with pc := handler .unchecked })
    else none
  | .getOutputStream =>
    if th.pc = .opened then
      match runnable.socket with
      | some socket => some (runnable, { th with sendOut := some socket, pc := .reading })
      | none => some (runnable, { th with pc := handler .unchecked })
    else none
  | .readLine readStr =>
    if th.pc = .reading then
      match readStr with
      | some readStr => some (runnable, { th with pc := .parsing readStr })
      -- `while(true)` goes round at the end of the stream
      | none => some (runnable, th)
    else none
  | .getObjFromStr =>
    match th.pc with
    | .parsing readStr =>
      match SocketData.getObjFromStr (some readStr) with
      | .ok socketData => some ({ runnable with socketData }, { th with pc := .dealing readStr })
      | .error _ => some (runnable, { th with pc := handler .unchecked })
    | _ => none
  | .dealData =>
    match th.pc with
    | .dealing readStr =>
      some ({ runnable with socketData := runnable.socketData.dealData },
        { th with pc := .replying readStr })
    | _ => none
  | .println =>
    match th.pc with
    | .replying readStr => some (runnable, { th with pc := .logging readStr })
    | _ => none
  | .log =>
    match th.pc with
    | .logging _ => some (runnable, { th with pc := .reading })
    | _ => none
  | .throw e =>
    if th.pc.throws e then some (runnable, { th with pc := handler e }) else none
  | .report => if th.pc = .catching then some (runnable, { th with pc := .freeing }) else none
  | .get => none
  | .put => none

/-! ## 2. The acceptor and the whole server -/

/-- Where `server` stands. -/
inductive AcceptorPc where
  /-- In `accept`. -/
  | accepting
  /-- At the head of the `for` loop. -/
  | trying (i : Nat)
  /-- In the loop of `getThread`, with the keys that are left. -/
  | scanning (i : Nat) (keySet : List Runnable)
  /-- In `getThread`, which has seen that flag up. -/
  | claiming (i : Nat) (runnable : Runnable)
  /-- Before `setSocket`. -/
  | obtained (runnable : Runnable)
  /-- Before `start`. -/
  | set (runnable : Runnable)
  | sleeping (i : Nat)
  | stopped
  deriving DecidableEq

/-- The acceptor's local `socket` lives for one round of its loop. -/
structure Acceptor where
  socket : Option Socket
  pc : AcceptorPc

structure State where
  pool : Pool
  runnables : Runnable → TcpIpBIOServerThread
  acceptor : Acceptor
  /-- So many sockets have been accepted. -/
  accepted : Nat
  threads : List Thread
  /-- The sockets that the server has closed.  There is no statement in it that closes one. -/
  closed : List Socket

inductive Act where
  | accept
  | acceptFails
  /-- A call of `getThread` that iterates over the key set in this order. -/
  | getThread (keySet : List Runnable)
  /-- `getThread` looks at the next flag, or has seen them all. -/
  | probe
  /-- `getThread` puts down the flag that it has seen up. -/
  | claim
  | setSocket
  | start
  /-- The acceptor's sleep is over. -/
  | wake
  | interrupt
  /-- All attempts have failed: `continue`. -/
  | giveUp
  | thread (i : Nat) (a : ThreadAct)

def Act.dispatch (s : State) : Act → Option State
  | .accept =>
    if s.acceptor.pc = .accepting then
      some { s with acceptor := ⟨some s.accepted, .trying 0⟩, accepted := s.accepted + 1 }
    else none
  | .acceptFails =>
    if s.acceptor.pc = .accepting then some { s with acceptor := ⟨none, .stopped⟩ } else none
  | .getThread keySet =>
    match s.acceptor.pc with
    | .trying i =>
      if i < MAX_TRY_TIMES ∧ keySet.Perm s.pool.threadMap.keySet then
        some { s with acceptor := ⟨s.acceptor.socket,
          if s.pool.INIT_STATUS then .scanning i keySet else .sleeping i⟩ }
      else none
    | _ => none
  | .probe =>
    match s.acceptor.pc with
    | .scanning i [] => some { s with acceptor := ⟨s.acceptor.socket, .sleeping i⟩ }
    | .scanning i (runnable :: keySet) =>
      some { s with acceptor := ⟨s.acceptor.socket,
        if s.pool.threadMap.get runnable = some true then .claiming i runnable
        else .scanning i keySet⟩ }
    | _ => none
  | .claim =>
    match s.acceptor.pc with
    | .claiming _ runnable =>
      some { s with
        pool := { s.pool with threadMap := s.pool.threadMap.put runnable false }
        acceptor := ⟨s.acceptor.socket, .obtained runnable⟩ }
    | _ => none
  | .setSocket =>
    match s.acceptor.pc with
    | .obtained runnable =>
      some { s with
        runnables := Function.update s.runnables runnable
          ((s.runnables runnable).setSocket s.acceptor.socket)
        acceptor := ⟨s.acceptor.socket, .set runnable⟩ }
    | _ => none
  | .start =>
    match s.acceptor.pc with
    | .set runnable =>
      some { s with
        threads := s.threads ++ [Thread.start runnable (s.runnables runnable).socket]
        acceptor := ⟨none, .accepting⟩ }
    | _ => none
  | .wake =>
    match s.acceptor.pc with
    | .sleeping i => some { s with acceptor := ⟨s.acceptor.socket, .trying (i + 1)⟩ }
    | _ => none
  | .interrupt =>
    match s.acceptor.pc with
    | .sleeping _ => some { s with acceptor := ⟨none, .stopped⟩ }
    | _ => none
  | .giveUp =>
    match s.acceptor.pc with
    | .trying i =>
      if i < MAX_TRY_TIMES then none else some { s with acceptor := ⟨none, .accepting⟩ }
    | _ => none
  | .thread _ _ => none

/-- A thread's step in `freeThread`. -/
def free (pool : Pool) (th : Thread) : ThreadAct → Option (Pool × Thread)
  | .get =>
    if th.pc = .freeing then
      if pool.INIT_STATUS ∧ th.runnable ∈ pool.threadMap.keySet then
        some (pool, { th with pc := .releasing })
      else some (pool, { th with pc := .ended })
    else none
  | .put =>
    if th.pc = .releasing then
      some ({ pool with threadMap := pool.threadMap.put th.runnable true },
        { th with pc := .ended })
    else none
  | _ => none

def step (s : State) : Act → Option State
  | .thread i a =>
    s.threads[i]?.bind fun th =>
      match serve (s.runnables th.runnable) th a with
      | some (runnable, th') =>
        some { s with
          runnables := Function.update s.runnables th.runnable runnable
          threads := s.threads.set i th' }
      | none =>
        (free s.pool th a).map fun r => { s with pool := r.1, threads := s.threads.set i r.2 }
  | a => a.dispatch s

/-- The server from its first `accept` on. -/
def machine (MAX_POOL_NUM : Nat) : Machine State Act where
  init :=
    { pool := init MAX_POOL_NUM .fresh
      runnables := fun _ => .new
      acceptor := ⟨none, .accepting⟩
      accepted := 0
      threads := []
      closed := [] }
  step := step

/-! ## 3. A thread and the fields of its runnable -/

/-- Has `run` made its `read`? -/
def Pc.hasRead : Pc → Bool
  | .opened => true
  | .reading => true
  | .parsing _ => true
  | .dealing _ => true
  | .replying _ => true
  | .logging _ => true
  | _ => false

/-- Has `run` made its `sendOut`? -/
def Pc.hasSendOut : Pc → Bool
  | .opened => false
  | pc => pc.hasRead

/-- What the field `socketData` holds at that place. -/
def Pc.Holds (socketData : SocketData) : Pc → Prop
  | .dealing readStr => SocketData.getObjFromStr (some readStr) = .ok socketData
  | .replying readStr =>
    ∃ data, SocketData.getObjFromStr (some readStr) = .ok data ∧ socketData = data.dealData
  | .logging readStr =>
    ∃ data, SocketData.getObjFromStr (some readStr) = .ok data ∧ socketData = data.dealData
  | _ => True

/-- A thread in order: its runnable's fields and its locals are those of the socket that it was
started with. -/
structure Good (runnable : TcpIpBIOServerThread) (th : Thread) : Prop where
  given : ∃ socket, th.given = some socket
  socket : runnable.socket = th.given
  read : th.pc.hasRead = true → th.read = th.given
  sendOut : th.pc.hasSendOut = true → th.sendOut = th.given
  socketData : th.pc.Holds runnable.socketData

/-- What one step of `run` outside `freeThread` does. -/
inductive Ran (runnable : TcpIpBIOServerThread) (th : Thread) :
    ThreadAct → TcpIpBIOServerThread → Thread → Prop where
  | read (socket : Socket) (hpc : th.pc = .started) (hsocket : runnable.socket = some socket) :
      Ran runnable th .getInputStream runnable { th with read := some socket, pc := .opened }
  | sendOut (socket : Socket) (hpc : th.pc = .opened) (hsocket : runnable.socket = some socket) :
      Ran runnable th .getOutputStream runnable { th with sendOut := some socket, pc := .reading }
  | line (readStr : JString) (hpc : th.pc = .reading) :
      Ran runnable th (.readLine (some readStr)) runnable { th with pc := .parsing readStr }
  | eof (hpc : th.pc = .reading) : Ran runnable th (.readLine none) runnable th
  | parsed (readStr : JString) (socketData : SocketData) (hpc : th.pc = .parsing readStr)
      (hdata : SocketData.getObjFromStr (some readStr) = .ok socketData) :
      Ran runnable th .getObjFromStr { runnable with socketData }
        { th with pc := .dealing readStr }
  | dealt (readStr : JString) (hpc : th.pc = .dealing readStr) :
      Ran runnable th .dealData { runnable with socketData := runnable.socketData.dealData }
        { th with pc := .replying readStr }
  | replied (readStr : JString) (hpc : th.pc = .replying readStr) :
      Ran runnable th .println runnable { th with pc := .logging readStr }
  | logged (readStr : JString) (hpc : th.pc = .logging readStr) :
      Ran runnable th .log runnable { th with pc := .reading }
  | left (a : ThreadAct) (pc : Pc) (hpc : th.pc ≠ .ended) (hnew : pc = .catching ∨ pc = .freeing) :
      Ran runnable th a runnable { th with pc }

theorem handler_cases (e : Throwable) : handler e = .catching ∨ handler e = .freeing := by
  cases e with
  | ioException => exact Or.inl rfl
  | socketException => exact Or.inr rfl
  | unchecked => exact Or.inr rfl

theorem serve_ran {runnable runnable' : TcpIpBIOServerThread} {th th' : Thread} {a : ThreadAct}
    (h : serve runnable th a = some (runnable', th')) : Ran runnable th a runnable' th' := by
  have hleft : ∀ {e : Throwable}, th.pc ≠ .ended →
      Ran runnable th a runnable { th with pc := handler e } :=
    fun {e} hpc => .left a (handler e) hpc (handler_cases e)
  cases a with
  | getInputStream =>
    simp only [serve, Option.ite_none_right_eq_some] at h
    obtain ⟨hpc, h⟩ := h
    split at h
    · rename_i socket hsocket
      cases h
      exact .read socket hpc hsocket
    · cases h
      exact hleft (by rw [hpc]; decide)
  | getOutputStream =>
    simp only [serve, Option.ite_none_right_eq_some] at h
    obtain ⟨hpc, h⟩ := h
    split at h
    · rename_i socket hsocket
      cases h
      exact .sendOut socket hpc hsocket
    · cases h
      exact hleft (by rw [hpc]; decide)
  | readLine readStr =>
    simp only [serve, Option.ite_none_right_eq_some] at h
    obtain ⟨hpc, h⟩ := h
    cases readStr with
    | some readStr =>
      cases h
      exact .line readStr hpc
    | none =>
      cases h
      exact .eof hpc
  | getObjFromStr =>
    simp only [serve] at h
    split at h
    · rename_i readStr hpc
      split at h
      · rename_i socketData hdata
        cases h
        exact .parsed readStr socketData hpc hdata
      · cases h
        exact hleft (by rw [hpc]; exact nofun)
    · exact absurd h (by simp)
  | dealData =>
    simp only [serve] at h
    split at h
    · rename_i readStr hpc
      cases h
      exact .dealt readStr hpc
    · exact absurd h (by simp)
  | println =>
    simp only [serve] at h
    split at h
    · rename_i readStr hpc
      cases h
      exact .replied readStr hpc
    · exact absurd h (by simp)
  | log =>
    simp only [serve] at h
    split at h
    · rename_i readStr hpc
      cases h
      exact .logged readStr hpc
    · exact absurd h (by simp)
  | throw e =>
    simp only [serve, Option.ite_none_right_eq_some] at h
    obtain ⟨hthrows, h⟩ := h
    cases h
    refine hleft ?_
    intro hpc
    rw [hpc] at hthrows
    cases hthrows
  | report =>
    simp only [serve, Option.ite_none_right_eq_some] at h
    obtain ⟨hpc, h⟩ := h
    cases h
    exact .left _ _ (by rw [hpc]; decide) (Or.inr rfl)
  | get => cases h
  | put => cases h

/-- What no step of `run` outside `freeThread` changes. -/
structure Keeps (r r' : TcpIpBIOServerThread) (th th' : Thread) : Prop where
  runnable : th'.runnable = th.runnable
  given : th'.given = th.given
  socket : r'.socket = r.socket
  before : th.pc ≠ .ended
  after : th'.pc ≠ .ended

theorem Ran.keeps {r r' : TcpIpBIOServerThread} {th th' : Thread} {a : ThreadAct}
    (h : Ran r th a r' th') : Keeps r r' th th' := by
  have live : ∀ {pc : Pc}, th.pc = pc → pc ≠ .ended → th.pc ≠ .ended := fun hpc hne => hpc ▸ hne
  cases h with
  | read socket hpc hsocket => exact ⟨rfl, rfl, rfl, live hpc nofun, nofun⟩
  | sendOut socket hpc hsocket => exact ⟨rfl, rfl, rfl, live hpc nofun, nofun⟩
  | line readStr hpc => exact ⟨rfl, rfl, rfl, live hpc nofun, nofun⟩
  | eof hpc => exact ⟨rfl, rfl, rfl, live hpc nofun, live hpc nofun⟩
  | parsed readStr socketData hpc hdata => exact ⟨rfl, rfl, rfl, live hpc nofun, nofun⟩
  | dealt readStr hpc => exact ⟨rfl, rfl, rfl, live hpc nofun, nofun⟩
  | replied readStr hpc => exact ⟨rfl, rfl, rfl, live hpc nofun, nofun⟩
  | logged readStr hpc => exact ⟨rfl, rfl, rfl, live hpc nofun, nofun⟩
  | left a pc hpc hnew =>
    refine ⟨rfl, rfl, rfl, hpc, ?_⟩
    rcases hnew with rfl | rfl
    · exact nofun
    · exact nofun

/-- **A step of `run` keeps its thread in order.** -/
theorem Ran.good {r r' : TcpIpBIOServerThread} {th th' : Thread} {a : ThreadAct}
    (h : Ran r th a r' th') (hg : Good r th) : Good r' th' := by
  have hgiven := hg.given
  have hsocket := hg.socket
  have hread := hg.read
  have hsendOut := hg.sendOut
  have hdata := hg.socketData
  cases h with
  | read socket hpc hfield => exact ⟨hgiven, hsocket, fun _ => hfield ▸ hsocket, nofun, trivial⟩
  | sendOut socket hpc hfield =>
    rw [hpc] at hread
    exact ⟨hgiven, hsocket, fun _ => hread rfl, fun _ => hfield ▸ hsocket, trivial⟩
  | line readStr hpc =>
    rw [hpc] at hread hsendOut
    exact ⟨hgiven, hsocket, fun _ => hread rfl, fun _ => hsendOut rfl, trivial⟩
  | eof hpc => exact hg
  | parsed readStr socketData hpc hparse =>
    rw [hpc] at hread hsendOut
    exact ⟨hgiven, hsocket, fun _ => hread rfl, fun _ => hsendOut rfl, hparse⟩
  | dealt readStr hpc =>
    rw [hpc] at hread hsendOut hdata
    exact ⟨hgiven, hsocket, fun _ => hread rfl, fun _ => hsendOut rfl, _, hdata, rfl⟩
  | replied readStr hpc =>
    rw [hpc] at hread hsendOut hdata
    exact ⟨hgiven, hsocket, fun _ => hread rfl, fun _ => hsendOut rfl, hdata⟩
  | logged readStr hpc =>
    rw [hpc] at hread hsendOut
    exact ⟨hgiven, hsocket, fun _ => hread rfl, fun _ => hsendOut rfl, trivial⟩
  | left a pc hpc hnew =>
    rcases hnew with rfl | rfl
    · exact ⟨hgiven, hsocket, nofun, nofun, trivial⟩
    · exact ⟨hgiven, hsocket, nofun, nofun, trivial⟩

/-! ## 4. Who holds which runnable -/

/-- The runnable of a thread, until it has freed it. -/
def Thread.holds (th : Thread) : Option Runnable :=
  if th.pc = .ended then none else some th.runnable

/-- The runnable that is being dispatched. -/
def AcceptorPc.holds : AcceptorPc → Option Runnable
  | .obtained runnable => some runnable
  | .set runnable => some runnable
  | _ => none

/-- Has the acceptor no connection to dispatch? -/
def AcceptorPc.idle : AcceptorPc → Bool
  | .accepting => true
  | .stopped => true
  | _ => false

/-- What the acceptor (`none`) and the threads hold. -/
def holders (pc : AcceptorPc) (threads : List Thread) : Option Nat → Option Runnable
  | none => pc.holds
  | some i => threads[i]?.bind Thread.holds

def State.holds (s : State) : Option Nat → Option Runnable := holders s.acceptor.pc s.threads

theorem holders_pc (pc pc' : AcceptorPc) (threads : List Thread) :
    holders pc' threads = Function.update (holders pc threads) none pc'.holds := by
  funext j
  cases j with
  | none => rw [Function.update_self]; rfl
  | some j => rw [Function.update_of_ne (by simp)]; rfl

theorem holders_set (pc : AcceptorPc) {threads : List Thread} {i : Nat} {th : Thread}
    (hi : threads[i]? = some th) (th' : Thread) :
    holders pc (threads.set i th')
      = Function.update (holders pc threads) (some i) th'.holds := by
  obtain ⟨hlt, -⟩ := List.getElem?_eq_some_iff.mp hi
  funext j
  cases j with
  | none => rw [Function.update_of_ne (by simp)]; rfl
  | some j =>
    rw [holders, List.getElem?_set, Function.update_apply]
    by_cases hij : i = j
    · subst hij
      rw [if_pos rfl, if_pos hlt, if_pos rfl]
      rfl
    · rw [if_neg hij, if_neg (by simpa using Ne.symm hij)]
      rfl

theorem holders_concat (pc : AcceptorPc) (threads : List Thread) (th : Thread) :
    holders pc (threads ++ [th])
      = Function.update (holders pc threads) (some threads.length) th.holds := by
  funext j
  cases j with
  | none => rw [Function.update_of_ne (by simp)]; rfl
  | some j =>
    rw [holders, Function.update_apply]
    by_cases hj : j = threads.length
    · subst hj
      rw [List.getElem?_concat_length, if_pos rfl]
      rfl
    · rw [if_neg (by simpa using hj), holders, List.getElem?_append]
      split
      · rfl
      · rw [List.getElem?_singleton, if_neg (by omega), List.getElem?_eq_none (by omega)]

theorem Thread.holds_of_live {th : Thread} (h : th.pc ≠ .ended) : th.holds = some th.runnable :=
  if_neg h

theorem State.holds_thread {s : State} {i : Nat} {th : Thread} (hi : s.threads[i]? = some th)
    (h : th.pc ≠ .ended) : s.holds (some i) = some th.runnable := by
  rw [State.holds, holders, hi, Option.bind_some, Thread.holds_of_live h]

/-- What a step does. -/
inductive Stepped (s : State) : Act → State → Prop where
  | accepted (hpc : s.acceptor.pc = .accepting) :
      Stepped s .accept
        { s with acceptor := ⟨some s.accepted, .trying 0⟩, accepted := s.accepted + 1 }
  /-- The acceptor goes on with its socket, and with the flag that it has seen up. -/
  | searched (a : Act) (pc : AcceptorPc) (hold : s.acceptor.pc.holds = none)
      (hnew : pc.holds = none) (hhand : s.acceptor.pc.idle = false) (hhand' : pc.idle = false)
      (hclaims : ∀ i k, pc = .claiming i k → s.pool.threadMap.get k = some true)
      (hkept : a ≠ .giveUp ∧ a ≠ .interrupt) :
      Stepped s a { s with acceptor := ⟨s.acceptor.socket, pc⟩ }
  | claimed (i : Nat) (k : Runnable) (hpc : s.acceptor.pc = .claiming i k) :
      Stepped s .claim { s with
        pool := { s.pool with threadMap := s.pool.threadMap.put k false }
        acceptor := ⟨s.acceptor.socket, .obtained k⟩ }
  | setSocket (k : Runnable) (hpc : s.acceptor.pc = .obtained k) :
      Stepped s .setSocket { s with
        runnables := Function.update s.runnables k
          ((s.runnables k).setSocket s.acceptor.socket)
        acceptor := ⟨s.acceptor.socket, .set k⟩ }
  | started (k : Runnable) (hpc : s.acceptor.pc = .set k) :
      Stepped s .start { s with
        threads := s.threads ++ [Thread.start k (s.runnables k).socket]
        acceptor := ⟨none, .accepting⟩ }
  | failed (hpc : s.acceptor.pc = .accepting) :
      Stepped s .acceptFails { s with acceptor := ⟨none, .stopped⟩ }
  | interrupted (i : Nat) (hpc : s.acceptor.pc = .sleeping i) :
      Stepped s .interrupt { s with acceptor := ⟨none, .stopped⟩ }
  | gaveUp (i : Nat) (hpc : s.acceptor.pc = .trying i) :
      Stepped s .giveUp { s with acceptor := ⟨none, .accepting⟩ }
  | ran (i : Nat) (a : ThreadAct) (th th' : Thread) (runnable : TcpIpBIOServerThread)
      (hi : s.threads[i]? = some th) (h : Ran (s.runnables th.runnable) th a runnable th') :
      Stepped s (.thread i a) { s with
        runnables := Function.update s.runnables th.runnable runnable
        threads := s.threads.set i th' }
  | got (i : Nat) (th : Thread) (hi : s.threads[i]? = some th) (hpc : th.pc = .freeing)
      (hk : th.runnable ∈ s.pool.threadMap.keySet) :
      Stepped s (.thread i .get) { s with threads := s.threads.set i { th with pc := .releasing } }
  | missed (i : Nat) (th : Thread) (hi : s.threads[i]? = some th) (hpc : th.pc = .freeing)
      (hk : ¬(s.pool.INIT_STATUS = true ∧ th.runnable ∈ s.pool.threadMap.keySet)) :
      Stepped s (.thread i .get) { s with threads := s.threads.set i { th with pc := .ended } }
  | freed (i : Nat) (th : Thread) (hi : s.threads[i]? = some th) (hpc : th.pc = .releasing) :
      Stepped s (.thread i .put) { s with
        pool := { s.pool with threadMap := s.pool.threadMap.put th.runnable true }
        threads := s.threads.set i { th with pc := .ended } }

theorem dispatch_cases {s t : State} {a : Act} (h : a.dispatch s = some t) : Stepped s a t := by
  cases a with
  | accept =>
    simp only [Act.dispatch, Option.ite_none_right_eq_some, Option.some.injEq] at h
    obtain ⟨hpc, rfl⟩ := h
    exact .accepted hpc
  | acceptFails =>
    simp only [Act.dispatch, Option.ite_none_right_eq_some, Option.some.injEq] at h
    obtain ⟨hpc, rfl⟩ := h
    exact .failed hpc
  | getThread keySet =>
    simp only [Act.dispatch] at h
    split at h
    · rename_i i hpc
      simp only [Option.ite_none_right_eq_some, Option.some.injEq] at h
      obtain ⟨-, rfl⟩ := h
      refine .searched _ _ ?_ ?_ ?_ ?_ ?_ ⟨by simp, by simp⟩
      · rw [hpc]
        rfl
      · split <;> rfl
      · rw [hpc]
        rfl
      · split <;> rfl
      · intro j k hclaim
        split at hclaim <;> cases hclaim
    · exact absurd h (by simp)
  | probe =>
    simp only [Act.dispatch] at h
    split at h
    · rename_i i hpc
      cases h
      refine .searched _ _ ?_ rfl ?_ rfl (fun _ _ h => by cases h) ⟨by simp, by simp⟩
      · rw [hpc]
        rfl
      · rw [hpc]
        rfl
    · rename_i i k keySet hpc
      cases h
      refine .searched _ _ ?_ ?_ ?_ ?_ ?_ ⟨by simp, by simp⟩
      · rw [hpc]
        rfl
      · split <;> rfl
      · rw [hpc]
        rfl
      · split <;> rfl
      · intro j k' hclaim
        split at hclaim
        · rename_i hup
          cases hclaim
          exact hup
        · exact absurd hclaim (by simp)
    · exact absurd h (by simp)
  | claim =>
    simp only [Act.dispatch] at h
    split at h
    · rename_i i k hpc
      cases h
      exact .claimed i k hpc
    · exact absurd h (by simp)
  | setSocket =>
    simp only [Act.dispatch] at h
    split at h
    · rename_i k hpc
      cases h
      exact .setSocket k hpc
    · exact absurd h (by simp)
  | start =>
    simp only [Act.dispatch] at h
    split at h
    · rename_i k hpc
      cases h
      exact .started k hpc
    · exact absurd h (by simp)
  | wake =>
    simp only [Act.dispatch] at h
    split at h
    · rename_i i hpc
      cases h
      refine .searched _ _ ?_ rfl ?_ rfl (fun _ _ h => by cases h) ⟨by simp, by simp⟩
      · rw [hpc]
        rfl
      · rw [hpc]
        rfl
    · exact absurd h (by simp)
  | interrupt =>
    simp only [Act.dispatch] at h
    split at h
    · rename_i i hpc
      cases h
      exact .interrupted i hpc
    · exact absurd h (by simp)
  | giveUp =>
    simp only [Act.dispatch] at h
    split at h
    · rename_i i hpc
      simp only [Option.ite_none_left_eq_some, Option.some.injEq] at h
      obtain ⟨-, rfl⟩ := h
      exact .gaveUp i hpc
    · exact absurd h (by simp)
  | thread i a => cases h

theorem step_cases {s t : State} {a : Act} (h : step s a = some t) : Stepped s a t := by
  cases a with
  | thread i a =>
    simp only [step, Option.bind_eq_some_iff] at h
    obtain ⟨th, hi, h⟩ := h
    split at h
    · rename_i runnable th' hserve
      cases h
      exact .ran i a th th' runnable hi (serve_ran hserve)
    · obtain ⟨⟨pool, th'⟩, hfree, rfl⟩ := Option.map_eq_some_iff.mp h
      cases a with
      | get =>
        simp only [free, Option.ite_none_right_eq_some] at hfree
        obtain ⟨hpc, hfree⟩ := hfree
        split at hfree
        · rename_i hk
          cases hfree
          exact .got i th hi hpc hk.2
        · rename_i hk
          cases hfree
          exact .missed i th hi hpc hk
      | put =>
        simp only [free, Option.ite_none_right_eq_some] at hfree
        obtain ⟨hpc, hfree⟩ := hfree
        cases hfree
        exact .freed i th hi hpc
      | _ => cases hfree
  | _ => exact dispatch_cases h

/-! ## 5. The invariant -/

structure Inv (s : State) : Prop where
  initialised : s.pool.INIT_STATUS = true
  /-- A flag is down for exactly the runnables that are dispatched or at work. -/
  exclusive : Lease.Exclusive s.pool.threadMap.get s.holds
  claiming : ∀ i k, s.acceptor.pc = .claiming i k → s.pool.threadMap.get k = some true
  set : ∀ k, s.acceptor.pc = .set k → (s.runnables k).socket = s.acceptor.socket
  inHand : s.acceptor.pc.idle = false → ∃ k, s.acceptor.socket = some k
  good : ∀ (i : Nat) (th : Thread), s.threads[i]? = some th → th.pc ≠ .ended →
    Good (s.runnables th.runnable) th

theorem inv_init (n : Nat) : Inv (machine n).init where
  initialised := rfl
  exclusive := by
    refine Lease.exclusive_of_free (get_init n) ?_
    intro i
    cases i with
    | none => rfl
    | some i => rfl
  claiming := nofun
  set := nofun
  inHand := nofun
  good := nofun

/-- The flags stay right when the acceptor goes on with what it holds. -/
theorem Inv.exclusive_pc {s : State} (hi : Inv s) {pc : AcceptorPc}
    (h : pc.holds = s.acceptor.pc.holds) :
    Lease.Exclusive s.pool.threadMap.get (holders pc s.threads) := by
  have hself : Function.update s.holds none pc.holds = s.holds := by
    rw [h]
    exact Function.update_eq_self none s.holds
  rw [holders_pc s.acceptor.pc]
  exact hself.symm ▸ hi.exclusive

/-- And when a thread does. -/
theorem Inv.exclusive_thread {s : State} (hi : Inv s) {i : Nat} {th th' : Thread}
    (hth : s.threads[i]? = some th) (h : th'.holds = th.holds) :
    Lease.Exclusive s.pool.threadMap.get (holders s.acceptor.pc (s.threads.set i th')) := by
  have hself : Function.update s.holds (some i) th'.holds = s.holds := by
    have hholds : s.holds (some i) = th.holds := by
      rw [State.holds, holders, hth, Option.bind_some]
    rw [h, ← hholds]
    exact Function.update_eq_self (some i) s.holds
  rw [holders_set _ hth]
  exact hself.symm ▸ hi.exclusive

/-- A step leaves flags and holders alone, or somebody takes, hands over or gives up a runnable. -/
theorem Inv.exclusive_step {s t : State} {a : Act} (hi : Inv s) (h : Stepped s a t) :
    Lease.Exclusive t.pool.threadMap.get t.holds := by
  have hex := hi.exclusive
  cases h with
  | accepted hpc => exact hi.exclusive_pc (hpc ▸ rfl)
  | searched a pc hold hnew hhand hhand' hclaims hkept =>
    exact hi.exclusive_pc (hnew.trans hold.symm)
  | claimed i k hpc =>
    have hnone : s.holds none = none := by
      rw [State.holds, hpc]
      rfl
    have hnew := hex.acquire (hi.claiming i k hpc) hnone
    change Lease.Exclusive (s.pool.threadMap.put k false).get (holders (.obtained k) s.threads)
    rw [Hashtable.get_put_eq_update, holders_pc s.acceptor.pc]
    exact hnew
  | setSocket k hpc => exact hi.exclusive_pc (hpc ▸ rfl)
  | started k hpc =>
    have hself : s.holds none = some k := by
      rw [State.holds, hpc]
      rfl
    have hnone : s.holds (some s.threads.length) = none := by
      rw [State.holds, holders, List.getElem?_eq_none le_rfl]
      rfl
    have hnew := hex.transfer hself hnone
    change Lease.Exclusive s.pool.threadMap.get
      (holders .accepting (s.threads ++ [Thread.start k (s.runnables k).socket]))
    rw [holders_concat, holders_pc s.acceptor.pc]
    exact hnew
  | failed hpc => exact hi.exclusive_pc (hpc ▸ rfl)
  | interrupted i hpc => exact hi.exclusive_pc (hpc ▸ rfl)
  | gaveUp i hpc => exact hi.exclusive_pc (hpc ▸ rfl)
  | ran i a th th' r hth hran =>
    have hkeeps := hran.keeps
    refine hi.exclusive_thread hth ?_
    rw [Thread.holds_of_live hkeeps.before, Thread.holds_of_live hkeeps.after, hkeeps.runnable]
  | got i th hth hpc hk =>
    have hlive : th.pc ≠ .ended := by rw [hpc]; exact nofun
    refine hi.exclusive_thread hth ?_
    rw [Thread.holds_of_live hlive]
    rfl
  | missed i th hth hpc hk =>
    -- a runnable that a thread holds is in the pool
    have hself : s.holds (some i) = some th.runnable :=
      State.holds_thread hth (by rw [hpc]; exact nofun)
    have hdown := (hex.down_iff th.runnable).mpr ⟨_, hself⟩
    exact absurd ⟨hi.initialised, Hashtable.mem_keySet_of_get hdown⟩ hk
  | freed i th hth hpc =>
    have hself : s.holds (some i) = some th.runnable :=
      State.holds_thread hth (by rw [hpc]; exact nofun)
    have hnew := hex.release hself (v := some true) (by decide)
    change Lease.Exclusive (s.pool.threadMap.put th.runnable true).get
      (holders s.acceptor.pc (s.threads.set i { th with pc := .ended }))
    rw [Hashtable.get_put_eq_update, holders_set _ hth]
    exact hnew

/-- Nobody else holds what a thread holds. -/
theorem Inv.eq_of_holds {s : State} (hi : Inv s) {i : Nat} {th : Thread}
    (hth : s.threads[i]? = some th) (hlive : th.pc ≠ .ended) {j : Option Nat}
    (hj : s.holds j = some th.runnable) : j = some i :=
  hi.exclusive.unique _ _ _ hj (State.holds_thread hth hlive)

theorem Inv.claiming_step {s t : State} {a : Act} (hi : Inv s) (h : Stepped s a t) :
    ∀ i k, t.acceptor.pc = .claiming i k → t.pool.threadMap.get k = some true := by
  intro i k hpc'
  cases h with
  | searched a pc hold hnew hhand hhand' hclaims hkept => exact hclaims i k hpc'
  | ran j a th th' r hth hran => exact hi.claiming i k hpc'
  | got j th hth hpc hk => exact hi.claiming i k hpc'
  | missed j th hth hpc hk => exact hi.claiming i k hpc'
  | freed j th hth hpc =>
    change (s.pool.threadMap.put th.runnable true).get k = some true
    rw [Hashtable.get_put, hi.claiming i k hpc', ite_self]
  | _ => exact absurd hpc' (by simp)

theorem Inv.set_step {s t : State} {a : Act} (hi : Inv s) (h : Stepped s a t) :
    ∀ k, t.acceptor.pc = .set k → (t.runnables k).socket = t.acceptor.socket := by
  intro k hpc'
  cases h with
  | searched a pc hold hnew hhand hhand' hclaims hkept =>
    change pc = .set k at hpc'
    rw [hpc'] at hnew
    cases hnew
  | setSocket k' hpc =>
    cases hpc'
    change (Function.update s.runnables k _ k).socket = s.acceptor.socket
    rw [Function.update_self]
    rfl
  | ran i a th th' r hth hran =>
    rw [← hi.set k hpc']
    change (Function.update s.runnables th.runnable r k).socket = (s.runnables k).socket
    rw [Function.update_apply]
    split
    · rename_i hk
      rw [hran.keeps.socket, hk]
    · rfl
  | got i th hth hpc hk => exact hi.set k hpc'
  | missed i th hth hpc hk => exact hi.set k hpc'
  | freed i th hth hpc => exact hi.set k hpc'
  | _ => exact absurd hpc' (by simp)

theorem Inv.inHand_step {s t : State} {a : Act} (hi : Inv s) (h : Stepped s a t) :
    t.acceptor.pc.idle = false → ∃ k, t.acceptor.socket = some k := by
  intro hidle
  cases h with
  | accepted hpc => exact ⟨_, rfl⟩
  | searched a pc hold hnew hhand hhand' hclaims hkept => exact hi.inHand hhand
  | claimed i k hpc => exact hi.inHand (hpc ▸ rfl)
  | setSocket k hpc => exact hi.inHand (hpc ▸ rfl)
  | started k hpc => cases hidle
  | failed hpc => cases hidle
  | interrupted i hpc => cases hidle
  | gaveUp i hpc => cases hidle
  | ran i a th th' r hth hran => exact hi.inHand hidle
  | got i th hth hpc hk => exact hi.inHand hidle
  | missed i th hth hpc hk => exact hi.inHand hidle
  | freed i th hth hpc => exact hi.inHand hidle

/-- A thread that is set to `freeThread` or its end stays in order. -/
theorem Good.leave {r : TcpIpBIOServerThread} {th : Thread} (h : Good r th) {pc : Pc}
    (hpc : pc = .releasing ∨ pc = .ended) : Good r { th with pc } := by
  rcases hpc with rfl | rfl
  · exact ⟨h.given, h.socket, nofun, nofun, trivial⟩
  · exact ⟨h.given, h.socket, nofun, nofun, trivial⟩

/-- The threads other than `i` stay in order if no other runnable than that of `i` changes. -/
theorem Inv.good_set {s : State} (hi : Inv s) {i : Nat} {th : Thread} (th' : Thread)
    (hth : s.threads[i]? = some th) (hlive : th.pc ≠ .ended) {r : TcpIpBIOServerThread}
    (hrunnable : th'.runnable = th.runnable) (hgood : Good r th') :
    ∀ (j : Nat) (u : Thread), (s.threads.set i th')[j]? = some u → u.pc ≠ .ended →
      Good (Function.update s.runnables th.runnable r u.runnable) u := by
  intro j u hu hulive
  obtain ⟨hlt, -⟩ := List.getElem?_eq_some_iff.mp hth
  rw [List.getElem?_set] at hu
  by_cases hij : i = j
  · rw [if_pos hij, if_pos hlt, Option.some.injEq] at hu
    rw [← hu, hrunnable, Function.update_self]
    exact hgood
  · rw [if_neg hij] at hu
    have hne : u.runnable ≠ th.runnable := by
      intro heq
      have hholds : s.holds (some j) = some th.runnable :=
        heq ▸ State.holds_thread hu hulive
      exact hij (Option.some.inj (hi.eq_of_holds hth hlive hholds)).symm
    rw [Function.update_of_ne hne]
    exact hi.good j u hu hulive

theorem Inv.good_step {s t : State} {a : Act} (hi : Inv s) (h : Stepped s a t) :
    ∀ (i : Nat) (th : Thread), t.threads[i]? = some th → th.pc ≠ .ended →
      Good (t.runnables th.runnable) th := by
  -- `freeThread` does not touch the fields
  have hfree : ∀ {i : Nat} {th : Thread} {pc : Pc}, s.threads[i]? = some th → th.pc ≠ .ended →
      pc = .releasing ∨ pc = .ended →
      ∀ (j : Nat) (u : Thread), (s.threads.set i { th with pc })[j]? = some u → u.pc ≠ .ended →
        Good (s.runnables u.runnable) u := by
    intro i th pc hth hlive hpc j u hu hulive
    have hgood : Good (s.runnables th.runnable) { th with pc } :=
      (hi.good i th hth hlive).leave hpc
    have hnew := hi.good_set { th with pc } hth hlive rfl hgood j u hu hulive
    rwa [Function.update_eq_self] at hnew
  cases h with
  | setSocket k hpc =>
    intro i th hth hlive
    have hne : th.runnable ≠ k := by
      intro heq
      have hholds : s.holds none = some th.runnable := by
        rw [State.holds, hpc, heq]
        rfl
      exact nomatch hi.eq_of_holds hth hlive hholds
    change Good (Function.update s.runnables k _ th.runnable) th
    rw [Function.update_of_ne hne]
    exact hi.good i th hth hlive
  | started k hpc =>
    intro i th hth hlive
    change (s.threads ++ [_])[i]? = some th at hth
    rw [List.getElem?_append] at hth
    split at hth
    · exact hi.good i th hth hlive
    · rw [List.getElem?_singleton, Option.ite_none_right_eq_some, Option.some.injEq] at hth
      obtain ⟨-, rfl⟩ := hth
      have hsocket : ∃ socket, s.acceptor.socket = some socket := hi.inHand (hpc ▸ rfl)
      exact ⟨hi.set k hpc ▸ hsocket, rfl, nofun, nofun, trivial⟩
  | ran i a th th' r hth hran =>
    have hkeeps := hran.keeps
    have hgood : Good r th' := hran.good (hi.good i th hth hkeeps.before)
    exact hi.good_set th' hth hkeeps.before hkeeps.runnable hgood
  | got i th hth hpc hk => exact hfree hth (by rw [hpc]; exact nofun) (Or.inl rfl)
  | missed i th hth hpc hk => exact hfree hth (by rw [hpc]; exact nofun) (Or.inr rfl)
  | freed i th hth hpc => exact hfree hth (by rw [hpc]; exact nofun) (Or.inr rfl)
  | _ => exact hi.good

/-- **Every step keeps the invariant.** -/
theorem step_inv {s t : State} {a : Act} (hi : Inv s) (hst : step s a = some t) : Inv t := by
  have h := step_cases hst
  refine ⟨?_, hi.exclusive_step h, hi.claiming_step h, hi.set_step h, hi.inHand_step h,
    hi.good_step h⟩
  cases h with
  | _ => exact hi.initialised

theorem reachable_inv {n : Nat} {s : State} (h : (machine n).Reachable s) : Inv s :=
  h.induct (inv_init n) fun _ _ _ _ hi hst => step_inv hi hst

/-! ## 6. One connection at a time -/

/-- Thread `i` was started on runnable `k` and has not freed it yet. -/
def State.Serving (s : State) (i : Nat) (k : Runnable) : Prop := s.holds (some i) = some k

/-- The acceptor has put the flag of `k` down and has not started it yet. -/
def State.Dispatching (s : State) (k : Runnable) : Prop := s.holds none = some k

theorem serving_iff {s : State} {i : Nat} {k : Runnable} :
    s.Serving i k ↔ ∃ th, s.threads[i]? = some th ∧ th.pc ≠ .ended ∧ th.runnable = k := by
  simp only [State.Serving, State.holds, holders, Option.bind_eq_some_iff, Thread.holds,
    Option.ite_none_left_eq_some, Option.some.injEq, ne_eq]

/-- A flag is up exactly if its runnable is neither dispatched nor at work. -/
theorem Inv.up_iff {s : State} (hi : Inv s) {k : Runnable} (hk : k ∈ s.pool.threadMap.keySet) :
    s.pool.threadMap.get k = some true ↔ ¬ s.Dispatching k ∧ ∀ i, ¬ s.Serving i k := by
  have hdown : s.pool.threadMap.get k = some false ↔ s.Dispatching k ∨ ∃ i, s.Serving i k := by
    rw [hi.exclusive.down_iff k, Option.exists]
    rfl
  obtain ⟨flag, hflag⟩ := Hashtable.mem_keySet_iff.mp hk
  rw [← not_exists, ← not_or, ← hdown, hflag]
  cases flag with
  | true => decide
  | false => decide

/-- No step overwrites the socket of a runnable that is at work. -/
theorem Inv.socket_step {s t : State} {a : Act} (hi : Inv s) {i : Nat} {k : Runnable}
    (hk : s.Serving i k) (hst : step s a = some t) :
    (t.runnables k).socket = (s.runnables k).socket := by
  cases step_cases hst with
  | setSocket k' hpc =>
    have hne : k ≠ k' := by
      rintro rfl
      have hholds : s.holds none = some k := by
        rw [State.holds, hpc]
        rfl
      exact nomatch hi.exclusive.unique _ _ _ hholds hk
    change (Function.update s.runnables k' _ k).socket = _
    rw [Function.update_of_ne hne]
  | ran j a th th' r hth hran =>
    change (Function.update s.runnables th.runnable r k).socket = _
    rw [Function.update_apply]
    split
    · rename_i heq
      rw [hran.keeps.socket, heq]
    · rfl
  | _ => rfl

/-- **One connection at a time.**  In every reachable state a runnable is at work in one thread at
most, which finds in its field the socket that it was started with; no step overwrites that field
while the runnable is at work; and its flag is up exactly if it is neither dispatched nor at
work. -/
theorem one_connection {n : Nat} {s : State} (h : (machine n).Reachable s) (k : Runnable) :
    (∀ i j, s.Serving i k → s.Serving j k → i = j) ∧
    (∀ i, s.Serving i k →
      (∃ th, s.threads[i]? = some th ∧ th.given ≠ none ∧ (s.runnables k).socket = th.given) ∧
      ∀ a t, step s a = some t → (t.runnables k).socket = (s.runnables k).socket) ∧
    (k ∈ s.pool.threadMap.keySet →
      (s.pool.threadMap.get k = some true ↔ ¬ s.Dispatching k ∧ ∀ i, ¬ s.Serving i k)) := by
  have hi := reachable_inv h
  refine ⟨fun i j hik hjk => ?_,
    fun i hik => ⟨?_, fun a t hst => hi.socket_step hik hst⟩, hi.up_iff⟩
  · exact Option.some.inj (hi.exclusive.unique _ _ _ hik hjk)
  · obtain ⟨th, hth, hlive, rfl⟩ := serving_iff.mp hik
    have hgood := hi.good i th hth hlive
    obtain ⟨socket, hgiven⟩ := hgood.given
    exact ⟨th, hth, by rw [hgiven]; exact nofun, hgood.socket⟩

/-- A connection is dispatched to the only runnable of a pool, which takes its first request. -/
def firstRequest : List Act :=
  [.accept, .getThread [0], .probe, .claim, .setSocket, .start, .thread 0 .getInputStream,
    .thread 0 .getOutputStream, .thread 0 (.readLine (some [unit '7', unit '~', unit '0']))]

theorem one_connection_first :
    ∃ s, (machine 0).run (machine 0).init firstRequest = some s ∧ s.Serving 0 0 ∧
      s.pool.threadMap.get 0 ≠ some true := by
  refine ⟨_, rfl, rfl, ?_⟩
  intro hup
  have hspec := one_connection (n := 0) ⟨firstRequest, rfl⟩ 0
  exact ((hspec.2.2 (by decide)).mp hup).2 0 rfl

/-- **A reply goes where its request came from**, whatever the runnable was used for before. -/
theorem reply_spec {n : Nat} {s : State} (h : (machine n).Reachable s) {i : Nat} {th : Thread}
    (hth : s.threads[i]? = some th) {readStr : JString} (hpc : th.pc = .replying readStr) :
    th.read = th.given ∧ th.sendOut = th.given ∧
      ∃ data, SocketData.getObjFromStr (some readStr) = .ok data ∧
        (s.runnables th.runnable).socketData.getStrFromObj = data.dealData.getStrFromObj := by
  have hgood := (reachable_inv h).good i th hth (by rw [hpc]; exact nofun)
  have hdata := hgood.socketData
  rw [hpc] at hdata
  obtain ⟨data, hparse, heq⟩ := hdata
  exact ⟨hgood.read (hpc ▸ rfl), hgood.sendOut (hpc ▸ rfl), data, hparse, by rw [heq]⟩

/-! ## 7. No connection is lost, except by giving up -/

/-- The threads that were started for socket `k`. -/
def State.startedFor (s : State) (k : Socket) : Nat := (s.threads.map Thread.given).count (some k)

/-- The socket is in the acceptor's hands, or one thread was started for it, or it is closed. -/
def State.Kept (s : State) (k : Socket) : Prop :=
  s.acceptor.socket = some k ∨ s.startedFor k = 1 ∨ k ∈ s.closed

def State.AllKept (s : State) : Prop := ∀ k < s.accepted, s.Kept k

/-- The steps with which the acceptor does not let go of a connection. -/
def Act.holdsOn : Act → Bool
  | .giveUp => false
  | .interrupt => false
  | _ => true

/-- What a step does with the connections. -/
inductive Moved (s t : State) (a : Act) : Prop where
  | same (hsocket : t.acceptor.socket = s.acceptor.socket)
      (hidle : t.acceptor.pc.idle = s.acceptor.pc.idle) (haccepted : t.accepted = s.accepted)
      (hstarted : t.threads.map Thread.given = s.threads.map Thread.given)
      (hon : a.holdsOn = true)
  | accepted (hidle : s.acceptor.pc.idle = true)
      (hsocket : t.acceptor.socket = some s.accepted) (hidle' : t.acceptor.pc.idle = false)
      (haccepted : t.accepted = s.accepted + 1)
      (hstarted : t.threads.map Thread.given = s.threads.map Thread.given)
      (hon : a.holdsOn = true)
  | started (k : Socket) (hk : s.acceptor.socket = some k)
      (hsocket : t.acceptor.socket = none) (haccepted : t.accepted = s.accepted)
      (hstarted : t.threads.map Thread.given = s.threads.map Thread.given ++ [some k])
      (hon : a.holdsOn = true)
  | dropped (k : Socket) (hk : s.acceptor.socket = some k)
      (hsocket : t.acceptor.socket = none) (haccepted : t.accepted = s.accepted)
      (hstarted : t.threads.map Thread.given = s.threads.map Thread.given)
      (hon : a.holdsOn = false)
  | failed (hidle : s.acceptor.pc.idle = true) (hsocket : t.acceptor.socket = none)
      (haccepted : t.accepted = s.accepted)
      (hstarted : t.threads.map Thread.given = s.threads.map Thread.given)
      (hon : a.holdsOn = true)

theorem map_given_set {threads : List Thread} {i : Nat} {th th' : Thread}
    (hi : threads[i]? = some th) (h : th'.given = th.given) :
    (threads.set i th').map Thread.given = threads.map Thread.given := by
  have hself : (threads.map Thread.given)[i]? = some th'.given := by
    rw [List.getElem?_map, hi, h]
    rfl
  obtain ⟨hlt, heq⟩ := List.getElem?_eq_some_iff.mp hself
  rw [List.map_set, ← heq]
  exact List.set_getElem_self hlt

theorem Inv.moved {s t : State} {a : Act} (hi : Inv s) (h : Stepped s a t) : Moved s t a := by
  cases h with
  | accepted hpc => exact .accepted (hpc ▸ rfl) rfl rfl rfl rfl rfl
  | searched a pc hold hnew hhand hhand' hclaims hkept =>
    refine .same rfl (hhand'.trans hhand.symm) rfl rfl ?_
    cases a with
    | giveUp => exact absurd rfl hkept.1
    | interrupt => exact absurd rfl hkept.2
    | _ => rfl
  | claimed i k hpc => exact .same rfl (hpc ▸ rfl) rfl rfl rfl
  | setSocket k hpc => exact .same rfl (hpc ▸ rfl) rfl rfl rfl
  | started k hpc =>
    obtain ⟨socket, hsocket⟩ := hi.inHand (hpc ▸ rfl)
    refine .started socket hsocket rfl rfl ?_ rfl
    rw [← hsocket, ← hi.set k hpc]
    exact List.map_append
  | failed hpc => exact .failed (hpc ▸ rfl) rfl rfl rfl rfl
  | interrupted i hpc =>
    obtain ⟨socket, hsocket⟩ := hi.inHand (hpc ▸ rfl)
    exact .dropped socket hsocket rfl rfl rfl rfl
  | gaveUp i hpc =>
    obtain ⟨socket, hsocket⟩ := hi.inHand (hpc ▸ rfl)
    exact .dropped socket hsocket rfl rfl rfl rfl
  | ran i a th th' r hth hran =>
    exact .same rfl rfl rfl (map_given_set hth hran.keeps.given) rfl
  | got i th hth hpc hk => exact .same rfl rfl rfl (map_given_set hth rfl) rfl
  | missed i th hth hpc hk => exact .same rfl rfl rfl (map_given_set hth rfl) rfl
  | freed i th hth hpc => exact .same rfl rfl rfl (map_given_set hth rfl) rfl

/-- The account of the sockets: the one in hand has no thread yet, and neither has a number that is
still to come. -/
structure Numbered (s : State) : Prop where
  idle : s.acceptor.pc.idle = true → s.acceptor.socket = none
  inHand : ∀ k, s.acceptor.socket = some k → k < s.accepted ∧ s.startedFor k = 0
  unborn : ∀ k, s.accepted ≤ k → s.startedFor k = 0
  closed : s.closed = []

theorem closed_step {s t : State} {a : Act} (h : Stepped s a t) : t.closed = s.closed := by
  cases h with
  | _ => rfl

theorem startedFor_congr {s t : State}
    (h : t.threads.map Thread.given = s.threads.map Thread.given) (k : Socket) :
    t.startedFor k = s.startedFor k := by
  rw [State.startedFor, State.startedFor, h]

theorem startedFor_start {s t : State} {k : Socket}
    (h : t.threads.map Thread.given = s.threads.map Thread.given ++ [some k]) (j : Socket) :
    t.startedFor j = s.startedFor j + if j = k then 1 else 0 := by
  rw [State.startedFor, State.startedFor, h, List.count_append, List.count_singleton]
  by_cases hj : j = k
  · simp [hj]
  · simp [hj, Ne.symm hj]

theorem numbered_init (n : Nat) : Numbered (machine n).init :=
  ⟨fun _ => rfl, nofun, fun _ _ => rfl, rfl⟩

/-- The account of an acceptor with empty hands. -/
theorem Numbered.emptied {s t : State} (hn : Numbered s) (hsocket : t.acceptor.socket = none)
    (haccepted : t.accepted = s.accepted)
    (hstarted : t.threads.map Thread.given = s.threads.map Thread.given)
    (hclosed : t.closed = []) : Numbered t where
  idle _ := hsocket
  inHand k hk := by
    rw [hsocket] at hk
    exact nomatch hk
  unborn k hk := by
    rw [startedFor_congr hstarted]
    exact hn.unborn k (haccepted ▸ hk)
  closed := hclosed

theorem Numbered.step {s t : State} {a : Act} (hi : Inv s) (hn : Numbered s)
    (hst : Stepped s a t) : Numbered t := by
  have hclosed : t.closed = [] := (closed_step hst).trans hn.closed
  cases hi.moved hst with
  | same hsocket hidle haccepted hstarted hon =>
    refine ⟨?_, ?_, ?_, hclosed⟩
    · rw [hsocket, hidle]
      exact hn.idle
    · intro k hk
      rw [haccepted, startedFor_congr hstarted]
      exact hn.inHand k (hsocket ▸ hk)
    · intro k hk
      rw [startedFor_congr hstarted]
      exact hn.unborn k (haccepted ▸ hk)
  | accepted hidle hsocket hidle' haccepted hstarted hon =>
    refine ⟨?_, ?_, ?_, hclosed⟩
    · rw [hidle']
      exact nofun
    · intro k hk
      rw [hsocket, Option.some.injEq] at hk
      subst hk
      rw [haccepted, startedFor_congr hstarted]
      exact ⟨Nat.lt_succ_self _, hn.unborn _ le_rfl⟩
    · intro k hk
      rw [startedFor_congr hstarted]
      exact hn.unborn k (by omega)
  | started k hk hsocket haccepted hstarted hon =>
    refine ⟨fun _ => hsocket, ?_, ?_, hclosed⟩
    · rw [hsocket]
      exact nofun
    · intro j hj
      have hold : s.accepted ≤ j := haccepted ▸ hj
      have hjk : j ≠ k := by
        rintro rfl
        exact Nat.not_lt.mpr hold (hn.inHand j hk).1
      rw [startedFor_start hstarted, hn.unborn j hold, if_neg hjk]
  | dropped k hk hsocket haccepted hstarted hon =>
    exact hn.emptied hsocket haccepted hstarted hclosed
  | failed hidle hsocket haccepted hstarted hon =>
    exact hn.emptied hsocket haccepted hstarted hclosed

theorem reachable_numbered {n : Nat} {s : State} (h : (machine n).Reachable s) : Numbered s :=
  h.induct (numbered_init n) fun _ _ _ hr hn hst => hn.step (reachable_inv hr) (step_cases hst)

/-- **A step keeps every connection exactly if the acceptor does not let go of one.** -/
theorem allKept_step {s t : State} {a : Act} (hi : Inv s) (hn : Numbered s) (hs : s.AllKept)
    (hst : Stepped s a t) : t.AllKept ↔ a.holdsOn = true := by
  have hclosed := closed_step hst
  cases hi.moved hst with
  | same hsocket hidle haccepted hstarted hon =>
    refine iff_of_true ?_ hon
    intro k hk
    rw [State.Kept, hsocket, startedFor_congr hstarted, hclosed]
    exact hs k (haccepted ▸ hk)
  | accepted hidle hsocket hidle' haccepted hstarted hon =>
    refine iff_of_true ?_ hon
    intro k hk
    rw [State.Kept, hsocket, startedFor_congr hstarted, hclosed]
    rcases Nat.lt_succ_iff_lt_or_eq.mp (haccepted ▸ hk) with hold | rfl
    · have hkept := hs k hold
      rw [State.Kept, hn.idle hidle] at hkept
      exact Or.inr (hkept.resolve_left nofun)
    · exact Or.inl rfl
  | started k hk hsocket haccepted hstarted hon =>
    refine iff_of_true ?_ hon
    intro j hj
    rw [State.Kept, startedFor_start hstarted, hclosed]
    by_cases hjk : j = k
    · rw [if_pos hjk, hjk, (hn.inHand k hk).2]
      exact Or.inr (Or.inl rfl)
    · have hkept := hs j (haccepted ▸ hj)
      rw [State.Kept, hk, Option.some.injEq] at hkept
      rw [if_neg hjk]
      exact Or.inr (hkept.resolve_left (Ne.symm hjk))
  | dropped k hk hsocket haccepted hstarted hon =>
    -- the socket that was in hand is nowhere now
    obtain ⟨hlt, hnone⟩ := hn.inHand k hk
    have hlost : ¬ t.Kept k := by
      rw [State.Kept, hsocket, startedFor_congr hstarted, hclosed, hnone, hn.closed]
      simp
    refine iff_of_false (fun hall => hlost (hall k (haccepted ▸ hlt))) ?_
    rw [hon]
    exact Bool.false_ne_true
  | failed hidle hsocket haccepted hstarted hon =>
    refine iff_of_true ?_ hon
    intro k hk
    have hkept := hs k (haccepted ▸ hk)
    rw [State.Kept, hn.idle hidle] at hkept
    rw [State.Kept, startedFor_congr hstarted, hclosed]
    exact Or.inr (hkept.resolve_left nofun)

/-- **No connection is lost in exactly those runs in which the acceptor neither gives one up after
its last attempt nor is interrupted between two attempts.** -/
theorem allKept_iff (n : Nat) (as : List Act) {s : State}
    (h : (machine n).run (machine n).init as = some s) :
    (machine n).Along State.AllKept (machine n).init as ↔
      (machine n).Meets (fun _ a => a.holdsOn = true) (machine n).init as := by
  refine Machine.along_iff_meets (fun k hk => absurd hk (Nat.not_lt_zero k)) ?_ h
  intro s a t hr hs hst
  exact allKept_step (reachable_inv hr) (reachable_numbered hr) hs (step_cases hst)

/-- `allKept_iff` where a connection is dispatched, and where the next one is still waiting. -/
theorem allKept_iff_first :
    (machine 0).Along State.AllKept (machine 0).init
      (firstRequest ++ [.accept, .getThread [0], .probe, .probe, .wake]) :=
  (allKept_iff 0 _ rfl).mpr (by decide)

/-- One attempt to get a thread that finds the only flag of the pool down. -/
def attempt : List Act := [.getThread [0], .probe, .probe, .wake]

/-- The second connection finds the only runnable at work, `MAX_TRY_TIMES` times. -/
def overload : List Act :=
  firstRequest ++ .accept :: (List.replicate MAX_TRY_TIMES attempt).flatten ++ [.giveUp]

/-- Then it is lost: it is in nobody's hands, no thread was started for it, and it is open. -/
theorem connection_lost :
    ¬ ∀ (n : Nat) (s : State), (machine n).Reachable s → s.AllKept := by
  intro h
  have hrun : ∃ s, (machine 0).run (machine 0).init overload = some s ∧ s.accepted = 2 ∧
      s.acceptor.socket = none ∧ s.startedFor 1 = 0 ∧ s.closed = [] :=
    ⟨_, rfl, rfl, rfl, by decide, rfl⟩
  obtain ⟨s, hs, haccepted, hsocket, hstarted, hclosed⟩ := hrun
  have hkept : s.Kept 1 := h 0 s ⟨overload, hs⟩ 1 (by omega)
  rw [State.Kept, hsocket, hstarted, hclosed] at hkept
  simp at hkept

/-! ## 8. The calls are atomic after all -/

/-- Putting the flag down is a call of `getThread`, putting it up is one of `freeThread`, and the
other steps do not touch the pool. -/
theorem Inv.pool_step {s t : State} {a : Act} (hi : Inv s) (h : Stepped s a t) :
    t.pool = s.pool ∨
      ∃ call, TcpIpBIOServerThreadPool.step (.ofPool s.pool) call = some (.ofPool t.pool) := by
  cases h with
  | claimed i k hpc =>
    have hup : s.pool.threadMap.get k = some true := hi.claiming i k hpc
    exact Or.inr ⟨_, TcpIpBIOServerThreadPool.step_getThread hi.initialised hup⟩
  | freed i th hth hpc =>
    have hself : s.holds (some i) = some th.runnable :=
      State.holds_thread hth (by rw [hpc]; exact nofun)
    have hmem : th.runnable ∈ s.pool.threadMap.keySet :=
      Hashtable.mem_keySet_of_get ((hi.exclusive.down_iff th.runnable).mpr ⟨_, hself⟩)
    exact Or.inr ⟨_, TcpIpBIOServerThreadPool.step_freeThread hi.initialised hmem⟩
  | _ => exact Or.inl rfl

/-- **The pool of the server is one that a sequence of whole calls can lead to.** -/
theorem reachable_pool {n : Nat} {s : State} (h : (machine n).Reachable s) :
    (TcpIpBIOServerThreadPool.machine n).Reachable (.ofPool s.pool) := by
  refine Machine.Reachable.simulate
    (fun s : State => TcpIpBIOServerThreadPool.State.ofPool s.pool) ?_ ?_ h
  · have hinit : TcpIpBIOServerThreadPool.State.ofPool (machine n).init.pool
        = (TcpIpBIOServerThreadPool.machine n).init :=
      congrArg (TcpIpBIOServerThreadPool.State.mk _) (TcpIpBIOServerThreadPool.lent_init n)
    exact hinit ▸ Machine.reachable_init
  · intro s a t hr hst
    refine ((reachable_inv hr).pool_step (step_cases hst)).imp_left ?_
    intro hpool
    rw [hpool]

/-- **At most `MAX_POOL_NUM + 1` runnables are dispatched or at work.** -/
theorem card_busy_le {n : Nat} {s : State} (h : (machine n).Reachable s) {busy : Finset Runnable}
    (hbusy : ∀ k ∈ busy, s.Dispatching k ∨ ∃ i, s.Serving i k) : busy.card ≤ n + 1 := by
  have hsubset : busy ⊆ s.pool.lent := by
    intro k hk
    rw [TcpIpBIOServerThreadPool.mem_lent, (reachable_inv h).exclusive.down_iff k, Option.exists]
    exact hbusy k hk
  calc busy.card ≤ s.pool.lent.card := Finset.card_le_card hsubset
    _ ≤ n + 1 := TcpIpBIOServerThreadPool.card_le_succ (reachable_pool h)

end TcpIpBIOServer
end JavaStudy
