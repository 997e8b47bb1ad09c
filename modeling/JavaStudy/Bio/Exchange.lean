/-
# A request and its reply: clients, pooled connections, server threads

`TcpIpBIOClientThread.run` in full, any number of them, on the connections of
`TcpIpBIOClientSocketPool`; at the other end of each connection a `TcpIpBIOServerThread`.  A
connection is two FIFO streams of characters, which a receiver gets in deliveries of any size.
`println` appends its line with the platform's line separator, which is a parameter.  A client
makes a NEW `BufferedReader` for its request; a server thread keeps one.

Every character carries the number of the client whose request it belongs to, or whose request
the reply answers.  Nothing in the program depends on the mark.

* The machine simulates the one of `TcpIpBIOClientSocketPool`, so the discipline of the flags holds
  here too (`step_simulates`).
* A connection that nobody holds is `Idle`; one that is held is idle, or its request or the reply
  is on the way (`Serving`).
* This needs that no delivery ends between the CR and the LF of a line separator.  Otherwise the
  client returns the line, frees the socket, and the LF is what the next client reads first.
-/
import JavaStudy.Bio.SocketData
import JavaStudy.Bio.SocketPool
import JavaStudy.Lib.LineReader

namespace JavaStudy
namespace TcpIpBIOExchange

open JavaText TcpIpBIOClientSocketPool

/-! ## 1. The wire -/

/-- A character, marked with a client. -/
abbrev Sym := JChar × Nat

inductive LineSeparator where
  | lf
  | cr
  | crlf
  deriving DecidableEq

def LineSeparator.text : LineSeparator → JString
  | .lf => [unit '\n']
  | .cr => [unit '\r']
  | .crlf => [unit '\r', unit '\n']

def breaks : Breaks Sym where
  cr x := x.1 == unit '\r'
  lf x := x.1 == unit '\n'
  disjoint x h := by
    rw [beq_iff_eq] at h
    rw [h]
    decide

/-- A text with the mark of client `c`. -/
def mark (c : Nat) (text : JString) : List Sym := text.map fun x => (x, c)

/-- What `println` writes. -/
def println (sep : LineSeparator) (text : JString) (c : Nat) : List Sym :=
  mark c text ++ mark c sep.text

/-! ## 2. The server's end -/

/-- Where `TcpIpBIOServerThread.run` stands. -/
inductive ServerPc where
  /-- In `readLine`. -/
  | reading
  /-- It has a line. -/
  | dealing (line : List Sym)
  /-- It has dealt with the request of that client. -/
  | replying (c : Nat)
  /-- An exception has left the loop. -/
  | stopped

structure ServerThread where
  read : BufferedReader Sym
  socketData : SocketData
  pc : ServerPc

structure Connection where
  /-- Written by clients and not delivered yet. -/
  requests : List Sym
  /-- Written by the server thread and not delivered yet. -/
  replies : List Sym
  server : ServerThread

inductive ServerAct where
  | read (n : Nat)
  | deal
  | reply

/-- The client that a line comes from. -/
def author (line : List Sym) : Nat := (line.head?.map Prod.snd).getD 0

/-- One step of the server thread of a connection. -/
def Connection.serve (sep : LineSeparator) (conn : Connection) : ServerAct → Option Connection
  | .read n =>
    match conn.server.pc with
    | .reading =>
      match conn.server.read.receive breaks n conn.requests with
      | some (read, none, rest) =>
        some { conn with requests := rest, server := { conn.server with read } }
      | some (read, some line, rest) =>
        some { conn with requests := rest, server := { conn.server with read, pc := .dealing line } }
      | none => none
    | _ => none
  | .deal =>
    match conn.server.pc with
    | .dealing line =>
      match SocketData.getObjFromStr (some (line.map Prod.fst)) with
      | .ok socketData =>
        some { conn with server :=
          { conn.server with socketData := socketData.dealData, pc := .replying (author line) } }
      | .error _ => some { conn with server := { conn.server with pc := .stopped } }
    | _ => none
  | .reply =>
    match conn.server.pc with
    | .replying c =>
      some { conn with
        replies := conn.replies ++ println sep conn.server.socketData.getStrFromObj c
        server := { conn.server with pc := .reading } }
    | _ => none

/-! ## 3. The clients -/

/-- Where `TcpIpBIOClientThread.run` stands. -/
inductive ClientPc where
  | trying (i : Nat)
  | sleeping (i : Nat)
  /-- It has a socket and has not sent its request. -/
  | sending
  /-- In `readLine` of its reader. -/
  | receiving (receive : BufferedReader Sym)
  /-- Its `socketData` is the reply. -/
  | received
  | freeing (thrown : Option Throwable)
  | ended (thrown : Option Throwable)

structure Client where
  socket : Option Socket
  socketData : SocketData
  completed : Bool
  /-- Everything that was delivered to its reader. -/
  took : List Sym
  pc : ClientPc

/-- What may be thrown in the `try` block at that place; the connections are reliable, and what
`getObjFromStr` throws is in `Client.complete`. -/
def ClientPc.throws : ClientPc → Throwable → Bool
  | .trying _, e => e == .unchecked
  | .sleeping _, e => e == .interruptedException || e == .unchecked
  | .sending, e => e == .ioException || e == .unchecked
  | _, _ => false

/-- The client has read this line. -/
def Client.complete (client : Client) (line : List Sym) : Client :=
  match SocketData.getObjFromStr (some (line.map Prod.fst)) with
  | .ok socketData => { client with socketData, completed := true, pc := .received }
  | .error _ => { client with pc := .freeing (some .unchecked) }

structure State where
  pool : Pool
  clients : Nat → Client
  connections : Socket → Connection

def State.setClient (s : State) (c : Nat) (client : Client) : State :=
  { s with clients := Function.update s.clients c client }

def State.setConnection (s : State) (k : Socket) (conn : Connection) : State :=
  { s with connections := Function.update s.connections k conn }

inductive Act where
  | getSocket (c : Nat) (keySet : List Socket)
  | wake (c : Nat)
  | leave (c : Nat)
  | throw (c : Nat) (e : Throwable)
  | send (c : Nat)
  /-- A round of the client's `readLine`, with a delivery of `n` characters. -/
  | receive (c : Nat) (n : Nat)
  | free (c : Nat)
  | server (k : Socket) (a : ServerAct)

def step (sep : LineSeparator) (s : State) : Act → Option State
  | .getSocket c keySet =>
    match (s.clients c).pc with
    | .trying i =>
      if i < MAX_TRY_TIMES ∧ keySet.Perm s.pool.socketMap.keySet then
        let r := TcpIpBIOClientSocketPool.getSocket keySet s.pool
        some (State.setClient { s with pool := r.1 } c
          { s.clients c with socket := r.2, pc := if r.2 = none then .sleeping i else .sending })
      else none
    | _ => none
  | .wake c =>
    match (s.clients c).pc with
    | .sleeping i => some (s.setClient c { s.clients c with pc := .trying (i + 1) })
    | _ => none
  | .leave c =>
    match (s.clients c).pc with
    | .trying i =>
      if i < MAX_TRY_TIMES then none
      else some (s.setClient c { s.clients c with pc := .freeing none })
    | .received => some (s.setClient c { s.clients c with pc := .freeing none })
    | _ => none
  | .throw c e =>
    if (s.clients c).pc.throws e then
      some (s.setClient c { s.clients c with pc := .freeing (uncaught e) })
    else none
  | .send c =>
    match (s.clients c).pc, (s.clients c).socket with
    | .sending, some k =>
      let line := println sep (s.clients c).socketData.getStrFromObj c
      some ((s.setConnection k
        { s.connections k with requests := (s.connections k).requests ++ line }).setClient c
        { s.clients c with pc := .receiving .fresh })
    | _, _ => none
  | .receive c n =>
    match (s.clients c).pc, (s.clients c).socket with
    | .receiving receive, some k =>
      let took := (s.clients c).took ++ receive.delivered n (s.connections k).replies
      match receive.receive breaks n (s.connections k).replies with
      | some (receive, none, rest) =>
        some ((s.setConnection k { s.connections k with replies := rest }).setClient c
          { s.clients c with took, pc := .receiving receive })
      | some (_, some line, rest) =>
        some ((s.setConnection k { s.connections k with replies := rest }).setClient c
          (Client.complete { s.clients c with took } line))
      | none => none
    | _, _ => none
  | .free c =>
    match (s.clients c).pc with
    | .freeing thrown =>
      some (State.setClient { s with pool := freeSocket (s.clients c).socket s.pool } c
        { s.clients c with pc := .ended thrown })
    | _ => none
  | .server k a => ((s.connections k).serve sep a).map (s.setConnection k)

/-- Client `c` starts with `data c`; every connection is new. -/
def machine (sep : LineSeparator) (data : Nat → SocketData) (pool : Pool) : Machine State Act where
  init :=
    { pool
      clients := fun c => ⟨none, data c, false, [], .trying 0⟩
      connections := fun _ => ⟨[], [], ⟨.fresh, ⟨0, 0⟩, .reading⟩⟩ }
  step := step sep

/-- Does the step end a delivery between a CR and an LF? -/
def State.cuts (s : State) : Act → Bool
  | .receive c n =>
    match (s.clients c).pc, (s.clients c).socket with
    | .receiving receive, some k =>
      receive.cb.isEmpty && BufferedReader.cut breaks n (s.connections k).replies
    | _, _ => false
  | .server k (.read n) =>
    (s.connections k).server.read.cb.isEmpty &&
      BufferedReader.cut breaks n (s.connections k).requests
  | _ => false

/-! ## 4. What a step can do -/

/-- A step, with its guard and its outcome. -/
inductive Stepped (sep : LineSeparator) (s : State) : Act → State → Prop where
  | getSocket {c i : Nat} {keySet : List Socket} (hpc : (s.clients c).pc = .trying i)
      (htry : i < MAX_TRY_TIMES) (hperm : keySet.Perm s.pool.socketMap.keySet) :
      Stepped sep s (.getSocket c keySet) (State.setClient
        { s with pool := (TcpIpBIOClientSocketPool.getSocket keySet s.pool).1 } c
        { s.clients c with
          socket := (TcpIpBIOClientSocketPool.getSocket keySet s.pool).2
          pc := if (TcpIpBIOClientSocketPool.getSocket keySet s.pool).2 = none then .sleeping i
            else .sending })
  | wake {c i : Nat} (hpc : (s.clients c).pc = .sleeping i) :
      Stepped sep s (.wake c) (s.setClient c { s.clients c with pc := .trying (i + 1) })
  /-- No socket after all tries. -/
  | giveUp {c i : Nat} (hpc : (s.clients c).pc = .trying i) (htry : ¬i < MAX_TRY_TIMES) :
      Stepped sep s (.leave c) (s.setClient c { s.clients c with pc := .freeing none })
  | finish {c : Nat} (hpc : (s.clients c).pc = .received) :
      Stepped sep s (.leave c) (s.setClient c { s.clients c with pc := .freeing none })
  | throw {c : Nat} {e : Throwable} (hthrows : (s.clients c).pc.throws e = true) :
      Stepped sep s (.throw c e) (s.setClient c { s.clients c with pc := .freeing (uncaught e) })
  | send {c : Nat} {k : Socket} (hpc : (s.clients c).pc = .sending)
      (hsocket : (s.clients c).socket = some k) : Stepped sep s (.send c)
        ((s.setConnection k
          { s.connections k with
            requests := (s.connections k).requests
              ++ println sep (s.clients c).socketData.getStrFromObj c }).setClient c
          { s.clients c with pc := .receiving .fresh })
  /-- The line is not complete. -/
  | part {c n : Nat} {k : Socket} {receive receive' : BufferedReader Sym} {rest : List Sym}
      (hpc : (s.clients c).pc = .receiving receive) (hsocket : (s.clients c).socket = some k)
      (hr : receive.receive breaks n (s.connections k).replies = some (receive', none, rest)) :
      Stepped sep s (.receive c n)
        ((s.setConnection k { s.connections k with replies := rest }).setClient c
          { s.clients c with
            took := (s.clients c).took ++ receive.delivered n (s.connections k).replies
            pc := .receiving receive' })
  | line {c n : Nat} {k : Socket} {receive receive' : BufferedReader Sym} {line rest : List Sym}
      (hpc : (s.clients c).pc = .receiving receive) (hsocket : (s.clients c).socket = some k)
      (hr : receive.receive breaks n (s.connections k).replies = some (receive', some line, rest)) :
      Stepped sep s (.receive c n)
        ((s.setConnection k { s.connections k with replies := rest }).setClient c
          (Client.complete { s.clients c with
            took := (s.clients c).took ++ receive.delivered n (s.connections k).replies } line))
  | free {c : Nat} {thrown : Option Throwable} (hpc : (s.clients c).pc = .freeing thrown) :
      Stepped sep s (.free c)
        (State.setClient { s with pool := freeSocket (s.clients c).socket s.pool } c
          { s.clients c with pc := .ended thrown })
  | server {k : Socket} {a : ServerAct} {conn : Connection}
      (hst : (s.connections k).serve sep a = some conn) :
      Stepped sep s (.server k a) (s.setConnection k conn)

theorem step_cases {sep : LineSeparator} {s t : State} {a : Act} (h : step sep s a = some t) :
    Stepped sep s a t := by
  cases a with
  | getSocket c keySet =>
    simp only [step] at h
    split at h
    · rename_i i hpc
      rw [Option.ite_none_right_eq_some, Option.some.injEq] at h
      obtain ⟨⟨htry, hperm⟩, rfl⟩ := h
      exact .getSocket hpc htry hperm
    · exact absurd h (by simp)
  | wake c =>
    simp only [step] at h
    split at h
    · rename_i i hpc
      cases h
      exact .wake hpc
    · exact absurd h (by simp)
  | leave c =>
    simp only [step] at h
    split at h
    · rename_i i hpc
      rw [Option.ite_none_left_eq_some, Option.some.injEq] at h
      obtain ⟨htry, rfl⟩ := h
      exact .giveUp hpc htry
    · rename_i hpc
      cases h
      exact .finish hpc
    · exact absurd h (by simp)
  | throw c e =>
    simp only [step, Option.ite_none_right_eq_some, Option.some.injEq] at h
    obtain ⟨hthrows, rfl⟩ := h
    exact .throw hthrows
  | send c =>
    simp only [step] at h
    split at h
    · rename_i k hpc hsocket
      cases h
      exact .send hpc hsocket
    · exact absurd h (by simp)
  | receive c n =>
    simp only [step] at h
    split at h
    · rename_i receive k hpc hsocket
      split at h
      · rename_i receive' rest hr
        cases h
        exact .part hpc hsocket hr
      · rename_i receive' line rest hr
        cases h
        exact .line hpc hsocket hr
      · exact absurd h (by simp)
    · exact absurd h (by simp)
  | free c =>
    simp only [step] at h
    split at h
    · rename_i thrown hpc
      cases h
      exact .free hpc
    · exact absurd h (by simp)
  | server k a =>
    obtain ⟨conn, hst, rfl⟩ := Option.map_eq_some_iff.mp h
    exact .server hst

/-! ## 5. The discipline of the flags -/

def ClientPc.toPool : ClientPc → TcpIpBIOClientSocketPool.Pc
  | .trying i => .trying i
  | .sleeping i => .sleeping i
  | .sending => .using
  | .receiving _ => .using
  | .received => .using
  | .freeing thrown => .freeing thrown
  | .ended thrown => .ended thrown

def Client.toPool (client : Client) : TcpIpBIOClientSocketPool.Client :=
  ⟨client.socket, client.pc.toPool⟩

/-- The state as the pool's machine sees it. -/
def State.toPool (s : State) : TcpIpBIOClientSocketPool.State :=
  ⟨s.pool, fun c => (s.clients c).toPool⟩

def State.holds (s : State) (c : Nat) : Option Socket := (s.clients c).toPool.holds

theorem toPool_setClient (s : State) (c : Nat) (client : Client) :
    (s.setClient c client).toPool = s.toPool.setClient c client.toPool := by
  unfold State.toPool State.setClient TcpIpBIOClientSocketPool.State.setClient
  congr 1
  funext d
  simp only [Function.update_apply]
  split <;> rfl

theorem toPool_clients (s : State) (c : Nat) :
    s.toPool.clients c = ⟨(s.clients c).socket, (s.clients c).pc.toPool⟩ := rfl

theorem toPool_setConnection (s : State) (k : Socket) (conn : Connection) :
    (s.setConnection k conn).toPool = s.toPool := rfl

/-- A client that goes on inside the `try` block, or leaves it with an exception, is a step of the
pool's client or none. -/
theorem simulate_complete (s : State) (c : Nat) (client : Client) (line : List Sym)
    (hpc : (s.clients c).pc.toPool = .using) (hsocket : client.socket = (s.clients c).socket) :
    s.toPool.setClient c (client.complete line).toPool = s.toPool ∨
    ∃ b, TcpIpBIOClientSocketPool.step s.toPool b
      = some (s.toPool.setClient c (client.complete line).toPool) := by
  have hclient : s.toPool.clients c = ⟨client.socket, .using⟩ := by
    show (s.clients c).toPool = _
    rw [Client.toPool, hpc, hsocket]
  unfold Client.complete
  split
  · exact Or.inl (setClient_eq_self hclient.symm)
  · refine Or.inr ⟨.throw c .unchecked, ?_⟩
    simp only [TcpIpBIOClientSocketPool.step, hclient]
    rfl

/-- **The machine simulates the pool's machine.** -/
theorem step_simulates {sep : LineSeparator} {s t : State} {a : Act} (h : Stepped sep s a t) :
    t.toPool = s.toPool ∨ ∃ b, TcpIpBIOClientSocketPool.step s.toPool b = some t.toPool := by
  cases h with
  | @getSocket c i keySet hpc htry hperm =>
    refine Or.inr ⟨.getSocket c keySet, ?_⟩
    rw [toPool_setClient, Client.toPool, apply_ite ClientPc.toPool]
    have hguard : i < MAX_TRY_TIMES ∧ keySet.Perm s.toPool.pool.socketMap.keySet := ⟨htry, hperm⟩
    simp only [TcpIpBIOClientSocketPool.step, toPool_clients, hpc, ClientPc.toPool,
      if_pos hguard]
    rfl
  | @wake c i hpc =>
    refine Or.inr ⟨.wake c, ?_⟩
    rw [toPool_setClient]
    simp only [TcpIpBIOClientSocketPool.step, toPool_clients, Client.toPool, hpc,
      ClientPc.toPool]
  | @giveUp c i hpc htry =>
    refine Or.inr ⟨.leave c, ?_⟩
    rw [toPool_setClient]
    simp only [TcpIpBIOClientSocketPool.step, toPool_clients, Client.toPool, hpc,
      ClientPc.toPool, if_neg htry]
  | @finish c hpc =>
    refine Or.inr ⟨.leave c, ?_⟩
    rw [toPool_setClient]
    simp only [TcpIpBIOClientSocketPool.step, toPool_clients, Client.toPool, hpc,
      ClientPc.toPool]
  | @throw c e hthrows =>
    refine Or.inr ⟨.throw c e, ?_⟩
    have hpool : (s.toPool.clients c).pc.throws e = true := by
      rw [toPool_clients]
      cases hpc : (s.clients c).pc <;> rw [hpc] at hthrows <;> first | exact hthrows | cases hthrows
    rw [toPool_setClient]
    simp only [TcpIpBIOClientSocketPool.step, if_pos hpool]
    rfl
  | send hpc _ =>
    refine Or.inl ?_
    rw [toPool_setClient, toPool_setConnection]
    refine setClient_eq_self ?_
    rw [toPool_clients, hpc]
    rfl
  | part hpc _ _ =>
    refine Or.inl ?_
    rw [toPool_setClient, toPool_setConnection]
    refine setClient_eq_self ?_
    rw [toPool_clients, hpc]
    rfl
  | @line c n k receive receive' line rest hpc _ _ =>
    have huse : (s.clients c).pc.toPool = .using := by rw [hpc]; rfl
    rw [toPool_setClient, toPool_setConnection]
    exact simulate_complete s c _ _ huse rfl
  | @free c thrown hpc =>
    refine Or.inr ⟨.free c, ?_⟩
    rw [toPool_setClient]
    simp only [TcpIpBIOClientSocketPool.step, toPool_clients, Client.toPool, hpc,
      ClientPc.toPool]
    rfl
  | server _ => exact Or.inl rfl

/-- **What the pool's machine guarantees holds here.** -/
theorem toPool_inv {sep : LineSeparator} {data : Nat → SocketData} {MAX_POOL_NUM : Nat}
    {net : Network} {pool : Pool} (hinit : init MAX_POOL_NUM net Pool.fresh = (pool, .ok ()))
    {s : State} (h : (machine sep data pool).Reachable s) :
    TcpIpBIOClientSocketPool.Inv s.toPool := by
  have hpool : (TcpIpBIOClientSocketPool.machine Pool.fresh).step
      (TcpIpBIOClientSocketPool.machine Pool.fresh).init (.init MAX_POOL_NUM net)
      = some (machine sep data pool).init.toPool := by
    simp only [TcpIpBIOClientSocketPool.machine, TcpIpBIOClientSocketPool.step, hinit]
    rfl
  refine TcpIpBIOClientSocketPool.reachable_inv ?_
  refine Machine.Reachable.simulate State.toPool ?_ ?_ h
  · exact Machine.reachable_init.step hpool
  · exact fun _ _ _ _ hst => step_simulates (step_cases hst)

/-! ## 6. What a connection is in the middle of -/

@[simp] theorem map_fst_mark (c : Nat) (text : JString) : (mark c text).map Prod.fst = text := by
  rw [mark, List.map_map]
  exact List.map_id text

theorem author_mark {c : Nat} {text : JString} (h : text ≠ []) : author (mark c text) = c := by
  obtain ⟨x, rest, rfl⟩ := List.exists_cons_of_ne_nil h
  rfl

theorem snd_of_mem_println {sep : LineSeparator} {text : JString} {c : Nat} {x : Sym}
    (h : x ∈ mark c text ++ mark c sep.text) : x.2 = c := by
  rw [mark, mark, ← List.map_append] at h
  obtain ⟨y, -, rfl⟩ := List.mem_map.mp h
  rfl

/-- A printed object is one terminated line. -/
theorem message (sep : LineSeparator) (data : SocketData) (c : Nat) :
    BufferedReader.Message breaks (mark c data.getStrFromObj) (mark c sep.text) where
  ne_nil := by
    intro h
    exact data.getStrFromObj_ne_nil (List.map_eq_nil_iff.mp h)
  plain := by
    intro x hx
    obtain ⟨y, hy, rfl⟩ := List.mem_map.mp hx
    have hblank := data.blank_getStrFromObj y hy
    have hcr : y ≠ unit '\r' := by
      rintro rfl
      exact absurd hblank (by decide)
    have hlf : y ≠ unit '\n' := by
      rintro rfl
      exact absurd hblank (by decide)
    simp [BufferedReader.plain, breaks, hcr, hlf]
  terminator := by
    cases sep with
    | lf => exact .single _ rfl
    | cr => exact .single _ rfl
    | crlf => exact .crlf _ _ rfl rfl

/-- Nothing is on the way and the server thread waits for a line. -/
structure Idle (conn : Connection) : Prop where
  requests : conn.requests = []
  replies : conn.replies = []
  pc : conn.server.pc = .reading
  quiet : BufferedReader.Quiet breaks conn.server.read

/-- The request of client `c`, which started with `data`, is on its way, or its reply; `receive` is
the client's reader. -/
inductive Serving (sep : LineSeparator) (c : Nat) (data : SocketData)
    (receive : BufferedReader Sym) (conn : Connection) : Prop where
  | asked (hreceive : receive = .fresh) (hreplies : conn.replies = [])
      (hpc : conn.server.pc = .reading)
      (h : BufferedReader.Expecting breaks (mark c data.getStrFromObj) (mark c sep.text)
        conn.server.read conn.requests)
  | dealing (hreceive : receive = .fresh) (hreplies : conn.replies = [])
      (hpc : conn.server.pc = .dealing (mark c data.getStrFromObj)) (hrequests : conn.requests = [])
      (hquiet : BufferedReader.Quiet breaks conn.server.read)
  | replying (hreceive : receive = .fresh) (hreplies : conn.replies = [])
      (hpc : conn.server.pc = .replying c) (hdata : conn.server.socketData = data.dealData)
      (hrequests : conn.requests = []) (hquiet : BufferedReader.Quiet breaks conn.server.read)
  | answered (hpc : conn.server.pc = .reading) (hrequests : conn.requests = [])
      (hquiet : BufferedReader.Quiet breaks conn.server.read)
      (h : BufferedReader.Expecting breaks (mark c data.dealData.getStrFromObj) (mark c sep.text)
        receive conn.replies)

/-- The server thread of an idle connection at most skips the rest of a terminator. -/
theorem Idle.serve {sep : LineSeparator} {conn conn' : Connection} {a : ServerAct}
    (h : Idle conn) (hst : conn.serve sep a = some conn') : Idle conn' := by
  cases a with
  | read n =>
    simp only [Connection.serve, h.pc, h.requests] at hst
    split at hst
    · rename_i hr
      obtain ⟨hquiet, -, hrest⟩ := h.quiet.receive hr
      cases hst
      exact ⟨hrest, h.replies, rfl, hquiet⟩
    · rename_i hr
      obtain ⟨-, hres, -⟩ := h.quiet.receive hr
      cases hres
    · exact absurd hst (by simp)
  | deal => simp only [Connection.serve, h.pc] at hst; cases hst
  | reply => simp only [Connection.serve, h.pc] at hst; cases hst

/-- **A step of the server thread** brings the request or the reply on its way. -/
theorem Serving.serve {sep : LineSeparator} {c : Nat} {data : SocketData}
    {receive : BufferedReader Sym} {conn conn' : Connection} {a : ServerAct}
    (h : Serving sep c data receive conn)
    (hcut : ∀ n, a = .read n → conn.server.read.cb = [] →
      BufferedReader.cut breaks n conn.requests = false)
    (hst : conn.serve sep a = some conn') : Serving sep c data receive conn' := by
  cases h with
  | asked hreceive hreplies hpc hexp =>
    cases a with
    | read n =>
      simp only [Connection.serve, hpc] at hst
      split at hst
      · rename_i hr
        rcases hexp.receive (message sep data c) (hcut n rfl) hr with ⟨-, hexp'⟩ | ⟨hres, -⟩
        · cases hst
          exact .asked hreceive hreplies rfl hexp'
        · exact absurd hres (by simp)
      · rename_i hr
        rcases hexp.receive (message sep data c) (hcut n rfl) hr with ⟨hres, -⟩ | ⟨hres, hrest, hq⟩
        · exact absurd hres (by simp)
        · cases hres
          cases hst
          exact .dealing hreceive hreplies rfl hrest hq
      · exact absurd hst (by simp)
    | deal => simp only [Connection.serve, hpc] at hst; cases hst
    | reply => simp only [Connection.serve, hpc] at hst; cases hst
  | dealing hreceive hreplies hpc hrequests hquiet =>
    cases a with
    | read n => simp only [Connection.serve, hpc] at hst; cases hst
    | deal =>
      simp only [Connection.serve, hpc, map_fst_mark, SocketData.getObjFromStr_getStrFromObj,
        author_mark data.getStrFromObj_ne_nil] at hst
      cases hst
      exact .replying hreceive hreplies rfl rfl hrequests hquiet
    | reply => simp only [Connection.serve, hpc] at hst; cases hst
  | replying hreceive hreplies hpc hdata hrequests hquiet =>
    cases a with
    | read n => simp only [Connection.serve, hpc] at hst; cases hst
    | deal => simp only [Connection.serve, hpc] at hst; cases hst
    | reply =>
      simp only [Connection.serve, hpc, hreplies, hdata, List.nil_append] at hst
      cases hst
      rw [hreceive]
      exact .answered rfl hrequests hquiet (.start (BufferedReader.quiet_fresh _) rfl)
  | answered hpc hrequests hquiet hexp =>
    have hidle : ∀ {n read res rest}, conn.server.read.receive breaks n conn.requests
        = some (read, res, rest) → BufferedReader.Quiet breaks read ∧ res = none ∧ rest = [] := by
      intro n read res rest hr
      rw [hrequests] at hr
      exact hquiet.receive hr
    cases a with
    | read n =>
      simp only [Connection.serve, hpc] at hst
      split at hst
      · rename_i hr
        obtain ⟨hq, -, hrest⟩ := hidle hr
        cases hst
        exact .answered rfl hrest hq hexp
      · rename_i hr
        obtain ⟨-, hres, -⟩ := hidle hr
        cases hres
      · exact absurd hst (by simp)
    | deal => simp only [Connection.serve, hpc] at hst; cases hst
    | reply => simp only [Connection.serve, hpc] at hst; cases hst

/-- **A round of the client's `readLine`**: it waits on, or it has its own reply and the connection
is idle.  Either way it has taken its own characters only. -/
theorem Serving.receive {sep : LineSeparator} {c n : Nat} {data : SocketData}
    {receive receive' : BufferedReader Sym} {conn : Connection} {res : Option (List Sym)}
    {rest : List Sym} (h : Serving sep c data receive conn)
    (hcut : receive.cb = [] → BufferedReader.cut breaks n conn.replies = false)
    (hr : receive.receive breaks n conn.replies = some (receive', res, rest)) :
    (∀ x ∈ receive.delivered n conn.replies, x.2 = c) ∧
    ((res = none ∧ Serving sep c data receive' { conn with replies := rest }) ∨
      (res = some (mark c data.dealData.getStrFromObj) ∧ Idle { conn with replies := rest })) := by
  have hwait : receive = .fresh → conn.replies ≠ [] := by
    rintro rfl hreplies
    rw [hreplies] at hr
    simp only [BufferedReader.receive, BufferedReader.fresh] at hr
    rw [if_pos trivial, if_neg (by simp; omega)] at hr
    cases hr
  cases h with
  | asked hreceive hreplies _ _ => exact absurd hreplies (hwait hreceive)
  | dealing hreceive hreplies _ _ _ => exact absurd hreplies (hwait hreceive)
  | replying hreceive hreplies _ _ _ _ => exact absurd hreplies (hwait hreceive)
  | answered hpc hrequests hquiet hexp =>
    refine ⟨fun x hx => snd_of_mem_println (hexp.mem (BufferedReader.mem_of_mem_delivered hx)), ?_⟩
    rcases hexp.receive (message sep _ c) hcut hr with ⟨hres, hexp'⟩ | ⟨hres, hrest, -⟩
    · exact Or.inl ⟨hres, .answered hpc hrequests hquiet hexp'⟩
    · exact Or.inr ⟨hres, hrequests, hrest, hpc, hquiet⟩

/-! ## 7. The invariant -/

/-- What a connection is in the middle of while a client at `pc` holds it. -/
def Holding (sep : LineSeparator) (c : Nat) (data : SocketData) (pc : ClientPc)
    (conn : Connection) : Prop :=
  match pc with
  | .receiving receive => Serving sep c data receive conn
  | _ => Idle conn

/-- Is the client at a place before its reply? -/
def ClientPc.waiting : ClientPc → Bool
  | .trying _ => true
  | .sleeping _ => true
  | .sending => true
  | .receiving _ => true
  | _ => false

/-- What client `c` has: the data that it started with until it has its own reply, and no character
of another client. -/
structure Own (c : Nat) (data : SocketData) (client : Client) : Prop where
  waiting : client.pc.waiting = true → client.socketData = data
  completed : client.completed = true → client.socketData = data.dealData
  took : ∀ x ∈ client.took, x.2 = c

/-- Nobody's connection is idle, and a client's is in the middle of its exchange. -/
structure Inv (sep : LineSeparator) (data : Nat → SocketData) (s : State) : Prop where
  governed : Lease.Governed (fun client : Client => client.toPool.holds) Idle
    (fun c client conn => Holding sep c (data c) client.pc conn) s.clients s.connections
  own : ∀ c, Own c (data c) (s.clients c)

section Frame

variable {sep : LineSeparator} {data : Nat → SocketData} {s : State} (hi : Inv sep data s)

include hi

theorem Inv.free {k : Socket} (h : ∀ c, s.holds c ≠ some k) : Idle (s.connections k) :=
  hi.governed.free k h

theorem Inv.held {c : Nat} {k : Socket} (h : s.holds c = some k) :
    Holding sep c (data c) (s.clients c).pc (s.connections k) :=
  hi.governed.held c k h

theorem Inv.own_update {c : Nat} {client : Client} (h : Own c (data c) client) (d : Nat) :
    Own d (data d) (Function.update s.clients c client d) := by
  by_cases hdc : d = c
  · subst hdc
    rw [Function.update_self]
    exact h
  · rw [Function.update_of_ne hdc]
    exact hi.own d

/-- One client changes, with its connection or without. -/
theorem Inv.setClient (pool : Pool) {c : Nat} {client : Client}
    (hheld : ∀ k, client.toPool.holds = some k →
      Holding sep c (data c) client.pc (s.connections k))
    (hreleased : ∀ k, s.holds c = some k → client.toPool.holds ≠ some k → Idle (s.connections k))
    (hown : Own c (data c) client) : Inv sep data (State.setClient { s with pool } c client) :=
  ⟨hi.governed.setParty hheld hreleased, hi.own_update hown⟩

theorem Inv.setBoth (hunique : ∀ c d k, s.holds c = some k → s.holds d = some k → c = d) {c : Nat}
    {k : Socket} (hc : s.holds c = some k) {client : Client} {conn : Connection}
    (hholds : client.toPool.holds = some k)
    (hheld : Holding sep c (data c) client.pc conn) (hown : Own c (data c) client) :
    Inv sep data ((s.setConnection k conn).setClient c client) :=
  ⟨hi.governed.setBoth hunique hc (Or.inl ⟨hholds, hheld⟩), hi.own_update hown⟩

/-- The server thread of a connection takes a step. -/
theorem Inv.setConnection {k : Socket} {conn : Connection}
    (hidle : Idle (s.connections k) → Idle conn)
    (hserving : ∀ c receive, Serving sep c (data c) receive (s.connections k) →
      Serving sep c (data c) receive conn) : Inv sep data (s.setConnection k conn) := by
  refine ⟨hi.governed.setRes hidle ?_, hi.own⟩
  intro c _ h
  unfold Holding at h ⊢
  split at h
  · exact hserving c _ h
  · exact hidle h

end Frame

theorem inv_init (sep : LineSeparator) (data : Nat → SocketData) (pool : Pool) :
    Inv sep data (machine sep data pool).init where
  governed :=
    { free := fun _ _ => ⟨rfl, rfl, rfl, BufferedReader.quiet_fresh _⟩
      held := fun _ _ h => by cases h }
  own _ := ⟨fun _ => rfl, fun h => (by cases h), fun _ h => (by cases h)⟩

theorem Own.setPc {c : Nat} {data : SocketData} {client : Client} (h : Own c data client)
    {pc : ClientPc} (hpc : pc.waiting = true → client.pc.waiting = true) (socket : Option Socket) :
    Own c data { client with socket, pc } where
  waiting hw := h.waiting (hpc hw)
  completed := h.completed
  took := h.took

/-- Is the client at a place where it is not in an exchange and has not freed its socket? -/
def ClientPc.resting : ClientPc → Bool
  | .receiving _ => false
  | .ended _ => false
  | _ => true

theorem holds_of_resting {client : Client} (h : client.pc.resting = true) :
    client.toPool.holds = client.socket := by
  unfold Client.toPool
  cases hpc : client.pc <;> rw [hpc] at h <;> first | rfl | cases h

theorem holding_of_resting {sep : LineSeparator} {c : Nat} {data : SocketData} {pc : ClientPc}
    {conn : Connection} (h : pc.resting = true) : Holding sep c data pc conn ↔ Idle conn := by
  cases pc <;> first | exact Iff.rfl | cases h

theorem resting_of_throws {pc : ClientPc} {e : Throwable} (h : pc.throws e = true) :
    pc.resting = true := by
  cases pc <;> first | rfl | cases h

theorem holds_of_using {s : State} {c : Nat} {k : Socket}
    (hpc : (s.clients c).pc.toPool = .using) (hsocket : (s.clients c).socket = some k) :
    s.holds c = some k := by
  rw [State.holds, Client.toPool, hpc]
  exact hsocket

/-- Outside an exchange, a client moves on with what it holds. -/
theorem Inv.rest {sep : LineSeparator} {data : Nat → SocketData} {s : State}
    (hi : Inv sep data s) {c : Nat} {pc : ClientPc} (hold : (s.clients c).pc.resting = true)
    (hnew : pc.resting = true) (hwaiting : pc.waiting = true → (s.clients c).pc.waiting = true) :
    Inv sep data (s.setClient c { s.clients c with pc }) := by
  have hholds : ({ s.clients c with pc } : Client).toPool.holds = s.holds c :=
    (holds_of_resting hnew).trans (holds_of_resting hold).symm
  refine hi.setClient s.pool ?_ ?_ ((hi.own c).setPc hwaiting (s.clients c).socket)
  · intro k hk
    rw [hholds] at hk
    exact (holding_of_resting hnew).mpr ((holding_of_resting hold).mp (hi.held hk))
  · intro k hk hnot
    rw [hholds] at hnot
    exact absurd hk hnot

/-- The client in `readLine` has its own data yet, and takes its own characters only. -/
theorem Inv.receive {sep : LineSeparator} {data : Nat → SocketData} {s : State}
    (hi : Inv sep data s) {c n : Nat} {k : Socket} {receive receive' : BufferedReader Sym}
    {res : Option (List Sym)} {rest : List Sym} (hc : s.holds c = some k)
    (hpc : (s.clients c).pc = .receiving receive) (hsocket : (s.clients c).socket = some k)
    (hcut : s.cuts (.receive c n) = false)
    (hr : receive.receive breaks n (s.connections k).replies = some (receive', res, rest)) :
    (s.clients c).socketData = data c ∧
    (∀ x ∈ (s.clients c).took ++ receive.delivered n (s.connections k).replies, x.2 = c) ∧
    ((res = none ∧
        Serving sep c (data c) receive' { s.connections k with replies := rest }) ∨
      (res = some (mark c (data c).dealData.getStrFromObj) ∧
        Idle { s.connections k with replies := rest })) := by
  have hserving : Serving sep c (data c) receive (s.connections k) := by
    have hold := hi.held hc
    rw [hpc] at hold
    exact hold
  have hcut' : receive.cb = [] →
      BufferedReader.cut breaks n (s.connections k).replies = false := by
    intro hcb
    simpa only [State.cuts, hpc, hsocket, hcb, List.isEmpty_nil, Bool.true_and] using hcut
  obtain ⟨hnew, hres⟩ := hserving.receive hcut' hr
  refine ⟨(hi.own c).waiting (by rw [hpc]; rfl), ?_, hres⟩
  intro x hx
  rcases List.mem_append.mp hx with hx | hx
  · exact (hi.own c).took x hx
  · exact hnew x hx

/-- A client gets an available socket: the connection is idle. -/
theorem Inv.getSocket {sep : LineSeparator} {data : Nat → SocketData} {s : State}
    (hi : Inv sep data s) (hp : TcpIpBIOClientSocketPool.Inv s.toPool) {c i : Nat}
    (hpc : (s.clients c).pc = .trying i) (keySet : List Socket) :
    Inv sep data (State.setClient { s with pool := (TcpIpBIOClientSocketPool.getSocket keySet s.pool).1 }
      c { s.clients c with
        socket := (TcpIpBIOClientSocketPool.getSocket keySet s.pool).2
        pc := if (TcpIpBIOClientSocketPool.getSocket keySet s.pool).2 = none then .sleeping i
          else .sending }) := by
  have hsocket : (s.clients c).socket = none := hp.searchers c (by rw [toPool_clients, hpc]; rfl)
  have hnone : s.holds c = none := by
    simp only [State.holds, Client.toPool, ClientPc.toPool, TcpIpBIOClientSocketPool.Client.holds,
      hpc, hsocket]
  have hreleased : ∀ {client : Client} (k), s.holds c = some k → client.toPool.holds ≠ some k →
      Idle (s.connections k) := by
    intro client k hk
    rw [hnone] at hk
    cases hk
  have hwaiting : ∀ pc : ClientPc, pc.waiting = true → (s.clients c).pc.waiting = true := by
    intro pc _
    rw [hpc]
    rfl
  rcases getSocket_spec keySet s.pool with hget | ⟨k, -, hk, hget⟩
  · rw [hget]
    refine hi.setClient _ ?_ hreleased ((hi.own c).setPc (hwaiting _) none)
    intro k hk
    cases hk
  · rw [hget]
    refine hi.setClient _ ?_ hreleased ((hi.own c).setPc (hwaiting _) (some k))
    intro k' hk'
    cases hk'
    refine hi.free ?_
    intro d hd
    have hdown : s.pool.socketMap.get k = some false := (hp.exclusive.down_iff k).mpr ⟨d, hd⟩
    rw [hk] at hdown
    cases hdown

theorem step_inv {sep : LineSeparator} {data : Nat → SocketData} {s t : State}
    {a : Act} (hp : TcpIpBIOClientSocketPool.Inv s.toPool) (hi : Inv sep data s)
    (hcut : s.cuts a = false) (h : Stepped sep s a t) : Inv sep data t := by
  have hunique : ∀ c d k, s.holds c = some k → s.holds d = some k → c = d := hp.exclusive.unique
  cases h with
  | getSocket hpc _ _ => exact hi.getSocket hp hpc _
  | wake hpc => exact hi.rest (by rw [hpc]; rfl) rfl fun _ => by rw [hpc]; rfl
  | giveUp hpc _ => exact hi.rest (by rw [hpc]; rfl) rfl fun hw => by cases hw
  | finish hpc => exact hi.rest (by rw [hpc]; rfl) rfl fun hw => by cases hw
  | throw hthrows => exact hi.rest (resting_of_throws hthrows) rfl fun hw => by cases hw
  | @send c k hpc hsocket =>
    have hc : s.holds c = some k := holds_of_using (by rw [hpc]; rfl) hsocket
    have hidle : Idle (s.connections k) :=
      (holding_of_resting (by rw [hpc]; rfl)).mp (hi.held hc)
    have hdata : (s.clients c).socketData = data c := (hi.own c).waiting (by rw [hpc]; rfl)
    have hown : Own c (data c) { s.clients c with pc := .receiving .fresh } :=
      (hi.own c).setPc (fun _ => by rw [hpc]; rfl) (s.clients c).socket
    refine hi.setBoth hunique hc hsocket ?_ hown
    rw [hdata, hidle.requests]
    exact .asked rfl hidle.replies hidle.pc (.start hidle.quiet rfl)
  | @part c n k receive receive' rest hpc hsocket hr =>
    have hc : s.holds c = some k := holds_of_using (by rw [hpc]; rfl) hsocket
    rcases hi.receive hc hpc hsocket hcut hr with ⟨hown, htook, ⟨-, hserving⟩ | ⟨hres, -⟩⟩
    · exact hi.setBoth hunique hc hsocket hserving ⟨fun _ => hown, (hi.own c).completed, htook⟩
    · exact absurd hres (by simp)
  | @line c n k receive receive' line rest hpc hsocket hr =>
    have hc : s.holds c = some k := holds_of_using (by rw [hpc]; rfl) hsocket
    rcases hi.receive hc hpc hsocket hcut hr with ⟨-, htook, ⟨hres, -⟩ | ⟨hres, hidle⟩⟩
    · exact absurd hres (by simp)
    · cases hres
      refine hi.setBoth hunique hc ?_ ?_ ?_
      all_goals simp only [Client.complete, map_fst_mark, SocketData.getObjFromStr_getStrFromObj]
      · exact hsocket
      · exact hidle
      · exact ⟨fun hw => (by cases hw), fun _ => rfl, htook⟩
  | @free c thrown hpc =>
    refine hi.setClient _ (fun k hk => by cases hk) ?_
      ((hi.own c).setPc (fun hw => by cases hw) (s.clients c).socket)
    intro k hk _
    exact (holding_of_resting (by rw [hpc]; rfl)).mp (hi.held hk)
  | @server k a conn hst =>
    refine hi.setConnection (fun hidle => hidle.serve hst) ?_
    intro c receive hserving
    refine hserving.serve ?_ hst
    rintro n rfl hcb
    simpa only [State.cuts, hcb, List.isEmpty_nil, Bool.true_and] using hcut

/-! ## 8. End to end -/

/-- What a client relies on: once it has completed, it has its own number and the double of it; it
has read nothing that was meant for another client; and on a connection that is marked as free
nothing is on the way, in either direction. -/
structure EndToEnd (data : Nat → SocketData) (s : State) : Prop where
  own : ∀ c, (s.clients c).completed = true →
    (s.clients c).socketData = ⟨(data c).clientNum, (data c).clientNum * 2⟩
  no_cross_talk : ∀ c, ∀ x ∈ (s.clients c).took, x.2 = c
  free : ∀ k, s.pool.socketMap.get k = some true →
    (s.connections k).requests = [] ∧ (s.connections k).replies = []

theorem Inv.endToEnd {sep : LineSeparator} {data : Nat → SocketData} {s : State}
    (hi : Inv sep data s) (hp : TcpIpBIOClientSocketPool.Inv s.toPool) :
    EndToEnd data s where
  own c := (hi.own c).completed
  no_cross_talk c := (hi.own c).took
  free k hk := by
    have hidle : Idle (s.connections k) := by
      refine hi.free ?_
      intro c hc
      have hdown : s.pool.socketMap.get k = some false := (hp.exclusive.down_iff k).mpr ⟨c, hc⟩
      rw [hk] at hdown
      cases hdown
    exact ⟨hidle.requests, hidle.replies⟩

/-- A message with a separator of one character has no LF behind a CR. -/
theorem cut_eq_false {sep : LineSeparator} (hsep : sep ≠ .crlf) {data : SocketData} {c : Nat}
    {r : BufferedReader Sym} {stream : List Sym} (n : Nat)
    (h : BufferedReader.Expecting breaks (mark c data.getStrFromObj) (mark c sep.text) r stream) :
    BufferedReader.cut breaks n stream = false := by
  have hmem : ∀ x ∈ stream, BufferedReader.plain breaks x = false → x ∈ mark c sep.text := by
    intro x hx hbreak
    rcases List.mem_append.mp (h.mem hx) with hline | hterm
    · rw [(message sep data c).plain x hline] at hbreak
      cases hbreak
    · exact hterm
  unfold BufferedReader.cut
  split
  · rename_i x y hx hy
    rw [Bool.eq_false_iff]
    intro hxy
    obtain ⟨hcr, hlf⟩ := Bool.and_eq_true_iff.mp hxy
    have hxsep := hmem x (List.mem_of_mem_take (List.mem_of_getLast? hx))
      (by simp [BufferedReader.plain, hcr])
    have hysep := hmem y (List.mem_of_mem_drop (List.mem_of_head? hy))
      (BufferedReader.not_plain_of_lf hlf)
    cases sep with
    | lf => rw [List.mem_singleton.mp hxsep] at hcr; cases hcr
    | cr => rw [List.mem_singleton.mp hysep] at hlf; cases hlf
    | crlf => exact hsep rfl
  · rfl

theorem cut_nil (n : Nat) : BufferedReader.cut breaks n [] = false := by
  simp [BufferedReader.cut]

/-- On such a platform no step ends a delivery between a CR and an LF. -/
theorem Inv.uncut {sep : LineSeparator} (hsep : sep ≠ .crlf) {data : Nat → SocketData} {s : State}
    (hi : Inv sep data s) (a : Act) : s.cuts a = false := by
  have hserving : ∀ {c receive k} (n : Nat), Serving sep c (data c) receive (s.connections k) →
      BufferedReader.cut breaks n (s.connections k).requests = false ∧
      BufferedReader.cut breaks n (s.connections k).replies = false := by
    intro c receive k n h
    cases h with
    | asked _ hreplies _ h => exact ⟨cut_eq_false hsep n h, by rw [hreplies]; exact cut_nil n⟩
    | dealing _ hreplies _ hrequests _ =>
      exact ⟨by rw [hrequests]; exact cut_nil n, by rw [hreplies]; exact cut_nil n⟩
    | replying _ hreplies _ _ hrequests _ =>
      exact ⟨by rw [hrequests]; exact cut_nil n, by rw [hreplies]; exact cut_nil n⟩
    | answered _ hrequests _ h =>
      exact ⟨by rw [hrequests]; exact cut_nil n, cut_eq_false hsep n h⟩
  unfold State.cuts
  split
  · rename_i c n
    split
    · rename_i receive k hpc hsocket
      have hold := hi.held (holds_of_using (by rw [hpc]; rfl) hsocket)
      rw [hpc] at hold
      rw [(hserving n hold).2, Bool.and_false]
    · rfl
  · rename_i k n
    have hrequests : BufferedReader.cut breaks n (s.connections k).requests = false := by
      by_cases hfree : ∀ c, s.holds c ≠ some k
      · rw [(hi.free hfree).requests]
        exact cut_nil n
      · obtain ⟨c, hc⟩ := not_forall_not.mp hfree
        have hold := hi.held hc
        unfold Holding at hold
        split at hold
        · exact (hserving n hold).1
        · rw [hold.requests]
          exact cut_nil n
    rw [hrequests, Bool.and_false]
  · rfl

/-- **End to end.**  In every run in which no delivery ends between the CR and the LF of a line
separator, each client that completes has its own number and the double of it, no client reads what
was meant for another, and nothing is on the way on a free connection.  With a separator of one
character, that is every run. -/
theorem end_to_end {sep : LineSeparator} {data : Nat → SocketData} {MAX_POOL_NUM : Nat}
    {net : Network} {pool : Pool} (hinit : init MAX_POOL_NUM net Pool.fresh = (pool, .ok ())) :
    (∀ s, (machine sep data pool).Within (fun s a => s.cuts a = false) s → EndToEnd data s) ∧
    (sep ≠ .crlf → ∀ s, (machine sep data pool).Reachable s → EndToEnd data s) := by
  constructor
  · intro s h
    have hi : Inv sep data s := h.induct (inv_init sep data pool) fun _ _ _ hr hi hcut hst =>
      step_inv (toPool_inv hinit hr) hi hcut (step_cases hst)
    exact hi.endToEnd (toPool_inv hinit h.reachable)
  · intro hsep s h
    have hi : Inv sep data s := h.induct (inv_init sep data pool) fun _ a _ hr hi hst =>
      step_inv (toPool_inv hinit hr) hi (hi.uncut hsep a) (step_cases hst)
    exact hi.endToEnd (toPool_inv hinit h)

/-- A pool with one socket, and clients that start with their own numbers. -/
def onePool : Pool := ⟨true, Hashtable.empty.put 9 true⟩

def ownNumbers (c : Nat) : SocketData := ⟨BitVec.ofNat 32 c, 0⟩

/-- Two exchanges with CR LF on the same socket: client 5 sleeps until client 3 has freed it, and
its request comes in two deliveries, after the LF that the reader has kept. -/
def exchanges : List Act :=
  [.getSocket 3 [9], .getSocket 5 [9], .send 3, .server 9 (.read 5), .server 9 .deal,
    .server 9 .reply, .receive 3 5, .leave 3, .free 3,
    .wake 5, .getSocket 5 [9], .send 5, .server 9 (.read 1), .server 9 (.read 2),
    .server 9 (.read 3), .server 9 .deal, .server 9 .reply, .receive 5 6]

theorem end_to_end_exchange :
    ∃ s, (machine .crlf ownNumbers onePool).run (machine .crlf ownNumbers onePool).init exchanges
        = some s ∧ (s.clients 3).socket = some 9 ∧ (s.clients 5).socket = some 9 ∧
      (s.clients 3).socketData = ⟨3, 6⟩ ∧ (s.clients 5).socketData = ⟨5, 10⟩ := by
  have hinit : init 1 ⟨true, fun _ => some 9⟩ Pool.fresh = (onePool, .ok ()) := rfl
  have hmeets : (machine .crlf ownNumbers onePool).Meets (fun s a => s.cuts a = false)
      (machine .crlf ownNumbers onePool).init exchanges := by decide
  have hend : EndToEnd ownNumbers _ := (end_to_end hinit).1 _ ⟨exchanges, rfl, hmeets⟩
  exact ⟨_, rfl, rfl, rfl, hend.own 3 rfl, hend.own 5 rfl⟩

/-- Client 1 gets its reply cut between CR and LF; client 5 then reads the LF as an empty line and
frees the socket with its reply unread; client 7 reads that. -/
def crossTalk : List Act :=
  [.getSocket 1 [9], .send 1, .server 9 (.read 5), .server 9 .deal, .server 9 .reply, .receive 1 4,
    .leave 1, .free 1,
    .getSocket 5 [9], .send 5, .server 9 (.read 1), .server 9 (.read 5), .server 9 .deal,
    .server 9 .reply, .receive 5 1, .free 5,
    .getSocket 7 [9], .send 7, .receive 7 6]

/-- **A cut between CR and LF lets a client complete with the reply to another one.** -/
theorem reply_of_another_client :
    ¬ ∀ (sep : LineSeparator) (data : Nat → SocketData) (MAX_POOL_NUM : Nat) (net : Network)
      (pool : Pool) (s : State), init MAX_POOL_NUM net Pool.fresh = (pool, .ok ()) →
      (machine sep data pool).Reachable s → EndToEnd data s := by
  intro h
  have hend : EndToEnd ownNumbers _ :=
    h .crlf ownNumbers 1 ⟨true, fun _ => some 9⟩ onePool _ rfl ⟨crossTalk, rfl⟩
  have hseven := hend.own 7 rfl
  exact absurd hseven (by decide)

end TcpIpBIOExchange
end JavaStudy
