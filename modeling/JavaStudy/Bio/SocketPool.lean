/-
# `TcpIpBIOClientSocketPool` and the clients that compete for its sockets

The pool's operations are `synchronized`, so each is one step; a client thread runs
`TcpIpBIOClientThread.run` between them.  What a client does with its socket is left open here: it
may leave the `try` block at any moment, normally or by an exception, and always ends up in
`finally`, where it frees what is in its field `socket`.

Sockets are compared by identity (`Socket` has no `equals`), so they are numbers.  The iteration
order of the key set is an argument of `getSocket` and comes with the label of the step.

`init` may fail half-way, with sockets in the map already, and be called again; clients may start
before it has succeeded, and get nothing then.

The discipline of the flags is `Lease.Exclusive`: a step of the machine leaves flags and holders
alone, or is an acquisition, or a release; before the pool is initialised, nobody holds anything
(`Transfer`, `step_transfer`).
-/
import JavaStudy.Lib.Machine
import JavaStudy.Lib.Hashtable
import JavaStudy.Lib.Lease

namespace JavaStudy
namespace TcpIpBIOClientSocketPool

/-! ## 1. The pool -/

abbrev Socket := Nat

/-- What can be thrown here, as far as `run` tells it apart. -/
inductive Throwable where
  | ioException
  | interruptedException
  | unchecked
  deriving DecidableEq

/-- How often a client tries to get a socket. -/
def MAX_TRY_TIMES : Nat := 10

structure Pool where
  INIT_STATUS : Bool
  /-- `true` for a socket that can be used. -/
  socketMap : Hashtable Socket Bool

/-- The pool before the first `init`. -/
def Pool.fresh : Pool := ⟨false, .empty⟩

/-- What the network answers to one call of `init`: whether `getLocalHost` succeeds, and the socket
that `new Socket` connects in round `i`, if it does. -/
structure Network where
  localHost : Bool
  newSocket : Nat → Option Socket

/-- The loop of `init` from round `i` down.  A failing `new Socket` leaves what is in the map. -/
def initLoop (newSocket : Nat → Option Socket) :
    Nat → Hashtable Socket Bool → Hashtable Socket Bool × Except Throwable Unit
  | 0, socketMap => (socketMap, .ok ())
  | i + 1, socketMap =>
    match newSocket (i + 1) with
    | some socket => initLoop newSocket i (socketMap.put socket true)
    | none => (socketMap, .error .ioException)

def init (MAX_POOL_NUM : Nat) (net : Network) (pool : Pool) : Pool × Except Throwable Unit :=
  if pool.INIT_STATUS then (pool, .ok ())
  else if net.localHost then
    match initLoop net.newSocket MAX_POOL_NUM pool.socketMap with
    | (socketMap, .ok ()) => (⟨true, socketMap⟩, .ok ())
    | (socketMap, .error e) => (⟨pool.INIT_STATUS, socketMap⟩, .error e)
  else (pool, .error .ioException)

def freeSocket (socket : Option Socket) (pool : Pool) : Pool :=
  if pool.INIT_STATUS then
    match socket with
    | none => pool
    | some socket =>
      match pool.socketMap.get socket with
      | some _ => { pool with socketMap := pool.socketMap.put socket true }
      | none => pool
  else pool

/-- `getSocket`, with the order in which it iterates over the key set. -/
def getSocket (keySet : List Socket) (pool : Pool) : Pool × Option Socket :=
  if pool.INIT_STATUS then
    match keySet.find? fun socket => pool.socketMap.get socket == some true with
    | some socket => ({ pool with socketMap := pool.socketMap.put socket false }, some socket)
    | none => (pool, none)
  else (pool, none)

theorem init_of_status {MAX_POOL_NUM : Nat} {net : Network} {pool : Pool}
    (h : pool.INIT_STATUS = true) : init MAX_POOL_NUM net pool = (pool, .ok ()) := by
  unfold init
  rw [if_pos h]

/-- The loop puts nothing but available sockets. -/
theorem get_initLoop {newSocket : Nat → Option Socket} {n : Nat} {m : Hashtable Socket Bool}
    (hm : ∀ k, m.get k ≠ some false) (k : Socket) :
    (initLoop newSocket n m).1.get k ≠ some false := by
  induction n generalizing m with
  | zero => exact hm k
  | succ n ih =>
    unfold initLoop
    split
    · refine ih ?_
      intro k'
      rw [Hashtable.get_put]
      split
      · simp
      · exact hm k'
    · exact hm k

/-- **What `init` leaves of a pool with available sockets**, whether it succeeds or not: available
sockets. -/
theorem init_spec (MAX_POOL_NUM : Nat) (net : Network) {pool : Pool}
    (h : ∀ k, pool.socketMap.get k ≠ some false) (k : Socket) :
    (init MAX_POOL_NUM net pool).1.socketMap.get k ≠ some false := by
  have hloop : (initLoop net.newSocket MAX_POOL_NUM pool.socketMap).1.get k ≠ some false :=
    get_initLoop h k
  unfold init
  split
  · exact h k
  · split
    · split
      · rename_i hmap
        rw [hmap] at hloop
        exact hloop
      · rename_i hmap
        rw [hmap] at hloop
        exact hloop
    · exact h k

/-- **What `getSocket` does**: it lends an available socket, or changes nothing. -/
theorem getSocket_spec (keySet : List Socket) (pool : Pool) :
    getSocket keySet pool = (pool, none) ∨
    ∃ k, pool.INIT_STATUS = true ∧ pool.socketMap.get k = some true ∧
      getSocket keySet pool
        = ({ pool with socketMap := pool.socketMap.put k false }, some k) := by
  unfold getSocket
  split
  · rename_i hinit
    split
    · rename_i k hk
      exact Or.inr ⟨k, hinit, by simpa using List.find?_some hk, rfl⟩
    · exact Or.inl rfl
  · exact Or.inl rfl

theorem freeSocket_none (pool : Pool) : freeSocket none pool = pool := by
  unfold freeSocket
  split <;> rfl

theorem freeSocket_some {pool : Pool} {k : Socket} {flag : Bool}
    (hinit : pool.INIT_STATUS = true) (hk : pool.socketMap.get k = some flag) :
    freeSocket (some k) pool = { pool with socketMap := pool.socketMap.put k true } := by
  unfold freeSocket
  rw [if_pos hinit]
  simp only [hk]

/-- The flags of the pool. -/
def Pool.flag (pool : Pool) (k : Socket) : Option Bool := pool.socketMap.get k

theorem flag_put (pool : Pool) (k : Socket) (v : Bool) :
    Pool.flag { pool with socketMap := pool.socketMap.put k v }
      = Function.update pool.flag k (some v) := by
  funext k'
  simp only [Pool.flag, Hashtable.get_put, Function.update_apply]

/-! ## 2. The clients -/

/-- Where `TcpIpBIOClientThread.run` stands. -/
inductive Pc where
  /-- At the head of the loop. -/
  | trying (i : Nat)
  | sleeping (i : Nat)
  /-- In the `try` block, after the loop, with a socket. -/
  | using
  /-- At the `finally` block, with what is thrown after it. -/
  | freeing (thrown : Option Throwable)
  | ended (thrown : Option Throwable)
  deriving DecidableEq

structure Client where
  socket : Option Socket
  pc : Pc

/-- What may be thrown in the `try` block at that place. -/
def Pc.throws : Pc → Throwable → Bool
  | .trying _, e => e == .unchecked
  | .sleeping _, e => e == .interruptedException || e == .unchecked
  | .using, e => e == .ioException || e == .unchecked
  | _, _ => false

/-- What passes the two `catch` clauses. -/
def uncaught : Throwable → Option Throwable
  | .ioException => none
  | .interruptedException => none
  | .unchecked => some .unchecked

structure State where
  pool : Pool
  clients : Nat → Client

inductive Act where
  /-- Some thread calls `init`. -/
  | init (MAX_POOL_NUM : Nat) (net : Network)
  /-- A client calls `getSocket`, which iterates in this order. -/
  | getSocket (c : Nat) (keySet : List Socket)
  /-- The sleep of a client is over. -/
  | wake (c : Nat)
  /-- The client leaves the `try` block: all its tries failed, or it has its reply. -/
  | leave (c : Nat)
  | throw (c : Nat) (e : Throwable)
  /-- The `finally` block. -/
  | free (c : Nat)

def State.setClient (s : State) (c : Nat) (client : Client) : State :=
  { s with clients := Function.update s.clients c client }

def step (s : State) : Act → Option State
  | .init n net => some { s with pool := (TcpIpBIOClientSocketPool.init n net s.pool).1 }
  | .getSocket c keySet =>
    match (s.clients c).pc with
    | .trying i =>
      if i < MAX_TRY_TIMES ∧ keySet.Perm s.pool.socketMap.keySet then
        let r := TcpIpBIOClientSocketPool.getSocket keySet s.pool
        some (State.setClient { s with pool := r.1 } c
          ⟨r.2, if r.2 = none then .sleeping i else .using⟩)
      else none
    | _ => none
  | .wake c =>
    match (s.clients c).pc with
    | .sleeping i => some (s.setClient c ⟨(s.clients c).socket, .trying (i + 1)⟩)
    | _ => none
  | .leave c =>
    match (s.clients c).pc with
    | .trying i =>
      if i < MAX_TRY_TIMES then none
      else some (s.setClient c ⟨(s.clients c).socket, .freeing none⟩)
    | .using => some (s.setClient c ⟨(s.clients c).socket, .freeing none⟩)
    | _ => none
  | .throw c e =>
    if (s.clients c).pc.throws e then
      some (s.setClient c ⟨(s.clients c).socket, .freeing (uncaught e)⟩)
    else none
  | .free c =>
    match (s.clients c).pc with
    | .freeing thrown =>
      some (State.setClient { s with pool := freeSocket (s.clients c).socket s.pool } c
        ⟨(s.clients c).socket, .ended thrown⟩)
    | _ => none

/-- Any number of clients on a pool. -/
def machine (pool : Pool) : Machine State Act where
  init := { pool, clients := fun _ => ⟨none, .trying 0⟩ }
  step := step

/-! ## 3. Who holds what -/

/-- The socket that a client holds: the one in its field, until it has freed it. -/
def Client.holds (client : Client) : Option Socket :=
  match client.pc with
  | .ended _ => none
  | _ => client.socket

def State.holds (s : State) (c : Nat) : Option Socket := (s.clients c).holds

/-- Has the client got past the loop? -/
def Pc.searching : Pc → Bool
  | .trying _ => true
  | .sleeping _ => true
  | _ => false

/-- What a step does to flags and holders: nothing, or an acquisition, or a release; or the pool is
not initialised yet, and there may be more sockets afterwards. -/
inductive Transfer (s t : State) : Prop where
  | same (hpool : t.pool = s.pool) (hholds : t.holds = s.holds)
  | more (hstatus : s.pool.INIT_STATUS = false)
      (hflag : (∀ k, s.pool.flag k ≠ some false) → ∀ k, t.pool.flag k ≠ some false)
      (hholds : t.holds = s.holds)
  | acquire (c : Nat) (k : Socket) (hstatus : s.pool.INIT_STATUS = true)
      (hk : s.pool.flag k = some true) (hc : s.holds c = none)
      (hpool : t.pool = { s.pool with socketMap := s.pool.socketMap.put k false })
      (hholds : t.holds = Function.update s.holds c (some k))
  | release (c : Nat) (k : Socket) (hc : s.holds c = some k)
      (hpool : t.pool = freeSocket (some k) s.pool)
      (hholds : t.holds = Function.update s.holds c none)

/-- The clients that search have no socket yet. -/
def SearchersEmpty (s : State) : Prop :=
  ∀ c, (s.clients c).pc.searching = true → (s.clients c).socket = none

theorem holds_setClient (s : State) (c : Nat) (client : Client) :
    (s.setClient c client).holds = Function.update s.holds c client.holds := by
  funext d
  simp only [State.holds, State.setClient, Function.update_apply]
  split <;> rfl

theorem setClient_eq_self {s : State} {c : Nat} {client : Client} (h : client = s.clients c) :
    s.setClient c client = s := by
  unfold State.setClient
  rw [h, Function.update_eq_self]

/-- A client that goes on with its socket holds what it held. -/
theorem holds_setClient_same {s : State} {c : Nat} {client : Client}
    (h : client.holds = (s.clients c).holds) : (s.setClient c client).holds = s.holds := by
  rw [holds_setClient, h]
  exact Function.update_eq_self c s.holds

theorem SearchersEmpty.setClient {s : State} (h : SearchersEmpty s) {pool : Pool} {c : Nat}
    {client : Client} (hc : client.pc.searching = true → client.socket = none) :
    SearchersEmpty (State.setClient { s with pool } c client) := by
  intro d hd
  by_cases hdc : d = c
  · subst hdc
    simp only [State.setClient, Function.update_self] at hd ⊢
    exact hc hd
  · simp only [State.setClient, Function.update_of_ne hdc] at hd ⊢
    exact h d hd

/-- Has the client freed its socket? -/
def Pc.isEnded : Pc → Bool
  | .ended _ => true
  | _ => false

theorem holds_of_not_ended {client : Client} (h : client.pc.isEnded = false) :
    client.holds = client.socket := by
  unfold Client.holds
  split
  · rename_i hpc
    rw [hpc] at h
    cases h
  · rfl

theorem not_ended_of_throws {pc : Pc} {e : Throwable} (h : pc.throws e = true) :
    pc.isEnded = false := by
  cases pc <;> first | rfl | cases h

/-- A client moves on before its `finally` block, and does not go back into the loop. -/
theorem transfer_move {s : State} (hs : SearchersEmpty s) {c : Nat} {pc : Pc}
    (hold : (s.clients c).pc.isEnded = false) (hnew : pc.isEnded = false)
    (hsearching : pc.searching = true → (s.clients c).pc.searching = true) :
    Transfer s (s.setClient c ⟨(s.clients c).socket, pc⟩) ∧
      SearchersEmpty (s.setClient c ⟨(s.clients c).socket, pc⟩) := by
  have hholds : (⟨(s.clients c).socket, pc⟩ : Client).holds = (s.clients c).holds :=
    (holds_of_not_ended hnew).trans (holds_of_not_ended hold).symm
  refine ⟨.same rfl (holds_setClient_same hholds), hs.setClient ?_⟩
  intro h
  exact hs c (hsearching h)

/-- **Every step is a transfer**, and a client that searches stays without a socket. -/
theorem step_transfer {s t : State} {a : Act} (hs : SearchersEmpty s) (h : step s a = some t) :
    Transfer s t ∧ SearchersEmpty t := by
  cases a with
  | init n net =>
    simp only [step, Option.some.injEq] at h
    subst h
    cases hstatus : s.pool.INIT_STATUS with
    | false =>
      refine ⟨.more hstatus ?_ rfl, hs⟩
      intro hflag
      exact init_spec n net hflag
    | true =>
      rw [init_of_status hstatus]
      exact ⟨.same rfl rfl, hs⟩
  | getSocket c keySet =>
    simp only [step] at h
    split at h
    · rename_i i hpc
      have hnone : (s.clients c).socket = none := hs c (by rw [hpc]; rfl)
      have hc : s.holds c = none := (holds_of_not_ended (by rw [hpc]; rfl)).trans hnone
      rw [Option.ite_none_right_eq_some, Option.some.injEq] at h
      obtain ⟨-, rfl⟩ := h
      rcases getSocket_spec keySet s.pool with hget | ⟨k, hstatus, hk, hget⟩
      · have hsame : (⟨none, .sleeping i⟩ : Client).holds = s.holds c := hc.symm
        rw [hget]
        exact ⟨.same rfl (holds_setClient_same hsame), hs.setClient fun _ => rfl⟩
      · rw [hget]
        refine ⟨.acquire c k hstatus hk hc rfl ?_, hs.setClient fun hsearch => by cases hsearch⟩
        exact holds_setClient _ c ⟨some k, .using⟩
    · exact absurd h (by simp)
  | wake c =>
    simp only [step] at h
    split at h
    · rename_i i hpc
      rw [Option.some.injEq] at h
      subst h
      exact transfer_move hs (by rw [hpc]; rfl) rfl fun _ => by rw [hpc]; rfl
    · exact absurd h (by simp)
  | leave c =>
    simp only [step] at h
    split at h
    · rename_i i hpc
      rw [Option.ite_none_left_eq_some, Option.some.injEq] at h
      obtain ⟨-, rfl⟩ := h
      exact transfer_move hs (by rw [hpc]; rfl) rfl fun hsearch => by cases hsearch
    · rename_i hpc
      rw [Option.some.injEq] at h
      subst h
      exact transfer_move hs (by rw [hpc]; rfl) rfl fun hsearch => by cases hsearch
    · exact absurd h (by simp)
  | throw c e =>
    simp only [step, Option.ite_none_right_eq_some, Option.some.injEq] at h
    obtain ⟨hthrows, rfl⟩ := h
    exact transfer_move hs (not_ended_of_throws hthrows) rfl fun hsearch => by cases hsearch
  | free c =>
    simp only [step] at h
    split at h
    · rename_i thrown hpc
      rw [Option.some.injEq] at h
      subst h
      have hc : s.holds c = (s.clients c).socket := holds_of_not_ended (by rw [hpc]; rfl)
      refine ⟨?_, hs.setClient fun hsearch => by cases hsearch⟩
      cases hsocket : (s.clients c).socket with
      | none =>
        have hsame : (⟨none, .ended thrown⟩ : Client).holds = s.holds c := (hc.trans hsocket).symm
        exact .same (freeSocket_none _) (holds_setClient_same hsame)
      | some k =>
        exact .release c k (hc.trans hsocket) rfl (holds_setClient _ c ⟨some k, .ended thrown⟩)
    · exact absurd h (by simp)

/-! ## 4. The invariant -/

structure Inv (s : State) : Prop where
  searchers : SearchersEmpty s
  exclusive : Lease.Exclusive s.pool.flag s.holds
  /-- Before an `init` has succeeded, every socket is available. -/
  available : s.pool.INIT_STATUS = false → ∀ k, s.pool.flag k ≠ some false

theorem inv_init : Inv (machine Pool.fresh).init where
  searchers := fun _ _ => rfl
  exclusive := Lease.exclusive_of_free (fun _ h => by cases h) fun _ => rfl
  available := fun _ _ h => by cases h

/-- A socket that is held is one of an initialised pool. -/
theorem Inv.status_of_holds {s : State} (hi : Inv s) {c : Nat} {k : Socket}
    (h : s.holds c = some k) : s.pool.INIT_STATUS = true := by
  have hdown : s.pool.flag k = some false := (hi.exclusive.down_iff k).mpr ⟨c, h⟩
  cases hstatus : s.pool.INIT_STATUS with
  | false => exact absurd hdown (hi.available hstatus k)
  | true => rfl

/-- What a release does to the pool. -/
theorem Inv.freeSocket {s : State} (hi : Inv s) {c : Nat} {k : Socket} (h : s.holds c = some k) :
    freeSocket (some k) s.pool = { s.pool with socketMap := s.pool.socketMap.put k true } := by
  have hdown : s.pool.flag k = some false := (hi.exclusive.down_iff k).mpr ⟨c, h⟩
  exact freeSocket_some (hi.status_of_holds h) hdown

/-- A transfer keeps the flags and the holders in step. -/
theorem Transfer.inv {s t : State} (h : Transfer s t) (hi : Inv s) (ht : SearchersEmpty t) :
    Inv t := by
  cases h with
  | same hpool hholds =>
    refine ⟨ht, ?_, ?_⟩
    · rw [hpool, hholds]
      exact hi.exclusive
    · rw [hpool]
      exact hi.available
  | more hstatus hflag hholds =>
    have hfree : ∀ k, t.pool.flag k ≠ some false := hflag (hi.available hstatus)
    refine ⟨ht, Lease.exclusive_of_free hfree ?_, fun _ => hfree⟩
    intro c
    rw [hholds]
    cases hc : s.holds c with
    | none => rfl
    | some k => exact absurd (hi.status_of_holds hc) (by simp [hstatus])
  | acquire c k hstatus hk hc hpool hholds =>
    refine ⟨ht, ?_, ?_⟩
    · rw [hpool, hholds, flag_put]
      exact hi.exclusive.acquire hk hc
    · intro hnot
      rw [hpool] at hnot
      exact absurd (hnot.symm.trans hstatus) (by simp)
  | release c k hc hpool hholds =>
    rw [hi.freeSocket hc] at hpool
    refine ⟨ht, ?_, ?_⟩
    · rw [hpool, hholds, flag_put]
      exact hi.exclusive.release hc (by simp)
    · intro hnot
      rw [hpool] at hnot
      exact absurd (hnot.symm.trans (hi.status_of_holds hc)) (by simp)

/-- A transfer of an initialised pool keeps the keys. -/
theorem Transfer.keySet {s t : State} (h : Transfer s t) (hi : Inv s)
    (hinit : s.pool.INIT_STATUS = true) :
    t.pool.INIT_STATUS = true ∧ t.pool.socketMap.keySet = s.pool.socketMap.keySet := by
  cases h with
  | same hpool _ =>
    rw [hpool]
    exact ⟨hinit, rfl⟩
  | more hstatus _ _ =>
    rw [hinit] at hstatus
    cases hstatus
  | acquire c k _ hk _ hpool _ =>
    rw [hpool]
    exact ⟨hinit, Hashtable.keySet_put_of_mem (Hashtable.mem_keySet_of_get hk) _⟩
  | release c k hc hpool _ =>
    have hk : s.pool.socketMap.get k = some false := (hi.exclusive.down_iff k).mpr ⟨c, hc⟩
    rw [hpool, hi.freeSocket hc]
    exact ⟨hinit, Hashtable.keySet_put_of_mem (Hashtable.mem_keySet_of_get hk) _⟩

theorem step_inv {s t : State} {a : Act} (hi : Inv s) (h : step s a = some t) : Inv t := by
  obtain ⟨htransfer, ht⟩ := step_transfer hi.searchers h
  exact htransfer.inv hi ht

theorem reachable_inv {s : State} (h : (machine Pool.fresh).Reachable s) : Inv s :=
  h.induct inv_init fun _ _ _ _ hi hst => step_inv hi hst

/-- Once the pool is initialised, no run changes its keys. -/
theorem run_keySet {s t : State} {as : List Act} (hi : Inv s)
    (hinit : s.pool.INIT_STATUS = true) (h : (machine Pool.fresh).run s as = some t) :
    t.pool.socketMap.keySet = s.pool.socketMap.keySet := by
  induction as generalizing s with
  | nil =>
    cases h
    rfl
  | cons a as ih =>
    obtain ⟨u, hst, hrun⟩ := Option.bind_eq_some_iff.mp h
    obtain ⟨htransfer, -⟩ := step_transfer hi.searchers hst
    obtain ⟨hinit', hkeys⟩ := htransfer.keySet hi hinit
    exact (ih (step_inv hi hst) hinit' hrun).trans hkeys

/-- **A socket is flagged exactly while one client holds it.**  In every reachable state after a
successful `init` (which others, failed ones, may have preceded), a flag is `false` if and only if
exactly one client holds that socket, no two clients hold the same one, and the key set stays what
it is in every run from there. -/
theorem flag_false_iff_held {s : State} (h : (machine Pool.fresh).Reachable s)
    (hinit : s.pool.INIT_STATUS = true) :
    (∀ k, s.pool.socketMap.get k = some false ↔ ∃! c, s.holds c = some k) ∧
    (∀ c d k, s.holds c = some k → s.holds d = some k → c = d) ∧
    (∀ as t, (machine Pool.fresh).run s as = some t →
      t.pool.socketMap.keySet = s.pool.socketMap.keySet) := by
  have hi := reachable_inv h
  exact ⟨hi.exclusive.down_iff_existsUnique, hi.exclusive.unique, fun _ _ hr =>
    run_keySet hi hinit hr⟩

/-- The first `init` fails half-way, the second succeeds.  Of three clients one started too early,
one holds socket 7 and one socket 8. -/
theorem flag_false_iff_held_contended :
    ∃ s, (machine Pool.fresh).Reachable s ∧ s.pool.socketMap.keySet = [7, 8] ∧
      (s.clients 2).pc = .sleeping 0 ∧ ∃! c, s.holds c = some 8 := by
  have h : (machine Pool.fresh).Reachable _ :=
    ⟨[.init 2 ⟨true, fun i => if i = 2 then some 7 else none⟩, .getSocket 2 [7],
      .init 1 ⟨true, fun _ => some 8⟩, .getSocket 0 [7, 8], .getSocket 1 [8, 7]], rfl⟩
  exact ⟨_, h, rfl, rfl, ((flag_false_iff_held h rfl).1 8).mp rfl⟩

end TcpIpBIOClientSocketPool
end JavaStudy
