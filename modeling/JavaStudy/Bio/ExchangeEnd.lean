/-
# Every client comes to its end

`Exchange.lean` says that no client gets what is not its own; this module says that each one gets
to its `finally` block, and what it has by then.  The clients are the `n` that
`TcpIpBIOClient.client` starts.

* A client that waits for a socket tries at most `MAX_TRY_TIMES` times, and one that waits for its
  reply has a server thread that can go on, or the reply is there (`exists_step`).
* What is left to do is a sum over the clients and the connections (`State.steps`), and each step
  takes from it (`step_steps`).  The invariant of the exchange carries this: on a connection there
  is one message at a time, and a message is at most `maxLine` characters long.
* `clients_end`: a run has at most `78 * n` steps, and goes on until every client has its own reply
  and every socket is available again.  A client goes without a reply only if there are more
  clients than sockets (`scarce_of_refused`).

A delivery does not end between the CR and the LF of a separator here; for what happens otherwise,
see `reply_of_another_client`.
-/
import JavaStudy.Lib.Progress
import JavaStudy.Bio.Exchange

namespace JavaStudy
namespace TcpIpBIOExchange

open JavaText TcpIpBIOClientSocketPool

/-! ## 1. The runs of some clients -/

/-- The client that takes the step. -/
def Act.client : Act → Option Nat
  | .getSocket c _ => some c
  | .wake c => some c
  | .leave c => some c
  | .throw c _ => some c
  | .send c => some c
  | .receive c _ => some c
  | .free c => some c
  | .server _ _ => none

/-- The step is one of the first `n` clients or of a server thread, and cuts no separator. -/
def Orderly (n : Nat) (s : State) (a : Act) : Prop :=
  s.cuts a = false ∧ ∀ c ∈ a.client, c < n

instance decidableOrderly (n : Nat) (s : State) (a : Act) : Decidable (Orderly n s a) :=
  inferInstanceAs (Decidable (s.cuts a = false ∧ ∀ c ∈ a.client, c < n))

/-- Nothing interrupts a client, and no stream fails. -/
def Undisturbed : Act → Prop
  | .throw _ _ => False
  | _ => True

/-- `n` clients on the pool. -/
def clients (n : Nat) (sep : LineSeparator) (data : Nat → SocketData) (pool : Pool) :
    Machine State Act :=
  (machine sep data pool).restrict (Orderly n)

/-! ## 2. How long a line is -/

/-- The longest line with its separator: two `int`s, what is between them, and CR LF. -/
def maxLine : Nat := 25

theorem length_toString_le (i : JInt) : (Integer.toString i).length ≤ 11 := by
  have hrange : i.toInt.natAbs < 10 ^ 10 := by
    have hlo := BitVec.le_toInt i
    have hhi := BitVec.toInt_lt (x := i)
    omega
  have hdigits := length_digits_le (k := 10) (by decide) hrange
  unfold Integer.toString
  split
  · rw [List.length_cons]
    omega
  · omega

theorem length_println_le (sep : LineSeparator) (data : SocketData) (c : Nat) :
    (println sep data.getStrFromObj c).length ≤ maxLine := by
  have hfirst := length_toString_le data.clientNum
  have hsecond := length_toString_le data.serverNum
  have hsep : sep.text.length ≤ 2 := by
    cases sep <;> decide
  simp only [println, mark, SocketData.getStrFromObj, List.length_append, List.length_map,
    List.length_cons, maxLine]
  omega

/-! ## 3. How many steps are left -/

/-- What is left for the server thread of a connection, with what is on the way there. -/
def Connection.steps (conn : Connection) : Nat :=
  conn.requests.length + conn.replies.length + conn.server.read.cb.length +
    match conn.server.pc with
    | .reading => if conn.requests = [] then 0 else 28
    | .dealing _ => 27
    | .replying _ => 26
    | .stopped => 0

def ClientPc.steps : ClientPc → Nat
  | .trying i => 58 + 2 * (MAX_TRY_TIMES - i)
  | .sleeping i => 57 + 2 * (MAX_TRY_TIMES - i)
  | .sending => 57
  | .receiving receive => 3 + receive.cb.length
  | .received => 2
  | .freeing _ => 1
  | .ended _ => 0

/-- What is left of a run of `n` clients on these sockets. -/
def State.steps (n : Nat) (keys : List Socket) (s : State) : Nat :=
  ∑ c ∈ Finset.range n, (s.clients c).pc.steps + ∑ k ∈ keys.toFinset, (s.connections k).steps

theorem steps_setClient {n : Nat} {keys : List Socket} {s : State} {c : Nat} (hc : c < n)
    (pool : Pool) (client : Client) :
    (State.setClient { s with pool } c client).steps n keys + (s.clients c).pc.steps
      = s.steps n keys + client.pc.steps := by
  have hsum := Machine.sum_update_mem (fun client : Client => client.pc.steps) s.clients
    (Finset.mem_range.mpr hc) client
  simp only [State.steps, State.setClient]
  omega

theorem steps_setConnection {n : Nat} {keys : List Socket} {s : State} {k : Socket}
    (hk : k ∈ keys) (conn : Connection) :
    (s.setConnection k conn).steps n keys + (s.connections k).steps
      = s.steps n keys + conn.steps := by
  have hsum := Machine.sum_update_mem Connection.steps s.connections (List.mem_toFinset.mpr hk) conn
  simp only [State.steps, State.setConnection]
  omega

theorem steps_replies (conn : Connection) (rest : List Sym) :
    ({ conn with replies := rest } : Connection).steps + conn.replies.length
      = conn.steps + rest.length := by
  simp only [Connection.steps]
  omega

/-! ## 4. The server thread -/

/-- A round of `readLine` that completes no line. -/
theorem steps_of_read {conn : Connection} {n : Nat} {read : BufferedReader Sym} {rest : List Sym}
    (hpc : conn.server.pc = .reading)
    (hr : conn.server.read.receive breaks n conn.requests = some (read, none, rest)) :
    ({ conn with requests := rest, server := { conn.server with read } } : Connection).steps
      < conn.steps := by
  have hless := BufferedReader.receive_none hr
  have hrest : conn.requests = [] → rest = [] := by
    intro hnil
    unfold BufferedReader.receive at hr
    split at hr
    · rw [hnil, if_neg (by simp; omega)] at hr
      cases hr
    · simp only [Option.some.injEq, Prod.mk.injEq] at hr
      exact hr.2.2.symm.trans hnil
  simp only [Connection.steps, hpc]
  by_cases hnil : conn.requests = []
  · rw [if_pos (hrest hnil), if_pos hnil]
    omega
  · rw [if_neg hnil]
    split <;> omega

/-- **A step of the server thread takes from what is left**, on a connection that is idle or in the
middle of an exchange. -/
theorem serve_steps {sep : LineSeparator} {conn conn' : Connection} {a : ServerAct}
    (h : Idle conn ∨ ∃ c data receive, Serving sep c data receive conn)
    (hcut : ∀ n, a = .read n → conn.server.read.cb = [] →
      BufferedReader.cut breaks n conn.requests = false)
    (hst : conn.serve sep a = some conn') : conn'.steps < conn.steps := by
  cases a with
  | read n =>
    simp only [Connection.serve] at hst
    split at hst
    · rename_i hpc
      split at hst
      · rename_i hr
        cases hst
        exact steps_of_read hpc hr
      · -- a line: only a request that was on its way
        rename_i read line rest hr
        have hexp : ∃ c data, BufferedReader.Expecting breaks
            (mark c (SocketData.getStrFromObj data)) (mark c sep.text) conn.server.read
            conn.requests := by
          have hquiet : BufferedReader.Quiet breaks conn.server.read → conn.requests = [] →
              False := by
            intro hq hnil
            rw [hnil] at hr
            exact absurd (hq.receive hr).2.1 (by simp)
          rcases h with hidle | ⟨c, data, receive, hserving⟩
          · exact (hquiet hidle.quiet hidle.requests).elim
          · cases hserving with
            | asked _ _ _ h => exact ⟨c, data, h⟩
            | dealing _ _ hpc' _ _ => rw [hpc] at hpc'; cases hpc'
            | replying _ _ hpc' _ _ _ => rw [hpc] at hpc'; cases hpc'
            | answered _ hrequests hq _ => exact (hquiet hq hrequests).elim
        obtain ⟨c, data, hexp⟩ := hexp
        have hne := hexp.ne_nil (message sep data c)
        have hpos := List.length_pos_iff.mpr hne
        rcases hexp.receive (message sep data c) (hcut n rfl) hr with ⟨hres, -⟩ | ⟨-, rfl, hq⟩
        · cases hres
        · have hcb := hq.length_le
          cases hst
          simp only [Connection.steps, hpc, if_neg hne, List.length_nil]
          omega
      · cases hst
    · cases hst
  | deal =>
    simp only [Connection.serve] at hst
    split at hst
    · rename_i line hpc
      split at hst
      · cases hst
        simp only [Connection.steps, hpc]
        omega
      · cases hst
        simp only [Connection.steps, hpc]
        omega
    · cases hst
  | reply =>
    simp only [Connection.serve] at hst
    split at hst
    · rename_i c hpc
      have hempty : conn.requests = [] := by
        rcases h with hidle | ⟨d, data, receive, hserving⟩
        · exact hidle.requests
        · cases hserving with
          | asked _ _ hpc' _ => rw [hpc] at hpc'; cases hpc'
          | dealing _ _ _ hrequests _ => exact hrequests
          | replying _ _ _ _ hrequests _ => exact hrequests
          | answered _ hrequests _ _ => exact hrequests
      have hline := length_println_le sep conn.server.socketData c
      cases hst
      simp only [Connection.steps, hpc, hempty, List.length_append, maxLine, if_true] at hline ⊢
      omega
    · cases hst

/-! ## 5. What is known of the clients -/

/-- Has a try of the client failed? -/
def ClientPc.refused : ClientPc → Bool
  | .trying i => i != 0
  | .sleeping _ => true
  | _ => false

/-- Client `c` of `n` that compete for the sockets `keys`. -/
structure Client.Live (n : Nat) (keys : List Socket) (c : Nat) (client : Client) : Prop where
  /-- The other clients do not start. -/
  start : n ≤ c → client.pc = .trying 0
  sleeping : ∀ i, client.pc = .sleeping i → i < MAX_TRY_TIMES
  leased : client.pc.toPool = .using → ∃ k, client.socket = some k
  scarce : client.pc.refused = true → keys.length < n

structure Live (n : Nat) (pool : Pool) (s : State) : Prop where
  status : s.pool.INIT_STATUS = true
  keySet : s.pool.socketMap.keySet = pool.socketMap.keySet
  /-- The server thread of a socket that is not in the pool has never read. -/
  unread : ∀ k ∉ pool.socketMap.keySet, (s.connections k).server.read.cb = []
  clients : ∀ c, (s.clients c).Live n pool.socketMap.keySet c

/-- The clients that do not start hold nothing. -/
theorem Live.lt_of_holds {n : Nat} {pool : Pool} {s : State} (hl : Live n pool s)
    (hp : TcpIpBIOClientSocketPool.Inv s.toPool) {c : Nat} {k : Socket}
    (hc : s.holds c = some k) : c < n := by
  by_contra hge
  have hstart := (hl.clients c).start (by omega)
  have hsocket : (s.clients c).socket = none := hp.searchers c (by rw [toPool_clients, hstart]; rfl)
  rw [State.holds, holds_of_resting (by rw [hstart]; rfl), hsocket] at hc
  cases hc

/-- A refused client finds every socket in the hands of another one. -/
theorem scarce_of_refused {n : Nat} {pool : Pool} {s : State} (hl : Live n pool s)
    (hp : TcpIpBIOClientSocketPool.Inv s.toPool) {c : Nat} (hc : c < n)
    (hnone : s.holds c = none) {keySet : List Socket}
    (hperm : keySet.Perm s.pool.socketMap.keySet)
    (hget : (TcpIpBIOClientSocketPool.getSocket keySet s.pool).2 = none) :
    pool.socketMap.keySet.length < n := by
  have hdown : ∀ k ∈ pool.socketMap.keySet.toFinset, s.toPool.pool.flag k = some false := by
    intro k hk
    rw [List.mem_toFinset, ← hl.keySet] at hk
    obtain ⟨flag, hflag⟩ := Hashtable.mem_keySet_iff.mp hk
    cases flag with
    | false => exact hflag
    | true =>
      unfold TcpIpBIOClientSocketPool.getSocket at hget
      rw [if_pos hl.status] at hget
      split at hget
      · cases hget
      · rename_i hfind
        have hnot := List.find?_eq_none.mp hfind k (hperm.mem_iff.mpr hk)
        exact absurd (by rw [hflag]; rfl) hnot
  have hothers : ∀ d k, s.toPool.holds d = some k → d ∈ (Finset.range n).erase c := by
    intro d k hd
    refine Finset.mem_erase.mpr ⟨?_, Finset.mem_range.mpr (hl.lt_of_holds hp hd)⟩
    rintro rfl
    exact absurd (hd.symm.trans hnone) (by simp)
  have hcard := hp.exclusive.card_le hdown hothers
  have hcount : pool.socketMap.keySet.toFinset.card = pool.socketMap.keySet.length :=
    List.toFinset_card_of_nodup pool.socketMap.nodup
  rw [hcount, Finset.card_erase_of_mem (Finset.mem_range.mpr hc), Finset.card_range]
    at hcard
  omega

/-- A held socket is one of the pool's. -/
theorem Live.mem_keySet {n : Nat} {pool : Pool} {s : State} (hl : Live n pool s)
    (hp : TcpIpBIOClientSocketPool.Inv s.toPool) {c : Nat} {k : Socket}
    (hc : s.holds c = some k) : k ∈ pool.socketMap.keySet := by
  have hdown : s.pool.socketMap.get k = some false := (hp.exclusive.down_iff k).mpr ⟨c, hc⟩
  rw [← hl.keySet]
  exact Hashtable.mem_keySet_of_get hdown

theorem status_of_init {MAX_POOL_NUM : Nat} {net : Network} {pool : Pool}
    (h : init MAX_POOL_NUM net Pool.fresh = (pool, .ok ())) : pool.INIT_STATUS = true := by
  unfold TcpIpBIOClientSocketPool.init at h
  rw [if_neg (by decide)] at h
  split at h
  · split at h
    · cases h
      rfl
    · cases h
  · cases h

theorem live_init (n : Nat) (sep : LineSeparator) (data : Nat → SocketData) {pool : Pool}
    (hstatus : pool.INIT_STATUS = true) : Live n pool (machine sep data pool).init where
  status := hstatus
  keySet := rfl
  unread _ _ := rfl
  clients _ :=
    { start := fun _ => rfl
      sleeping := fun _ h => by cases h
      leased := fun h => by cases h
      scarce := fun h => by cases h }

theorem complete_cases (client : Client) (line : List Sym) :
    ((client.complete line).pc = .received ∨ (client.complete line).pc = .freeing (some .unchecked))
      ∧ (client.complete line).socket = client.socket := by
  unfold Client.complete
  split
  · exact ⟨Or.inl rfl, rfl⟩
  · exact ⟨Or.inr rfl, rfl⟩

/-- A client that has its reply or is done has nothing to wait for. -/
theorem Client.live_of_done {n c : Nat} {keys : List Socket} {client : Client} (hc : c < n)
    (hpc : (∃ thrown, client.pc = .freeing thrown) ∨ ∃ thrown, client.pc = .ended thrown) :
    client.Live n keys c := by
  refine ⟨fun hge => absurd hc (by omega), ?_, ?_, ?_⟩
  · intro i hi
    rcases hpc with ⟨thrown, hpc⟩ | ⟨thrown, hpc⟩ <;> rw [hpc] at hi <;> cases hi
  · intro huse
    rcases hpc with ⟨thrown, hpc⟩ | ⟨thrown, hpc⟩ <;> rw [hpc] at huse <;> cases huse
  · intro href
    rcases hpc with ⟨thrown, hpc⟩ | ⟨thrown, hpc⟩ <;> rw [hpc] at href <;> cases href

theorem ClientPc.refused_of_using {pc : ClientPc} (h : pc.toPool = .using) :
    pc.refused = false := by
  cases pc <;> first | rfl | cases h

/-- A client in the `try` block with its socket. -/
theorem Client.live_of_using {n c : Nat} {keys : List Socket} {client : Client} (hc : c < n)
    {k : Socket} (hpc : client.pc.toPool = .using) (hk : client.socket = some k) :
    client.Live n keys c := by
  refine ⟨fun hge => absurd hc (by omega), ?_, fun _ => ⟨k, hk⟩, ?_⟩
  · intro i hi
    rw [hi] at hpc
    cases hpc
  · intro href
    rw [ClientPc.refused_of_using hpc] at href
    cases href

/-- **A step of one client.** -/
theorem Live.client {n : Nat} {pool : Pool} {sep : LineSeparator} {s t : State} {a : Act}
    (hl : Live n pool s) (hp : TcpIpBIOClientSocketPool.Inv s.toPool)
    (hn : ∀ c ∈ a.client, c < n) (h : Stepped sep s a t) (d : Nat) :
    (t.clients d).Live n pool.socketMap.keySet d := by
  have hupdate : ∀ {c : Nat} {client : Client}, client.Live n pool.socketMap.keySet c →
      (Function.update s.clients c client d).Live n pool.socketMap.keySet d := by
    intro c client hclient
    by_cases hdc : d = c
    · subst hdc
      rw [Function.update_self]
      exact hclient
    · rw [Function.update_of_ne hdc]
      exact hl.clients d
  cases h with
  | @getSocket c i keySet hpc htry hperm =>
    have hc : c < n := hn c rfl
    refine hupdate ?_
    have hnone : s.holds c = none := by
      have hsocket : (s.clients c).socket = none :=
        hp.searchers c (by rw [toPool_clients, hpc]; rfl)
      rw [State.holds, holds_of_resting (by rw [hpc]; rfl), hsocket]
    rcases hget : (TcpIpBIOClientSocketPool.getSocket keySet s.pool).2 with _ | k
    · have hscarce := scarce_of_refused hl hp hc hnone hperm hget
      refine ⟨fun hge => absurd hc (by omega), ?_, fun huse => (by cases huse), fun _ => hscarce⟩
      intro j hj
      cases hj
      exact htry
    · exact Client.live_of_using hc rfl rfl
  | @wake c i hpc =>
    have hc : c < n := hn c rfl
    refine hupdate ⟨fun hge => absurd hc (by omega), fun j hj => (by cases hj),
      fun huse => (by cases huse), fun _ => ?_⟩
    exact (hl.clients c).scarce (by rw [hpc]; rfl)
  | giveUp _ _ => exact hupdate (Client.live_of_done (hn _ rfl) (Or.inl ⟨_, rfl⟩))
  | finish _ => exact hupdate (Client.live_of_done (hn _ rfl) (Or.inl ⟨_, rfl⟩))
  | throw _ => exact hupdate (Client.live_of_done (hn _ rfl) (Or.inl ⟨_, rfl⟩))
  | send _ hsocket => exact hupdate (Client.live_of_using (hn _ rfl) rfl hsocket)
  | part _ hsocket _ => exact hupdate (Client.live_of_using (hn _ rfl) rfl hsocket)
  | line _ hsocket _ =>
    refine hupdate ?_
    rcases complete_cases _ _ with ⟨hpc | hpc, hsame⟩
    · exact Client.live_of_using (hn _ rfl) (by rw [hpc]; rfl) (hsame.trans hsocket)
    · exact Client.live_of_done (hn _ rfl) (Or.inl ⟨_, hpc⟩)
  | free _ => exact hupdate (Client.live_of_done (hn _ rfl) (Or.inr ⟨_, rfl⟩))
  | server _ => exact hl.clients d

/-- What a step does to the server threads. -/
theorem stepped_server {sep : LineSeparator} {s t : State} {a : Act} (h : Stepped sep s a t) :
    (∀ k, (t.connections k).server = (s.connections k).server) ∨
    ∃ k b conn, a = .server k b ∧ (s.connections k).serve sep b = some conn ∧
      t = s.setConnection k conn := by
  have hsame : ∀ {k : Socket} {conn : Connection}, conn.server = (s.connections k).server →
      ∀ j, (Function.update s.connections k conn j).server = (s.connections j).server := by
    intro k conn hconn j
    by_cases hjk : j = k
    · subst hjk
      rw [Function.update_self]
      exact hconn
    · rw [Function.update_of_ne hjk]
  cases h with
  | server hst => exact Or.inr ⟨_, _, _, rfl, hst, rfl⟩
  | send _ _ => exact Or.inl (hsame rfl)
  | part _ _ _ => exact Or.inl (hsame rfl)
  | line _ _ _ => exact Or.inl (hsame rfl)
  | _ => exact Or.inl fun _ => rfl

/-- The server thread of a socket that is not in the pool waits for ever. -/
theorem serve_of_unread {sep : LineSeparator} {conn : Connection} {b : ServerAct}
    (hidle : Idle conn) (hcb : conn.server.read.cb = []) : conn.serve sep b = none := by
  cases b with
  | read n =>
    have hwait : conn.server.read.receive breaks n conn.requests = none := by
      unfold BufferedReader.receive
      rw [if_pos hcb, hidle.requests, if_neg (by simp; omega)]
    simp only [Connection.serve, hidle.pc, hwait]
  | deal => simp only [Connection.serve, hidle.pc]
  | reply => simp only [Connection.serve, hidle.pc]

theorem step_live {n : Nat} {sep : LineSeparator} {data : Nat → SocketData} {pool : Pool}
    {s t : State} {a : Act} (hl : Live n pool s) (hp : TcpIpBIOClientSocketPool.Inv s.toPool)
    (hi : Inv sep data s) (hn : ∀ c ∈ a.client, c < n) (h : Stepped sep s a t) :
    Live n pool t := by
  have hkeys : t.pool.INIT_STATUS = true ∧
      t.pool.socketMap.keySet = s.pool.socketMap.keySet := by
    rcases step_simulates h with heq | ⟨b, hb⟩
    · have hpool : t.pool = s.pool := congrArg TcpIpBIOClientSocketPool.State.pool heq
      rw [hpool]
      exact ⟨hl.status, rfl⟩
    · exact (step_transfer hp.searchers hb).1.keySet hp hl.status
  refine ⟨hkeys.1, hkeys.2.trans hl.keySet, ?_, hl.client hp hn h⟩
  intro k hk
  rcases stepped_server h with hsame | ⟨j, b, conn, -, hst, rfl⟩
  · rw [hsame k]
    exact hl.unread k hk
  · by_cases hkj : k = j
    · subst hkj
      have hidle := hi.free fun c hc => hk (hl.mem_keySet hp hc)
      rw [serve_of_unread hidle (hl.unread k hk)] at hst
      cases hst
    · simp only [State.setConnection, Function.update_of_ne hkj]
      exact hl.unread k hk

/-! ## 6. Every step takes from what is left -/

theorem steps_setBoth {n : Nat} {keys : List Socket} {s : State} {c : Nat} (hc : c < n)
    {k : Socket} (hk : k ∈ keys) (conn : Connection) (client : Client) :
    ((s.setConnection k conn).setClient c client).steps n keys
        + (s.clients c).pc.steps + (s.connections k).steps
      = s.steps n keys + client.pc.steps + conn.steps := by
  have hconn := steps_setConnection (n := n) (s := s) hk conn
  have hclient : ((s.setConnection k conn).setClient c client).steps n keys
      + (s.clients c).pc.steps = (s.setConnection k conn).steps n keys + client.pc.steps :=
    steps_setClient (s := s.setConnection k conn) hc s.pool client
  omega

/-- A client that throws has more than its `finally` block before it. -/
theorem steps_of_throws {pc : ClientPc} {e : Throwable} (h : pc.throws e = true) :
    1 < pc.steps := by
  cases pc with
  | trying i => simp only [ClientPc.steps]; omega
  | sleeping i => simp only [ClientPc.steps]; omega
  | sending => decide
  | receiving receive => cases h
  | received => cases h
  | freeing thrown => cases h
  | ended thrown => cases h

/-- **Every step takes from what is left.** -/
theorem step_steps {n : Nat} {sep : LineSeparator} {data : Nat → SocketData} {pool : Pool}
    {s t : State} {a : Act} (hl : Live n pool s) (hp : TcpIpBIOClientSocketPool.Inv s.toPool)
    (hi : Inv sep data s) (ha : Orderly n s a) (h : Stepped sep s a t) :
    t.steps n pool.socketMap.keySet < s.steps n pool.socketMap.keySet := by
  obtain ⟨hcut, hn⟩ := ha
  have hmem : ∀ {c k}, (s.clients c).pc.toPool = .using → (s.clients c).socket = some k →
      k ∈ pool.socketMap.keySet :=
    fun huse hsocket => hl.mem_keySet hp (holds_of_using huse hsocket)
  have hclient : ∀ (pool' : Pool) {c : Nat} {client : Client}, c < n →
      client.pc.steps < (s.clients c).pc.steps →
      (State.setClient { s with pool := pool' } c client).steps n pool.socketMap.keySet
        < s.steps n pool.socketMap.keySet := by
    intro pool' c client hc hless
    have hsum : (State.setClient { s with pool := pool' } c client).steps n pool.socketMap.keySet
        + (s.clients c).pc.steps = s.steps n pool.socketMap.keySet + client.pc.steps :=
      steps_setClient hc pool' client
    omega
  have hboth : ∀ {c : Nat} {k : Socket} {client : Client} {conn : Connection}, c < n →
      k ∈ pool.socketMap.keySet →
      client.pc.steps + conn.steps < (s.clients c).pc.steps + (s.connections k).steps →
      ((s.setConnection k conn).setClient c client).steps n pool.socketMap.keySet
        < s.steps n pool.socketMap.keySet := by
    intro c k client conn hc hk hless
    have hsum := steps_setBoth hc hk conn client (s := s)
    omega
  cases h with
  | @getSocket c i keySet hpc htry hperm =>
    refine hclient _ (hn c rfl) ?_
    rw [hpc]
    split
    · simp only [ClientPc.steps]
      omega
    · simp only [ClientPc.steps]
      omega
  | @wake c i hpc =>
    refine hclient s.pool (hn c rfl) ?_
    have htry := (hl.clients c).sleeping i hpc
    rw [hpc]
    simp only [ClientPc.steps]
    omega
  | @giveUp c i hpc _ =>
    refine hclient s.pool (hn c rfl) ?_
    rw [hpc]
    simp only [ClientPc.steps]
    omega
  | @finish c hpc =>
    refine hclient s.pool (hn c rfl) ?_
    rw [hpc]
    exact Nat.one_lt_two
  | @throw c e hthrows => exact hclient s.pool (hn c rfl) (steps_of_throws hthrows)
  | @send c k hpc hsocket =>
    refine hboth (hn c rfl) (hmem (by rw [hpc]; rfl) hsocket) ?_
    have hheld := hi.held (holds_of_using (by rw [hpc]; rfl) hsocket)
    have hidle : Idle (s.connections k) := (holding_of_resting (by rw [hpc]; rfl)).mp hheld
    have hline := length_println_le sep (s.clients c).socketData c
    simp only [maxLine] at hline
    simp only [ClientPc.steps, Connection.steps, hpc, hidle.pc, BufferedReader.fresh,
      List.length_append, List.length_nil]
    split <;> split <;> omega
  | @part c n' k receive receive' rest hpc hsocket hr =>
    refine hboth (hn c rfl) (hmem (by rw [hpc]; rfl) hsocket) ?_
    have hconn := steps_replies (s.connections k) rest
    have hless := BufferedReader.receive_none hr
    rw [hpc]
    simp only [ClientPc.steps]
    omega
  | @line c n' k receive receive' line rest hpc hsocket hr =>
    refine hboth (hn c rfl) (hmem (by rw [hpc]; rfl) hsocket) ?_
    have hconn := steps_replies (s.connections k) rest
    have hempty : rest = [] := by
      rcases hi.receive (holds_of_using (by rw [hpc]; rfl) hsocket) hpc hsocket hcut hr with
        ⟨-, -, ⟨hres, -⟩ | ⟨-, hidle⟩⟩
      · cases hres
      · exact hidle.replies
    have hlength : rest.length = 0 := by rw [hempty]; rfl
    rcases complete_cases { s.clients c with
      took := (s.clients c).took ++ receive.delivered n' (s.connections k).replies } line
      with ⟨hdone | hdone, -⟩
    · rw [hdone, hpc]
      simp only [ClientPc.steps]
      omega
    · rw [hdone, hpc]
      simp only [ClientPc.steps]
      omega
  | @free c thrown hpc =>
    refine hclient _ (hn c rfl) ?_
    rw [hpc]
    exact Nat.one_pos
  | @server k b conn hst =>
    have hstate : Idle (s.connections k) ∨
        ∃ c data receive, Serving sep c data receive (s.connections k) := by
      by_cases hfree : ∀ c, s.holds c ≠ some k
      · exact Or.inl (hi.free hfree)
      · obtain ⟨c, hc⟩ := not_forall_not.mp hfree
        have hold := hi.held hc
        unfold Holding at hold
        split at hold
        · exact Or.inr ⟨c, data c, _, hold⟩
        · exact Or.inl hold
    have hless : conn.steps < (s.connections k).steps := by
      refine serve_steps hstate ?_ hst
      rintro m rfl hcb
      simpa only [State.cuts, hcb, List.isEmpty_nil, Bool.true_and] using hcut
    have hk : k ∈ pool.socketMap.keySet := by
      by_contra hk
      have hidle := hi.free fun c hc => hk (hl.mem_keySet hp hc)
      rw [serve_of_unread hidle (hl.unread k hk)] at hst
      cases hst
    have hsum := steps_setConnection (n := n) (s := s) hk conn
    omega

/-! ## 7. No client waits in vain -/

/-- The connection of a client in `readLine` is not stuck: the server thread can go on, or the
client can read. -/
theorem exists_exchange_step {sep : LineSeparator} {c : Nat} {data : SocketData} {s : State}
    {k : Socket} {receive : BufferedReader Sym} (hpc : (s.clients c).pc = .receiving receive)
    (hsocket : (s.clients c).socket = some k)
    (h : Serving sep c data receive (s.connections k)) :
    ∃ a, Undisturbed a ∧ s.cuts a = false ∧ (∀ d ∈ a.client, d = c) ∧
      (step sep s a).isSome = true := by
  have hnone : ∀ d ∈ (none : Option Nat), d = c := fun d hd => by cases hd
  cases h with
  | asked _ _ hreading hexp =>
    obtain ⟨⟨read, res, rest⟩, hr⟩ := BufferedReader.exists_receive
      (b := breaks) (r := (s.connections k).server.read) fun _ => hexp.ne_nil (message sep data c)
    refine ⟨.server k (.read (s.connections k).requests.length), trivial, ?_, hnone, ?_⟩
    · simp only [State.cuts, BufferedReader.cut_all, Bool.and_false]
    · cases res <;> simp only [step, Connection.serve, hreading, hr, Option.map_some,
        Option.isSome_some]
  | dealing _ _ hdealing _ _ =>
    refine ⟨.server k .deal, trivial, rfl, hnone, ?_⟩
    simp only [step, Connection.serve, hdealing, map_fst_mark,
      SocketData.getObjFromStr_getStrFromObj, Option.map_some, Option.isSome_some]
  | replying _ _ hreplying _ _ _ =>
    refine ⟨.server k .reply, trivial, rfl, hnone, ?_⟩
    simp only [step, Connection.serve, hreplying, Option.map_some, Option.isSome_some]
  | answered _ _ _ hexp =>
    obtain ⟨⟨receive', res, rest⟩, hr⟩ := BufferedReader.exists_receive (b := breaks) (r := receive)
      fun _ => hexp.ne_nil (message sep data.dealData c)
    refine ⟨.receive c (s.connections k).replies.length, trivial, ?_,
      fun d hd => (Option.some.inj hd).symm, ?_⟩
    · simp only [State.cuts, hpc, hsocket, BufferedReader.cut_all, Bool.and_false]
    · cases res <;> simp only [step, hpc, hsocket, hr, Option.isSome_some]

/-- **A client that has not ended can go on, or its server thread can.** -/
theorem exists_step {n : Nat} {sep : LineSeparator} {data : Nat → SocketData} {pool : Pool}
    {s : State} (hl : Live n pool s) (hi : Inv sep data s) {c : Nat} (hc : c < n)
    (hpc : ∀ thrown, (s.clients c).pc ≠ .ended thrown) :
    ∃ a t, Undisturbed a ∧ (clients n sep data pool).step s a = some t := by
  have hfound : ∃ a, Undisturbed a ∧ s.cuts a = false ∧ (∀ d ∈ a.client, d = c) ∧
      (step sep s a).isSome = true := by
    have hself : ∀ d ∈ some c, d = c := fun d hd => (Option.some.inj hd).symm
    cases hclient : (s.clients c).pc with
    | trying i =>
      by_cases htry : i < MAX_TRY_TIMES
      · refine ⟨.getSocket c s.pool.socketMap.keySet, trivial, rfl, hself, ?_⟩
        have hguard : i < MAX_TRY_TIMES ∧
            s.pool.socketMap.keySet.Perm s.pool.socketMap.keySet := ⟨htry, .refl _⟩
        simp only [step, hclient, if_pos hguard, Option.isSome_some]
      · refine ⟨.leave c, trivial, rfl, hself, ?_⟩
        simp only [step, hclient, if_neg htry, Option.isSome_some]
    | sleeping i =>
      refine ⟨.wake c, trivial, rfl, hself, ?_⟩
      simp only [step, hclient, Option.isSome_some]
    | sending =>
      obtain ⟨k, hk⟩ := (hl.clients c).leased (by rw [hclient]; rfl)
      refine ⟨.send c, trivial, rfl, hself, ?_⟩
      simp only [step, hclient, hk, Option.isSome_some]
    | receiving receive =>
      obtain ⟨k, hk⟩ := (hl.clients c).leased (by rw [hclient]; rfl)
      have hserving := hi.held (holds_of_using (by rw [hclient]; rfl) hk)
      rw [hclient] at hserving
      exact exists_exchange_step hclient hk hserving
    | received =>
      refine ⟨.leave c, trivial, rfl, hself, ?_⟩
      simp only [step, hclient, Option.isSome_some]
    | freeing thrown =>
      refine ⟨.free c, trivial, rfl, hself, ?_⟩
      simp only [step, hclient, Option.isSome_some]
    | ended thrown => exact absurd hclient (hpc thrown)
  obtain ⟨a, hundisturbed, hcut, hself, hsome⟩ := hfound
  obtain ⟨t, hst⟩ := Option.isSome_iff_exists.mp hsome
  refine ⟨a, t, hundisturbed, Machine.restrict_step_eq_some.mpr ⟨⟨hcut, ?_⟩, hst⟩⟩
  intro d hd
  rw [hself d hd]
  exact hc

/-! ## 8. What there is at the end -/

/-- What a client has when it leaves the `try` block: its reply; or it had no socket at all, and
there are not enough for all. -/
structure Client.Done (n : Nat) (keys : List Socket) (client : Client) : Prop where
  received : client.pc = .received → client.completed = true
  left : ∀ thrown, client.pc = .freeing thrown ∨ client.pc = .ended thrown →
    thrown = none ∧ (client.completed = true ∨ client.socket = none ∧ keys.length < n)

theorem Client.done_of_waiting {n : Nat} {keys : List Socket} {client : Client}
    (h : client.pc.waiting = true) : client.Done n keys where
  received hpc := by
    rw [hpc] at h
    cases h
  left thrown hpc := by
    rcases hpc with hpc | hpc <;> rw [hpc] at h <;> cases h

/-- A client that is about to enter or has left its `finally` block. -/
theorem Client.done_of_over {n : Nat} {keys : List Socket} {client : Client}
    (hpc : client.pc = .freeing none ∨ client.pc = .ended none)
    (h : client.completed = true ∨ client.socket = none ∧ keys.length < n) :
    client.Done n keys where
  received hreceived := by
    rcases hpc with hpc | hpc <;> rw [hpc] at hreceived <;> cases hreceived
  left thrown hover := by
    rcases hpc with hpc | hpc <;> rw [hpc] at hover <;> rcases hover with hover | hover <;>
      cases hover <;> exact ⟨rfl, h⟩

/-- **A step of an undisturbed run.** -/
theorem step_done {n : Nat} {sep : LineSeparator} {data : Nat → SocketData} {pool : Pool}
    {s t : State} {a : Act} (hl : Live n pool s) (hp : TcpIpBIOClientSocketPool.Inv s.toPool)
    (hi : Inv sep data s) (hcut : s.cuts a = false) (hundisturbed : Undisturbed a)
    (hd : ∀ c, (s.clients c).Done n pool.socketMap.keySet) (h : Stepped sep s a t) (d : Nat) :
    (t.clients d).Done n pool.socketMap.keySet := by
  have hupdate : ∀ {c : Nat} {client : Client}, client.Done n pool.socketMap.keySet →
      (Function.update s.clients c client d).Done n pool.socketMap.keySet := by
    intro c client hclient
    by_cases hdc : d = c
    · subst hdc
      rw [Function.update_self]
      exact hclient
    · rw [Function.update_of_ne hdc]
      exact hd d
  cases h with
  | getSocket _ _ _ =>
    refine hupdate (Client.done_of_waiting ?_)
    dsimp only
    split <;> rfl
  | wake _ => exact hupdate (Client.done_of_waiting rfl)
  | @giveUp c i hpc htry =>
    refine hupdate (Client.done_of_over (Or.inl rfl) (Or.inr ⟨?_, ?_⟩))
    · exact hp.searchers c (by rw [toPool_clients, hpc]; rfl)
    · refine (hl.clients c).scarce ?_
      rw [hpc]
      simp only [MAX_TRY_TIMES] at htry
      simp only [ClientPc.refused, bne_iff_ne]
      omega
  | @finish c hpc =>
    exact hupdate (Client.done_of_over (Or.inl rfl) (Or.inl ((hd c).received hpc)))
  | throw _ => exact hundisturbed.elim
  | send _ _ => exact hupdate (Client.done_of_waiting rfl)
  | part _ _ _ => exact hupdate (Client.done_of_waiting rfl)
  | @line c n' k receive receive' line rest hpc hsocket hr =>
    refine hupdate ?_
    -- the line is the client's own reply, so it is read
    rcases hi.receive (holds_of_using (by rw [hpc]; rfl) hsocket) hpc hsocket hcut hr with
      ⟨-, -, ⟨hres, -⟩ | ⟨hres, -⟩⟩
    · cases hres
    · cases hres
      simp only [Client.complete, map_fst_mark, SocketData.getObjFromStr_getStrFromObj]
      exact ⟨fun _ => rfl, fun thrown hover => by rcases hover with hover | hover <;> cases hover⟩
  | @free c thrown hpc =>
    obtain ⟨rfl, hover⟩ := (hd c).left thrown (Or.inl hpc)
    exact hupdate (Client.done_of_over (Or.inr rfl) hover)
  | server _ => exact hd d

/-- How `n` clients end: each has its own number and the double of it, or it never had a socket, and
there are fewer sockets than clients; and every socket is available again. -/
structure Settled (n : Nat) (data : Nat → SocketData) (pool : Pool) (s : State) : Prop where
  clients : ∀ c < n, (s.clients c).pc = .ended none ∧
    ((s.clients c).socketData = ⟨(data c).clientNum, (data c).clientNum * 2⟩ ∨
      (s.clients c).socket = none ∧ pool.socketMap.keySet.length < n)
  available : ∀ k ∈ pool.socketMap.keySet, s.pool.socketMap.get k = some true

/-- What holds of every state that the clients reach. -/
theorem clients_inv {n : Nat} {sep : LineSeparator} {data : Nat → SocketData} {MAX_POOL_NUM : Nat}
    {net : Network} {pool : Pool} (hinit : init MAX_POOL_NUM net Pool.fresh = (pool, .ok ()))
    {s : State} (h : (clients n sep data pool).Reachable s) :
    TcpIpBIOClientSocketPool.Inv s.toPool ∧ Inv sep data s ∧ Live n pool s := by
  refine ⟨toPool_inv hinit h.of_restrict, ?_⟩
  refine Machine.Reachable.induct (M := clients n sep data pool)
    (I := fun s => Inv sep data s ∧ Live n pool s) ⟨inv_init sep data pool, live_init n sep data
      (status_of_init hinit)⟩ ?_ h
  rintro s a t hr ⟨hi, hl⟩ hst
  have hp := toPool_inv hinit hr.of_restrict
  obtain ⟨⟨hcut, hn⟩, hst⟩ := Machine.restrict_step_eq_some.mp hst
  exact ⟨step_inv hp hi hcut (step_cases hst), step_live hl hp hi hn (step_cases hst)⟩

/-- **Every client comes to its end.**  With `n` clients on an initialised pool, every run has at
most `78 * n` steps; and unless a client is interrupted or a stream fails, it goes on until each
client has ended with its own number and the double of it, or without ever having had a socket
because there are fewer than clients, and every socket is available again. -/
theorem clients_end {n : Nat} {sep : LineSeparator} {data : Nat → SocketData} {MAX_POOL_NUM : Nat}
    {net : Network} {pool : Pool} (hinit : init MAX_POOL_NUM net Pool.fresh = (pool, .ok ())) :
    (clients n sep data pool).Ends (fun _ a => Undisturbed a) (78 * n) (Settled n data pool) where
  bounded as s h := by
    have hdecreases : (clients n sep data pool).Decreases
        (State.steps n pool.socketMap.keySet) := by
      intro s a t hs hst
      obtain ⟨hp, hi, hl⟩ := clients_inv hinit hs
      obtain ⟨ha, hst⟩ := Machine.restrict_step_eq_some.mp hst
      exact step_steps hl hp hi ha (step_cases hst)
    have hle := hdecreases.length_add_le Machine.reachable_init h
    have hsteps : (clients n sep data pool).init.steps n pool.socketMap.keySet = 78 * n := by
      have hclient : ∀ c, ((clients n sep data pool).init.clients c).pc.steps = 78 := fun _ => rfl
      have hconn : ∀ k, ((clients n sep data pool).init.connections k).steps = 0 := fun _ => rfl
      rw [State.steps, Finset.sum_const_nat fun c _ => hclient c,
        Finset.sum_eq_zero fun k _ => hconn k, Finset.card_range]
      omega
    omega
  goes_on s h hsettled := by
    obtain ⟨hp, hi, hl⟩ := clients_inv hinit h.reachable
    have hdone : ∀ c, (s.clients c).Done n pool.socketMap.keySet := by
      refine h.induct (I := fun s => ∀ c, (s.clients c).Done n pool.socketMap.keySet)
        (fun _ => Client.done_of_waiting rfl) ?_
      intro s a t hs hd hundisturbed hst
      obtain ⟨hp, hi, hl⟩ := clients_inv hinit hs
      obtain ⟨ha, hst⟩ := Machine.restrict_step_eq_some.mp hst
      exact step_done hl hp hi ha.1 hundisturbed hd (step_cases hst)
    by_cases hended : ∀ c < n, ∃ thrown, (s.clients c).pc = .ended thrown
    · -- all have ended, so nobody holds a socket
      refine absurd ⟨?_, ?_⟩ hsettled
      · intro c hc
        obtain ⟨thrown, hpc⟩ := hended c hc
        obtain ⟨rfl, hover⟩ := (hdone c).left thrown (Or.inr hpc)
        exact ⟨hpc, hover.imp_left (hi.own c).completed⟩
      · intro k hk
        rw [← hl.keySet] at hk
        obtain ⟨flag, hflag⟩ := Hashtable.mem_keySet_iff.mp hk
        cases flag with
        | true => exact hflag
        | false =>
          obtain ⟨c, hc⟩ := (hp.exclusive.down_iff k).mp hflag
          obtain ⟨thrown, hpc⟩ := hended c (hl.lt_of_holds hp hc)
          have hnone : s.holds c = none := by
            rw [State.holds, Client.toPool, hpc]
            rfl
          exact absurd (hc.symm.trans hnone) (by simp)
    · simp only [not_forall, not_exists] at hended
      obtain ⟨c, hc, hpc⟩ := hended
      exact exists_step hl hi hc hpc

/-- Two sockets are enough for two clients. -/
def twoPool : Pool := ⟨true, (Hashtable.empty.put 8 true).put 9 true⟩

theorem clients_end_two :
    ∃ as s, (clients 2 .crlf ownNumbers twoPool).run (clients 2 .crlf ownNumbers twoPool).init as
        = some s ∧ (s.clients 1).socketData = ⟨1, 2⟩ ∧ s.pool.socketMap.get 9 = some true := by
  have hinit : init 2 ⟨true, fun i => if i = 2 then some 8 else some 9⟩ Pool.fresh
      = (twoPool, .ok ()) := rfl
  have hends : (clients 2 .crlf ownNumbers twoPool).Ends (fun _ a => Undisturbed a) (78 * 2)
      (Settled 2 ownNumbers twoPool) := clients_end hinit
  obtain ⟨as, s, hrun, -, hsettled⟩ := hends.exists_finish ⟨[], rfl, trivial⟩
  refine ⟨as, s, hrun, ?_, hsettled.available 9 (by decide)⟩
  rcases (hsettled.clients 1 (by decide)).2 with hdata | ⟨-, hscarce⟩
  · exact hdata
  · exact absurd hscarce (by decide)

end TcpIpBIOExchange
end JavaStudy
