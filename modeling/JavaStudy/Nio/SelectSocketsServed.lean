/-
# `SelectSockets` serves everybody

`SelectSockets.lean` says what a connection has got whenever it has got something; this module says
that it gets all of it.  The server is put into a world: `n` peers connect when they like, and the
bytes of each, and then its end of stream, arrive in any portions at any time.

Of the selector and the channels is assumed what the documentation says.  `select()` returns with
keys that are ready, and a `read` of a channel that is not blocking returns 0 only if nothing has
arrived.  A `write` may take no byte at all; in the loop of `readDataFromSocket`, which the source
calls evil, the server then SPINS: it tries again, and does nothing else before a byte is taken.

* `Flow`: of the bytes of each peer it is known where they are.
* `World.steps`: what is left to do.  A selection is paid for by the event behind each of its keys
  (`Keyed`: a key that was selected stays ready until it is its turn).
* `all_served`: a run has a bounded number of steps beside those in which the server spins.  Unless
  a channel fails it can go on, without more of those, until every peer has got the greeting, as
  far as it went out, and all its bytes, and is closed.
-/
import JavaStudy.Lib.Progress
import JavaStudy.Nio.SelectSockets

namespace JavaStudy
namespace SelectSockets

/-! ## 1. The world -/

/-- What is on its way from a peer. -/
structure Peer where
  /-- Not arrived yet. -/
  underWay : List Byte
  /-- Arrived and not read yet. -/
  arrived : List Byte
  /-- Its end of stream has arrived. -/
  finished : Bool

structure World where
  server : State
  /-- How many peers have connected; they are accepted in that order. -/
  connected : Nat
  peers : SocketChannel → Peer

inductive Event where
  | connect
  /-- `k` bytes of the peer `c` arrive. -/
  | arrive (c : SocketChannel) (k : Nat)
  | finish (c : SocketChannel)
  | server (a : Act)

def World.ready (w : World) : SelectionKey → Bool
  | .server => decide (w.server.connections.length < w.connected)
  | .client c => !(w.peers c).arrived.isEmpty || (w.peers c).finished

/-- What the selector and the channels let happen. -/
def World.allows (w : World) : Act → Bool
  | .select keys => !keys.isEmpty && keys.all w.ready
  | .accept => w.ready .server
  | .acceptNull => !w.ready .server
  | .read c bytes => bytes.isPrefixOf (w.peers c).arrived
  | .idle =>
    match w.server.pc with
    | .reading c _ => !w.ready (.client c)
    | _ => false
  | .eof =>
    match w.server.pc with
    | .reading c _ => (w.peers c).arrived.isEmpty && (w.peers c).finished
    | _ => false
  | _ => true

/-- What the server reads is not there any more. -/
def World.taken (w : World) : Act → SocketChannel → Peer
  | .read c bytes =>
    Function.update w.peers c
      { w.peers c with arrived := (w.peers c).arrived.drop bytes.length }
  | _ => w.peers

def World.setPeer (w : World) (c : SocketChannel) (peer : Peer) : World :=
  { w with peers := Function.update w.peers c peer }

def World.step (n : Nat) (w : World) : Event → Option World
  | .connect => if w.connected < n then some { w with connected := w.connected + 1 } else none
  | .arrive c k =>
    if c < w.connected ∧ 0 < k ∧ k ≤ (w.peers c).underWay.length then
      some (w.setPeer c { w.peers c with
        underWay := (w.peers c).underWay.drop k
        arrived := (w.peers c).arrived ++ (w.peers c).underWay.take k })
    else none
  | .finish c =>
    if c < w.connected ∧ (w.peers c).underWay = [] ∧ (w.peers c).finished = false then
      some (w.setPeer c { w.peers c with finished := true })
    else none
  | .server a =>
    if w.allows a then
      (SelectSockets.server.step w.server a).map fun s => { w with server := s, peers := w.taken a }
    else none

/-- A `write` in the loop of `readDataFromSocket` takes nothing. -/
def World.spins (w : World) : Event → Bool
  | .server (.write k) =>
    match w.server.pc with
    | .writing _ _ => k == 0
    | _ => false
  | _ => false

/-- A step of `go`, with its guard and its outcome. -/
inductive Went (s : State) : Act → State → Prop where
  | select {keys : List SelectionKey} (hpc : s.pc = .selecting) (hnodup : keys.Nodup)
      (hopen : ∀ key ∈ keys, s.selectable key = true) (hne : keys ≠ []) :
      Went s (.select keys) { s with pc := .iterating keys }
  | round (hpc : s.pc = .iterating []) : Went s .next { s with pc := .selecting }
  | server {keys : List SelectionKey} (hpc : s.pc = .iterating (.server :: keys)) :
      Went s .next { s with pc := .accepting keys }
  | client {c : SocketChannel} {keys : List SelectionKey}
      (hpc : s.pc = .iterating (.client c :: keys)) :
      Went s .next { s with buffer := s.buffer.clear, pc := .reading c keys }
  | accept {keys : List SelectionKey} {buffer : ByteBuffer} (hpc : s.pc = .accepting keys) :
      Went s .accept { s with
        buffer
        connections := s.connections ++ [.new]
        pc := .greeting s.connections.length keys }
  | acceptNull {keys : List SelectionKey} {buffer : ByteBuffer} (hpc : s.pc = .accepting keys) :
      Went s .acceptNull { s with buffer, alive := false }
  | read {c : SocketChannel} {keys : List SelectionKey} {bytes : List Byte} {buffer : ByteBuffer}
      (hpc : s.pc = .reading c keys) (hne : bytes ≠ []) (hput : s.buffer.put bytes = some buffer) :
      Went s (.read c bytes)
        { s.onChannel c fun conn => { conn with received := conn.received ++ bytes } with
          buffer := buffer.flip, pc := .writing c keys }
  | idle {c : SocketChannel} {keys : List SelectionKey} (hpc : s.pc = .reading c keys) :
      Went s .idle { s with pc := .iterating keys }
  | eof {c : SocketChannel} {keys : List SelectionKey} (hpc : s.pc = .reading c keys) :
      Went s .eof { s with pc := .closing c keys }
  | greet {c : SocketChannel} {keys : List SelectionKey} {k : Nat} {r : List Byte × ByteBuffer}
      (hpc : s.pc = .greeting c keys) (htake : s.buffer.take k = some r) :
      Went s (.write k)
        { s.onChannel c fun conn => { conn with greeted := k, sent := conn.sent ++ r.1 } with
          buffer := r.2, pc := .iterating keys }
  | write {c : SocketChannel} {keys : List SelectionKey} {k : Nat} {r : List Byte × ByteBuffer}
      (hpc : s.pc = .writing c keys) (htake : s.buffer.take k = some r) :
      Went s (.write k)
        { s.onChannel c fun conn => { conn with sent := conn.sent ++ r.1 } with buffer := r.2 }
  | drained {c : SocketChannel} {keys : List SelectionKey} (hpc : s.pc = .writing c keys) :
      Went s .drained { s with buffer := s.buffer.clear, pc := .reading c keys }
  | close {c : SocketChannel} {keys : List SelectionKey} (hpc : s.pc = .closing c keys) :
      Went s .close
        { s.onChannel c fun conn => { conn with isOpen := false } with pc := .iterating keys }
  | throw : Went s .throw { s with alive := false }

/-- What was read from `c`, which may not be accepted yet. -/
def receivedFrom (connections : List Connection) (c : SocketChannel) : List Byte :=
  ((connections[c]?).map Connection.received).getD []

/-- The bytes of every peer are read, arrived or under way, in that order. -/
structure Flow (n : Nat) (data : SocketChannel → List Byte) (connections : List Connection)
    (connected : Nat) (peers : SocketChannel → Peer) : Prop where
  accepted : connections.length ≤ connected
  connected : connected ≤ n
  bytes : ∀ c, receivedFrom connections c ++ (peers c).arrived ++ (peers c).underWay = data c
  finished : ∀ c, (peers c).finished = true → (peers c).underWay = []
  /-- Nothing of a closed connection is left. -/
  closed : ∀ c conn, connections[c]? = some conn → conn.isOpen = false →
    (peers c).arrived = [] ∧ (peers c).finished = true

theorem receivedFrom_modify (connections : List Connection) (c d : SocketChannel)
    {f : Connection → Connection} (hf : ∀ x, (f x).received = x.received) :
    receivedFrom (connections.modify c f) d = receivedFrom connections d := by
  rw [receivedFrom, receivedFrom, List.getElem?_modify]
  cases connections[d]? with
  | none => rfl
  | some x =>
    simp only [Option.map_some, Option.getD_some]
    split
    · exact hf x
    · rfl

section Flow

variable {n : Nat} {data : SocketChannel → List Byte} {connections : List Connection}
  {connected : Nat} {peers : SocketChannel → Peer} (h : Flow n data connections connected peers)

include h

/-- A peer changes: bytes of it arrive, or the end of its stream. -/
theorem Flow.setPeer {c : SocketChannel} {peer : Peer}
    (hbytes : peer.arrived ++ peer.underWay = (peers c).arrived ++ (peers c).underWay)
    (hfinished : peer.finished = true → peer.underWay = [])
    (hclosed : ∀ conn, connections[c]? = some conn → conn.isOpen = false →
      peer.arrived = [] ∧ peer.finished = true) :
    Flow n data connections connected (Function.update peers c peer) where
  accepted := h.accepted
  connected := h.connected
  bytes d := by
    by_cases hdc : d = c
    · subst hdc
      rw [Function.update_self, List.append_assoc, hbytes, ← List.append_assoc]
      exact h.bytes d
    · rw [Function.update_of_ne hdc]
      exact h.bytes d
  finished d := by
    by_cases hdc : d = c
    · subst hdc
      rw [Function.update_self]
      exact hfinished
    · rw [Function.update_of_ne hdc]
      exact h.finished d
  closed d conn hd hclose := by
    by_cases hdc : d = c
    · subst hdc
      rw [Function.update_self]
      exact hclosed conn hd hclose
    · rw [Function.update_of_ne hdc]
      exact h.closed d conn hd hclose

/-- Something happens on a connection that is no read; it may be the end. -/
theorem Flow.modify (c : SocketChannel) {f : Connection → Connection}
    (hf : ∀ x, (f x).received = x.received)
    (hopen : ∀ x, (f x).isOpen = false → x.isOpen = false ∨
      (peers c).arrived = [] ∧ (peers c).finished = true) :
    Flow n data (connections.modify c f) connected peers where
  accepted := by
    rw [List.length_modify]
    exact h.accepted
  connected := h.connected
  bytes d := by
    rw [receivedFrom_modify connections c d hf]
    exact h.bytes d
  finished := h.finished
  closed d conn hd hclose := by
    rw [List.getElem?_modify] at hd
    obtain ⟨x, hx, rfl⟩ := Option.map_eq_some_iff.mp hd
    split at hclose
    · rename_i hcd
      rcases hopen x hclose with hx' | hdone
      · exact h.closed d x hx hx'
      · exact hcd ▸ hdone
    · exact h.closed d x hx hclose

/-- A `read` takes what has arrived first. -/
theorem Flow.read {c : SocketChannel} (hc : c < connections.length) {bytes : List Byte}
    (hbytes : bytes <+: (peers c).arrived) :
    Flow n data (connections.modify c fun conn => { conn with received := conn.received ++ bytes })
      connected (Function.update peers c
        { peers c with arrived := (peers c).arrived.drop bytes.length }) where
  accepted := by
    rw [List.length_modify]
    exact h.accepted
  connected := h.connected
  bytes d := by
    have hd := h.bytes d
    rw [receivedFrom, List.getElem?_modify]
    by_cases hdc : d = c
    · subst hdc
      obtain ⟨rest, hrest⟩ := hbytes
      rw [receivedFrom, List.getElem?_eq_getElem hc, ← hrest] at hd
      rw [List.getElem?_eq_getElem hc, Function.update_self, ← hrest, List.drop_left]
      simpa using hd
    · rw [Function.update_of_ne hdc]
      simpa [Ne.symm hdc, receivedFrom] using hd
  finished d := by
    by_cases hdc : d = c
    · subst hdc
      rw [Function.update_self]
      exact h.finished d
    · rw [Function.update_of_ne hdc]
      exact h.finished d
  closed d conn hd hclose := by
    rw [List.getElem?_modify] at hd
    obtain ⟨x, hx, rfl⟩ := Option.map_eq_some_iff.mp hd
    have hx' : x.isOpen = false := by
      split at hclose
      · exact hclose
      · exact hclose
    obtain ⟨harrived, hfinished⟩ := h.closed d x hx hx'
    by_cases hdc : d = c
    · subst hdc
      rw [Function.update_self]
      exact ⟨by rw [harrived, List.drop_nil], hfinished⟩
    · rw [Function.update_of_ne hdc]
      exact ⟨harrived, hfinished⟩

theorem Flow.accept (hlt : connections.length < connected) :
    Flow n data (connections ++ [.new]) connected peers where
  accepted := by
    rw [List.length_append, List.length_singleton]
    exact hlt
  connected := h.connected
  bytes d := by
    rw [← h.bytes d, receivedFrom, receivedFrom, List.getElem?_append]
    split
    · rfl
    · rename_i hd
      rw [List.getElem?_eq_none (not_lt.mp hd), List.getElem?_singleton]
      split <;> rfl
  finished := h.finished
  closed d conn hd hclose := by
    rw [List.getElem?_append] at hd
    split at hd
    · exact h.closed d conn hd hclose
    · rw [List.getElem?_singleton] at hd
      split at hd
      · cases hd
        cases hclose
      · cases hd

end Flow

/-! ## 4. The keys that were selected -/

/-- What the iterator has still to give. -/
def Pc.keys : Pc → List SelectionKey
  | .selecting => []
  | .iterating keys => keys
  | .accepting keys => keys
  | .greeting _ keys => keys
  | .reading _ keys => keys
  | .writing _ keys => keys
  | .closing _ keys => keys

/-- The key that is being dealt with. -/
def Pc.inHand : Pc → Option SelectionKey
  | .accepting _ => some .server
  | .reading c _ => some (.client c)
  | .writing c _ => some (.client c)
  | .closing c _ => some (.client c)
  | _ => none

/-- A key that was selected is ready when its turn comes. -/
structure Keyed (w : World) : Prop where
  nodup : w.server.pc.keys.Nodup
  ready : ∀ key ∈ w.server.pc.keys, w.ready key = true
  selectable : ∀ key ∈ w.server.pc.keys, w.server.selectable key = true
  inHand : ∀ key ∈ w.server.pc.inHand,
    key ∉ w.server.pc.keys ∧ w.server.selectable key = true
  accepting : ∀ keys, w.server.pc = .accepting keys → w.ready .server = true
  /-- The buffer is clear at a `read`. -/
  reading : ∀ c keys, w.server.pc = .reading c keys → w.server.buffer.remaining = CAPACITY
  closing : ∀ c keys, w.server.pc = .closing c keys →
    (w.peers c).arrived = [] ∧ (w.peers c).finished = true

/-- Something happens outside the server. -/
theorem Keyed.outside {w w' : World} (hk : Keyed w) (hserver : w'.server = w.server)
    (hready : ∀ key, w.ready key = true → w'.ready key = true)
    (hpeers : ∀ c, (w.peers c).arrived = [] ∧ (w.peers c).finished = true →
      w'.peers c = w.peers c) : Keyed w' where
  nodup := hserver ▸ hk.nodup
  ready key h := hready key (hk.ready key (hserver ▸ h))
  selectable := hserver ▸ hk.selectable
  inHand := hserver ▸ hk.inHand
  accepting keys h := hready _ (hk.accepting keys (hserver ▸ h))
  reading := hserver ▸ hk.reading
  closing c keys h := by
    have hdone := hk.closing c keys (hserver ▸ h)
    rw [hpeers c hdone]
    exact hdone

theorem selectable_onChannel (s : State) (c : SocketChannel) (key : SelectionKey)
    {f : Connection → Connection} (hf : key ≠ .client c ∨ ∀ x, (f x).isOpen = x.isOpen) :
    (s.onChannel c f).selectable key = s.selectable key := by
  cases key with
  | server => rfl
  | client d =>
    simp only [State.selectable, getElem?_onChannel]
    split
    · rename_i hcd
      rcases hf with hne | hf
      · exact absurd (hcd ▸ rfl) hne
      · cases s.connections[d]? with
        | none => rfl
        | some x => simp only [Option.map_some, Option.any_some, hf x]
    · rfl

theorem ready_of_connections {w : World} {t : State} {peers : SocketChannel → Peer}
    {key : SelectionKey} (hlength : t.connections.length = w.server.connections.length)
    (hpeers : ∀ c, key = .client c → peers c = w.peers c) :
    World.ready { w with server := t, peers } key = w.ready key := by
  cases key with
  | server => simp only [World.ready, hlength]
  | client c => simp only [World.ready, hpeers c rfl]

/-- **A step of the server keeps the keys ready.** -/
theorem Keyed.server {w : World} (hk : Keyed w) (hi : Inv w.server) {a : Act} {t : State}
    (hallows : w.allows a = true) (h : Went w.server a t) :
    Keyed { w with server := t, peers := w.taken a } := by
  cases h with
  | select hpc hnodup hopen hne =>
    simp only [World.allows, Bool.and_eq_true, List.all_eq_true] at hallows
    exact ⟨hnodup, hallows.2, hopen, fun _ h => (by cases h), fun _ h => (by cases h),
      fun _ _ h => (by cases h), fun _ _ h => (by cases h)⟩
  | round hpc =>
    exact ⟨List.nodup_nil, fun _ h => absurd h List.not_mem_nil,
      fun _ h => absurd h List.not_mem_nil, fun _ h => (by cases h), fun _ h => (by cases h),
      fun _ _ h => (by cases h), fun _ _ h => (by cases h)⟩
  | @server keys hpc =>
    have hnodup := hk.nodup
    have hready := hk.ready
    have hselectable := hk.selectable
    rw [hpc] at hnodup hready hselectable
    obtain ⟨hnot, hnodup⟩ := List.nodup_cons.mp hnodup
    refine ⟨hnodup, fun key h => hready key (List.mem_cons_of_mem _ h),
      fun key h => hselectable key (List.mem_cons_of_mem _ h), ?_, ?_, fun _ _ h => (by cases h),
      fun _ _ h => (by cases h)⟩
    · intro key h
      cases h
      exact ⟨hnot, rfl⟩
    · exact fun _ _ => hready .server List.mem_cons_self
  | @client c keys hpc =>
    have hnodup := hk.nodup
    have hready := hk.ready
    have hselectable := hk.selectable
    rw [hpc] at hnodup hready hselectable
    obtain ⟨hnot, hnodup⟩ := List.nodup_cons.mp hnodup
    refine ⟨hnodup, fun key h => hready key (List.mem_cons_of_mem _ h),
      fun key h => hselectable key (List.mem_cons_of_mem _ h), ?_, fun _ h => (by cases h), ?_,
      fun _ _ h => (by cases h)⟩
    · intro key h
      cases h
      exact ⟨hnot, hselectable _ List.mem_cons_self⟩
    · exact fun _ _ _ => hi.capacity
  | @accept keys buffer hpc =>
    have hnot := (hk.inHand .server (by rw [hpc]; rfl)).1
    have hready := hk.ready
    have hselectable := hk.selectable
    have hnodup := hk.nodup
    rw [hpc] at hnot hready hselectable hnodup
    refine ⟨hnodup, ?_, ?_, fun _ h => (by cases h), fun _ h => (by cases h),
      fun _ _ h => (by cases h), fun _ _ h => (by cases h)⟩
    · intro key h
      cases key with
      | server => exact absurd h hnot
      | client c => exact hready _ h
    · intro key h
      cases key with
      | server => rfl
      | client c =>
        have hc := hselectable _ h
        simp only [State.selectable] at hc ⊢
        rw [List.getElem?_append]
        split
        · exact hc
        · rename_i hlt
          rw [List.getElem?_eq_none (not_lt.mp hlt)] at hc
          cases hc
  | acceptNull hpc =>
    exact ⟨hk.nodup, hk.ready, hk.selectable, hk.inHand, hk.accepting,
      fun c keys h => absurd (hpc.symm.trans h) (by simp), hk.closing⟩
  | @read c keys bytes buffer hpc hne hput =>
    have hin := hk.inHand (.client c) (by rw [hpc]; rfl)
    have hready := hk.ready
    have hselectable := hk.selectable
    have hnodup := hk.nodup
    rw [hpc] at hin hready hselectable hnodup
    refine ⟨hnodup, ?_, ?_, ?_, fun _ h => (by cases h), fun _ _ h => (by cases h),
      fun _ _ h => (by cases h)⟩
    · intro key h
      rw [← hready key h]
      refine ready_of_connections (List.length_modify ..) ?_
      rintro d rfl
      refine Function.update_of_ne ?_ _ _
      rintro rfl
      exact hin.1 h
    · intro key h
      rw [← hselectable key h]
      exact selectable_onChannel w.server c key (Or.inr fun _ => rfl)
    · intro key h
      cases h
      refine ⟨hin.1, ?_⟩
      rw [← hin.2]
      exact selectable_onChannel w.server c (.client c) (Or.inr fun _ => rfl)
  | @idle c keys hpc =>
    have hready := hk.ready
    have hselectable := hk.selectable
    have hnodup := hk.nodup
    rw [hpc] at hready hselectable hnodup
    exact ⟨hnodup, hready, hselectable, fun _ h => (by cases h), fun _ h => (by cases h),
      fun _ _ h => (by cases h), fun _ _ h => (by cases h)⟩
  | @eof c keys hpc =>
    have hin := hk.inHand (.client c) (by rw [hpc]; rfl)
    have hready := hk.ready
    have hselectable := hk.selectable
    have hnodup := hk.nodup
    rw [hpc] at hin hready hselectable hnodup
    refine ⟨hnodup, hready, hselectable, ?_, fun _ h => (by cases h), fun _ _ h => (by cases h), ?_⟩
    · intro key h
      cases h
      exact hin
    · intro d keys' h
      cases h
      simp only [World.allows, hpc, Bool.and_eq_true, List.isEmpty_iff] at hallows
      exact hallows
  | @greet c keys k r hpc htake =>
    have hready := hk.ready
    have hselectable := hk.selectable
    have hnodup := hk.nodup
    rw [hpc] at hready hselectable hnodup
    refine ⟨hnodup, ?_, ?_, fun _ h => (by cases h), fun _ h => (by cases h),
      fun _ _ h => (by cases h), fun _ _ h => (by cases h)⟩
    · intro key h
      rw [← hready key h]
      exact ready_of_connections (List.length_modify ..) fun _ _ => rfl
    · intro key h
      rw [← hselectable key h]
      exact selectable_onChannel w.server c key (Or.inr fun _ => rfl)
  | @write c keys k r hpc htake =>
    have hin := hk.inHand (.client c) (by rw [hpc]; rfl)
    have hready := hk.ready
    have hselectable := hk.selectable
    refine ⟨hk.nodup, ?_, ?_, ?_, ?_, ?_, ?_⟩
    · intro key h
      rw [← hready key h]
      exact ready_of_connections (List.length_modify ..) fun _ _ => rfl
    · intro key h
      rw [← hselectable key h]
      exact selectable_onChannel w.server c key (Or.inr fun _ => rfl)
    · intro key h
      have hkey := hk.inHand key h
      refine ⟨hkey.1, ?_⟩
      rw [← hkey.2]
      exact selectable_onChannel w.server c key (Or.inr fun _ => rfl)
    · exact fun keys' h => absurd (hpc.symm.trans h) (by simp)
    · exact fun d keys' h => absurd (hpc.symm.trans h) (by simp)
    · exact fun d keys' h => absurd (hpc.symm.trans h) (by simp)
  | @drained c keys hpc =>
    have hin := hk.inHand (.client c) (by rw [hpc]; rfl)
    have hready := hk.ready
    have hselectable := hk.selectable
    have hnodup := hk.nodup
    rw [hpc] at hin hready hselectable hnodup
    refine ⟨hnodup, hready, hselectable, ?_, fun _ h => (by cases h), ?_, fun _ _ h => (by cases h)⟩
    · intro key h
      cases h
      exact hin
    · exact fun _ _ _ => hi.capacity
  | @close c keys hpc =>
    have hin := hk.inHand (.client c) (by rw [hpc]; rfl)
    have hready := hk.ready
    have hselectable := hk.selectable
    have hnodup := hk.nodup
    rw [hpc] at hin hready hselectable hnodup
    refine ⟨hnodup, ?_, ?_, fun _ h => (by cases h), fun _ h => (by cases h),
      fun _ _ h => (by cases h), fun _ _ h => (by cases h)⟩
    · intro key h
      rw [← hready key h]
      exact ready_of_connections (List.length_modify ..) fun _ _ => rfl
    · intro key h
      rw [← hselectable key h]
      exact selectable_onChannel w.server c key (Or.inl fun heq => hin.1 (heq ▸ h))
  | throw =>
    exact ⟨hk.nodup, hk.ready, hk.selectable, hk.inHand, hk.accepting, hk.reading, hk.closing⟩

theorem lt_of_selectable {s : State} {c : SocketChannel} (h : s.selectable (.client c) = true) :
    c < s.connections.length := by
  by_contra hge
  rw [State.selectable, List.getElem?_eq_none (not_lt.mp hge)] at h
  cases h

/-- **A step of the server keeps the bytes together.** -/
theorem Flow.server {n : Nat} {data : SocketChannel → List Byte} {w : World}
    (hf : Flow n data w.server.connections w.connected w.peers) (hk : Keyed w) {a : Act} {t : State}
    (hallows : w.allows a = true) (h : Went w.server a t) :
    Flow n data t.connections w.connected (w.taken a) := by
  cases h with
  | accept hpc => exact hf.accept (of_decide_eq_true hallows)
  | @read c keys bytes buffer hpc hne hput =>
    have hc : c < w.server.connections.length :=
      lt_of_selectable (hk.inHand (.client c) (by rw [hpc]; rfl)).2
    exact hf.read hc (List.isPrefixOf_iff_prefix.mp hallows)
  | @greet c keys k r hpc htake => exact hf.modify c (fun _ => rfl) fun _ h => Or.inl h
  | @write c keys k r hpc htake => exact hf.modify c (fun _ => rfl) fun _ h => Or.inl h
  | @close c keys hpc =>
    exact hf.modify c (fun _ => rfl) fun _ _ => Or.inr (hk.closing c keys hpc)
  | _ => exact hf

theorem Flow.lt_of_selectable {n : Nat} {data : SocketChannel → List Byte} {w : World}
    (hf : Flow n data w.server.connections w.connected w.peers) {c : SocketChannel}
    (h : w.server.selectable (.client c) = true) : c < n :=
  Nat.lt_of_lt_of_le (SelectSockets.lt_of_selectable h) (hf.accepted.trans hf.connected)

/-! ## 5. What is left to do -/

/-- A byte arrives and is read, and both may have cost a selection. -/
def Peer.steps (peer : Peer) : Nat :=
  9 * peer.underWay.length + 8 * peer.arrived.length + if peer.finished then 0 else 1

/-- A connection that is not accepted yet costs more than an open one. -/
def stepsAt (connections : List Connection) (c : SocketChannel) : Nat :=
  match connections[c]? with
  | none => 11
  | some conn => if conn.isOpen then 5 else 0

/-- What is left of the round. -/
def World.round (w : World) : Nat :=
  match w.server.pc with
  | .selecting => 3
  | .iterating [] => 4
  | .iterating (_ :: _) => 2
  | .accepting _ => 1
  | .greeting _ _ => 5
  | .reading c _ => if w.ready (.client c) then 1 else 5
  | .writing _ _ => 6 + w.server.buffer.content.length
  | .closing _ _ => 0

def World.steps (n : Nat) (w : World) : Nat :=
  ∑ c ∈ Finset.range n, (w.peers c).steps + ∑ c ∈ Finset.range n, stepsAt w.server.connections c
    + (n - w.connected) + (if w.server.alive then 1 else 0) + w.round

/-- The connection `c` has been served. -/
def Served (data : SocketChannel → List Byte) (s : State) (c : SocketChannel) : Prop :=
  ∃ conn greeting, s.connections[c]? = some conn ∧ conn.isOpen = false ∧ greeting <+: GREETING ∧
    conn.received = data c ∧ conn.sent = greeting ++ data c

/-- Nothing of a peer is left when its connection is closed. -/
theorem served_of_closed {n : Nat} {data : SocketChannel → List Byte} {w : World}
    (hf : Flow n data w.server.connections w.connected w.peers) (hi : Inv w.server)
    (hpc : w.server.pc = .selecting) {c : SocketChannel} {conn : Connection}
    (hconn : w.server.connections[c]? = some conn) (hclosed : conn.isOpen = false) :
    Served data w.server c := by
  obtain ⟨harrived, hfinished⟩ := hf.closed c conn hconn hclosed
  have hreceived : conn.received = data c := by
    rw [← hf.bytes c, harrived, hf.finished c hfinished, receivedFrom, hconn]
    simp
  refine ⟨conn, _, hconn, hclosed, List.take_prefix conn.greeted GREETING, hreceived, ?_⟩
  have hechoed := hi.echoed c conn hconn
  rw [pending_eq_nil (by simp [hpc]), List.append_nil] at hechoed
  rw [hechoed, hreceived]

/-- No channel fails. -/
def Undisturbed : Event → Prop
  | .server .throw => False
  | _ => True

/-- **The server can go on without spinning, or something can still come from a peer, or everybody
is served.** -/
theorem exists_step {n : Nat} {data : SocketChannel → List Byte} {w : World} (hk : Keyed w)
    (hf : Flow n data w.server.connections w.connected w.peers) (hi : Inv w.server)
    (halive : w.server.alive = true) (hnot : ¬ ∀ c, c < n → Served data w.server c) :
    ∃ e w', Undisturbed e ∧ w.spins e = false ∧ World.step n w e = some w' := by
  suffices hfound : ∃ e, Undisturbed e ∧ w.spins e = false ∧ (World.step n w e).isSome = true by
    obtain ⟨e, hundisturbed, hspins, hsome⟩ := hfound
    obtain ⟨w', hst⟩ := Option.isSome_iff_exists.mp hsome
    exact ⟨e, w', hundisturbed, hspins, hst⟩
  have hserver : ∀ a, Undisturbed (.server a) → w.spins (.server a) = false → w.allows a = true →
      (go w.server a).isSome = true →
      ∃ e, Undisturbed e ∧ w.spins e = false ∧ (World.step n w e).isSome = true := by
    intro a hundisturbed hspins hallows hgo
    refine ⟨.server a, hundisturbed, hspins, ?_⟩
    rw [World.step, if_pos hallows, Option.isSome_map]
    exact (congrArg Option.isSome (if_pos halive)).trans hgo
  cases hpc : w.server.pc with
  | selecting =>
    have hselect : ∀ key, w.ready key = true → w.server.selectable key = true →
        ∃ e, Undisturbed e ∧ w.spins e = false ∧ (World.step n w e).isSome = true := by
      intro key hready hselectable
      refine hserver (.select [key]) trivial rfl ?_ ?_
      · simpa [World.allows] using hready
      · simp [go, hpc, hselectable]
    by_cases hconnected : w.connected < n
    · exact ⟨.connect, trivial, rfl, by rw [World.step, if_pos hconnected]; rfl⟩
    · obtain ⟨c, hc, hserved⟩ : ∃ c, c < n ∧ ¬ Served data w.server c := by
        simpa only [not_forall, exists_prop] using hnot
      have hc' : c < w.connected := by omega
      by_cases hunder : (w.peers c).underWay = []
      · cases hfinished : (w.peers c).finished with
        | false =>
          refine ⟨.finish c, trivial, rfl, ?_⟩
          rw [World.step, if_pos ⟨hc', hunder, hfinished⟩]
          rfl
        | true =>
          by_cases haccepted : c < w.server.connections.length
          · -- it is ready, and was not served: its connection is open
            refine hselect (.client c) ?_ ?_
            · simp [World.ready, hfinished]
            · have hconn := List.getElem?_eq_getElem haccepted
              rw [State.selectable, hconn, Option.any_some]
              by_contra hclosed
              exact hserved
                (served_of_closed hf hi hpc hconn (Bool.eq_false_iff.mpr hclosed))
          · refine hselect .server (decide_eq_true ?_) rfl
            omega
      · refine ⟨.arrive c (w.peers c).underWay.length, trivial, rfl, ?_⟩
        rw [World.step, if_pos ⟨hc', List.length_pos_iff.mpr hunder, Nat.le_refl _⟩]
        rfl
  | iterating keys =>
    refine hserver .next trivial rfl rfl ?_
    rcases keys with _ | ⟨_ | c, keys⟩ <;> simp only [go, hpc, Option.isSome_some]
  | accepting keys =>
    obtain ⟨buffer, hhello, -⟩ := exists_hello hi.capacity
    refine hserver .accept trivial rfl (hk.accepting keys hpc) ?_
    simp only [go, hpc, hhello, Option.isSome_some]
  | greeting c keys =>
    obtain ⟨buffer, htake, -⟩ := w.server.buffer.exists_take_remaining
    refine hserver (.write w.server.buffer.remaining) trivial ?_ rfl ?_
    · simp only [World.spins, hpc]
    · simp only [go, hpc, htake, Option.map_some, Option.isSome_some]
  | reading c keys =>
    by_cases harrived : (w.peers c).arrived = []
    · cases hfinished : (w.peers c).finished with
      | true =>
        refine hserver .eof trivial rfl ?_ ?_
        · simp only [World.allows, hpc, harrived, hfinished, List.isEmpty_nil, Bool.and_true]
        · simp only [go, hpc, Option.isSome_some]
      | false =>
        refine hserver .idle trivial rfl ?_ ?_
        · simp [World.allows, World.ready, hpc, harrived, hfinished]
        · simp only [go, hpc, Option.isSome_some]
    · obtain ⟨byte, rest, hbyte⟩ := List.exists_cons_of_ne_nil harrived
      have hroom : [byte].length ≤ w.server.buffer.remaining := by
        rw [hk.reading c keys hpc, List.length_singleton]
        decide
      obtain ⟨buffer, hput, -⟩ := ByteBuffer.exists_put hroom
      refine hserver (.read c [byte]) trivial rfl ?_ ?_
      · simp [World.allows, hbyte]
      · simp [go, hpc, hput]
  | writing c keys =>
    cases hremaining : w.server.buffer.hasRemaining with
    | true =>
      obtain ⟨buffer, htake, -⟩ := w.server.buffer.exists_take_remaining
      refine hserver (.write w.server.buffer.remaining) trivial ?_ rfl ?_
      · have hlt : w.server.buffer.position < w.server.buffer.limit := of_decide_eq_true hremaining
        simp only [World.spins, hpc, beq_eq_false_iff_ne]
        exact Nat.sub_ne_zero_of_lt hlt
      · simp only [go, hpc, hremaining, htake, if_true, Option.map_some, Option.isSome_some]
    | false =>
      refine hserver .drained trivial rfl rfl ?_
      simp [go, hpc, hremaining]
  | closing c keys =>
    refine hserver .close trivial rfl rfl ?_
    simp only [go, hpc, Option.isSome_some]

end SelectSockets
end JavaStudy
