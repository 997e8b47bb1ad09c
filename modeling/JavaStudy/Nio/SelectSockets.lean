/-
# `SelectSockets`: one buffer for every connection

The selection loop serves its connections one after the other with one `ByteBuffer` of 1024 bytes.
`readDataFromSocket` clears it, and in rounds reads into it, flips it, writes it out in as many
writes as it takes, and clears it; `sayHello` clears it, puts the greeting, flips it, and writes
ONCE, however much of the greeting that write takes.

Connections are numbered in the order of `accept`.  A label says which keys are ready, which bytes
a read transfers (`idle` for 0, `eof` for -1) and how many bytes a write takes.  Any channel
operation may throw, and `go` catches nothing.

* `Inv`: what was sent to a connection, followed by what the buffer still holds FOR IT, is the
  greeting as far as it went out, followed by what was received from it.  The buffer holds bytes
  for the connection being written to and for no other.
* `Same`: the states of two runs in which only the bytes of other connections differ.  Each step
  keeps them alike (`go_same`), so what the others send has no influence on what a connection gets.
-/
import JavaStudy.Lib.Machine
import JavaStudy.Lib.ByteBuffer

namespace JavaStudy
namespace SelectSockets

/-! ## 1. The loop -/

/-- `ByteBuffer.allocateDirect(1024)`. -/
def CAPACITY : Nat := 1024

/-- `"Hi there!\r\n".getBytes()`. -/
def GREETING : List Byte :=
  [0x48, 0x69, 0x20, 0x74, 0x68, 0x65, 0x72, 0x65, 0x21, 0x0D, 0x0A]

abbrev SocketChannel := Nat

/-- What the server knows of a connection, and what has passed over it. -/
structure Connection where
  isOpen : Bool
  /-- How many bytes of the greeting its write has taken. -/
  greeted : Nat
  /-- Everything that was read from it. -/
  received : List Byte
  /-- Everything that was written to it. -/
  sent : List Byte
  deriving DecidableEq

/-- A connection as `accept` returns it. -/
def Connection.new : Connection := ⟨true, 0, [], []⟩

/-- A key of the selector: the one of the listening channel, or of a connection. -/
inductive SelectionKey where
  | server
  | client (channel : SocketChannel)
  deriving DecidableEq

/-- Where `go` stands; `keys` is what the iterator has still to give. -/
inductive Pc where
  /-- Before `selector.select()`. -/
  | selecting
  /-- At `it.hasNext()`. -/
  | iterating (keys : List SelectionKey)
  /-- Before `server.accept()`. -/
  | accepting (keys : List SelectionKey)
  /-- In `sayHello`, before its `write`. -/
  | greeting (channel : SocketChannel) (keys : List SelectionKey)
  /-- In `readDataFromSocket`, before `read`. -/
  | reading (channel : SocketChannel) (keys : List SelectionKey)
  /-- In `readDataFromSocket`, at `hasRemaining`. -/
  | writing (channel : SocketChannel) (keys : List SelectionKey)
  /-- In `readDataFromSocket`, before `close`. -/
  | closing (channel : SocketChannel) (keys : List SelectionKey)
  deriving DecidableEq

structure State where
  buffer : ByteBuffer
  connections : List Connection
  pc : Pc
  /-- `go` has not been left by an exception. -/
  alive : Bool

inductive Act where
  /-- `select()` returns, with these keys ready. -/
  | select (keys : List SelectionKey)
  /-- The next key of the iterator, or its end. -/
  | next
  | accept
  /-- `accept()` returns `null`. -/
  | acceptNull
  | read (channel : SocketChannel) (bytes : List Byte)
  /-- `read` returns 0. -/
  | idle
  /-- `read` returns -1. -/
  | eof
  /-- A `write` takes `n` bytes. -/
  | write (n : Nat)
  /-- `hasRemaining` is false. -/
  | drained
  | close
  | throw
  deriving DecidableEq

/-- A key can be selected: its channel is registered and open. -/
def State.selectable (s : State) : SelectionKey → Bool
  | .server => true
  | .client channel => (s.connections[channel]?).any (·.isOpen)

/-- Something happens on that connection. -/
def State.onChannel (s : State) (channel : SocketChannel) (f : Connection → Connection) : State :=
  { s with connections := s.connections.modify channel f }

/-- The beginning of `sayHello`: `clear`, `put`, `flip`; none if the buffer overflows. -/
def hello (buffer : ByteBuffer) : Option ByteBuffer :=
  (buffer.clear.put GREETING).map ByteBuffer.flip

/-- `go`, as long as no exception has left it. -/
def go (s : State) : Act → Option State
  | .select keys =>
    if s.pc = .selecting ∧ keys.Nodup ∧ keys.all s.selectable then
      some { s with pc := if keys = [] then .selecting else .iterating keys }
    else none
  | .next =>
    match s.pc with
    | .iterating [] => some { s with pc := .selecting }
    | .iterating (.server :: keys) => some { s with pc := .accepting keys }
    | .iterating (.client channel :: keys) =>
      some { s with buffer := s.buffer.clear, pc := .reading channel keys }
    | _ => none
  | .accept =>
    match s.pc with
    | .accepting keys =>
      match hello s.buffer with
      | some buffer =>
        some
          { s with
            buffer
            connections := s.connections ++ [.new]
            pc := .greeting s.connections.length keys }
      | none => some { s with connections := s.connections ++ [.new], alive := false }
    | _ => none
  | .acceptNull =>
    match s.pc with
    -- `registerChannel` lets `null` pass, `sayHello` does not
    | .accepting _ => some { s with buffer := (hello s.buffer).getD s.buffer, alive := false }
    | _ => none
  | .read channel bytes =>
    match s.pc with
    | .reading c keys =>
      if channel = c ∧ bytes ≠ [] then
        (s.buffer.put bytes).map fun buffer =>
          { s.onChannel c fun conn => { conn with received := conn.received ++ bytes } with
            buffer := buffer.flip, pc := .writing c keys }
      else none
    | _ => none
  | .idle =>
    match s.pc with
    | .reading _ keys => some { s with pc := .iterating keys }
    | _ => none
  | .eof =>
    match s.pc with
    | .reading c keys => some { s with pc := .closing c keys }
    | _ => none
  | .write n =>
    match s.pc with
    | .greeting c keys =>
      (s.buffer.take n).map fun r =>
        { s.onChannel c fun conn => { conn with greeted := n, sent := conn.sent ++ r.1 } with
          buffer := r.2, pc := .iterating keys }
    | .writing c _ =>
      if s.buffer.hasRemaining then
        (s.buffer.take n).map fun r =>
          { s.onChannel c fun conn => { conn with sent := conn.sent ++ r.1 } with buffer := r.2 }
      else none
    | _ => none
  | .drained =>
    match s.pc with
    | .writing c keys =>
      if s.buffer.hasRemaining then none
      else some { s with buffer := s.buffer.clear, pc := .reading c keys }
    | _ => none
  | .close =>
    match s.pc with
    | .closing c keys =>
      some { s.onChannel c fun conn => { conn with isOpen := false } with pc := .iterating keys }
    | _ => none
  | .throw => some { s with alive := false }

/-- The server. -/
def server : Machine State Act where
  init := ⟨.allocate CAPACITY, [], .selecting, true⟩
  step s a := if s.alive then go s a else none

/-! ## 2. The invariant -/

/-- What the buffer holds for a connection: bytes that were read from it and not written yet. -/
def State.pending (s : State) (channel : SocketChannel) : List Byte :=
  match s.pc with
  | .writing c _ => if c = channel then s.buffer.content else []
  | _ => []

structure Inv (s : State) : Prop where
  capacity : s.buffer.capacity = CAPACITY
  echoed : ∀ c conn, s.connections[c]? = some conn →
    conn.sent ++ s.pending c = GREETING.take conn.greeted ++ conn.received
  greeting : ∀ c keys, s.pc = .greeting c keys →
    s.buffer.content = GREETING ∧ s.connections[c]? = some .new
  reading : ∀ c keys, s.pc = .reading c keys → s.buffer.position = 0

theorem inv_init : Inv server.init where
  capacity := ByteBuffer.capacity_allocate CAPACITY
  echoed c conn h := absurd h (by simp [server])
  greeting c keys h := absurd h (by simp [server])
  reading c keys h := absurd h (by simp [server])

/-- Nothing is pending outside `readDataFromSocket`. -/
theorem pending_eq_nil {s : State} (h : ∀ c keys, s.pc ≠ .writing c keys)
    (channel : SocketChannel) : s.pending channel = [] := by
  unfold State.pending
  split
  · rename_i c keys hpc
    exact absurd hpc (h c keys)
  · rfl

/-- The loop goes on with another buffer at a place where the buffer's bytes are of no account. -/
theorem Inv.move {s : State} (hi : Inv s) {buffer : ByteBuffer} {pc : Pc} {alive : Bool}
    (hcapacity : buffer.capacity = CAPACITY) (hnone : ∀ c, s.pending c = [])
    (hwriting : ∀ c keys, pc ≠ .writing c keys) (hgreeting : ∀ c keys, pc ≠ .greeting c keys)
    (hreading : ∀ c keys, pc = .reading c keys → buffer.position = 0) :
    Inv { s with buffer, pc, alive } where
  capacity := hcapacity
  echoed c conn hc := by
    rw [pending_eq_nil hwriting, ← hi.echoed c conn hc, hnone]
  greeting c keys hpc := absurd hpc (hgreeting c keys)
  reading c keys hpc := hreading c keys hpc

/-- The greeting fits. -/
theorem exists_hello {buffer : ByteBuffer} (h : buffer.capacity = CAPACITY) :
    ∃ b, hello buffer = some b ∧ b.capacity = CAPACITY ∧ b.content = GREETING := by
  have hroom : GREETING.length ≤ buffer.clear.remaining := by
    change GREETING.length ≤ buffer.capacity - 0
    rw [h]
    decide
  obtain ⟨b, hput, hcapacity⟩ := ByteBuffer.exists_put hroom
  refine ⟨b.flip, ?_, hcapacity.trans h, ByteBuffer.content_flip_put rfl hput⟩
  rw [hello, hput]
  rfl

theorem getElem?_onChannel (s : State) (c d : SocketChannel) (f : Connection → Connection) :
    (s.onChannel c f).connections[d]? =
      if c = d then (s.connections[d]?).map f else s.connections[d]? := by
  rw [State.onChannel, List.getElem?_modify]
  by_cases hcd : c = d
  · rw [if_pos hcd]
    simp [hcd]
  · rw [if_neg hcd]
    simp [hcd]

/-! ## 3. Every step -/

/-- A `read` moves bytes of the connection into the buffer. -/
theorem Inv.read {s : State} (hi : Inv s) {c : SocketChannel} {keys : List SelectionKey}
    {bytes : List Byte} {buffer : ByteBuffer} (hpc : s.pc = .reading c keys)
    (hput : s.buffer.put bytes = some buffer) :
    Inv { s.onChannel c fun conn => { conn with received := conn.received ++ bytes } with
      buffer := buffer.flip, pc := .writing c keys } where
  capacity := (ByteBuffer.capacity_put hput).trans hi.capacity
  echoed d conn hd := by
    have hnone : s.pending d = [] := pending_eq_nil (by simp [hpc]) d
    have hcontent : buffer.flip.content = bytes :=
      ByteBuffer.content_flip_put (hi.reading c keys hpc) hput
    simp only [getElem?_onChannel] at hd
    simp only [State.pending, hcontent]
    split at hd
    · rename_i hcd
      obtain ⟨before, hbefore, rfl⟩ := Option.map_eq_some_iff.mp hd
      have hechoed := hi.echoed d before hbefore
      rw [hnone, List.append_nil] at hechoed
      rw [if_pos hcd, hechoed, List.append_assoc]
    · rename_i hcd
      rw [if_neg hcd, ← hi.echoed d conn hd, hnone]
  greeting d keys h := absurd h (by simp)
  reading d keys h := absurd h (by simp)

/-- A `write` of `readDataFromSocket` moves bytes out of the buffer to the same connection. -/
theorem Inv.write {s : State} (hi : Inv s) {c : SocketChannel} {keys : List SelectionKey} {n : Nat}
    {bytes : List Byte} {buffer : ByteBuffer} (hpc : s.pc = .writing c keys)
    (htake : s.buffer.take n = some (bytes, buffer)) :
    Inv { s.onChannel c fun conn => { conn with sent := conn.sent ++ bytes } with buffer } where
  capacity := (ByteBuffer.take_eq_some htake).2.2.trans hi.capacity
  echoed d conn hd := by
    have hechoed := hi.echoed d
    simp only [getElem?_onChannel] at hd
    simp only [State.pending, State.onChannel, hpc] at hechoed ⊢
    split at hd
    · rename_i hcd
      obtain ⟨before, hbefore, rfl⟩ := Option.map_eq_some_iff.mp hd
      have hbefore := hechoed before hbefore
      rw [if_pos hcd] at hbefore ⊢
      rw [← hbefore, List.append_assoc, ByteBuffer.content_take htake]
    · rename_i hcd
      have hbefore := hechoed conn hd
      rw [if_neg hcd] at hbefore ⊢
      exact hbefore
  greeting d keys h := absurd h (by simp [State.onChannel, hpc])
  reading d keys h := absurd h (by simp [State.onChannel, hpc])

/-- The one `write` of `sayHello` takes a beginning of the greeting. -/
theorem Inv.greet {s : State} (hi : Inv s) {c : SocketChannel} {keys : List SelectionKey} {n : Nat}
    {bytes : List Byte} {buffer : ByteBuffer} (hpc : s.pc = .greeting c keys)
    (htake : s.buffer.take n = some (bytes, buffer)) :
    Inv { s.onChannel c fun conn => { conn with greeted := n, sent := conn.sent ++ bytes } with
      buffer, pc := .iterating keys } where
  capacity := (ByteBuffer.take_eq_some htake).2.2.trans hi.capacity
  echoed d conn hd := by
    obtain ⟨hcontent, hnew⟩ := hi.greeting c keys hpc
    have hbytes : bytes = GREETING.take n := by
      rw [(ByteBuffer.take_eq_some htake).1, hcontent]
    have hnone : s.pending d = [] := pending_eq_nil (by simp [hpc]) d
    simp only [getElem?_onChannel] at hd
    rw [pending_eq_nil (by simp)]
    split at hd
    · rename_i hcd
      subst hcd
      rw [hnew] at hd
      cases hd
      simp [Connection.new, hbytes]
    · rw [← hi.echoed d conn hd, hnone]
  greeting d keys h := absurd h (by simp)
  reading d keys h := absurd h (by simp)

/-- A connection that is accepted stands behind the others. -/
theorem Inv.accept {s : State} (hi : Inv s) {keys : List SelectionKey}
    (hpc : s.pc = .accepting keys) {buffer : ByteBuffer} (hcapacity : buffer.capacity = CAPACITY)
    (hcontent : buffer.content = GREETING) :
    Inv { s with
      buffer
      connections := s.connections ++ [.new]
      pc := .greeting s.connections.length keys } where
  capacity := hcapacity
  echoed d conn hd := by
    rw [pending_eq_nil (by simp)]
    simp only [List.getElem?_append] at hd
    split at hd
    · rw [← hi.echoed d conn hd, pending_eq_nil (by simp [hpc])]
    · rw [List.getElem?_singleton] at hd
      split at hd
      · cases hd
        rfl
      · exact absurd hd (by simp)
  greeting d keys h := by
    cases h
    exact ⟨hcontent, by simp⟩
  reading d keys h := absurd h (by simp)

theorem Inv.closed {s : State} (hi : Inv s) {c : SocketChannel} {keys : List SelectionKey}
    (hpc : s.pc = .closing c keys) :
    Inv { s.onChannel c fun conn => { conn with isOpen := false } with
      pc := .iterating keys } where
  capacity := hi.capacity
  echoed d conn hd := by
    have hnone : s.pending d = [] := pending_eq_nil (by simp [hpc]) d
    simp only [getElem?_onChannel] at hd
    rw [pending_eq_nil (by simp), ← hnone]
    split at hd
    · obtain ⟨before, hbefore, rfl⟩ := Option.map_eq_some_iff.mp hd
      exact hi.echoed d before hbefore
    · exact hi.echoed d conn hd
  greeting d keys h := absurd h (by simp)
  reading d keys h := absurd h (by simp)

theorem go_inv {s t : State} {a : Act} (hi : Inv s) (h : go s a = some t) : Inv t := by
  cases a with
  | select keys =>
    simp only [go, Option.ite_none_right_eq_some, Option.some.injEq] at h
    obtain ⟨⟨hpc, -⟩, rfl⟩ := h
    refine hi.move hi.capacity (pending_eq_nil (by simp [hpc])) ?_ ?_ ?_
    all_goals
      intro c keys
      split <;> simp
  | next =>
    simp only [go] at h
    split at h
    · rename_i hpc
      cases h
      exact hi.move hi.capacity (pending_eq_nil (by simp [hpc])) (by simp) (by simp) (by simp)
    · rename_i hpc
      cases h
      exact hi.move hi.capacity (pending_eq_nil (by simp [hpc])) (by simp) (by simp) (by simp)
    · rename_i hpc
      cases h
      have hnone : ∀ c, s.pending c = [] := pending_eq_nil (by simp [hpc])
      exact hi.move hi.capacity hnone (by simp) (by simp) fun _ _ _ => rfl
    · exact absurd h (by simp)
  | accept =>
    simp only [go] at h
    split at h
    · rename_i keys hpc
      obtain ⟨buffer, hhello, hcapacity, hcontent⟩ := exists_hello hi.capacity
      rw [hhello] at h
      cases h
      exact hi.accept hpc hcapacity hcontent
    · exact absurd h (by simp)
  | acceptNull =>
    simp only [go] at h
    split at h
    · rename_i keys hpc
      obtain ⟨buffer, hhello, hcapacity, -⟩ := exists_hello hi.capacity
      rw [hhello] at h
      cases h
      refine hi.move hcapacity (pending_eq_nil (by simp [hpc])) ?_ ?_ ?_
      all_goals simp [hpc]
    · exact absurd h (by simp)
  | read channel bytes =>
    simp only [go] at h
    split at h
    · rename_i c keys hpc
      rw [Option.ite_none_right_eq_some] at h
      obtain ⟨buffer, hput, rfl⟩ := Option.map_eq_some_iff.mp h.2
      exact hi.read hpc hput
    · exact absurd h (by simp)
  | idle =>
    simp only [go] at h
    split at h
    · rename_i hpc
      cases h
      exact hi.move hi.capacity (pending_eq_nil (by simp [hpc])) (by simp) (by simp) (by simp)
    · exact absurd h (by simp)
  | eof =>
    simp only [go] at h
    split at h
    · rename_i hpc
      cases h
      exact hi.move hi.capacity (pending_eq_nil (by simp [hpc])) (by simp) (by simp) (by simp)
    · exact absurd h (by simp)
  | write n =>
    simp only [go] at h
    split at h
    · rename_i c keys hpc
      obtain ⟨⟨bytes, buffer⟩, htake, rfl⟩ := Option.map_eq_some_iff.mp h
      exact hi.greet hpc htake
    · rename_i c keys hpc
      rw [Option.ite_none_right_eq_some] at h
      obtain ⟨⟨bytes, buffer⟩, htake, rfl⟩ := Option.map_eq_some_iff.mp h.2
      exact hi.write hpc htake
    · exact absurd h (by simp)
  | drained =>
    simp only [go] at h
    split at h
    · rename_i c keys hpc
      rw [Option.ite_none_left_eq_some, Option.some.injEq] at h
      obtain ⟨hnone, rfl⟩ := h
      have hempty : s.buffer.content = [] :=
        ByteBuffer.hasRemaining_eq_false_iff.mp (Bool.eq_false_iff.mpr hnone)
      refine hi.move hi.capacity ?_ (by simp) (by simp) fun _ _ _ => rfl
      intro d
      simp only [State.pending, hpc, hempty, ite_self]
    · exact absurd h (by simp)
  | close =>
    simp only [go] at h
    split at h
    · rename_i c keys hpc
      cases h
      exact hi.closed hpc
    · exact absurd h (by simp)
  | throw =>
    cases h
    exact ⟨hi.capacity, hi.echoed, hi.greeting, hi.reading⟩

theorem reachable_inv {s : State} (h : server.Reachable s) : Inv s := by
  refine h.induct inv_init ?_
  intro s a t _ hi hst
  simp only [server, Option.ite_none_right_eq_some] at hst
  exact go_inv hi hst.2

/-! ## 4. Two runs

The same schedule with other bytes from the other connections. -/

/-- The same step, but for the bytes that a connection other than `channel` sent. -/
def Act.Agree (channel : SocketChannel) : Act → Act → Prop
  | .read c bytes, .read c' bytes' =>
    c' = c ∧ bytes'.length = bytes.length ∧ (c = channel → bytes' = bytes)
  | a, b => b = a

/-- What may be told of a connection: of the own one what it has sent, of every one how much it
has got. -/
def Connection.view (own : Bool) (conn : Connection) : Bool × Nat × Nat × List Byte :=
  (conn.isOpen, conn.greeted, conn.sent.length, if own then conn.received else [])

/-- What `channel` may be told of the connection `c`. -/
def State.view (s : State) (channel c : SocketChannel) : Option (Bool × Nat × Nat × List Byte) :=
  (s.connections[c]?).map fun conn => conn.view (c = channel)

/-- Two states that `channel` cannot tell apart. -/
structure Same (channel : SocketChannel) (s t : State) : Prop where
  pc : t.pc = s.pc
  alive : t.alive = s.alive
  buffer : ByteBuffer.Alike s.buffer t.buffer
  length : t.connections.length = s.connections.length
  views : ∀ c, t.view channel c = s.view channel c

theorem Same.selectable {channel : SocketChannel} {s t : State} (h : Same channel s t)
    (key : SelectionKey) : t.selectable key = s.selectable key := by
  cases key with
  | server => rfl
  | client c =>
    have hview := h.views c
    simp only [State.selectable]
    unfold State.view at hview
    cases hs : s.connections[c]? with
    | none =>
      rw [hs, Option.map_none, Option.map_eq_none_iff] at hview
      rw [hview]
    | some conn =>
      rw [hs, Option.map_some, Option.map_eq_some_iff] at hview
      obtain ⟨conn', hconn', hview⟩ := hview
      rw [hconn']
      exact congrArg Prod.fst hview

/-- The loop goes on at the same place with alike buffers. -/
theorem Same.move {channel : SocketChannel} {s t : State} (h : Same channel s t)
    {buffer buffer' : ByteBuffer} (hbuffer : ByteBuffer.Alike buffer buffer') (pc : Pc) :
    Same channel { s with buffer, pc } { t with buffer := buffer', pc } :=
  ⟨rfl, h.alive, hbuffer, h.length, h.views⟩

/-- A connection more. -/
theorem Same.accept {channel : SocketChannel} {s t : State} (h : Same channel s t)
    (conn : Connection) :
    Same channel { s with connections := s.connections ++ [conn] }
      { t with connections := t.connections ++ [conn] } where
  pc := h.pc
  alive := h.alive
  buffer := h.buffer
  length := by
    rw [List.length_append, List.length_append, h.length]
  views c := by
    have hview := h.views c
    unfold State.view at hview ⊢
    simp only [List.getElem?_append, h.length]
    split
    · exact hview
    · rfl

theorem Same.onChannel {channel : SocketChannel} {s t : State} (h : Same channel s t)
    (c : SocketChannel) {f f' : Connection → Connection}
    (hf : ∀ x y, y.view (c = channel) = x.view (c = channel) →
      (f' y).view (c = channel) = (f x).view (c = channel)) :
    Same channel (s.onChannel c f) (t.onChannel c f') where
  pc := h.pc
  alive := h.alive
  buffer := h.buffer
  length := by
    simp only [State.onChannel, List.length_modify]
    exact h.length
  views d := by
    have hview := h.views d
    unfold State.view at hview ⊢
    rw [getElem?_onChannel, getElem?_onChannel]
    by_cases hcd : c = d
    · subst hcd
      rw [if_pos rfl, if_pos rfl]
      cases hs : s.connections[c]? with
      | none =>
        rw [hs, Option.map_none, Option.map_eq_none_iff] at hview
        rw [hview]
        rfl
      | some x =>
        rw [hs, Option.map_some, Option.map_eq_some_iff] at hview
        obtain ⟨y, hy, hview⟩ := hview
        rw [hy]
        exact congrArg some (hf x y hview)
    · rw [if_neg hcd, if_neg hcd]
      exact hview

/-- `sayHello` leaves alike buffers. -/
theorem exists_hello_alike {buffer buffer' b : ByteBuffer} (h : ByteBuffer.Alike buffer buffer')
    (hhello : hello buffer = some b) :
    ∃ b', hello buffer' = some b' ∧ ByteBuffer.Alike b b' := by
  obtain ⟨filled, hput, rfl⟩ := Option.map_eq_some_iff.mp hhello
  obtain ⟨filled', hput', halike⟩ := h.clear.put rfl hput
  exact ⟨filled'.flip, by rw [hello, hput']; rfl, halike.flip⟩

theorem view_received {own : Bool} {x y : Connection} {bytes bytes' : List Byte}
    (h : y.view own = x.view own) (hown : own = true → bytes' = bytes) :
    Connection.view own { y with received := y.received ++ bytes' } =
      Connection.view own { x with received := x.received ++ bytes } := by
  cases own with
  | false => exact h
  | true =>
    simp only [Connection.view, if_pos, Prod.mk.injEq] at h ⊢
    obtain ⟨hopen, hgreeted, hsent, hreceived⟩ := h
    exact ⟨hopen, hgreeted, hsent, by rw [hreceived, hown rfl]⟩

theorem view_sent {own : Bool} {x y : Connection} {bytes bytes' : List Byte}
    (h : y.view own = x.view own) (hlength : bytes'.length = bytes.length) :
    Connection.view own { y with sent := y.sent ++ bytes' } =
      Connection.view own { x with sent := x.sent ++ bytes } := by
  simp only [Connection.view, Prod.mk.injEq, List.length_append, hlength] at h ⊢
  obtain ⟨hopen, hgreeted, hsent, hreceived⟩ := h
  exact ⟨hopen, hgreeted, by rw [hsent], hreceived⟩

theorem view_greeted {own : Bool} {x y : Connection} (n : Nat) (h : y.view own = x.view own) :
    Connection.view own { y with greeted := n } = Connection.view own { x with greeted := n } := by
  simp only [Connection.view, Prod.mk.injEq] at h ⊢
  exact ⟨h.1, trivial, h.2.2⟩

theorem view_closed {own : Bool} {x y : Connection} (h : y.view own = x.view own) :
    Connection.view own { y with isOpen := false } =
      Connection.view own { x with isOpen := false } := by
  simp only [Connection.view, Prod.mk.injEq] at h ⊢
  exact ⟨trivial, h.2⟩

/-- **One step of two runs.** -/
theorem go_same {channel : SocketChannel} {s s' t : State} {a b : Act} (hi : Inv s)
    (h : Same channel s t) (hab : Act.Agree channel a b) (hst : go s a = some s') :
    ∃ t', go t b = some t' ∧ Same channel s' t' := by
  cases a with
  | select keys =>
    cases hab
    simp only [go, Option.ite_none_right_eq_some, Option.some.injEq] at hst ⊢
    obtain ⟨⟨hpc, hnodup, hall⟩, rfl⟩ := hst
    have hall' : keys.all t.selectable = true := by
      rw [← hall]
      exact congrArg (List.all keys) (funext h.selectable)
    exact ⟨_, ⟨⟨h.pc.trans hpc, hnodup, hall'⟩, rfl⟩,
      rfl, h.alive, h.buffer, h.length, h.views⟩
  | next =>
    cases hab
    simp only [go] at hst ⊢
    rw [h.pc]
    split at hst
    · cases hst
      exact ⟨_, rfl, rfl, h.alive, h.buffer, h.length, h.views⟩
    · cases hst
      exact ⟨_, rfl, rfl, h.alive, h.buffer, h.length, h.views⟩
    · cases hst
      exact ⟨_, rfl, rfl, h.alive, h.buffer.clear, h.length, h.views⟩
    · exact absurd hst (by simp)
  | accept =>
    cases hab
    simp only [go] at hst ⊢
    rw [h.pc]
    split at hst
    · rename_i keys hpc
      obtain ⟨buffer, hhello, -⟩ := exists_hello hi.capacity
      obtain ⟨buffer', hhello', halike⟩ := exists_hello_alike h.buffer hhello
      rw [hhello] at hst
      rw [hhello', h.length]
      cases hst
      exact ⟨_, rfl, (h.accept .new).move halike _⟩
    · exact absurd hst (by simp)
  | acceptNull =>
    cases hab
    simp only [go] at hst ⊢
    rw [h.pc]
    split at hst
    · obtain ⟨buffer, hhello, -⟩ := exists_hello hi.capacity
      obtain ⟨buffer', hhello', halike⟩ := exists_hello_alike h.buffer hhello
      rw [hhello] at hst
      rw [hhello']
      cases hst
      exact ⟨_, rfl, rfl, rfl, halike, h.length, h.views⟩
    · exact absurd hst (by simp)
  | read c bytes =>
    cases b with
    | read c' bytes' =>
      obtain ⟨rfl, hlength, hown⟩ := hab
      simp only [go] at hst ⊢
      rw [h.pc]
      split at hst
      · rename_i c keys hpc
        rw [Option.ite_none_right_eq_some] at hst
        obtain ⟨⟨rfl, hne⟩, hst⟩ := hst
        obtain ⟨buffer, hput, rfl⟩ := Option.map_eq_some_iff.mp hst
        obtain ⟨buffer', hput', halike⟩ := h.buffer.put hlength hput
        have hne' : bytes' ≠ [] := by
          rintro rfl
          exact hne (List.length_eq_zero_iff.mp hlength.symm)
        rw [hput', if_pos ⟨rfl, hne'⟩]
        refine ⟨_, rfl, Same.move (h.onChannel c' ?_) halike.flip _⟩
        intro x y hview
        refine view_received hview ?_
        intro hc
        exact hown (of_decide_eq_true hc)
      · exact absurd hst (by simp)
    | _ => exact absurd hab (by simp [Act.Agree])
  | idle =>
    cases hab
    simp only [go] at hst ⊢
    rw [h.pc]
    split at hst
    · cases hst
      exact ⟨_, rfl, rfl, h.alive, h.buffer, h.length, h.views⟩
    · exact absurd hst (by simp)
  | eof =>
    cases hab
    simp only [go] at hst ⊢
    rw [h.pc]
    split at hst
    · cases hst
      exact ⟨_, rfl, rfl, h.alive, h.buffer, h.length, h.views⟩
    · exact absurd hst (by simp)
  | write n =>
    cases hab
    simp only [go] at hst ⊢
    rw [h.pc]
    split at hst
    · rename_i c keys hpc
      obtain ⟨⟨bytes, buffer⟩, htake, rfl⟩ := Option.map_eq_some_iff.mp hst
      obtain ⟨bytes', buffer', htake', hlength, halike⟩ := h.buffer.take htake
      rw [htake']
      refine ⟨_, rfl, Same.move (h.onChannel c ?_) halike _⟩
      intro x y hview
      exact view_greeted n (view_sent hview hlength)
    · rename_i c keys hpc
      rw [Option.ite_none_right_eq_some] at hst
      obtain ⟨hremaining, hst⟩ := hst
      obtain ⟨⟨bytes, buffer⟩, htake, rfl⟩ := Option.map_eq_some_iff.mp hst
      obtain ⟨bytes', buffer', htake', hlength, halike⟩ := h.buffer.take htake
      rw [h.buffer.hasRemaining, if_pos hremaining, htake']
      have hsame := h.onChannel c fun x y hview => view_sent hview hlength
      exact ⟨_, rfl, h.pc, h.alive, halike, hsame.length, hsame.views⟩
    · exact absurd hst (by simp)
  | drained =>
    cases hab
    simp only [go] at hst ⊢
    rw [h.pc, h.buffer.hasRemaining]
    split at hst
    · rw [Option.ite_none_left_eq_some, Option.some.injEq] at hst
      obtain ⟨hnone, rfl⟩ := hst
      rw [if_neg hnone]
      exact ⟨_, rfl, rfl, h.alive, h.buffer.clear, h.length, h.views⟩
    · exact absurd hst (by simp)
  | close =>
    cases hab
    simp only [go] at hst ⊢
    rw [h.pc]
    split at hst
    · rename_i c keys hpc
      cases hst
      refine ⟨_, rfl, Same.move (h.onChannel c ?_) h.buffer _⟩
      intro x y hview
      exact view_closed hview
    · exact absurd hst (by simp)
  | throw =>
    cases hab
    cases hst
    exact ⟨_, rfl, h.pc, rfl, h.buffer, h.length, h.views⟩

/-- Two schedules that agree for `channel` lead to states that it cannot tell apart. -/
theorem run_same {channel : SocketChannel} {as bs : List Act}
    (hab : List.Forall₂ (Act.Agree channel) as bs) {s s' t : State} (hs : server.Reachable s)
    (h : Same channel s t) (hrun : server.run s as = some s') :
    ∃ t', server.run t bs = some t' ∧ Same channel s' t' := by
  induction hab generalizing s t with
  | nil =>
    cases hrun
    exact ⟨t, rfl, h⟩
  | cons hab _ ih =>
    rw [Machine.run_cons] at hrun ⊢
    obtain ⟨u, hst, hrun⟩ := Option.bind_eq_some_iff.mp hrun
    have hu : server.Reachable u := hs.step hst
    simp only [server, Option.ite_none_right_eq_some] at hst
    obtain ⟨halive, hst⟩ := hst
    obtain ⟨v, htv, hsame⟩ := go_same (reachable_inv hs) h hab hst
    have hstep : server.step t _ = some v := (if_pos (h.alive.trans halive)).trans htv
    rw [hstep, Option.bind_some]
    exact ih hu hsame hrun

theorem same_refl (channel : SocketChannel) (s : State) : Same channel s s :=
  ⟨rfl, rfl, .refl _, rfl, fun _ => rfl⟩

/-- At any time a beginning of the echo was sent. -/
theorem Inv.sent_prefix {s : State} (hi : Inv s) {c : SocketChannel} {conn : Connection}
    (hc : s.connections[c]? = some conn) :
    conn.sent <+: GREETING.take conn.greeted ++ conn.received :=
  ⟨s.pending c, hi.echoed c conn hc⟩

/-- What a connection has got, it can tell from its own view. -/
theorem Same.sent {channel : SocketChannel} {s t : State} (h : Same channel s t) (hs : Inv s)
    (ht : Inv t) :
    (t.connections[channel]?).map (·.sent) = (s.connections[channel]?).map (·.sent) := by
  have hview := h.views channel
  unfold State.view at hview
  cases hconn : s.connections[channel]? with
  | none =>
    rw [hconn, Option.map_none, Option.map_eq_none_iff] at hview
    rw [hview]
  | some x =>
    rw [hconn, Option.map_some, Option.map_eq_some_iff] at hview
    obtain ⟨y, hy, hview⟩ := hview
    simp only [Connection.view, decide_true, if_true, Prod.mk.injEq] at hview
    obtain ⟨-, hgreeted, hlength, hreceived⟩ := hview
    have hx : x.sent <+: GREETING.take x.greeted ++ x.received := hs.sent_prefix hconn
    have hy' : y.sent <+: GREETING.take y.greeted ++ y.received := ht.sent_prefix hy
    rw [hgreeted, hreceived] at hy'
    have hbegins : y.sent <+: x.sent := List.prefix_of_prefix_length_le hy' hx (le_of_eq hlength)
    rw [hy, Option.map_some, Option.map_some]
    exact congrArg some (hbegins.eq_of_length hlength)

/-- **Every connection gets the greeting and its own bytes.**  Outside the writes of
`readDataFromSocket` to it, a connection has got a beginning of the greeting and then all that was
received from it; at any time it has got a beginning of that.  And what it gets does not depend on
the bytes of the others: under a schedule in which only those differ the server does the same, and
sends it the same bytes. -/
theorem echo_isolated :
    (∀ s, server.Reachable s → ∀ c conn, s.connections[c]? = some conn →
      ((∀ keys, s.pc ≠ .writing c keys) →
        ∃ greeting, greeting <+: GREETING ∧ conn.sent = greeting ++ conn.received) ∧
      ∃ greeting, greeting <+: GREETING ∧ conn.sent <+: greeting ++ conn.received) ∧
    (∀ c as bs s, List.Forall₂ (Act.Agree c) as bs → server.run server.init as = some s →
      ∃ t, server.run server.init bs = some t ∧ t.pc = s.pc ∧
        (t.connections[c]?).map (·.sent) = (s.connections[c]?).map (·.sent)) := by
  refine ⟨?_, ?_⟩
  · intro s h c conn hc
    have hi : Inv s := reachable_inv h
    refine ⟨?_, _, List.take_prefix _ _, hi.sent_prefix hc⟩
    intro hpc
    refine ⟨_, List.take_prefix conn.greeted _, ?_⟩
    have hnone : s.pending c = [] := by
      unfold State.pending
      split
      · rename_i d keys hd
        rw [if_neg]
        rintro rfl
        exact hpc keys hd
      · rfl
    rw [← hi.echoed c conn hc, hnone, List.append_nil]
  · intro c as bs s hab hrun
    obtain ⟨t, ht, hsame⟩ :=
      run_same hab Machine.reachable_init (same_refl c server.init) hrun
    exact ⟨t, ht, hsame.pc, hsame.sent (reachable_inv ⟨as, hrun⟩) (reachable_inv ⟨bs, ht⟩)⟩

/-- Two connections; the greeting of the second goes out in part, and each sends bytes that go
back in two writes. -/
def twoConnections (bytes : List Byte) : List Act :=
  [.select [.server], .next, .accept, .write 11, .next,
    .select [.server], .next, .accept, .write 3, .next,
    .select [.client 1, .client 0], .next, .read 1 bytes, .write 1, .write 1, .drained, .idle,
    .next, .read 0 [0x61, 0x62], .write 1, .write 1, .drained, .eof, .close, .next]

set_option maxRecDepth 8000 in
/-- `echo_isolated` there: with other bytes of connection 1, connection 0 gets the same. -/
theorem echo_isolated_two :
    ∃ s, server.Reachable s ∧
      (∃ conn, s.connections[1]? = some conn ∧ conn.received = [0x78, 0x79] ∧
        ∃ greeting, greeting <+: GREETING ∧ conn.sent = greeting ++ conn.received) ∧
      ∃ t, server.run server.init (twoConnections [0x70, 0x71]) = some t ∧ t.pc = s.pc ∧
        (t.connections[0]?).map (·.sent) = (s.connections[0]?).map (·.sent) := by
  obtain ⟨s, conn, hrun, hpc, hconn, hreceived⟩ : ∃ s conn,
      server.run server.init (twoConnections [0x78, 0x79]) = some s ∧ s.pc = .selecting ∧
      s.connections[1]? = some conn ∧ conn.received = [0x78, 0x79] :=
    ⟨_, _, rfl, rfl, rfl, rfl⟩
  have hab : List.Forall₂ (Act.Agree 0) (twoConnections [0x78, 0x79])
      (twoConnections [0x70, 0x71]) := by
    simp [twoConnections, Act.Agree]
  refine ⟨s, ⟨_, hrun⟩, ⟨conn, hconn, hreceived, ?_⟩, echo_isolated.2 0 _ _ _ hab hrun⟩
  exact (echo_isolated.1 s ⟨_, hrun⟩ 1 conn hconn).1 (by simp [hpc])

end SelectSockets
end JavaStudy
