/-
# `TimeClient`s and `TimeServer`s on a network

Any number of clients ask any number of hosts for the time.  The network may lose, duplicate and
reorder the datagrams; the clocks of the hosts and of the clients are whatever they are.  A client
sends its requests one after another and then prints what comes, until it has printed as many
replies as it has sent requests: it does not look at who has sent them.

* `shown_fresh`: what a client prints for a host is what the clock of that host showed at some
  moment after a request of the client to it, and the skew is right up to the time since then.
* `exchanges_end`: without duplicates no request is answered twice, the client returns with one
  reply for each request, and it waits for ever exactly if a datagram of its own was lost.

A client does to its buffers what `TimeClient.getReplies` does (`Follows`), so both rest on what is
known of a single reply.  The moments are those of no clock; they only order what happens.
-/
import JavaStudy.Lib.Datagrams
import JavaStudy.Lib.Progress
import JavaStudy.Nio.TimeClient

namespace JavaStudy

namespace TimeClient

open BigEndian
open JavaText (JInt)
open TimeServer (Datagram JLong)

/-- A round of `sendRequests`: the datagram that is sent, and the buffer after it. -/
def sendRequest (buffer : ByteBuffer) : Option (Datagram × ByteBuffer) :=
  let buffer := buffer.clear.flip
  buffer.take buffer.remaining

/-- What `printTime` prints for `skew`. -/
inductive Skew where
  | none
  | ahead (seconds : JLong)
  | behind (seconds : JLong)
  deriving DecidableEq

def printSkew (skew : JLong) : Skew :=
  if skew = 0 then .none else if 0 < skew.toInt then .ahead skew else .behind (-skew)

/-- By how many seconds the other clock is ahead. -/
def Skew.seconds : Skew → Int
  | none => 0
  | ahead seconds => seconds.toInt
  | behind seconds => -seconds.toInt

/-- `local`, the client's own time in seconds. -/
def localTime (currentTimeMillis : JLong) : JLong := currentTimeMillis.sdiv 1000

/-- A request is empty, whatever is in the buffer. -/
theorem sendRequest_eq (buffer : ByteBuffer) :
    ∃ buffer', sendRequest buffer = some ([], buffer') := by
  obtain ⟨sent, hsent, -⟩ := buffer.clear.flip.exists_take_remaining
  refine ⟨sent, hsent.trans ?_⟩
  simp [ByteBuffer.content, ByteBuffer.flip, ByteBuffer.clear]

theorem toInt_localTime {t : JLong} (h : 0 ≤ t.toInt) : (localTime t).toInt = t.toInt / 1000 := by
  rw [localTime, BitVec.toInt_sdiv_of_ne_or_ne _ _ (Or.inr (by decide))]
  exact Int.tdiv_eq_ediv_of_nonneg h

/-- What is printed is the skew, but for the one that has no negation. -/
theorem seconds_printSkew {skew : JLong} (h : -2 ^ 63 < skew.toInt) :
    (printSkew skew).seconds = skew.toInt := by
  unfold printSkew
  split
  · rename_i hzero
    rw [hzero]
    rfl
  · split
    · rfl
    · rename_i hpos
      have hneg : (-skew).toInt = -skew.toInt := by
        rw [BitVec.toInt_neg]
        refine Int.bmod_eq_of_le ?_ ?_
        · change -(2 ^ 64 / 2 : Int) ≤ -skew.toInt
          omega
        · change -skew.toInt < ((2 ^ 64 + 1) / 2 : Int)
          omega
      rw [Skew.seconds, hneg, Int.neg_neg]

/-- **A whole reply of a server** is printed as its time, whatever came before it. -/
theorem remote_reply (datagrams : List Datagram) {t : JLong} (h : 0 ≤ t.toInt) :
    (print (received (datagrams ++ [TimeServer.reply t]))).remote.toInt =
      (t.toInt / 1000 + 2208988800) % 2 ^ 32 - 2208988800 := by
  have hseconds := toNat_seconds1900 h
  have hlong : (getLong (received (datagrams ++ [TimeServer.reply t]))).toNat =
      (TimeServer.seconds1900 t).toNat % 2 ^ 32 := by
    have hwhole : (TimeServer.reply t).length = 4 := length_toBytes 4 _
    rw [toNat_getLong, slice_of_whole _ hwhole]
    exact ofBytes_toBytes 4 _
  change (printTime (getLong (received (datagrams ++ [TimeServer.reply t])))).toInt = _
  rw [toInt_printTime (by omega), hlong]
  omega

/-- The skew is the difference of the two times, without an overflow. -/
theorem toInt_skew {remote : JLong} {t : JLong} (ht : 0 ≤ t.toInt)
    (hlow : -2208988800 ≤ remote.toInt) (hhigh : remote.toInt < 2 ^ 32) :
    (printSkew (remote - localTime t)).seconds = remote.toInt - t.toInt / 1000 := by
  have hlt : t.toInt < 2 ^ 63 := BitVec.toInt_lt
  have hsub : (remote - localTime t).toInt = remote.toInt - t.toInt / 1000 := by
    rw [BitVec.toInt_sub, toInt_localTime ht]
    refine Int.bmod_eq_of_le ?_ ?_
    · change -(2 ^ 64 / 2 : Int) ≤ remote.toInt - t.toInt / 1000
      omega
    · change remote.toInt - t.toInt / 1000 < ((2 ^ 64 + 1) / 2 : Int)
      omega
  rw [seconds_printSkew (by omega), hsub]

/-- A datagram more, as long as `getReplies` has not returned. -/
theorem loop_concat {expect replies : JInt} {b : Sliced} {arriving : List Datagram}
    (h : (loop expect b replies arriving).returned = false) (d : Datagram) :
    loop expect b replies (arriving ++ [d]) =
      { printed := (loop expect b replies arriving).printed ++
          [print (round (arriving.foldl round b) d)]
        consumed := (loop expect b replies arriving).consumed + 1
        returned := decide (replies + BitVec.ofNat 32 arriving.length + 1 = expect) } := by
  induction arriving generalizing b replies with
  | nil =>
    rw [List.nil_append, List.length_nil, BitVec.add_zero]
    simp only [loop]
    split
    · rename_i hexpect
      rw [decide_eq_true hexpect]
      rfl
    · rename_i hexpect
      rw [decide_eq_false hexpect]
      rfl
  | cons e arriving ih =>
    have hcount : replies + BitVec.ofNat 32 (e :: arriving).length =
        replies + 1 + BitVec.ofNat 32 arriving.length := by
      rw [List.length_cons, Nat.add_comm, BitVec.ofNat_add, ← BitVec.add_assoc]
      rfl
    rw [List.cons_append, hcount]
    simp only [loop] at h ⊢
    split
    · rename_i hexpect
      rw [if_pos hexpect] at h
      exact absurd h (by simp)
    · rename_i hexpect
      rw [if_neg hexpect] at h
      rw [ih h]
      rfl

end TimeClient

namespace TimeNetwork

open BigEndian
open JavaText (JInt)
open TimeServer (Datagram JLong)
open TimeClient (Printed Skew Wrapped getReplies print printTime received)

/-! ## 1. The machine -/

/-- Whom each client asks, and what the clocks show at each moment. -/
structure World (Host Client : Type) where
  remoteHosts : Client → List Host
  serverClock : Host → Nat → JLong
  clientClock : Client → Nat → JLong

inductive Packet (Host Client : Type) where
  | request (client : Client) (host : Host) (data : Datagram)
  | reply (host : Host) (client : Client) (data : Datagram)
  deriving DecidableEq

def Packet.client {Host Client : Type} : Packet Host Client → Client
  | .request client _ _ => client
  | .reply _ client _ => client

def Packet.host {Host Client : Type} : Packet Host Client → Host
  | .request _ host _ => host
  | .reply host _ _ => host

/-- What `printTime` prints. -/
structure Shown (Host : Type) where
  host : Host
  remote : JLong
  localTime : JLong
  skew : Skew
  /-- When it is printed. -/
  moment : Nat

structure ClientState (Host : Type) where
  /-- The hosts that the iterator of `sendRequests` has before it. -/
  toAsk : List Host
  buffer : ByteBuffer
  longBuffer : Sliced
  replies : JInt
  shown : List (Shown Host)
  returned : Bool
  /-- The requests that were sent, and when. -/
  asked : List (Host × Nat)

structure State (Host Client : Type) where
  now : Nat
  servers : Host → Sliced
  clients : Client → ClientState Host
  net : Datagrams (Packet Host Client)

inductive Event (Client : Type) where
  /-- The client sends its next request. -/
  | send (client : Client)
  /-- The host takes the request with that index and answers it. -/
  | serve (i : Nat)
  /-- The client takes the reply with that index and prints it. -/
  | receive (i : Nat)
  | lose (i : Nat)
  | duplicate (i : Nat)
  deriving DecidableEq

def Event.loses {Client : Type} : Event Client → Bool
  | .lose _ => true
  | _ => false

def Event.duplicates {Client : Type} : Event Client → Bool
  | .duplicate _ => true
  | _ => false

structure Act (Client : Type) where
  moment : Nat
  event : Event Client

variable {Host Client : Type}

/-- `remoteHosts.size()`. -/
def World.expect (w : World Host Client) (client : Client) : JInt :=
  BitVec.ofNat 32 (w.remoteHosts client).length

/-- A round of `getReplies`: a reply from that host, when the client's clock shows that time. -/
def ClientState.round (expect : JInt) (client : ClientState Host) (host : Host) (data : Datagram)
    (currentTimeMillis : JLong) (moment : Nat) : ClientState Host :=
  let longBuffer := TimeClient.round client.longBuffer data
  let remote := (print longBuffer).remote
  let localTime := TimeClient.localTime currentTimeMillis
  let replies := client.replies + 1
  { client with
    longBuffer
    replies
    shown := client.shown ++
      [⟨host, remote, localTime, TimeClient.printSkew (remote - localTime), moment⟩]
    returned := decide (replies = expect) }

def perform [DecidableEq Host] [DecidableEq Client] (w : World Host Client)
    (s : State Host Client) : Event Client → Option (State Host Client)
  | .send c =>
    let client := s.clients c
    match client.toAsk with
    | [] => none
    | host :: toAsk =>
      (TimeClient.sendRequest client.buffer).map fun r =>
        let asked := client.asked ++ [(host, s.now)]
        { s with
          clients := Function.update s.clients c { client with toAsk, asked, buffer := r.2 }
          net := s.net.send (.request c host r.1) }
  | .serve i =>
    match s.net.onWay[i]? with
    | some (.request c host data) =>
      (TimeServer.answer (s.servers host) data (w.serverClock host s.now)).map fun r =>
        { s with
          servers := Function.update s.servers host r.1
          net := (s.net.remove i).send (.reply host c r.2) }
    | _ => none
  | .receive i =>
    match s.net.onWay[i]? with
    | some (.reply host c data) =>
      let client := s.clients c
      if client.toAsk = [] ∧ client.returned = false then
        let client := client.round (w.expect c) host data (w.clientClock c s.now) s.now
        some { s with clients := Function.update s.clients c client, net := s.net.remove i }
      else none
    | _ => none
  | .lose i => (s.net.lose i).map fun net => { s with net }
  | .duplicate i => (s.net.duplicate i).map fun net => { s with net }

def step [DecidableEq Host] [DecidableEq Client] (w : World Host Client)
    (s : State Host Client) (a : Act Client) : Option (State Host Client) :=
  if s.now ≤ a.moment then perform w { s with now := a.moment } a.event else none

def machine [DecidableEq Host] [DecidableEq Client] (w : World Host Client) :
    Machine (State Host Client) (Act Client) where
  init :=
    { now := 0
      servers := fun _ => TimeServer.longBuffer
      clients := fun c =>
        { toAsk := w.remoteHosts c
          buffer := .allocate 1
          longBuffer := TimeClient.longBuffer
          replies := 0
          shown := []
          returned := false
          asked := [] }
      net := .empty }
  step := step w

/-! ## 2. What a client does -/

/-- The client has done what `getReplies` does with those datagrams. -/
structure Follows (expect : JInt) (client : ClientState Host) (arrived : List Datagram) :
    Prop where
  longBuffer : client.longBuffer = received arrived
  replies : client.replies = BitVec.ofNat 32 arrived.length
  length : client.shown.length = arrived.length
  returned : (getReplies expect arrived).returned = client.returned
  printed : (getReplies expect arrived).printed.map (·.remote) = client.shown.map (·.remote)

theorem Follows.round {expect : JInt} {client : ClientState Host} {arrived : List Datagram}
    (h : Follows expect client arrived) (hreturned : client.returned = false) (host : Host)
    (data : Datagram) (currentTimeMillis : JLong) (moment : Nat) :
    Follows expect (client.round expect host data currentTimeMillis moment)
      (arrived ++ [data]) := by
  have hloop : getReplies expect (arrived ++ [data]) = _ :=
    TimeClient.loop_concat (h.returned.trans hreturned) data
  have hbuffer : TimeClient.round client.longBuffer data = received (arrived ++ [data]) := by
    rw [h.longBuffer, TimeClient.received_concat]
  have hreplies : client.replies + 1 = BitVec.ofNat 32 (arrived ++ [data]).length := by
    rw [h.replies, List.length_append, BitVec.ofNat_add]
    rfl
  refine ⟨hbuffer, hreplies, ?_, ?_, ?_⟩
  · simp only [ClientState.round, List.length_append, h.length]
    rfl
  · have hcount : (0 : JInt) + BitVec.ofNat 32 arrived.length + 1 = client.replies + 1 := by
      rw [h.replies]
      exact congrArg (· + 1) (BitVec.zero_add _)
    rw [hloop, hcount]
    rfl
  · rw [hloop, List.map_append]
    change (getReplies expect arrived).printed.map (·.remote) ++ _ = _
    rw [h.printed]
    simp only [ClientState.round, List.map_append, h.longBuffer]
    rfl

/-! ## 3. Where a reply comes from -/

/-- What `answer_eq` needs. -/
def Halves (b : Sliced) : Prop := b.before.length = 4 ∧ b.slice.capacity = 4

/-- By that moment the client has sent a request to that host. -/
def Asked (client : ClientState Host) (host : Host) (moment : Nat) : Prop :=
  ∃ sent ≤ moment, (host, sent) ∈ client.asked

/-- By that moment, and after a request of the client, the clock of the host has shown that time. -/
def Told (w : World Host Client) (client : ClientState Host) (host : Host) (t : JLong)
    (moment : Nat) : Prop :=
  ∃ sent read, (host, sent) ∈ client.asked ∧ sent ≤ read ∧ read ≤ moment ∧
    t = w.serverClock host read

def Packet.Genuine (w : World Host Client) (s : State Host Client) : Packet Host Client → Prop
  | .request c host _ => Asked (s.clients c) host s.now
  | .reply host c data => ∃ t, Told w (s.clients c) host t s.now ∧ data = TimeServer.reply t

/-- What is shown is what a reply leaves in the buffer, and the client's own time. -/
structure Shown.Genuine (w : World Host Client) (c : Client) (client : ClientState Host)
    (x : Shown Host) : Prop where
  remote : ∃ t arrived, Told w client x.host t x.moment ∧
    x.remote = (print (received (arrived ++ [TimeServer.reply t]))).remote
  localTime : x.localTime = TimeClient.localTime (w.clientClock c x.moment)
  skew : x.skew = TimeClient.printSkew (x.remote - x.localTime)

structure Inv (w : World Host Client) (s : State Host Client) : Prop where
  servers : ∀ host, Halves (s.servers host)
  asked : ∀ c, (s.clients c).asked.map (·.1) ++ (s.clients c).toAsk = w.remoteHosts c
  follows : ∀ c, ∃ arrived, Follows (w.expect c) (s.clients c) arrived
  onWay : ∀ p ∈ s.net.onWay, p.Genuine w s
  shown : ∀ c, ∀ x ∈ (s.clients c).shown, x.Genuine w c (s.clients c)

/-- Time has passed, and clients have sent requests. -/
structure Later (s t : State Host Client) : Prop where
  now : s.now ≤ t.now
  asked : ∀ c, (s.clients c).asked ⊆ (t.clients c).asked

theorem Told.mono {w : World Host Client} {client client' : ClientState Host} {host : Host}
    {t : JLong} {moment moment' : Nat} (h : Told w client host t moment)
    (hasked : client.asked ⊆ client'.asked) (hle : moment ≤ moment') :
    Told w client' host t moment' := by
  obtain ⟨sent, read, hsent, hread, hmoment, ht⟩ := h
  exact ⟨sent, read, hasked hsent, hread, le_trans hmoment hle, ht⟩

theorem Packet.Genuine.later {w : World Host Client} {s t : State Host Client}
    {p : Packet Host Client} (h : p.Genuine w s) (hlater : Later s t) : p.Genuine w t := by
  cases p with
  | request c host data =>
    obtain ⟨sent, hle, hsent⟩ := h
    exact ⟨sent, le_trans hle hlater.now, hlater.asked c hsent⟩
  | reply host c data =>
    obtain ⟨time, htold, hdata⟩ := h
    exact ⟨time, htold.mono (hlater.asked c) hlater.now, hdata⟩

theorem Shown.Genuine.mono {w : World Host Client} {c : Client} {client client' : ClientState Host}
    {x : Shown Host} (h : x.Genuine w c client) (hasked : client.asked ⊆ client'.asked) :
    x.Genuine w c client' := by
  obtain ⟨time, arrived, htold, hremote⟩ := h.remote
  exact ⟨⟨time, arrived, htold.mono hasked (Nat.le_refl _), hremote⟩, h.localTime, h.skew⟩

/-! ## 4. What a step does -/

variable [DecidableEq Host] [DecidableEq Client]

/-- What a step does, when the buffers of the servers are as they should be. -/
inductive Performs (w : World Host Client) (s : State Host Client) :
    Event Client → State Host Client → Prop where
  | send {c : Client} {host : Host} {toAsk : List Host} (buffer : ByteBuffer)
      (h : (s.clients c).toAsk = host :: toAsk) :
      Performs w s (.send c)
        { s with
          clients := Function.update s.clients c
            { s.clients c with
              toAsk
              buffer
              asked := (s.clients c).asked ++ [(host, s.now)] }
          net := s.net.send (.request c host []) }
  | serve {i : Nat} {c : Client} {host : Host} {data : Datagram} {b : Sliced}
      (h : s.net.onWay[i]? = some (.request c host data)) (hb : Halves b) :
      Performs w s (.serve i)
        { s with
          servers := Function.update s.servers host b
          net := (s.net.remove i).send
            (.reply host c (TimeServer.reply (w.serverClock host s.now))) }
  | receive {i : Nat} {c : Client} {host : Host} {data : Datagram}
      (h : s.net.onWay[i]? = some (.reply host c data)) (htoAsk : (s.clients c).toAsk = [])
      (hreturned : (s.clients c).returned = false) :
      Performs w s (.receive i)
        { s with
          clients := Function.update s.clients c
            ((s.clients c).round (w.expect c) host data (w.clientClock c s.now) s.now)
          net := s.net.remove i }
  | lose {i : Nat} {net : Datagrams (Packet Host Client)} (h : s.net.lose i = some net) :
      Performs w s (.lose i) { s with net }
  | duplicate {i : Nat} {net : Datagrams (Packet Host Client)} (h : s.net.duplicate i = some net) :
      Performs w s (.duplicate i) { s with net }

theorem performs_of_perform {w : World Host Client} {s t : State Host Client} {e : Event Client}
    (hs : ∀ host, Halves (s.servers host)) (h : perform w s e = some t) : Performs w s e t := by
  cases e with
  | send c =>
    simp only [perform] at h
    split at h
    · exact absurd h (by simp)
    · rename_i host toAsk htoAsk
      obtain ⟨buffer, hbuffer⟩ := TimeClient.sendRequest_eq (s.clients c).buffer
      rw [hbuffer] at h
      cases h
      exact .send buffer htoAsk
  | serve i =>
    simp only [perform] at h
    split at h
    · rename_i c host data hp
      obtain ⟨b, hb, hbefore, hslice⟩ := TimeServer.answer_eq (hs host).1 (hs host).2 data
        (w.serverClock host s.now)
      rw [hb] at h
      cases h
      exact .serve hp ⟨hbefore, hslice⟩
    · exact absurd h (by simp)
  | receive i =>
    simp only [perform] at h
    split at h
    · rename_i host c data hp
      rw [Option.ite_none_right_eq_some, Option.some.injEq] at h
      obtain ⟨⟨htoAsk, hreturned⟩, rfl⟩ := h
      exact .receive hp htoAsk hreturned
    · exact absurd h (by simp)
  | lose i =>
    obtain ⟨net, hnet, rfl⟩ := Option.map_eq_some_iff.mp h
    exact .lose hnet
  | duplicate i =>
    obtain ⟨net, hnet, rfl⟩ := Option.map_eq_some_iff.mp h
    exact .duplicate hnet

theorem Performs.later {w : World Host Client} {s t : State Host Client} {e : Event Client}
    (h : Performs w s e t) : Later s t := by
  cases h with
  | @send c host toAsk buffer htoAsk =>
    refine ⟨Nat.le_refl _, ?_⟩
    refine (Function.forall_update_iff _ fun q (client : ClientState Host) =>
      (s.clients q).asked ⊆ client.asked).mpr ?_
    exact ⟨List.subset_append_left _ _, fun q _ => List.Subset.refl _⟩
  | receive h htoAsk hreturned =>
    refine ⟨Nat.le_refl _, ?_⟩
    refine (Function.forall_update_iff _ fun q (client : ClientState Host) =>
      (s.clients q).asked ⊆ client.asked).mpr ?_
    exact ⟨List.Subset.refl _, fun q _ => List.Subset.refl _⟩
  | serve | lose | duplicate => exact ⟨Nat.le_refl _, fun q => List.Subset.refl _⟩

theorem performs_servers {w : World Host Client} {s t : State Host Client} {e : Event Client}
    (hi : ∀ host, Halves (s.servers host)) (h : Performs w s e t) :
    ∀ host, Halves (t.servers host) := by
  cases h with
  | serve h hb =>
    refine (Function.forall_update_iff _ fun _ b => Halves b).mpr ?_
    exact ⟨hb, fun host _ => hi host⟩
  | send | receive | lose | duplicate => exact hi

theorem performs_asked {w : World Host Client} {s t : State Host Client} {e : Event Client}
    (hi : ∀ c, (s.clients c).asked.map (·.1) ++ (s.clients c).toAsk = w.remoteHosts c)
    (h : Performs w s e t) (c : Client) :
    (t.clients c).asked.map (·.1) ++ (t.clients c).toAsk = w.remoteHosts c := by
  cases h with
  | @send c' host toAsk buffer htoAsk =>
    refine (Function.forall_update_iff _ fun q (client : ClientState Host) =>
      client.asked.map (·.1) ++ client.toAsk = w.remoteHosts q).mpr ⟨?_, fun q _ => hi q⟩ c
    rw [List.map_append, List.append_assoc, ← hi c', htoAsk]
    rfl
  | @receive i c' host data h htoAsk hreturned =>
    refine (Function.forall_update_iff _ fun q (client : ClientState Host) =>
      client.asked.map (·.1) ++ client.toAsk = w.remoteHosts q).mpr ⟨?_, fun q _ => hi q⟩ c
    exact hi c'
  | serve | lose | duplicate => exact hi c

theorem performs_follows {w : World Host Client} {s t : State Host Client} {e : Event Client}
    (hi : ∀ c, ∃ arrived, Follows (w.expect c) (s.clients c) arrived) (h : Performs w s e t) :
    ∀ c, ∃ arrived, Follows (w.expect c) (t.clients c) arrived := by
  cases h with
  | @send c host toAsk buffer htoAsk =>
    refine (Function.forall_update_iff _ fun q (client : ClientState Host) =>
      ∃ arrived, Follows (w.expect q) client arrived).mpr ⟨?_, fun q _ => hi q⟩
    obtain ⟨arrived, hf⟩ := hi c
    exact ⟨arrived, hf.longBuffer, hf.replies, hf.length, hf.returned, hf.printed⟩
  | @receive i c host data h htoAsk hreturned =>
    refine (Function.forall_update_iff _ fun q (client : ClientState Host) =>
      ∃ arrived, Follows (w.expect q) client arrived).mpr ⟨?_, fun q _ => hi q⟩
    obtain ⟨arrived, hf⟩ := hi c
    exact ⟨arrived ++ [data], hf.round hreturned host data _ _⟩
  | serve | lose | duplicate => exact hi

theorem performs_onWay {w : World Host Client} {s t : State Host Client} {e : Event Client}
    (hi : ∀ p ∈ s.net.onWay, p.Genuine w s) (h : Performs w s e t) :
    ∀ p ∈ t.net.onWay, p.Genuine w t := by
  have hold : ∀ p ∈ s.net.onWay, p.Genuine w t := fun p hp => (hi p hp).later h.later
  cases h with
  | @send c host toAsk buffer htoAsk =>
    refine Datagrams.onWay_send hold ⟨s.now, Nat.le_refl _, ?_⟩
    simp
  | @serve i c host data b h hb =>
    obtain ⟨sent, hle, hsent⟩ := hi _ (List.mem_of_getElem? h)
    refine Datagrams.onWay_send (Datagrams.onWay_remove hold i) ⟨_, ?_, rfl⟩
    exact ⟨sent, s.now, hsent, hle, Nat.le_refl _, rfl⟩
  | receive h htoAsk hreturned => exact Datagrams.onWay_remove hold _
  | lose h => exact Datagrams.onWay_lose hold h
  | duplicate h => exact Datagrams.onWay_duplicate hold h

theorem performs_shown {w : World Host Client} {s t : State Host Client} {e : Event Client}
    (hi : Inv w s) (h : Performs w s e t) :
    ∀ c, ∀ x ∈ (t.clients c).shown, x.Genuine w c (t.clients c) := by
  cases h with
  | @send c host toAsk buffer htoAsk =>
    refine (Function.forall_update_iff _ fun q (client : ClientState Host) =>
      ∀ x ∈ client.shown, x.Genuine w q client).mpr ⟨?_, fun q _ => hi.shown q⟩
    exact fun x hx => (hi.shown c x hx).mono (List.subset_append_left _ _)
  | @receive i c host data h htoAsk hreturned =>
    refine (Function.forall_update_iff _ fun q (client : ClientState Host) =>
      ∀ x ∈ client.shown, x.Genuine w q client).mpr ⟨?_, fun q _ => hi.shown q⟩
    intro x hx
    rcases List.mem_append.mp hx with hx | hx
    · exact (hi.shown c x hx).mono (List.Subset.refl _)
    · rw [List.mem_singleton] at hx
      obtain ⟨arrived, hf⟩ := hi.follows c
      obtain ⟨time, htold, rfl⟩ := hi.onWay _ (List.mem_of_getElem? h)
      refine hx ▸ ⟨⟨time, arrived, htold, ?_⟩, rfl, rfl⟩
      rw [TimeClient.received_concat, ← hf.longBuffer]
  | serve | lose | duplicate => exact hi.shown

/-- What a step is: time passes, and something happens. -/
theorem performs_of_step {w : World Host Client} {s t : State Host Client} {a : Act Client}
    (hi : Inv w s) (h : step w s a = some t) :
    Inv w { s with now := a.moment } ∧ Performs w { s with now := a.moment } a.event t := by
  simp only [step, Option.ite_none_right_eq_some] at h
  obtain ⟨hle, h⟩ := h
  have hlater : Later s { s with now := a.moment } := ⟨hle, fun c => List.Subset.refl _⟩
  have hi' : Inv w { s with now := a.moment } :=
    ⟨hi.servers, hi.asked, hi.follows, fun p hp => (hi.onWay p hp).later hlater, hi.shown⟩
  exact ⟨hi', performs_of_perform hi'.servers h⟩

theorem step_inv {w : World Host Client} {s t : State Host Client} {a : Act Client}
    (hi : Inv w s) (h : step w s a = some t) : Inv w t := by
  obtain ⟨hi', hp⟩ := performs_of_step hi h
  exact ⟨performs_servers hi'.servers hp, performs_asked hi'.asked hp,
    performs_follows hi'.follows hp, performs_onWay hi'.onWay hp, performs_shown hi' hp⟩

theorem inv_init (w : World Host Client) : Inv w (machine w).init where
  servers _ := ⟨rfl, rfl⟩
  asked _ := rfl
  follows _ := ⟨[], rfl, rfl, rfl, rfl, rfl⟩
  onWay _ hp := absurd hp List.not_mem_nil
  shown _ _ hx := absurd hx List.not_mem_nil

theorem reachable_inv {w : World Host Client} {s : State Host Client}
    (h : (machine w).Reachable s) : Inv w s :=
  h.induct (inv_init w) fun _ _ _ _ hi hst => step_inv hi hst

/-! ## 5. What is printed is right -/

/-- A clock that starts after 1970 and is never put back. -/
def Steady (clock : Nat → JLong) : Prop :=
  ∀ τ τ', τ ≤ τ' → 0 ≤ (clock τ).toInt ∧ (clock τ).toInt ≤ (clock τ').toInt

/-- By how many milliseconds the host's clock is ahead of the client's. -/
def World.offset (w : World Host Client) (host : Host) (c : Client) (moment : Nat) : Int :=
  (w.serverClock host moment).toInt - (w.clientClock c moment).toInt

/-- What the client measures as the time from one moment to the other. -/
def World.elapsed (w : World Host Client) (c : Client) (sent moment : Nat) : Int :=
  (w.clientClock c moment).toInt - (w.clientClock c sent).toInt

/-- What is shown was read at that moment, after a request at the moment `sent`. -/
structure Reading (w : World Host Client) (c : Client) (x : Shown Host) (sent read : Nat) :
    Prop where
  after : sent ≤ read
  before : read ≤ x.moment
  remote : Wrapped ((w.serverClock x.host read).toInt / 1000) x.remote.toInt
  not_ahead : Steady (w.clientClock c) →
    1000 * x.skew.seconds < w.offset x.host c read + 1000
  not_behind : Steady (w.clientClock c) →
    (w.serverClock x.host read).toInt / 1000 + 2208988800 < 2 ^ 32 →
    w.offset x.host c read - w.elapsed c sent x.moment - 1000 < 1000 * x.skew.seconds

omit [DecidableEq Host] [DecidableEq Client] in
/-- The skew is rounded twice, and the client looks at its clock later than the host does. -/
theorem reading_of_remote {w : World Host Client} {c : Client} {x : Shown Host} {sent read : Nat}
    (hafter : sent ≤ read) (hbefore : read ≤ x.moment)
    (hserver : 0 ≤ (w.serverClock x.host read).toInt)
    (hremote : x.remote.toInt =
      ((w.serverClock x.host read).toInt / 1000 + 2208988800) % 2 ^ 32 - 2208988800)
    (hlocal : x.localTime = TimeClient.localTime (w.clientClock c x.moment))
    (hskew : x.skew = TimeClient.printSkew (x.remote - x.localTime)) :
    Reading w c x sent read := by
  have hwrapped : Wrapped ((w.serverClock x.host read).toInt / 1000) x.remote.toInt := by
    rw [hremote]
    exact TimeClient.wrapped_of_mod (Int.ediv_nonneg hserver (by decide))
  have hle : x.remote.toInt ≤ (w.serverClock x.host read).toInt / 1000 := by omega
  have hseconds : Steady (w.clientClock c) →
      x.skew.seconds = x.remote.toInt - (w.clientClock c x.moment).toInt / 1000 := by
    intro hsteady
    rw [hskew, hlocal]
    refine TimeClient.toInt_skew (hsteady _ _ (Nat.le_refl _)).1 ?_ ?_
    · omega
    · omega
  refine ⟨hafter, hbefore, hwrapped, ?_, ?_⟩
  · intro hsteady
    have hread := (hsteady read x.moment hbefore).2
    rw [hseconds hsteady, World.offset]
    omega
  · intro hsteady hera
    have hsent := (hsteady sent read hafter).2
    rw [hseconds hsteady, hwrapped.exact_iff.mpr hera, World.offset, World.elapsed]
    omega

/-- **What a client prints for a host is what the host's clock showed**, at some moment between one
of the client's requests to it and the print, whatever the network does with the datagrams.  The
skew is less than a second above the offset of the two clocks at that moment, and it is below it by
less than the time since the request and a second. -/
theorem shown_fresh (w : World Host Client)
    (hserver : ∀ host moment, 0 ≤ (w.serverClock host moment).toInt) {s : State Host Client}
    (h : (machine w).Reachable s) (c : Client) {x : Shown Host} (hx : x ∈ (s.clients c).shown) :
    (s.clients c).asked.map (·.1) <+: w.remoteHosts c ∧
    ∃ sent read, (x.host, sent) ∈ (s.clients c).asked ∧ Reading w c x sent read := by
  have hgenuine := (reachable_inv h).shown c x hx
  refine ⟨⟨_, (reachable_inv h).asked c⟩, ?_⟩
  obtain ⟨t, arrived, ⟨sent, read, hsent, hafter, hbefore, rfl⟩, hremote⟩ := hgenuine.remote
  have hnonneg := hserver x.host read
  refine ⟨sent, read, hsent, reading_of_remote hafter hbefore hnonneg ?_ hgenuine.localTime
    hgenuine.skew⟩
  rw [hremote]
  exact TimeClient.remote_reply arrived hnonneg

/-- One client, and one host whose clock is five seconds ahead. -/
def ahead : World Unit Unit where
  remoteHosts _ := [()]
  serverClock _ moment := BitVec.ofNat 64 (1000 * (min moment 60 + 5))
  clientClock _ moment := BitVec.ofNat 64 (1000 * min moment 60)

/-- `shown_fresh` where the reply is received two seconds after it was sent. -/
theorem shown_fresh_ahead :
    ∃ (s : State Unit Unit) (x : Shown Unit) (sent read : Nat), x ∈ (s.clients ()).shown ∧
      x.skew = .ahead 3 ∧ (x.host, sent) ∈ (s.clients ()).asked ∧ Reading ahead () x sent read := by
  have hserver : ∀ host moment, 0 ≤ (ahead.serverClock host moment).toInt := by
    intro host moment
    have hlt : (ahead.serverClock host moment).toNat < 2 ^ 63 := by
      have hsmall : 1000 * (min moment 60 + 5) < 2 ^ 63 := by omega
      exact lt_of_le_of_lt (Nat.mod_le _ _) hsmall
    rw [BitVec.toInt_eq_toNat_of_lt (by omega)]
    exact Int.natCast_nonneg _
  obtain ⟨s, hrun, x, hx, hskew⟩ : ∃ s, (machine ahead).run (machine ahead).init
      [⟨1, .send ()⟩, ⟨2, .serve 0⟩, ⟨4, .receive 0⟩] = some s ∧
        ∃ x ∈ (s.clients ()).shown, x.skew = .ahead 3 :=
    ⟨_, rfl, _, List.mem_singleton.mpr rfl, rfl⟩
  obtain ⟨-, sent, read, hsent, hreading⟩ := shown_fresh ahead hserver ⟨_, hrun⟩ () hx
  exact ⟨s, x, sent, read, hx, hskew, hsent, hreading⟩

/-! ## 6. How many replies there are -/

/-- The host of a datagram of the client. -/
def Packet.hostOf (c : Client) (p : Packet Host Client) : Option Host :=
  if p.client = c then some p.host else none

omit [DecidableEq Host] in
@[simp] theorem hostOf_request (c c' : Client) (host : Host) (data : Datagram) :
    (Packet.request c' host data).hostOf c = if c' = c then some host else none := rfl

omit [DecidableEq Host] in
@[simp] theorem hostOf_reply (c c' : Client) (host : Host) (data : Datagram) :
    (Packet.reply host c' data).hostOf c = if c' = c then some host else none := rfl

/-- The hosts of the client's datagrams that were sent and that nobody has printed. -/
def unshown (net : Datagrams (Packet Host Client)) (c : Client) : List Host :=
  net.all.filterMap (Packet.hostOf c)

omit [DecidableEq Host] in
theorem unshown_send (net : Datagrams (Packet Host Client)) (p : Packet Host Client) (c : Client) :
    (unshown (net.send p) c).Perm ((p.hostOf c).toList ++ unshown net c) := by
  refine ((Datagrams.all_send net p).filterMap _).trans (List.Perm.of_eq ?_)
  rw [List.filterMap_cons]
  cases p.hostOf c with
  | none => rfl
  | some host => rfl

omit [DecidableEq Host] in
theorem unshown_remove {net : Datagrams (Packet Host Client)} {i : Nat} {p : Packet Host Client}
    (h : net.onWay[i]? = some p) (c : Client) :
    (unshown net c).Perm ((p.hostOf c).toList ++ unshown (net.remove i) c) := by
  refine ((Datagrams.all_remove h).filterMap _).trans (List.Perm.of_eq ?_)
  rw [List.filterMap_cons]
  cases p.hostOf c with
  | none => rfl
  | some host => rfl

/-- Every request of a client is still to be sent, or on its way, or lost, or has been answered by
one reply. -/
structure Accounts (w : World Host Client) (s : State Host Client) : Prop where
  hosts : ∀ c, ((s.clients c).toAsk ++
    (unshown s.net c ++ (s.clients c).shown.map (·.host))).Perm (w.remoteHosts c)
  returned : ∀ c, (s.clients c).returned = true ↔
    0 < (s.clients c).shown.length ∧ (s.clients c).shown.length = (w.remoteHosts c).length

omit [DecidableEq Host] in
theorem Accounts.length {w : World Host Client} {s : State Host Client} (h : Accounts w s)
    (c : Client) : (s.clients c).toAsk.length + ((unshown s.net c).length +
      (s.clients c).shown.length) = (w.remoteHosts c).length := by
  have hlength := (h.hosts c).length_eq
  simpa only [List.length_append, List.length_map] using hlength

theorem performs_hosts {w : World Host Client} {s t : State Host Client} {e : Event Client}
    (ha : Accounts w s) (he : e.duplicates = false) (h : Performs w s e t) (c : Client) :
    ((t.clients c).toAsk ++ (unshown t.net c ++ (t.clients c).shown.map (·.host))).Perm
      (w.remoteHosts c) := by
  cases h with
  | @send c' host toAsk buffer htoAsk =>
    have hsend := unshown_send s.net (.request c' host []) c
    refine List.Perm.trans ?_ (ha.hosts c)
    by_cases hc : c' = c
    · subst hc
      rw [hostOf_request, if_pos rfl] at hsend
      simp only [Function.update_self, htoAsk]
      exact ((hsend.append_right _).append_left _).trans List.perm_middle
    · rw [hostOf_request, if_neg hc] at hsend
      simp only [Function.update_of_ne (Ne.symm hc)]
      exact (hsend.append_right _).append_left _
  | @serve i c' host data b h hb =>
    have hsend := unshown_send (s.net.remove i)
      (.reply host c' (TimeServer.reply (w.serverClock host s.now))) c
    have hremove := unshown_remove h c
    refine List.Perm.trans ?_ (ha.hosts c)
    exact ((hsend.trans hremove.symm).append_right _).append_left _
  | @receive i c' host data h htoAsk hreturned =>
    have hremove := unshown_remove h c
    refine List.Perm.trans ?_ (ha.hosts c)
    by_cases hc : c' = c
    · subst hc
      rw [hostOf_reply, if_pos rfl] at hremove
      simp only [Function.update_self, ClientState.round, List.map_append, List.map_cons,
        List.map_nil]
      refine List.Perm.append_left _ (List.Perm.trans ?_ (hremove.symm.append_right _))
      rw [← List.append_assoc]
      exact List.perm_append_singleton host _
    · rw [hostOf_reply, if_neg hc] at hremove
      simp only [Function.update_of_ne (Ne.symm hc)]
      exact (hremove.symm.append_right _).append_left _
  | lose h =>
    refine List.Perm.trans ?_ (ha.hosts c)
    exact (((Datagrams.all_lose h).filterMap _).append_right _).append_left _
  | duplicate h => exact absurd he (by simp [Event.duplicates])

/-- A client that waits for a reply, and has one, has not got all of them. -/
theorem performs_returned {w : World Host Client} (hlen : ∀ c, (w.remoteHosts c).length < 2 ^ 32)
    {s t : State Host Client} {e : Event Client} (hi : Inv w s) (ha : Accounts w s)
    (h : Performs w s e t) (c : Client) :
    (t.clients c).returned = true ↔
      0 < (t.clients c).shown.length ∧ (t.clients c).shown.length = (w.remoteHosts c).length := by
  cases h with
  | @send c' host toAsk buffer htoAsk =>
    refine (Function.forall_update_iff _ fun q (client : ClientState Host) =>
      client.returned = true ↔
        0 < client.shown.length ∧ client.shown.length = (w.remoteHosts q).length).mpr ?_ c
    exact ⟨ha.returned c', fun q _ => ha.returned q⟩
  | @receive i c' host data h htoAsk hreturned =>
    refine (Function.forall_update_iff _ fun q (client : ClientState Host) =>
      client.returned = true ↔
        0 < client.shown.length ∧ client.shown.length = (w.remoteHosts q).length).mpr ?_ c
    refine ⟨?_, fun q _ => ha.returned q⟩
    obtain ⟨arrived, hf⟩ := hi.follows c'
    have hunshown := (unshown_remove h c').length_eq
    rw [hostOf_reply, if_pos rfl, List.length_append, Option.toList_some, List.length_singleton]
      at hunshown
    have hlength := ha.length c'
    have hlt := hlen c'
    have hexpect : (s.clients c').replies + 1 = w.expect c' ↔
        (s.clients c').shown.length + 1 = (w.remoteHosts c').length := by
      have hreplies : (s.clients c').replies + 1 =
          BitVec.ofNat 32 ((s.clients c').shown.length + 1) := by
        rw [hf.replies, hf.length, BitVec.ofNat_add]
        rfl
      rw [hreplies, World.expect, ← BitVec.toNat_inj, BitVec.toNat_ofNat, BitVec.toNat_ofNat,
        Nat.mod_eq_of_lt (by omega), Nat.mod_eq_of_lt (by omega)]
    simp only [ClientState.round, decide_eq_true_eq, List.length_append, List.length_singleton]
    rw [hexpect]
    exact ⟨fun heq => ⟨Nat.succ_pos _, heq⟩, fun heq => heq.2⟩
  | serve | lose | duplicate => exact ha.returned c

/-- The machine whose network duplicates nothing. -/
def once (w : World Host Client) : Machine (State Host Client) (Act Client) :=
  (machine w).restrict fun _ a => a.event.duplicates = false

theorem once_step {w : World Host Client} {s t : State Host Client} {a : Act Client} :
    (once w).step s a = some t ↔ a.event.duplicates = false ∧ step w s a = some t :=
  Machine.restrict_step_eq_some

theorem once_inv {w : World Host Client} {s : State Host Client} (h : (once w).Reachable s) :
    Inv w s := reachable_inv h.of_restrict

theorem once_accounts {w : World Host Client} (hlen : ∀ c, (w.remoteHosts c).length < 2 ^ 32)
    {s : State Host Client} (h : (once w).Reachable s) : Accounts w s := by
  refine h.induct (I := Accounts w) ⟨fun c => ?_, fun c => ?_⟩ ?_
  · exact List.Perm.of_eq (List.append_nil _)
  · exact ⟨fun h => absurd h Bool.false_ne_true, fun h => absurd h.1 (Nat.lt_irrefl 0)⟩
  · intro s a t hr ha hst
    obtain ⟨hduplicates, hst⟩ := once_step.mp hst
    obtain ⟨hi, hp⟩ := performs_of_step (once_inv hr) hst
    have ha' : Accounts w { s with now := a.moment } := ⟨ha.hosts, ha.returned⟩
    exact ⟨performs_hosts ha' hduplicates hp, performs_returned hlen hi ha' hp⟩

/-! ## 7. How the exchanges end -/

/-- How many steps a datagram can still be in. -/
def Packet.todo : Packet Host Client → Nat
  | .request .. => 2
  | .reply .. => 1

omit [DecidableEq Host] [DecidableEq Client] in
theorem Packet.todo_pos (p : Packet Host Client) : 0 < p.todo := by
  cases p with
  | request => exact Nat.succ_pos 1
  | reply => exact Nat.succ_pos 0

def measure [Fintype Client] (s : State Host Client) : Nat :=
  ∑ c, 3 * (s.clients c).toAsk.length + s.net.weight Packet.todo

/-- Every step is one of the three of a request, or ends one. -/
theorem performs_measure [Fintype Client] {w : World Host Client} {s t : State Host Client}
    {e : Event Client} (he : e.duplicates = false) (h : Performs w s e t) :
    measure t < measure s := by
  cases h with
  | @send c host toAsk buffer htoAsk =>
    have hsum := Machine.sum_update (fun client : ClientState Host => 3 * client.toAsk.length)
      s.clients c
      { s.clients c with toAsk, buffer, asked := (s.clients c).asked ++ [(host, s.now)] }
    simp only [htoAsk, List.length_cons] at hsum
    simp only [measure, Datagrams.weight_send, Packet.todo]
    omega
  | serve h hb =>
    have hremove := Datagrams.weight_remove Packet.todo h
    simp only [measure, Datagrams.weight_send, Packet.todo] at hremove ⊢
    omega
  | @receive i c host data h htoAsk hreturned =>
    have hremove := Datagrams.weight_remove Packet.todo h
    have hsum := Machine.sum_update (fun client : ClientState Host => 3 * client.toAsk.length)
      s.clients c ((s.clients c).round (w.expect c) host data (w.clientClock c s.now) s.now)
    simp only [measure, ClientState.round, Packet.todo] at hremove hsum ⊢
    omega
  | lose h =>
    obtain ⟨p, hp, rfl⟩ := Option.map_eq_some_iff.mp h
    have hremove := Datagrams.weight_remove Packet.todo hp
    have hpos := p.todo_pos
    change ∑ c, 3 * (s.clients c).toAsk.length + (s.net.remove _).weight Packet.todo < measure s
    rw [measure]
    omega
  | duplicate h => exact absurd he (by simp [Event.duplicates])

theorem once_decreases [Fintype Client] (w : World Host Client) : (once w).Decreases measure := by
  intro s a t hr hst
  obtain ⟨hduplicates, hst⟩ := once_step.mp hst
  have hless : measure t < measure { s with now := a.moment } :=
    performs_measure hduplicates (performs_of_step (once_inv hr) hst).2
  exact hless

/-- Nothing more happens, unless a datagram is lost. -/
def Quiet (w : World Host Client) (s : State Host Client) : Prop :=
  ∀ a : Act Client, a.event.loses = false → (once w).step s a = none

theorem Quiet.perform {w : World Host Client} {s : State Host Client} (h : Quiet w s)
    {e : Event Client} (hloses : e.loses = false) (hduplicates : e.duplicates = false) :
    perform w s e = none := by
  have hnone := h ⟨s.now, e⟩ hloses
  simp only [once, Machine.restrict, machine, step] at hnone
  rwa [if_pos hduplicates, if_pos (Nat.le_refl _)] at hnone

theorem Quiet.toAsk {w : World Host Client} {s : State Host Client} (h : Quiet w s) (c : Client) :
    (s.clients c).toAsk = [] := by
  cases htoAsk : (s.clients c).toAsk with
  | nil => rfl
  | cons host toAsk =>
    have hnone := h.perform (e := .send c) rfl rfl
    obtain ⟨buffer, hbuffer⟩ := TimeClient.sendRequest_eq (s.clients c).buffer
    simp only [TimeNetwork.perform, htoAsk, hbuffer] at hnone
    exact absurd hnone (by simp)

/-- What is still on its way is a reply to a client that has returned. -/
theorem Quiet.onWay {w : World Host Client} {s : State Host Client} (h : Quiet w s) (hi : Inv w s)
    {p : Packet Host Client} (hp : p ∈ s.net.onWay) : (s.clients p.client).returned = true := by
  obtain ⟨i, hi'⟩ := List.mem_iff_getElem?.mp hp
  cases p with
  | request c host data =>
    have hnone := h.perform (e := .serve i) rfl rfl
    obtain ⟨b, hb, -⟩ := TimeServer.answer_eq (hi.servers host).1 (hi.servers host).2 data
      (w.serverClock host s.now)
    simp only [TimeNetwork.perform, hi', hb] at hnone
    exact absurd hnone (by simp)
  | reply host c data =>
    have hnone := h.perform (e := .receive i) rfl rfl
    simp only [TimeNetwork.perform, hi'] at hnone
    rw [ite_eq_right_iff] at hnone
    by_contra hreturned
    exact absurd (hnone ⟨h.toAsk c, Bool.eq_false_iff.mpr hreturned⟩) (by simp)

omit [DecidableEq Host] in
theorem unshown_eq_nil {net : Datagrams (Packet Host Client)} {c : Client} :
    unshown net c = [] ↔ ∀ p ∈ net.all, p.client ≠ c := by
  simp only [unshown, List.filterMap_eq_nil_iff, Packet.hostOf]
  exact forall₂_congr fun p _ => by rw [ite_eq_right_iff]; simp

/-- **The client waits for ever exactly if a datagram was lost**, or if it has asked nobody. -/
theorem Quiet.returned_iff {w : World Host Client} {s : State Host Client} (h : Quiet w s)
    (hi : Inv w s) (ha : Accounts w s) (c : Client) :
    (s.clients c).returned = true ↔
      w.remoteHosts c ≠ [] ∧ ∀ p ∈ s.net.lost, p.client ≠ c := by
  have hlength := ha.length c
  rw [h.toAsk c, List.length_nil, Nat.zero_add] at hlength
  constructor
  · intro hreturned
    obtain ⟨hpos, hall⟩ := (ha.returned c).mp hreturned
    have hnil : unshown s.net c = [] := List.length_eq_zero_iff.mp (by omega)
    refine ⟨List.ne_nil_of_length_pos (by omega), ?_⟩
    exact fun p hp => unshown_eq_nil.mp hnil p (List.mem_append_right _ hp)
  · rintro ⟨hhosts, hlost⟩
    by_contra hreturned
    have hnil : unshown s.net c = [] := by
      refine unshown_eq_nil.mpr fun p hp => ?_
      rcases List.mem_append.mp hp with hp | hp
      · rintro rfl
        exact hreturned (h.onWay hi hp)
      · exact hlost p hp
    rw [hnil, List.length_nil, Nat.zero_add] at hlength
    have hpos := List.length_pos_iff.mpr hhosts
    exact hreturned ((ha.returned c).mpr ⟨by omega, hlength⟩)

/-- Without a loss nothing is lost. -/
theorem once_lost {w : World Host Client} {s : State Host Client}
    (h : (once w).Within (fun _ a => a.event.loses = false) s) : s.net.lost = [] := by
  refine h.induct (I := fun s => s.net.lost = []) rfl ?_
  intro s a t hr hi hloses hst
  have hp := (performs_of_step (once_inv hr) (once_step.mp hst).2).2
  cases he : a.event with
  | lose i => exact absurd hloses (by simp [he, Event.loses])
  | duplicate i => exact absurd (once_step.mp hst).1 (by simp [he, Event.duplicates])
  | send c | serve i | receive i =>
    rw [he] at hp
    cases hp
    exact hi

/-- **Without duplicates every client gets one reply to each of its requests, unless a datagram is
lost.**  Whatever is lost, no request is answered twice, a client that returns has printed exactly
its hosts, and when everything has come to rest a client that asked somebody has returned exactly if
none of its datagrams was lost: else it waits for ever. -/
theorem exchanges_end [Fintype Client] (w : World Host Client)
    (hlen : ∀ c, (w.remoteHosts c).length < 2 ^ 32) :
    (once w).Ends (fun _ a => a.event.loses = false) (∑ c, 3 * (w.remoteHosts c).length)
      (fun s => ∀ c, w.remoteHosts c ≠ [] → (s.clients c).returned = true) ∧
    ∀ s, (once w).Reachable s → ∀ c,
      ((s.clients c).shown.map (·.host)).Subperm (w.remoteHosts c) ∧
      ((s.clients c).returned = true →
        ((s.clients c).shown.map (·.host)).Perm (w.remoteHosts c)) ∧
      (Quiet w s → ((s.clients c).returned = true ↔
        w.remoteHosts c ≠ [] ∧ ∀ p ∈ s.net.lost, p.client ≠ c)) := by
  refine ⟨⟨?_, ?_⟩, ?_⟩
  · intro as s hrun
    have hlength := (once_decreases w).length_add_le Machine.reachable_init hrun
    exact le_trans (Nat.le_add_right _ _) hlength
  · intro s hs hnot
    by_contra hstuck
    have hquiet : Quiet w s := by
      intro a ha
      by_contra hsome
      obtain ⟨t, ht⟩ := Option.ne_none_iff_exists'.mp hsome
      exact hstuck ⟨a, t, ha, ht⟩
    have hlost : s.net.lost = [] := once_lost hs
    refine hnot fun c hc => (hquiet.returned_iff (once_inv hs.reachable)
      (once_accounts hlen hs.reachable) c).mpr ⟨hc, ?_⟩
    simp [hlost]
  · intro s hs c
    have ha := once_accounts hlen hs
    have hsub : ((s.clients c).shown.map (·.host)).Subperm (w.remoteHosts c) := by
      refine List.Subperm.trans (List.Sublist.subperm ?_) (ha.hosts c).subperm
      exact (List.sublist_append_right _ _).trans (List.sublist_append_right _ _)
    refine ⟨hsub, ?_, fun hquiet => hquiet.returned_iff (once_inv hs) ha c⟩
    intro hreturned
    have hall := ((ha.returned c).mp hreturned).2
    exact hsub.perm_of_length_le (by rw [List.length_map, hall])

/-- A client of two hosts. -/
def two : World Bool Unit where
  remoteHosts _ := [false, true]
  serverClock _ _ := 0
  clientClock _ _ := 0

/-- `exchanges_end` for a client of two hosts: it can always get both replies. -/
theorem exchanges_end_two :
    ∃ s, (once two).Reachable s ∧ (s.clients ()).returned = true ∧
      ((s.clients ()).shown.map (·.host)).Perm [false, true] := by
  have hend := exchanges_end two fun _ => (by decide : 2 < 2 ^ 32)
  obtain ⟨as, s, hrun, -, hreturned⟩ :=
    hend.1.exists_finish (s := (once two).init) ⟨[], rfl, trivial⟩
  have hback := hreturned () (by simp [two])
  exact ⟨s, ⟨as, hrun⟩, hback, (hend.2 s ⟨as, hrun⟩ ()).2.1 hback⟩

/-- With a duplicate the client returns although nobody has answered its second request. -/
example : ((machine two).run (machine two).init
    [⟨1, .send ()⟩, ⟨2, .duplicate 0⟩, ⟨3, .serve 0⟩, ⟨4, .serve 0⟩, ⟨5, .send ()⟩,
      ⟨6, .receive 0⟩, ⟨7, .receive 0⟩]).map
      (fun s => ((s.clients ()).returned, (s.clients ()).shown.map (·.host))) =
    some (true, [false, false]) := by decide +kernel

end TimeNetwork
end JavaStudy
