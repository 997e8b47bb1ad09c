/-
# `NIOServerThread`: one thread that serves every client

The loop selects the keys that are ready and handles one after the other.  A client's key carries a
buffer of 1024 bytes that is cleared before each read; what was read is decoded as UTF-8 at once,
each time by a new decoder, and a decoder that meets an incomplete or malformed character throws.
The exception is an `IOException`, and its `catch` clause is outside the loop.

The channel operations do not fail here.  A label says which keys are ready, how many bytes a read
transfers and which (`eof` for -1), how many bytes a write takes, and what the clock says.

* `decoded_iff`: a valid stream is decoded read by read exactly if no read begins in the middle of
  a character.
* `alive_iff`: the loop goes on exactly as long as what each single read has got is well-formed.
-/
import JavaStudy.Lib.Machine
import JavaStudy.Lib.ByteBuffer
import JavaStudy.Lib.Utf8

namespace JavaStudy
namespace NIOServerThread

open JavaText

/-! ## 1. One read -/

/-- `ByteBuffer.allocate(1024)`. -/
def CAPACITY : Nat := 1024

/-- The buffer is cleared, filled by the read, flipped and decoded: the buffer afterwards and the
string, none if the decoder throws.  A read does not transfer more than there is room for. -/
def receive (buffer : ByteBuffer) (bytes : List Byte) : Option (ByteBuffer × Option JString) :=
  (buffer.clear.put bytes).bind fun buffer =>
    (buffer.flip.take buffer.flip.remaining).map fun r => (r.2, Utf8.decode r.1)

/-- The strings of successive reads into one buffer; none if one of them throws. -/
def receiveAll : ByteBuffer → List (List Byte) → Option (List JString)
  | _, [] => some []
  | buffer, bytes :: reads =>
    match receive buffer bytes with
    | some (buffer, some receivedString) =>
      (receiveAll buffer reads).map (receivedString :: ·)
    | _ => none

/-- **What one read yields**: its own bytes, decoded by themselves. -/
theorem receive_spec {buffer : ByteBuffer} {bytes : List Byte}
    (h : bytes.length ≤ buffer.capacity) :
    ∃ buffer', receive buffer bytes = some (buffer', Utf8.decode bytes) ∧
      buffer'.capacity = buffer.capacity := by
  obtain ⟨filled, hput, hfilled⟩ := ByteBuffer.exists_put (b := buffer.clear) h
  obtain ⟨taken, htake, htaken⟩ := filled.flip.exists_take_remaining
  have hcontent : filled.flip.content = bytes := ByteBuffer.content_flip_put rfl hput
  refine ⟨taken, ?_, ?_⟩
  · rw [receive, hput, Option.bind_some, htake, hcontent]
    rfl
  · calc taken.capacity = filled.capacity := htaken
      _ = buffer.capacity := hfilled

/-- A read that there is no room for does not happen. -/
theorem length_le_of_receive {buffer buffer' : ByteBuffer} {bytes : List Byte}
    {received : Option JString} (h : receive buffer bytes = some (buffer', received)) :
    bytes.length ≤ buffer.capacity := by
  obtain ⟨filled, hput, -⟩ := Option.bind_eq_some_iff.mp h
  by_contra hlong
  have hnone : buffer.clear.put bytes = none := dif_neg hlong
  rw [hnone] at hput
  cases hput

/-- The reads are decoded one by one. -/
theorem receiveAll_eq {buffer : ByteBuffer} {reads : List (List Byte)}
    (h : ∀ bytes ∈ reads, bytes.length ≤ buffer.capacity) :
    receiveAll buffer reads = reads.mapM Utf8.decode := by
  induction reads generalizing buffer with
  | nil => rfl
  | cons bytes reads ih =>
    obtain ⟨buffer', hreceive, hcapacity⟩ := receive_spec (h bytes List.mem_cons_self)
    have hreads : ∀ b ∈ reads, b.length ≤ buffer'.capacity := by
      intro b hb
      rw [hcapacity]
      exact h b (List.mem_cons_of_mem _ hb)
    rw [receiveAll, hreceive, Utf8.mapM_decode_cons]
    cases Utf8.decode bytes with
    | none => rfl
    | some receivedString => exact congrArg (Option.map (receivedString :: ·)) (ih hreads)

theorem receiveAll_allocate {reads : List (List Byte)}
    (h : ∀ bytes ∈ reads, bytes.length ≤ CAPACITY) :
    receiveAll (.allocate CAPACITY) reads = reads.mapM Utf8.decode := by
  refine receiveAll_eq ?_
  intro bytes hbytes
  rw [ByteBuffer.capacity_allocate]
  exact h bytes hbytes

theorem mapM_concat {α β : Type} {f : α → Option β} {l : List α} {ys : List β} {x : α} {y : β}
    (hl : l.mapM f = some ys) (hx : f x = some y) : (l ++ [x]).mapM f = some (ys ++ [y]) := by
  rw [List.mapM_append, hl]
  simp [hx]

/-- **A valid stream is decoded read by read, to what the whole stream stands for, exactly if no
read begins in the middle of a character.** -/
theorem decoded_iff {reads : List (List Byte)}
    (hsize : ∀ bytes ∈ reads, 1 ≤ bytes.length ∧ bytes.length ≤ CAPACITY)
    (hvalid : Utf8.WellFormed reads.flatten) :
    (∃ received, receiveAll (.allocate CAPACITY) reads = some received ∧
        Utf8.decode reads.flatten = some received.flatten) ↔
      ∀ bytes ∈ reads, Utf8.Aligned bytes := by
  obtain ⟨text, htext⟩ := hvalid
  have hne : ∀ bytes ∈ reads, bytes ≠ [] := by
    rintro bytes hbytes rfl
    exact absurd (hsize [] hbytes).1 (by decide)
  have hall : receiveAll (.allocate CAPACITY) reads = reads.mapM Utf8.decode :=
    receiveAll_allocate fun bytes hbytes => (hsize bytes hbytes).2
  rw [← Utf8.decode_chunks_iff hne htext, Option.map_eq_some_iff, hall, htext, Utf8.decode_encode]
  simp only [Option.some.injEq, eq_comm]

/-- `decoded_iff` for a text of three characters in two reads. -/
theorem decoded_iff_whole :
    ∃ received, receiveAll (.allocate CAPACITY) [[0x61, 0xC3, 0xA9], [0x62]] = some received ∧
      Utf8.decode [[0x61, 0xC3, 0xA9], [0x62]].flatten = some received.flatten :=
  (decoded_iff (by decide) (by decide)).mpr (by decide)

/-- A character of two bytes that come in two reads. -/
theorem character_split :
    ¬ ∀ reads : List (List Byte), (∀ bytes ∈ reads, 1 ≤ bytes.length ∧ bytes.length ≤ CAPACITY) →
      Utf8.WellFormed reads.flatten →
      ∃ received, receiveAll (.allocate CAPACITY) reads = some received ∧
        Utf8.decode reads.flatten = some received.flatten := by
  intro h
  obtain ⟨received, hreceived, -⟩ := h [[0xC3], [0xA9]] (by decide) (by decide)
  rw [receiveAll_allocate (by decide)] at hreceived
  exact absurd (Utf8.aligned_of_mapM hreceived) (by decide)

/-! ## 2. The loop -/

/-- What `getBytes("UTF-16")` makes of a string: the byte order mark, and the high byte of each unit
before the low one. -/
def utf16 (s : JString) : List Byte :=
  0xFE :: 0xFF :: s.flatMap fun c : JChar => [(c >>> 8).setWidth 8, c.setWidth 8]

def sendString (date receivedString : JString) : JString :=
  "你好,客户端. @".toList.map unit ++ date ++ "，已经收到你的信息".toList.map unit ++ receivedString

/-- A client's channel, with what is attached to its key. -/
structure Client where
  isOpen : Bool
  buffer : ByteBuffer
  /-- `OP_WRITE` is among the interest operations. -/
  writeInterest : Bool
  /-- What each read has got. -/
  reads : List (List Byte)
  /-- The `receivedString` of each read. -/
  received : List JString
  /-- What was written to the channel. -/
  sent : List Byte

def Client.new : Client := ⟨true, .allocate CAPACITY, false, [], [], []⟩

inductive Key where
  | server
  | client (i : Nat)
  deriving DecidableEq

/-- Where `run` stands. -/
inductive Pc where
  /-- It handles the selected keys that are left; with none left it selects again. -/
  | handling (keys : List Key)
  /-- It has left its loop. -/
  | stopped
  deriving DecidableEq

structure State where
  clients : List Client
  pc : Pc

/-- The key belongs to a channel that is registered and open. -/
def State.valid (s : State) : Key → Bool
  | .server => true
  | .client i => (s.clients[i]?.map Client.isOpen).getD false

inductive Act where
  /-- `select` returns, with these keys ready. -/
  | select (keys : List Key)
  /-- The server's key is acceptable. -/
  | accept
  /-- A client's key is readable and the read gets these bytes; `written` bytes of the reply are
  taken by the write. -/
  | read (bytes : List Byte) (date : JString) (written : Nat)
  /-- A client's key is readable and the read returns -1. -/
  | eof
  /-- A client's key is only writable. -/
  | skip

/-- What the loop does with a client after a read. -/
def Client.answer (client : Client) (bytes : List Byte) (buffer : ByteBuffer)
    (receivedString date : JString) (written : Nat) : Client where
  isOpen := client.isOpen
  buffer := buffer
  writeInterest := true
  reads := client.reads ++ [bytes]
  received := client.received ++ [receivedString]
  sent := client.sent ++ (utf16 (sendString date receivedString)).take written

def step (s : State) : Act → Option State
  | .select keys =>
    if s.pc = .handling [] ∧ keys.Nodup ∧ keys.all s.valid = true then
      some { s with pc := .handling keys }
    else none
  | .accept =>
    match s.pc with
    | .handling (.server :: keys) => some ⟨s.clients ++ [.new], .handling keys⟩
    | _ => none
  | .read bytes date written =>
    match s.pc with
    | .handling (.client i :: keys) =>
      s.clients[i]?.bind fun client =>
        match receive client.buffer bytes with
        | some (buffer, some receivedString) =>
          some ⟨s.clients.set i (client.answer bytes buffer receivedString date written),
            .handling keys⟩
        -- the decoder throws, and the `catch` clause is outside the loop
        | some (_, none) => some { s with pc := .stopped }
        | none => none
    | _ => none
  | .eof =>
    match s.pc with
    | .handling (.client i :: keys) =>
      s.clients[i]?.map fun client =>
        ⟨s.clients.set i { client with isOpen := false }, .handling keys⟩
    | _ => none
  | .skip =>
    match s.pc with
    | .handling (.client i :: keys) =>
      if (s.clients[i]?.map Client.writeInterest).getD false = true then
        some { s with pc := .handling keys }
      else none
    | _ => none

/-- The loop, with no client yet. -/
def machine : Machine State Act := ⟨⟨[], .handling []⟩, step⟩

/-! ## 3. What every client's buffer yields -/

/-- A client's strings are those of its reads, which its own buffer has held one after the other. -/
structure Served (client : Client) : Prop where
  capacity : client.buffer.capacity = CAPACITY
  size : ∀ bytes ∈ client.reads, bytes.length ≤ CAPACITY
  received : receiveAll (.allocate CAPACITY) client.reads = some client.received

def AllServed (s : State) : Prop := ∀ client ∈ s.clients, Served client

/-- What a step does. -/
inductive Stepped (s : State) : Act → State → Prop where
  | selected (keys : List Key) (hpc : s.pc = .handling []) :
      Stepped s (.select keys) { s with pc := .handling keys }
  | accepted (keys : List Key) (hpc : s.pc = .handling (.server :: keys)) :
      Stepped s .accept ⟨s.clients ++ [.new], .handling keys⟩
  | read (bytes : List Byte) (date : JString) (written i : Nat) (keys : List Key) (client : Client)
      (buffer : ByteBuffer) (receivedString : JString) (hpc : s.pc = .handling (.client i :: keys))
      (hi : s.clients[i]? = some client)
      (hreceive : receive client.buffer bytes = some (buffer, some receivedString)) :
      Stepped s (.read bytes date written)
        ⟨s.clients.set i (client.answer bytes buffer receivedString date written),
          .handling keys⟩
  | threw (bytes : List Byte) (date : JString) (written i : Nat) (keys : List Key) (client : Client)
      (buffer : ByteBuffer) (hpc : s.pc = .handling (.client i :: keys))
      (hi : s.clients[i]? = some client)
      (hreceive : receive client.buffer bytes = some (buffer, none)) :
      Stepped s (.read bytes date written) { s with pc := .stopped }
  | closed (i : Nat) (keys : List Key) (client : Client)
      (hpc : s.pc = .handling (.client i :: keys)) (hi : s.clients[i]? = some client) :
      Stepped s .eof ⟨s.clients.set i { client with isOpen := false }, .handling keys⟩
  | skipped (i : Nat) (keys : List Key) (hpc : s.pc = .handling (.client i :: keys)) :
      Stepped s .skip { s with pc := .handling keys }

theorem step_cases {s t : State} {a : Act} (h : step s a = some t) : Stepped s a t := by
  cases a with
  | select keys =>
    simp only [step, Option.ite_none_right_eq_some, Option.some.injEq] at h
    obtain ⟨⟨hpc, -, -⟩, rfl⟩ := h
    exact .selected keys hpc
  | accept =>
    simp only [step] at h
    split at h
    · rename_i keys hpc
      cases h
      exact .accepted keys hpc
    · exact absurd h (by simp)
  | read bytes date written =>
    simp only [step] at h
    split at h
    · rename_i i keys hpc
      obtain ⟨client, hi, h⟩ := Option.bind_eq_some_iff.mp h
      split at h
      · rename_i buffer receivedString hreceive
        cases h
        exact .read bytes date written i keys client buffer receivedString hpc hi hreceive
      · rename_i buffer hreceive
        cases h
        exact .threw bytes date written i keys client buffer hpc hi hreceive
      · exact absurd h (by simp)
    · exact absurd h (by simp)
  | eof =>
    simp only [step] at h
    split at h
    · rename_i i keys hpc
      obtain ⟨client, hi, rfl⟩ := Option.map_eq_some_iff.mp h
      exact .closed i keys client hpc hi
    · exact absurd h (by simp)
  | skip =>
    simp only [step] at h
    split at h
    · rename_i i keys hpc
      simp only [Option.ite_none_right_eq_some, Option.some.injEq] at h
      obtain ⟨-, rfl⟩ := h
      exact .skipped i keys hpc
    · exact absurd h (by simp)

/-- **A step keeps every client's account**, whoever it is about. -/
theorem allServed_step {s t : State} {a : Act} (hs : AllServed s) (h : Stepped s a t) :
    AllServed t := by
  -- one client changes
  have hset : ∀ {i : Nat} {client : Client}, Served client →
      ∀ c ∈ s.clients.set i client, Served c := by
    intro i client hclient c hc
    rcases List.mem_or_eq_of_mem_set hc with hc | rfl
    · exact hs c hc
    · exact hclient
  cases h with
  | selected keys hpc => exact hs
  | accepted keys hpc =>
    intro client hclient
    rcases List.mem_append.mp hclient with hclient | hclient
    · exact hs client hclient
    · rw [List.mem_singleton.mp hclient]
      exact ⟨ByteBuffer.capacity_allocate CAPACITY, nofun, rfl⟩
  | read bytes date written i keys client buffer receivedString hpc hi hreceive =>
    have hserved := hs client (List.mem_of_getElem? hi)
    have hlen := length_le_of_receive hreceive
    obtain ⟨buffer', hspec, hcapacity⟩ := receive_spec hlen
    rw [hreceive, Option.some.injEq, Prod.mk.injEq] at hspec
    obtain ⟨rfl, hdecode⟩ := hspec
    have hsize : ∀ b ∈ client.reads ++ [bytes], b.length ≤ CAPACITY := by
      intro b hb
      rcases List.mem_append.mp hb with hb | hb
      · exact hserved.size b hb
      · rw [List.mem_singleton.mp hb, ← hserved.capacity]
        exact hlen
    refine hset ⟨hcapacity.trans hserved.capacity, hsize, ?_⟩
    have hold := hserved.received
    rw [receiveAll_allocate hserved.size] at hold
    exact (receiveAll_allocate hsize).trans (mapM_concat hold hdecode.symm)
  | threw bytes date written i keys client buffer hpc hi hreceive => exact hs
  | closed i keys client hpc hi =>
    have hserved := hs client (List.mem_of_getElem? hi)
    exact hset ⟨hserved.capacity, hserved.size, hserved.received⟩
  | skipped i keys hpc => exact hs

theorem reachable_allServed {s : State} (h : machine.Reachable s) : AllServed s :=
  h.induct (I := AllServed) (fun _ hc => absurd hc List.not_mem_nil)
    fun _ _ _ _ hs hst => allServed_step hs (step_cases hst)

/-- **Interleaving does not matter**: in every reachable state the strings of a client are those of
its own reads, decoded one by one. -/
theorem received_eq {s : State} (h : machine.Reachable s) {client : Client}
    (hclient : client ∈ s.clients) :
    client.reads.mapM Utf8.decode = some client.received := by
  have hserved := reachable_allServed h client hclient
  rw [← receiveAll_allocate hserved.size]
  exact hserved.received

/-! ## 4. What ends the loop -/

/-- The bytes that a read gets are well-formed by themselves. -/
def Act.WellFormed : Act → Prop
  | .read bytes _ _ => Utf8.WellFormed bytes
  | _ => True

instance decidableWellFormed : ∀ a : Act, Decidable a.WellFormed
  | .read bytes _ _ => inferInstanceAs (Decidable (Utf8.WellFormed bytes))
  | .select _ => .isTrue trivial
  | .accept => .isTrue trivial
  | .eof => .isTrue trivial
  | .skip => .isTrue trivial

/-- **A step leaves the loop exactly if it reads bytes that are not well-formed.** -/
theorem alive_step {s t : State} {a : Act} (h : Stepped s a t) :
    t.pc ≠ .stopped ↔ a.WellFormed := by
  cases h with
  | selected keys hpc => exact iff_of_true nofun trivial
  | accepted keys hpc => exact iff_of_true nofun trivial
  | read bytes date written i keys client buffer receivedString hpc hi hreceive =>
    obtain ⟨buffer', hspec, -⟩ := receive_spec (length_le_of_receive hreceive)
    rw [hreceive, Option.some.injEq, Prod.mk.injEq] at hspec
    refine iff_of_true nofun (Utf8.decode_isSome_iff.mp ?_)
    rw [← hspec.2]
    rfl
  | threw bytes date written i keys client buffer hpc hi hreceive =>
    obtain ⟨buffer', hspec, -⟩ := receive_spec (length_le_of_receive hreceive)
    rw [hreceive, Option.some.injEq, Prod.mk.injEq] at hspec
    refine iff_of_false (fun hne => hne rfl) ?_
    intro hformed
    rw [Act.WellFormed, ← Utf8.decode_isSome_iff, ← hspec.2] at hformed
    cases hformed
  | closed i keys client hpc hi => exact iff_of_true nofun trivial
  | skipped i keys hpc => exact iff_of_true nofun trivial

/-- Once the loop is left, nobody is served. -/
theorem step_stopped {s : State} (h : s.pc = .stopped) (a : Act) : step s a = none := by
  cases a with
  | select keys =>
    rw [step, if_neg]
    rw [h]
    exact nofun
  | _ => simp only [step, h]

/-- A read that there is room for happens, whatever it gets. -/
theorem exists_read {s : State} {i : Nat} {keys : List Key} {client : Client}
    (hpc : s.pc = .handling (.client i :: keys)) (hi : s.clients[i]? = some client)
    {bytes : List Byte} (hlen : bytes.length ≤ client.buffer.capacity) (date : JString)
    (written : Nat) : ∃ t, step s (.read bytes date written) = some t := by
  obtain ⟨buffer, hreceive, -⟩ := receive_spec hlen
  cases hdecode : Utf8.decode bytes with
  | some receivedString =>
    rw [hdecode] at hreceive
    simp only [step, hpc, hi, Option.bind_some, hreceive]
    exact ⟨_, rfl⟩
  | none =>
    rw [hdecode] at hreceive
    simp only [step, hpc, hi, Option.bind_some, hreceive]
    exact ⟨_, rfl⟩

/-- **The loop goes on throughout a run exactly if every read of it, whichever client's, gets bytes
that are well-formed by themselves.** -/
theorem alive_iff (as : List Act) {s : State} (h : machine.run machine.init as = some s) :
    machine.Along (fun s => s.pc ≠ .stopped) machine.init as ↔
      machine.Meets (fun _ a => a.WellFormed) machine.init as :=
  Machine.along_iff_meets nofun (fun _ _ _ _ _ hst => alive_step (step_cases hst)) h

/-- Two clients connect, and the second one's key is ready. -/
def connected : List Act :=
  [.select [.server], .accept, .select [.server], .accept, .select [.client 1]]

theorem connected_read (bytes : List Byte) (hlen : bytes.length ≤ CAPACITY) :
    ∃ s t, machine.run machine.init connected = some s ∧ step s (.read bytes [] 20) = some t := by
  refine ⟨⟨[.new, .new], .handling [.client 1]⟩, ?_⟩
  have hlen' : bytes.length ≤ Client.new.buffer.capacity := by
    rwa [Client.new, ByteBuffer.capacity_allocate]
  obtain ⟨t, ht⟩ := exists_read (s := ⟨[.new, .new], .handling [.client 1]⟩) rfl rfl hlen' [] 20
  exact ⟨t, rfl, ht⟩

/-- `alive_iff` where the second client sends a character of two bytes. -/
theorem alive_iff_connected :
    machine.Along (fun s => s.pc ≠ .stopped) machine.init
      (connected ++ [.read [0xC3, 0xA9] [] 20]) := by
  obtain ⟨s, t, hs, ht⟩ := connected_read [0xC3, 0xA9] (by decide)
  have hrun : machine.run machine.init (connected ++ [.read [0xC3, 0xA9] [] 20]) = some t := by
    rw [Machine.run_concat, hs]
    exact ht
  refine (alive_iff _ hrun).mpr (Machine.meets_of_forall ?_ _)
  intro a ha _
  revert a
  decide

/-- The second client sends one malformed byte. -/
theorem loop_left : ¬ ∀ s, machine.Reachable s → s.pc ≠ .stopped := by
  intro h
  obtain ⟨s, t, hs, ht⟩ := connected_read [0xFF] (by decide)
  have hst : machine.step s (.read [0xFF] [] 20) = some t := ht
  have hreachable : machine.Reachable t := Machine.Reachable.step ⟨connected, hs⟩ hst
  have hformed := (alive_step (step_cases ht)).mp (h t hreachable)
  exact absurd hformed (by decide)

end NIOServerThread
end JavaStudy
