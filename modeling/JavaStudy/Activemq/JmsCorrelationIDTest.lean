/-
# `JmsCorrelationIDTest`: requests and replies in one queue

Named consumers select on the property `receiver`, which requests have and replies do not; the
consumer that waits for a reply selects on `JMSCorrelationID`, which replies have and requests do
not, and which a listener sets to the ID of the message that it answers.

The broker is a parameter: which messages a selector matches, and which IDs it assigns.  What the
scheme relies on is `Conforms`.  Messages are numbered in the order in which they are sent; each
carries in the model what it is (`Origin`) and where it is (`Place`), so the queue is the messages
at `.queued`.  A delivery takes a message out of the queue, for good; the order of deliveries, and
of everything else, is free.

* `Inv`: a message in the hands of a named consumer is a request for it, and a message in the hands
  of a waiting consumer is a reply to the request of its own producer.
* A reply points to a request, and that request points back (`.answered`); so there are no two
  replies to one request, and not more replies than requests.
-/
import JavaStudy.Lib.Machine
import JavaStudy.Lib.JavaText
import Mathlib.Tactic.IntervalCases

namespace JavaStudy
namespace JmsCorrelationIDTest

open JavaText

/-! ## 1. Messages and selectors -/

/-- A message, as far as selectors and listeners look at it; its `JMSMessageID` is the broker's. -/
structure Message where
  JMSCorrelationID : Option JString
  /-- The property `receiver`. -/
  receiver : Option JString
  text : JString
  deriving DecidableEq

def QUOTE : JChar := unit '\''

/-- `"receiver='" + name + "'"`. -/
def receiverSelector (name : JString) : JString := "receiver='".toList.map unit ++ name ++ [QUOTE]

/-- `"JMSCorrelationID='" + message.getJMSMessageID() + "'"`. -/
def correlationSelector (messageID : JString) : JString :=
  "JMSCorrelationID='".toList.map unit ++ messageID ++ [QUOTE]

/-- The message of `setupProducer`. -/
def requestMessage (name consumerName : JString) : Message where
  JMSCorrelationID := none
  receiver := some consumerName
  text := "Message from ".toList.map unit ++ name

/-- The reply of the listener of `setupConsumer`. -/
def replyMessage (name messageID : JString) : Message where
  JMSCorrelationID := some messageID
  receiver := none
  text := "Reply from ".toList.map unit ++ name

structure Broker where
  selects (selector : JString) (m : Message) : Bool
  /-- The `JMSMessageID` of the message with that number. -/
  messageID : Nat → JString

/-- What the scheme relies on. -/
structure Conforms (broker : Broker) : Prop where
  /-- A selector `property='literal'` matches no message in which the property is absent or
  another; a quote would end the literal. -/
  receiver : ∀ literal m, QUOTE ∉ literal →
    broker.selects (receiverSelector literal) m = true → m.receiver = some literal
  correlation : ∀ literal m, QUOTE ∉ literal →
    broker.selects (correlationSelector literal) m = true → m.JMSCorrelationID = some literal
  unique : Function.Injective broker.messageID
  plain : ∀ n, QUOTE ∉ broker.messageID n

/-! ## 2. The parties and the queue -/

/-- A consumer of the queue. -/
inductive Consumer where
  | named (name : JString)
  /-- The one with which a producer waits for the reply to its request. -/
  | reply (producer request : Nat)
  deriving DecidableEq

def Consumer.selector (broker : Broker) : Consumer → JString
  | .named name => receiverSelector name
  | .reply _ request => correlationSelector (broker.messageID request)

/-- What a message was sent as. -/
inductive Origin where
  | request (producer : Nat)
  /-- In answer to the message `request`. -/
  | reply (name : JString) (request : Nat)
  deriving DecidableEq

/-- Where a message is. -/
inductive Place where
  | queued
  /-- With the listener of that consumer. -/
  | given (consumer : Consumer)
  /-- The listener has sent the message `reply`. -/
  | answered (name : JString) (reply : Nat)
  /-- The listener has caught a `JMSException`. -/
  | failed (name : JString)
  deriving DecidableEq

/-- Whom the message was delivered to. -/
def Place.consumer : Place → Option Consumer
  | .queued => none
  | .given consumer => some consumer
  | .answered name _ => some (.named name)
  | .failed name => some (.named name)

structure Sent where
  message : Message
  origin : Origin
  place : Place
  deriving DecidableEq

structure State where
  /-- Every message that was ever sent. -/
  sent : List Sent
  consumers : List Consumer

inductive Act where
  | setupConsumer (name : JString)
  /-- `setupProducer` up to its `send`. -/
  | setupProducer (producer : Nat)
  /-- `setupProducer` creates its consumer. -/
  | createConsumer (producer request : Nat)
  /-- The broker delivers the message `n`. -/
  | deliver (n : Nat) (consumer : Consumer)
  /-- The listener that was given the message `n` sends its reply. -/
  | reply (n : Nat)
  /-- Something throws in that listener. -/
  | fail (n : Nat)
  deriving DecidableEq

def Sent.isRequest (e : Sent) : Bool :=
  match e.origin with
  | .request _ => true
  | .reply _ _ => false

def Sent.isAnswered (e : Sent) : Bool :=
  match e.place with
  | .answered _ _ => true
  | _ => false

/-- `names` are the consumers that are set up, `producers` the producers, each with its name and
the name of the consumer that it asks. -/
def step (broker : Broker) (names : List JString) (producers : List (JString × JString))
    (s : State) : Act → Option State
  | .setupConsumer name =>
    if name ∈ names ∧ .named name ∉ s.consumers then
      some { s with consumers := .named name :: s.consumers }
    else none
  | .setupProducer producer =>
    match producers[producer]? with
    | some (name, consumerName) =>
      if ∀ e ∈ s.sent, e.origin ≠ .request producer then
        some { s with
          sent := s.sent ++ [⟨requestMessage name consumerName, .request producer, .queued⟩] }
      else none
    | none => none
  | .createConsumer producer request =>
    if (s.sent[request]?).map (·.origin) = some (.request producer) ∧
        .reply producer request ∉ s.consumers then
      some { s with consumers := .reply producer request :: s.consumers }
    else none
  | .deliver n consumer =>
    match s.sent[n]? with
    | some e =>
      if e.place = .queued ∧ consumer ∈ s.consumers ∧
          broker.selects (consumer.selector broker) e.message = true then
        some { s with sent := s.sent.set n { e with place := .given consumer } }
      else none
    | none => none
  | .reply n =>
    match s.sent[n]? with
    | some e =>
      match e.place with
      | .given (.named name) =>
        some { s with
          sent := s.sent.set n { e with place := .answered name s.sent.length } ++
            [⟨replyMessage name (broker.messageID n), .reply name n, .queued⟩] }
      | _ => none
    | none => none
  | .fail n =>
    match s.sent[n]? with
    | some e =>
      match e.place with
      | .given (.named name) =>
        some { s with sent := s.sent.set n { e with place := .failed name } }
      | _ => none
    | none => none

def queue (broker : Broker) (names : List JString) (producers : List (JString × JString)) :
    Machine State Act where
  init := ⟨[], []⟩
  step := step broker names producers

/-! ## 3. The invariant -/

/-- What the message with that number was sent as. -/
def originOf (sent : List Sent) (n : Nat) : Option Origin := (sent[n]?).map (·.origin)

/-- How many replies were sent. -/
def replies (sent : List Sent) : Nat := sent.countP fun e => !e.isRequest

/-- How many messages were answered. -/
def answered (sent : List Sent) : Nat := sent.countP Sent.isAnswered

structure Inv (broker : Broker) (names : List JString) (s : State) : Prop where
  request : ∀ (n : Nat) (e : Sent) producer, s.sent[n]? = some e → e.origin = .request producer →
    e.message.JMSCorrelationID = none
  /-- A reply points to the message that it answers, and that one back. -/
  reply : ∀ (n : Nat) (e : Sent) name request, s.sent[n]? = some e →
    e.origin = .reply name request →
    e.message.receiver = none ∧ e.message.JMSCorrelationID = some (broker.messageID request) ∧
    ∃ q, s.sent[request]? = some q ∧ q.place = .answered name n
  named : ∀ (n : Nat) (e : Sent) name, s.sent[n]? = some e → e.place.consumer = some (.named name) →
    e.message.receiver = some name
  waiting : ∀ (n : Nat) (e : Sent) producer request, s.sent[n]? = some e →
    e.place.consumer = some (.reply producer request) →
    (∃ name, e.origin = .reply name request) ∧ originOf s.sent request = some (.request producer)
  consumer : ∀ name, .named name ∈ s.consumers → name ∈ names
  replyConsumer : ∀ producer request, .reply producer request ∈ s.consumers →
    originOf s.sent request = some (.request producer)
  /-- There are as many replies as messages that were answered. -/
  counted : replies s.sent = answered s.sent

variable {broker : Broker} {names : List JString} {producers : List (JString × JString)}

theorem inv_init : Inv broker names (queue broker names producers).init where
  request n e producer h := absurd h (by simp [queue])
  reply n e name request h := absurd h (by simp [queue])
  named n e name h := absurd h (by simp [queue])
  waiting n e producer request h := absurd h (by simp [queue])
  consumer name h := absurd h (by simp [queue])
  replyConsumer producer request h := absurd h (by simp [queue])
  counted := rfl

theorem getElem?_set_cases {sent : List Sent} {n m : Nat} {e f : Sent}
    (h : (sent.set n e)[m]? = some f) : (n = m ∧ f = e) ∨ (n ≠ m ∧ sent[m]? = some f) := by
  rw [List.getElem?_set] at h
  split at h
  · rename_i hnm
    split at h
    · cases h
      exact Or.inl ⟨hnm, rfl⟩
    · exact absurd h (by simp)
  · rename_i hnm
    exact Or.inr ⟨hnm, h⟩

/-- The last message, or one before it. -/
theorem getElem?_concat_cases {sent : List Sent} {m : Nat} {e f : Sent}
    (h : (sent ++ [e])[m]? = some f) : sent[m]? = some f ∨ (m = sent.length ∧ f = e) := by
  rw [List.getElem?_append] at h
  split at h
  · exact Or.inl h
  · rw [List.getElem?_singleton] at h
    split at h
    · cases h
      exact Or.inr ⟨by omega, rfl⟩
    · exact absurd h (by simp)

theorem lt_of_getElem?_eq_some {sent : List Sent} {n : Nat} {e : Sent} (h : sent[n]? = some e) :
    n < sent.length :=
  (List.getElem?_eq_some_iff.mp h).1

theorem getElem?_concat_of_some {sent : List Sent} {n : Nat} {e f : Sent}
    (h : sent[n]? = some f) : (sent ++ [e])[n]? = some f := by
  rw [List.getElem?_append_left (lt_of_getElem?_eq_some h)]
  exact h

theorem originOf_concat {sent : List Sent} {n : Nat} {e : Sent} {origin : Origin}
    (h : originOf sent n = some origin) : originOf (sent ++ [e]) n = some origin := by
  obtain ⟨f, hf, rfl⟩ := Option.map_eq_some_iff.mp h
  exact Option.map_eq_some_iff.mpr ⟨f, getElem?_concat_of_some hf, rfl⟩

/-- What a message was sent as stays. -/
theorem originOf_set {sent : List Sent} {n : Nat} {e : Sent} (h : sent[n]? = some e) (place : Place)
    (m : Nat) : originOf (sent.set n { e with place }) m = originOf sent m := by
  unfold originOf
  rw [List.getElem?_set]
  split
  · rename_i hnm
    rw [if_pos (lt_of_getElem?_eq_some h), ← hnm, h]
    rfl
  · rfl

theorem countP_set_of_some {sent : List Sent} {n : Nat} {e : Sent} (h : sent[n]? = some e)
    (p : Sent → Bool) (e' : Sent) :
    (sent.set n e').countP p + (if p e then 1 else 0) =
      sent.countP p + if p e' then 1 else 0 := by
  obtain ⟨hlt, rfl⟩ := List.getElem?_eq_some_iff.mp h
  have hle : (if p sent[n] then 1 else 0) ≤ sent.countP p := by
    split
    · exact List.countP_pos_iff.mpr ⟨_, List.getElem_mem hlt, by assumption⟩
    · exact Nat.zero_le _
  rw [List.countP_set hlt]
  omega

theorem replies_set {sent : List Sent} {n : Nat} {e : Sent} (h : sent[n]? = some e)
    (place : Place) : replies (sent.set n { e with place }) = replies sent := by
  have hcount := countP_set_of_some h (fun e => !e.isRequest) { e with place }
  have hsame : Sent.isRequest { e with place } = e.isRequest := rfl
  rw [hsame] at hcount
  exact Nat.add_right_cancel hcount

/-- A message that was not answered yet goes to another place. -/
theorem answered_set {sent : List Sent} {n : Nat} {e : Sent} (h : sent[n]? = some e)
    (hbefore : e.isAnswered = false) (place : Place) :
    answered (sent.set n { e with place }) =
      answered sent + if Sent.isAnswered { e with place } then 1 else 0 := by
  have hcount := countP_set_of_some h Sent.isAnswered { e with place }
  rw [hbefore] at hcount
  exact hcount

/-- A message that was answered stays when another one moves, which was not. -/
theorem getElem?_set_of_answered {sent : List Sent} {n request : Nat} {e q : Sent}
    (he : sent[n]? = some e) (hbefore : e.isAnswered = false) (hq : sent[request]? = some q)
    {name : JString} {reply : Nat} (hplace : q.place = .answered name reply) (moved : Sent) :
    (sent.set n moved)[request]? = some q := by
  rw [List.getElem?_set_ne, hq]
  rintro rfl
  rw [he, Option.some.injEq] at hq
  subst hq
  simp [Sent.isAnswered, hplace] at hbefore

/-! ## 4. Every step -/

/-- A message goes to another place, where it does not count as answered. -/
theorem Inv.place {s : State} (hi : Inv broker names s) {n : Nat} {e : Sent}
    (he : s.sent[n]? = some e) {place : Place} (hbefore : e.isAnswered = false)
    (hafter : Sent.isAnswered { e with place } = false)
    (hnamed : ∀ name, place.consumer = some (.named name) → e.message.receiver = some name)
    (hwaiting : ∀ producer request, place.consumer = some (.reply producer request) →
      (∃ name, e.origin = .reply name request) ∧
        originOf s.sent request = some (.request producer)) :
    Inv broker names { s with sent := s.sent.set n { e with place } } where
  request m f producer hf horigin := by
    rcases getElem?_set_cases hf with ⟨rfl, rfl⟩ | ⟨-, hf⟩
    · exact hi.request n e producer he horigin
    · exact hi.request m f producer hf horigin
  reply m f name request hf horigin := by
    rcases getElem?_set_cases hf with ⟨rfl, rfl⟩ | ⟨-, hf⟩
    · obtain ⟨hreceiver, hcorrelation, q, hq, hplace⟩ := hi.reply n e name request he horigin
      exact ⟨hreceiver, hcorrelation, q, getElem?_set_of_answered he hbefore hq hplace _, hplace⟩
    · obtain ⟨hreceiver, hcorrelation, q, hq, hplace⟩ := hi.reply m f name request hf horigin
      exact ⟨hreceiver, hcorrelation, q, getElem?_set_of_answered he hbefore hq hplace _, hplace⟩
  named m f name hf hconsumer := by
    rcases getElem?_set_cases hf with ⟨rfl, rfl⟩ | ⟨-, hf⟩
    · exact hnamed name hconsumer
    · exact hi.named m f name hf hconsumer
  waiting m f producer request hf hconsumer := by
    rw [originOf_set he]
    rcases getElem?_set_cases hf with ⟨rfl, rfl⟩ | ⟨-, hf⟩
    · exact hwaiting producer request hconsumer
    · exact hi.waiting m f producer request hf hconsumer
  consumer := hi.consumer
  replyConsumer producer request hmem := by
    rw [originOf_set he]
    exact hi.replyConsumer producer request hmem
  counted := by
    change replies (s.sent.set n { e with place }) = answered (s.sent.set n { e with place })
    rw [replies_set he, answered_set he hbefore, hafter]
    exact hi.counted

/-- A producer sends its request. -/
theorem Inv.send {s : State} (hi : Inv broker names s) (name consumerName : JString)
    (producer : Nat) :
    Inv broker names { s with
      sent := s.sent ++ [⟨requestMessage name consumerName, .request producer, .queued⟩] } where
  request m f p hf horigin := by
    rcases getElem?_concat_cases hf with hf | ⟨-, rfl⟩
    · exact hi.request m f p hf horigin
    · rfl
  reply m f replier request hf horigin := by
    rcases getElem?_concat_cases hf with hf | ⟨-, rfl⟩
    · obtain ⟨hreceiver, hcorrelation, q, hq, hplace⟩ := hi.reply m f replier request hf horigin
      exact ⟨hreceiver, hcorrelation, q, getElem?_concat_of_some hq, hplace⟩
    · exact absurd horigin (by simp)
  named m f receiver hf hconsumer := by
    rcases getElem?_concat_cases hf with hf | ⟨-, rfl⟩
    · exact hi.named m f receiver hf hconsumer
    · exact absurd hconsumer (by simp [Place.consumer])
  waiting m f p request hf hconsumer := by
    rcases getElem?_concat_cases hf with hf | ⟨-, rfl⟩
    · obtain ⟨hreply, hrequest⟩ := hi.waiting m f p request hf hconsumer
      exact ⟨hreply, originOf_concat hrequest⟩
    · exact absurd hconsumer (by simp [Place.consumer])
  consumer := hi.consumer
  replyConsumer p request hmem := originOf_concat (hi.replyConsumer p request hmem)
  counted := by
    have hcounted := hi.counted
    simp only [replies, answered, List.countP_append] at hcounted ⊢
    rw [hcounted]
    rfl

/-- A listener sends its reply. -/
theorem Inv.answer {s : State} (hi : Inv broker names s) {n : Nat} {e : Sent}
    (he : s.sent[n]? = some e) {name : JString} (hplace : e.place = .given (.named name)) :
    Inv broker names { s with
      sent := s.sent.set n { e with place := .answered name s.sent.length } ++
        [⟨replyMessage name (broker.messageID n), .reply name n, .queued⟩] } where
  request m f producer hf horigin := by
    rcases getElem?_concat_cases hf with hf | ⟨-, rfl⟩
    · rcases getElem?_set_cases hf with ⟨rfl, rfl⟩ | ⟨-, hf⟩
      · exact hi.request n e producer he horigin
      · exact hi.request m f producer hf horigin
    · exact absurd horigin (by simp)
  reply m f replier request hf horigin := by
    have hbefore : e.isAnswered = false := by simp only [Sent.isAnswered, hplace]
    rcases getElem?_concat_cases hf with hf | ⟨rfl, rfl⟩
    · rcases getElem?_set_cases hf with ⟨rfl, rfl⟩ | ⟨-, hf⟩
      · obtain ⟨hreceiver, hcorrelation, q, hq, hq'⟩ := hi.reply n e replier request he horigin
        refine ⟨hreceiver, hcorrelation, q, getElem?_concat_of_some ?_, hq'⟩
        exact getElem?_set_of_answered he hbefore hq hq' _
      · obtain ⟨hreceiver, hcorrelation, q, hq, hq'⟩ := hi.reply m f replier request hf horigin
        refine ⟨hreceiver, hcorrelation, q, getElem?_concat_of_some ?_, hq'⟩
        exact getElem?_set_of_answered he hbefore hq hq' _
    · cases horigin
      refine ⟨rfl, rfl, { e with place := .answered name s.sent.length }, ?_, by simp⟩
      refine getElem?_concat_of_some ?_
      rw [List.getElem?_set_self (lt_of_getElem?_eq_some he)]
  named m f receiver hf hconsumer := by
    rcases getElem?_concat_cases hf with hf | ⟨-, rfl⟩
    · rcases getElem?_set_cases hf with ⟨rfl, rfl⟩ | ⟨-, hf⟩
      · refine hi.named n e receiver he ?_
        rw [hplace]
        exact hconsumer
      · exact hi.named m f receiver hf hconsumer
    · exact absurd hconsumer (by simp [Place.consumer])
  waiting m f producer request hf hconsumer := by
    rcases getElem?_concat_cases hf with hf | ⟨-, rfl⟩
    · rcases getElem?_set_cases hf with ⟨rfl, rfl⟩ | ⟨-, hf⟩
      · exact absurd hconsumer (by simp [Place.consumer])
      · obtain ⟨hreply, hrequest⟩ := hi.waiting m f producer request hf hconsumer
        refine ⟨hreply, originOf_concat ?_⟩
        rw [originOf_set he]
        exact hrequest
    · exact absurd hconsumer (by simp [Place.consumer])
  consumer := hi.consumer
  replyConsumer producer request hmem := by
    refine originOf_concat ?_
    rw [originOf_set he]
    exact hi.replyConsumer producer request hmem
  counted := by
    have hbefore : e.isAnswered = false := by simp only [Sent.isAnswered, hplace]
    have hreplies := replies_set he (.answered name s.sent.length)
    have hanswered := answered_set he hbefore (.answered name s.sent.length)
    have hcounted := hi.counted
    simp only [replies, answered] at hreplies hanswered hcounted ⊢
    rw [List.countP_append, List.countP_append, hreplies, hanswered, hcounted]
    rfl

/-- The broker delivers a message. -/
theorem Inv.deliver (hb : Conforms broker) (hnames : ∀ name ∈ names, QUOTE ∉ name) {s : State}
    (hi : Inv broker names s) {n : Nat} {e : Sent} (he : s.sent[n]? = some e)
    (hqueued : e.place = .queued) {consumer : Consumer} (hmem : consumer ∈ s.consumers)
    (hselects : broker.selects (consumer.selector broker) e.message = true) :
    Inv broker names { s with sent := s.sent.set n { e with place := .given consumer } } := by
  refine hi.place he (by simp only [Sent.isAnswered, hqueued]) rfl ?_ ?_
  · rintro name ⟨⟩
    exact hb.receiver name e.message (hnames name (hi.consumer name hmem)) hselects
  · rintro producer request ⟨⟩
    have hcorrelation : e.message.JMSCorrelationID = some (broker.messageID request) :=
      hb.correlation _ e.message (hb.plain request) hselects
    refine ⟨?_, hi.replyConsumer producer request hmem⟩
    cases horigin : e.origin with
    | request other =>
      rw [hi.request n e other he horigin] at hcorrelation
      exact absurd hcorrelation (by simp)
    | reply name other =>
      rw [(hi.reply n e name other he horigin).2.1, Option.some.injEq] at hcorrelation
      exact ⟨name, by rw [hb.unique hcorrelation]⟩

theorem step_inv (hb : Conforms broker) (hnames : ∀ name ∈ names, QUOTE ∉ name) {s t : State}
    {a : Act} (hi : Inv broker names s) (h : step broker names producers s a = some t) :
    Inv broker names t := by
  cases a with
  | setupConsumer name =>
    simp only [step, Option.ite_none_right_eq_some, Option.some.injEq] at h
    obtain ⟨⟨hname, -⟩, rfl⟩ := h
    refine ⟨hi.request, hi.reply, hi.named, hi.waiting, ?_, ?_, hi.counted⟩
    · intro other hother
      rcases List.mem_cons.mp hother with hother | hother
      · cases hother
        exact hname
      · exact hi.consumer other hother
    · intro producer request hmem
      rcases List.mem_cons.mp hmem with hmem | hmem
      · exact absurd hmem (by simp)
      · exact hi.replyConsumer producer request hmem
  | setupProducer producer =>
    simp only [step] at h
    split at h
    · rw [Option.ite_none_right_eq_some, Option.some.injEq] at h
      obtain ⟨-, rfl⟩ := h
      exact hi.send _ _ producer
    · exact absurd h (by simp)
  | createConsumer producer request =>
    simp only [step, Option.ite_none_right_eq_some, Option.some.injEq] at h
    obtain ⟨⟨hrequest, -⟩, rfl⟩ := h
    refine ⟨hi.request, hi.reply, hi.named, hi.waiting, ?_, ?_, hi.counted⟩
    · intro name hname
      rcases List.mem_cons.mp hname with hname | hname
      · exact absurd hname (by simp)
      · exact hi.consumer name hname
    · intro p r hmem
      rcases List.mem_cons.mp hmem with hmem | hmem
      · cases hmem
        exact hrequest
      · exact hi.replyConsumer p r hmem
  | deliver n consumer =>
    simp only [step] at h
    split at h
    · rename_i e he
      rw [Option.ite_none_right_eq_some, Option.some.injEq] at h
      obtain ⟨⟨hqueued, hmem, hselects⟩, rfl⟩ := h
      exact hi.deliver hb hnames he hqueued hmem hselects
    · exact absurd h (by simp)
  | reply n =>
    simp only [step] at h
    split at h
    · rename_i e he
      split at h
      · rename_i name hplace
        cases h
        exact hi.answer he hplace
      · exact absurd h (by simp)
    · exact absurd h (by simp)
  | fail n =>
    simp only [step] at h
    split at h
    · rename_i e he
      split at h
      · rename_i name hplace
        cases h
        have hbefore : e.isAnswered = false := by simp only [Sent.isAnswered, hplace]
        refine hi.place he hbefore rfl ?_ (by simp [Place.consumer])
        rintro other ⟨⟩
        exact hi.named n e name he (by rw [hplace]; rfl)
      · exact absurd h (by simp)
    · exact absurd h (by simp)

theorem reachable_inv (hb : Conforms broker) (hnames : ∀ name ∈ names, QUOTE ∉ name) {s : State}
    (h : (queue broker names producers).Reachable s) : Inv broker names s :=
  h.induct inv_init fun _ _ _ _ hi hst => step_inv hb hnames hi hst

/-! ## 5. What every party gets -/

/-- A named consumer gets requests only. -/
theorem Inv.origin_of_named {s : State} (hi : Inv broker names s) {n : Nat} {e : Sent}
    (he : s.sent[n]? = some e) {name : JString}
    (hconsumer : e.place.consumer = some (.named name)) :
    ∃ producer, e.origin = .request producer := by
  cases horigin : e.origin with
  | request producer => exact ⟨producer, rfl⟩
  | reply replier request =>
    have hreceiver := hi.named n e name he hconsumer
    rw [(hi.reply n e replier request he horigin).1] at hreceiver
    exact absurd hreceiver (by simp)

/-- Only requests are answered, so there are not more replies than requests. -/
theorem Inv.replies_le {s : State} (hi : Inv broker names s) :
    replies s.sent ≤ s.sent.countP Sent.isRequest := by
  rw [hi.counted]
  refine List.countP_mono_left ?_
  intro e hmem hanswered
  obtain ⟨n, he⟩ := List.getElem?_of_mem hmem
  have hconsumer : ∃ name, e.place.consumer = some (.named name) := by
    unfold Sent.isAnswered at hanswered
    split at hanswered
    · rename_i name reply hplace
      exact ⟨name, by rw [hplace]; rfl⟩
    · exact absurd hanswered (by simp)
  obtain ⟨name, hconsumer⟩ := hconsumer
  obtain ⟨producer, horigin⟩ := hi.origin_of_named he hconsumer
  simp only [Sent.isRequest, horigin]

/-- The scheme works out: whatever was delivered went to the right party, and nothing feeds back. -/
structure Routed (s : State) : Prop where
  /-- A named consumer's listener gets requests for it, and no replies. -/
  own : ∀ (n : Nat) (e : Sent) name, s.sent[n]? = some e →
    e.place.consumer = some (.named name) →
    e.message.receiver = some name ∧ ∃ producer, e.origin = .request producer
  /-- Replies answer requests, each request at most once. -/
  answers : ∀ (n : Nat) (e : Sent) name request, s.sent[n]? = some e →
    e.origin = .reply name request → ∃ producer, originOf s.sent request = some (.request producer)
  once : ∀ n n' name name' request, originOf s.sent n = some (.reply name request) →
    originOf s.sent n' = some (.reply name' request) → n = n'
  /-- A producer's reply listener gets replies to its request, and nothing else. -/
  waiting : ∀ (n : Nat) (e : Sent) producer request, s.sent[n]? = some e →
    e.place.consumer = some (.reply producer request) →
    (∃ name, e.origin = .reply name request) ∧ originOf s.sent request = some (.request producer)
  bounded : s.sent.length ≤ 2 * s.sent.countP Sent.isRequest

theorem Inv.once {s : State} (hi : Inv broker names s) {n n' : Nat} {name name' : JString}
    {request : Nat} (h : originOf s.sent n = some (.reply name request))
    (h' : originOf s.sent n' = some (.reply name' request)) : n = n' := by
  obtain ⟨e, he, horigin⟩ := Option.map_eq_some_iff.mp h
  obtain ⟨e', he', horigin'⟩ := Option.map_eq_some_iff.mp h'
  obtain ⟨-, -, q, hq, hplace⟩ := hi.reply n e name request he horigin
  obtain ⟨-, -, q', hq', hplace'⟩ := hi.reply n' e' name' request he' horigin'
  rw [hq, Option.some.injEq] at hq'
  subst hq'
  rw [hplace] at hplace'
  cases hplace'
  rfl

theorem Inv.answers {s : State} (hi : Inv broker names s) {n : Nat} {e : Sent} {name : JString}
    {request : Nat} (he : s.sent[n]? = some e) (horigin : e.origin = .reply name request) :
    ∃ producer, originOf s.sent request = some (.request producer) := by
  obtain ⟨-, -, q, hq, hplace⟩ := hi.reply n e name request he horigin
  obtain ⟨producer, hq'⟩ := hi.origin_of_named hq (by rw [hplace]; rfl)
  exact ⟨producer, Option.map_eq_some_iff.mpr ⟨q, hq, hq'⟩⟩

/-- **Requests and replies find their way**, with any names without quotes, any producers, in any
order of everything: a named consumer gets the requests for it and no replies, a request gets at
most one reply, a reply goes to the producer that asked, and there are at most twice as many
messages as requests. -/
theorem routed (hb : Conforms broker) (hnames : ∀ name ∈ names, QUOTE ∉ name) {s : State}
    (h : (queue broker names producers).Reachable s) : Routed s := by
  have hi : Inv broker names s := reachable_inv hb hnames h
  refine ⟨?_, fun _ _ _ _ he horigin => hi.answers he horigin,
    fun _ _ _ _ _ h h' => hi.once h h', hi.waiting, ?_⟩
  · intro n e name he hconsumer
    exact ⟨hi.named n e name he hconsumer, hi.origin_of_named he hconsumer⟩
  · have hsplit := s.sent.length_eq_countP_add_countP Sent.isRequest
    have hreplies := hi.replies_le
    unfold replies at hreplies
    simp only [Bool.not_eq_true, Bool.decide_eq_false] at hsplit
    omega

/-- A broker that compares a selector with those that would select the message. -/
def plainBroker : Broker where
  selects selector m :=
    m.receiver.any (fun name => receiverSelector name == selector) ||
      m.JMSCorrelationID.any fun messageID => correlationSelector messageID == selector
  messageID n := "ID:".toList.map unit ++ digits n

theorem receiverSelector_injective : Function.Injective receiverSelector := by
  intro name name' h
  exact List.append_cancel_left (List.append_cancel_right h)

theorem correlationSelector_injective : Function.Injective correlationSelector := by
  intro id id' h
  exact List.append_cancel_left (List.append_cancel_right h)

theorem receiverSelector_ne (name messageID : JString) :
    receiverSelector name ≠ correlationSelector messageID := by
  intro h
  have hhead : some (unit 'r') = some (unit 'J') := congrArg List.head? h
  exact absurd hhead (by decide)

theorem plainBroker_conforms : Conforms plainBroker where
  receiver literal m _ h := by
    simp only [plainBroker, Bool.or_eq_true, Option.any_eq_true, beq_iff_eq] at h
    rcases h with ⟨name, hname, h⟩ | ⟨messageID, -, h⟩
    · rw [hname, receiverSelector_injective h]
    · exact absurd h.symm (receiverSelector_ne literal messageID)
  correlation literal m _ h := by
    simp only [plainBroker, Bool.or_eq_true, Option.any_eq_true, beq_iff_eq] at h
    rcases h with ⟨name, -, h⟩ | ⟨messageID, hid, h⟩
    · exact absurd h (receiverSelector_ne name literal)
    · rw [hid, correlationSelector_injective h]
  unique n n' h := by
    have hdigits : digits n = digits n' := List.append_cancel_left h
    have hvalue := congrArg digitsValue hdigits
    rw [digitsValue_digits, digitsValue_digits, Option.some.injEq] at hvalue
    exact hvalue
  plain n := by
    simp only [plainBroker, List.mem_append, not_or]
    refine ⟨by decide, ?_⟩
    intro hmem
    obtain ⟨d, hd, hquote⟩ := mem_digits hmem
    interval_cases d <;> exact absurd hquote (by decide)

/-- `routed` for two producers that ask the same consumer, both served. -/
theorem routed_two :
    ∃ s, (queue plainBroker [[unit 'A'], [unit 'B']]
        [([unit 'P'], [unit 'A']), ([unit 'Q'], [unit 'A'])]).Reachable s ∧
      s.sent.map (·.place) =
        [.answered [unit 'A'] 3, .answered [unit 'A'] 2, .given (.reply 1 1),
          .given (.reply 0 0)] ∧ Routed s := by
  obtain ⟨s, hrun, hplaces⟩ : ∃ s,
      (queue plainBroker [[unit 'A'], [unit 'B']]
        [([unit 'P'], [unit 'A']), ([unit 'Q'], [unit 'A'])]).run ⟨[], []⟩
        [.setupConsumer [unit 'A'], .setupConsumer [unit 'B'], .setupProducer 0,
          .deliver 0 (.named [unit 'A']), .setupProducer 1, .createConsumer 1 1,
          .deliver 1 (.named [unit 'A']), .reply 1, .reply 0, .createConsumer 0 0,
          .deliver 2 (.reply 1 1), .deliver 3 (.reply 0 0)] = some s ∧
      s.sent.map (·.place) =
        [.answered [unit 'A'] 3, .answered [unit 'A'] 2, .given (.reply 1 1),
          .given (.reply 0 0)] :=
    ⟨_, rfl, rfl⟩
  exact ⟨s, ⟨_, hrun⟩, hplaces, routed plainBroker_conforms (by decide) ⟨_, hrun⟩⟩

end JmsCorrelationIDTest
end JavaStudy
