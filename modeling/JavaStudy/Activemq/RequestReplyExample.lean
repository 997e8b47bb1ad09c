/-
# `RequestReplyExample`: a server that answers to where it is told

The server listens to one queue.  To each message it sends a response with the same
`JMSCorrelationID` to the `JMSReplyTo` of the message; clients match the two.  Clients are not under
its control: they send what they like, with any of the two properties, or none, and the
`JMSReplyTo` may be the request queue itself.

A session with `AUTO_ACKNOWLEDGE` acknowledges a message when `onMessage` has returned.  A
`JMSException` is caught there, so a message may be acknowledged without a response.  After another
exception the message is delivered again, as it is when the acknowledgement is lost; then its
response may have been sent.  Which of these happens is open; `send` to no destination throws.

`replies_exact`: every request is accounted for, those that were given up among them; a request is
answered once, and once more for each time that it is delivered again after its response; each
destination has got exactly the responses to the requests that name it, the server never answers
its own responses, and a client with a `JMSCorrelationID` of its own finds under it the response to
its request and no other.
-/
import JavaStudy.Lib.JavaText
import JavaStudy.Lib.Responder

namespace JavaStudy
namespace RequestReplyExample

open JavaText

variable {δ : Type}

/-- What a message carries; the text of a `TextMessage` may be `null`. -/
inductive Body where
  | text (text : Option JString)
  | other
  deriving DecidableEq

/-- A message, as far as `onMessage` looks at it. -/
structure Message (δ : Type) where
  body : Body
  JMSCorrelationID : Option JString
  JMSReplyTo : Option δ
  deriving DecidableEq

/-- The text of a `String` that is appended. -/
def appended (s : Option JString) : JString := s.getD ("null".toList.map unit)

def handleRequest (messageText : Option JString) : JString :=
  "Response to '".toList.map unit ++ appended messageText ++ "'".toList.map unit

/-- The response that `onMessage` makes. -/
def response (message : Message δ) : Message δ where
  body :=
    match message.body with
    | .text messageText => .text (some (handleRequest messageText))
    | .other => .text none
  JMSCorrelationID := message.JMSCorrelationID
  JMSReplyTo := none

/-- Where `onMessage` sends the response; without a destination the `send` throws. -/
def onMessage (message : Message δ) : Option (δ × Message δ) :=
  message.JMSReplyTo.map fun destination => (destination, response message)

/-- The consumer that `setupConsumer` creates. -/
def setupConsumer (requestQueue : δ) : Responder δ (Message δ) := ⟨requestQueue, onMessage⟩

theorem onMessage_eq_some {m r : Message δ} {d : δ} :
    onMessage m = some (d, r) ↔ m.JMSReplyTo = some d ∧ response m = r := by
  simp [onMessage]

/-- A response names no destination. -/
theorem quiet (requestQueue : δ) (m r : Message δ)
    (h : (setupConsumer requestQueue).answer m = some (requestQueue, r)) :
    (setupConsumer requestQueue).answer r = none := by
  obtain ⟨-, rfl⟩ := onMessage_eq_some.mp h
  rfl

variable [DecidableEq δ]

/-- The server, its broker, and any clients. -/
def machine (requestQueue : δ) :
    Machine (Responder.State δ (Message δ)) (Responder.Act (Message δ)) :=
  Responder.machine (setupConsumer requestQueue)

/-- The response to the request `n`, if it names `d`. -/
def responseTo (s : Responder.State δ (Message δ)) (d : δ) (n : Nat) : Option (Message δ) :=
  s.sent[n]?.bind fun e => if e.message.JMSReplyTo = some d then some (response e.message) else none

/-- What clients rely on. -/
structure RepliesExact (requestQueue : δ) (s : Responder.State δ (Message δ)) : Prop where
  /-- Every message waits, is at the server, or was acknowledged, after its response or without one:
  one of these, once. -/
  account : (s.waiting ++ s.held ++ s.acknowledged ++ s.dropped).Perm (List.range s.sent.length)
  /-- There is a response for each message that was acknowledged after it, for the one that the
  server has and has answered, and for each time that one was delivered again after it. -/
  answering : s.answered.Perm (s.repeated ++ s.pending ++ s.acknowledged)
  /-- Without that a request is answered once at most. -/
  once : ∀ n, s.answered.count n ≤ 1 + s.repeated.count n
  /-- A destination has got the responses to the requests that name it, and nothing else. -/
  replies : ∀ d, s.replies d = s.answered.filterMap (responseTo s d)
  /-- What was answered came from a client. -/
  clients : ∀ n ∈ s.answered, ∃ m, s.sent[n]? = some ⟨false, m⟩
  /-- Who has a `JMSCorrelationID` of his own finds his response, as often as it was sent. -/
  matched : ∀ n e d, s.sent[n]? = some e → e.message.JMSReplyTo = some d →
    (∀ n' e', s.sent[n']? = some e' → e'.message.JMSReplyTo = some d →
      e'.message.JMSCorrelationID = e.message.JMSCorrelationID → n' = n) →
    (s.replies d).filter (fun r => r.JMSCorrelationID = e.message.JMSCorrelationID) =
      List.replicate (s.answered.count n) (response e.message)
  /-- A request that waits and names a destination can be answered without another request. -/
  answerable : ∀ n e, n ∈ s.waiting → s.sent[n]? = some e → e.message.JMSReplyTo ≠ none →
    ∃ as t, (machine requestQueue).run s as = some t ∧ t.answered = s.answered ++ [n] ∧
      n ∈ t.acknowledged ∧ ∀ a ∈ as, a.isOwn = true

theorem responseTo_eq (requestQueue : δ) (s : Responder.State δ (Message δ)) (d : δ) (n : Nat) :
    responseTo s d n = s.reply (setupConsumer requestQueue) d n := by
  rw [responseTo, Responder.State.reply]
  refine congrArg _ (funext fun e => ?_)
  simp only [Responder.replyTo, setupConsumer, onMessage]
  cases e.message.JMSReplyTo <;> simp

/-- **Replies are exact.**  In every state that the server comes to, whatever the clients send, in
any order of deliveries, failures and redeliveries. -/
theorem replies_exact (requestQueue : δ) {s : Responder.State δ (Message δ)}
    (h : (machine requestQueue).Reachable s) : RepliesExact requestQueue s := by
  have hi := Responder.reachable_inv h
  refine ⟨hi.account, hi.answering, hi.count_answered_le, ?_,
    fun n hn => hi.not_own (quiet requestQueue) hn, ?_, ?_⟩
  · intro d
    rw [hi.replies d, funext (responseTo_eq requestQueue s d)]
  · intro n e d he hd hone
    refine hi.replies_tagged Message.JMSCorrelationID ?_ he
      (onMessage_eq_some.mpr ⟨hd, rfl⟩) ?_
    · intro m d' r hr
      obtain ⟨-, rfl⟩ := onMessage_eq_some.mp hr
      rfl
    · intro n' e' r' he' hr'
      exact hone n' e' he' (onMessage_eq_some.mp hr').1
  · intro n e hn he hd
    refine Responder.exists_answer hn he ?_
    simpa [setupConsumer, onMessage] using hd

/-- Two clients with one `JMSCorrelationID` and two destinations, and a request that names the
request queue itself.  The second request is delivered again after its response; the response that
the server finds in its own queue is given up. -/
def talk : List (Responder.Act (Message Nat)) :=
  [.send ⟨.text (some ("a".toList.map unit)), some [], some 1⟩,
    .send ⟨.text none, some [], some 2⟩, .send ⟨.other, none, some 0⟩, .deliver 1, .answer,
    .putBack, .deliver 2, .answer, .acknowledge, .deliver 0, .answer, .acknowledge, .deliver 0,
    .answer, .acknowledge, .deliver 0, .drop]

/-- The response to a text that is `null`. -/
def nullResponse : Message Nat :=
  ⟨.text (some ("Response to 'null'".toList.map unit)), some [], none⟩

/-- The second client finds the response to his text twice. -/
theorem replies_exact_talk : ∃ s, (machine 0).run (machine 0).init talk = some s ∧
    RepliesExact 0 s ∧ s.repeated = [1] ∧ s.dropped = [3] ∧
    s.replies 2 = [nullResponse, nullResponse] :=
  ⟨_, rfl, replies_exact 0 ⟨talk, rfl⟩, rfl, rfl, by decide⟩

end RequestReplyExample
end JavaStudy
