/-
# A listener on a queue, which answers

Anybody sends messages to a queue.  A listener is given one of them at a time and sends at most one
message in answer, to a destination that depends on what it was given; this may be the queue
itself.  When it is done, the message is acknowledged; only then is the queue rid of it.  So it may
come back: before the answer was sent, or after it, and in that case it is answered once more.  The
listener may also give a message up, and have it acknowledged without an answer.  Which message is
given next is open.

* `Inv.account`: every message that was sent is in exactly one place.
* `Inv.answering`: there is one answer for each message that was acknowledged with one, and one for
  each time that a message came back after its answer.
* `Inv.replies`: a destination has got the answers that were sent to it, in that order.
* `Inv.own`: if an answer is never answered, the listener does not talk to itself.
* `Inv.replies_tagged`: who waits with a tag that answers carry on gets the answer to his message
  and no other, as often as it was answered.
-/
import JavaStudy.Lib.Machine
import Mathlib.Data.List.Range
import Mathlib.Data.List.Perm.Basic

namespace JavaStudy

/-- A listener: its queue, and to whom it answers what. -/
structure Responder (δ μ : Type) where
  queue : δ
  answer : μ → Option (δ × μ)

namespace Responder

variable {δ μ : Type}

/-! ## 1. The machine -/

structure Sent (μ : Type) where
  /-- The listener itself has sent it. -/
  own : Bool
  message : μ
  deriving DecidableEq

/-- The message that the listener is given, and whether it has sent the answer. -/
structure Given where
  number : Nat
  answered : Bool
  deriving DecidableEq

structure State (δ μ : Type) where
  /-- Every message that was ever sent to the queue; the other lists have their numbers. -/
  sent : List (Sent μ)
  waiting : List Nat
  inHand : Option Given
  /-- Acknowledged after the answer was sent. -/
  acknowledged : List Nat
  /-- Acknowledged without an answer in the last delivery. -/
  dropped : List Nat
  /-- Every answer that was sent, by what it answers. -/
  answered : List Nat
  /-- Every return to the queue after the answer was sent. -/
  repeated : List Nat
  /-- What the listener has ever sent to a destination. -/
  replies : δ → List μ

inductive Act (μ : Type) where
  | send (m : μ)
  /-- The `k`-th message that waits is given to the listener. -/
  | deliver (k : Nat)
  | answer
  | acknowledge
  | drop
  | putBack
  deriving DecidableEq

variable [DecidableEq δ]

/-- The listener has sent `r` to `d`, in answer to the message `n`. -/
def State.answer (R : Responder δ μ) (s : State δ μ) (n : Nat) (d : δ) (r : μ) : State δ μ :=
  { s with
    sent := if d = R.queue then s.sent ++ [⟨true, r⟩] else s.sent
    waiting := if d = R.queue then s.waiting ++ [s.sent.length] else s.waiting
    inHand := some ⟨n, true⟩
    answered := s.answered ++ [n]
    replies := Function.update s.replies d (s.replies d ++ [r]) }

def step (R : Responder δ μ) (s : State δ μ) : Act μ → Option (State δ μ)
  | .send m =>
    some { s with sent := s.sent ++ [⟨false, m⟩], waiting := s.waiting ++ [s.sent.length] }
  | .deliver k =>
    if s.inHand = none then
      s.waiting[k]?.map fun n =>
        { s with waiting := s.waiting.eraseIdx k, inHand := some ⟨n, false⟩ }
    else none
  | .answer =>
    match s.inHand with
    | some ⟨n, false⟩ => s.sent[n]?.bind fun e =>
        (R.answer e.message).map fun a => s.answer R n a.1 a.2
    | _ => none
  | .acknowledge =>
    match s.inHand with
    | some ⟨n, true⟩ => some { s with inHand := none, acknowledged := s.acknowledged ++ [n] }
    | _ => none
  | .drop =>
    match s.inHand with
    | some ⟨n, false⟩ => some { s with inHand := none, dropped := s.dropped ++ [n] }
    | _ => none
  | .putBack =>
    s.inHand.map fun given =>
      { s with
        inHand := none
        waiting := s.waiting ++ [given.number]
        repeated := if given.answered then s.repeated ++ [given.number] else s.repeated }

def machine (R : Responder δ μ) : Machine (State δ μ) (Act μ) where
  init := ⟨[], [], none, [], [], [], [], fun _ => []⟩
  step := step R

/-! ## 2. The invariant -/

/-- The answer to `m`, if it goes to `d`. -/
def replyTo (R : Responder δ μ) (d : δ) (m : μ) : Option μ :=
  (R.answer m).bind fun a => if a.1 = d then some a.2 else none

/-- The answer to the message `n`, if it goes to `d`. -/
def State.reply (R : Responder δ μ) (s : State δ μ) (d : δ) (n : Nat) : Option μ :=
  s.sent[n]?.bind fun e => R.replyTo d e.message

/-- What the listener has. -/
def State.held (s : State δ μ) : List Nat := s.inHand.toList.map Given.number

/-- What the listener has and has answered. -/
def State.pending (s : State δ μ) : List Nat :=
  (s.inHand.toList.filter Given.answered).map Given.number

/-- All numbers, in the order of the places. -/
def State.places (s : State δ μ) : List Nat :=
  s.waiting ++ s.held ++ s.acknowledged ++ s.dropped

/-- All answers, by what has become of the message then. -/
def State.outcomes (s : State δ μ) : List Nat := s.repeated ++ s.pending ++ s.acknowledged

structure Inv (R : Responder δ μ) (s : State δ μ) : Prop where
  account : s.places.Perm (List.range s.sent.length)
  answering : s.answered.Perm s.outcomes
  replies : ∀ d, s.replies d = s.answered.filterMap (s.reply R d)
  own : ∀ e ∈ s.sent, e.own = true → ∃ m, R.answer m = some (R.queue, e.message)
  answers : ∀ n ∈ s.answered, ∃ e, s.sent[n]? = some e ∧ R.answer e.message ≠ none

theorem inv_init (R : Responder δ μ) : Inv R (machine R).init where
  account := .refl _
  answering := .refl _
  replies _ := rfl
  own _ h := absurd h List.not_mem_nil
  answers _ h := absurd h List.not_mem_nil

theorem getElem?_grown {l l' : List (Sent μ)} (h : l <+: l') {n : Nat} {e : Sent μ}
    (he : l[n]? = some e) : l'[n]? = some e := by
  obtain ⟨more, rfl⟩ := h
  rw [List.getElem?_append_left (List.getElem?_eq_some_iff.mp he).1, he]

/-- More messages do not change what the old ones are answered. -/
theorem Inv.filterMap_reply {R : Responder δ μ} {s t : State δ μ} (hi : Inv R s)
    (h : s.sent <+: t.sent) (d : δ) :
    s.answered.filterMap (t.reply R d) = s.answered.filterMap (s.reply R d) := by
  refine List.filterMap_congr ?_
  intro n hn
  obtain ⟨e, he, -⟩ := hi.answers n hn
  rw [State.reply, State.reply, getElem?_grown h he, he]

/-- What was answered stays so. -/
theorem Inv.answers_mono {R : Responder δ μ} {s t : State δ μ} (hi : Inv R s)
    (h : s.sent <+: t.sent) {n : Nat} (hn : n ∈ s.answered) :
    ∃ e, t.sent[n]? = some e ∧ R.answer e.message ≠ none := by
  obtain ⟨e, he, hanswer⟩ := hi.answers n hn
  exact ⟨e, getElem?_grown h he, hanswer⟩

/-! ## 3. What a step keeps -/

omit [DecidableEq δ] in
/-- One more message, which stands somewhere. -/
theorem account_concat {s t : State δ μ} {e : Sent μ}
    (h : s.places.Perm (List.range s.sent.length)) (hsent : t.sent = s.sent ++ [e])
    (hp : t.places.Perm (s.places ++ [s.sent.length])) :
    t.places.Perm (List.range t.sent.length) := by
  rw [hsent, List.length_append, List.length_singleton, List.range_succ]
  exact hp.trans (h.append_right _)

/-- A message changes its place. -/
theorem Inv.move {R : Responder δ μ} {s t : State δ μ} (hi : Inv R s) (hsent : s.sent = t.sent)
    (hanswered : t.answered = s.answered) (hreplies : t.replies = s.replies)
    (hp : t.places.Perm s.places) (ho : s.outcomes.Perm t.outcomes) : Inv R t where
  account := hsent ▸ hp.trans hi.account
  answering := hanswered ▸ hi.answering.trans ho
  replies d := by
    rw [hreplies, hanswered, hi.replies d]
    exact (hi.filterMap_reply (hsent ▸ List.prefix_refl _) d).symm
  own := hsent ▸ hi.own
  answers := hsent ▸ hanswered ▸ hi.answers

theorem Inv.send {R : Responder δ μ} {s : State δ μ} (hi : Inv R s) (m : μ) :
    Inv R { s with sent := s.sent ++ [⟨false, m⟩], waiting := s.waiting ++ [s.sent.length] } where
  account := by
    refine account_concat hi.account rfl (List.perm_iff_count.mpr fun n => ?_)
    simp only [State.places, State.held, List.count_append]
    omega
  answering := hi.answering
  replies d := by
    rw [hi.replies d]
    exact (hi.filterMap_reply (List.prefix_append _ _) d).symm
  own e he hown := by
    rcases List.mem_append.mp he with hold | hnew
    · exact hi.own e hold hown
    · rw [List.mem_singleton.mp hnew] at hown
      simp at hown
  answers _ hn := hi.answers_mono (List.prefix_append _ _) hn

theorem Inv.answer {R : Responder δ μ} {s : State δ μ} {n : Nat} {e : Sent μ} {d : δ} {r : μ}
    (hi : Inv R s) (hn : s.inHand = some ⟨n, false⟩) (he : s.sent[n]? = some e)
    (hr : R.answer e.message = some (d, r)) : Inv R (s.answer R n d r) := by
  have hpre : s.sent <+: (s.answer R n d r).sent := by
    simp only [State.answer]
    split
    · exact List.prefix_append _ _
    · exact List.prefix_refl _
  have hsame : (s.answer R n d r).sent[n]? = some e := getElem?_grown hpre he
  refine ⟨?_, ?_, ?_, ?_, ?_⟩
  · by_cases hd : d = R.queue
    · refine account_concat (e := ⟨true, r⟩) hi.account (by rw [State.answer, if_pos hd]) ?_
      refine List.perm_iff_count.mpr fun a => ?_
      simp only [State.places, State.held, State.answer, if_pos hd, hn, List.count_append,
        Option.toList, List.map_cons, List.map_nil]
      omega
    · have hsent : (s.answer R n d r).sent = s.sent := by rw [State.answer, if_neg hd]
      have hplaces : (s.answer R n d r).places = s.places := by
        simp only [State.places, State.held, State.answer, if_neg hd, hn, Option.toList,
          List.map_cons, List.map_nil]
      rw [hsent, hplaces]
      exact hi.account
  · refine List.perm_iff_count.mpr fun a => ?_
    have hcount := hi.answering.count_eq a
    simp only [State.outcomes, State.pending, hn, Option.toList, List.filter_cons,
      List.count_append, List.filter_nil, Bool.false_eq_true, if_false, List.map_nil,
      List.count_nil] at hcount
    simp only [State.outcomes, State.pending, State.answer, Option.toList, List.filter_cons,
      List.count_append, List.filter_nil, if_true, List.map_cons, List.map_nil]
    omega
  · intro d'
    have hreply : (s.answer R n d r).reply R d' n = if d = d' then some r else none := by
      rw [State.reply, hsame, Option.bind_some, replyTo, hr]
      rfl
    have hold := hi.filterMap_reply hpre d'
    have hanswered : (s.answer R n d r).answered = s.answered ++ [n] := rfl
    rw [hanswered, List.filterMap_append, hold, ← hi.replies d', List.filterMap_cons, hreply]
    simp only [State.answer, Function.update_apply]
    by_cases hd : d = d'
    · subst hd
      simp
    · simp [hd, Ne.symm hd]
  · intro f hf hown
    have hcases : f ∈ s.sent ∨ d = R.queue ∧ f = ⟨true, r⟩ := by
      simp only [State.answer] at hf
      split at hf
      · rename_i hd
        rcases List.mem_append.mp hf with hold | hnew
        · exact .inl hold
        · exact .inr ⟨hd, List.mem_singleton.mp hnew⟩
      · exact .inl hf
    rcases hcases with hold | ⟨rfl, rfl⟩
    · exact hi.own f hold hown
    · exact ⟨e.message, hr⟩
  · intro n' hn'
    rcases List.mem_append.mp hn' with hold | hnew
    · exact hi.answers_mono hpre hold
    · rw [List.mem_singleton.mp hnew]
      exact ⟨e, hsame, by rw [hr]; simp⟩

/-- A message comes back, with its answer sent or not. -/
theorem Inv.putBack {R : Responder δ μ} {s : State δ μ} {given : Given} (hi : Inv R s)
    (hgiven : s.inHand = some given) :
    Inv R { s with
      inHand := none
      waiting := s.waiting ++ [given.number]
      repeated := if given.answered then s.repeated ++ [given.number] else s.repeated } := by
  refine hi.move rfl rfl rfl (List.perm_iff_count.mpr fun a => ?_)
    (List.perm_iff_count.mpr fun a => ?_)
  · simp only [State.places, State.held, hgiven, List.count_append, Option.toList, List.map_cons,
      List.map_nil, List.count_nil]
    omega
  · obtain ⟨n, answered⟩ := given
    cases answered with
    | false => simp [State.outcomes, State.pending, hgiven]
    | true => simp [State.outcomes, State.pending, hgiven]

theorem step_inv {R : Responder δ μ} {s t : State δ μ} {a : Act μ} (hi : Inv R s)
    (h : step R s a = some t) : Inv R t := by
  cases a with
  | send m =>
    rw [step, Option.some.injEq] at h
    exact h ▸ hi.send m
  | deliver k =>
    rw [step] at h
    split at h
    · rename_i hfree
      obtain ⟨n, hn, rfl⟩ := Option.map_eq_some_iff.mp h
      obtain ⟨hk, rfl⟩ := List.getElem?_eq_some_iff.mp hn
      have hp := List.perm_iff_count.mp (List.getElem_cons_eraseIdx_perm hk)
      refine hi.move rfl rfl rfl (List.perm_iff_count.mpr fun a => ?_) ?_
      · have hcount := hp a
        rw [List.count_cons] at hcount
        simp only [State.places, State.held, hfree, List.count_append, Option.toList, List.map_cons,
          List.map_nil, List.count_nil, List.count_singleton]
        omega
      · simp [State.outcomes, State.pending, hfree]
    · simp at h
  | answer =>
    rw [step] at h
    split at h
    · rename_i n hn
      obtain ⟨e, he, h⟩ := Option.bind_eq_some_iff.mp h
      obtain ⟨⟨d, r⟩, hr, rfl⟩ := Option.map_eq_some_iff.mp h
      exact hi.answer hn he hr
    · simp at h
  | acknowledge =>
    rw [step] at h
    split at h
    · rename_i n hn
      cases h
      refine hi.move rfl rfl rfl (List.perm_iff_count.mpr fun a => ?_)
        (List.perm_iff_count.mpr fun a => ?_)
      · simp only [State.places, State.held, hn, List.count_append, Option.toList, List.map_cons,
          List.map_nil, List.count_nil]
        omega
      · simp only [State.outcomes, State.pending, hn, List.count_append, Option.toList,
          List.filter_cons, List.filter_nil, if_true, List.map_cons, List.map_nil, List.count_nil]
        omega
    · simp at h
  | drop =>
    rw [step] at h
    split at h
    · rename_i n hn
      cases h
      refine hi.move rfl rfl rfl (List.perm_iff_count.mpr fun a => ?_) ?_
      · simp only [State.places, State.held, hn, List.count_append, Option.toList, List.map_cons,
          List.map_nil, List.count_nil]
        omega
      · simp [State.outcomes, State.pending, hn]
    · simp at h
  | putBack =>
    obtain ⟨given, hgiven, rfl⟩ := Option.map_eq_some_iff.mp h
    exact hi.putBack hgiven

theorem reachable_inv {R : Responder δ μ} {s : State δ μ} (h : (machine R).Reachable s) :
    Inv R s :=
  h.induct (inv_init R) fun _ _ _ _ hi hst => step_inv hi hst

/-! ## 4. What follows -/

/-- **A message that does not come back after its answer is answered once at most.** -/
theorem Inv.count_answered_le {R : Responder δ μ} {s : State δ μ} (hi : Inv R s) (n : Nat) :
    s.answered.count n ≤ 1 + s.repeated.count n := by
  have hone : s.places.count n ≤ 1 :=
    List.nodup_iff_count_le_one.mp (hi.account.nodup_iff.mpr List.nodup_range) n
  have hpending : s.pending.count n ≤ s.held.count n :=
    (List.filter_sublist.map _).count_le n
  have hcount := hi.answering.count_eq n
  simp only [State.outcomes, State.places, List.count_append] at hcount hone
  omega

/-- **The listener does not talk to itself**, if what it sends to its own queue needs no answer. -/
theorem Inv.not_own {R : Responder δ μ} {s : State δ μ} (hi : Inv R s)
    (hquiet : ∀ m r, R.answer m = some (R.queue, r) → R.answer r = none) {n : Nat}
    (hn : n ∈ s.answered) : ∃ m, s.sent[n]? = some ⟨false, m⟩ := by
  obtain ⟨⟨own, m⟩, he, hanswer⟩ := hi.answers n hn
  cases own with
  | false => exact ⟨m, he⟩
  | true =>
    obtain ⟨m', hm'⟩ := hi.own _ (List.mem_of_getElem? he) rfl
    exact absurd (hquiet m' m hm') hanswer

/-- Only one number of a list counts. -/
theorem filterMap_eq_replicate {κ ν : Type} [DecidableEq κ] {f : κ → Option ν} {k : κ} {v : ν}
    (hk : f k = some v) (h : ∀ k', k' ≠ k → f k' = none) (l : List κ) :
    l.filterMap f = List.replicate (l.count k) v := by
  induction l with
  | nil => rfl
  | cons k' l ih =>
    rw [List.filterMap_cons, ih]
    by_cases heq : k' = k
    · rw [heq, hk, List.count_cons_self, List.replicate_succ]
    · rw [h k' heq, List.count_cons_of_ne heq]

/-- **Answers find their way back by a tag.**  If answers carry the tag of what they answer, and no
other message with that tag is to be answered to `d`, then `d` has got under it the answer to it, as
often as it was answered, and nothing else. -/
theorem Inv.replies_tagged {τ : Type} [DecidableEq τ] (tag : μ → τ) {R : Responder δ μ}
    {s : State δ μ} (hi : Inv R s) (htag : ∀ m d r, R.answer m = some (d, r) → tag r = tag m)
    {n : Nat} {e : Sent μ} {d : δ} {r : μ} (he : s.sent[n]? = some e)
    (hr : R.answer e.message = some (d, r))
    (hone : ∀ n' e' r', s.sent[n']? = some e' → R.answer e'.message = some (d, r') →
      tag e'.message = tag e.message → n' = n) :
    (s.replies d).filter (fun r => tag r = tag e.message) =
      List.replicate (s.answered.count n) r := by
  have hself : s.reply R d n = some r := by
    rw [State.reply, he, Option.bind_some, replyTo, hr]
    simp
  have htagged : (some r).filter (fun r => decide (tag r = tag e.message)) = some r := by
    simp [Option.filter, htag _ _ _ hr]
  rw [hi.replies d, List.filter_filterMap]
  refine filterMap_eq_replicate (by rw [hself, htagged]) ?_ _
  intro n' hn'
  rw [Option.filter_eq_none_iff]
  intro r' hr'
  obtain ⟨e', he', hreply⟩ := Option.bind_eq_some_iff.mp hr'
  obtain ⟨⟨d', r''⟩, hanswer, hto⟩ := Option.bind_eq_some_iff.mp hreply
  split at hto
  · rename_i hd
    cases hto
    subst hd
    have hne := fun heq => hn' (hone n' e' _ he' hanswer heq)
    simpa [htag _ _ _ hanswer] using hne
  · simp at hto

/-- Nothing but what the queue and the listener do: no new message from outside. -/
def Act.isOwn : Act μ → Bool
  | .send _ => false
  | _ => true

theorem exists_answer_of_free {R : Responder δ μ} {s : State δ μ} {n : Nat} {e : Sent μ}
    (hfree : s.inHand = none) (hn : n ∈ s.waiting) (he : s.sent[n]? = some e)
    (hanswer : R.answer e.message ≠ none) :
    ∃ as t, (machine R).run s as = some t ∧ t.answered = s.answered ++ [n] ∧
      n ∈ t.acknowledged ∧ ∀ a ∈ as, a.isOwn = true := by
  obtain ⟨k, hk⟩ := List.mem_iff_getElem?.mp hn
  obtain ⟨⟨d, r⟩, hr⟩ := Option.ne_none_iff_exists'.mp hanswer
  let given : State δ μ := { s with waiting := s.waiting.eraseIdx k, inHand := some ⟨n, false⟩ }
  have hdeliver : step R s (.deliver k) = some given := by simp [step, hfree, hk, given]
  have hsent : step R given .answer = some (given.answer R n d r) := by
    simp [step, he, hr, given]
  let done : State δ μ :=
    { given.answer R n d r with inHand := none, acknowledged := s.acknowledged ++ [n] }
  have hdone : step R (given.answer R n d r) .acknowledge = some done := by
    simp [step, State.answer, given, done]
  refine ⟨[.deliver k, .answer, .acknowledge], done, ?_, rfl, ?_, by simp [Act.isOwn]⟩
  · simp only [Machine.run_cons, machine, hdeliver, hsent, hdone, Option.bind_some, Machine.run_nil]
  · exact List.mem_append_right _ List.mem_cons_self

/-- **A message that waits for an answer can be answered and acknowledged**, whatever else goes
on. -/
theorem exists_answer {R : Responder δ μ} {s : State δ μ} {n : Nat} {e : Sent μ}
    (hn : n ∈ s.waiting) (he : s.sent[n]? = some e) (hanswer : R.answer e.message ≠ none) :
    ∃ as t, (machine R).run s as = some t ∧ t.answered = s.answered ++ [n] ∧
      n ∈ t.acknowledged ∧ ∀ a ∈ as, a.isOwn = true := by
  cases hhand : s.inHand with
  | none => exact exists_answer_of_free hhand hn he hanswer
  | some given =>
    -- what the listener has comes back first
    generalize hu : ({ s with
        inHand := none
        waiting := s.waiting ++ [given.number]
        repeated := if given.answered then s.repeated ++ [given.number] else s.repeated } :
        State δ μ) = u
    have hback : (machine R).step s .putBack = some u := by
      simp [machine, step, hhand, ← hu]
    obtain ⟨as, t, hrun, ht, hdone, hown⟩ := exists_answer_of_free (R := R) (s := u) (n := n)
      (e := e) (by rw [← hu]) (by rw [← hu]; exact List.mem_append_left _ hn)
      (by rw [← hu]; exact he) hanswer
    refine ⟨.putBack :: as, t, ?_, ?_, hdone, List.forall_mem_cons.mpr ⟨rfl, hown⟩⟩
    · rw [Machine.run_cons, hback]
      exact hrun
    · rw [ht, ← hu]

end Responder
end JavaStudy
