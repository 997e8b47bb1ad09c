/-
# `DealAction`: statistics over the messages that were dealt with

Every message is dealt with in a thread of its own, which takes the time that the message was under
way and, under one lock, brings three static fields up to date.  The fields start at 100, 0 and 0,
and the first two of these are values, not absent ones: `smallTime` becomes the minimum of the
times AND 100, and `maxTime` the maximum of the times AND 0.

* `inOrder_folded`: what is in the fields after any number of messages, in whichever order.
* `right_iff`: when that is the minimum, the maximum and the sum.
-/
import JavaStudy.Lib.Synchronized
import Mathlib.Data.List.FinRange
import Mathlib.Data.List.Perm.Basic
import Mathlib.Algebra.BigOperators.Group.List.Basic
import Mathlib.Algebra.Ring.Int.Defs

namespace JavaStudy
namespace DealAction

open Synchronized

abbrev JLong := BitVec 64

/-- The static fields. -/
structure Statics where
  smallTime : JLong
  maxTime : JLong
  totalTime : JLong
  deriving DecidableEq

def Statics.initial : Statics where
  smallTime := 100
  maxTime := 0
  totalTime := 0

/-- Where a thread stands in the `synchronized` block. -/
inductive Place where
  | compareSmall
  | setSmall
  | compareMax
  | setMax
  | readTotal
  /-- `totalTime` was read. -/
  | addTotal (read : JLong)
  | unlock
  deriving DecidableEq

/-- The `synchronized` block of `execute`; `times` are the values of `allTime`. -/
def execute (times : List JLong) : Block (Fin times.length) Statics Place where
  entry := .compareSmall
  step i place s :=
    let allTime := times.get i
    match place with
    | .compareSmall => (some (if allTime.slt s.smallTime then .setSmall else .compareMax), s)
    | .setSmall => (some .compareMax, { s with smallTime := allTime })
    | .compareMax => (some (if s.maxTime.slt allTime then .setMax else .readTotal), s)
    | .setMax => (some .readTotal, { s with maxTime := allTime })
    | .readTotal => (some (.addTotal s.totalTime), s)
    | .addTotal read => (some .unlock, { s with totalTime := read + allTime })
    | .unlock => (none, s)

/-! ## 1. The block as a whole -/

def Statics.lower (s : Statics) (allTime : JLong) : Statics :=
  if allTime.slt s.smallTime then { s with smallTime := allTime } else s

def Statics.raise (s : Statics) (allTime : JLong) : Statics :=
  if s.maxTime.slt allTime then { s with maxTime := allTime } else s

def Statics.add (s : Statics) (allTime : JLong) : Statics :=
  { s with totalTime := s.totalTime + allTime }

/-- What a thread still does from a place on. -/
def rest (times : List JLong) (i : Fin times.length) : Place → Statics → Statics
  | .compareSmall, s => ((s.lower (times.get i)).raise (times.get i)).add (times.get i)
  | .setSmall, s =>
    ({ s with smallTime := times.get i }.raise (times.get i)).add (times.get i)
  | .compareMax, s => (s.raise (times.get i)).add (times.get i)
  | .setMax, s => { s with maxTime := times.get i }.add (times.get i)
  | .readTotal, s => s.add (times.get i)
  | .addTotal read, s => { s with totalTime := read + times.get i }
  | .unlock, s => s

theorem execute_completes (times : List JLong) : Completes (execute times) (rest times) where
  stay i place s place' s' h := by
    cases place with
    | compareSmall =>
      obtain ⟨rfl, rfl⟩ := Prod.mk.inj h |>.imp Option.some.inj id
      by_cases hlt : (times.get i).slt s.smallTime = true
      · rw [if_pos hlt, rest, rest, Statics.lower, if_pos hlt]
      · rw [if_neg hlt, rest, rest, Statics.lower, if_neg hlt]
    | compareMax =>
      obtain ⟨rfl, rfl⟩ := Prod.mk.inj h |>.imp Option.some.inj id
      by_cases hlt : s.maxTime.slt (times.get i) = true
      · rw [if_pos hlt, rest, rest, Statics.raise, if_pos hlt]
      · rw [if_neg hlt, rest, rest, Statics.raise, if_neg hlt]
    | unlock => exact absurd h (by simp [execute])
    | _ =>
      obtain ⟨rfl, rfl⟩ := Prod.mk.inj h |>.imp Option.some.inj id
      rfl
  leave i place s s' h := by
    cases place with
    | unlock => exact (Prod.mk.inj h).2.symm
    | _ => exact absurd h (by simp [execute])

/-! ## 2. The fields after some messages -/

/-- What the fields are after the times of a list: the initial values count as two more times. -/
structure Folded (done : List JLong) (s : Statics) : Prop where
  small_le_initial : s.smallTime.toInt ≤ 100
  small_le : ∀ a ∈ done, s.smallTime.toInt ≤ a.toInt
  small : s.smallTime = 100 ∨ s.smallTime ∈ done
  initial_le_max : 0 ≤ s.maxTime.toInt
  le_max : ∀ a ∈ done, a.toInt ≤ s.maxTime.toInt
  max : s.maxTime = 0 ∨ s.maxTime ∈ done
  total : s.totalTime = BitVec.ofInt 64 (done.map BitVec.toInt).sum

theorem folded_initial : Folded [] Statics.initial where
  small_le_initial := by decide
  small_le := nofun
  small := Or.inl rfl
  initial_le_max := by decide
  le_max := nofun
  max := Or.inl rfl
  total := rfl

theorem Statics.lower_spec (s : Statics) (a : JLong) :
    (s.lower a).smallTime.toInt ≤ s.smallTime.toInt ∧ (s.lower a).smallTime.toInt ≤ a.toInt ∧
      ((s.lower a).smallTime = s.smallTime ∨ (s.lower a).smallTime = a) ∧
      (s.lower a).maxTime = s.maxTime ∧ (s.lower a).totalTime = s.totalTime := by
  unfold Statics.lower
  by_cases hlt : a.slt s.smallTime = true
  · rw [if_pos hlt]
    rw [BitVec.slt_iff_toInt_lt] at hlt
    exact ⟨le_of_lt hlt, le_refl _, Or.inr rfl, rfl, rfl⟩
  · rw [if_neg hlt]
    rw [BitVec.slt_iff_toInt_lt, not_lt] at hlt
    exact ⟨le_refl _, hlt, Or.inl rfl, rfl, rfl⟩

theorem Statics.raise_spec (s : Statics) (a : JLong) :
    s.maxTime.toInt ≤ (s.raise a).maxTime.toInt ∧ a.toInt ≤ (s.raise a).maxTime.toInt ∧
      ((s.raise a).maxTime = s.maxTime ∨ (s.raise a).maxTime = a) ∧
      (s.raise a).smallTime = s.smallTime ∧ (s.raise a).totalTime = s.totalTime := by
  unfold Statics.raise
  by_cases hlt : s.maxTime.slt a = true
  · rw [if_pos hlt]
    rw [BitVec.slt_iff_toInt_lt] at hlt
    exact ⟨le_of_lt hlt, le_refl _, Or.inr rfl, rfl, rfl⟩
  · rw [if_neg hlt]
    rw [BitVec.slt_iff_toInt_lt, not_lt] at hlt
    exact ⟨le_refl _, hlt, Or.inl rfl, rfl, rfl⟩

/-- One more message. -/
theorem Folded.concat {done : List JLong} {s : Statics} (h : Folded done s) (a : JLong) :
    Folded (done ++ [a]) (((s.lower a).raise a).add a) := by
  obtain ⟨hsmall, hsmall', hsame, hmax, htotal⟩ := s.lower_spec a
  obtain ⟨hup, hup', hsame', hsmallTime, htotal'⟩ := (s.lower a).raise_spec a
  rw [hmax] at hup hsame'
  constructor
  · exact hsmallTime ▸ le_trans hsmall h.small_le_initial
  · intro b hb
    rcases List.mem_append.mp hb with hb | hb
    · exact hsmallTime ▸ le_trans hsmall (h.small_le b hb)
    · rw [List.mem_singleton.mp hb, Statics.add, hsmallTime]
      exact hsmall'
  · rcases hsame with hsame | hsame
    · exact h.small.imp (fun h => by rw [Statics.add, hsmallTime, hsame, h])
        fun h => by rw [Statics.add, hsmallTime, hsame]; exact List.mem_append_left _ h
    · refine Or.inr ?_
      rw [Statics.add, hsmallTime, hsame]
      simp
  · exact le_trans h.initial_le_max hup
  · intro b hb
    rcases List.mem_append.mp hb with hb | hb
    · exact le_trans (h.le_max b hb) hup
    · rw [List.mem_singleton.mp hb]
      exact hup'
  · rcases hsame' with hsame' | hsame'
    · exact h.max.imp (fun h => by rw [Statics.add, hsame', h])
        fun h => by rw [Statics.add, hsame']; exact List.mem_append_left _ h
    · refine Or.inr ?_
      rw [Statics.add, hsame']
      simp
  · rw [Statics.add, htotal', htotal, h.total, List.map_append, List.sum_append, List.map_singleton,
      List.sum_singleton, BitVec.ofInt_add, BitVec.ofInt_toInt]

theorem inOrder_folded (times : List JLong) (order : List (Fin times.length)) :
    Folded (order.map times.get) (inOrder (execute times) (rest times) Statics.initial order) := by
  induction order using List.reverseRecOn with
  | nil => exact folded_initial
  | append_singleton order i ih =>
    rw [inOrder_concat, List.map_append, List.map_singleton]
    exact ih.concat (times.get i)

/-! ## 3. The statistics -/

/-- The fields are the minimum, the maximum and the sum of the times. -/
structure Right (times : List JLong) (s : Statics) : Prop where
  smallTime : s.smallTime ∈ times ∧ ∀ a ∈ times, s.smallTime.toInt ≤ a.toInt
  maxTime : s.maxTime ∈ times ∧ ∀ a ∈ times, a.toInt ≤ s.maxTime.toInt
  totalTime : s.totalTime = BitVec.ofInt 64 (times.map BitVec.toInt).sum

/-- The messages are dealt with at any time and in any order. -/
def dealing (times : List JLong) : Machine (State (Fin times.length) Statics Place)
    (Fin times.length) :=
  machine (execute times) Statics.initial

/-- How many steps of the block come after a place, at most. -/
def Place.size : Place → Nat
  | .compareSmall => 6
  | .setSmall => 5
  | .compareMax => 4
  | .setMax => 3
  | .readTotal => 2
  | .addTotal _ => 1
  | .unlock => 0

/-- Whatever has happened, all messages can be dealt with. -/
theorem exists_dealt {times : List JLong} {s : State (Fin times.length) Statics Place}
    (h : (dealing times).Reachable s) :
    ∃ schedule t, (dealing times).run s schedule = some t ∧ ∀ i, t.phase i = .left := by
  refine exists_finish Place.size ?_ h
  intro i place s place' s' hstep
  cases place with
  | compareSmall =>
    obtain ⟨rfl, -⟩ := Prod.mk.inj hstep |>.imp Option.some.inj id
    split <;> decide
  | compareMax =>
    obtain ⟨rfl, -⟩ := Prod.mk.inj hstep |>.imp Option.some.inj id
    split <;> decide
  | unlock => exact absurd hstep (by simp [execute])
  | _ =>
    obtain ⟨rfl, -⟩ := Prod.mk.inj hstep |>.imp Option.some.inj id
    exact Nat.lt_succ_self _

/-- Once everybody has left, the times of some order are the times. -/
theorem folded_of_left {times : List JLong} {s : State (Fin times.length) Statics Place}
    (h : (dealing times).Reachable s) (hall : ∀ i, s.phase i = .left) :
    ∃ done, done.Perm times ∧ Folded done s.shared := by
  have hfree : s.owner = none := by
    cases howner : s.owner with
    | none => rfl
    | some i =>
      obtain ⟨place, hin⟩ := (locked h i).mpr howner
      exact absurd (hin.symm.trans (hall i)) (by simp)
  obtain ⟨order, hnodup, hmem, hshared⟩ := exists_order (execute_completes times) h hfree
  refine ⟨order.map times.get, ?_, hshared ▸ inOrder_folded times order⟩
  have hperm : order.Perm (List.finRange times.length) := by
    rw [List.perm_ext_iff_of_nodup hnodup (List.nodup_finRange _)]
    intro i
    simp [hmem i, hall i]
  have hmap := hperm.map times.get
  rwa [List.map_get_finRange] at hmap

/-- **When the statistics are right.**  The sum always is; the minimum needs a time of at most 100,
and the maximum one that is not negative. -/
theorem right_iff {times : List JLong} {s : State (Fin times.length) Statics Place}
    (h : (dealing times).Reachable s) (hall : ∀ i, s.phase i = .left) :
    Right times s.shared ↔ (∃ a ∈ times, a.toInt ≤ 100) ∧ ∃ a ∈ times, 0 ≤ a.toInt := by
  obtain ⟨done, hperm, hdone⟩ := folded_of_left h hall
  constructor
  · intro hright
    exact ⟨⟨_, hright.smallTime.1, hdone.small_le_initial⟩, _, hright.maxTime.1, hdone.initial_le_max⟩
  · rintro ⟨⟨low, hlow, hlow'⟩, high, hhigh, hhigh'⟩
    have hsmall := hdone.small_le low (hperm.mem_iff.mpr hlow)
    have hmax := hdone.le_max high (hperm.mem_iff.mpr hhigh)
    refine ⟨⟨?_, fun a ha => hdone.small_le a (hperm.mem_iff.mpr ha)⟩,
      ⟨?_, fun a ha => hdone.le_max a (hperm.mem_iff.mpr ha)⟩, ?_⟩
    · rcases hdone.small with hinitial | hmem
      · -- the initial value is the minimum as well
        have hvalue : (100 : JLong).toInt = 100 := by decide
        rw [hinitial] at hsmall ⊢
        have hsame : low = (100 : JLong) := BitVec.eq_of_toInt_eq (by omega)
        rwa [← hsame]
      · exact hperm.mem_iff.mp hmem
    · rcases hdone.max with hinitial | hmem
      · have hvalue : (0 : JLong).toInt = 0 := by decide
        rw [hinitial] at hmax ⊢
        have hsame : high = (0 : JLong) := BitVec.eq_of_toInt_eq (by omega)
        rwa [← hsame]
      · exact hperm.mem_iff.mp hmem
    · rw [hdone.total, (hperm.map BitVec.toInt).sum_eq]

/-- Two messages, of which one took 150 and one took 7. -/
theorem right_iff_two : ∃ s : State (Fin [(150 : JLong), 7].length) Statics Place,
    (dealing [150, 7]).Reachable s ∧ (∀ i, s.phase i = .left) ∧ Right [150, 7] s.shared := by
  obtain ⟨schedule, s, hs, hall⟩ := exists_dealt ((dealing [150, 7]).reachable_init)
  have hreach : (dealing [150, 7]).Reachable s := ⟨schedule, hs⟩
  exact ⟨s, hreach, hall, (right_iff hreach hall).mpr
    ⟨⟨7, by simp, by decide⟩, 150, by simp, by decide⟩⟩

/-- **One message that took 150 leaves 100 as the minimum.** -/
theorem smallTime_of_one : ∃ s : State (Fin [(150 : JLong)].length) Statics Place,
    (dealing [150]).Reachable s ∧ (∀ i, s.phase i = .left) ∧ s.shared.smallTime = 100 ∧
      ¬ Right [150] s.shared := by
  refine ⟨_, ⟨[0, 0, 0, 0, 0, 0, 0], rfl⟩, by decide, rfl, ?_⟩
  intro hright
  exact absurd hright.smallTime.1 (by decide)

end DealAction
end JavaStudy
