/-
# A network of datagrams

Datagrams are on their way in no order.  Each may be taken by the one it is for, be lost, or be
duplicated.  What is lost is remembered, so that datagrams can be counted: all that were sent and
not taken are in `all` (`all_send`, `all_remove`, `all_lose`), unless there were duplicates.  What
holds of all datagrams on their way is kept by whatever the network does with them (`onWay_remove`,
`onWay_lose`, `onWay_duplicate`).
-/
import Mathlib.Data.List.Perm.Basic
import Mathlib.Algebra.BigOperators.Group.List.Basic
import Mathlib.Algebra.GroupWithZero.Nat

namespace JavaStudy

structure Datagrams (π : Type) where
  onWay : List π
  lost : List π

namespace Datagrams

variable {π : Type}

def empty : Datagrams π := ⟨[], []⟩

def send (net : Datagrams π) (p : π) : Datagrams π := { net with onWay := net.onWay ++ [p] }

/-- Somebody has taken the datagram with that index. -/
def remove (net : Datagrams π) (i : Nat) : Datagrams π := { net with onWay := net.onWay.eraseIdx i }

def lose (net : Datagrams π) (i : Nat) : Option (Datagrams π) :=
  (net.onWay[i]?).map fun p => { net.remove i with lost := net.lost ++ [p] }

def duplicate (net : Datagrams π) (i : Nat) : Option (Datagrams π) := (net.onWay[i]?).map net.send

/-- What was sent and not taken. -/
def all (net : Datagrams π) : List π := net.onWay ++ net.lost

/-! ## 1. What is on its way -/

theorem mem_send {net : Datagrams π} {p q : π} :
    q ∈ (net.send p).onWay ↔ q ∈ net.onWay ∨ q = p := by
  simp [send]

theorem onWay_remove {P : π → Prop} {net : Datagrams π} (h : ∀ p ∈ net.onWay, P p) (i : Nat) :
    ∀ p ∈ (net.remove i).onWay, P p :=
  fun p hp => h p (List.mem_of_mem_eraseIdx hp)

theorem onWay_send {P : π → Prop} {net : Datagrams π} (h : ∀ p ∈ net.onWay, P p) {q : π} (hq : P q) :
    ∀ p ∈ (net.send q).onWay, P p := by
  intro p hp
  rcases mem_send.mp hp with hp | rfl
  · exact h p hp
  · exact hq

theorem onWay_lose {P : π → Prop} {net net' : Datagrams π} (h : ∀ p ∈ net.onWay, P p) {i : Nat}
    (hlose : net.lose i = some net') : ∀ p ∈ net'.onWay, P p := by
  obtain ⟨q, -, rfl⟩ := Option.map_eq_some_iff.mp hlose
  exact onWay_remove h i

theorem onWay_duplicate {P : π → Prop} {net net' : Datagrams π} (h : ∀ p ∈ net.onWay, P p) {i : Nat}
    (hduplicate : net.duplicate i = some net') : ∀ p ∈ net'.onWay, P p := by
  obtain ⟨q, hq, rfl⟩ := Option.map_eq_some_iff.mp hduplicate
  exact onWay_send h (h q (List.mem_of_getElem? hq))

/-! ## 2. What was sent and not taken -/

theorem onWay_perm {net : Datagrams π} {i : Nat} {p : π} (h : net.onWay[i]? = some p) :
    net.onWay.Perm (p :: (net.remove i).onWay) := by
  obtain ⟨hi, rfl⟩ := List.getElem?_eq_some_iff.mp h
  exact (List.getElem_cons_eraseIdx_perm hi).symm

theorem all_send (net : Datagrams π) (p : π) : (net.send p).all.Perm (p :: net.all) := by
  rw [all, send, List.append_assoc]
  exact List.perm_middle

theorem all_remove {net : Datagrams π} {i : Nat} {p : π} (h : net.onWay[i]? = some p) :
    net.all.Perm (p :: (net.remove i).all) :=
  (onWay_perm h).append_right net.lost

/-- A datagram that is lost was sent and not taken, as before. -/
theorem all_lose {net net' : Datagrams π} {i : Nat} (h : net.lose i = some net') :
    net'.all.Perm net.all := by
  obtain ⟨p, hp, rfl⟩ := Option.map_eq_some_iff.mp h
  refine List.Perm.trans ?_ (all_remove hp).symm
  rw [all, ← List.append_assoc]
  exact List.perm_append_singleton p _

/-- The weight of what is on its way. -/
def weight (f : π → Nat) (net : Datagrams π) : Nat := (net.onWay.map f).sum

theorem weight_send (f : π → Nat) (net : Datagrams π) (p : π) :
    (net.send p).weight f = net.weight f + f p := by
  simp [weight, send]

theorem weight_remove (f : π → Nat) {net : Datagrams π} {i : Nat} {p : π}
    (h : net.onWay[i]? = some p) : net.weight f = f p + (net.remove i).weight f :=
  ((onWay_perm h).map f).sum_eq

end Datagrams
end JavaStudy
