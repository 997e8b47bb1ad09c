/-
# `TcpIpBIOServerThreadPool`: how many threads the pool really has

The pool keeps its runnables in a `Hashtable` with a flag, `true` for one that can be used.  They
are compared by identity, so they are numbers here: `init` makes runnable `i` in round `i` of its
loop.  The loop counts from `MAX_POOL_NUM` down to 0 and takes 0 in, where the one of
`TcpIpBIOClientSocketPool.init` stops before 0.

* `keySet_init`: the pool has `MAX_POOL_NUM + 1` runnables.
* `machine`: any sequence of calls.  `Inv` says that the flag is down for exactly the runnables
  that are out, so a pool carries its own account (`State.ofPool`).
* So the bound `MAX_POOL_NUM` is kept by those sequences, and only those, that do not ask for a
  runnable while `MAX_POOL_NUM` are out (`card_le_iff`); one more is all that is ever lent
  (`card_le_succ`).
-/
import Mathlib.Data.Finset.Card
import JavaStudy.Lib.Machine
import JavaStudy.Lib.Hashtable

namespace JavaStudy
namespace TcpIpBIOServerThreadPool

/-! ## 1. The pool -/

abbrev Runnable := Nat

/-- How often the server tries to get a thread. -/
def MAX_TRY_TIMES : Nat := 20

structure Pool where
  INIT_STATUS : Bool
  /-- `true` for a runnable that can be used. -/
  threadMap : Hashtable Runnable Bool

def Pool.fresh : Pool := ⟨false, .empty⟩

/-- The loop of `init` from round `i` down; round 0 is its last. -/
def initLoop : Nat → Hashtable Runnable Bool → Hashtable Runnable Bool
  | 0, threadMap => threadMap.put 0 true
  | i + 1, threadMap => initLoop i (threadMap.put (i + 1) true)

def init (MAX_POOL_NUM : Nat) (pool : Pool) : Pool :=
  if pool.INIT_STATUS then pool else ⟨true, initLoop MAX_POOL_NUM pool.threadMap⟩

def freeThread (runnable : Option Runnable) (pool : Pool) : Pool :=
  if pool.INIT_STATUS then
    match runnable with
    | none => pool
    | some runnable =>
      match pool.threadMap.get runnable with
      | some _ => { pool with threadMap := pool.threadMap.put runnable true }
      | none => pool
  else pool

/-- `getThread`, with the order in which it iterates over the key set. -/
def getThread (keySet : List Runnable) (pool : Pool) : Pool × Option Runnable :=
  if pool.INIT_STATUS then
    match keySet.find? fun runnable => pool.threadMap.get runnable == some true with
    | some runnable =>
      ({ pool with threadMap := pool.threadMap.put runnable false }, some runnable)
    | none => (pool, none)
  else (pool, none)

/-- The keys that `init` puts, in its order. -/
def rounds (n : Nat) : List Runnable := (List.range (n + 1)).reverse

theorem rounds_succ (n : Nat) : rounds (n + 1) = (n + 1) :: rounds n := by
  rw [rounds, List.range_succ, List.reverse_append]
  rfl

theorem keySet_initLoop {n : Nat} {m : Hashtable Runnable Bool} (h : ∀ i ≤ n, i ∉ m.keySet) :
    (initLoop n m).keySet = m.keySet ++ rounds n := by
  induction n generalizing m with
  | zero => exact Hashtable.keySet_put_of_not_mem (h 0 le_rfl) true
  | succ n ih =>
    have hput : (m.put (n + 1) true).keySet = m.keySet ++ [n + 1] :=
      Hashtable.keySet_put_of_not_mem (h (n + 1) le_rfl) true
    rw [initLoop, ih, hput, rounds_succ, List.append_assoc]
    · rfl
    · intro i hi
      rw [hput, List.mem_append, List.mem_singleton]
      rintro (hmem | rfl)
      · exact h i (by omega) hmem
      · omega

/-- **The pool has one runnable more than `MAX_POOL_NUM`.** -/
theorem keySet_init (n : Nat) : (init n .fresh).threadMap.keySet = rounds n :=
  keySet_initLoop fun _ _ h => by cases h

theorem get_initLoop {n : Nat} {m : Hashtable Runnable Bool} (hm : ∀ k, m.get k ≠ some false)
    (k : Runnable) : (initLoop n m).get k ≠ some false := by
  have hput : ∀ (m : Hashtable Runnable Bool) (i : Runnable), (∀ k, m.get k ≠ some false) →
      ∀ k, (m.put i true).get k ≠ some false := by
    intro m i hm k
    rw [Hashtable.get_put]
    split
    · simp
    · exact hm k
  induction n generalizing m with
  | zero => exact hput m 0 hm k
  | succ n ih => exact ih (hput m (n + 1) hm)

/-- Every runnable of the new pool can be used. -/
theorem get_init (n : Nat) (k : Runnable) : (init n .fresh).threadMap.get k ≠ some false :=
  get_initLoop (fun _ h => by cases h) k

/-! ## 2. What the calls do -/

/-- **What `getThread` does** once the pool is initialised: it lends the first runnable that can be
used, or there is none. -/
theorem getThread_spec (keySet : List Runnable) {pool : Pool} (h : pool.INIT_STATUS = true) :
    (getThread keySet pool = (pool, none) ∧
        ∀ k ∈ keySet, pool.threadMap.get k ≠ some true) ∨
    ∃ k ∈ keySet, pool.threadMap.get k = some true ∧
      getThread keySet pool = ({ pool with threadMap := pool.threadMap.put k false }, some k) := by
  unfold getThread
  rw [if_pos h]
  split
  · rename_i k hk
    exact Or.inr ⟨k, List.mem_of_find?_eq_some hk, by simpa using List.find?_some hk, rfl⟩
  · rename_i hnone
    exact Or.inl ⟨rfl, by simpa using hnone⟩

theorem freeThread_none (pool : Pool) : freeThread none pool = pool := by
  unfold freeThread
  split <;> rfl

/-- **What `freeThread` does** once the pool is initialised. -/
theorem freeThread_some {pool : Pool} (h : pool.INIT_STATUS = true) (k : Runnable) :
    freeThread (some k) pool
      = if k ∈ pool.threadMap.keySet then { pool with threadMap := pool.threadMap.put k true }
        else pool := by
  unfold freeThread
  rw [if_pos h]
  by_cases hk : k ∈ pool.threadMap.keySet
  · obtain ⟨flag, hflag⟩ := Hashtable.mem_keySet_iff.mp hk
    simp only [hflag, if_pos hk]
  · have hnone : pool.threadMap.get k = none := by
      rw [Option.eq_none_iff_forall_ne_some]
      exact fun flag hflag => hk (Hashtable.mem_keySet_of_get hflag)
    simp only [hnone, if_neg hk]

/-! ## 3. Any sequence of calls -/

/-- The pool, and the runnables that were handed out and not freed since. -/
structure State where
  pool : Pool
  out : Finset Runnable

inductive Act where
  /-- A call of `getThread` that iterates over the key set in this order. -/
  | getThread (keySet : List Runnable)
  /-- A call of `freeThread` with any argument. -/
  | freeThread (runnable : Option Runnable)

def step (s : State) : Act → Option State
  | .getThread keySet =>
    if keySet.Perm s.pool.threadMap.keySet then
      match TcpIpBIOServerThreadPool.getThread keySet s.pool with
      | (pool, some runnable) => some ⟨pool, insert runnable s.out⟩
      | (pool, none) => some ⟨pool, s.out⟩
    else none
  | .freeThread runnable =>
    some ⟨TcpIpBIOServerThreadPool.freeThread runnable s.pool, runnable.elim s.out s.out.erase⟩

/-- The calls after `init`. -/
def machine (MAX_POOL_NUM : Nat) : Machine State Act where
  init := ⟨init MAX_POOL_NUM .fresh, ∅⟩
  step := step

/-- The flag is down for exactly the runnables that are out. -/
structure Inv (n : Nat) (s : State) : Prop where
  initialised : s.pool.INIT_STATUS = true
  keySet : s.pool.threadMap.keySet = rounds n
  down_iff : ∀ k, s.pool.threadMap.get k = some false ↔ k ∈ s.out

theorem inv_init (n : Nat) : Inv n (machine n).init where
  initialised := rfl
  keySet := keySet_init n
  down_iff k := ⟨fun h => absurd h (get_init n k), fun h => by cases h⟩

/-- What a call does to a pool and its account. -/
inductive Stepped (s : State) : Act → State → Prop where
  | exhausted (keySet : List Runnable)
      (hnone : ∀ k ∈ s.pool.threadMap.keySet, s.pool.threadMap.get k ≠ some true) :
      Stepped s (.getThread keySet) s
  | lent (keySet : List Runnable) (k : Runnable) (hk : s.pool.threadMap.get k = some true) :
      Stepped s (.getThread keySet)
        ⟨{ s.pool with threadMap := s.pool.threadMap.put k false }, insert k s.out⟩
  | freed (k : Runnable) (hk : k ∈ s.pool.threadMap.keySet) :
      Stepped s (.freeThread (some k))
        ⟨{ s.pool with threadMap := s.pool.threadMap.put k true }, s.out.erase k⟩
  | ignored (runnable : Option Runnable) : Stepped s (.freeThread runnable) s

theorem Inv.mem_keySet {n : Nat} {s : State} (hi : Inv n s) {k : Runnable} (hk : k ∈ s.out) :
    k ∈ s.pool.threadMap.keySet :=
  Hashtable.mem_keySet_of_get ((hi.down_iff k).mpr hk)

theorem step_cases {n : Nat} {s t : State} {a : Act} (hi : Inv n s) (h : step s a = some t) :
    Stepped s a t := by
  cases a with
  | getThread keySet =>
    simp only [step] at h
    split at h
    · rename_i hperm
      rcases getThread_spec keySet hi.initialised with ⟨heq, hnone⟩ | ⟨k, -, hk, heq⟩
      · rw [heq] at h
        cases h
        exact .exhausted keySet fun k hk => hnone k (hperm.mem_iff.mpr hk)
      · rw [heq] at h
        cases h
        exact .lent keySet k hk
    · exact absurd h (by simp)
  | freeThread runnable =>
    simp only [step, Option.some.injEq] at h
    subst h
    cases runnable with
    | none =>
      rw [freeThread_none]
      exact .ignored none
    | some k =>
      rw [freeThread_some hi.initialised]
      by_cases hk : k ∈ s.pool.threadMap.keySet
      · rw [if_pos hk]
        exact .freed k hk
      · have hout : s.out.erase k = s.out :=
          Finset.erase_eq_of_notMem fun hmem => hk (hi.mem_keySet hmem)
        rw [if_neg hk, Option.elim_some, hout]
        exact .ignored (some k)

/-- **A call keeps the account.** -/
theorem step_inv {n : Nat} {s t : State} {a : Act} (hi : Inv n s) (h : step s a = some t) :
    Inv n t := by
  cases step_cases hi h with
  | exhausted keySet hnone => exact hi
  | lent keySet k hk =>
    refine ⟨hi.initialised, ?_, ?_⟩
    · rw [Hashtable.keySet_put_of_mem (Hashtable.mem_keySet_of_get hk)]
      exact hi.keySet
    · intro k'
      rw [Hashtable.get_put, Finset.mem_insert, ← hi.down_iff k']
      by_cases hkk : k' = k <;> simp [hkk]
  | freed k hk =>
    refine ⟨hi.initialised, ?_, ?_⟩
    · rw [Hashtable.keySet_put_of_mem hk]
      exact hi.keySet
    · intro k'
      rw [Hashtable.get_put, Finset.mem_erase, ← hi.down_iff k']
      by_cases hkk : k' = k <;> simp [hkk]
  | ignored runnable => exact hi

theorem reachable_inv {n : Nat} {s : State} (h : (machine n).Reachable s) : Inv n s :=
  h.induct (inv_init n) fun _ _ _ _ hi hst => step_inv hi hst

theorem Inv.out_subset {n : Nat} {s : State} (hi : Inv n s) : s.out ⊆ Finset.range (n + 1) := by
  intro k hk
  have hmem : k ∈ rounds n := hi.keySet ▸ hi.mem_keySet hk
  rwa [rounds, List.mem_reverse, List.mem_range, ← Finset.mem_range] at hmem

/-- **One more than `MAX_POOL_NUM` is never exceeded.** -/
theorem card_le_succ {n : Nat} {s : State} (h : (machine n).Reachable s) :
    s.out.card ≤ n + 1 := by
  calc s.out.card ≤ (Finset.range (n + 1)).card :=
        Finset.card_le_card (reachable_inv h).out_subset
    _ = n + 1 := Finset.card_range (n + 1)

/-- As long as at most `MAX_POOL_NUM` are out, `getThread` lends another one. -/
theorem Inv.available {n : Nat} {s : State} (hi : Inv n s) (hcard : s.out.card ≤ n) :
    ∃ k ∈ s.pool.threadMap.keySet, s.pool.threadMap.get k = some true := by
  have hlt : s.out.card < (Finset.range (n + 1)).card := by
    rw [Finset.card_range]
    omega
  obtain ⟨k, hk, hout⟩ := Finset.exists_mem_notMem_of_card_lt_card hlt
  have hmem : k ∈ s.pool.threadMap.keySet := by
    rw [hi.keySet, rounds, List.mem_reverse, List.mem_range]
    exact Finset.mem_range.mp hk
  obtain ⟨flag, hflag⟩ := Hashtable.mem_keySet_iff.mp hmem
  refine ⟨k, hmem, ?_⟩
  cases flag with
  | true => exact hflag
  | false => exact absurd ((hi.down_iff k).mp hflag) hout

/-! ## 4. The account is in the flags -/

/-- The runnables whose flag is down. -/
def Pool.lent (pool : Pool) : Finset Runnable :=
  pool.threadMap.keySet.toFinset.filter fun k => pool.threadMap.get k = some false

/-- A pool with the account that its flags keep. -/
def State.ofPool (pool : Pool) : State := ⟨pool, pool.lent⟩

theorem mem_lent {pool : Pool} {k : Runnable} :
    k ∈ pool.lent ↔ pool.threadMap.get k = some false := by
  simp only [Pool.lent, Finset.mem_filter, List.mem_toFinset, and_iff_right_iff_imp]
  exact fun h => Hashtable.mem_keySet_of_get h

theorem lent_init (n : Nat) : (init n .fresh).lent = ∅ :=
  Finset.eq_empty_of_forall_notMem fun k hk => get_init n k (mem_lent.mp hk)

theorem lent_put_false (pool : Pool) (k : Runnable) :
    Pool.lent { pool with threadMap := pool.threadMap.put k false } = insert k pool.lent := by
  ext j
  rw [mem_lent, Hashtable.get_put, Finset.mem_insert, mem_lent]
  by_cases hjk : j = k <;> simp [hjk]

theorem lent_put_true (pool : Pool) (k : Runnable) :
    Pool.lent { pool with threadMap := pool.threadMap.put k true } = pool.lent.erase k := by
  ext j
  rw [mem_lent, Hashtable.get_put, Finset.mem_erase, mem_lent]
  by_cases hjk : j = k <;> simp [hjk]

/-- Putting a flag down that is up is a call of `getThread`. -/
theorem step_getThread {pool : Pool} (hinit : pool.INIT_STATUS = true) {k : Runnable}
    (hk : pool.threadMap.get k = some true) :
    step (.ofPool pool) (.getThread (k :: pool.threadMap.keySet.erase k))
      = some (.ofPool { pool with threadMap := pool.threadMap.put k false }) := by
  have hperm : (k :: pool.threadMap.keySet.erase k).Perm pool.threadMap.keySet :=
    (List.perm_cons_erase (Hashtable.mem_keySet_of_get hk)).symm
  have hget : getThread (k :: pool.threadMap.keySet.erase k) pool
      = ({ pool with threadMap := pool.threadMap.put k false }, some k) := by
    unfold getThread
    rw [if_pos hinit, List.find?_cons_of_pos (by rw [hk]; rfl)]
  simp only [step, State.ofPool, if_pos hperm, hget, lent_put_false]

/-- Putting a flag up is a call of `freeThread`. -/
theorem step_freeThread {pool : Pool} (hinit : pool.INIT_STATUS = true) {k : Runnable}
    (hk : k ∈ pool.threadMap.keySet) :
    step (.ofPool pool) (.freeThread (some k))
      = some (.ofPool { pool with threadMap := pool.threadMap.put k true }) := by
  simp only [step, State.ofPool, freeThread_some hinit, if_pos hk, Option.elim_some, lent_put_true]

/-! ## 5. The capacity -/

/-- The call does not ask for a runnable while `MAX_POOL_NUM` are out. -/
def Modest (n : Nat) (s : State) : Act → Prop
  | .getThread _ => s.out.card ≠ n
  | .freeThread _ => True

instance decidableModest (n : Nat) (s : State) : ∀ a, Decidable (Modest n s a)
  | .getThread _ => inferInstanceAs (Decidable (s.out.card ≠ n))
  | .freeThread _ => .isTrue trivial

theorem step_card_iff {n : Nat} {s t : State} {a : Act} (hi : Inv n s) (hs : s.out.card ≤ n)
    (h : step s a = some t) : t.out.card ≤ n ↔ Modest n s a := by
  cases step_cases hi h with
  | exhausted keySet hnone =>
    obtain ⟨k, hmem, hk⟩ := hi.available hs
    exact absurd hk (hnone k hmem)
  | lent keySet k hk =>
    have hout : k ∉ s.out := by
      intro hmem
      have hdown := (hi.down_iff k).mpr hmem
      rw [hk] at hdown
      cases hdown
    rw [Finset.card_insert_of_notMem hout, Modest]
    omega
  | freed k hk =>
    have hle : (s.out.erase k).card ≤ s.out.card := Finset.card_erase_le
    exact iff_of_true (hle.trans hs) trivial
  | ignored runnable => exact iff_of_true hs trivial

/-- **The capacity is respected throughout by exactly the modest sequences of calls.** -/
theorem card_le_iff (n : Nat) (calls : List Act) {s : State}
    (h : (machine n).run (machine n).init calls = some s) :
    (machine n).Along (fun s => s.out.card ≤ n) (machine n).init calls ↔
      (machine n).Meets (Modest n) (machine n).init calls :=
  Machine.along_iff_meets (Nat.zero_le n)
    (fun _ _ _ hr hs hst => step_card_iff (reachable_inv hr) hs hst) h

/-- Capacity 1: a runnable is lent, freed, and lent again; then one more is asked for. -/
theorem card_le_iff_one :
    (machine 1).Along (fun s => s.out.card ≤ 1) (machine 1).init
        [.getThread [1, 0], .freeThread (some 1), .getThread [0, 1]] ∧
      ¬ (machine 1).Along (fun s => s.out.card ≤ 1) (machine 1).init
        [.getThread [1, 0], .freeThread (some 1), .getThread [0, 1], .getThread [1, 0]] := by
  constructor
  · exact (card_le_iff 1 _ rfl).mpr (by decide)
  · exact fun h => absurd ((card_le_iff 1 _ rfl).mp h) (by decide)

/-- With `MAX_POOL_NUM = 0` a runnable is lent all the same. -/
theorem capacity_exceeded :
    ¬ ∀ (n : Nat) (s : State), (machine n).Reachable s → s.out.card ≤ n := by
  intro h
  have hcard := h 0 _ ⟨[.getThread [0]], rfl⟩
  exact absurd hcard (by decide)

end TcpIpBIOServerThreadPool
end JavaStudy
