/-
# `TcpIpBIOClientSocketPool.init`: failed calls and retries

`init` puts each socket into the map as soon as it is connected.  If a later one fails, `init`
throws and the sockets stay, while `INIT_STATUS` stays `false`; a retry adds `MAX_POOL_NUM` more.

Here `init` is called again and again and nothing else happens.  A label says of one call whether
`getLocalHost` succeeds and which of its rounds connect; the sockets are numbered as they are
connected, so each is another one than all before.

* `length_initLoop`: a call leaves as many sockets more as it has connected.
* `init_atomic_iff`: the calls are atomic exactly as long as no call fails behind its first socket.
-/
import JavaStudy.Bio.SocketPool

namespace JavaStudy
namespace TcpIpBIOClientSocketPool
namespace Retries

/-! ## 1. Calls of `init` -/

/-- What the network answers to one call. -/
structure Attempt where
  localHost : Bool
  /-- Whether `new Socket` connects in round `i`, where `i` goes from `MAX_POOL_NUM` down. -/
  connects : Nat → Bool

/-- A call that is over. -/
structure Call where
  before : Hashtable Socket Bool
  after : Hashtable Socket Bool
  failed : Bool

structure State where
  pool : Pool
  /-- The number of the next socket. -/
  next : Socket
  calls : List Call

/-- The network for a call whose sockets have the numbers from `next` on. -/
def Attempt.network (attempt : Attempt) (MAX_POOL_NUM : Nat) (next : Socket) : Network where
  localHost := attempt.localHost
  newSocket i := if attempt.connects i then some (next + MAX_POOL_NUM - i) else none

def step (MAX_POOL_NUM : Nat) (s : State) (attempt : Attempt) : Option State :=
  let r := init MAX_POOL_NUM (attempt.network MAX_POOL_NUM s.next) s.pool
  let failed :=
    match r.2 with
    | .ok () => false
    | .error _ => true
  some
    { pool := r.1
      next := s.next + MAX_POOL_NUM
      calls := s.calls ++ [⟨s.pool.socketMap, r.1.socketMap, failed⟩] }

def machine (MAX_POOL_NUM : Nat) : Machine State Attempt where
  init := ⟨.fresh, 0, []⟩
  step := step MAX_POOL_NUM

/-- `init` is atomic: a failed call has changed nothing, and a pool that is initialised holds its
number of sockets, all available. -/
structure Atomic (MAX_POOL_NUM : Nat) (s : State) : Prop where
  unchanged : ∀ call ∈ s.calls, call.failed = true → call.after = call.before
  filled : s.pool.INIT_STATUS = true →
    s.pool.socketMap.keySet.length = MAX_POOL_NUM ∧
      ∀ socket ∈ s.pool.socketMap.keySet, s.pool.socketMap.get socket = some true

/-- All rounds connect. -/
def Attempt.Connected (attempt : Attempt) (MAX_POOL_NUM : Nat) : Prop :=
  ∀ i, 0 < i → i ≤ MAX_POOL_NUM → attempt.connects i = true

/-- If the call fails, it fails before it has a socket: at `getLocalHost` or in its first round. -/
def Clean (MAX_POOL_NUM : Nat) (s : State) (attempt : Attempt) : Prop :=
  s.pool.INIT_STATUS = true ∨ attempt.localHost = false ∨ attempt.Connected MAX_POOL_NUM ∨
    attempt.connects MAX_POOL_NUM = false

/-! ## 2. One call -/

/-- How many rounds connect before one fails, from round `n` down. -/
def connected (connects : Nat → Bool) : Nat → Nat
  | 0 => 0
  | i + 1 => if connects (i + 1) then connected connects i + 1 else 0

theorem connected_eq_iff {connects : Nat → Bool} {n : Nat} :
    connected connects n = n ↔ ∀ i, 0 < i → i ≤ n → connects i = true := by
  induction n with
  | zero =>
    refine ⟨fun _ i hpos hle => ?_, fun _ => rfl⟩
    omega
  | succ n ih =>
    rw [connected]
    by_cases hn : connects (n + 1) = true
    · rw [if_pos hn, Nat.succ_inj, ih]
      constructor
      · intro h i hpos hle
        rcases Nat.lt_or_eq_of_le hle with hlt | rfl
        · exact h i hpos (Nat.le_of_lt_succ hlt)
        · exact hn
      · intro h i hpos hle
        exact h i hpos (Nat.le_succ_of_le hle)
    · rw [if_neg hn]
      constructor
      · intro h
        exact absurd h (Nat.succ_ne_zero n).symm
      · intro h
        exact absurd (h (n + 1) (Nat.succ_pos n) (Nat.le_refl _)) hn

/-- **The loop adds the sockets that it has connected**, and succeeds if that is all of them. -/
theorem length_initLoop (connects : Nat → Bool) {last n : Nat} {m : Hashtable Socket Bool}
    (hn : n ≤ last) (hm : ∀ socket : Nat, socket ∈ m.keySet → socket < last - n) :
    (initLoop (fun i => if connects i then some (last - i) else none) n m).1.keySet.length =
      m.keySet.length + connected connects n ∧
    (initLoop (fun i => if connects i then some (last - i) else none) n m).2 =
      if connected connects n = n then .ok () else .error .ioException := by
  induction n generalizing m with
  | zero => exact ⟨rfl, rfl⟩
  | succ n ih =>
    rw [initLoop, connected]
    by_cases hc : connects (n + 1) = true
    · rw [if_pos hc, if_pos hc]
      have hnew : last - (n + 1) ∉ m.keySet := fun hmem => absurd (hm _ hmem) (Nat.lt_irrefl _)
      have hkeys : (m.put (last - (n + 1)) true).keySet = m.keySet ++ [last - (n + 1)] :=
        Hashtable.keySet_put_of_not_mem hnew true
      have hnext : ∀ socket : Nat, socket ∈ (m.put (last - (n + 1)) true).keySet →
          socket < last - n := by
        intro socket hsocket
        rw [hkeys, List.mem_append, List.mem_singleton] at hsocket
        rcases hsocket with hsocket | rfl
        · have hlt := hm socket hsocket
          omega
        · omega
      obtain ⟨hlength, hresult⟩ := ih (by omega) hnext
      refine ⟨?_, ?_⟩
      · simp only [hlength, hkeys, List.length_append, List.length_singleton]
        omega
      · simp only [hresult, Nat.succ_inj]
    · rw [if_neg hc, if_neg hc]
      exact ⟨rfl, (if_neg (Nat.succ_ne_zero n).symm).symm⟩

/-- How many sockets a call connects. -/
def Attempt.created (attempt : Attempt) (MAX_POOL_NUM : Nat) : Nat :=
  if attempt.localHost then connected attempt.connects MAX_POOL_NUM else 0

/-- **One call on a fresh pool**: its sockets are in the map, and it succeeds if that is all. -/
theorem init_fresh (MAX_POOL_NUM : Nat) (attempt : Attempt) (next : Socket) :
    ∃ m : Hashtable Socket Bool, m.keySet.length = attempt.created MAX_POOL_NUM ∧
      ((attempt.localHost = true ∧ attempt.Connected MAX_POOL_NUM) ∧
          init MAX_POOL_NUM (attempt.network MAX_POOL_NUM next) .fresh = (⟨true, m⟩, .ok ()) ∨
        ¬(attempt.localHost = true ∧ attempt.Connected MAX_POOL_NUM) ∧
          init MAX_POOL_NUM (attempt.network MAX_POOL_NUM next) .fresh =
            (⟨false, m⟩, .error .ioException)) := by
  cases hlocal : attempt.localHost with
  | false =>
    refine ⟨.empty, ?_, Or.inr ⟨by simp, ?_⟩⟩
    · rw [Attempt.created, hlocal]
      rfl
    · simp only [init, Pool.fresh, Attempt.network, hlocal, Bool.false_eq_true, if_false]
  | true =>
    have hnone : ∀ socket : Nat, socket ∈ (Hashtable.empty : Hashtable Socket Bool).keySet →
        socket < next + MAX_POOL_NUM - MAX_POOL_NUM :=
      fun _ h => absurd h (by simp [Hashtable.empty, Hashtable.keySet])
    obtain ⟨hlength, hresult⟩ :=
      length_initLoop attempt.connects (Nat.le_add_left MAX_POOL_NUM next) hnone
    obtain ⟨⟨m, result⟩, hr⟩ : ∃ r, r = initLoop
        (fun i => if attempt.connects i then some (next + MAX_POOL_NUM - i) else none)
        MAX_POOL_NUM .empty := ⟨_, rfl⟩
    rw [← hr] at hlength hresult
    refine ⟨m, ?_, ?_⟩
    · rw [hlength, Attempt.created, hlocal]
      exact Nat.zero_add _
    · simp only [init, Pool.fresh, Attempt.network, hlocal, Bool.false_eq_true, if_false, if_true,
        ← hr, true_and]
      simp only at hresult
      rw [hresult, Attempt.Connected, ← connected_eq_iff]
      by_cases hall : connected attempt.connects MAX_POOL_NUM = MAX_POOL_NUM
      · rw [if_pos hall]
        exact Or.inl ⟨hall, rfl⟩
      · rw [if_neg hall]
        exact Or.inr ⟨hall, rfl⟩

/-- A call that fails without a socket. -/
theorem created_eq_zero_iff {MAX_POOL_NUM : Nat} {attempt : Attempt}
    (h : ¬(attempt.localHost = true ∧ attempt.Connected MAX_POOL_NUM)) :
    attempt.created MAX_POOL_NUM = 0 ↔
      attempt.localHost = false ∨ attempt.connects MAX_POOL_NUM = false := by
  unfold Attempt.created
  cases hlocal : attempt.localHost with
  | false => simp
  | true =>
    rw [if_pos rfl]
    cases MAX_POOL_NUM with
    | zero =>
      refine absurd ⟨hlocal, ?_⟩ h
      intro i hpos hle
      omega
    | succ n =>
      rw [connected]
      cases hn : attempt.connects (n + 1) with
      | false => simp
      | true => simp

theorem eq_empty_iff {m : Hashtable Socket Bool} : m = .empty ↔ m.keySet.length = 0 := by
  constructor
  · rintro rfl
    rfl
  · intro h
    obtain ⟨entries, hnodup⟩ := m
    have hnil : entries = [] := by
      rw [Hashtable.keySet, List.length_map] at h
      exact List.length_eq_zero_iff.mp h
    subst hnil
    rfl

/-! ## 3. Every sequence of calls -/

/-- As long as the failed calls have changed nothing, the pool is fresh or initialised. -/
def Kept (s : State) : Prop :=
  (∀ call ∈ s.calls, call.failed = true → call.after = call.before) →
    s.pool.INIT_STATUS = false → s.pool = .fresh

theorem forall_mem_concat {P : Call → Prop} {calls : List Call} {call : Call} :
    (∀ c ∈ calls ++ [call], P c) ↔ (∀ c ∈ calls, P c) ∧ P call := by
  simp only [List.mem_append, List.mem_singleton, or_imp, forall_and, forall_eq]

theorem step_kept {MAX_POOL_NUM : Nat} {s t : State} {attempt : Attempt} (hs : Kept s)
    (h : step MAX_POOL_NUM s attempt = some t) : Kept t := by
  cases h
  intro hcalls hstatus
  rw [forall_mem_concat] at hcalls
  obtain ⟨hcalls, hlast⟩ := hcalls
  cases hinit : s.pool.INIT_STATUS with
  | true =>
    simp only [init_of_status hinit, hinit] at hstatus
    exact absurd hstatus (by simp)
  | false =>
    have hfresh : s.pool = .fresh := hs hcalls hinit
    simp only [hfresh] at hlast hstatus ⊢
    rcases init_fresh MAX_POOL_NUM attempt s.next with ⟨m, -, hok | herror⟩
    · rw [hok.2] at hstatus
      exact absurd hstatus (by simp)
    · rw [herror.2] at hlast ⊢
      have hm : m = .empty := hlast rfl
      rw [hm]
      rfl

theorem reachable_kept {MAX_POOL_NUM : Nat} {s : State} (h : (machine MAX_POOL_NUM).Reachable s) :
    Kept s :=
  Machine.Reachable.induct (I := Kept) (fun _ _ => rfl) (fun _ _ _ _ hs hst => step_kept hs hst) h

/-- Whatever a call leaves of available sockets is available. -/
theorem available_init {MAX_POOL_NUM : Nat} {net : Network} {m : Hashtable Socket Bool}
    {result : Except Throwable Unit} {status : Bool}
    (h : init MAX_POOL_NUM net .fresh = (⟨status, m⟩, result)) (socket : Socket)
    (hmem : socket ∈ m.keySet) : m.get socket = some true := by
  have hnone : ∀ k, Pool.fresh.socketMap.get k ≠ some false := by
    intro k
    simp [Pool.fresh, Hashtable.get, Hashtable.empty]
  have hspec := init_spec MAX_POOL_NUM net hnone socket
  rw [h] at hspec
  obtain ⟨flag, hflag⟩ := Hashtable.mem_keySet_iff.mp hmem
  simp only [hflag] at hspec ⊢
  cases flag with
  | true => rfl
  | false => exact absurd rfl hspec

theorem step_atomic_iff {MAX_POOL_NUM : Nat} {s t : State} {attempt : Attempt} (hkept : Kept s)
    (hs : Atomic MAX_POOL_NUM s) (h : step MAX_POOL_NUM s attempt = some t) :
    Atomic MAX_POOL_NUM t ↔ Clean MAX_POOL_NUM s attempt := by
  cases h
  cases hinit : s.pool.INIT_STATUS with
  | true =>
    refine iff_of_true ⟨?_, ?_⟩ (Or.inl hinit)
    · rw [forall_mem_concat, init_of_status hinit]
      exact ⟨hs.unchanged, fun _ => rfl⟩
    · simp only [init_of_status hinit]
      exact hs.filled
  | false =>
    have hfresh : s.pool = .fresh := hkept hs.unchanged hinit
    rcases init_fresh MAX_POOL_NUM attempt s.next with
      ⟨m, hlength, ⟨hall, hresult⟩ | ⟨hpart, hresult⟩⟩
    · refine iff_of_true ⟨?_, ?_⟩ (Or.inr (Or.inr (Or.inl hall.2)))
      · simp only [hfresh, hresult]
        rw [forall_mem_concat]
        exact ⟨hs.unchanged, fun h => absurd h (by simp)⟩
      · intro _
        simp only [hfresh, hresult]
        refine ⟨?_, available_init hresult⟩
        rw [hlength, Attempt.created, if_pos hall.1]
        exact connected_eq_iff.mpr hall.2
    · have hatomic : m = .empty ↔ Clean MAX_POOL_NUM s attempt := by
        rw [eq_empty_iff, hlength, created_eq_zero_iff hpart, Clean, hinit]
        constructor
        · rintro (hlocal | hfirst)
          · exact Or.inr (Or.inl hlocal)
          · exact Or.inr (Or.inr (Or.inr hfirst))
        · rintro (hstatus | hlocal | hconnected | hfirst)
          · exact absurd hstatus (by simp)
          · exact Or.inl hlocal
          · exact Or.inl (Bool.eq_false_iff.mpr fun hlocal => hpart ⟨hlocal, hconnected⟩)
          · exact Or.inr hfirst
      rw [← hatomic]
      constructor
      · intro ht
        have hlast := (forall_mem_concat.mp ht.unchanged).2
        simp only [hfresh, hresult] at hlast
        exact hlast trivial
      · intro hm
        refine ⟨?_, ?_⟩
        · simp only [hfresh, hresult]
          rw [forall_mem_concat]
          exact ⟨hs.unchanged, fun _ => hm⟩
        · simp only [hfresh, hresult]
          exact fun h => absurd h (by simp)

theorem atomic_init (MAX_POOL_NUM : Nat) : Atomic MAX_POOL_NUM (machine MAX_POOL_NUM).init where
  unchanged call h := absurd h (by simp [machine])
  filled h := absurd h (by simp [machine, Pool.fresh])

/-- **`init` is atomic along a sequence of calls exactly if every call that fails has not connected
a socket yet**, for any capacity and any failures. -/
theorem init_atomic_iff {MAX_POOL_NUM : Nat} {attempts : List Attempt} {s : State}
    (h : (machine MAX_POOL_NUM).run (machine MAX_POOL_NUM).init attempts = some s) :
    (machine MAX_POOL_NUM).Along (Atomic MAX_POOL_NUM) (machine MAX_POOL_NUM).init attempts ↔
      (machine MAX_POOL_NUM).Meets (Clean MAX_POOL_NUM) (machine MAX_POOL_NUM).init attempts :=
  Machine.along_iff_meets (atomic_init MAX_POOL_NUM)
    (fun _ _ _ hr hs hst => step_atomic_iff (reachable_kept hr) hs hst) h

/-- `init_atomic_iff` for a call that fails in its first round, and a retry. -/
theorem init_atomic_iff_retry :
    (machine 2).Along (Atomic 2) (machine 2).init
      [⟨false, fun _ => true⟩, ⟨true, fun i => i == 1⟩, ⟨true, fun _ => true⟩] := by
  refine (init_atomic_iff rfl).mpr ⟨Or.inr (Or.inl rfl), ?_⟩
  rintro t ⟨⟩
  refine ⟨Or.inr (Or.inr (Or.inr rfl)), ?_⟩
  rintro t ⟨⟩
  exact ⟨Or.inr (Or.inr (Or.inl fun _ _ _ => rfl)), fun _ _ => trivial⟩

/-- A call that fails in its second round leaves a socket behind, and the retry adds two. -/
theorem failed_init_leaks :
    ¬∀ (MAX_POOL_NUM : Nat) (attempts : List Attempt) (s : State),
      (machine MAX_POOL_NUM).run (machine MAX_POOL_NUM).init attempts = some s →
      Atomic MAX_POOL_NUM s := by
  intro h
  have hatomic := h 2 [⟨true, fun i => i == 2⟩, ⟨true, fun _ => true⟩] _ rfl
  exact absurd (hatomic.filled rfl).1 (by decide)

end Retries
end TcpIpBIOClientSocketPool
end JavaStudy
