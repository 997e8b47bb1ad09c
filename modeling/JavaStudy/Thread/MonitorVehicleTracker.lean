/-
# `MonitorVehicleTracker`: points on a heap, behind one monitor

The tracker's map leads from an id to a `MutablePoint`, an object that anybody who has a reference
to it can change.  `getLocations` copies all the points one by one, `setLocation` writes the two
fields of one of them; both hold the monitor of the tracker.  A step reads or writes one field, and
threads come in between as the monitor lets them.

Two kinds of references leave the class.  Who has called `getLocations` may write to the points of
the map that he was given.  And the constructor keeps the caller's map as it is, so that its caller
may write to the tracker's own points, without the monitor.  What he could also do is not modelled:
put points into his map, or null, and remove ids from it.  The map is fixed here.

`Atomic` is what the class is for: locations that are values, and calls that happen at once.
`snapshots_atomic_iff`: along a run the tracker does what `Atomic` does, each call at the moment in
which it takes the monitor, exactly if no write to a field through the constructor's references
changes a location.
-/
import JavaStudy.Lib.Hashtable
import JavaStudy.Lib.Refinement
import Mathlib.Logic.Function.Basic

namespace JavaStudy
namespace MonitorVehicleTracker

/-! ## 1. The program -/

structure MutablePoint where
  x : BitVec 32
  y : BitVec 32
  deriving DecidableEq

/-- A reference: the number of a point in the order in which they were created. -/
abbrev Ref := Nat

abbrev Locations := Hashtable String Ref

/-- A tracker as the constructor leaves it: the map that it was given, an order in which
`keySet` is iterated over, and the points that there are at that time.  Every id leads to a point,
and the map stays as it is: nobody puts into it or removes from it. -/
structure Tracker where
  locations : Locations
  order : List String
  order_perm : order.Perm locations.keySet
  heap : List MutablePoint
  ref_lt : ∀ r ∈ locations.entries.map Prod.snd, r < heap.length

/-- Where a thread stands. -/
inductive Pc where
  | outside
  /-- In `deepCopy`, at the head of the loop, with the ids that are left. -/
  | copy (ids : List String) (result : Locations)
  /-- In `new MutablePoint(loc)`, with `loc.x` read. -/
  | copyY (id : String) (loc : Ref) (ids : List String) (result : Locations) (x : BitVec 32)
  /-- In `setLocation`, at `locations.get(id)`. -/
  | find (id : String) (x y : BitVec 32)
  | setX (loc : Ref) (x y : BitVec 32)
  | setY (loc : Ref) (y : BitVec 32)

variable {ι : Type}

structure State (ι : Type) where
  heap : List MutablePoint
  monitor : Option ι
  pc : ι → Pc
  /-- The maps that were returned, and to whom. -/
  returned : List (ι × Locations)
  /-- The exceptions that were thrown. -/
  thrown : List (ι × String)

inductive Act (ι : Type) where
  /-- The thread takes the monitor for a call. -/
  | getLocations (i : ι)
  | setLocation (i : ι) (id : String) (x y : BitVec 32)
  /-- It goes on with its call. -/
  | next (i : ι)
  /-- The owner of the `k`-th map that was returned writes to a point of it. -/
  | write (k : Nat) (id : String) (p : MutablePoint)
  /-- The caller of the constructor writes to a point that he has put into the map. -/
  | aliased (id : String) (p : MutablePoint)

def message (id : String) : String := "No such ID:" ++ id

variable [DecidableEq ι]

/-- The thread `i` goes on, and keeps the monitor. -/
def State.goOn (s : State ι) (i : ι) (pc : Pc) : State ι :=
  { s with pc := Function.update s.pc i pc }

/-- The thread `i` leaves the monitor. -/
def State.leave (s : State ι) (i : ι) : State ι :=
  { s with monitor := none, pc := Function.update s.pc i .outside }

/-- One step of a call. -/
def next (T : Tracker) (s : State ι) (i : ι) : Pc → Option (State ι)
  | .outside => none
  | .copy [] result => some { s.leave i with returned := s.returned ++ [(i, result)] }
  | .copy (id :: ids) result =>
    (T.locations.get id).bind fun loc =>
      s.heap[loc]?.map fun p => s.goOn i (.copyY id loc ids result p.x)
  | .copyY id loc ids result x =>
    s.heap[loc]?.map fun p =>
      { s.goOn i (.copy ids (result.put id s.heap.length)) with heap := s.heap ++ [⟨x, p.y⟩] }
  | .find id x y =>
    match T.locations.get id with
    | none => some { s.leave i with thrown := s.thrown ++ [(i, message id)] }
    | some loc => some (s.goOn i (.setX loc x y))
  | .setX loc x y =>
    some { s.goOn i (.setY loc y) with heap := s.heap.modify loc fun p => { p with x } }
  | .setY loc y =>
    some { s.leave i with heap := s.heap.modify loc fun p => { p with y } }

/-- A thread that is outside takes the monitor, if it is free. -/
def enter (s : State ι) (i : ι) (pc : Pc) : Option (State ι) :=
  match s.pc i, s.monitor with
  | .outside, none => some { s.goOn i pc with monitor := some i }
  | _, _ => none

def step (T : Tracker) (s : State ι) : Act ι → Option (State ι)
  | .getLocations i => enter s i (.copy T.order .empty)
  | .setLocation i id x y => enter s i (.find id x y)
  | .next i => next T s i (s.pc i)
  | .write k id p =>
    s.returned[k]?.bind fun v => (v.2.get id).map fun r => { s with heap := s.heap.set r p }
  | .aliased id p => (T.locations.get id).map fun r => { s with heap := s.heap.set r p }

/-- Any threads, none of which is inside at first. -/
def machine (ι : Type) [DecidableEq ι] (T : Tracker) : Machine (State ι) (Act ι) where
  init := ⟨T.heap, none, fun _ => .outside, [], []⟩
  step := step T

/-! ## 2. What the class is for -/

/-- The points that a map shows. -/
def contents (heap : List MutablePoint) (t : Locations) (id : String) : Option MutablePoint :=
  (t.get id).bind fun r => heap[r]?

/-- The locations, and what was returned and thrown, as values. -/
structure Atomic (ι : Type) where
  points : String → Option MutablePoint
  snapshots : List (ι × (String → Option MutablePoint))
  thrown : List (ι × String)

inductive Call (ι : Type) where
  | getLocations (i : ι)
  | setLocation (i : ι) (id : String) (x y : BitVec 32)
  | write (k : Nat) (id : String) (p : MutablePoint)

/-- A call takes place at once.  Ids that share a point move together. -/
def Atomic.step (T : Tracker) (a : Atomic ι) : Call ι → Option (Atomic ι)
  | .getLocations i => some { a with snapshots := a.snapshots ++ [(i, a.points)] }
  | .setLocation i id x y =>
    some (match T.locations.get id with
      | none => { a with thrown := a.thrown ++ [(i, message id)] }
      | some _ => { a with
          points := fun id' =>
            if T.locations.get id' = T.locations.get id then some ⟨x, y⟩ else a.points id' })
  | .write k id p =>
    a.snapshots[k]?.bind fun v => (v.2 id).map fun _ =>
      { a with snapshots := a.snapshots.set k (v.1, Function.update v.2 id (some p)) }

def atomic (ι : Type) (T : Tracker) : Machine (Atomic ι) (Call ι) where
  init := ⟨contents T.heap T.locations, [], []⟩
  step := Atomic.step T

/-- What of a step can be seen: the taking of the monitor, and what the owners of the maps do. -/
def Act.visible : Act ι → Option (Call ι)
  | .getLocations i => some (.getLocations i)
  | .setLocation i id x y => some (.setLocation i id x y)
  | .write k id p => some (.write k id p)
  | .next _ => none
  | .aliased _ _ => none

/-- The heap when the thread that stands there has left. -/
def Pc.finish (T : Tracker) (heap : List MutablePoint) : Pc → List MutablePoint
  | .find id x y =>
    match T.locations.get id with
    | none => heap
    | some loc => heap.set loc ⟨x, y⟩
  | .setX loc x y => heap.set loc ⟨x, y⟩
  | .setY loc y => heap.modify loc fun p => { p with y }
  | _ => heap

/-- The map that the thread will be given, if it is in `getLocations`. -/
def Pc.copying (T : Tracker) (heap : List MutablePoint) (i : ι) :
    Pc → List (ι × (String → Option MutablePoint))
  | .copy _ _ | .copyY _ _ _ _ _ => [(i, contents heap T.locations)]
  | _ => []

/-- The exception that it will throw. -/
def Pc.throwing (T : Tracker) (i : ι) : Pc → List (ι × String)
  | .find id _ _ => if T.locations.get id = none then [(i, message id)] else []
  | _ => []

/-- Where the thread in the monitor stands. -/
def State.inside (s : State ι) : Pc :=
  match s.monitor with
  | none => .outside
  | some i => s.pc i

/-- The map that the thread in the monitor will be given. -/
def State.promised (T : Tracker) (s : State ι) : List (ι × (String → Option MutablePoint)) :=
  match s.monitor with
  | none => []
  | some i => (s.pc i).copying T s.heap i

/-- The state as values, with the call of the thread in the monitor done. -/
def State.abs (T : Tracker) (s : State ι) : Atomic ι where
  points := contents (s.inside.finish T s.heap) T.locations
  snapshots := (s.returned.map fun v => (v.1, contents s.heap v.2)) ++ s.promised T
  thrown := s.thrown ++
    match s.monitor with
    | none => []
    | some i => (s.pc i).throwing T i

/-- A write through the constructor's references leaves the locations as they are. -/
def KeepsLocations (T : Tracker) (s : State ι) (a : Act ι) : Prop :=
  ∀ id p, a = .aliased id p → ∀ t, step T s a = some t → (t.abs T).points = (s.abs T).points

section StateOnly
omit [DecidableEq ι]

/-! ## 3. Maps and their points -/

def refs (t : Locations) : List Ref := t.entries.map Prod.snd

theorem mem_refs {t : Locations} {id : String} {r : Ref} (h : t.get id = some r) : r ∈ refs t :=
  List.mem_map_of_mem ((Hashtable.mem_iff_lookup t.nodup).mpr h)

theorem Tracker.lt_of_get (T : Tracker) {id : String} {r : Ref} (h : T.locations.get id = some r) :
    r < T.heap.length := T.ref_lt r (mem_refs h)

/-- A point that stands in a map once belongs to one id. -/
theorem eq_of_get {t : Locations} (hn : (refs t).Nodup) {id id' : String} {r : Ref}
    (h : t.get id = some r) (h' : t.get id' = some r) : id = id' := by
  have heq := List.inj_on_of_nodup_map hn ((Hashtable.mem_iff_lookup t.nodup).mpr h)
    ((Hashtable.mem_iff_lookup t.nodup).mpr h') rfl
  exact congrArg Prod.fst heq

theorem refs_put {t : Locations} {id : String} (h : id ∉ t.keySet) (r : Ref) :
    refs (t.put id r) = refs t ++ [r] := by
  rw [Hashtable.put, dif_neg h]
  exact List.map_append

/-- A map shows its own points only. -/
theorem contents_congr {heap heap' : List MutablePoint} {t : Locations}
    (h : ∀ r ∈ refs t, heap'[r]? = heap[r]?) : contents heap' t = contents heap t := by
  funext id
  rw [contents, contents]
  cases hget : t.get id with
  | none => rfl
  | some r => exact h r (mem_refs hget)

theorem contents_set {heap : List MutablePoint} {t : Locations} {r : Ref} (hr : r < heap.length)
    (p : MutablePoint) (id : String) :
    contents (heap.set r p) t id = if t.get id = some r then some p else contents heap t id := by
  rw [contents, contents]
  cases hget : t.get id with
  | none => simp
  | some r' =>
    simp only [Option.bind_some, List.getElem?_set, Option.some.injEq]
    by_cases hrr : r' = r
    · rw [if_pos hrr.symm, if_pos hr, if_pos hrr]
    · rw [if_neg (Ne.symm hrr), if_neg hrr]

/-- What the heap shows when a thread has left depends on what it shows now, point by point. -/
theorem finish_congr {T : Tracker} {heap heap' : List MutablePoint} {r : Ref} (pc : Pc)
    (h : heap'[r]? = heap[r]?) : (pc.finish T heap')[r]? = (pc.finish T heap)[r]? := by
  cases pc with
  | find id x y =>
    simp only [Pc.finish]
    split
    · exact h
    · simp only [List.getElem?_set', h]
  | setX loc x y => simp only [Pc.finish, List.getElem?_set', h]
  | setY loc y => simp only [Pc.finish, List.getElem?_modify, h]
  | _ => exact h

/-! ## 4. The invariant -/

/-- The points of the map that is being built. -/
def Pc.refs : Pc → List Ref
  | .copy _ result | .copyY _ _ _ result _ => MonitorVehicleTracker.refs result
  | _ => []

/-- All the points that have been copied. -/
def State.refs (s : State ι) : List Ref :=
  (s.returned.flatMap fun v => MonitorVehicleTracker.refs v.2) ++ s.inside.refs

/-- The ids before those that are left have been copied, with what the locations show. -/
def Copied (T : Tracker) (heap : List MutablePoint) (ids : List String) (result : Locations) :
    Prop :=
  T.order = result.keySet ++ ids ∧
    ∀ id ∈ result.keySet, contents heap result id = contents heap T.locations id

def Pc.Good (T : Tracker) (heap : List MutablePoint) : Pc → Prop
  | .copy ids result => Copied T heap ids result
  | .copyY id loc ids result x =>
    Copied T heap (id :: ids) result ∧ T.locations.get id = some loc ∧
      (heap[loc]?.map MutablePoint.x) = some x
  | .setX loc _ _ | .setY loc _ => loc < T.heap.length
  | _ => True

structure Inv (T : Tracker) (s : State ι) : Prop where
  lock : ∀ i, s.pc i ≠ .outside → s.monitor = some i
  size : T.heap.length ≤ s.heap.length
  separate : s.refs.Nodup
  fresh : ∀ r ∈ s.refs, T.heap.length ≤ r ∧ r < s.heap.length
  good : s.inside.Good T s.heap

theorem inside_of_monitor {s : State ι} {i : ι} (h : s.monitor = some i) : s.inside = s.pc i := by
  rw [State.inside, h]

/-- What the state shows while a thread is in the monitor. -/
theorem abs_of_monitor (T : Tracker) {s : State ι} {i : ι} (h : s.monitor = some i) :
    s.abs T =
      { points := contents ((s.pc i).finish T s.heap) T.locations
        snapshots := (s.returned.map fun v => (v.1, contents s.heap v.2)) ++
          (s.pc i).copying T s.heap i
        thrown := s.thrown ++ (s.pc i).throwing T i } := by
  simp only [State.abs, State.promised, State.inside, h]

theorem refs_of_pc {s : State ι} {i : ι} (hm : s.monitor = some i) {pc : Pc} (hpc : s.pc i = pc) :
    s.refs = (s.returned.flatMap fun v => refs v.2) ++ pc.refs := by
  rw [State.refs, inside_of_monitor hm, hpc]

theorem good_of_pc {T : Tracker} {s : State ι} {i : ι} (hi : Inv T s) (hm : s.monitor = some i)
    {pc : Pc} (hpc : s.pc i = pc) : pc.Good T s.heap := by
  rw [← hpc, ← inside_of_monitor hm]
  exact hi.good

/-- While nobody is in the monitor the state shows its points as they are. -/
theorem abs_of_free (T : Tracker) {s : State ι} (h : s.monitor = none) :
    s.abs T =
      { points := contents s.heap T.locations
        snapshots := s.returned.map fun v => (v.1, contents s.heap v.2)
        thrown := s.thrown } := by
  simp [State.abs, State.promised, State.inside, h, Pc.finish]

/-- The copying thread sees the locations as they are. -/
theorem copying_congr {T : Tracker} {heap heap' : List MutablePoint} (i : ι) {pc : Pc}
    (h : contents (pc.finish T heap') T.locations = contents (pc.finish T heap) T.locations) :
    pc.copying T heap' i = pc.copying T heap i := by
  cases pc with
  | copy ids result => exact congrArg (fun c => [(i, c)]) h
  | copyY id loc ids result x => exact congrArg (fun c => [(i, c)]) h
  | _ => rfl

/-- The points of the tracker are no copies. -/
theorem Inv.not_mem_refs {T : Tracker} {s : State ι} (hi : Inv T s) {r : Ref}
    (hr : r < T.heap.length) : r ∉ s.refs :=
  fun hmem => absurd (hi.fresh r hmem).1 (Nat.not_le.mpr hr)

theorem refs_subset_of_returned {s : State ι} {v : ι × Locations} (hv : v ∈ s.returned) {r : Ref}
    (hr : r ∈ refs v.2) : r ∈ s.refs :=
  List.mem_append_left _ (List.mem_flatMap.mpr ⟨v, hv, hr⟩)

/-- No point belongs to two of the maps that were returned. -/
theorem Inv.not_mem_other {T : Tracker} {s : State ι} (hi : Inv T s) {j k : Nat}
    {v w : ι × Locations} (hv : s.returned[k]? = some v) (hw : s.returned[j]? = some w)
    (hne : j ≠ k) {r : Ref} (hr : r ∈ refs v.2) : r ∉ refs w.2 := by
  have hpair := (List.nodup_flatMap.mp (List.nodup_append.mp hi.separate).1).2
  rw [List.pairwise_iff_getElem] at hpair
  obtain ⟨hk, rfl⟩ := List.getElem?_eq_some_iff.mp hv
  obtain ⟨hj, rfl⟩ := List.getElem?_eq_some_iff.mp hw
  obtain hlt | hgt := Nat.lt_or_gt_of_ne hne
  · exact fun hmem => hpair j k hj hk hlt hmem hr
  · exact fun hmem => hpair k j hk hj hgt hr hmem

/-- What was returned shows the same on a heap that agrees at the copies. -/
theorem map_returned_congr {s : State ι} {heap : List MutablePoint}
    (h : ∀ r ∈ s.refs, heap[r]? = s.heap[r]?) :
    (s.returned.map fun v => (v.1, contents heap v.2)) =
      s.returned.map fun v => (v.1, contents s.heap v.2) := by
  refine List.map_congr_left ?_
  intro v hv
  rw [contents_congr fun r hr => h r (refs_subset_of_returned hv hr)]

/-- A map that has copied all ids shows what the locations show. -/
theorem Copied.contents_eq {T : Tracker} {heap : List MutablePoint} {result : Locations}
    (h : Copied T heap [] result) : contents heap result = contents heap T.locations := by
  obtain ⟨horder, hsame⟩ := h
  rw [List.append_nil] at horder
  funext id
  by_cases hid : id ∈ result.keySet
  · exact hsame id hid
  · have hlocation : id ∉ T.locations.keySet := by
      rw [← horder] at hid
      exact fun hmem => hid (T.order_perm.mem_iff.mpr hmem)
    have hnone : ∀ {t : Locations}, id ∉ t.keySet → t.get id = none := by
      intro t ht
      rw [← Option.not_isSome_iff_eq_none, Option.isSome_iff_exists]
      exact fun hsome => ht (Hashtable.mem_keySet_iff.mpr hsome)
    rw [contents, contents, hnone hid, hnone hlocation]

/-- The ids that are left have not been copied. -/
theorem not_mem_of_order {T : Tracker} {id : String} {ids keys : List String}
    (h : T.order = keys ++ id :: ids) : id ∉ keys := by
  have hn : (keys ++ id :: ids).Nodup := h ▸ T.order_perm.nodup_iff.mpr T.locations.nodup
  intro hid
  exact (List.nodup_append.mp hn).2.2 id hid id List.mem_cons_self rfl

/-- The copies and the locations are where they were. -/
theorem Copied.congr {T : Tracker} {heap heap' : List MutablePoint} {ids : List String}
    {result : Locations} (h : Copied T heap ids result)
    (hresult : ∀ r ∈ refs result, heap'[r]? = heap[r]?)
    (hlocations : contents heap' T.locations = contents heap T.locations) :
    Copied T heap' ids result := by
  refine ⟨h.1, fun id hid => ?_⟩
  rw [contents_congr hresult, hlocations]
  exact h.2 id hid

/-- A copy on a heap that has grown by it. -/
theorem contents_concat {heap : List MutablePoint} {t : Locations}
    (h : ∀ r ∈ refs t, r < heap.length) (p : MutablePoint) :
    contents (heap ++ [p]) t = contents heap t :=
  contents_congr fun r hr => List.getElem?_append_left (h r hr)

/-- One more id is copied. -/
theorem Copied.put {T : Tracker} {heap : List MutablePoint} {id : String} {ids : List String}
    {result : Locations} {loc : Ref} {p : MutablePoint} (h : Copied T heap (id :: ids) result)
    (hget : T.locations.get id = some loc) (hp : heap[loc]? = some p)
    (hresult : ∀ r ∈ refs result, r < heap.length)
    (hlocations : ∀ r ∈ refs T.locations, r < heap.length) :
    Copied T (heap ++ [p]) ids (result.put id heap.length) := by
  obtain ⟨horder, hsame⟩ := h
  have hid : id ∉ result.keySet := not_mem_of_order horder
  refine ⟨?_, ?_⟩
  · rw [Hashtable.keySet_put_of_not_mem hid, horder, List.append_assoc]
    rfl
  · intro id' hid'
    rw [contents_concat hlocations, contents, Hashtable.get_put]
    by_cases heq : id' = id
    · subst heq
      rw [if_pos rfl, contents, hget]
      simpa using hp.symm
    · rw [if_neg heq]
      rw [Hashtable.keySet_put_of_not_mem hid, List.mem_append, List.mem_singleton] at hid'
      have hold := hsame id' (hid'.resolve_right heq)
      rw [← hold]
      exact congrFun (contents_concat hresult p) id'

/-! ## 5. Writes to the heap -/

/-- The copies stay where they are when a location is written. -/
theorem Inv.getElem?_modify {T : Tracker} {s : State ι} (hi : Inv T s) {loc : Ref}
    (hloc : loc < T.heap.length) (f : MutablePoint → MutablePoint) {r : Ref} (hr : r ∈ s.refs) :
    (s.heap.modify loc f)[r]? = s.heap[r]? := by
  have hne : loc ≠ r := by
    rintro rfl
    exact hi.not_mem_refs hloc hr
  simp [hne]

/-- A write to a point of the `k`-th map shows in that map, at its id, and nowhere else. -/
theorem Inv.map_returned_set {T : Tracker} {s : State ι} (hi : Inv T s) {k : Nat}
    {v : ι × Locations} (hv : s.returned[k]? = some v) {id : String} {r : Ref}
    (hget : v.2.get id = some r) (p : MutablePoint) :
    (s.returned.map fun w => (w.1, contents (s.heap.set r p) w.2)) =
      (s.returned.map fun w => (w.1, contents s.heap w.2)).set k
        (v.1, Function.update (contents s.heap v.2) id (some p)) := by
  have hrefs := mem_refs hget
  have hlt := (hi.fresh r (refs_subset_of_returned (List.mem_of_getElem? hv) hrefs)).2
  refine List.ext_getElem? ?_
  intro j
  rw [List.getElem?_set', List.getElem?_map, List.getElem?_map]
  by_cases hjk : k = j
  · subst hjk
    have hn : (refs v.2).Nodup :=
      (List.nodup_flatMap.mp (List.nodup_append.mp hi.separate).1).1 v (List.mem_of_getElem? hv)
    have hown : contents (s.heap.set r p) v.2 =
        Function.update (contents s.heap v.2) id (some p) := by
      funext id'
      rw [contents_set hlt, Function.update_apply]
      refine if_congr ⟨fun h => eq_of_get hn h hget, ?_⟩ rfl rfl
      rintro rfl
      exact hget
    simp [hv, hown]
  · rw [if_neg hjk]
    cases hw : s.returned[j]? with
    | none => rfl
    | some w =>
      have hother := hi.not_mem_other hv hw (Ne.symm hjk) hrefs
      have hsame : contents (s.heap.set r p) w.2 = contents s.heap w.2 :=
        contents_congr fun r' hr' => List.getElem?_set_ne (ne_of_mem_of_not_mem hr' hother).symm
      rw [Option.map_some, Option.map_some, hsame]

/-- The points of the tracker are not touched by a write to a copy. -/
theorem Inv.locations_set {T : Tracker} {s : State ι} (hi : Inv T s) {r : Ref} (hr : r ∈ s.refs)
    (p : MutablePoint) {r' : Ref} (hr' : r' < T.heap.length) :
    (s.heap.set r p)[r']? = s.heap[r']? := by
  refine List.getElem?_set_ne ?_
  rintro rfl
  exact hi.not_mem_refs hr' hr

/-- The thread in the monitor stands as well on a heap that shows the same to it. -/
theorem Pc.Good.congr {T : Tracker} {heap heap' : List MutablePoint} {pc : Pc}
    (h : pc.Good T heap) (hrefs : ∀ r ∈ pc.refs, heap'[r]? = heap[r]?)
    (hlocations : contents (pc.finish T heap') T.locations =
      contents (pc.finish T heap) T.locations) : pc.Good T heap' := by
  cases pc with
  | copy ids result => exact Copied.congr h hrefs hlocations
  | copyY id loc ids result x =>
    obtain ⟨hcopied, hget, hx⟩ := h
    refine ⟨hcopied.congr hrefs hlocations, hget, ?_⟩
    have hat := congrFun hlocations id
    simp only [contents, hget, Option.bind_some] at hat
    rw [← hx]
    exact congrArg (Option.map MutablePoint.x) hat
  | _ => exact h

section Outside
variable {T : Tracker} {s : State ι} {heap : List MutablePoint}
  (hlocations : contents (s.inside.finish T heap) T.locations =
    contents (s.inside.finish T s.heap) T.locations)
include hlocations

/-- What shows when the heap is written to, but the locations are not. -/
theorem abs_heap : State.abs T { s with heap := heap } =
    { s.abs T with
      snapshots := (s.returned.map fun v => (v.1, contents heap v.2)) ++ s.promised T } := by
  have hpromised : State.promised T { s with heap := heap } = s.promised T := by
    unfold State.promised
    dsimp only
    split
    · rfl
    · rename_i i hm
      rw [inside_of_monitor hm] at hlocations
      exact copying_congr i hlocations
  simp only [State.abs, hpromised, Atomic.mk.injEq, and_true]
  exact hlocations

theorem Inv.of_heap (hi : Inv T s) (hlength : heap.length = s.heap.length)
    (hinside : ∀ r ∈ s.inside.refs, heap[r]? = s.heap[r]?) : Inv T { s with heap := heap } where
  lock := hi.lock
  size := hlength ▸ hi.size
  separate := hi.separate
  fresh r hr := hlength ▸ hi.fresh r hr
  good := hi.good.congr hinside hlocations

end Outside

end StateOnly

/-! ## 6. A thread goes on -/

theorem inv_init (T : Tracker) : Inv T (machine ι T).init where
  lock _ h := absurd rfl h
  size := le_rfl
  separate := List.nodup_nil
  fresh _ h := absurd h List.not_mem_nil
  good := trivial

@[simp] theorem inside_goOn {s : State ι} {i : ι} (h : s.monitor = some i) (pc : Pc) :
    (s.goOn i pc).inside = pc := by
  simp [State.inside, State.goOn, h]

/-- What a step of the thread in the monitor leaves, apart from what it does to the heap. -/
structure Moves (s t : State ι) (i : ι) : Prop where
  inside : s.monitor = some i
  others : ∀ j, j ≠ i → t.pc j = s.pc j
  holds : t.pc i ≠ .outside → t.monitor = some i

theorem Moves.lock {T : Tracker} {s t : State ι} {i : ι} (h : Moves s t i) (hi : Inv T s) (j : ι)
    (hj : t.pc j ≠ .outside) : t.monitor = some j := by
  by_cases hji : j = i
  · subst hji
    exact h.holds hj
  · rw [h.others j hji] at hj
    have hmon := hi.lock j hj
    rw [h.inside, Option.some.injEq] at hmon
    exact absurd hmon.symm hji

theorem moves_goOn {s : State ι} {i : ι} (hm : s.monitor = some i) (pc : Pc)
    (heap : List MutablePoint) : Moves s { s.goOn i pc with heap := heap } i where
  inside := hm
  others _ hj := Function.update_of_ne hj _ _
  holds _ := hm

theorem moves_leave {s : State ι} {i : ι} (hm : s.monitor = some i) (heap : List MutablePoint)
    (returned : List (ι × Locations)) (thrown : List (ι × String)) :
    Moves s { s.leave i with heap := heap, returned := returned, thrown := thrown } i where
  inside := hm
  others _ hj := Function.update_of_ne hj _ _
  holds h := absurd (Function.update_self i _ s.pc) h

/-- A step that adds no copy keeps the invariant, if the thread stands where it may. -/
theorem Inv.moves {T : Tracker} {s t : State ι} {i : ι} (hi : Inv T s) (h : Moves s t i)
    (hsize : s.heap.length = t.heap.length) (hrefs : t.refs = s.refs)
    (hgood : t.inside.Good T t.heap) : Inv T t where
  lock := h.lock hi
  size := hsize ▸ hi.size
  separate := hrefs ▸ hi.separate
  fresh r hr := hsize ▸ hi.fresh r (hrefs ▸ hr)
  good := hgood

/-- The two writes of `setLocation` make one. -/
theorem modify_modify (heap : List MutablePoint) (loc : Ref) (x y : BitVec 32) :
    ((heap.modify loc fun p => { p with x }).modify loc fun p => { p with y }) =
      heap.set loc ⟨x, y⟩ := by
  refine List.ext_getElem? ?_
  intro r
  simp only [List.getElem?_modify, List.getElem?_set']
  by_cases h : loc = r
  · cases heap[r]? <;> simp [h]
  · simp [h]

/-- What holds after a step of the thread in the monitor. -/
abbrev Unseen (T : Tracker) (s t : State ι) : Prop := t.abs T = s.abs T ∧ Inv T t

section Steps
variable {T : Tracker} {s : State ι} {i : ι} (hi : Inv T s) (hm : s.monitor = some i)
include hi hm

/-- The copy is complete. -/
theorem unseen_return {result : Locations} (hpc : s.pc i = .copy [] result) :
    Unseen T s { s.leave i with returned := s.returned ++ [(i, result)] } := by
  have hgood := good_of_pc hi hm hpc
  refine ⟨?_, hi.moves (moves_leave hm _ _ _) rfl ?_ trivial⟩
  · rw [abs_of_monitor T hm, hpc]
    simp [State.abs, State.promised, State.inside, State.leave, Pc.finish, Pc.copying, Pc.throwing,
      Copied.contents_eq hgood]
  · rw [refs_of_pc hm hpc]
    simp [State.refs, State.inside, State.leave, Pc.refs]

theorem unseen_copyX {id : String} {ids : List String} {result : Locations} {loc : Ref}
    {p : MutablePoint} (hpc : s.pc i = .copy (id :: ids) result)
    (hget : T.locations.get id = some loc) (hp : s.heap[loc]? = some p) :
    Unseen T s (s.goOn i (.copyY id loc ids result p.x)) := by
  have hgood := good_of_pc hi hm hpc
  have hin := inside_goOn hm (.copyY id loc ids result p.x)
  refine ⟨?_, hi.moves (moves_goOn hm _ _) rfl ?_ ?_⟩
  · rw [abs_of_monitor T hm, hpc, abs_of_monitor (i := i) T (by exact hm)]
    simp [State.goOn, Pc.finish, Pc.copying, Pc.throwing]
  · rw [State.refs, hin, refs_of_pc hm hpc]
    rfl
  · rw [hin]
    exact ⟨hgood, hget, by simp [State.goOn, hp]⟩

theorem unseen_copyY {id : String} {ids : List String} {result : Locations} {loc : Ref}
    {x : BitVec 32} {p : MutablePoint} (hpc : s.pc i = .copyY id loc ids result x)
    (hp : s.heap[loc]? = some p) :
    Unseen T s { s.goOn i (.copy ids (result.put id s.heap.length)) with
      heap := s.heap ++ [⟨x, p.y⟩] } := by
  obtain ⟨hcopied, hget, hx⟩ := good_of_pc hi hm hpc
  rw [hp, Option.map_some, Option.some.injEq] at hx
  subst hx
  have hrefs := refs_of_pc hm hpc
  have hresult : ∀ r ∈ refs result, r < s.heap.length := fun r hr =>
    (hi.fresh r (hrefs ▸ List.mem_append_right _ hr)).2
  have hlocations : ∀ r ∈ refs T.locations, r < s.heap.length := fun r hr =>
    (T.ref_lt r hr).trans_le hi.size
  have hput := refs_put (not_mem_of_order hcopied.1) s.heap.length
  have hin := inside_goOn hm (.copy ids (result.put id s.heap.length))
  have hgrown : State.refs { s.goOn i (.copy ids (result.put id s.heap.length)) with
      heap := s.heap ++ [p] } = s.refs ++ [s.heap.length] := by
    rw [hrefs, List.append_assoc]
    exact congrArg _ ((congrArg Pc.refs hin).trans hput)
  refine ⟨?_, (moves_goOn hm _ _).lock hi, ?_, ?_, ?_, ?_⟩
  · have hold : ∀ r ∈ s.refs, (s.heap ++ [p])[r]? = s.heap[r]? := fun r hr =>
      List.getElem?_append_left (hi.fresh r hr).2
    have hreturned := map_returned_congr hold
    rw [abs_of_monitor T hm, hpc, abs_of_monitor (i := i) T (by exact hm)]
    simp [State.goOn, Pc.finish, Pc.copying, Pc.throwing, contents_concat hlocations, hreturned]
  · exact hi.size.trans (by simp)
  · rw [hgrown]
    refine hi.separate.append (List.nodup_singleton _) ?_
    simpa using fun hmem => absurd (hi.fresh _ hmem).2 (lt_irrefl _)
  · intro r hr
    rw [hgrown, List.mem_append, List.mem_singleton] at hr
    rw [List.length_append]
    obtain hold | rfl := hr
    · exact ⟨(hi.fresh r hold).1, Nat.lt_succ_of_lt (hi.fresh r hold).2⟩
    · exact ⟨hi.size, Nat.lt_succ_self _⟩
  · exact (congrArg (Pc.Good T _) hin).mpr (hcopied.put hget hp hresult hlocations)

theorem unseen_throw {id : String} {x y : BitVec 32} (hpc : s.pc i = .find id x y)
    (hget : T.locations.get id = none) :
    Unseen T s { s.leave i with thrown := s.thrown ++ [(i, message id)] } := by
  refine ⟨?_, hi.moves (moves_leave hm _ _ _) rfl ?_ trivial⟩
  · rw [abs_of_monitor T hm, hpc]
    simp [State.abs, State.promised, State.inside, State.leave, Pc.finish, Pc.copying,
      Pc.throwing, hget]
  · rw [refs_of_pc hm hpc]
    simp [State.refs, State.inside, State.leave, Pc.refs]

theorem unseen_find {id : String} {x y : BitVec 32} {loc : Ref} (hpc : s.pc i = .find id x y)
    (hget : T.locations.get id = some loc) : Unseen T s (s.goOn i (.setX loc x y)) := by
  have hin := inside_goOn hm (.setX loc x y)
  refine ⟨?_, hi.moves (moves_goOn hm _ _) rfl ?_ ?_⟩
  · rw [abs_of_monitor T hm, hpc, abs_of_monitor (i := i) T (by exact hm)]
    simp [State.goOn, Pc.finish, Pc.copying, Pc.throwing, hget]
  · rw [State.refs, hin, refs_of_pc hm hpc]
    rfl
  · rw [hin]
    exact T.lt_of_get hget

theorem unseen_setX {loc : Ref} {x y : BitVec 32} (hpc : s.pc i = .setX loc x y) :
    Unseen T s { s.goOn i (.setY loc y) with heap := s.heap.modify loc fun p => { p with x } } := by
  have hloc : loc < T.heap.length := good_of_pc hi hm hpc
  have hin := inside_goOn hm (.setY loc y)
  refine ⟨?_, hi.moves (moves_goOn hm _ _) (by simp) ?_ ?_⟩
  · rw [abs_of_monitor T hm, hpc, abs_of_monitor (i := i) T (by exact hm)]
    have hreturned := map_returned_congr fun r hr =>
      hi.getElem?_modify hloc (fun p => { p with x }) hr
    simp [State.goOn, Pc.finish, Pc.copying, Pc.throwing, modify_modify, hreturned]
  · rw [refs_of_pc hm hpc]
    exact congrArg _ (congrArg Pc.refs hin)
  · exact (congrArg (Pc.Good T _) hin).mpr hloc

theorem unseen_setY {loc : Ref} {y : BitVec 32} (hpc : s.pc i = .setY loc y) :
    Unseen T s { s.leave i with heap := s.heap.modify loc fun p => { p with y } } := by
  have hloc : loc < T.heap.length := good_of_pc hi hm hpc
  refine ⟨?_, hi.moves (moves_leave hm _ _ _) (by simp) ?_ trivial⟩
  · rw [abs_of_monitor T hm, hpc]
    have hreturned := map_returned_congr fun r hr =>
      hi.getElem?_modify hloc (fun p => { p with y }) hr
    simp [State.abs, State.promised, State.inside, State.leave, Pc.finish, Pc.copying,
      Pc.throwing, hreturned]
  · rw [refs_of_pc hm hpc]
    simp [State.refs, State.inside, State.leave, Pc.refs]

end Steps

/-- **A step inside a call is not seen, and keeps the invariant.** -/
theorem next_spec {T : Tracker} {s t : State ι} {i : ι} (hi : Inv T s)
    (h : next T s i (s.pc i) = some t) : Unseen T s t := by
  have hm : s.monitor = some i := by
    refine hi.lock i fun hpc => ?_
    rw [hpc] at h
    simp [next] at h
  cases hpc : s.pc i with
  | outside => rw [hpc] at h; simp [next] at h
  | copy ids result =>
    rw [hpc] at h
    cases ids with
    | nil =>
      rw [next, Option.some.injEq] at h
      exact h ▸ unseen_return hi hm hpc
    | cons id ids =>
      obtain ⟨loc, hget, h⟩ := Option.bind_eq_some_iff.mp h
      obtain ⟨p, hp, rfl⟩ := Option.map_eq_some_iff.mp h
      exact unseen_copyX hi hm hpc hget hp
  | copyY id loc ids result x =>
    rw [hpc] at h
    obtain ⟨p, hp, rfl⟩ := Option.map_eq_some_iff.mp h
    exact unseen_copyY hi hm hpc hp
  | find id x y =>
    rw [hpc] at h
    cases hget : T.locations.get id with
    | none =>
      simp only [next, hget, Option.some.injEq] at h
      exact h ▸ unseen_throw hi hm hpc hget
    | some loc =>
      simp only [next, hget, Option.some.injEq] at h
      exact h ▸ unseen_find hi hm hpc hget
  | setX loc x y =>
    rw [hpc, next, Option.some.injEq] at h
    exact h ▸ unseen_setX hi hm hpc
  | setY loc y =>
    rw [hpc, next, Option.some.injEq] at h
    exact h ▸ unseen_setY hi hm hpc

/-! ## 7. Calls, and writes from outside -/

theorem enter_eq_some {s t : State ι} {i : ι} {pc : Pc} (h : enter s i pc = some t) :
    s.pc i = .outside ∧ s.monitor = none ∧ t = { s.goOn i pc with monitor := some i } := by
  unfold enter at h
  split at h
  · rename_i hpc hm
    exact ⟨hpc, hm, (Option.some.inj h).symm⟩
  · simp at h

/-- Who takes the monitor keeps the invariant, if he brings no copies. -/
theorem Inv.enter {T : Tracker} {s : State ι} {i : ι} {pc : Pc} (hi : Inv T s)
    (hm : s.monitor = none) (hrefs : pc.refs = []) (hgood : pc.Good T s.heap) :
    Inv T { s.goOn i pc with monitor := some i } := by
  have hin : State.inside { s.goOn i pc with monitor := some i } = pc := by
    simp [State.inside, State.goOn]
  have hsame : State.refs { s.goOn i pc with monitor := some i } = s.refs := by
    have hout : s.inside.refs = [] := by rw [State.inside, hm]; rfl
    rw [State.refs, hin, State.refs, hrefs, hout]
    rfl
  refine ⟨?_, hi.size, hsame ▸ hi.separate, fun r hr => hi.fresh r (hsame ▸ hr), ?_⟩
  · intro j hj
    by_cases hji : j = i
    · exact congrArg some hji.symm
    · have hold : s.pc j ≠ .outside := by
        rwa [show State.pc { s.goOn i pc with monitor := some i } j = s.pc j from
          Function.update_of_ne hji _ _] at hj
      rw [hi.lock j hold] at hm
      simp at hm
  · exact (congrArg (Pc.Good T _) hin).mpr hgood

/-- **A call of `getLocations` takes place when it takes the monitor.** -/
theorem getLocations_spec {T : Tracker} {s t : State ι} {i : ι} (hi : Inv T s)
    (h : step T s (.getLocations i) = some t) :
    (atomic ι T).step (s.abs T) (.getLocations i) = some (t.abs T) ∧ Inv T t := by
  obtain ⟨hpc, hm, rfl⟩ := enter_eq_some h
  refine ⟨?_, hi.enter hm rfl ⟨rfl, fun id hid => absurd hid List.not_mem_nil⟩⟩
  rw [abs_of_free T hm, abs_of_monitor (i := i) T rfl]
  simp [atomic, Atomic.step, State.goOn, Pc.finish, Pc.copying, Pc.throwing]

/-- **A call of `setLocation` takes place when it takes the monitor.** -/
theorem setLocation_spec {T : Tracker} {s t : State ι} {i : ι} {id : String} {x y : BitVec 32}
    (hi : Inv T s) (h : step T s (.setLocation i id x y) = some t) :
    (atomic ι T).step (s.abs T) (.setLocation i id x y) = some (t.abs T) ∧ Inv T t := by
  obtain ⟨hpc, hm, rfl⟩ := enter_eq_some h
  refine ⟨?_, hi.enter hm rfl trivial⟩
  rw [abs_of_free T hm, abs_of_monitor (i := i) T rfl]
  cases hget : T.locations.get id with
  | none => simp [atomic, Atomic.step, State.goOn, Pc.finish, Pc.copying, Pc.throwing, hget]
  | some loc =>
    have hset : contents (s.heap.set loc ⟨x, y⟩) T.locations = fun id' =>
        if T.locations.get id' = some loc then some ⟨x, y⟩ else contents s.heap T.locations id' :=
      funext fun id' => contents_set ((T.lt_of_get hget).trans_le hi.size) _ id'
    simp [atomic, Atomic.step, State.goOn, Pc.finish, Pc.copying, Pc.throwing, hget, hset]

/-- **A write to a map that was returned changes that map only.** -/
theorem write_spec {T : Tracker} {s t : State ι} {k : Nat} {id : String} {p : MutablePoint}
    (hi : Inv T s) (h : step T s (.write k id p) = some t) :
    (atomic ι T).step (s.abs T) (.write k id p) = some (t.abs T) ∧ Inv T t := by
  obtain ⟨v, hv, h⟩ := Option.bind_eq_some_iff.mp h
  obtain ⟨r, hget, rfl⟩ := Option.map_eq_some_iff.mp h
  have hmem := List.mem_of_getElem? hv
  have hrefs : r ∈ s.refs := refs_subset_of_returned hmem (mem_refs hget)
  have hinside : ∀ r' ∈ s.inside.refs, (s.heap.set r p)[r']? = s.heap[r']? := by
    intro r' hr'
    refine List.getElem?_set_ne ?_
    exact (List.nodup_append.mp hi.separate).2.2 r
      (List.mem_flatMap.mpr ⟨v, hmem, mem_refs hget⟩) r' hr'
  have hlocations : contents (s.inside.finish T (s.heap.set r p)) T.locations =
      contents (s.inside.finish T s.heap) T.locations :=
    contents_congr fun r' hr' => finish_congr _ (hi.locations_set hrefs p (T.ref_lt r' hr'))
  refine ⟨?_, hi.of_heap hlocations (List.length_set ..) hinside⟩
  have hk : k < s.returned.length := (List.getElem?_eq_some_iff.mp hv).1
  have hshown : contents s.heap v.2 id = some (s.heap.get ⟨r, (hi.fresh r hrefs).2⟩) := by
    simp [contents, hget, (hi.fresh r hrefs).2]
  have hbefore : (s.abs T).snapshots[k]? = some (v.1, contents s.heap v.2) := by
    rw [State.abs, List.getElem?_append_left (by rwa [List.length_map]), List.getElem?_map, hv]
    rfl
  have hafter : (s.abs T).snapshots.set k (v.1, Function.update (contents s.heap v.2) id (some p)) =
      (s.returned.map fun w => (w.1, contents (s.heap.set r p) w.2)) ++ s.promised T := by
    rw [State.abs, List.set_append_left _ _ (by rwa [List.length_map]),
      hi.map_returned_set hv hget p]
  rw [abs_heap hlocations, ← hafter]
  simp [atomic, Atomic.step, hbefore, hshown]

/-- What a write through the constructor's references does, if it changes no location. -/
theorem aliased_spec {T : Tracker} {s t : State ι} {id : String} {p : MutablePoint}
    (hi : Inv T s) (hC : KeepsLocations T s (.aliased id p))
    (h : step T s (.aliased id p) = some t) : Unseen T s t := by
  have hpoints := hC id p rfl t h
  obtain ⟨r, hget, rfl⟩ := Option.map_eq_some_iff.mp h
  have hlocations : contents (s.inside.finish T (s.heap.set r p)) T.locations =
      contents (s.inside.finish T s.heap) T.locations := hpoints
  have hcopies : ∀ r' ∈ s.refs, (s.heap.set r p)[r']? = s.heap[r']? := by
    intro r' hr'
    refine List.getElem?_set_ne ?_
    rintro rfl
    exact hi.not_mem_refs (T.lt_of_get hget) hr'
  refine ⟨?_, hi.of_heap hlocations (List.length_set ..) fun r' hr' =>
    hcopies r' (List.mem_append_right _ hr')⟩
  rw [abs_heap hlocations, map_returned_congr hcopies]
  rfl

/-! ## 8. The whole run -/

theorem inv_of_within {T : Tracker} {s : State ι}
    (h : (machine ι T).Within (KeepsLocations T) s) : Inv T s := by
  refine h.induct (inv_init T) ?_
  intro s a t _ hi hC hst
  cases a with
  | getLocations i => exact (getLocations_spec hi hst).2
  | setLocation i id x y => exact (setLocation_spec hi hst).2
  | next i => exact (next_spec hi hst).2
  | write k id p => exact (write_spec hi hst).2
  | aliased id p => exact (aliased_spec hi hC hst).2

/-- **The tracker refines the atomic one, as long as its locations are left alone.** -/
theorem refines (ι : Type) [DecidableEq ι] (T : Tracker) :
    (machine ι T).Refines (atomic ι T) (State.abs T) Act.visible (KeepsLocations T) where
  init := abs_of_free T rfl
  seen s a t b hs hC hst hb := by
    have hi := inv_of_within hs
    cases a with
    | getLocations i => cases hb; exact (getLocations_spec hi hst).1
    | setLocation i id x y => cases hb; exact (setLocation_spec hi hst).1
    | write k id p => cases hb; exact (write_spec hi hst).1
    | next i => simp [Act.visible] at hb
    | aliased id p => simp [Act.visible] at hb
  unseen s a t hs hC hst hb := by
    have hi := inv_of_within hs
    cases a with
    | next i => exact (next_spec hi hst).1
    | aliased id p => exact (aliased_spec hi hC hst).1
    | getLocations i => simp [Act.visible] at hb
    | setLocation i id x y => simp [Act.visible] at hb
    | write k id p => simp [Act.visible] at hb

/-- **Exactly then a run is atomic**: each `getLocations` returns the locations of the moment in
which it took the monitor, each `setLocation` sets both coordinates then, and who writes to a map
that was returned to him changes that map and nothing else; all this if and only if no write to a
field through the references that the constructor was given changes a location. -/
theorem snapshots_atomic_iff (T : Tracker) {as : List (Act ι)} {s : State ι}
    (hr : (machine ι T).run (machine ι T).init as = some s) :
    (machine ι T).Follows (atomic ι T) (State.abs T) Act.visible as ↔
      (machine ι T).Meets (KeepsLocations T) (machine ι T).init as := by
  refine (refines ι T).run_iff ?_ hr
  intro s a t _ hst hC
  have hchanges : ∃ id p, a = .aliased id p ∧ (t.abs T).points ≠ (s.abs T).points := by
    by_contra hno
    refine hC fun id p ha u hu => ?_
    have hut : u = t := Option.some.inj (hu.symm.trans hst)
    by_contra hne
    exact hno ⟨id, p, ha, hut ▸ hne⟩
  obtain ⟨id, p, rfl, hne⟩ := hchanges
  exact ⟨rfl, fun heq => hne (congrArg Atomic.points heq)⟩

/-- One taxi, at `(1, 2)`. -/
def taxi : Tracker where
  locations := Hashtable.empty.put "taxi" 0
  order := ["taxi"]
  order_perm := by decide
  heap := [⟨1, 2⟩]
  ref_lt := by decide

/-- A copy, a move and another copy, and a write to the first copy. -/
def moved : List (Act Bool) :=
  [.getLocations true, .next true, .next true, .next true, .setLocation false "taxi" 3 4,
    .next false, .next false, .next false, .getLocations false, .next false, .next false,
    .next false, .write 0 "taxi" ⟨5, 6⟩]

/-- A write of the constructor's caller in the middle of a copy. -/
def torn : List (Act Bool) :=
  [.getLocations true, .next true, .aliased "taxi" ⟨5, 2⟩, .next true, .next true]

theorem moved_atomic_torn_not :
    (machine Bool taxi).Follows (atomic Bool taxi) (State.abs taxi) Act.visible moved ∧
      ¬ (machine Bool taxi).Follows (atomic Bool taxi) (State.abs taxi) Act.visible torn := by
  refine ⟨(snapshots_atomic_iff taxi rfl).mpr ?_, ?_⟩
  · refine Machine.meets_of_forall ?_ _
    intro a ha s id p heq
    subst heq
    simp [moved] at ha
  · rw [snapshots_atomic_iff taxi rfl]
    rintro ⟨-, h⟩
    obtain ⟨-, h⟩ := h _ rfl
    have hkeeps := congrFun (((h _ rfl).1 "taxi" ⟨5, 2⟩ rfl) _ rfl) "taxi"
    revert hkeeps
    decide

end MonitorVehicleTracker
end JavaStudy
