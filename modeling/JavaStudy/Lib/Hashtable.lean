/-
# `Hashtable`: a finite map with an enumeration of its keys

`java.util.Hashtable` for keys that are compared by identity or by a lawful `equals`: `get`, `put`
and `keySet`.  The entries are a list without repeated keys, which the type carries.

The order in which Java iterates over the key set depends on the hash codes, so it is no part of
the value.  A program that iterates takes the order as an argument, some permutation of `keySet`.

For a `LinkedHashMap` the order of the entries is the one in which the keys were first put, and
`putAll_empty` says what many puts make of an empty one: each key where it came first, with the
value that came last.
-/
import Mathlib.Data.List.Nodup

namespace JavaStudy

/-- A table: its entries, each key once. -/
structure Hashtable (κ ν : Type) where
  entries : List (κ × ν)
  nodup : (entries.map Prod.fst).Nodup

namespace Hashtable

variable {κ ν : Type}

/-! ## 1. The operations -/

def empty : Hashtable κ ν := ⟨[], List.nodup_nil⟩

def keySet (t : Hashtable κ ν) : List κ := t.entries.map Prod.fst

theorem nodup_concat {entries : List (κ × ν)} (hn : (entries.map Prod.fst).Nodup) {k : κ} (v : ν)
    (hk : k ∉ entries.map Prod.fst) : ((entries ++ [(k, v)]).map Prod.fst).Nodup := by
  rw [List.map_append, List.map_singleton]
  exact hn.append (List.nodup_singleton k) (by simpa using hk)

variable [DecidableEq κ]

/-- `get`; `none` is Java's `null`. -/
def get (t : Hashtable κ ν) (k : κ) : Option ν := t.entries.lookup k

/-- The entries with the value of `k` replaced. -/
def replace (entries : List (κ × ν)) (k : κ) (v : ν) : List (κ × ν) :=
  entries.map fun e => (e.1, if e.1 = k then v else e.2)

theorem map_fst_replace (entries : List (κ × ν)) (k : κ) (v : ν) :
    (replace entries k v).map Prod.fst = entries.map Prod.fst := by
  rw [replace, List.map_map]
  rfl

/-- `put`: the value of a key that is there is replaced, another key is added. -/
def put (t : Hashtable κ ν) (k : κ) (v : ν) : Hashtable κ ν :=
  if h : k ∈ t.keySet then
    ⟨replace t.entries k v, by rw [map_fst_replace]; exact t.nodup⟩
  else ⟨t.entries ++ [(k, v)], nodup_concat t.nodup v h⟩

/-! ## 2. Keys and values after a `put` -/

theorem keySet_put_of_mem {t : Hashtable κ ν} {k : κ} (h : k ∈ t.keySet) (v : ν) :
    (t.put k v).keySet = t.keySet := by
  unfold put
  rw [dif_pos h]
  exact map_fst_replace _ _ _

theorem keySet_put_of_not_mem {t : Hashtable κ ν} {k : κ} (h : k ∉ t.keySet) (v : ν) :
    (t.put k v).keySet = t.keySet ++ [k] := by
  unfold put
  rw [dif_neg h]
  exact List.map_append

/-- A key is in the key set exactly if it has a value. -/
theorem mem_keySet_iff {t : Hashtable κ ν} {k : κ} : k ∈ t.keySet ↔ ∃ v, t.get k = some v := by
  rw [← Option.isSome_iff_exists, get, List.lookup_isSome_iff, keySet, List.mem_map]
  refine exists_congr fun e => and_congr_right ?_
  intro _
  rw [beq_iff_eq, eq_comm]

theorem mem_keySet_of_get {t : Hashtable κ ν} {k : κ} {v : ν} (h : t.get k = some v) :
    k ∈ t.keySet := mem_keySet_iff.mpr ⟨v, h⟩

theorem lookup_replace (entries : List (κ × ν)) (k : κ) (v : ν) (k' : κ) :
    (replace entries k v).lookup k'
      = (entries.lookup k').map fun old => if k' = k then v else old := by
  induction entries with
  | nil => rfl
  | cons e entries ih =>
    rw [replace] at ih
    rw [replace, List.map_cons, List.lookup_cons, List.lookup_cons, ih]
    by_cases h : k' = e.1
    · subst h
      rw [beq_self_eq_true]
      rfl
    · rw [beq_eq_false_iff_ne.mpr h]

/-- **`get` after `put`.** -/
theorem get_put (t : Hashtable κ ν) (k : κ) (v : ν) (k' : κ) :
    (t.put k v).get k' = if k' = k then some v else t.get k' := by
  unfold put
  split
  · rename_i hk
    obtain ⟨old, hold⟩ := mem_keySet_iff.mp hk
    rw [get, lookup_replace]
    by_cases h : k' = k
    · subst h
      rw [get] at hold
      simp [hold]
    · simp [h, get]
  · rename_i hk
    have hnone : t.entries.lookup k = none := by
      rw [← Option.not_isSome_iff_eq_none, Option.isSome_iff_exists]
      exact fun h => hk (mem_keySet_iff.mpr h)
    rw [get, get, List.lookup_append, List.lookup_cons]
    by_cases h : k' = k
    · subst h
      simp [hnone]
    · simp [h, beq_eq_false_iff_ne.mpr h]

theorem get_put_eq_update (t : Hashtable κ ν) (k : κ) (v : ν) :
    (t.put k v).get = Function.update t.get k (some v) := by
  funext k'
  rw [get_put, Function.update_apply]

/-! ## 3. Many puts -/

def putAll (t : Hashtable κ ν) (l : List (κ × ν)) : Hashtable κ ν :=
  l.foldl (fun t e => t.put e.1 e.2) t

/-- The last value of a key in a list, if it has one. -/
def lastValue (l : List (κ × ν)) (k : κ) : Option ν := l.reverse.lookup k

/-- Each key of a list where it comes first, with the value that comes last. -/
def lastWins : List (κ × ν) → List (κ × ν)
  | [] => []
  | (k, v) :: l => (k, (lastValue l k).getD v) :: (lastWins l).filter fun e => e.1 ≠ k

theorem lookup_cons_eq (e : κ × ν) (l : List (κ × ν)) (k : κ) :
    (e :: l).lookup k = if k = e.1 then some e.2 else l.lookup k := by
  rw [List.lookup_cons]
  by_cases h : k = e.1
  · rw [beq_iff_eq.mpr h, if_pos h]
  · rw [beq_eq_false_iff_ne.mpr h, if_neg h]

theorem lastValue_cons (e : κ × ν) (l : List (κ × ν)) (k : κ) :
    lastValue (e :: l) k = (lastValue l k).or (if k = e.1 then some e.2 else none) := by
  rw [lastValue, List.reverse_cons, List.lookup_append, lookup_cons_eq]
  rfl

theorem nodup_lastWins (l : List (κ × ν)) : ((lastWins l).map Prod.fst).Nodup := by
  induction l with
  | nil => exact List.nodup_nil
  | cons e l ih =>
    obtain ⟨k, v⟩ := e
    rw [lastWins, List.map_cons, List.nodup_cons]
    constructor
    · intro hk
      obtain ⟨e, he, hek⟩ := List.mem_map.mp hk
      have hne : e.1 ≠ k := by simpa using (List.mem_filter.mp he).2
      exact hne hek
    · exact ih.sublist (List.filter_sublist.map _)

/-- The table in which each key stands where it comes first and has the value that comes last. -/
def ofList (l : List (κ × ν)) : Hashtable κ ν := ⟨lastWins l, nodup_lastWins l⟩

theorem get_putAll (t : Hashtable κ ν) (l : List (κ × ν)) (k : κ) :
    (t.putAll l).get k = (lastValue l k).or (t.get k) := by
  induction l generalizing t with
  | nil => rfl
  | cons e l ih =>
    have hcons : t.putAll (e :: l) = (t.put e.1 e.2).putAll l := rfl
    rw [hcons, ih, get_put, lastValue_cons, Option.or_assoc]
    by_cases h : k = e.1 <;> simp [h]

/-- What is put over a table: the old entries keep their places, the new ones come after them. -/
theorem entries_putAll (t : Hashtable κ ν) (l : List (κ × ν)) :
    (t.putAll l).entries
      = (t.entries.map fun e => (e.1, (lastValue l e.1).getD e.2))
        ++ (lastWins l).filter fun e => e.1 ∉ t.keySet := by
  induction l generalizing t with
  | nil => simp [putAll, lastValue, lastWins]
  | cons e l ih =>
    obtain ⟨k, v⟩ := e
    have hcons : t.putAll ((k, v) :: l) = (t.put k v).putAll l := rfl
    rw [hcons, ih]
    by_cases hk : k ∈ t.keySet
    · have hentries : (t.put k v).entries = replace t.entries k v := by
        rw [put, dif_pos hk]
      rw [keySet_put_of_mem hk, hentries, replace, List.map_map, lastWins,
        List.filter_cons_of_neg (by simpa using hk), List.filter_filter]
      congr 1
      · refine List.map_congr_left ?_
        intro e _
        rw [lastValue_cons]
        by_cases he : e.1 = k
        · cases hv : lastValue l k <;> simp [he, hv]
        · simp [he]
      · refine List.filter_congr ?_
        intro e _
        by_cases he : e.1 = k <;> simp [he, hk]
    · have hentries : (t.put k v).entries = t.entries ++ [(k, v)] := by
        rw [put, dif_neg hk]
      rw [keySet_put_of_not_mem hk, hentries, List.map_append, List.append_assoc, lastWins,
        List.filter_cons_of_pos (by simpa using hk), List.filter_filter]
      congr 1
      · refine List.map_congr_left ?_
        intro e he
        have hne : e.1 ≠ k := by
          rintro rfl
          exact hk (List.mem_map_of_mem he)
        rw [lastValue_cons, if_neg hne, Option.or_none]
      · refine congrArg _ (List.filter_congr ?_)
        intro e _
        by_cases he : e.1 = k <;> simp [he]

omit [DecidableEq κ] in
theorem ext_entries {s t : Hashtable κ ν} (h : s.entries = t.entries) : s = t := by
  cases s
  cases t
  cases h
  rfl

/-- The entries of a list that no later one overwrites. -/
def survivors : List (κ × ν) → List (κ × ν)
  | [] => []
  | e :: l => if e.1 ∈ l.map Prod.fst then survivors l else e :: survivors l

theorem lastValue_isSome_iff {l : List (κ × ν)} {k : κ} :
    (lastValue l k).isSome = true ↔ k ∈ l.map Prod.fst := by
  rw [lastValue, List.lookup_isSome_iff, List.mem_map]
  refine exists_congr fun e => and_congr List.mem_reverse ?_
  rw [beq_iff_eq, eq_comm]

/-- **What survives is the last value of each key.** -/
theorem lookup_survivors (l : List (κ × ν)) (k : κ) : (survivors l).lookup k = lastValue l k := by
  induction l with
  | nil => rfl
  | cons e l ih =>
    rw [survivors, lastValue_cons]
    by_cases hmem : e.1 ∈ l.map Prod.fst
    · rw [if_pos hmem, ih]
      by_cases hk : k = e.1
      · obtain ⟨v, hv⟩ := Option.isSome_iff_exists.mp (lastValue_isSome_iff.mpr (hk ▸ hmem))
        rw [hv]
        rfl
      · rw [if_neg hk, Option.or_none]
    · rw [if_neg hmem, lookup_cons_eq, ih]
      by_cases hk : k = e.1
      · have hnone : lastValue l k = none := by
          rw [← Option.not_isSome_iff_eq_none, lastValue_isSome_iff, hk]
          exact hmem
        rw [hnone, Option.none_or, if_pos hk]
      · rw [if_neg hk, if_neg hk, Option.or_none]

theorem map_fst_survivors_subset (l : List (κ × ν)) :
    (survivors l).map Prod.fst ⊆ l.map Prod.fst := by
  induction l with
  | nil => exact List.Subset.refl []
  | cons e l ih =>
    rw [survivors]
    split
    · exact List.subset_cons_of_subset _ ih
    · exact List.cons_subset_cons _ ih

theorem nodup_survivors (l : List (κ × ν)) : ((survivors l).map Prod.fst).Nodup := by
  induction l with
  | nil => exact List.nodup_nil
  | cons e l ih =>
    rw [survivors]
    split
    · exact ih
    · rename_i hmem
      rw [List.map_cons, List.nodup_cons]
      exact ⟨fun h => hmem (map_fst_survivors_subset l h), ih⟩

theorem survivors_eq_self {l : List (κ × ν)} (h : (l.map Prod.fst).Nodup) : survivors l = l := by
  induction l with
  | nil => rfl
  | cons e l ih =>
    rw [List.map_cons, List.nodup_cons] at h
    rw [survivors, if_neg h.1, ih h.2]

/-- A key that does not come again has its last value. -/
theorem lastValue_append_cons (before : List (κ × ν)) {k : κ} (v : ν) {after : List (κ × ν)}
    (h : k ∉ after.map Prod.fst) : lastValue (before ++ (k, v) :: after) k = some v := by
  have hnone : lastValue after k = none := by
    rw [← Option.not_isSome_iff_eq_none, lastValue_isSome_iff]
    exact h
  rw [lastValue] at hnone
  rw [lastValue, List.reverse_append, List.reverse_cons, List.lookup_append, List.lookup_append,
    hnone, lookup_cons_eq, if_pos rfl]
  rfl

theorem lastValue_map {ν' : Type} (f : ν → ν') (l : List (κ × ν)) (k : κ) :
    lastValue (l.map fun e => (e.1, f e.2)) k = (lastValue l k).map f := by
  induction l with
  | nil => rfl
  | cons e l ih =>
    rw [List.map_cons, lastValue_cons, lastValue_cons, ih, Option.map_or]
    by_cases h : k = e.1
    · rw [if_pos h, if_pos h]
      rfl
    · rw [if_neg h, if_neg h]
      rfl

/-- **Many puts into an empty table.** -/
theorem putAll_empty (l : List (κ × ν)) : putAll empty l = ofList l := by
  refine ext_entries ?_
  rw [entries_putAll]
  simp [empty, keySet, ofList]

theorem ofList_concat (l : List (κ × ν)) (k : κ) (v : ν) :
    (ofList l).put k v = ofList (l ++ [(k, v)]) := by
  rw [← putAll_empty, ← putAll_empty, putAll, putAll, List.foldl_append]
  rfl

theorem get_ofList (l : List (κ × ν)) (k : κ) : (ofList l).get k = lastValue l k := by
  rw [← putAll_empty, get_putAll]
  exact Option.or_none

/-! ## 4. Tables without their order -/

/-- With distinct keys, membership and look-up are one. -/
theorem mem_iff_lookup {l : List (κ × ν)} (h : (l.map Prod.fst).Nodup) {k : κ} {v : ν} :
    (k, v) ∈ l ↔ l.lookup k = some v := by
  induction l with
  | nil => simp
  | cons e l ih =>
    obtain ⟨k', v'⟩ := e
    rw [List.map_cons, List.nodup_cons] at h
    rw [List.mem_cons, Prod.mk.injEq, lookup_cons_eq]
    by_cases hk : k = k'
    · subst hk
      have hnot : (k, v) ∉ l := fun hmem => h.1 (List.mem_map.mpr ⟨_, hmem, rfl⟩)
      simp [hnot, eq_comm]
    · simp [hk, ih h.2]

/-- **Two lists with distinct keys hold the same entries exactly if they look the same.** -/
theorem perm_iff_lookup {l l' : List (κ × ν)} (h : (l.map Prod.fst).Nodup)
    (h' : (l'.map Prod.fst).Nodup) : l.Perm l' ↔ ∀ k, l.lookup k = l'.lookup k := by
  have hnodup : ∀ {l : List (κ × ν)}, (l.map Prod.fst).Nodup → l.Nodup := fun h => .of_map _ h
  rw [List.perm_ext_iff_of_nodup (hnodup h) (hnodup h'), Prod.forall]
  refine forall_congr' ?_
  intro k
  simp only [mem_iff_lookup h, mem_iff_lookup h']
  exact ⟨fun heq => Option.ext heq, fun heq v => by rw [heq]⟩

/-- **What is left of two lists is the same exactly if their last values are.** -/
theorem survivors_perm_iff {l l' : List (κ × ν)} :
    (survivors l).Perm (survivors l') ↔ ∀ k, lastValue l k = lastValue l' k := by
  rw [perm_iff_lookup (nodup_survivors l) (nodup_survivors l')]
  simp only [lookup_survivors]

end Hashtable

end JavaStudy
