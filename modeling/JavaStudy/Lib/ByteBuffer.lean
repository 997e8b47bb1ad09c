/-
# `java.nio.ByteBuffer`

A buffer is an array with a position and a limit, `position ≤ limit ≤ capacity`, which the type
carries.  A channel's `read` puts bytes at the position, a channel's `write` takes bytes from there;
both move the position, and neither moves more than `remaining`.

`content` is what stands between position and limit, `filled` what stands before the position.  The
life of a buffer in a copy loop is `clear`, puts, `flip`, takes, `compact`, and the rules say what
that does to the two: `filled_put`, `content_flip`, `content_take`, `filled_compact`.
-/
import Mathlib.Data.Nat.Basic

namespace JavaStudy

abbrev Byte := BitVec 8

structure ByteBuffer where
  array : List Byte
  position : Nat
  limit : Nat
  position_le : position ≤ limit
  limit_le : limit ≤ array.length

namespace ByteBuffer

/-! ## 1. The operations -/

def allocate (capacity : Nat) : ByteBuffer where
  array := List.replicate capacity 0
  position := 0
  limit := capacity
  position_le := Nat.zero_le _
  limit_le := by simp

/-- A buffer over all of an array. -/
def wrap (array : List Byte) : ByteBuffer where
  array := array
  position := 0
  limit := array.length
  position_le := Nat.zero_le _
  limit_le := Nat.le_refl _

def capacity (b : ByteBuffer) : Nat := b.array.length

def remaining (b : ByteBuffer) : Nat := b.limit - b.position

def hasRemaining (b : ByteBuffer) : Bool := b.position < b.limit

def clear (b : ByteBuffer) : ByteBuffer where
  array := b.array
  position := 0
  limit := b.capacity
  position_le := Nat.zero_le _
  limit_le := Nat.le_refl _

def flip (b : ByteBuffer) : ByteBuffer where
  array := b.array
  position := 0
  limit := b.position
  position_le := Nat.zero_le _
  limit_le := le_trans b.position_le b.limit_le

theorem put_bounds {b : ByteBuffer} {bytes : List Byte} (h : bytes.length ≤ b.remaining) :
    b.position + bytes.length ≤ b.limit ∧
    (b.array.take b.position ++ bytes ++ b.array.drop (b.position + bytes.length)).length
      = b.capacity := by
  have hp := b.position_le
  have hl := b.limit_le
  simp only [remaining] at h
  simp only [capacity, List.length_append, List.length_take, List.length_drop]
  omega

/-- Put bytes at the position, at most `remaining` of them. -/
def put (b : ByteBuffer) (bytes : List Byte) : Option ByteBuffer :=
  if h : bytes.length ≤ b.remaining then
    some
      { array := b.array.take b.position ++ bytes ++ b.array.drop (b.position + bytes.length)
        position := b.position + bytes.length
        limit := b.limit
        position_le := (put_bounds h).1
        limit_le := by rw [(put_bounds h).2]; exact b.limit_le }
  else none

/-- The bytes between position and limit. -/
def content (b : ByteBuffer) : List Byte := (b.array.take b.limit).drop b.position

/-- Take `n` bytes from the position, at most `remaining`: the bytes and the buffer after it. -/
def take (b : ByteBuffer) (n : Nat) : Option (List Byte × ByteBuffer) :=
  if h : n ≤ b.remaining then
    some (b.content.take n,
      { array := b.array
        position := b.position + n
        limit := b.limit
        position_le := by have := b.position_le; simp only [remaining] at h; omega
        limit_le := b.limit_le })
  else none

/-- The byte at an index below the limit, wherever the position is. -/
def get (b : ByteBuffer) (index : Nat) (h : index < b.limit) : Byte :=
  b.array.get ⟨index, lt_of_lt_of_le h b.limit_le⟩

theorem compact_length (b : ByteBuffer) :
    (b.content ++ b.array.drop b.content.length).length = b.capacity := by
  have hl := b.limit_le
  simp only [content, capacity, List.length_append, List.length_drop, List.length_take]
  omega

/-- The bytes between position and limit move to the front, and there is room behind them. -/
def compact (b : ByteBuffer) : ByteBuffer where
  array := b.content ++ b.array.drop b.content.length
  position := b.content.length
  limit := b.capacity
  position_le := by
    have hle : b.content.length ≤ (b.content ++ b.array.drop b.content.length).length := by simp
    rw [b.compact_length] at hle
    exact hle
  limit_le := by rw [b.compact_length]

/-! ## 2. The content -/

theorem length_content (b : ByteBuffer) : b.content.length = b.remaining := by
  have hl := b.limit_le
  simp only [content, remaining, List.length_drop, List.length_take]
  omega

theorem hasRemaining_eq_false_iff {b : ByteBuffer} : b.hasRemaining = false ↔ b.content = [] := by
  rw [← List.length_eq_zero_iff, length_content]
  simp [hasRemaining, remaining]
  omega

/-- Between the bounds of a buffer that was cleared stands everything. -/
theorem content_eq_array {b : ByteBuffer} (hposition : b.position = 0)
    (hlimit : b.limit = b.capacity) : b.content = b.array := by
  rw [content, hposition, hlimit, capacity, List.take_length, List.drop_zero]

@[simp] theorem content_wrap (array : List Byte) : (wrap array).content = array :=
  content_eq_array rfl rfl

theorem capacity_allocate (capacity : Nat) : (allocate capacity).capacity = capacity :=
  List.length_replicate

theorem capacity_put {b b' : ByteBuffer} {bytes : List Byte} (h : b.put bytes = some b') :
    b'.capacity = b.capacity := by
  unfold put at h
  split at h
  · rename_i hle
    cases h
    exact (put_bounds hle).2
  · exact absurd h (by simp)

theorem array_put {b b' : ByteBuffer} {bytes : List Byte} (h : b.put bytes = some b') :
    b'.array = b.array.take b.position ++ bytes ++ b.array.drop (b.position + bytes.length) := by
  unfold put at h
  split at h
  · cases h
    rfl
  · exact absurd h (by simp)

theorem remaining_put {b b' : ByteBuffer} {bytes : List Byte} (h : b.put bytes = some b') :
    b'.remaining = b.remaining - bytes.length := by
  unfold put at h
  split at h
  · cases h
    simp only [remaining]
    omega
  · exact absurd h (by simp)

theorem take_eq_some {b b' : ByteBuffer} {n : Nat} {bytes : List Byte}
    (h : b.take n = some (bytes, b')) :
    bytes = b.content.take n ∧ n ≤ b.remaining ∧ b'.capacity = b.capacity := by
  unfold take at h
  split at h
  · rename_i hle
    cases h
    exact ⟨rfl, hle, rfl⟩
  · exact absurd h (by simp)

/-- What there is room for can be put. -/
theorem exists_put {b : ByteBuffer} {bytes : List Byte} (h : bytes.length ≤ b.remaining) :
    ∃ b', b.put bytes = some b' ∧ b'.capacity = b.capacity :=
  ⟨_, dif_pos h, (put_bounds h).2⟩

/-- The content can be taken as a whole. -/
theorem exists_take_remaining (b : ByteBuffer) :
    ∃ b', b.take b.remaining = some (b.content, b') ∧ b'.capacity = b.capacity := by
  have htake : b.content.take b.remaining = b.content := by
    rw [← b.length_content, List.take_length]
  unfold take
  rw [dif_pos le_rfl, htake]
  exact ⟨_, rfl, rfl⟩

/-- **What was put into a buffer at its start is its content after a flip.** -/
theorem content_flip_put {b b' : ByteBuffer} {bytes : List Byte} (hb : b.position = 0)
    (h : b.put bytes = some b') : b'.flip.content = bytes := by
  unfold put at h
  split at h
  · cases h
    simp [flip, content, hb]
  · exact absurd h (by simp)

/-- **Taking splits the content.** -/
theorem content_take {b b' : ByteBuffer} {n : Nat} {bytes : List Byte}
    (h : b.take n = some (bytes, b')) : bytes ++ b'.content = b.content := by
  unfold take at h
  split at h
  · cases h
    simp only [content, ← List.drop_drop]
    exact List.take_append_drop n _
  · exact absurd h (by simp)

/-! ## 3. What was put

While a buffer is filled, what was put into it and not taken stands before the position. -/

/-- The bytes before the position. -/
def filled (b : ByteBuffer) : List Byte := b.array.take b.position

@[simp] theorem filled_clear (b : ByteBuffer) : b.clear.filled = [] := rfl

@[simp] theorem content_flip (b : ByteBuffer) : b.flip.content = b.filled := rfl

@[simp] theorem filled_compact (b : ByteBuffer) : b.compact.filled = b.content :=
  List.take_left ..

theorem filled_put {b b' : ByteBuffer} {bytes : List Byte} (h : b.put bytes = some b') :
    b'.filled = b.filled ++ bytes := by
  unfold put at h
  split at h
  · cases h
    have hle : b.position ≤ b.array.length := le_trans b.position_le b.limit_le
    have hlen : (b.array.take b.position ++ bytes).length = b.position + bytes.length := by
      rw [List.length_append, List.length_take, Nat.min_eq_left hle]
    simp only [filled]
    rw [List.take_left' hlen]
  · exact absurd h (by simp)

/-! ## 4. Datagrams -/

/-- A datagram is put as far as there is room for it; the rest of it is lost. -/
def receive (b : ByteBuffer) (datagram : List Byte) : ByteBuffer :=
  (b.put (datagram.take b.remaining)).getD b

theorem put_take_remaining (b : ByteBuffer) (datagram : List Byte) :
    b.put (datagram.take b.remaining) = some (b.receive datagram) := by
  obtain ⟨b', hput, -⟩ := exists_put (b := b) (List.length_take_le b.remaining datagram)
  rw [receive, hput, Option.getD_some]

theorem capacity_receive (b : ByteBuffer) (datagram : List Byte) :
    (b.receive datagram).capacity = b.capacity :=
  capacity_put (b.put_take_remaining datagram)

/-- **A datagram overwrites the beginning of a buffer that was cleared, and no more.** -/
theorem getElem?_receive_clear (b : ByteBuffer) (datagram : List Byte) {j : Nat}
    (hj : j < b.capacity) :
    (b.clear.receive datagram).array[j]? =
      if j < datagram.length then datagram[j]? else b.array[j]? := by
  have hremaining : b.clear.remaining = b.capacity := Nat.sub_zero _
  have harray := array_put (b.clear.put_take_remaining datagram)
  rw [hremaining] at harray
  rw [harray]
  simp only [clear, List.take_zero, List.nil_append, Nat.zero_add, List.getElem?_append,
    List.length_take]
  by_cases hlength : j < datagram.length
  · rw [if_pos (by omega), if_pos hlength, List.getElem?_take_of_lt hj]
  · rw [if_neg (by omega), if_neg hlength, List.getElem?_drop]
    congr 1
    omega

/-! ## 5. Gathering writes

A channel takes bytes from several buffers, from the first one first. -/

/-- Take `n` bytes, or what remains. -/
def takeUpTo (b : ByteBuffer) (n : Nat) : List Byte × ByteBuffer :=
  (b.take (min n b.remaining)).getD ([], b)

/-- Take `n` bytes from the buffers: the bytes and the buffers after it. -/
def gather : Nat → List ByteBuffer → List Byte × List ByteBuffer
  | _, [] => ([], [])
  | n, b :: buffers =>
    let r := b.takeUpTo n
    let r' := gather (n - r.1.length) buffers
    (r.1 ++ r'.1, r.2 :: r'.2)

/-- What stands in the buffers, one behind the other. -/
def contents (buffers : List ByteBuffer) : List Byte := buffers.flatMap content

theorem takeUpTo_spec (b : ByteBuffer) (n : Nat) :
    (b.takeUpTo n).1 = b.content.take n ∧ (b.takeUpTo n).2.content = b.content.drop n := by
  obtain ⟨⟨bytes, b'⟩, htake⟩ : ∃ r, b.take (min n b.remaining) = some r :=
    ⟨_, dif_pos (Nat.min_le_right ..)⟩
  have hbytes : bytes = b.content.take n := by
    rw [(take_eq_some htake).1, ← b.length_content, ← List.take_eq_take_min]
  have hsplit := content_take htake
  rw [hbytes] at hsplit
  rw [takeUpTo, htake, Option.getD_some]
  exact ⟨hbytes, List.append_cancel_left (hsplit.trans (List.take_append_drop n b.content).symm)⟩

/-- **A gathering write takes the bytes in order**, and what it does not take stays. -/
theorem gather_spec (n : Nat) (buffers : List ByteBuffer) :
    (gather n buffers).1 = (contents buffers).take n ∧
      contents (gather n buffers).2 = (contents buffers).drop n := by
  induction buffers generalizing n with
  | nil => exact ⟨List.take_nil.symm, List.drop_nil.symm⟩
  | cons b buffers ih =>
    obtain ⟨hbytes, hrest⟩ := b.takeUpTo_spec n
    obtain ⟨hbytes', hrest'⟩ := ih (n - (b.takeUpTo n).1.length)
    have hlength : n - (b.content.take n).length = n - b.content.length := by
      rw [List.length_take]
      omega
    rw [hbytes, hlength] at hbytes' hrest'
    simp only [contents, List.flatMap_cons] at hbytes' hrest' ⊢
    simp only [gather, List.flatMap_cons, hbytes, hlength, hrest, hbytes', hrest',
      List.take_append, List.drop_append, and_self]

/-! ## 6. Buffers that differ in their bytes only -/

/-- The indices and the capacity are the same. -/
structure Alike (b b' : ByteBuffer) : Prop where
  position : b'.position = b.position
  limit : b'.limit = b.limit
  capacity : b'.capacity = b.capacity

namespace Alike

theorem refl (b : ByteBuffer) : Alike b b := ⟨rfl, rfl, rfl⟩

theorem clear {b b' : ByteBuffer} (h : Alike b b') : Alike b.clear b'.clear :=
  ⟨rfl, h.capacity, h.capacity⟩

theorem flip {b b' : ByteBuffer} (h : Alike b b') : Alike b.flip b'.flip :=
  ⟨rfl, h.position, h.capacity⟩

theorem remaining {b b' : ByteBuffer} (h : Alike b b') : b'.remaining = b.remaining := by
  simp only [ByteBuffer.remaining, h.position, h.limit]

theorem hasRemaining {b b' : ByteBuffer} (h : Alike b b') : b'.hasRemaining = b.hasRemaining := by
  simp only [ByteBuffer.hasRemaining, h.position, h.limit]

/-- Alike buffers have room for the same number of bytes. -/
theorem put {b b' c : ByteBuffer} {bytes bytes' : List Byte} (h : Alike b b')
    (hlength : bytes'.length = bytes.length) (hput : b.put bytes = some c) :
    ∃ c', b'.put bytes' = some c' ∧ Alike c c' := by
  unfold ByteBuffer.put at hput
  split at hput
  · rename_i hle
    cases hput
    have hle' : bytes'.length ≤ b'.remaining := by
      rw [hlength, h.remaining]
      exact hle
    refine ⟨_, dif_pos hle', ?_, h.limit, ?_⟩
    · simp only [h.position, hlength]
    · exact (put_bounds hle').2.trans (h.capacity.trans (put_bounds hle).2.symm)
  · exact absurd hput (by simp)

/-- Alike buffers give the same number of bytes. -/
theorem take {b b' c : ByteBuffer} {n : Nat} {bytes : List Byte} (h : Alike b b')
    (htake : b.take n = some (bytes, c)) :
    ∃ bytes' c', b'.take n = some (bytes', c') ∧ bytes'.length = bytes.length ∧ Alike c c' := by
  unfold ByteBuffer.take at htake
  split at htake
  · rename_i hle
    cases htake
    have hle' : n ≤ b'.remaining := by
      rw [h.remaining]
      exact hle
    refine ⟨_, _, dif_pos hle', ?_, ?_, h.limit, h.capacity⟩
    · simp only [List.length_take, length_content, h.remaining]
    · simp only [h.position]
  · exact absurd htake (by simp)

end Alike

end ByteBuffer

end JavaStudy
