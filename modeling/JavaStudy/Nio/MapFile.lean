/-
# `MapFile.dumpBuffer`: the content of a buffer, with its nulls counted

The loop prints every character that is not null as it is.  It counts the nulls in front of a
character and prints their number, in a marker, when the character comes.  What is printed is a
list of run-length tokens; the buffer that they stand for is the one that was dumped without the
nulls at its end (`expand_scan`), because no character comes behind these.

`dumpBuffer_accounts_iff`: the dump accounts for the whole buffer exactly if the last byte is not
null.
-/
import JavaStudy.Lib.ByteBuffer
import JavaStudy.Lib.JavaText
import JavaStudy.Lib.RunLength

namespace JavaStudy

open JavaText

namespace MapFile

open RunLength

/-- `(char) b`: the byte is sign-extended. -/
def toChar (b : Byte) : JChar := b.signExtend 16

/-- What the loop of `dumpBuffer` prints from the index `i` on, call by call: a character, or a
number of nulls.  There are at most as many nulls as the limit, so the `int` does not overflow. -/
def printed (buffer : ByteBuffer) (nulls i : Nat) : List (Token JChar) :=
  if h : i < buffer.limit then
    let c := toChar (buffer.get i h)
    if c = 0 then printed buffer (nulls + 1) (i + 1)
    else if nulls ≠ 0 then .run nulls :: .item c :: printed buffer 0 (i + 1)
    else .item c :: printed buffer 0 (i + 1)
  else []
termination_by buffer.limit - i

/-- The text that a call prints. -/
def text : Token JChar → JString
  | .run nulls => "|[".toList.map unit ++ digits nulls ++ " nulls]|".toList.map unit
  | .item c => [c]

/-- All that `dumpBuffer` prints; the name `prefix` of its first parameter is no name here. -/
def dumpBuffer (lineSeparator name : JString) (buffer : ByteBuffer) : JString :=
  name ++ ": '".toList.map unit ++ (printed buffer 0 0).flatMap text ++ "'".toList.map unit ++
    lineSeparator

/-! ## 1. The loop as a scan -/

/-- The loop over the characters that are left. -/
def scan (nulls : Nat) : List JChar → List (Token JChar)
  | [] => []
  | c :: s =>
    if c = 0 then scan (nulls + 1) s
    else if nulls ≠ 0 then .run nulls :: .item c :: scan 0 s
    else .item c :: scan 0 s

/-- The bytes that are dumped. -/
def held (buffer : ByteBuffer) : List Byte := buffer.array.take buffer.limit

theorem drop_held {buffer : ByteBuffer} {i : Nat} (h : i < buffer.limit) :
    (held buffer).drop i = buffer.get i h :: (held buffer).drop (i + 1) := by
  have hlength : i < (held buffer).length := by
    have hlimit := buffer.limit_le
    rw [held, List.length_take]
    omega
  rw [List.drop_eq_getElem_cons hlength]
  congr 1
  exact List.getElem_take

theorem printed_eq (buffer : ByteBuffer) (nulls i : Nat) :
    printed buffer nulls i = scan nulls (((held buffer).drop i).map toChar) := by
  fun_induction printed buffer nulls i with
  | case1 nulls i h c hc ih =>
    rw [drop_held h, List.map_cons, scan, if_pos hc, ih]
  | case2 nulls i h c hc hnulls ih =>
    rw [drop_held h, List.map_cons, scan, if_neg hc, if_pos hnulls, ih]
  | case3 nulls i h c hc hnulls ih =>
    rw [drop_held h, List.map_cons, scan, if_neg hc, if_neg hnulls, ih]
  | case4 nulls i h =>
    have hnil : (held buffer).drop i = [] := by
      rw [List.drop_eq_nil_iff, held, List.length_take]
      omega
    rw [hnil]
    rfl

/-- A marker is printed in front of a character only, and only if it counts something. -/
theorem proper_scan (nulls : Nat) (s : List JChar) : Proper 0 (scan nulls s) := by
  induction s generalizing nulls with
  | nil => trivial
  | cons c s ih =>
    rw [scan]
    split
    · exact ih (nulls + 1)
    · rename_i hc
      split
      · rename_i hnulls
        refine ⟨Nat.pos_of_ne_zero hnulls, ?_, hc, ih 0⟩
        intro t ht
        cases ht
        rfl
      · exact ⟨hc, ih 0⟩

/-- **What is printed stands for what was read, up to the last character that is not null.** -/
theorem expand_scan (nulls : Nat) (s : List JChar) :
    expand 0 (scan nulls s) = (List.replicate nulls 0 ++ s).rdropWhile (· = 0) := by
  induction s generalizing nulls with
  | nil =>
    have hall : (List.replicate nulls (0 : JChar)).rdropWhile (· = 0) = [] := by
      rw [List.rdropWhile_eq_nil_iff]
      intro c hc
      simpa using List.eq_of_mem_replicate hc
    rw [scan, List.append_nil, hall, expand_nil]
  | cons c s ih =>
    rw [scan]
    split
    · rename_i hc
      rw [ih, hc, List.replicate_succ', List.append_assoc, List.singleton_append]
    · rename_i hc
      rw [rdropWhile_append_cons _ (by simpa using hc)]
      split
      · rw [expand_run, expand_item, ih]
        rfl
      · rename_i hnulls
        rw [not_not] at hnulls
        rw [expand_item, ih, hnulls]
        rfl

/-! ## 2. What the dump accounts for -/

/-- The dump accounts for all bytes: characters and markers make up their number, the characters
stand in order, and each maximal run of nulls has one marker, at its place and with its length. -/
structure Accounts (bytes : List Byte) (calls : List (Token JChar)) : Prop where
  total : (items calls).length + (lengths calls).sum = bytes.length
  inOrder : items calls = (bytes.filter (· ≠ 0)).map toChar
  marked : ∀ i n, MaximalRun 0 bytes i n ↔ ∃! k, calls[k]? = some (.run n) ∧ place calls k = i

theorem toChar_eq_zero (b : Byte) : toChar b = 0 ↔ b = 0 := by
  constructor
  · intro h
    have hlow : (b.signExtend 16).setWidth 8 = b := by
      ext i hi
      rw [BitVec.getElem_setWidth, BitVec.getLsbD_signExtend]
      simp [hi, show i < 16 by omega]
    rw [toChar] at h
    rw [← hlow, h]
    rfl
  · rintro rfl
    rfl

theorem filter_map_toChar (bytes : List Byte) :
    (bytes.map toChar).filter (· ≠ 0) = (bytes.filter (· ≠ 0)).map toChar := by
  rw [List.filter_map]
  congr 1
  refine List.filter_congr ?_
  intro b _
  exact decide_eq_decide.mpr (not_congr (toChar_eq_zero b))

/-- Nothing is dropped if the last byte is not null. -/
theorem rdropWhile_eq_self_iff (bytes : List Byte) :
    (bytes.map toChar).rdropWhile (· = 0) = bytes.map toChar ↔ bytes.getLast? ≠ some 0 := by
  cases bytes using List.reverseRecOn with
  | nil => simp
  | append_singleton bytes b =>
    rw [List.map_append, List.map_singleton, List.getLast?_concat, ne_eq, Option.some.injEq,
      ← toChar_eq_zero b]
    by_cases hb : toChar b = 0
    · rw [List.rdropWhile_concat_pos _ _ _ (by simpa using hb)]
      refine iff_of_false ?_ (not_not_intro hb)
      intro h
      have hle := (List.rdropWhile_prefix (fun c : JChar => decide (c = 0))
        (bytes.map toChar)).length_le
      rw [h, List.length_append, List.length_singleton] at hle
      omega
    · rw [List.rdropWhile_concat_neg _ _ _ (by simpa using hb)]
      exact iff_of_true rfl hb

/-- **The dump accounts for the whole buffer exactly if the last byte is not null.** -/
theorem dumpBuffer_accounts_iff (buffer : ByteBuffer) :
    Accounts (held buffer) (printed buffer 0 0) ↔ (held buffer).getLast? ≠ some 0 := by
  have hproper := proper_scan 0 ((held buffer).map toChar)
  have hexpand := expand_scan 0 ((held buffer).map toChar)
  rw [List.replicate_zero, List.nil_append] at hexpand
  rw [printed_eq, List.drop_zero, ← rdropWhile_eq_self_iff]
  constructor
  · intro h
    -- as many characters as there are bytes: none was dropped
    have hlength := length_expand (z := 0) (scan 0 ((held buffer).map toChar))
    rw [h.total, hexpand, ← List.length_map toChar] at hlength
    exact (List.rdropWhile_prefix _ _).eq_of_length hlength
  · intro hall
    rw [hall] at hexpand
    refine ⟨?_, ?_, ?_⟩
    · rw [← length_expand (z := 0), hexpand, List.length_map]
    · rw [items_eq hproper, hexpand, filter_map_toChar]
    · intro i n
      rw [← existsUnique_run hproper, hexpand, maximalRun_map toChar_eq_zero]

/-- **The nulls at the end are not shown.** -/
theorem dumpBuffer_trailing :
    dumpBuffer ("\n".toList.map unit) ("COW".toList.map unit) (ByteBuffer.wrap [0x41, 0]) =
      "COW: 'A'\n".toList.map unit ∧
    ¬ Accounts (held (ByteBuffer.wrap [0x41, 0])) (printed (ByteBuffer.wrap [0x41, 0]) 0 0) := by
  have hprinted : printed (ByteBuffer.wrap [0x41, 0]) 0 0 = [.item (unit 'A')] := by
    rw [printed_eq]
    decide
  rw [dumpBuffer, hprinted]
  refine ⟨by decide, ?_⟩
  intro h
  exact absurd h.total (by decide)

end MapFile
end JavaStudy
