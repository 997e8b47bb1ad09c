/-
# `TimeClient`: the time of RFC 868 read back

`getReplies` has a buffer of 8 bytes, all zero, and receives every reply into the slice of its last
four.  Before a receive only the INDICES of the slice are cleared: a datagram of fewer than four
bytes leaves what earlier ones have put behind it.

* `received_slice`: byte `j` of the slice is byte `j` of the last datagram that had one.
* `getReplies_printed`: what the reply `k` prints is a function of the first `k + 1` datagrams.
* `remote_spec`: on whole replies of a `TimeServer`, the time comes back modulo `2 ^ 32`.
* `loop_spec`: the loop counts to `expect` in `int`; it compares after it has counted, so that an
  `expect` of 0 is met only when the counter has come round.
-/
import JavaStudy.Lib.JavaText
import JavaStudy.Nio.TimeServer
import Mathlib.Data.List.Forall2

namespace JavaStudy
namespace TimeClient

open BigEndian
open JavaText (JInt JString unit)
open TimeServer (Datagram JLong)

/-! ## 1. The client -/

def DEFAULT_TIME_PORT : JInt := 37

/-- The seconds from 1900 to 1970. -/
def DIFF_1900 : JLong := 2208988800

/-- `longBuffer` and `buffer`, its slice. -/
def longBuffer : Sliced := .allocate 4 4

def receivePacket (b : Sliced) (datagram : Datagram) : Sliced :=
  { b with slice := b.slice.clear.receive datagram }

/-- `longBuffer.getLong(0)`. -/
def getLong (b : Sliced) : JLong := BitVec.ofNat 64 (ofBytes b.array)

/-- The remote time that `printTime` prints. -/
def printTime (remote1900 : JLong) : JLong := remote1900 - DIFF_1900

/-- What stands in `longBuffer` when a reply is printed, and the time that is printed. -/
structure Printed where
  longBuffer : List Byte
  remote : JLong
  deriving DecidableEq

/-- What `getReplies` has done when it has returned, or waits for a datagram that does not come. -/
structure Replies where
  printed : List Printed
  /-- How many datagrams were received. -/
  consumed : Nat
  returned : Bool
  deriving DecidableEq

/-- A receive, and the `flip` behind it. -/
def round (b : Sliced) (datagram : Datagram) : Sliced :=
  let b := receivePacket b datagram
  { b with slice := b.slice.flip }

def print (b : Sliced) : Printed := ⟨b.array, printTime (getLong b)⟩

/-- The loop of `getReplies`. -/
def loop (expect : JInt) : Sliced → JInt → List Datagram → Replies
  | _, _, [] => ⟨[], 0, false⟩
  | b, replies, datagram :: arriving =>
    let b := round b datagram
    if replies + 1 = expect then ⟨[print b], 1, true⟩
    else
      let rest := loop expect b (replies + 1) arriving
      ⟨print b :: rest.printed, rest.consumed + 1, rest.returned⟩

def getReplies (expect : JInt) (arriving : List Datagram) : Replies :=
  loop expect longBuffer 0 arriving

/-- What makes `parseArgs` throw. -/
inductive Throwable where
  | arrayIndexOutOfBounds
  | numberFormat
  /-- `new InetSocketAddress` with a port that is none. -/
  | illegalArgument
  deriving DecidableEq

/-- The loop of `parseArgs` from index `i` on: the port at the end and `remoteHosts`.  The argument
at index `i` resolves to `resolve i`. -/
def parseArgs {α : Type} (resolve : Nat → Option α) :
    Nat → JInt → List JString → Except Throwable (JInt × List (α × JInt))
  | _, port, [] => .ok (port, [])
  | i, port, arg :: argv =>
    if arg = [unit '-', unit 'p'] then
      match argv with
      | [] => .error .arrayIndexOutOfBounds
      | arg :: argv =>
        match JavaText.Integer.parseInt arg with
        | .error _ => .error .numberFormat
        | .ok port => parseArgs resolve (i + 2) port argv
    else if 0 ≤ port.toInt ∧ port.toInt ≤ 0xFFFF then
      match resolve i with
      | none => parseArgs resolve (i + 1) port argv
      | some address =>
        (parseArgs resolve (i + 1) port argv).map fun r => (r.1, (address, port) :: r.2)
    else .error .illegalArgument

/-! ## 2. What is in the buffer -/

/-- The buffer after those datagrams. -/
def received (datagrams : List Datagram) : Sliced := datagrams.foldl round longBuffer

/-- Byte `j` of the last of the datagrams that has one. -/
def lastByte (j : Nat) (datagrams : List Datagram) : Byte :=
  (datagrams.filterMap (·[j]?)).getLastD 0

theorem received_concat (datagrams : List Datagram) (d : Datagram) :
    received (datagrams ++ [d]) = round (received datagrams) d :=
  List.foldl_concat ..

theorem capacity_received (datagrams : List Datagram) :
    (received datagrams).slice.capacity = 4 := by
  induction datagrams using List.reverseRecOn with
  | nil => rfl
  | append_singleton datagrams d ih =>
    rw [received_concat]
    exact (ByteBuffer.capacity_receive _ d).trans ih

/-- Nothing is put before the slice. -/
theorem received_before (datagrams : List Datagram) :
    (received datagrams).before = List.replicate 4 0 := by
  induction datagrams using List.reverseRecOn with
  | nil => rfl
  | append_singleton datagrams d ih =>
    rw [received_concat]
    exact ih

theorem lastByte_concat (j : Nat) (datagrams : List Datagram) (d : Datagram) :
    lastByte j (datagrams ++ [d]) = (d[j]?).getD (lastByte j datagrams) := by
  unfold lastByte
  rw [List.filterMap_append]
  cases hd : d[j]? with
  | none => simp [hd]
  | some b => simp [hd]

/-- **What is in the slice**: each byte is from the last datagram that was long enough. -/
theorem received_slice (datagrams : List Datagram) :
    (received datagrams).slice.array = (List.range 4).map fun j => lastByte j datagrams := by
  induction datagrams using List.reverseRecOn with
  | nil => rfl
  | append_singleton datagrams d ih =>
    have hcapacity : (received datagrams).slice.capacity = 4 := capacity_received datagrams
    have hlength : (received (datagrams ++ [d])).slice.array.length = 4 := capacity_received _
    refine List.ext_getElem? ?_
    intro j
    by_cases hj : j < 4
    · rw [received_concat]
      change ((received datagrams).slice.clear.receive d).array[j]? = _
      rw [ByteBuffer.getElem?_receive_clear _ d (by rw [hcapacity]; exact hj), ih]
      simp only [List.getElem?_map, List.getElem?_range hj, Option.map_some, lastByte_concat]
      split
      · rename_i hd
        rw [List.getElem?_eq_getElem hd, Option.getD_some]
      · rename_i hd
        rw [List.getElem?_eq_none (Nat.le_of_not_lt hd), Option.getD_none]
    · rw [List.getElem?_eq_none (by omega), List.getElem?_eq_none (by simp; omega)]

/-! ## 3. What is printed -/

theorem loop_printed {expect replies : JInt} {b : Sliced} {arriving : List Datagram} {k : Nat}
    {p : Printed} (h : (loop expect b replies arriving).printed[k]? = some p) :
    k < arriving.length ∧ p = print ((arriving.take (k + 1)).foldl round b) := by
  induction arriving generalizing b replies k with
  | nil => exact absurd h (by simp [loop])
  | cons d arriving ih =>
    simp only [loop] at h
    cases k with
    | zero =>
      split at h
      all_goals
        cases h
        exact ⟨Nat.succ_pos _, rfl⟩
    | succ k =>
      split at h
      · exact absurd h (by simp)
      · obtain ⟨hk, hp⟩ := ih h
        exact ⟨Nat.succ_lt_succ hk, hp⟩

/-- **The reply `k` prints what the first `k + 1` datagrams have left in the buffer.** -/
theorem getReplies_printed {expect : JInt} {arriving : List Datagram} {k : Nat} {p : Printed}
    (h : (getReplies expect arriving).printed[k]? = some p) :
    k < arriving.length ∧ p = print (received (arriving.take (k + 1))) :=
  loop_printed h

/-- The long in the buffer is what is in the slice. -/
theorem toNat_getLong (datagrams : List Datagram) :
    (getLong (received datagrams)).toNat = ofBytes (received datagrams).slice.array := by
  have hlength : (received datagrams).slice.array.length = 4 := capacity_received datagrams
  have hlt := ofBytes_lt (received datagrams).slice.array
  rw [hlength] at hlt
  have hvalue : ofBytes (received datagrams).array = ofBytes (received datagrams).slice.array := by
    rw [Sliced.array, ofBytes_append, received_before, ofBytes_zeros, Nat.zero_mul, Nat.zero_add]
  rw [getLong, BitVec.toNat_ofNat, hvalue, Nat.mod_eq_of_lt (by omega)]

/-! ## 4. Replies of a `TimeServer` -/

/-- `remote` is the time in seconds, wrapped around at the end of the RFC's era. -/
structure Wrapped (seconds remote : Int) : Prop where
  congruent : remote % 2 ^ 32 = seconds % 2 ^ 32
  exact_iff : remote = seconds ↔ seconds + 2208988800 < 2 ^ 32
  smaller : ¬seconds + 2208988800 < 2 ^ 32 → ∃ n : Int, 0 < n ∧ remote + n * 2 ^ 32 = seconds

theorem wrapped_of_mod {seconds : Int} (h : 0 ≤ seconds) :
    Wrapped seconds ((seconds + 2208988800) % 2 ^ 32 - 2208988800) where
  congruent := by omega
  exact_iff := by omega
  smaller hlarge := ⟨(seconds + 2208988800) / 2 ^ 32, by omega, by omega⟩

/-- The server's clock in seconds since 1900. -/
theorem toNat_seconds1900 {t : JLong} (h : 0 ≤ t.toInt) :
    ((TimeServer.seconds1900 t).toNat : Int) = t.toInt / 1000 + 2208988800 := by
  have hlt : t.toInt < 2 ^ 63 := BitVec.toInt_lt
  have hdiv : (t.sdiv 1000).toInt = t.toInt / 1000 := by
    rw [BitVec.toInt_sdiv_of_ne_or_ne _ _ (Or.inr (by decide))]
    exact Int.tdiv_eq_ediv_of_nonneg h
  have hseconds : (TimeServer.seconds1900 t).toInt = t.toInt / 1000 + 2208988800 := by
    rw [TimeServer.seconds1900, BitVec.toInt_add, hdiv]
    refine Int.bmod_eq_of_le ?_ ?_
    · change -(2 ^ 64 / 2 : Int) ≤ t.toInt / 1000 + 2208988800
      omega
    · change t.toInt / 1000 + 2208988800 < ((2 ^ 64 + 1) / 2 : Int)
      omega
  rw [BitVec.toInt_eq_toNat_cond] at hseconds
  split at hseconds <;> omega

/-- The remote time in the buffer. -/
theorem toInt_printTime {n : JLong} (h : n.toNat < 2 ^ 32) :
    (printTime n).toInt = n.toNat - 2208988800 := by
  have hn : n.toInt = n.toNat := BitVec.toInt_eq_toNat_of_lt (by omega)
  rw [printTime, BitVec.toInt_sub, hn]
  refine Int.bmod_eq_of_le ?_ ?_
  · change -(2 ^ 64 / 2 : Int) ≤ n.toNat - 2208988800
    omega
  · change (n.toNat - 2208988800 : Int) < ((2 ^ 64 + 1) / 2 : Int)
    omega

/-- A server has sent that reply when its clock showed that time. -/
def Answers (d : Datagram) (currentTimeMillis : JLong) : Prop :=
  ∃ (requests : List (Datagram × JLong)) (replies : List Datagram) (i : Nat) (request : Datagram),
    TimeServer.listen TimeServer.longBuffer requests = some replies ∧ replies[i]? = some d ∧
      requests[i]? = some (request, currentTimeMillis)

theorem Answers.eq_reply {d : Datagram} {t : JLong} (h : Answers d t) : d = TimeServer.reply t := by
  obtain ⟨requests, replies, i, request, hlisten, hreply, hrequest⟩ := h
  rw [TimeServer.listen_eq, Option.some.injEq] at hlisten
  rw [← hlisten, List.getElem?_map, hrequest, Option.map_some, Option.some.injEq] at hreply
  exact hreply.symm

/-- A datagram of four bytes fills the slice. -/
theorem slice_of_whole (datagrams : List Datagram) {d : Datagram} (hd : d.length = 4) :
    (received (datagrams ++ [d])).slice.array = d := by
  rw [received_slice]
  refine List.ext_getElem? ?_
  intro j
  by_cases hj : j < 4
  · rw [List.getElem?_map, List.getElem?_range hj, Option.map_some, lastByte_concat,
      List.getElem?_eq_getElem (hd ▸ hj), Option.getD_some]
  · rw [List.getElem?_eq_none (by simp; omega), List.getElem?_eq_none (by omega)]

/-- **The time comes back modulo `2 ^ 32`**: of replies that servers have sent at times from 1970
on, in whatever order, each is printed as its own time, wrapped around; it is exact until
`2 ^ 32` seconds after 1900 and too small by whole eras from then on.  The high four bytes of the
buffer are zero all the time. -/
theorem remote_spec {arriving : List Datagram} {times : List JLong}
    (harriving : List.Forall₂ Answers arriving times) (htimes : ∀ t ∈ times, 0 ≤ t.toInt)
    (expect : JInt) :
    (∀ datagrams, datagrams <+: arriving →
      (received datagrams).array.take 4 = List.replicate 4 0) ∧
    ∀ (k : Nat) (p : Printed), (getReplies expect arriving).printed[k]? = some p →
      ∃ t : JLong, times[k]? = some t ∧ p.longBuffer.take 4 = List.replicate 4 0 ∧
        Wrapped (t.toInt / 1000) p.remote.toInt := by
  have hhigh : ∀ datagrams, (received datagrams).array.take 4 = List.replicate 4 0 := by
    intro datagrams
    rw [Sliced.array, received_before, List.take_left' (List.length_replicate ..)]
  refine ⟨fun datagrams _ => hhigh datagrams, ?_⟩
  intro k p hp
  obtain ⟨hk, rfl⟩ := getReplies_printed hp
  have hlength : arriving.length = times.length := harriving.length_eq
  have hkt : k < times.length := hlength ▸ hk
  have hd : arriving[k] = TimeServer.reply times[k] := (harriving.get hk hkt).eq_reply
  have hnonneg : 0 ≤ times[k].toInt := htimes _ (List.getElem_mem hkt)
  have hseconds := toNat_seconds1900 hnonneg
  have hwhole : (TimeServer.reply times[k]).length = 4 := length_toBytes 4 _
  have hlong : (getLong (received (arriving.take (k + 1)))).toNat =
      (TimeServer.seconds1900 times[k]).toNat % 2 ^ 32 := by
    rw [toNat_getLong, List.take_succ_eq_append_getElem hk, hd,
      slice_of_whole _ hwhole]
    exact ofBytes_toBytes 4 _
  have hremote : (print (received (arriving.take (k + 1)))).remote.toInt =
      (times[k].toInt / 1000 + 2208988800) % 2 ^ 32 - 2208988800 := by
    change (printTime (getLong (received (arriving.take (k + 1))))).toInt = _
    rw [toInt_printTime (by omega), hlong]
    omega
  refine ⟨times[k], List.getElem?_eq_getElem hkt, hhigh _, ?_⟩
  rw [hremote]
  exact wrapped_of_mod (Int.ediv_nonneg hnonneg (by decide))

/-- `remote_spec` for two replies of one server, the second sent when the era ends. -/
theorem remote_spec_era :
    ∃ p, (getReplies 2 [TimeServer.reply 1000, TimeServer.reply 2085978496000]).printed[1]? = some p ∧
      Wrapped 2085978496 p.remote.toInt := by
  have hserver : TimeServer.listen TimeServer.longBuffer [([], 1000), ([7], 2085978496000)] =
      some [TimeServer.reply 1000, TimeServer.reply 2085978496000] := TimeServer.listen_eq _
  have harriving : List.Forall₂ Answers
      [TimeServer.reply 1000, TimeServer.reply 2085978496000] [1000, 2085978496000] :=
    .cons ⟨_, _, 0, [], hserver, rfl, rfl⟩ (.cons ⟨_, _, 1, [7], hserver, rfl, rfl⟩ .nil)
  have htimes : ∀ t ∈ ([1000, 2085978496000] : List JLong), 0 ≤ t.toInt := by
    intro t ht
    rcases List.mem_pair.mp ht with rfl | rfl
    · decide
    · decide
  obtain ⟨p, hp⟩ : ∃ p,
      (getReplies 2 [TimeServer.reply 1000, TimeServer.reply 2085978496000]).printed[1]? = some p :=
    ⟨_, rfl⟩
  obtain ⟨t, ht, -, hwrapped⟩ := (remote_spec harriving htimes 2).2 1 p hp
  cases ht
  exact ⟨p, hp, hwrapped⟩

/-! ## 5. What a reply does not depend on -/

/-- The time that is printed tells the bytes in the slice. -/
theorem printed_remote_inj {ds es : List Datagram} :
    (print (received ds)).remote = (print (received es)).remote ↔
      (received ds).slice.array = (received es).slice.array := by
  have hlength : (received ds).slice.array.length = (received es).slice.array.length :=
    (capacity_received ds).trans (capacity_received es).symm
  have hlong : (print (received ds)).remote = (print (received es)).remote ↔
      getLong (received ds) = getLong (received es) := BitVec.sub_left_inj _
  rw [hlong, ← ofBytes_inj hlength, ← toNat_getLong, ← toNat_getLong, BitVec.toNat_inj]

theorem slice_eq_iff {ds es : List Datagram} :
    (received ds).slice.array = (received es).slice.array ↔
      ∀ j < 4, lastByte j ds = lastByte j es := by
  rw [received_slice, received_slice, List.map_inj_left]
  simp only [List.mem_range]

/-- The last datagram hides what was before it as far as it is long. -/
theorem lastByte_concat_eq_iff (j : Nat) (ds es : List Datagram) (d : Datagram) :
    lastByte j (ds ++ [d]) = lastByte j (es ++ [d]) ↔
      (d.length ≤ j → lastByte j ds = lastByte j es) := by
  rw [lastByte_concat, lastByte_concat]
  by_cases hj : d.length ≤ j
  · rw [List.getElem?_eq_none hj, Option.getD_none, Option.getD_none]
    exact ⟨fun h _ => h, fun h => h hj⟩
  · rw [List.getElem?_eq_getElem (Nat.lt_of_not_le hj), Option.getD_some, Option.getD_some]
    exact ⟨fun _ h => absurd h hj, fun _ => rfl⟩

theorem take_succ_of_some {ds : List Datagram} {k : Nat} {d : Datagram} (h : ds[k]? = some d) :
    ds.take (k + 1) = ds.take k ++ [d] := by
  rw [List.take_add_one, h]
  rfl

/-- **A reply is printed apart from the earlier ones exactly if these have left the same bytes
behind it.**  Two runs in which the datagram `k` is the same print the same time for it if and only
if, for each of the four bytes that the datagram is too short for, the last earlier datagram that
was long enough has the same byte there in both runs. -/
theorem remote_eq_iff {n n' : JInt} {ds es : List Datagram} {k : Nat} {d : Datagram}
    (hd : ds[k]? = some d) (he : es[k]? = some d) {p q : Printed}
    (hp : (getReplies n ds).printed[k]? = some p)
    (hq : (getReplies n' es).printed[k]? = some q) :
    p.remote = q.remote ↔
      ∀ j < 4, d.length ≤ j → lastByte j (ds.take k) = lastByte j (es.take k) := by
  obtain ⟨-, rfl⟩ := getReplies_printed hp
  obtain ⟨-, rfl⟩ := getReplies_printed hq
  rw [printed_remote_inj, slice_eq_iff, take_succ_of_some hd, take_succ_of_some he]
  simp only [lastByte_concat_eq_iff]

/-- `remote_eq_iff` for a second reply behind different first ones: a whole one, and a short one. -/
theorem remote_eq_iff_short :
    (∃ p q, (getReplies 2 [[1, 2, 3, 4], [5, 6, 7, 8]]).printed[1]? = some p ∧
      (getReplies 2 [[9, 2, 3, 4], [5, 6, 7, 8]]).printed[1]? = some q ∧ p.remote = q.remote) ∧
    ∃ p q, (getReplies 2 [[1, 2, 3, 4], [5]]).printed[1]? = some p ∧
      (getReplies 2 [[9, 2, 3, 4], [5]]).printed[1]? = some q ∧ p.remote = q.remote := by
  obtain ⟨p, q, hp, hq⟩ : ∃ p q,
      (getReplies 2 [[1, 2, 3, 4], [5, 6, 7, 8]]).printed[1]? = some p ∧
      (getReplies 2 [[9, 2, 3, 4], [5, 6, 7, 8]]).printed[1]? = some q := ⟨_, _, rfl, rfl⟩
  obtain ⟨p', q', hp', hq'⟩ : ∃ p q,
      (getReplies 2 [[1, 2, 3, 4], [5]]).printed[1]? = some p ∧
      (getReplies 2 [[9, 2, 3, 4], [5]]).printed[1]? = some q := ⟨_, _, rfl, rfl⟩
  exact ⟨⟨p, q, hp, hq, (remote_eq_iff rfl rfl hp hq).mpr (by decide)⟩,
    p', q', hp', hq', (remote_eq_iff rfl rfl hp' hq').mpr (by decide)⟩

/-- A short reply is printed with the last bytes of the reply of another host. -/
theorem stale_bytes_printed :
    ¬∀ (n : JInt) (ds es : List Datagram) (k : Nat) (d : Datagram) (p q : Printed),
      ds[k]? = some d → es[k]? = some d → (getReplies n ds).printed[k]? = some p →
      (getReplies n es).printed[k]? = some q → p.remote = q.remote := by
  intro h
  have hsame := h 2 [[1, 2, 3, 4], [5]] [[1, 2, 3, 9], [5]] 1 [5] _ _ rfl rfl rfl rfl
  exact absurd hsame (by decide)

/-! ## 6. How many replies are awaited -/

/-- The loop returns when the counter has got to `expect`; with fewer datagrams it stays in the
receive. -/
theorem loop_spec {expect replies : JInt} {left : Nat} (hleft : left < 2 ^ 32)
    (hexpect : expect = replies + 1 + BitVec.ofNat 32 left) (b : Sliced)
    (arriving : List Datagram) :
    ((loop expect b replies arriving).returned = true ↔ left < arriving.length) ∧
    ((loop expect b replies arriving).returned = true →
      (loop expect b replies arriving).consumed = left + 1) := by
  induction arriving generalizing b replies left with
  | nil => simp [loop]
  | cons d arriving ih =>
    simp only [loop]
    by_cases hzero : left = 0
    · subst hzero
      have hlast : replies + 1 = expect := by rw [hexpect, BitVec.ofNat_eq_ofNat, BitVec.add_zero]
      rw [if_pos hlast]
      exact ⟨⟨fun _ => Nat.succ_pos _, fun _ => rfl⟩, fun _ => rfl⟩
    · have hmore : replies + 1 ≠ expect := by
        rw [hexpect]
        bv_omega
      have hnext : expect = replies + 1 + 1 + BitVec.ofNat 32 (left - 1) := by
        rw [hexpect]
        bv_omega
      obtain ⟨hreturned, hconsumed⟩ := ih (by omega) hnext (round b d)
      rw [if_neg hmore]
      refine ⟨?_, ?_⟩
      · rw [hreturned, List.length_cons]
        omega
      · intro h
        have hcount := hconsumed h
        simp only [hcount]
        omega

/-- **What `getReplies` awaits**: `n` datagrams if some host is expected, else `2 ^ 32`. -/
theorem getReplies_spec {n : Nat} (hn : n < 2 ^ 32) (arriving : List Datagram) :
    ((getReplies (BitVec.ofNat 32 n) arriving).returned = true ↔
      (if n = 0 then 2 ^ 32 else n) ≤ arriving.length) ∧
    ((getReplies (BitVec.ofNat 32 n) arriving).returned = true →
      (getReplies (BitVec.ofNat 32 n) arriving).consumed = if n = 0 then 2 ^ 32 else n) := by
  have hleft : (if n = 0 then 2 ^ 32 else n) - 1 < 2 ^ 32 := by
    split <;> omega
  have hexpect : BitVec.ofNat 32 n =
      (0 : JInt) + 1 + BitVec.ofNat 32 ((if n = 0 then 2 ^ 32 else n) - 1) := by
    split
    · subst_vars
      decide
    · bv_omega
  obtain ⟨hreturned, hconsumed⟩ := loop_spec hleft hexpect longBuffer arriving
  have hpos : 0 < if n = 0 then 2 ^ 32 else n := by
    split <;> omega
  refine ⟨?_, ?_⟩
  · refine hreturned.trans ?_
    omega
  · intro h
    exact (hconsumed h).trans (Nat.sub_add_cancel hpos)

/-- The indices of the arguments that are hosts. -/
def hostArgs : Nat → List JString → List Nat
  | _, [] => []
  | i, arg :: argv =>
    if arg = [unit '-', unit 'p'] then
      match argv with
      | [] => []
      | _ :: argv => hostArgs (i + 2) argv
    else i :: hostArgs (i + 1) argv

theorem hostArgs_cons {i : Nat} {arg : JString} {argv : List JString}
    (h : arg ≠ [unit '-', unit 'p']) : hostArgs i (arg :: argv) = i :: hostArgs (i + 1) argv := by
  rw [hostArgs.eq_def]
  exact if_neg h

/-- `remoteHosts` holds the hosts that were resolved. -/
theorem length_parseArgs {α : Type} (resolve : Nat → Option α) {i : Nat} {port port' : JInt}
    {argv : List JString} {remoteHosts : List (α × JInt)}
    (h : parseArgs resolve i port argv = .ok (port', remoteHosts)) :
    remoteHosts.length = (hostArgs i argv).countP fun i => (resolve i).isSome := by
  fun_induction parseArgs resolve i port argv generalizing port' remoteHosts with
  | case1 i port =>
    cases h
    rfl
  | case2 i port => exact absurd h (by simp)
  | case3 i port arg argv e hport => exact absurd h (by simp)
  | case4 i port arg argv port hport ih =>
    rw [hostArgs, if_pos rfl]
    exact ih h
  | case5 i port arg argv harg hvalid hresolve ih =>
    rw [hostArgs_cons harg, List.countP_cons, hresolve, ih h]
    rfl
  | case6 i port arg argv harg hvalid address hresolve ih =>
    cases hrest : parseArgs resolve (i + 1) port argv with
    | error e =>
      rw [hrest] at h
      exact absurd h (by simp [Except.map])
    | ok r =>
      rw [hrest] at h
      cases h
      rw [hostArgs_cons harg, List.countP_cons, hresolve, List.length_cons, ih hrest]
      rfl
  | case7 i port arg argv harg hinvalid => exact absurd h (by simp)

theorem length_hostArgs_le (i : Nat) (argv : List JString) :
    (hostArgs i argv).length ≤ argv.length := by
  fun_induction hostArgs i argv with
  | case1 i => exact Nat.le_refl _
  | case2 i => exact Nat.zero_le _
  | case3 i arg argv ih => exact le_trans ih (by simp; omega)
  | case4 i arg argv harg ih => exact Nat.succ_le_succ ih

/-- **`getReplies` awaits one datagram a host exactly if some host was resolved.**  If none was, it
does not return before `2 ^ 32` datagrams. -/
theorem getReplies_returns_iff {α : Type} (resolve : Nat → Option α) {argv : List JString}
    (hargv : argv.length < 2 ^ 31) {port : JInt} {remoteHosts : List (α × JInt)}
    (h : parseArgs resolve 0 DEFAULT_TIME_PORT argv = .ok (port, remoteHosts)) :
    (∀ arriving : List Datagram, remoteHosts.length ≤ arriving.length →
      (getReplies (BitVec.ofNat 32 remoteHosts.length) arriving).returned = true ∧
      (getReplies (BitVec.ofNat 32 remoteHosts.length) arriving).consumed = remoteHosts.length) ↔
    ∃ i ∈ hostArgs 0 argv, (resolve i).isSome = true := by
  have hcount := length_parseArgs resolve h
  have hle : remoteHosts.length ≤ argv.length := by
    rw [hcount]
    exact le_trans List.countP_le_length (length_hostArgs_le 0 argv)
  have hresolved : (∃ i ∈ hostArgs 0 argv, (resolve i).isSome = true) ↔ remoteHosts.length ≠ 0 := by
    rw [hcount, ← Nat.pos_iff_ne_zero, List.countP_pos_iff]
  rw [hresolved]
  constructor
  · intro hreturns hzero
    have hspec := getReplies_spec (n := remoteHosts.length) (by omega) []
    have hreturned := hspec.1.mp (hreturns [] (by omega)).1
    rw [if_pos hzero] at hreturned
    exact absurd hreturned (by decide)
  · intro hpos arriving harriving
    obtain ⟨hreturned, hconsumed⟩ :=
      getReplies_spec (n := remoteHosts.length) (by omega) arriving
    rw [if_neg hpos] at hreturned hconsumed
    have hback := hreturned.mpr harriving
    exact ⟨hback, hconsumed hback⟩

/-- `getReplies_returns_iff` for two hosts behind a port, of which one is resolved. -/
theorem getReplies_returns_iff_one :
    ∃ port remoteHosts,
      parseArgs (fun i => if i = 3 then some i else none) 0 DEFAULT_TIME_PORT
        [[unit '-', unit 'p'], [unit '3'], [unit 'a'], [unit 'b']] = .ok (port, remoteHosts) ∧
      remoteHosts = [(3, 3)] ∧ ∀ arriving : List Datagram, remoteHosts.length ≤ arriving.length →
        (getReplies (BitVec.ofNat 32 remoteHosts.length) arriving).returned = true ∧
        (getReplies (BitVec.ofNat 32 remoteHosts.length) arriving).consumed = remoteHosts.length := by
  obtain ⟨port, remoteHosts, h, hhosts⟩ : ∃ port remoteHosts,
      parseArgs (fun i => if i = 3 then some i else none) 0 DEFAULT_TIME_PORT
        [[unit '-', unit 'p'], [unit '3'], [unit 'a'], [unit 'b']] = .ok (port, remoteHosts) ∧
      remoteHosts = [(3, 3)] := ⟨_, _, rfl, rfl⟩
  exact ⟨port, remoteHosts, h, hhosts,
    (getReplies_returns_iff _ (by decide) h).mpr ⟨3, by decide, rfl⟩⟩

/-- One host that is not resolved: no datagram is awaited, and none is enough. -/
theorem no_host_never_answered :
    ¬∀ (resolve : Nat → Option Unit) (argv : List JString) (port : JInt)
        (remoteHosts : List (Unit × JInt)), argv.length < 2 ^ 31 →
      parseArgs resolve 0 DEFAULT_TIME_PORT argv = .ok (port, remoteHosts) →
      ∀ arriving : List Datagram, remoteHosts.length ≤ arriving.length →
        (getReplies (BitVec.ofNat 32 remoteHosts.length) arriving).returned = true ∧
        (getReplies (BitVec.ofNat 32 remoteHosts.length) arriving).consumed =
          remoteHosts.length := by
  intro h
  have hreturns := h (fun _ => none) [[unit 'x']] 37 [] (by decide) rfl [[0, 0, 0, 1]] (by decide)
  exact absurd hreturns.1 (by decide)

end TimeClient
end JavaStudy
