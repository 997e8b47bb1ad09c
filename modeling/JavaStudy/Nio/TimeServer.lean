/-
# `TimeServer`: the time of RFC 868 in four bytes

`listen` has a buffer of 8 bytes and a slice of its last four.  A request is received into the
slice and ignored; the time, in seconds since 1900, is put as a `long` into the whole buffer, and
the slice is sent.  So a reply is the last four bytes of that `long`, whatever the request and the
rounds before have left (`listen_eq`).
-/
import JavaStudy.Lib.BigEndian

namespace JavaStudy
namespace TimeServer

open BigEndian

abbrev Datagram := List Byte

abbrev JLong := BitVec 64

/-- The seconds from 1900 to 1970. -/
def DIFF_1900 : JLong := 2208988800

/-- What `putLong` is given: `(System.currentTimeMillis() / 1000) + DIFF_1900`. -/
def seconds1900 (currentTimeMillis : JLong) : JLong := currentTimeMillis.sdiv 1000 + DIFF_1900

/-- `longBuffer` and `buffer`, its slice. -/
def longBuffer : Sliced := .allocate 4 4

/-- One round of `listen`: the buffer after it and the reply. -/
def answer (b : Sliced) (request : Datagram) (currentTimeMillis : JLong) :
    Option (Sliced × Datagram) :=
  let received := (b.slice.clear.receive request).clear
  (Sliced.putAll { b with slice := received } (toBytes 8 (seconds1900 currentTimeMillis).toNat)).bind
    fun b => (b.slice.take b.slice.remaining).map fun r => ({ b with slice := r.2 }, r.1)

/-- `listen` on requests that come at those readings of the clock: the replies. -/
def listen : Sliced → List (Datagram × JLong) → Option (List Datagram)
  | _, [] => some []
  | b, (request, currentTimeMillis) :: requests =>
    (answer b request currentTimeMillis).bind fun r =>
      (listen r.1 requests).map (r.2 :: ·)

/-- The reply at a reading of the clock. -/
def reply (currentTimeMillis : JLong) : Datagram :=
  toBytes 4 (seconds1900 currentTimeMillis).toNat

/-- **One round**: the reply is the low half of the time. -/
theorem answer_eq {b : Sliced} (hbefore : b.before.length = 4) (hslice : b.slice.capacity = 4)
    (request : Datagram) (currentTimeMillis : JLong) :
    ∃ b', answer b request currentTimeMillis = some (b', reply currentTimeMillis) ∧
      b'.before.length = 4 ∧ b'.slice.capacity = 4 := by
  have hreceived : (b.slice.clear.receive request).clear.capacity = 4 :=
    (ByteBuffer.capacity_receive _ _).trans hslice
  have hlength : (toBytes 8 (seconds1900 currentTimeMillis).toNat).length =
      b.before.length + (b.slice.clear.receive request).clear.capacity := by
    rw [length_toBytes, hbefore, hreceived]
  obtain ⟨c, hput, hhigh, hlow, halike⟩ :=
    Sliced.exists_putAll (b := ⟨b.before, (b.slice.clear.receive request).clear⟩) hlength
  obtain ⟨sent, htake, hsent⟩ := c.slice.exists_take_remaining
  have hcontent : c.slice.content = reply currentTimeMillis := by
    rw [ByteBuffer.content_eq_array halike.position (halike.limit.trans halike.capacity.symm), hlow,
      hbefore]
    exact drop_toBytes 4 4 _
  refine ⟨⟨c.before, sent⟩, ?_, ?_, ?_⟩
  · simp only [answer]
    rw [hput, Option.bind_some, htake, hcontent]
    rfl
  · simp only [hhigh, hbefore, List.length_take, length_toBytes]
    rfl
  · rw [hsent, halike.capacity]
    exact hreceived

theorem listen_eq' {b : Sliced} (hbefore : b.before.length = 4) (hslice : b.slice.capacity = 4)
    (requests : List (Datagram × JLong)) :
    listen b requests = some (requests.map fun r => reply r.2) := by
  induction requests generalizing b with
  | nil => rfl
  | cons r requests ih =>
    obtain ⟨b', hanswer, hbefore', hslice'⟩ := answer_eq hbefore hslice r.1 r.2
    rw [listen, hanswer, Option.bind_some, ih hbefore' hslice']
    rfl

/-- **Every reply tells the time of its own round.** -/
theorem listen_eq (requests : List (Datagram × JLong)) :
    listen longBuffer requests = some (requests.map fun r => reply r.2) :=
  listen_eq' rfl rfl requests

end TimeServer
end JavaStudy
