/-
# `MappedHttp`: a response from three buffers

The response is a status line with the server header, the dynamic headers, and a body: the file, or
a message with the exception if there was one.  The dynamic headers and the message are put into
buffers of 128 bytes.  The length that is announced is the number of bytes of the file, and of the
message the number of its `char`s.

What is outside of the program is a parameter: the file or the exception (`Served`), the content
type that `URLConnection` guesses from the name, and the sizes of the writes (`FileChannel`).

* `writeAll_eq`: whatever the sizes, the gathered output is what stands in the buffers.
* `main_content`, `main_ioException`: what comes out, in each of the two cases.
* `main_announced_iff`: when it is a response that announces the length of its body.
-/
import JavaStudy.Lib.Ascii

namespace JavaStudy

open JavaText Ascii

namespace MappedHttp

def LINE_SEP : JString := "\r\n".toList.map unit

def SERVER_ID : JString := "Server: Ronsoft Dummy Server".toList.map unit

def HTTP_HDR : JString := "HTTP/1.0 200 OK".toList.map unit ++ LINE_SEP ++ SERVER_ID ++ LINE_SEP

def HTTP_404_HDR : JString :=
  "HTTP/1.0 404 Not Found".toList.map unit ++ LINE_SEP ++ SERVER_ID ++ LINE_SEP

def MSG_404 : JString := "Could not open file: ".toList.map unit

def textPlain : JString := "text/plain".toList.map unit

/-! ## 1. The response -/

inductive Throwable where
  /-- Of `ByteBuffer.put`. -/
  | bufferOverflow
  /-- Of `FileChannel.map`, for more than `Integer.MAX_VALUE` bytes. -/
  | illegalArgument
  deriving DecidableEq

/-- What the file system has for the `try` block. -/
inductive Served where
  | content (data : List Byte)
  /-- One of its calls throws an `IOException` with this text. -/
  | ioException (e : JString)

def bytes (string : JString) : List Byte := getBytes string

/-- The variables that are set when the `try` statement has ended. -/
structure Reply where
  header : ByteBuffer
  body : ByteBuffer
  contentLength : Nat
  contentType : Option JString

def msg (e : JString) : JString := MSG_404 ++ e ++ LINE_SEP

/-- The `try` statement; `guessed` is what `URLConnection.guessContentTypeFromName` returns. -/
def reply (guessed : Option JString) : Served → Except Throwable Reply
  | .content data =>
    if data.length < 2 ^ 31 then
      .ok
        { header := ByteBuffer.wrap (bytes HTTP_HDR)
          body := ByteBuffer.wrap data
          contentLength := data.length
          contentType := guessed }
    else .error .illegalArgument
  | .ioException e =>
    match (ByteBuffer.allocate 128).put (bytes (msg e)) with
    | none => .error .bufferOverflow
    | some buf =>
      .ok
        { header := ByteBuffer.wrap (bytes HTTP_404_HDR)
          body := buf.flip
          contentLength := (msg e).length
          contentType := some textPlain }

/-- What `StringBuffer.append` makes of a string that may be `null`. -/
def appended (s : Option JString) : JString := s.getD ("null".toList.map unit)

/-- The text of the dynamic headers. -/
def sb (contentLength : Nat) (contentType : Option JString) : JString :=
  "Content-Length: ".toList.map unit ++ digits contentLength ++ LINE_SEP ++
    "Content-Type: ".toList.map unit ++ appended contentType ++ LINE_SEP ++ LINE_SEP

/-- The three buffers. -/
def gathered (guessed : Option JString) (served : Served) : Except Throwable (List ByteBuffer) :=
  match reply guessed served with
  | .error e => .error e
  | .ok r =>
    match (ByteBuffer.allocate 128).put (bytes (sb r.contentLength r.contentType)) with
    | none => .error .bufferOverflow
    | some dynhdrs => .ok [r.header, dynhdrs.flip, r.body]

/-! ## 2. The gathering writes -/

/-- How many bytes the `k`-th write takes of those that remain: at least one, if there is one. -/
structure FileChannel where
  written : Nat → Nat → Nat
  written_le : ∀ k remaining, written k remaining ≤ remaining
  written_pos : ∀ k remaining, 0 < remaining → 0 < written k remaining

def remaining (gather : List ByteBuffer) : Nat := (gather.map ByteBuffer.remaining).sum

theorem remaining_eq (gather : List ByteBuffer) :
    remaining gather = (ByteBuffer.contents gather).length := by
  rw [remaining, ByteBuffer.contents, List.length_flatMap]
  congr 1
  exact List.map_congr_left fun b _ => b.length_content.symm

theorem remaining_gather {n : Nat} {gather : List ByteBuffer} :
    remaining (ByteBuffer.gather n gather).2 = remaining gather - n := by
  rw [remaining_eq, (ByteBuffer.gather_spec n gather).2, List.length_drop, remaining_eq]

/-- `while (out.write(gather) > 0)`, from the `k`-th write on; `out` is what the file has. -/
def writeAll (channel : FileChannel) (k : Nat) (gather : List ByteBuffer) (out : List Byte) :
    List Byte :=
  let n := channel.written k (remaining gather)
  let r := ByteBuffer.gather n gather
  if 0 < n then writeAll channel (k + 1) r.2 (out ++ r.1) else out
termination_by remaining gather
decreasing_by
  have hle := channel.written_le k (remaining gather)
  rw [remaining_gather]
  omega

/-- **Whatever the sizes of the writes, what stands in the buffers comes out.** -/
theorem writeAll_eq (channel : FileChannel) (k : Nat) (gather : List ByteBuffer)
    (out : List Byte) :
    writeAll channel k gather out = out ++ ByteBuffer.contents gather := by
  fun_induction writeAll channel k gather out with
  | case1 k gather out n r hn ih =>
    obtain ⟨hbytes, hrest⟩ := ByteBuffer.gather_spec n gather
    rw [ih, hbytes, hrest, List.append_assoc, List.take_append_drop]
  | case2 k gather out n hn =>
    have hremaining : ¬0 < remaining gather := fun h => hn (channel.written_pos k _ h)
    have hnil : ByteBuffer.contents gather = [] := by
      rw [← List.length_eq_zero_iff, ← remaining_eq]
      omega
    rw [hnil, List.append_nil]

/-- What `main` leaves in the output file. -/
def main (guessed : Option JString) (channel : FileChannel) (served : Served) :
    Except Throwable (List Byte) :=
  match gathered guessed served with
  | .error e => .error e
  | .ok gather => .ok (writeAll channel 0 gather [])

/-! ## 3. What comes out -/

variable {guessed : Option JString} {channel : FileChannel}

/-- A text that fits into a buffer of its own is what the buffer has after a flip. -/
theorem put_allocate {capacity : Nat} {text : List Byte} (h : text.length ≤ capacity) :
    ∃ b, (ByteBuffer.allocate capacity).put text = some b ∧ b.flip.content = text := by
  obtain ⟨b, hput, -⟩ := ByteBuffer.exists_put (b := ByteBuffer.allocate capacity) h
  exact ⟨b, hput, ByteBuffer.content_flip_put rfl hput⟩

theorem put_allocate_of_long {capacity : Nat} {text : List Byte} (h : ¬text.length ≤ capacity) :
    (ByteBuffer.allocate capacity).put text = none :=
  dif_neg h

theorem main_of_reply {served : Served} {r : Reply} (h : reply guessed served = .ok r) :
    main guessed channel served =
      if (bytes (sb r.contentLength r.contentType)).length ≤ 128 then
        .ok (r.header.content ++ bytes (sb r.contentLength r.contentType) ++ r.body.content)
      else .error .bufferOverflow := by
  simp only [main, gathered, h]
  split_ifs with hfits
  · obtain ⟨dynhdrs, hput, hcontent⟩ := put_allocate hfits
    simp only [hput, writeAll_eq, ByteBuffer.contents, List.flatMap_cons, List.flatMap_nil, hcontent,
      List.nil_append, List.append_nil, List.append_assoc]
  · rw [put_allocate_of_long hfits]

/-- **What comes out for a file.** -/
theorem main_content (data : List Byte) : main guessed channel (.content data) =
    if data.length < 2 ^ 31 then
      if (bytes (sb data.length guessed)).length ≤ 128 then
        .ok (bytes HTTP_HDR ++ bytes (sb data.length guessed) ++ data)
      else .error .bufferOverflow
    else .error .illegalArgument := by
  by_cases hlarge : data.length < 2 ^ 31
  · have hreply : reply guessed (.content data) = .ok
        ⟨ByteBuffer.wrap (bytes HTTP_HDR), ByteBuffer.wrap data, data.length, guessed⟩ :=
      if_pos hlarge
    rw [main_of_reply hreply, if_pos hlarge, ByteBuffer.content_wrap, ByteBuffer.content_wrap]
  · rw [main, gathered, reply, if_neg hlarge, if_neg hlarge]

/-- Two fields and what ends the headers: only the second value may be any text. -/
theorem getBytes_fields {name value name' sep : JString} (hname : IsAscii name)
    (hvalue : IsAscii value) (hname' : IsAscii name') (hsep : IsAscii sep) (value' : JString) :
    getBytes (name ++ value ++ sep ++ name' ++ value' ++ sep ++ sep) =
      getBytes name ++ getBytes value ++
        (getBytes sep ++ getBytes name' ++ getBytes value' ++ getBytes sep ++ getBytes sep) := by
  rw [getBytes_append_left _ hsep, getBytes_append_left _ hsep]
  simp only [List.append_assoc]
  rw [getBytes_append_right hname, getBytes_append_right hvalue, getBytes_append_right hsep,
    getBytes_append_right hname']
  simp only [List.append_assoc]

/-- The text of the dynamic headers, as bytes. -/
theorem bytes_sb (contentLength : Nat) (contentType : Option JString) :
    bytes (sb contentLength contentType) =
      bytes ("Content-Length: ".toList.map unit) ++ bytes (digits contentLength) ++
        (bytes LINE_SEP ++ bytes ("Content-Type: ".toList.map unit) ++
          bytes (appended contentType) ++ bytes LINE_SEP ++ bytes LINE_SEP) :=
  getBytes_fields (by decide) (ascii_digits contentLength) (by decide) (by decide) _

theorem length_sb (contentLength : Nat) (contentType : Option JString) :
    (bytes (sb contentLength contentType)).length =
      36 + (digits contentLength).length + (bytes (appended contentType)).length := by
  have hsep : (bytes LINE_SEP).length = 2 := rfl
  have hlength : (bytes ("Content-Length: ".toList.map unit)).length = 16 := rfl
  have htype : (bytes ("Content-Type: ".toList.map unit)).length = 14 := rfl
  have hdigits : (bytes (digits contentLength)).length = (digits contentLength).length :=
    length_getBytes (ascii_digits contentLength)
  rw [bytes_sb]
  simp only [List.length_append, hsep, hlength, htype, hdigits]
  omega

/-- **The number that is announced is in the headers.** -/
theorem sb_inj {m n : Nat} {contentType : Option JString}
    (h : bytes (sb m contentType) = bytes (sb n contentType)) : m = n := by
  rw [bytes_sb, bytes_sb, List.append_cancel_right_eq, List.append_cancel_left_eq] at h
  have hdigits := getBytes_inj (ascii_digits m) (ascii_digits n) h
  have hvalue := digitsValue_digits m
  rw [hdigits, digitsValue_digits, Option.some.injEq] at hvalue
  exact hvalue.symm

theorem length_msg (e : JString) : (msg e).length = 23 + e.length := by
  have hmsg : MSG_404.length = 21 := rfl
  have hsep : LINE_SEP.length = 2 := rfl
  rw [msg, List.length_append, List.length_append, hmsg, hsep]
  omega

theorem length_bytes_msg (e : JString) : (bytes (msg e)).length = 23 + (bytes e).length := by
  have hmsg : IsAscii MSG_404 := by decide
  have hsep : IsAscii LINE_SEP := by decide
  have hmsg' : (bytes MSG_404).length = 21 := rfl
  have hsep' : (bytes LINE_SEP).length = 2 := rfl
  simp only [bytes, msg] at hmsg' hsep' ⊢
  rw [getBytes_append_left _ hsep, getBytes_append_right hmsg, List.length_append,
    List.length_append, hmsg', hsep']
  omega

theorem length_textPlain : (bytes (appended (some textPlain))).length = 10 := rfl

/-- There is room for the headers of every message that there is room for: it has at most two
`char`s to a byte, so its length has three digits at most. -/
theorem length_sb_msg_le {e : JString} (h : (bytes e).length ≤ 105) :
    (bytes (sb (msg e).length (some textPlain))).length ≤ 128 := by
  have hle : e.length ≤ 2 * (bytes e).length := length_le_getBytes e
  have hdigits : (digits (msg e).length).length ≤ 3 := by
    refine length_digits_le (by decide) ?_
    rw [length_msg]
    omega
  rw [length_sb, length_textPlain]
  omega

/-- **What comes out for an exception.** -/
theorem main_ioException (e : JString) : main guessed channel (.ioException e) =
    if (bytes e).length ≤ 105 then
      .ok (bytes HTTP_404_HDR ++ bytes (sb (msg e).length (some textPlain)) ++ bytes (msg e))
    else .error .bufferOverflow := by
  have hlength := length_bytes_msg e
  by_cases hfits : (bytes e).length ≤ 105
  · have hroom : (bytes (msg e)).length ≤ 128 := by omega
    obtain ⟨buf, hput, hcontent⟩ := put_allocate hroom
    have hreply : reply guessed (.ioException e) = .ok
        ⟨ByteBuffer.wrap (bytes HTTP_404_HDR), buf.flip, (msg e).length, some textPlain⟩ := by
      rw [reply, hput]
    rw [main_of_reply hreply, if_pos hfits, if_pos (length_sb_msg_le hfits),
      ByteBuffer.content_wrap, hcontent]
  · have hroom : ¬(bytes (msg e)).length ≤ 128 := by omega
    rw [main, gathered, reply, put_allocate_of_long hroom, if_neg hfits]

/-! ## 4. When the length is right -/

/-- A status line and headers that announce the length of the body, and the body. -/
def announced (status : JString) (contentType : Option JString) (body : List Byte) : List Byte :=
  bytes status ++ bytes (sb body.length contentType) ++ body

/-- The response that is due. -/
def due (guessed : Option JString) : Served → List Byte
  | .content data => announced HTTP_HDR guessed data
  | .ioException e => announced HTTP_404_HDR (some textPlain) (bytes (msg e))

/-- The file can be mapped, and the content type leaves room for the length; or the text of the
exception is short, and each of its `char`s is a character. -/
def Fits (guessed : Option JString) : Served → Prop
  | .content data =>
    data.length < 2 ^ 31 ∧ (digits data.length).length + (bytes (appended guessed)).length ≤ 92
  | .ioException e => e.length ≤ 105 ∧ NoPair e

theorem content_announced_iff (data : List Byte) :
    main guessed channel (.content data) = .ok (due guessed (.content data)) ↔
      Fits guessed (.content data) := by
  rw [main_content, Fits, length_sb]
  by_cases hlarge : data.length < 2 ^ 31
  · by_cases hfits : (digits data.length).length + (bytes (appended guessed)).length ≤ 92
    · rw [if_pos hlarge, if_pos (by omega)]
      exact iff_of_true rfl ⟨hlarge, hfits⟩
    · rw [if_pos hlarge, if_neg (by omega)]
      exact iff_of_false nofun fun h => hfits h.2
  · rw [if_neg hlarge]
    exact iff_of_false nofun fun h => hlarge h.1

theorem ioException_announced_iff (e : JString) :
    main guessed channel (.ioException e) = .ok (due guessed (.ioException e)) ↔
      Fits guessed (.ioException e) := by
  have hchars : (bytes e).length = e.length ↔ NoPair e := length_getBytes_eq_iff e
  rw [main_ioException, Fits]
  constructor
  · intro h
    split at h
    · rename_i hfits
      rw [due, announced, Except.ok.injEq, List.append_cancel_right_eq,
        List.append_cancel_left_eq] at h
      have hlength := sb_inj h
      rw [length_msg, length_bytes_msg] at hlength
      exact ⟨by omega, hchars.mp (by omega)⟩
    · cases h
  · rintro ⟨hfits, hpair⟩
    have hlength := hchars.mpr hpair
    rw [if_pos (by omega), due, announced, length_bytes_msg, length_msg, hlength]

/-- **When no buffer overflows and the response announces the length of its body.** -/
theorem main_announced_iff (guessed : Option JString) (channel : FileChannel) (served : Served) :
    main guessed channel served = .ok (due guessed served) ↔ Fits guessed served := by
  cases served with
  | content data => exact content_announced_iff data
  | ioException e => exact ioException_announced_iff e

/-- The content type of the JDK's own table leaves room for every length. -/
theorem fits_content_of_plain (data : List Byte) :
    Fits (some textPlain) (.content data) ↔ data.length < 2 ^ 31 := by
  rw [Fits, length_textPlain]
  refine and_iff_left_of_imp ?_
  intro hlarge
  have hdigits : (digits data.length).length ≤ 10 := length_digits_le (by decide) (by omega)
  omega

/-- A channel that takes everything. -/
def wholeWrites : FileChannel where
  written _ remaining := remaining
  written_le _ _ := le_refl _
  written_pos _ _ h := h

/-- What the JDK throws on Windows while another process has the file. -/
def sharingViolation : JString :=
  "java.io.FileNotFoundException: testpath\\MappedHttp.txt ".toList.map unit ++
    "(The process cannot access the file because ".toList.map unit ++
    "it is being used by another process)".toList.map unit

/-- **A long text overflows its buffer**, and of a text with a pair of surrogates the length is
wrong. -/
theorem main_of_long_text :
    main none wholeWrites (.ioException sharingViolation) = .error .bufferOverflow ∧
    main none wholeWrites (.ioException sharingViolation) ≠
      .ok (due none (.ioException sharingViolation)) ∧
    main none wholeWrites (.ioException [0xD83D, 0xDE00]) ≠
      .ok (due none (.ioException [0xD83D, 0xDE00])) := by
  have hlong : ¬(bytes sharingViolation).length ≤ 105 := by
    rw [bytes, length_getBytes (by decide +kernel)]
    decide +kernel
  have hmain : main none wholeWrites (.ioException sharingViolation) = .error .bufferOverflow := by
    rw [main_ioException, if_neg hlong]
  refine ⟨hmain, ?_, ?_⟩
  · rw [hmain]
    exact nofun
  · rw [ne_eq, ioException_announced_iff]
    exact fun h => absurd h.2 (by decide)

end MappedHttp
end JavaStudy
