/-
# `MapFile.main`: three mappings of one file

`main` writes to two places of a file, 8 KB apart, maps the file for reading only, for reading and
writing, and privately, and then changes it in five rounds: through the private mapping, through the
one for reading and writing, through the channel, and again through the first two.  After each round
it shows all three.

A file of more than `Integer.MAX_VALUE` bytes cannot be mapped.  What the mappings show of changes
to the file, the JDK leaves open; the comment of the class takes a system for granted that works
page by page, and so does `main_shows` (`PageOriented`).  Then what the private mapping shows
depends on the size of the pages, on which `main` does not count, and on what was in the file
before.  `main_shows` says it for every page size and every old file, byte by byte.
-/
import JavaStudy.Lib.Ascii
import JavaStudy.Lib.MappedFile
import JavaStudy.Nio.MapFile

namespace JavaStudy
namespace MapFile

open JavaText SparseFile MappedFile

variable {σ : Type}

/-- `getBytes()`; the texts are ASCII. -/
def getBytes (s : String) : List Byte := Ascii.getBytes (s.toList.map unit)

/-- The two writes before the file is mapped. -/
def prepared : List Write :=
  [⟨0, getBytes "This is the file content"⟩, ⟨8192, getBytes "This is more file content"⟩]

/-- The file when it is mapped. -/
def content (gap : Nat → Byte) (old : List Byte) : List Byte := writes gap old prepared

/-- The mappings go up to `channel.size()`. -/
def mapped (gap : Nat → Byte) (pageSize : Nat) (h : 0 < pageSize) (old : List Byte) : Mapping :=
  ⟨gap, pageSize, h, (content gap old).length⟩

/-- What `main` prints before it shows the buffers, and what it has done just before. -/
def rounds : List (String × List Op) :=
  [("Begin", []),
    ("Change to COW buffer", [.putPrivate ⟨8, getBytes "COW"⟩]),
    ("Change to R/W buffer", [.put ⟨9, getBytes " R/W "⟩, .put ⟨8194, getBytes " R/W "⟩]),
    ("Write on channel",
      [.write ⟨0, getBytes "Channel write "⟩, .write ⟨8202, getBytes "Channel write "⟩]),
    ("Second change to COW buffer", [.putPrivate ⟨8207, getBytes " COW2 "⟩]),
    ("Second change to R/W buffer", [.put ⟨0, getBytes " R/W2 "⟩, .put ⟨8210, getBytes " R/W2 "⟩])]

/-- What `main` throws. -/
inductive Thrown where
  /-- By `FileChannel.map`, for more than `Integer.MAX_VALUE` bytes. -/
  | illegalArgument
  /-- By `position` or `put`, behind the limit. -/
  | limit
  deriving DecidableEq

/-- What a mapping shows of its bytes. -/
def bytesOf (m : Mapping) (byte : Nat → Option Byte) : ByteBuffer :=
  .wrap ((List.range m.size).filterMap byte)

/-- `showBuffers`; the first two mappings are shared. -/
def showBuffers (lineSeparator : JString) (m : Mapping) (sys : System σ) (s : σ) : JString :=
  dumpBuffer lineSeparator ("R/O".toList.map unit) (bytesOf m (sys.shared s)) ++
    (dumpBuffer lineSeparator ("R/W".toList.map unit) (bytesOf m (sys.shared s)) ++
      (dumpBuffer lineSeparator ("COW".toList.map unit) (bytesOf m (sys.view s)) ++ lineSeparator))

/-- The rounds that are left. -/
def showRounds (lineSeparator : JString) (m : Mapping) (sys : System σ) (file : List Byte) :
    σ → List (String × List Op) → Except Thrown JString
  | _, [] => .ok []
  | s, (title, ops) :: rest =>
    match (machine m sys file).run s ops with
    | some t => (showRounds lineSeparator m sys file t rest).map fun more =>
        title.toList.map unit ++ lineSeparator ++ showBuffers lineSeparator m sys t ++ more
    | none => .error .limit

/-- What `main` prints, on a file with that content. -/
def main (lineSeparator : JString) (gap : Nat → Byte) (pageSize : Nat) (h : 0 < pageSize)
    (sys : System σ) (old : List Byte) : Except Thrown JString :=
  let m := mapped gap pageSize h old
  let file := content gap old
  if m.size < 2 ^ 31 then showRounds lineSeparator m sys file (sys.map file) rounds
  else .error .illegalArgument

/-! ## 1. The operations fit -/

theorem length_content (gap : Nat → Byte) (old : List Byte) :
    (content gap old).length = max old.length 8217 := by
  have hstops : prepared.map Write.stop = [24, 8217] := by decide
  rw [content, length_writes (by decide), hstops]
  simp only [List.foldl_cons, List.foldl_nil]
  omega

/-- All operations of `main`, one behind the other. -/
def operations : List Op := rounds.flatMap Prod.snd

theorem fits : ∀ op ∈ operations, Fits 8217 op := by decide

/-- The rounds are a run, and the last thing that is shown is its end. -/
theorem showRounds_eq (lineSeparator : JString) {m : Mapping} {sys : System σ} {file : List Byte}
    {rest : List (String × List Op)} {s t : σ} (hrest : rest ≠ [])
    (h : (machine m sys file).run s (rest.flatMap Prod.snd) = some t) :
    ∃ before, showRounds lineSeparator m sys file s rest =
      .ok (before ++ showBuffers lineSeparator m sys t) := by
  induction rest generalizing s with
  | nil => exact absurd rfl hrest
  | cons round rest ih =>
    obtain ⟨title, ops⟩ := round
    rw [List.flatMap_cons, Machine.run_append] at h
    obtain ⟨u, hu, h⟩ := Option.bind_eq_some_iff.mp h
    cases rest with
    | nil =>
      cases h
      exact ⟨title.toList.map unit ++ lineSeparator, by simp [showRounds, hu, Except.map]⟩
    | cons next rest =>
      obtain ⟨before, hbefore⟩ := ih (by simp) h
      refine ⟨title.toList.map unit ++ lineSeparator ++ showBuffers lineSeparator m sys u ++ before,
        ?_⟩
      rw [showRounds, hu]
      simp [hbefore, Except.map]

/-! ## 2. What is shown -/

/-- A byte from `start` up to `stop` is on the page of `i`. -/
def OnPage (pageSize i start stop : Nat) : Prop :=
  ∃ j, start ≤ j ∧ j < stop ∧ j / pageSize = i / pageSize

/-- What the mappings show at the end. -/
structure Shown (m : Mapping) (sys : System σ) (file : List Byte) (s : σ) : Prop where
  /-- Nothing that was put privately is in the file. -/
  channel : sys.file s = writes m.gap file
    [⟨9, getBytes " R/W "⟩, ⟨8194, getBytes " R/W "⟩, ⟨0, getBytes "Channel write "⟩,
      ⟨8202, getBytes "Channel write "⟩, ⟨0, getBytes " R/W2 "⟩, ⟨8210, getBytes " R/W2 "⟩]
  /-- The shared mappings are the file. -/
  shared : ∀ i < m.size, sys.shared s i = (sys.file s)[i]?
  /-- Where the first private put has hit, the private mapping is the file at the beginning, with
  what was put privately. -/
  first : ∀ i < m.size, OnPage m.pageSize i 8 11 → sys.view s i =
    (lastByte i [⟨8, getBytes "COW"⟩, ⟨8207, getBytes " COW2 "⟩]).or file[i]?
  /-- Where the second has hit only, it is the file after the writes through the channel. -/
  second : ∀ i < m.size, ¬ OnPage m.pageSize i 8 11 → OnPage m.pageSize i 8207 8213 →
    sys.view s i = (lastByte i [⟨8207, getBytes " COW2 "⟩]).or
      (writes m.gap file [⟨9, getBytes " R/W "⟩, ⟨8194, getBytes " R/W "⟩,
        ⟨0, getBytes "Channel write "⟩, ⟨8202, getBytes "Channel write "⟩])[i]?
  /-- Everywhere else it is the file. -/
  others : ∀ i < m.size, ¬ OnPage m.pageSize i 8 11 → ¬ OnPage m.pageSize i 8207 8213 →
    sys.view s i = (sys.file s)[i]?

theorem touches_first {m : Mapping} {i : Nat} :
    Touches m i (.putPrivate ⟨8, getBytes "COW"⟩) ↔ OnPage m.pageSize i 8 11 := by
  have hstop : Write.stop ⟨8, getBytes "COW"⟩ = 11 := by decide
  simp [Touches, Op.own, OnPage, hstop]

theorem touches_second {m : Mapping} {i : Nat} :
    Touches m i (.putPrivate ⟨8207, getBytes " COW2 "⟩) ↔ OnPage m.pageSize i 8207 8213 := by
  have hstop : Write.stop ⟨8207, getBytes " COW2 "⟩ = 8213 := by decide
  simp [Touches, Op.own, OnPage, hstop]

theorem not_touches_of_shared {m : Mapping} {i : Nat} {op : Op} (h : op.own = none) :
    ¬ Touches m i op := by
  rintro ⟨w, hw, -⟩
  rw [h] at hw
  cases hw

/-- `main` puts privately twice. -/
theorem own_cases : ∀ op ∈ operations, op.own = none ∨
    op = .putPrivate ⟨8, getBytes "COW"⟩ ∨ op = .putPrivate ⟨8207, getBytes " COW2 "⟩ := by
  decide

theorem shown_of_run {m : Mapping} {sys : System σ} {file : List Byte}
    (hp : PageOriented m sys file) {s : σ}
    (h : (machine m sys file).run (machine m sys file).init operations = some s) :
    Shown m sys file s := by
  have hseen := run_spec hp h
  refine ⟨hseen.channel, hseen.shared, ?_, ?_, ?_⟩
  · intro i hlt hfirst
    exact hseen.touched i hlt [] _ _ rfl (by simp) (touches_first.mpr hfirst)
  · intro i hlt hfirst hsecond
    refine hseen.touched i hlt
      [.putPrivate ⟨8, getBytes "COW"⟩, .put ⟨9, getBytes " R/W "⟩, .put ⟨8194, getBytes " R/W "⟩,
        .write ⟨0, getBytes "Channel write "⟩, .write ⟨8202, getBytes "Channel write "⟩] _ _ rfl
      ?_ (touches_second.mpr hsecond)
    simp only [List.forall_mem_cons, touches_first]
    exact ⟨hfirst, not_touches_of_shared rfl, not_touches_of_shared rfl, not_touches_of_shared rfl,
      not_touches_of_shared rfl, by simp⟩
  · intro i hlt hfirst hsecond
    refine hseen.untouched i hlt ?_
    intro op hop
    rcases own_cases op hop with hown | rfl | rfl
    · exact not_touches_of_shared hown
    · exact fun htouch => hfirst (touches_first.mp htouch)
    · exact fun htouch => hsecond (touches_second.mp htouch)

/-- **What `main` shows**, for every size of the pages and every file that it finds, on a system
that works page by page.  If the file has at most `Integer.MAX_VALUE` bytes, nothing throws, and the
last that is printed are the three mappings as `Shown` says; otherwise it cannot be mapped. -/
theorem main_shows (lineSeparator : JString) (gap : Nat → Byte) (pageSize : Nat)
    (h : 0 < pageSize) (sys : System σ) (old : List Byte)
    (hp : PageOriented (mapped gap pageSize h old) sys (content gap old)) :
    (old.length < 2 ^ 31 → ∃ before s, main lineSeparator gap pageSize h sys old =
        .ok (before ++ showBuffers lineSeparator (mapped gap pageSize h old) sys s) ∧
      Shown (mapped gap pageSize h old) sys (content gap old) s) ∧
    (2 ^ 31 ≤ old.length →
      main lineSeparator gap pageSize h sys old = .error .illegalArgument) := by
  have hsize : (mapped gap pageSize h old).size = max old.length 8217 := length_content gap old
  refine ⟨fun hlength => ?_, fun hlength => ?_⟩
  · have hfits : ∀ op ∈ operations, Fits (mapped gap pageSize h old).size op := fun op hop =>
      (fits op hop).mono (by omega)
    obtain ⟨s, hs⟩ : ∃ s, (machine (mapped gap pageSize h old) sys (content gap old)).run
        (sys.map (content gap old)) operations = some s := exists_run hfits _
    obtain ⟨before, hbefore⟩ := showRounds_eq lineSeparator (by simp [rounds]) hs
    refine ⟨before, s, ?_, shown_of_run hp hs⟩
    rw [main, if_pos (by omega)]
    exact hbefore
  · rw [main, if_neg (by omega)]

/-- An empty file, with pages of 4 KB that are copied when they are put into: at its beginning, the
private mapping shows the text of the first write at the end, though others have written there
twice. -/
theorem main_shows_small : ∃ before s,
    main [unit '\n'] (fun _ => 0) 4096 (by decide)
        (copyOnWrite (mapped (fun _ => 0) 4096 (by decide) [])) [] =
      .ok (before ++ showBuffers [unit '\n'] (mapped (fun _ => 0) 4096 (by decide) [])
        (copyOnWrite (mapped (fun _ => 0) 4096 (by decide) [])) s) ∧
      view (mapped (fun _ => 0) 4096 (by decide) []) s 0 = some 0x54 ∧
      s.file[0]? = some 0x20 := by
  have hlength := length_content (fun _ => 0) []
  have hsize : 0 < (mapped (fun _ => 0) 4096 (by decide) []).size := by
    rw [mapped, hlength]
    decide
  obtain ⟨before, s, hmain, hshown⟩ := (main_shows [unit '\n'] (fun _ => 0) 4096 (by decide) _ []
    (pageOriented_copyOnWrite le_rfl)).1 (by decide)
  refine ⟨before, s, hmain, (hshown.first 0 hsize ⟨8, by decide⟩).trans ?_, ?_⟩
  · rw [getElem?_of_lt (by rw [hlength]; decide), content, byteAt_writes]
    decide
  · have hchannel : s.file = _ := hshown.channel
    rw [hchannel, getElem?_of_lt (Nat.lt_of_lt_of_le (by rw [hlength]; decide)
      (length_le_writes _ _)), byteAt_writes]
    decide

end MapFile
end JavaStudy
