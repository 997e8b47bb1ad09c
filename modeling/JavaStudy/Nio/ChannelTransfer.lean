/-
# `ChannelTransfer`: files one after the other into a channel

`catFiles` calls `transferTo` once for each file, for all of its bytes, and does not look at what
the call returns.  `transferTo` promises no more than to transfer some beginning of what it was
asked for; the JDK's own one stops at `Integer.MAX_VALUE` bytes.  What it does is a parameter
(`Channels`), and what arrives is then a beginning of each file, one after the other.
-/
import Mathlib.Algebra.Group.Nat.Defs
import Mathlib.Data.List.Infix
import JavaStudy.Lib.ByteBuffer

namespace JavaStudy
namespace ChannelTransfer

inductive IOException where
  | fileNotFound
  | closedChannel
  | other
  deriving DecidableEq

/-- The files by their names, and what `transferTo` does in its `k`-th call. -/
structure Channels (Name : Type) where
  content : Name → Option (List Byte)
  /-- How many bytes are transferred of those that are asked for. -/
  transferred : Nat → Nat → Nat
  transferred_le : ∀ k count, transferred k count ≤ count
  throws : Nat → Option IOException

variable {Name : Type} (channels : Channels Name)

/-- `channel.transferTo(position, count, target)`, as the `k`-th call: the returned number and what
the target has received by then. -/
def transferTo (k : Nat) (channel : List Byte) (position count : Nat) (target : List Byte) :
    Except IOException Nat × List Byte :=
  let n := channels.transferred k (min count (channel.length - position))
  let target := target ++ (channel.drop position).take n
  match channels.throws k with
  | some e => (.error e, target)
  | none => (.ok n, target)

/-- `catFiles`, from the file number `k` on. -/
def catFiles (k : Nat) (target : List Byte) : List Name → Except IOException Unit × List Byte
  | [] => (.ok (), target)
  | file :: files =>
    match channels.content file with
    | none => (.error .fileNotFound, target)
    | some channel =>
      match transferTo channels k channel 0 channel.length target with
      | (.error e, target) => (.error e, target)
      | (.ok _, target) => catFiles (k + 1) target files

/-- The contents of the files, one after the other. -/
def concatenation (files : List Name) : List Byte :=
  files.flatMap fun file => (channels.content file).getD []

/-- Every call transfers the whole file. -/
def Whole (k : Nat) (files : List Name) : Prop :=
  ∀ i file channel, files[i]? = some file → channels.content file = some channel →
    channels.transferred (k + i) channel.length = channel.length

variable {channels}

theorem whole_nil (k : Nat) : Whole channels k [] :=
  fun i file channel hfile => absurd hfile (by simp)

theorem whole_cons {k : Nat} {file : Name} {files : List Name} {channel : List Byte}
    (hfile : channels.content file = some channel) :
    Whole channels k (file :: files) ↔
      channels.transferred k channel.length = channel.length ∧ Whole channels (k + 1) files := by
  constructor
  · intro h
    refine ⟨h 0 file channel rfl hfile, fun i f c hf hc => ?_⟩
    have hi := h (i + 1) f c hf hc
    rwa [← Nat.add_assoc, Nat.add_right_comm] at hi
  · rintro ⟨hfirst, hrest⟩ i f c hf hc
    cases i with
    | zero =>
      rw [List.getElem?_cons_zero, Option.some.injEq] at hf
      rw [← hf, hfile, Option.some.injEq] at hc
      exact hc ▸ hfirst
    | succ i =>
      have hi := hrest i f c hf hc
      rwa [Nat.add_right_comm, Nat.add_assoc] at hi

/-- **What a call of `catFiles` that returns has sent**: some of the bytes, in order, and all of them
exactly if every transfer was whole. -/
theorem catFiles_received {files : List Name} {k : Nat} {target received : List Byte}
    (h : catFiles channels k target files = (.ok (), received)) :
    ∃ sent, received = target ++ sent ∧ sent.Sublist (concatenation channels files) ∧
      ((concatenation channels files).length ≤ sent.length ↔ Whole channels k files) := by
  induction files generalizing k target with
  | nil =>
    obtain rfl : target = received := (Prod.mk.inj h).2
    refine ⟨[], (List.append_nil _).symm, List.Sublist.refl _, iff_of_true (le_refl _) (whole_nil k)⟩
  | cons file files ih =>
    cases hfile : channels.content file with
    | none => exact absurd h (by simp [catFiles, hfile])
    | some channel =>
      cases hthrows : channels.throws k with
      | some e => exact absurd h (by simp [catFiles, hfile, transferTo, hthrows])
      | none =>
        simp only [catFiles, hfile, transferTo, hthrows, Nat.sub_zero, Nat.min_self,
          List.drop_zero] at h
        obtain ⟨sent, rfl, hsub, hall⟩ := ih h
        have hle := channels.transferred_le k channel.length
        have hlength := hsub.length_le
        have hcat : concatenation channels (file :: files) =
            channel ++ concatenation channels files := by
          rw [concatenation, List.flatMap_cons, hfile]
          rfl
        refine ⟨channel.take (channels.transferred k channel.length) ++ sent,
          (List.append_assoc ..), ?_, ?_⟩
        · rw [hcat]
          exact (List.take_sublist _ _).append hsub
        · rw [hcat, whole_cons hfile, ← hall]
          simp only [List.length_append, List.length_take]
          omega

/-- **The target has received the files as a whole exactly if every call transferred its file as a
whole.** -/
theorem catFiles_concatenates_iff {files : List Name} {target received : List Byte}
    (h : catFiles channels 0 target files = (.ok (), received)) :
    received = target ++ concatenation channels files ↔ Whole channels 0 files := by
  obtain ⟨sent, rfl, hsub, hall⟩ := catFiles_received h
  rw [List.append_cancel_left_eq, ← hall]
  constructor
  · rintro rfl
    exact le_refl _
  · exact fun hle => hsub.eq_of_length (le_antisymm hsub.length_le hle)

/-! ## The JDK's limit -/

/-- No call of the JDK's `transferTo` transfers more than `Integer.MAX_VALUE` bytes. -/
def jdkChannels (content : Name → Option (List Byte)) : Channels Name where
  content := content
  transferred _ count := min count (2 ^ 31 - 1)
  transferred_le _ _ := Nat.min_le_left ..
  throws _ := none

/-- Two small files behind what the target has already. -/
theorem catFiles_concatenates_iff_small :
    catFiles (jdkChannels fun b : Bool => some (if b then [1, 2] else [3])) 0 [9] [true, false] =
      (.ok (), [9, 1, 2, 3]) ∧
    [9, 1, 2, 3] = [9] ++ concatenation
      (jdkChannels fun b : Bool => some (if b then [1, 2] else [3])) [true, false] := by
  have h : catFiles (jdkChannels fun b : Bool => some (if b then [1, 2] else [3])) 0 [9]
      [true, false] = (.ok (), [9, 1, 2, 3]) := rfl
  refine ⟨h, (catFiles_concatenates_iff h).mpr ?_⟩
  exact (whole_cons rfl).mpr ⟨rfl, (whole_cons rfl).mpr ⟨rfl, whole_nil 2⟩⟩

theorem catFiles_jdk_one (content : List Byte) :
    catFiles (jdkChannels fun _ : Unit => some content) 0 [] [()] =
      (.ok (), content.take (min content.length (2 ^ 31 - 1))) := by
  simp [catFiles, transferTo, jdkChannels]

/-- **Of a file of `2 ^ 31` bytes the last one is missing.** -/
theorem catFiles_of_large :
    ∃ (content : List Byte) (received : List Byte), content.length = 2 ^ 31 ∧
      catFiles (jdkChannels fun _ : Unit => some content) 0 [] [()] = (.ok (), received) ∧
        received.length = 2 ^ 31 - 1 ∧
          received ≠ [] ++ concatenation (jdkChannels fun _ : Unit => some content) [()] := by
  obtain ⟨content, hlength⟩ : ∃ content : List Byte, content.length = 2 ^ 31 :=
    ⟨List.replicate (2 ^ 31) 0, List.length_replicate⟩
  have hreceived : (content.take (min content.length (2 ^ 31 - 1))).length = 2 ^ 31 - 1 := by
    rw [List.length_take, hlength]
    rfl
  refine ⟨content, _, hlength, catFiles_jdk_one content, hreceived, ?_⟩
  have hcat : [] ++ concatenation (jdkChannels fun _ : Unit => some content) [()] = content := by
    simp [concatenation, jdkChannels]
  rw [hcat]
  intro heq
  have hsame := congrArg List.length heq
  rw [hreceived, hlength] at hsame
  exact absurd hsame (by decide)

end ChannelTransfer
end JavaStudy
