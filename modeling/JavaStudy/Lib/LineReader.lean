/-
# `BufferedReader.readLine` on a stream that arrives in chunks

A line ends at a CR, at an LF, or at a CR followed by an LF.  `readLine` returns as soon as it has
seen a CR, so that an LF behind it is skipped only later, when the SAME reader is asked for its
next line (`skipLF`).  What a reader has taken from the stream and not returned yet sits in its
buffer, and is lost with the reader.

Symbols are of any type: a message may carry marks that say where a symbol comes from.  `receive` is
one round of the loop of `readLine`, with the number of symbols that the stream delivers.

The rule for a proof is `Expecting.receive`: a reader that expects one terminated line goes on to
expect its rest, or returns exactly the line and leaves NOTHING in the stream, provided that no
delivery ends between the CR and the LF of a terminator.  A `Quiet` reader expects any line, and
is quiet again after it.  `receive_none` and `Expecting.ne_nil` say that a reader gets on: a round
without a line makes what is left shorter, and what is expected is there in the end.
-/
import Mathlib.Data.List.TakeWhile

namespace JavaStudy

/-- Which symbols are line breaks. -/
structure Breaks (α : Type) where
  cr : α → Bool
  lf : α → Bool
  disjoint : ∀ x, cr x = true → lf x = false

/-- A reader inside or between calls of `readLine`. -/
structure BufferedReader (α : Type) where
  /-- The part of the buffer that is not consumed. -/
  cb : List α
  skipLF : Bool
  /-- The `StringBuilder` of the call. -/
  sb : List α

namespace BufferedReader

variable {α : Type} (b : Breaks α)

/-! ## 1. The reader -/

/-- A new reader. -/
def fresh : BufferedReader α := ⟨[], false, []⟩

def plain (x : α) : Bool := !(b.cr x || b.lf x)

def dropLF : List α → List α
  | [] => []
  | x :: rest => if b.lf x then rest else x :: rest

/-- One round of the loop, over a buffer that is not empty. -/
def scan (r : BufferedReader α) : BufferedReader α × Option (List α) :=
  let cb := if r.skipLF then dropLF b r.cb else r.cb
  match cb.dropWhile (plain b) with
  | [] => (⟨[], false, r.sb ++ cb⟩, none)
  | x :: rest => (⟨rest, b.cr x, []⟩, some (r.sb ++ cb.takeWhile (plain b)))

/-- One round with its `fill`: from an empty buffer, the stream delivers its first `n` symbols,
at least one; the call waits while there are none.  The result has the reader, the line if it is
complete, and what is left of the stream. -/
def receive (n : Nat) (r : BufferedReader α) (stream : List α) :
    Option (BufferedReader α × Option (List α) × List α) :=
  if r.cb = [] then
    if 0 < n ∧ n ≤ stream.length then
      let p := scan b { r with cb := stream.take n }
      some (p.1, p.2, stream.drop n)
    else none
  else
    let p := scan b r
    some (p.1, p.2, stream)

/-- The symbols that the round takes from the stream. -/
def delivered (n : Nat) (r : BufferedReader α) (stream : List α) : List α :=
  if r.cb = [] then stream.take n else []

/-- Does the stream end its delivery between a CR and an LF? -/
def cut (n : Nat) (stream : List α) : Bool :=
  match (stream.take n).getLast?, (stream.drop n).head? with
  | some x, some y => b.cr x && b.lf y
  | _, _ => false

/-! ## 2. A terminated line -/

/-- The terminators: one line break, or CR LF. -/
inductive Terminator : List α → Prop where
  | single (x : α) (h : plain b x = false) : Terminator [x]
  | crlf (x y : α) (hx : b.cr x = true) (hy : b.lf y = true) : Terminator [x, y]

/-- A line with its terminator. -/
structure Message (line term : List α) : Prop where
  ne_nil : line ≠ []
  plain : ∀ x ∈ line, plain b x = true
  terminator : Terminator b term

/-- Between two lines: the buffer holds at most the LF of the last terminator. -/
def Quiet (r : BufferedReader α) : Prop :=
  r.sb = [] ∧ (r.cb = [] ∨ r.skipLF = true ∧ ∃ x, b.lf x = true ∧ r.cb = [x])

/-- The reader and the stream hold the message together: nothing of it is read, or the reader has a
beginning of the line. -/
inductive Expecting (line term : List α) (r : BufferedReader α) (stream : List α) : Prop where
  | start (hr : Quiet b r) (hs : stream = line ++ term)
  | midway (hcb : r.cb = []) (hskip : r.skipLF = false) (hsb : ∀ x ∈ r.sb, plain b x = true)
      (hs : r.sb ++ stream = line ++ term)

theorem quiet_fresh : Quiet b (fresh : BufferedReader α) := ⟨rfl, Or.inl rfl⟩

variable {b}

theorem not_plain_of_lf {x : α} (h : b.lf x = true) : plain b x = false := by
  simp [plain, h]

/-- Where two lines with a line break behind them agree, the lines agree. -/
theorem eq_of_append_break {l₁ l₂ r₁ r₂ : List α} {x y : α} (h₁ : ∀ z ∈ l₁, plain b z = true)
    (h₂ : ∀ z ∈ l₂, plain b z = true) (hx : plain b x = false) (hy : plain b y = false)
    (h : l₁ ++ x :: r₁ = l₂ ++ y :: r₂) : l₁ = l₂ ∧ x :: r₁ = y :: r₂ := by
  have htake := congrArg (List.takeWhile (plain b)) h
  have hdrop := congrArg (List.dropWhile (plain b)) h
  rw [List.takeWhile_append_of_pos h₁, List.takeWhile_append_of_pos h₂,
    List.takeWhile_cons_of_neg (by simp [hx]), List.takeWhile_cons_of_neg (by simp [hy]),
    List.append_nil, List.append_nil] at htake
  rw [List.dropWhile_append_of_pos h₁, List.dropWhile_append_of_pos h₂,
    List.dropWhile_cons_of_neg (by simp [hx]), List.dropWhile_cons_of_neg (by simp [hy])] at hdrop
  exact ⟨htake, hdrop⟩

/-- A terminator starts with a line break; only the LF of a CR LF may follow. -/
theorem Terminator.eq_cons {term : List α} (h : Terminator b term) :
    ∃ x rest, term = x :: rest ∧ plain b x = false ∧
      (rest = [] ∨ b.cr x = true ∧ ∃ y, b.lf y = true ∧ rest = [y]) := by
  cases h with
  | single x h => exact ⟨x, [], rfl, h, Or.inl rfl⟩
  | crlf x y hx hy =>
    exact ⟨x, [y], rfl, by simp [plain, hx], Or.inr ⟨hx, y, hy, rfl⟩⟩

/-- What a scan does with a buffer that it does not have to skip in. -/
theorem scan_of_no_skip {r : BufferedReader α}
    (h : (if r.skipLF then dropLF b r.cb else r.cb) = r.cb) :
    (scan b r = (⟨[], false, r.sb ++ r.cb⟩, none) ∧ ∀ x ∈ r.cb, plain b x = true) ∨
    ∃ line x rest, r.cb = line ++ x :: rest ∧ (∀ z ∈ line, plain b z = true) ∧ plain b x = false ∧
      scan b r = (⟨rest, b.cr x, []⟩, some (r.sb ++ line)) := by
  have hsplit := List.takeWhile_append_dropWhile (p := plain b) (l := r.cb)
  unfold scan
  simp only [h]
  cases hdrop : r.cb.dropWhile (plain b) with
  | nil => exact Or.inl ⟨rfl, List.dropWhile_eq_nil_iff.mp hdrop⟩
  | cons x rest =>
    refine Or.inr ⟨r.cb.takeWhile (plain b), x, rest, ?_, fun z hz => List.mem_takeWhile_imp hz,
      ?_, rfl⟩
    · rw [← hdrop]
      exact hsplit.symm
    · have hne : r.cb.dropWhile (plain b) ≠ [] := by
        rw [hdrop]
        exact List.cons_ne_nil _ _
      simpa [hdrop] using List.head_dropWhile_not (plain b) hne

theorem dropLF_of_plain {l : List α} (h : ∀ x, l.head? = some x → plain b x = true) :
    dropLF b l = l := by
  cases l with
  | nil => rfl
  | cons x rest =>
    have hlf : ¬b.lf x = true := by
      intro hlf
      have hx := h x rfl
      rw [not_plain_of_lf hlf] at hx
      cases hx
    simp only [dropLF, if_neg hlf]

/-- **A scan of a part of a message**: it takes a part of the line, or it returns the line, has
seen the whole message, and is quiet. -/
theorem scan_message {line term chunk rest sb : List α} {skip : Bool} (hm : Message b line term)
    (hskip : (if skip then dropLF b chunk else chunk) = chunk)
    (hsb : ∀ x ∈ sb, plain b x = true) (hs : sb ++ (chunk ++ rest) = line ++ term)
    (hcut : ∀ x y, chunk.getLast? = some x → rest.head? = some y → ¬(b.cr x = true ∧ b.lf y = true)) :
    (scan b ⟨chunk, skip, sb⟩ = (⟨[], false, sb ++ chunk⟩, none) ∧
      ∀ x ∈ sb ++ chunk, plain b x = true) ∨
    ∃ r, scan b ⟨chunk, skip, sb⟩ = (r, some line) ∧ rest = [] ∧ Quiet b r := by
  rcases scan_of_no_skip (r := ⟨chunk, skip, sb⟩) hskip with ⟨hscan, hplain⟩ | h
  · refine Or.inl ⟨hscan, ?_⟩
    intro x hx
    rcases List.mem_append.mp hx with hx | hx
    · exact hsb x hx
    · exact hplain x hx
  · obtain ⟨l, x, tail, hchunk, hl, hx, hscan⟩ := h
    obtain ⟨y, trest, rfl, hy, htrest⟩ := hm.terminator.eq_cons
    have hline : ∀ z ∈ sb ++ l, plain b z = true := by
      intro z hz
      rcases List.mem_append.mp hz with hz | hz
      · exact hsb z hz
      · exact hl z hz
    have hall : (sb ++ l) ++ x :: (tail ++ rest) = line ++ y :: trest := by
      rw [← hs, show chunk = l ++ x :: tail from hchunk]
      simp
    obtain ⟨heq, hbreak⟩ := eq_of_append_break hline hm.plain hx hy hall
    obtain ⟨rfl, hrest⟩ := List.cons.inj hbreak
    rw [heq] at hscan
    refine Or.inr ⟨_, hscan, ?_⟩
    rcases htrest with rfl | ⟨hcr, z, hz, rfl⟩
    · obtain ⟨rfl, rfl⟩ := List.append_eq_nil_iff.mp hrest
      exact ⟨rfl, rfl, Or.inl rfl⟩
    · rcases List.append_eq_singleton_iff.mp hrest with ⟨rfl, rfl⟩ | ⟨rfl, rfl⟩
      · -- the LF is still in the stream
        refine absurd ⟨hcr, hz⟩ (hcut x z ?_ rfl)
        rw [show chunk = l ++ [x] from hchunk]
        exact List.getLast?_concat ..
      · exact ⟨rfl, rfl, Or.inr ⟨hcr, z, hz, rfl⟩⟩

/-! ## 3. The rules -/

/-- What the stream holds belongs to the message. -/
theorem Expecting.mem {line term : List α} {r : BufferedReader α} {stream : List α}
    (h : Expecting b line term r stream) {x : α} (hx : x ∈ stream) : x ∈ line ++ term := by
  cases h with
  | start _ hs => exact hs ▸ hx
  | midway _ _ _ hs => exact hs ▸ List.mem_append_right _ hx

theorem mem_of_mem_delivered {n : Nat} {r : BufferedReader α} {stream : List α} {x : α}
    (h : x ∈ delivered n r stream) : x ∈ stream := by
  unfold delivered at h
  split at h
  · exact List.mem_of_mem_take h
  · exact absurd h (by simp)

/-- A quiet reader whose buffer is not empty skips what is in it. -/
theorem Quiet.scan {r : BufferedReader α} (h : Quiet b r) (hcb : r.cb ≠ []) :
    scan b r = (fresh, none) := by
  rcases h with ⟨hsb, hcb' | ⟨hskip, x, hx, hcb'⟩⟩
  · exact absurd hcb' hcb
  · obtain ⟨cb, skip, sb⟩ := r
    simp only at hsb hskip hcb'
    subst hsb hskip hcb'
    simp [BufferedReader.scan, dropLF, hx, fresh]

/-- **A quiet reader on an empty stream stays quiet.** -/
theorem Quiet.receive {n : Nat} {r r' : BufferedReader α} {res : Option (List α)} {rest : List α}
    (h : Quiet b r) (hr : receive b n r [] = some (r', res, rest)) :
    Quiet b r' ∧ res = none ∧ rest = [] := by
  unfold BufferedReader.receive at hr
  split at hr
  · rw [if_neg (by simp; omega)] at hr
    cases hr
  · rename_i hcb
    rw [h.scan hcb] at hr
    cases hr
    exact ⟨quiet_fresh b, rfl, rfl⟩

/-- **A reader that expects a message** goes on to expect its rest, or returns its line: then the
stream is empty and the reader quiet.  No delivery may end between a CR and an LF. -/
theorem Expecting.receive {line term : List α} {n : Nat} {r r' : BufferedReader α}
    {stream rest : List α} {res : Option (List α)} (h : Expecting b line term r stream)
    (hm : Message b line term) (hcut : r.cb = [] → cut b n stream = false)
    (hr : receive b n r stream = some (r', res, rest)) :
    (res = none ∧ Expecting b line term r' rest) ∨ (res = some line ∧ rest = [] ∧ Quiet b r') := by
  unfold BufferedReader.receive at hr
  split at hr
  · rename_i hcb
    split at hr
    · -- a delivery of the stream's first `n` symbols
      have hnocut : ∀ x y, (stream.take n).getLast? = some x → (stream.drop n).head? = some y →
          ¬(b.cr x = true ∧ b.lf y = true) := by
        intro x y hx hy hxy
        have := hcut hcb
        simp only [cut, hx, hy, hxy.1, hxy.2] at this
        cases this
      have hstream := List.take_append_drop n stream
      have hscan : (if r.skipLF then dropLF b (stream.take n) else stream.take n) = stream.take n ∧
          (∀ x ∈ r.sb, plain b x = true) ∧
          r.sb ++ (stream.take n ++ stream.drop n) = line ++ term := by
        rw [hstream]
        cases h with
        | start hq hs =>
          refine ⟨?_, by simp [hq.1], by rw [hq.1]; exact hs⟩
          split
          · refine dropLF_of_plain ?_
            intro x hx
            obtain ⟨y, line', rfl⟩ := List.exists_cons_of_ne_nil hm.ne_nil
            have hxs : stream.head? = some x := by
              rw [← hstream, List.head?_append, hx]
              rfl
            rw [hs, List.cons_append, List.head?_cons, Option.some.injEq] at hxs
            exact hm.plain x (hxs ▸ List.mem_cons_self)
          · rfl
        | midway _ hskip hsb hs => exact ⟨by rw [hskip]; rfl, hsb, hs⟩
      obtain ⟨hskip, hsb, hs⟩ := hscan
      rcases scan_message hm hskip hsb hs hnocut with ⟨heq, hplain⟩ | ⟨q, heq, hrest, hq⟩
      · simp only [heq, Option.some.injEq, Prod.mk.injEq] at hr
        obtain ⟨rfl, rfl, rfl⟩ := hr
        exact Or.inl ⟨rfl, .midway rfl rfl hplain (by rw [List.append_assoc]; exact hs)⟩
      · simp only [heq, Option.some.injEq, Prod.mk.injEq] at hr
        obtain ⟨rfl, rfl, rfl⟩ := hr
        exact Or.inr ⟨rfl, hrest, hq⟩
    · exact absurd hr (by simp)
  · -- the LF of the terminator before
    rename_i hcb
    cases h with
    | start hq hs =>
      rw [hq.scan hcb] at hr
      cases hr
      exact Or.inl ⟨rfl, .start (quiet_fresh b) hs⟩
    | midway hcb' _ _ _ => exact absurd hcb' hcb

/-! ## 4. Progress -/

theorem scan_none {r r' : BufferedReader α} (h : BufferedReader.scan b r = (r', none)) :
    r'.cb = [] := by
  unfold BufferedReader.scan at h
  dsimp only at h
  split at h
  · cases h
    rfl
  · cases h

/-- **A round that completes no line** uses the buffer up, or takes from the stream. -/
theorem receive_none {n : Nat} {r r' : BufferedReader α} {stream rest : List α}
    (hr : BufferedReader.receive b n r stream = some (r', none, rest)) :
    rest.length + r'.cb.length < stream.length + r.cb.length := by
  unfold BufferedReader.receive at hr
  split at hr
  · split at hr
    · rename_i hn
      simp only [Option.some.injEq, Prod.mk.injEq] at hr
      obtain ⟨hr', hres, rfl⟩ := hr
      rw [scan_none (Prod.ext hr' hres), List.length_drop, List.length_nil]
      omega
    · cases hr
  · rename_i hcb
    have hpos := List.length_pos_iff.mpr hcb
    simp only [Option.some.injEq, Prod.mk.injEq] at hr
    obtain ⟨hr', hres, rfl⟩ := hr
    rw [scan_none (Prod.ext hr' hres), List.length_nil]
    omega

theorem Quiet.length_le {r : BufferedReader α} (h : Quiet b r) : r.cb.length ≤ 1 := by
  rcases h.2 with hcb | ⟨-, x, -, hcb⟩
  · rw [hcb]
    exact Nat.zero_le 1
  · rw [hcb]
    exact Nat.le_refl 1

/-- A message that is not complete has more to come. -/
theorem Expecting.ne_nil {line term : List α} {r : BufferedReader α} {stream : List α}
    (h : Expecting b line term r stream) (hm : Message b line term) : stream ≠ [] := by
  rintro rfl
  cases h with
  | start _ hs =>
    have hline := (List.append_eq_nil_iff.mp hs.symm).1
    exact hm.ne_nil hline
  | midway _ _ hsb hs =>
    obtain ⟨x, rest, rfl, hx, -⟩ := hm.terminator.eq_cons
    rw [List.append_nil] at hs
    have hplain := hsb x (by rw [hs]; exact List.mem_append_right _ List.mem_cons_self)
    rw [hx] at hplain
    cases hplain

/-- A delivery of all that there is, is possible, and cuts nothing. -/
theorem exists_receive {r : BufferedReader α} {stream : List α} (h : r.cb = [] → stream ≠ []) :
    ∃ res, BufferedReader.receive b stream.length r stream = some res := by
  unfold BufferedReader.receive
  split
  · rename_i hcb
    exact ⟨_, if_pos ⟨List.length_pos_iff.mpr (h hcb), le_rfl⟩⟩
  · exact ⟨_, rfl⟩

theorem cut_all (stream : List α) : BufferedReader.cut b stream.length stream = false := by
  simp [BufferedReader.cut]

end BufferedReader

end JavaStudy
