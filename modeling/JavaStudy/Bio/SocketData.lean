/-
# `SocketData`: the object that crosses the wire as text
-/
import JavaStudy.Lib.JavaText

namespace JavaStudy

open JavaText

structure SocketData where
  clientNum : JInt
  serverNum : JInt
  deriving DecidableEq

namespace SocketData

/-- `clientNum + "~" + serverNum`. -/
def getStrFromObj (data : SocketData) : JString :=
  Integer.toString data.clientNum ++ unit '~' :: Integer.toString data.serverNum

/-- `getObjFromStr`; the argument is `none` for `null`. -/
def getObjFromStr : Option JString → Except RuntimeException SocketData
  | none => .error .nullPointer
  | some str =>
    let strs := split (unit '~') (trim str)
    match strs[0]? with
    | none => .error .arrayIndexOutOfBounds
    | some first =>
      match Integer.parseInt first with
      | .error e => .error e
      | .ok clientNum =>
        match strs[1]? with
        | none => .error .arrayIndexOutOfBounds
        | some second =>
          match Integer.parseInt second with
          | .error e => .error e
          | .ok serverNum => .ok ⟨clientNum, serverNum⟩

/-- `TcpIpBIOServerThread.dealData`; `int` multiplication wraps. -/
def dealData (data : SocketData) : SocketData := { data with serverNum := data.clientNum * 2 }

theorem getStrFromObj_ne_nil (data : SocketData) : data.getStrFromObj ≠ [] := by
  unfold getStrFromObj
  simp

/-- There is no blank in the text; in particular it has no line break. -/
theorem blank_getStrFromObj (data : SocketData) : ∀ c ∈ data.getStrFromObj, blank c = false := by
  intro c hc
  rcases List.mem_append.mp hc with hc | hc
  · exact (numeral_spec (mem_numerals hc)).1
  · rcases List.mem_cons.mp hc with rfl | hc
    · decide
    · exact (numeral_spec (mem_numerals hc)).1

/-- The characters of what `Integer.parseInt` reads are neither blanks nor the separator. -/
theorem parsed_spec {s : JString} {i : JInt} (h : Integer.parseInt s = .ok i) {c : JChar}
    (hc : c ∈ s) : blank c = false ∧ c ≠ unit '~' := by
  rcases mem_of_parseInt h hc with rfl | rfl | ⟨d, hd⟩
  · decide
  · decide
  · obtain ⟨z, hz, hle, hlt⟩ := digit_range hd
    have hzeros : (zeros.all fun z => decide (0x20 < z) && (decide (0x7E < z) || decide (z ≤ 0x74)))
        = true := by decide
    have hspec := List.all_eq_true.mp hzeros z hz
    simp only [Bool.and_eq_true, Bool.or_eq_true, decide_eq_true_eq] at hspec
    refine ⟨?_, ?_⟩
    · simp only [blank, decide_eq_false_iff_not]
      omega
    · rintro rfl
      have htilde : (unit '~').toNat = 0x7E := by decide
      omega

/-- **`getObjFromStr` reads two decimals around the separator**, with any padding of blanks. -/
theorem getObjFromStr_parts {first second pre post : JString} {clientNum serverNum : JInt}
    (hfirst : Integer.parseInt first = .ok clientNum)
    (hsecond : Integer.parseInt second = .ok serverNum)
    (hpre : ∀ c ∈ pre, blank c = true) (hpost : ∀ c ∈ post, blank c = true) :
    getObjFromStr (some (pre ++ (first ++ unit '~' :: second) ++ post))
      = .ok ⟨clientNum, serverNum⟩ := by
  have hblank : ∀ c ∈ first ++ unit '~' :: second, blank c = false := by
    intro c hc
    rcases List.mem_append.mp hc with hc | hc
    · exact (parsed_spec hfirst hc).1
    · rcases List.mem_cons.mp hc with rfl | hc
      · decide
      · exact (parsed_spec hsecond hc).1
  have htrim : trim (pre ++ (first ++ unit '~' :: second) ++ post) = first ++ unit '~' :: second :=
    trim_padded (by simp) hblank hpre hpost
  have hsplit : split (unit '~') (first ++ unit '~' :: second) = [first, second] :=
    split_pair (fun h => (parsed_spec hfirst h).2 rfl) (fun h => (parsed_spec hsecond h).2 rfl)
      (ne_nil_of_parseInt hsecond)
  simp only [getObjFromStr, htrim, hsplit, List.getElem?_cons_zero, List.getElem?_cons_succ,
    hfirst, hsecond]

/-- **The round trip**, with any padding of blanks around the text. -/
theorem getObjFromStr_padded (data : SocketData) {pre post : JString}
    (hpre : ∀ c ∈ pre, blank c = true) (hpost : ∀ c ∈ post, blank c = true) :
    getObjFromStr (some (pre ++ data.getStrFromObj ++ post)) = .ok data :=
  getObjFromStr_parts (parseInt_toString _) (parseInt_toString _) hpre hpost

theorem getObjFromStr_getStrFromObj (data : SocketData) :
    getObjFromStr (some data.getStrFromObj) = .ok data := by
  have hnil : ∀ c ∈ ([] : JString), blank c = true := fun c hc => by cases hc
  simpa using data.getObjFromStr_padded hnil hnil

/-- **The text stands for the pair of numbers.**  With any blanks around it it is read back as the
object that wrote it, so two objects never write the same text. -/
theorem text_determines_object :
    (∀ (data : SocketData) (pre post : JString), (∀ c ∈ pre, blank c = true) →
      (∀ c ∈ post, blank c = true) →
        getObjFromStr (some (pre ++ data.getStrFromObj ++ post)) = .ok data) ∧
      Function.Injective getStrFromObj := by
  refine ⟨fun data _ _ hpre hpost => data.getObjFromStr_padded hpre hpost, ?_⟩
  intro data data' hsame
  have hread : getObjFromStr (some data'.getStrFromObj) = .ok data :=
    hsame ▸ data.getObjFromStr_getStrFromObj
  rw [getObjFromStr_getStrFromObj] at hread
  exact (Except.ok.inj hread).symm

/-- The two smallest `int`s, behind a tab and in front of a line break. -/
theorem text_determines_object_smallest :
    getObjFromStr (some ([unit '\t'] ++ getStrFromObj ⟨BitVec.intMin 32, BitVec.intMin 32⟩
      ++ [unit '\r', unit '\n'])) = .ok ⟨BitVec.intMin 32, BitVec.intMin 32⟩ :=
  text_determines_object.1 ⟨BitVec.intMin 32, BitVec.intMin 32⟩ [unit '\t'] [unit '\r', unit '\n']
    (by simp [unit, blank]) (by simp [unit, blank])

end SocketData

end JavaStudy
