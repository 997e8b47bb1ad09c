/-
# `ChannelData`: a user name, a password and a level as text

`ChannelData` is the sibling of `SocketData` with two free texts in front of its number.  Nothing
is escaped, so the separator of the format can stand inside a field, and `trim` can eat the front
of the first one.  What is proved is where exactly the round trip holds
(`getObjFromStr_getStrFromObj_iff`).
-/
import JavaStudy.Lib.JavaText

namespace JavaStudy

open JavaText

/-- `none` is `null`; a new object has level `0`. -/
structure ChannelData where
  userName : Option JString := none
  password : Option JString := none
  level : JInt := 0
  deriving DecidableEq

namespace ChannelData

/-- What string concatenation makes of a reference. -/
def concatenated : Option JString → JString
  | none => ['n', 'u', 'l', 'l'].map unit
  | some s => s

/-- `userName + "~" + password + "~" + level`. -/
def getStrFromObj (data : ChannelData) : JString :=
  concatenated data.userName ++ unit '~' ::
    (concatenated data.password ++ unit '~' :: Integer.toString data.level)

/-- `getObjFromStr`; the argument is `none` for `null`. -/
def getObjFromStr : Option JString → Except RuntimeException ChannelData
  | none => .error .nullPointer
  | some str =>
    let strs := split (unit '~') (trim str)
    match strs[0]? with
    | none => .error .arrayIndexOutOfBounds
    | some userName =>
      match strs[1]? with
      | none => .error .arrayIndexOutOfBounds
      | some password =>
        match strs[2]? with
        | none => .error .arrayIndexOutOfBounds
        | some third =>
          match Integer.parseInt third with
          | .error e => .error e
          | .ok level => .ok { userName := some userName, password := some password, level := level }

/-- What a read object was made of: three parts of the trimmed text, the third one a decimal. -/
theorem getObjFromStr_eq_ok {str : JString} {data : ChannelData}
    (h : getObjFromStr (some str) = .ok data) :
    ∃ userName password third rest,
      split (unit '~') (trim str) = userName :: password :: third :: rest ∧
        data.userName = some userName ∧ data.password = some password ∧
          Integer.parseInt third = .ok data.level := by
  unfold getObjFromStr at h
  cases hparts : split (unit '~') (trim str) with
  | nil => exact absurd h (by simp [hparts])
  | cons userName parts =>
    cases parts with
    | nil => exact absurd h (by simp [hparts])
    | cons password parts =>
      cases parts with
      | nil => exact absurd h (by simp [hparts])
      | cons third rest =>
        simp only [hparts, List.getElem?_cons_zero, List.getElem?_cons_succ] at h
        cases hlevel : Integer.parseInt third with
        | error e => exact absurd h (by simp [hlevel])
        | ok level =>
          simp only [hlevel, Except.ok.injEq] at h
          subst h
          exact ⟨userName, password, third, rest, rfl, rfl, rfl, hlevel⟩

/-! ## The text behind the level is whole, the one before it may lose its front -/

theorem dropWhile_append_cons {u rest : JString} {c : JChar} (hc : blank c = false) :
    (u ++ c :: rest).dropWhile blank = u.dropWhile blank ++ c :: rest := by
  induction u with
  | nil => exact List.dropWhile_cons_of_neg (by simp [hc])
  | cons d u ih =>
    by_cases hd : blank d = true
    · rw [List.cons_append, List.dropWhile_cons_of_pos hd, List.dropWhile_cons_of_pos hd, ih]
    · rw [List.cons_append, List.dropWhile_cons_of_neg hd, List.dropWhile_cons_of_neg hd,
        List.cons_append]

theorem dropWhile_eq_self_iff {u : JString} :
    u.dropWhile blank = u ↔ ∀ c ∈ u.head?, 0x20 < c.toNat := by
  cases u with
  | nil => simp
  | cons c u =>
    by_cases hc : c.toNat ≤ 0x20
    · have hshort := (List.dropWhile_suffix (l := u) blank).length_le
      rw [List.dropWhile_cons_of_pos (by simpa [blank] using hc)]
      refine iff_of_false (fun h => ?_) (by simpa using hc)
      have hlength := congrArg List.length h
      rw [List.length_cons] at hlength
      omega
    · rw [List.dropWhile_cons_of_neg (by simpa [blank] using hc)]
      exact iff_of_true rfl (by simpa using hc)

/-- `trim` takes nothing off but the blanks in front of the user name: the text ends in a digit. -/
theorem trim_text (u p : JString) (level : JInt) :
    trim (u ++ unit '~' :: (p ++ unit '~' :: Integer.toString level)) =
      u.dropWhile blank ++ unit '~' :: (p ++ unit '~' :: Integer.toString level) := by
  have hnum : Integer.toString level ≠ [] := ne_nil_of_parseInt (parseInt_toString level)
  have hlast : ∀ h : u.dropWhile blank ++ unit '~' :: (p ++ unit '~' :: Integer.toString level) ≠ [],
      blank (List.getLast _ h) = false := by
    intro h
    have hsplit : u.dropWhile blank ++ unit '~' :: (p ++ unit '~' :: Integer.toString level) =
        (u.dropWhile blank ++ unit '~' :: (p ++ [unit '~'])) ++ Integer.toString level := by
      simp
    rw [List.getLast_congr h (by simp) hsplit, List.getLast_append_of_right_ne_nil _ _ hnum]
    exact (numeral_spec (mem_numerals (List.getLast_mem hnum))).1
  rw [trim, dropWhile_append_cons (by decide), List.rdropWhile_eq_self_iff]
  exact fun h => Bool.eq_false_iff.mp (hlast h)

/-- The parts of a text whose fields are free of the separator. -/
theorem split_text {u p : JString} (hu : unit '~' ∉ u) (hp : unit '~' ∉ p) (level : JInt) :
    split (unit '~') (u ++ unit '~' :: (p ++ unit '~' :: Integer.toString level)) =
      [u, p, Integer.toString level] :=
  split_cons hu (by simp) (split_pair hp (fun h => (numeral_spec (mem_numerals h)).2 rfl)
    (ne_nil_of_parseInt (parseInt_toString level)))

/-- **The exact domain of the round trip.**  A field that contains the separator is torn apart, and
a user name that starts with a blank loses it; every other object is read back as it was, empty
fields and negative levels included. -/
theorem getObjFromStr_getStrFromObj_iff (userName password : JString) (level : JInt) :
    getObjFromStr (some (getStrFromObj ⟨some userName, some password, level⟩)) =
        .ok ⟨some userName, some password, level⟩ ↔
      unit '~' ∉ userName ∧ unit '~' ∉ password ∧ ∀ c ∈ userName.head?, 0x20 < c.toNat := by
  have htext : trim (getStrFromObj ⟨some userName, some password, level⟩) =
      userName.dropWhile blank ++ unit '~' :: (password ++ unit '~' :: Integer.toString level) :=
    trim_text userName password level
  constructor
  · intro h
    obtain ⟨u, p, third, rest, hparts, hu, hp, -⟩ := getObjFromStr_eq_ok h
    obtain rfl : userName = u := Option.some.inj hu
    obtain rfl : password = p := Option.some.inj hp
    have hpart : ∀ part ∈ userName :: password :: third :: rest, unit '~' ∉ part :=
      fun part hpart => not_mem_of_mem_split (hparts ▸ hpart)
    have huser : unit '~' ∉ userName := hpart userName (by simp)
    have hpass : unit '~' ∉ password := hpart password (by simp)
    have hfront : unit '~' ∉ userName.dropWhile blank :=
      fun hmem => huser ((List.dropWhile_sublist blank).subset hmem)
    rw [htext, split_text hfront hpass level] at hparts
    exact ⟨huser, hpass, dropWhile_eq_self_iff.mp (List.cons.inj hparts).1⟩
  · rintro ⟨huser, hpass, hhead⟩
    rw [dropWhile_eq_self_iff.mpr hhead] at htext
    simp only [getObjFromStr, htext, split_text huser hpass level, List.getElem?_cons_zero,
      List.getElem?_cons_succ, parseInt_toString]

end ChannelData
end JavaStudy
