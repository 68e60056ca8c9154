import Vely.Cookie.Model
import Mathlib.Logic.Function.Basic

/-!
# What the cookies are to be

A run of calls asks for a value and attributes for each name it sets, and for the deletion of
others.  As long as every line fits in its buffer, the list of cookies has one entry for each of
these names, with the last value, and the line that is sent for it has all attributes.  A line that
does not fit loses its end, where the attributes are.
-/

namespace Vely

namespace Cookies

/-- What the last call for a name asks for: the value and the attributes of its line. -/
structure Wanted where
  value : List UInt8
  attributes : List (List UInt8)

/-- What a call of `set-cookie` asks for. -/
def wantedSet (value : List UInt8) (path expires : Option (List UInt8))
    (samesite httponly secure : List UInt8) : Wanted :=
  ⟨value,
    ((given path).map (ascii "Path=" ++ ·)).toList
      ++ ((given expires).map (ascii "Expires=" ++ ·)).toList
      ++ (if secure = [] then [] else [ascii "Secure"])
      ++ (if httponly = [] then [] else [ascii "HttpOnly"])
      ++ (if samesite = [] then [] else [ascii "SameSite=" ++ samesite])⟩

/-- What a call of `delete-cookie` asks for. -/
def wantedDelete (path : Option (List UInt8)) (secure : List UInt8) : Wanted :=
  ⟨ascii "deleted",
    (path.map (ascii "Path=" ++ ·)).toList
      ++ [ascii "Max-Age=0", ascii "Expires=Thu, 01 Jan 1970 01:01:01 GMT"]
      ++ (if secure = [] then [] else [ascii "Secure"])⟩

/-- The name of a cookie, if its text has the sign `=`. -/
def nameOf (data : List UInt8) : Option (List UInt8) :=
  if 61 ∈ data then some (data.takeWhile (· ≠ 61)) else none

/-- What the names that were changed are to be after a call.  A cookie is only deleted if there is
one. -/
def Call.want (start : List (List UInt8)) (changed : List UInt8 → Option Wanted) :
    Call → List UInt8 → Option Wanted
  | .setCookie name value path expires samesite httponly secure =>
    Function.update changed name (some (wantedSet value path expires samesite httponly secure))
  | .deleteCookie name path secure =>
    if changed name = none ∧ some name ∉ start.map nameOf then changed
    else Function.update changed name (some (wantedDelete path secure))
  | .headerEnd => changed

/-- What the names that were changed are to be after a run, given the cookies of the request. -/
def wanted (start : List (List UInt8)) (calls : List Call) : List UInt8 → Option Wanted :=
  calls.foldl (Call.want start) fun _ => none

/-- A line has the whole name and value, and each attribute that is wanted after a semicolon. -/
def Complete (name : List UInt8) (w : Wanted) (line : List UInt8) : Prop :=
  ∃ attributes rest, line = name ++ 61 :: w.value ++ attributes.flatMap (ascii "; " ++ ·) ++ rest ∧
    w.attributes.Sublist attributes ∧ (rest = [] ∨ rest = ascii "; ")

/-- The cookies are what is wanted: one entry for each name that was changed, with the last value;
the other cookies are as they came in; the lines that are sent are complete, and there is one for
each name that was changed. -/
structure CookiesOk (start : List (List UInt8)) (changed : List UInt8 → Option Wanted) (req : Req) :
    Prop where
  one : ((req.cookies.filter Cookie.isSetByProgram).map fun c => nameOf c.data).Nodup
  value : ∀ name w, changed name = some w → getCookie req name = w.value
  other : ∀ name, 61 ∉ name → changed name = none →
    getCookie req name = getCookie (.start req.silent start) name
  entry : ∀ (i : Nat) data, start[i]? = some data → (∀ name, nameOf data = some name → changed name = none) →
    req.cookies[i]? = some (⟨data, false⟩ : Cookie)
  line : ∀ line ∈ (velyGenHeaderEnd req).1, ∃ name w, changed name = some w ∧ Complete name w line
  sent : req.dataWasOutput = false → req.silent = false → ∀ name w, changed name = some w →
    ∃ line ∈ (velyGenHeaderEnd req).1, Complete name w line

/-- The line of a call fits in its buffer. -/
def Call.Fits (req : Req) : Call → Prop
  | .setCookie name value path expires samesite httponly secure =>
    ∀ clause, velyCheckSetCookie name value secure samesite httponly = .ok clause →
      (setLine name value path expires clause).length ≤ maxCookieSize
  | .deleteCookie name path secure =>
    ∀ found clause, velyFindCookie req.cookies name = some found →
      velyCheckSetCookie name (ascii "deleted") secure [] [] = .ok clause →
        (deleteLine name (path.or found.path) clause).length < 300
  | .headerEnd => True

/-- Every line of a run fits in its buffer. -/
def FitsAll : List Call → Req → Prop
  | [], _ => True
  | c :: calls, req => c.Fits req ∧ ∀ req', c.exec req = .ok req' → FitsAll calls req'

section Names

variable {name data : List UInt8}

/-- A text starts with a name and the sign `=` where this is its name. -/
theorem named_iff (hname : 61 ∉ name) {c : Cookie} :
  named name c = true ↔ nameOf c.data = some name
  := by
  rw [named, decide_eq_true_eq, nameOf]
  have hall : ∀ b ∈ name, (b ≠ 61 : Bool) = true := by
    intro b hb
    rw [decide_eq_true_eq]
    rintro rfl
    exact hname hb
  constructor
  · rintro ⟨t, ht⟩
    have hmem : 61 ∈ c.data := by
      rw [← ht]
      simp
    rw [if_pos hmem, ← ht, List.append_assoc, List.takeWhile_append_of_pos hall]
    simp
  · intro h
    split at h
    · next hmem =>
      rw [Option.some.injEq] at h
      have hsplit := List.takeWhile_append_dropWhile (p := fun b : UInt8 => decide (b ≠ 61)) (l := c.data)
      cases hdrop : c.data.dropWhile (fun b => decide (b ≠ 61)) with
      | nil =>
        rw [List.dropWhile_eq_nil_iff] at hdrop
        have hne := hdrop 61 hmem
        simp at hne
      | cons b t =>
        have hb : b = 61 := by
          have hhead := List.head?_dropWhile_not (fun b : UInt8 => decide (b ≠ 61)) c.data
          rw [hdrop] at hhead
          simpa using hhead
        rw [hdrop, h, hb] at hsplit
        exact ⟨t, by rw [← hsplit]; simp⟩
    · cases h

end Names

section Lines

variable {name value : List UInt8} {path expires : Option (List UInt8)}
  {samesite httponly secure clause : List UInt8}

/-- The attributes that are flags. -/
def flags (secure httponly samesite : List UInt8) : List (List UInt8) :=
  (if secure = [] then [] else [ascii "Secure"])
    ++ (if httponly = [] then [] else [ascii "HttpOnly"])
    ++ (if samesite = [] then [] else [ascii "SameSite=" ++ samesite])

/-- What is checked of a cookie, and its safety clause, which is not cut. -/
theorem velyCheckSetCookie_ok
    (h : velyCheckSetCookie name value secure samesite httponly = .ok clause) :
  name.any invalidInName = false ∧ invalidValue true value = false ∧
    clause = (flags secure httponly samesite).flatMap (ascii "; " ++ ·)
      ++ (if samesite = [] then ascii "; " else [])
  := by
  rw [velyCheckSetCookie] at h
  split at h
  · cases h
  next hname =>
  split at h
  · cases h
  split at h
  · cases h
  next hvalue =>
  split at h
  · cases h
  split at h
  · cases h
  next hsecure =>
  split at h
  · cases h
  next hhttp =>
  split at h
  · cases h
  next hsame =>
  refine ⟨by simpa using hname, by simpa using hvalue, ?_⟩
  have hsecure' : secure = ascii "Secure; " ∨ secure = [] := by
    by_contra hno
    rw [not_or] at hno
    exact hsecure hno
  have hhttp' : httponly = ascii "HttpOnly; " ∨ httponly = [] := by
    by_contra hno
    rw [not_or] at hno
    exact hhttp hno
  have hsame' : samesite = [] ∨ samesite = ascii "Strict" ∨ samesite = ascii "Lax"
      ∨ samesite = ascii "None" := by
    by_contra hno
    simp only [not_or] at hno
    exact hsame hno
  obtain rfl | rfl := hsecure'
  · obtain rfl | rfl := hhttp'
    · obtain rfl | rfl | rfl | rfl := hsame'
      all_goals cases h; decide +kernel
    · obtain rfl | rfl | rfl | rfl := hsame'
      all_goals cases h; decide +kernel
  · obtain rfl | rfl := hhttp'
    · obtain rfl | rfl | rfl | rfl := hsame'
      all_goals cases h; decide +kernel
    · obtain rfl | rfl | rfl | rfl := hsame'
      all_goals cases h; decide +kernel

/-- A name that is accepted has no sign `=`. -/
theorem notMem_of_valid (h : name.any invalidInName = false) :
  61 ∉ name
  := by
  intro hmem
  rw [List.any_eq_false] at h
  exact h 61 hmem (by decide)

/-- A value that is accepted has no semicolon. -/
theorem notMem_of_validValue {first : Bool} (h : invalidValue first value = false) :
  59 ∉ value
  := by
  induction value generalizing first with
  | nil => simp
  | cons c cs ih =>
    rw [invalidValue, Bool.or_eq_false_iff] at h
    rw [List.mem_cons, not_or]
    constructor
    · rintro rfl
      have hbad : ∀ first last, invalidInValue first last 59 = true := by decide
      rw [hbad] at h
      cases h.1
    · exact ih h.2

/-- The line of a cookie that is set is complete. -/
theorem complete_setLine
    (h : velyCheckSetCookie name value secure samesite httponly = .ok clause) :
  Complete name (wantedSet value path expires samesite httponly secure)
    (setLine name value path expires clause)
  := by
  obtain ⟨-, -, rfl⟩ := velyCheckSetCookie_ok h
  refine ⟨(wantedSet value path expires samesite httponly secure).attributes,
    if samesite = [] then ascii "; " else [], ?_, List.Sublist.refl _, ?_⟩
  · have hpath : ascii "; Path=" = ascii "; " ++ ascii "Path=" := by decide
    have hexpires : ascii "; Expires=" = ascii "; " ++ ascii "Expires=" := by decide
    have hequals : ascii "=" = [61] := by decide
    rw [setLine, wantedSet, hpath, hexpires, hequals]
    cases given expires with
    | none =>
      cases given path with
      | none => simp [flags]
      | some path => simp [flags]
    | some expires =>
      cases given path with
      | none => simp [flags]
      | some path => simp [flags]
  · split
    · exact Or.inr rfl
    · exact Or.inl rfl

/-- The line of a cookie that is deleted is complete, whatever its path was before. -/
theorem complete_deleteLine {old : Option (List UInt8)}
    (h : velyCheckSetCookie name (ascii "deleted") secure [] [] = .ok clause) :
  Complete name (wantedDelete path secure) (deleteLine name (path.or old) clause)
  := by
  obtain ⟨-, -, rfl⟩ := velyCheckSetCookie_ok h
  have hdate : ascii "; Max-Age=0; Expires=Thu, 01 Jan 1970 01:01:01 GMT"
      = ascii "; " ++ ascii "Max-Age=0" ++ (ascii "; " ++ ascii "Expires=Thu, 01 Jan 1970 01:01:01 GMT")
      := by decide +kernel
  have hpath : ascii "=deleted; Path=" = 61 :: ascii "deleted" ++ (ascii "; " ++ ascii "Path=") := by
    decide +kernel
  have hnone : ascii "=deleted; Max-Age=0; Expires=Thu, 01 Jan 1970 01:01:01 GMT"
      = 61 :: ascii "deleted" ++ ascii "; Max-Age=0; Expires=Thu, 01 Jan 1970 01:01:01 GMT" := by
    decide +kernel
  refine ⟨((path.or old).map (ascii "Path=" ++ ·)).toList
      ++ [ascii "Max-Age=0", ascii "Expires=Thu, 01 Jan 1970 01:01:01 GMT"]
      ++ (if secure = [] then [] else [ascii "Secure"]), ascii "; ", ?_, ?_, Or.inr rfl⟩
  · cases path.or old with
    | none => simp [deleteLine, hnone, hdate, flags, wantedDelete]
    | some rpath => simp [deleteLine, hpath, hdate, flags, wantedDelete]
  · rw [wantedDelete]
    apply List.Sublist.append_right
    apply List.Sublist.append_right
    cases path with
    | none => simp
    | some path => simp

/-- The name and the value of a complete line. -/
theorem Complete.nameOf {w : Wanted} {line : List UInt8} (h : Complete name w line)
    (hname : 61 ∉ name) :
  Cookies.nameOf line = some name
  := by
  obtain ⟨attributes, rest, rfl, -⟩ := h
  have hnamed : named name ⟨name ++ 61 :: w.value ++ attributes.flatMap (ascii "; " ++ ·) ++ rest, true⟩
      = true := by
    rw [named, decide_eq_true_eq]
    exact ⟨w.value ++ attributes.flatMap (ascii "; " ++ ·) ++ rest, by simp⟩
  exact (named_iff hname).mp hnamed

theorem Complete.takeWhile {w : Wanted} {line : List UInt8} (h : Complete name w line)
    (hvalue : 59 ∉ w.value) :
  (line.drop (name.length + 1)).takeWhile (· ≠ 59) = w.value
  := by
  obtain ⟨attributes, rest, rfl, -, hrest⟩ := h
  have hall : ∀ b ∈ w.value, (b ≠ 59 : Bool) = true := by
    intro b hb
    rw [decide_eq_true_eq]
    rintro rfl
    exact hvalue hb
  have hdrop : (name ++ 61 :: w.value ++ attributes.flatMap (ascii "; " ++ ·) ++ rest).drop
      (name.length + 1) = w.value ++ (attributes.flatMap (ascii "; " ++ ·) ++ rest) := by
    have hsplit : name ++ 61 :: w.value ++ attributes.flatMap (ascii "; " ++ ·) ++ rest
        = (name ++ [61]) ++ (w.value ++ (attributes.flatMap (ascii "; " ++ ·) ++ rest)) := by simp
    rw [hsplit, List.drop_left' (by simp)]
  rw [hdrop, List.takeWhile_append_of_pos hall]
  have hsemi : ascii "; " = [59, 32] := by decide
  cases attributes with
  | nil =>
    obtain rfl | rfl := hrest
    · simp
    · simp [hsemi]
  | cons a attributes => simp [hsemi]

end Lines

end Cookies

end Vely
