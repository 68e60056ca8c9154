import Vely.Header
import Vely.Lib.Ctype

/-!
# What the modules use of `velyrtc.c`

Trimming a string, and the check of the names of parameters.
-/

namespace Vely

/-- The bytes without the spaces at their ends. -/
def trimSpaces (s : List UInt8) : List UInt8 := (s.dropWhile isspace).rdropWhile isspace

theorem mem_of_mem_trimSpaces {s : List UInt8} {c : UInt8} (h : c ∈ trimSpaces s) :
  c ∈ s
  := by
  apply (List.dropWhile_sublist isspace).subset
  apply (List.rdropWhile_prefix isspace _).subset h

/-- `vely_trim` -/
def velyTrim (str : CString) : CString :=
  ⟨trimSpaces str.bytes, fun h => str.nonzero (mem_of_mem_trimSpaces h)⟩

/-- A character of a name, after the first one. -/
def isNameChar (hyphen : Bool) (c : UInt8) : Bool :=
  isalnum c || c = '_'.toUInt8 || (hyphen && c = '-'.toUInt8)

/-- `vely_is_valid_param_name` -/
def velyIsValidParamName (name : CString) (hyphen : Bool) : Bool :=
  match name.bytes with
  | [] => false
  | c :: cs => (isalpha c || c = '_'.toUInt8) && (c :: cs).all (isNameChar hyphen)

theorem isspace_of_isNameChar {hyphen : Bool} {c : UInt8} (h : isNameChar hyphen c = true) :
  isspace c = false
  := by
  simp only [isNameChar, Bool.or_eq_true, Bool.and_eq_true, decide_eq_true_eq] at h
  rcases h with (h | rfl) | ⟨-, rfl⟩
  · apply isspace_of_isalnum h
  · decide
  · decide

/-- Every character of a valid name is one of a name. -/
theorem isNameChar_of_valid {name : CString} {hyphen : Bool}
    (h : velyIsValidParamName name hyphen = true) :
  ∀ c ∈ name.bytes, isNameChar hyphen c = true
  := by
  rw [velyIsValidParamName] at h
  cases hname : name.bytes with
  | nil => simp
  | cons c cs =>
    simp only [hname, Bool.and_eq_true, List.all_eq_true] at h
    apply h.2

/-- A valid name is not empty. -/
theorem ne_nil_of_valid {name : CString} {hyphen : Bool}
    (h : velyIsValidParamName name hyphen = true) :
  name.bytes ≠ []
  := by
  intro hname
  simp [velyIsValidParamName, hname] at h

/-- Trimming takes nothing from bytes that neither start nor end with a space. -/
theorem trimSpaces_eq_self {s : List UInt8} (hhead : ∀ c ∈ s.head?, isspace c = false)
    (hlast : ∀ c ∈ s.getLast?, isspace c = false) :
  trimSpaces s = s
  := by
  have hdrop : s.dropWhile isspace = s := by
    rw [List.dropWhile_eq_self_iff]
    intro hs
    have hs' : s[0] ∈ s.head? := by simp [List.head?_eq_getElem?, hs]
    rw [hhead _ hs']
    simp
  rw [trimSpaces, hdrop, List.rdropWhile_eq_self_iff]
  intro hs
  rw [hlast _ (List.getLast?_eq_getLast_of_ne_nil hs)]
  simp

/-- Spaces at the end are trimmed. -/
theorem trimSpaces_append {s t : List UInt8} (ht : ∀ c ∈ t, isspace c = true) :
  trimSpaces (s ++ t) = trimSpaces s
  := by
  have hr : ∀ l : List UInt8, (l ++ t).rdropWhile isspace = l.rdropWhile isspace := by
    intro l
    induction t using List.reverseRecOn with
    | nil => rw [List.append_nil]
    | append_singleton t c ih =>
      rw [← List.append_assoc, List.rdropWhile_concat_pos _ _ _ (ht c (by simp))]
      apply ih
      intro d hd
      apply ht d (by simp [hd])
  rw [trimSpaces, trimSpaces, List.dropWhile_append]
  split
  · next hs =>
    rw [List.isEmpty_iff.mp hs, List.rdropWhile_nil, List.rdropWhile_eq_nil_iff]
    intro c hc
    apply ht c ((List.dropWhile_sublist isspace).subset hc)
  · apply hr

/-- A valid name is not changed by trimming. -/
theorem trimSpaces_of_valid {name : CString} {hyphen : Bool}
    (h : velyIsValidParamName name hyphen = true) :
  trimSpaces name.bytes = name.bytes
  := by
  apply trimSpaces_eq_self
  · intro c hc
    apply isspace_of_isNameChar (isNameChar_of_valid h c (List.mem_of_mem_head? hc))
  · intro c hc
    apply isspace_of_isNameChar (isNameChar_of_valid h c (List.mem_of_mem_getLast? hc))

end Vely
