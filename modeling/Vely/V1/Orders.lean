import Vely.V1.Places
import Vely.V1.Carve

/-!
# Clauses in every order

The clauses of a statement are extracted in every order exactly when they are separate.  A value is
closed by itself, as the quotes and parentheses are counted, when it is an expression of C in which
no string ends with an escaped backslash and no quote or parenthesis is in a character constant.
-/

namespace Vely

namespace V1

namespace Written

/-- The clauses of a statement are extracted, in each order, exactly when they are separate. -/
theorem extracted_iff (s : Written) :
  (∀ cs : List Clause, cs.Perm s.clauses → s.Extracted cs) ↔ s.Separate
  := by
  constructor
  · intro h
    apply separate_of_placed
    intro cs hperm
    obtain ⟨hrecognized, hfound, -⟩ := h cs hperm
    exact placed_iff.mpr ⟨hrecognized, hfound⟩
  · intro h cs hperm
    obtain ⟨hrecognized, hfound⟩ := placed_iff.mp (h.placed hperm)
    exact ⟨hrecognized, hfound, carved_all hperm⟩

end Written

/-- `VV_KEYTO` -/
def keyTo : Key where
  bytes := ascii "to "
  hasSpaces := true
  isMandatory := true
  hasData := .always
  starts := by decide +kernel
  nonempty := by decide
  noBlank := by decide
  isPlain := by decide +kernel
  apart := fun _ => Apart.of_ne (by decide)
  trailing := by decide

/-- `VV_KEYLENGTH` -/
def keyLength : Key where
  bytes := ascii "length "
  hasSpaces := true
  isMandatory := false
  hasData := .always
  starts := by decide +kernel
  nonempty := by decide
  noBlank := by decide
  isPlain := by decide +kernel
  apart := fun _ => Apart.of_ne (by decide)
  trailing := by decide

/-- The clause `to b`. -/
def toB : Clause where
  key := keyTo
  value := ascii "b"
  noZero := by decide
  ended := by decide +kernel
  noData := by decide
  spaced := by decide

/-- The statement `copy-string "a\\" to b`, the string of which ends with an escaped backslash. -/
def copyBackslash : Written where
  name := ascii "copy-string"
  keys := [keyTo, keyLength]
  obj := [34, 97, 92, 92, 34]
  clauses := [toB]
  rest := none
  withinInline := false
  objNoZero := by decide
  objEnded := by decide +kernel
  distinct := by decide
  known := by
    intro c hc
    rw [List.mem_singleton.mp hc]
    exact List.mem_cons_self
  once := by decide
  mandatory := by
    intro k hk hmandatory
    obtain rfl | hk := List.mem_cons.mp hk
    · exact ⟨toB, List.mem_cons_self, rfl⟩
    · rw [List.mem_singleton.mp hk] at hmandatory
      cases hmandatory
  inline := by decide

/-- A string that ends with an escaped backslash is taken to go on, and the statement is refused. -/
theorem not_extracted_backslash :
  ¬ ∀ cs : List Clause, cs.Perm copyBackslash.clauses → copyBackslash.Extracted cs
  := by
  intro h
  have hrecognized := (h copyBackslash.clauses (List.Perm.refl _)).recognized
  have herror : recogStatement copyBackslash.withinInline (copyBackslash.line copyBackslash.clauses)
      copyBackslash.name false = .error .unterminated := by
    decide +kernel
  rw [herror] at hrecognized
  cases hrecognized

end V1

end Vely
