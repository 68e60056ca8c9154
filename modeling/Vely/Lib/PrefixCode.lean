import Mathlib.Data.List.Basic

/-!
# Codes that are read from the front

An element is written as a list that can be read from the front of any list it is in front of.  A
list of elements is then written by writing one after the other, and is read back.
-/

/-- A way to write elements of `α`, and to read one from the front of a list. -/
structure PrefixCode (α β : Type*) where
  encode : α → List β
  decode : List β → Option (α × List β)
  decode_encode : ∀ a r, decode (encode a ++ r) = some (a, r)
  decode_nil : decode [] = none

namespace PrefixCode

variable {α β : Type*} (c : PrefixCode α β)

/-- The elements one after the other. -/
def encodeAll (as : List α) : List β := as.flatMap c.encode

/-- The elements of a list, at most as many as there is fuel. -/
def decodeFrom : Nat → List β → Option (List α)
  | _, [] => some []
  | 0, _ => none
  | n + 1, s => (c.decode s).bind fun x => (decodeFrom n x.2).map fun as => x.1 :: as

/-- The elements of a list.  Each takes one byte or more. -/
def decodeAll (s : List β) : Option (List α) := c.decodeFrom s.length s

theorem encode_ne_nil (a : α) :
  c.encode a ≠ []
  := by
  intro h
  have hread := c.decode_encode a []
  rw [h, List.append_nil, c.decode_nil] at hread
  cases hread

theorem length_le_encodeAll (as : List α) :
  as.length ≤ (c.encodeAll as).length
  := by
  induction as with
  | nil => exact Nat.le_refl _
  | cons a as ih =>
    have hpos := List.length_pos_of_ne_nil (c.encode_ne_nil a)
    rw [encodeAll, List.flatMap_cons, List.length_append, List.length_cons]
    change as.length ≤ (as.flatMap c.encode).length at ih
    omega

theorem decodeFrom_encodeAll {as : List α} {n : Nat} (h : as.length ≤ n) :
  c.decodeFrom n (c.encodeAll as) = some as
  := by
  induction as generalizing n with
  | nil =>
    cases n with
    | zero => rfl
    | succ n => rfl
  | cons a as ih =>
    cases n with
    | zero => cases h
    | succ n =>
      have hrest := ih (Nat.le_of_succ_le_succ h)
      have hread := c.decode_encode a (c.encodeAll as)
      rw [encodeAll, List.flatMap_cons]
      change c.decodeFrom (n + 1) (c.encode a ++ c.encodeAll as) = _
      obtain ⟨b, s, hs⟩ := List.exists_cons_of_ne_nil (c.encode_ne_nil a)
      rw [hs] at hread ⊢
      rw [List.cons_append] at hread ⊢
      rw [decodeFrom, hread, Option.bind_some, hrest]
      · rfl
      · intro h
        cases h

/-- A list of elements is read back. -/
theorem decodeAll_encodeAll (as : List α) :
  c.decodeAll (c.encodeAll as) = some as
  := c.decodeFrom_encodeAll (c.length_le_encodeAll as)

theorem encodeAll_append (as bs : List α) :
  c.encodeAll (as ++ bs) = c.encodeAll as ++ c.encodeAll bs
  := List.flatMap_append

theorem encodeAll_cons (a : α) (as : List α) :
  c.encodeAll (a :: as) = c.encode a ++ c.encodeAll as
  := List.flatMap_cons

end PrefixCode
