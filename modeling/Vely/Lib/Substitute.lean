import Vely.Lib.Substring

/-!
# Substituting what is found

A list is searched up to what a function makes of its elements, as when the case of letters does not
matter.  What is found is substituted from left to right, and the search goes on behind what was put
in its place.
-/

namespace Substr

variable {α β : Type*} [DecidableEq β]

/-- The parts of the list before and after the first part that has the same image. -/
def searchOn (f : α → β) (find s : List α) : Option (List α × List α) :=
  (search (find.map f) (s.map f)).map fun p =>
    (s.take p.1.length, s.drop (p.1.length + find.length))

/-- The number of occurrences up to the function. -/
def countOn (f : α → β) (find s : List α) : Nat := count (find.map f) (s.map f)

/-- The first occurrences, at most `n` of them, are substituted: the list up to the last of them,
and what comes after. -/
def substitute (f : α → β) (find subst : List α) : Nat → List α → List α × List α
  | 0, s => ([], s)
  | n + 1, s =>
    match searchOn f find s with
    | none => ([], s)
    | some (x, y) =>
      let r := substitute f find subst n y
      (x ++ subst ++ r.1, r.2)

variable {f : α → β} {find subst s x y t rest : List α} {n : Nat}

theorem searchOn_eq_none_iff :
  searchOn f find s = none ↔ search (find.map f) (s.map f) = none
  := by
  rw [searchOn, Option.map_eq_none_iff]

/-- What is found has the image that is searched for. -/
theorem eq_of_searchOn (h : searchOn f find s = some (x, y)) :
  ∃ m, s = x ++ m ++ y ∧ m.map f = find.map f
    ∧ search (find.map f) (s.map f) = some (x.map f, y.map f)
  := by
  obtain ⟨⟨x', y'⟩, hsearch, hxy⟩ := Option.map_eq_some_iff.mp h
  rw [Prod.mk.injEq] at hxy
  obtain ⟨rfl, rfl⟩ := hxy
  have hs := eq_of_search hsearch
  have hx : (s.take x'.length).map f = x' := by
    rw [List.map_take, hs, List.append_assoc, List.take_left]
  have hy : (s.drop (x'.length + find.length)).map f = y' := by
    rw [List.map_drop, hs]
    apply List.drop_left'
    rw [List.length_append, List.length_map]
  use (s.drop x'.length).take find.length
  constructor
  · rw [List.append_assoc, ← List.drop_drop, List.take_append_drop, List.take_append_drop]
  constructor
  · rw [List.map_take, List.map_drop, hs, List.append_assoc, List.drop_left]
    apply List.take_left'
    rw [List.length_map]
  · rw [hx, hy, hsearch]

theorem length_of_searchOn (h : searchOn f find s = some (x, y)) :
  s.length = x.length + find.length + y.length
  := by
  obtain ⟨m, hs, hm, -⟩ := eq_of_searchOn h
  have hlength := congrArg List.length hm
  rw [List.length_map, List.length_map] at hlength
  rw [hs, List.length_append, List.length_append, hlength]

/-- Where the elements themselves are compared, it is the search. -/
theorem searchOn_id [DecidableEq α] (find s : List α) :
  searchOn id find s = search find s
  := by
  rw [searchOn, List.map_id, List.map_id]
  cases h : search find s with
  | none => rfl
  | some p =>
    have hs := eq_of_search h
    rw [Option.map_some, Option.some.injEq, hs]
    apply Prod.ext
    · rw [List.append_assoc, List.take_left]
    · apply List.drop_left'
      rw [List.length_append]

theorem countOn_of_some (hfind : find ≠ []) (h : searchOn f find s = some (x, y)) :
  countOn f find s = countOn f find y + 1
  := by
  obtain ⟨m, -, -, hsearch⟩ := eq_of_searchOn h
  exact count_of_some (by simpa using hfind) hsearch

theorem countOn_of_none (hfind : find ≠ []) (h : searchOn f find s = none) :
  countOn f find s = 0
  := count_of_none (by simpa using hfind) (searchOn_eq_none_iff.mp h)

/-- One more occurrence is substituted in what comes after the others. -/
theorem substitute_succ (h : substitute f find subst n s = (t, rest))
    (hrest : searchOn f find rest = some (x, y)) :
  substitute f find subst (n + 1) s = (t ++ (x ++ subst), y)
  := by
  induction n generalizing s t with
  | zero =>
    rw [substitute, Prod.mk.injEq] at h
    obtain ⟨rfl, rfl⟩ := h
    simp [substitute, hrest]
  | succ n ih =>
    rw [substitute] at h
    cases hs : searchOn f find s with
    | none =>
      rw [hs, Prod.mk.injEq] at h
      rw [h.2, hrest] at hs
      cases hs
    | some p =>
      obtain ⟨x₀, y₀⟩ := p
      rw [hs, Prod.mk.injEq] at h
      obtain ⟨rfl, rfl⟩ := h
      rw [substitute, hs]
      simp only
      rw [ih rfl]
      simp

end Substr
