import Mathlib.Data.List.Basic
import Mathlib.Data.List.Infix

/-!
# Occurrences of a list in a list

A list is searched from left to right for another one, and is cut where that one occurs.
Occurrences do not overlap: the search goes on after each of them.  An element that does not occur
in what is searched for divides the search in two.
-/

namespace Substr

variable {α : Type*} [DecidableEq α]

/-- The parts of the list before and after the first occurrence. -/
def search (find : List α) : List α → Option (List α × List α)
  | [] => none
  | a :: s =>
    if find <+: a :: s then some ([], (a :: s).drop find.length)
    else (search find s).map fun x => (a :: x.1, x.2)

/-- The parts between the first occurrences, at most as many as there is fuel. -/
def cut (find : List α) : Nat → List α → List (List α)
  | 0, s => [s]
  | n + 1, s =>
    match search find s with
    | some (x, y) => x :: cut find n y
    | none => [s]

/-- The parts of the list between the occurrences. -/
def pieces (find s : List α) : List (List α) := cut find s.length s

/-- The number of occurrences. -/
def count (find s : List α) : Nat := (pieces find s).length - 1

variable {find s x y z : List α} {q : α}

/-- An occurrence that is found is there. -/
theorem eq_of_search (h : search find s = some (x, y)) :
  s = x ++ find ++ y
  := by
  induction s generalizing x with
  | nil => cases h
  | cons a s ih =>
    rw [search] at h
    split at h
    · next hstarts =>
      obtain ⟨t, ht⟩ := hstarts
      rw [← ht, List.drop_left, Option.some.injEq, Prod.mk.injEq] at h
      rw [← h.1, ← h.2, List.nil_append, ht]
    · obtain ⟨⟨x', y'⟩, hs, hx⟩ := Option.map_eq_some_iff.mp h
      rw [Prod.mk.injEq] at hx
      obtain ⟨rfl, rfl⟩ := hx
      rw [ih hs]
      rfl

/-- What is after an occurrence is shorter than the list. -/
theorem length_of_search (hfind : find ≠ []) (h : search find s = some (x, y)) :
  y.length < s.length
  := by
  have hpos := List.length_pos_of_ne_nil hfind
  rw [eq_of_search h, List.length_append, List.length_append]
  omega

/-- More fuel than elements changes nothing. -/
theorem cut_of_le (hfind : find ≠ []) {n : Nat} (hn : s.length ≤ n) :
  cut find n s = pieces find s
  := by
  have aux : ∀ k n (s : List α), s.length ≤ n → s.length ≤ k → cut find n s = cut find k s := by
    intro k
    induction k with
    | zero =>
      intro n s _ hk
      rw [List.length_eq_zero_iff.mp (Nat.le_zero.mp hk)]
      cases n with
      | zero => rfl
      | succ n => rfl
    | succ k ih =>
      intro n s hn hk
      cases n with
      | zero =>
        rw [List.length_eq_zero_iff.mp (Nat.le_zero.mp hn)]
        rfl
      | succ n =>
        simp only [cut]
        cases h : search find s with
        | none => rfl
        | some p =>
          have hlt := length_of_search hfind h
          simp only
          rw [ih n p.2 (by omega) (by omega)]
  apply aux s.length n s hn le_rfl

/-- The parts of a list, from the first occurrence. -/
theorem pieces_eq (hfind : find ≠ []) :
  pieces find s =
    match search find s with
    | some (x, y) => x :: pieces find y
    | none => [s]
  := by
  cases s with
  | nil => rfl
  | cons a s =>
    rw [pieces, List.length_cons, cut]
    cases h : search find (a :: s) with
    | none => rfl
    | some p =>
      have hlt := length_of_search hfind h
      simp only
      rw [cut_of_le hfind (Nat.le_of_lt_succ hlt)]

theorem pieces_of_none (hfind : find ≠ []) (h : search find s = none) :
  pieces find s = [s]
  := by
  rw [pieces_eq hfind, h]

theorem pieces_of_some (hfind : find ≠ []) (h : search find s = some (x, y)) :
  pieces find s = x :: pieces find y
  := by
  rw [pieces_eq hfind, h]

theorem pieces_ne_nil :
  pieces find s ≠ []
  := by
  cases s with
  | nil => simp [pieces, cut]
  | cons a s =>
    rw [pieces, List.length_cons, cut]
    split
    · simp
    · simp

/-- There are as many occurrences after the first one and one more. -/
theorem count_of_some (hfind : find ≠ []) (h : search find s = some (x, y)) :
  count find s = count find y + 1
  := by
  have hpos := List.length_pos_of_ne_nil (@pieces_ne_nil _ _ find y)
  rw [count, pieces_of_some hfind h, count, List.length_cons]
  omega

theorem count_of_none (hfind : find ≠ []) (h : search find s = none) :
  count find s = 0
  := by
  rw [count, pieces_of_none hfind h]
  rfl

/-- A list in which nothing is found has no occurrence. -/
theorem search_eq_none_iff_count (hfind : find ≠ []) :
  search find s = none ↔ count find s = 0
  := by
  constructor
  · apply count_of_none hfind
  · intro hcount
    cases h : search find s with
    | none => rfl
    | some p =>
      rw [count_of_some hfind h] at hcount
      cases hcount

/-- Nothing is found exactly when the list is nowhere inside. -/
theorem search_eq_none_iff (hfind : find ≠ []) :
  search find s = none ↔ ¬ find <:+: s
  := by
  induction s with
  | nil =>
    rw [List.infix_nil]
    simp [search, hfind]
  | cons a s ih =>
    rw [search, List.infix_cons_iff]
    split
    · next hstarts => simp [hstarts]
    · next hstarts => simp [hstarts, ih]

omit [DecidableEq α] in
/-- A list goes over an element that it does not have only by ending before it. -/
theorem prefix_append_cons_iff (hq : q ∉ find) :
  find <+: x ++ q :: y ↔ find <+: x
  := by
  induction x generalizing find with
  | nil =>
    cases find with
    | nil => simp
    | cons a find =>
      rw [List.nil_append, List.cons_prefix_cons, List.prefix_nil]
      constructor
      · rintro ⟨rfl, -⟩
        exact absurd List.mem_cons_self hq
      · intro h
        cases h
  | cons b x ih =>
    cases find with
    | nil => simp
    | cons a find =>
      rw [List.cons_append, List.cons_prefix_cons, List.cons_prefix_cons,
        ih (fun h => hq (List.mem_cons_of_mem a h))]

/-- An element that what is searched for does not have divides the search in two. -/
theorem search_append_cons (hfind : find ≠ []) (hq : q ∉ find) :
  search find (x ++ q :: y) =
    match search find x with
    | some (a, b) => some (a, b ++ q :: y)
    | none => (search find y).map fun p => (x ++ q :: p.1, p.2)
  := by
  induction x with
  | nil =>
    have hnot : ¬ find <+: q :: y := by
      rw [← List.nil_append (q :: y), prefix_append_cons_iff hq, List.prefix_nil]
      exact hfind
    have hcons : search find (q :: y) = (search find y).map fun p => (q :: p.1, p.2) := by
      rw [search, if_neg hnot]
    rw [List.nil_append, hcons]
    rfl
  | cons a x ih =>
    simp only [List.cons_append, search]
    have hiff : find <+: a :: (x ++ q :: y) ↔ find <+: a :: x := by
      rw [← List.cons_append, prefix_append_cons_iff hq]
    by_cases hstarts : find <+: a :: x
    · rw [if_pos (hiff.mpr hstarts), if_pos hstarts]
      simp only
      rw [← List.cons_append, List.drop_append_of_le_length hstarts.length_le]
    · rw [if_neg (mt hiff.mp hstarts), if_neg hstarts, ih]
      cases search find x with
      | some p => rfl
      | none =>
        simp only [Option.map_none, Option.map_map]
        rfl

/-- The occurrences on the two sides of an element that what is searched for does not have. -/
theorem count_append_cons (hfind : find ≠ []) (hq : q ∉ find) :
  count find (x ++ q :: y) = count find x + count find y
  := by
  induction hn : x.length using Nat.strong_induction_on generalizing x with
  | _ n ih =>
    have hsearch := @search_append_cons _ _ find x y q hfind hq
    cases h : search find x with
    | some p =>
      obtain ⟨a, b⟩ := p
      rw [h] at hsearch
      have hlt := length_of_search hfind h
      rw [count_of_some hfind hsearch, count_of_some hfind h, ih b.length (by omega) rfl]
      omega
    | none =>
      rw [h] at hsearch
      rw [count_of_none hfind h, Nat.zero_add]
      cases h' : search find y with
      | some p =>
        rw [h', Option.map_some] at hsearch
        rw [count_of_some hfind hsearch, count_of_some hfind h']
      | none =>
        rw [h', Option.map_none] at hsearch
        rw [count_of_none hfind hsearch, count_of_none hfind h']

section Quoted

variable {w : List α}

omit [DecidableEq α] in
/-- A list between two marks goes over a mark only by ending with it. -/
theorem quoted_prefix_append_cons_iff (hq : q ∉ w) {a : α} :
  q :: w ++ [q] <+: a :: x ++ q :: z ↔ q :: w ++ [q] <+: a :: x ++ [q]
  := by
  have hend : ∀ x : List α, w ++ [q] <+: x ++ q :: z ↔ w ++ [q] <+: x ++ [q] := by
    intro x
    induction x generalizing w with
    | nil =>
      cases w with
      | nil => simp
      | cons b w =>
        simp only [List.cons_append, List.nil_append, List.cons_prefix_cons]
        constructor
        · rintro ⟨rfl, -⟩
          exact absurd List.mem_cons_self hq
        · rintro ⟨rfl, -⟩
          exact absurd List.mem_cons_self hq
    | cons c x ih =>
      cases w with
      | nil => simp
      | cons b w =>
        simp only [List.cons_append, List.cons_prefix_cons]
        rw [ih (fun h => hq (List.mem_cons_of_mem b h))]
  simp only [List.cons_append, List.cons_prefix_cons, hend]

/-- A mark divides the search for a list between two marks: an occurrence ends with it, or starts
with it or after it. -/
theorem search_quoted_append_cons (hq : q ∉ w) :
  search (q :: w ++ [q]) (x ++ q :: z) =
    match search (q :: w ++ [q]) (x ++ [q]) with
    | some (a, b) => some (a, b ++ z)
    | none => (search (q :: w ++ [q]) (q :: z)).map fun p => (x ++ p.1, p.2)
  := by
  induction x with
  | nil =>
    have hnone : search (q :: w ++ [q]) [q] = none := by
      rw [search_eq_none_iff (by simp)]
      intro h
      have hlength := h.length_le
      simp at hlength
    rw [List.nil_append, List.nil_append, hnone]
    simp
  | cons a x ih =>
    simp only [List.cons_append, search]
    have hiff := @quoted_prefix_append_cons_iff α x z q w hq a
    simp only [List.cons_append] at hiff
    by_cases hstarts : q :: (w ++ [q]) <+: a :: (x ++ [q])
    · rw [if_pos (hiff.mpr hstarts), if_pos hstarts]
      have hsplit : a :: (x ++ q :: z) = a :: (x ++ [q]) ++ z := by simp
      rw [hsplit, List.drop_append_of_le_length hstarts.length_le]
    · rw [if_neg (mt hiff.mp hstarts), if_neg hstarts]
      simp only [List.cons_append] at ih
      rw [ih]
      cases search (q :: (w ++ [q])) (x ++ [q]) with
      | some p => rfl
      | none =>
        simp only [Option.map_none, Option.map_map]
        rfl

/-- Where the list between the marks is not, neither is it with the marks. -/
theorem search_quoted_eq_none (hw : w ≠ []) (hq : q ∉ w) (h : search w x = none) :
  search (q :: w ++ [q]) (x ++ [q]) = none
  := by
  rw [search_eq_none_iff hw] at h
  rw [search_eq_none_iff (by simp)]
  rintro ⟨a, b, hab⟩
  have hw' : w <:+: x ++ [q] := ⟨a ++ [q], q :: b, by rw [← hab]; simp⟩
  have hnone : search w (x ++ [q]) = none := by
    rw [search_append_cons hw hq, (search_eq_none_iff hw).mpr h]
    rfl
  exact (search_eq_none_iff hw).mp hnone hw'

end Quoted

end Substr
