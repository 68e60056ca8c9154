import Mathlib.Data.List.Nodup
import Mathlib.Logic.Function.Basic

/-!
# Free lists

The entries of a table that are not in use form a list that is threaded through the table: each of
them names the next one.  Taking the first entry and giving an entry back keep such a list without
cycles.
-/

namespace Vely

variable {ι : Type}

/-- The entries of the list that starts at an entry, or at none. -/
def Threaded (next : ι → Option ι) : Option ι → List ι → Prop
  | p, [] => p = none
  | p, i :: xs => p = some i ∧ Threaded next (next i) xs

/-- The list that starts at `head` has no cycle and consists of the entries that satisfy `P`. -/
def IsFreeList (next : ι → Option ι) (head : Option ι) (P : ι → Prop) : Prop :=
  ∃ xs, Threaded next head xs ∧ xs.Nodup ∧ ∀ i, i ∈ xs ↔ P i

section Threaded

variable {next next' : ι → Option ι} {p : Option ι} {xs : List ι}

/-- The list depends on its own entries only. -/
theorem Threaded.frame (h : Threaded next p xs) (hnext : ∀ i ∈ xs, next' i = next i) :
  Threaded next' p xs
  := by
  induction xs generalizing p with
  | nil => exact h
  | cons i xs ih =>
    obtain ⟨hp, h⟩ := h
    constructor
    · exact hp
    · rw [hnext i (List.mem_cons_self ..)]
      apply ih h
      intro j hj
      apply hnext j (List.mem_cons_of_mem i hj)

end Threaded

section IsFreeList

variable {next next' : ι → Option ι} {head : Option ι} {P Q : ι → Prop}

/-- There is no entry in the list that starts nowhere. -/
theorem IsFreeList.empty (next : ι → Option ι) (hP : ∀ i, ¬ P i) :
  IsFreeList next none P
  := by
  refine ⟨[], rfl, List.nodup_nil, ?_⟩
  intro i
  simp [hP i]

/-- The list depends on its own entries only. -/
theorem IsFreeList.frame (h : IsFreeList next head P) (hnext : ∀ i, P i → next' i = next i)
    (hQ : ∀ i, Q i ↔ P i) :
  IsFreeList next' head Q
  := by
  obtain ⟨xs, hxs, hnodup, hmem⟩ := h
  refine ⟨xs, hxs.frame ?_, hnodup, ?_⟩
  · intro i hi
    apply hnext i ((hmem i).mp hi)
  · intro i
    rw [hmem, hQ]

/-- The first entry of the list, and the list behind it. -/
theorem IsFreeList.pop {i : ι} (h : IsFreeList next (some i) P) :
  P i ∧ IsFreeList next (next i) (fun j => P j ∧ j ≠ i)
  := by
  obtain ⟨xs, hxs, hnodup, hmem⟩ := h
  cases xs with
  | nil => cases hxs
  | cons j xs =>
    obtain ⟨hp, hxs⟩ := hxs
    obtain rfl := Option.some.inj hp
    rw [List.nodup_cons] at hnodup
    refine ⟨(hmem i).mp (List.mem_cons_self ..), xs, hxs, hnodup.2, ?_⟩
    intro j
    change j ∈ xs ↔ P j ∧ j ≠ i
    rw [← hmem, List.mem_cons]
    constructor
    · intro hj
      refine ⟨Or.inr hj, ?_⟩
      rintro rfl
      exact hnodup.1 hj
    · rintro ⟨rfl | hj, hne⟩
      · exact absurd rfl hne
      · exact hj

/-- When the list starts nowhere, there is no entry in it. -/
theorem IsFreeList.none (h : IsFreeList next none P) (i : ι) :
  ¬ P i
  := by
  obtain ⟨xs, hxs, -, hmem⟩ := h
  cases xs with
  | nil =>
    rw [← hmem]
    exact List.not_mem_nil
  | cons j xs => cases hxs.1

/-- An entry is put in front of the list. -/
theorem IsFreeList.push {i : ι} (h : IsFreeList next head P) (hi : ¬ P i)
    (hnext : ∀ j, P j → next' j = next j) (hhead : next' i = head) (hQ : ∀ j, Q j ↔ j = i ∨ P j) :
  IsFreeList next' (some i) Q
  := by
  obtain ⟨xs, hxs, hnodup, hmem⟩ := h
  refine ⟨i :: xs, ⟨rfl, ?_⟩, ?_, ?_⟩
  · rw [hhead]
    apply hxs.frame
    intro j hj
    apply hnext j ((hmem j).mp hj)
  · rw [List.nodup_cons, hmem]
    exact ⟨hi, hnodup⟩
  · intro j
    rw [List.mem_cons, hmem, hQ]

end IsFreeList

end Vely
