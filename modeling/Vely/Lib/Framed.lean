import Mathlib.Data.List.Induction

/-!
# Framed lists

A list is framed when it has a head, one mark and a tail.  A list is read from the left by an
automaton with finitely many phases, so that what is put after a list is judged by the phase that
the list ends in.
-/

namespace Framing

/-- What an element of a framed list is. -/
inductive Part where
  | head
  | mark
  | tail
  deriving DecidableEq

/-- How far a list has come: nothing is there; only a head; a head and the mark, with some of the
tail; a tail without a mark; or it is no beginning of any of these. -/
inductive Phase where
  | empty
  | head
  | closed
  | bare
  | broken
  deriving DecidableEq

/-- The phase after one more element. -/
def Phase.next : Phase → Part → Phase
  | .empty, .head => .head
  | .empty, .mark => .closed
  | .empty, .tail => .bare
  | .head, .head => .head
  | .head, .mark => .closed
  | .closed, .tail => .closed
  | .bare, .tail => .bare
  | _, _ => .broken

/-! ### One element -/

section Next

variable {q : Phase} {p : Part}

theorem Phase.next_ne_empty :
  q.next p ≠ .empty
  := by
  cases q <;> cases p <;> decide

/-- A list is only a head when it was and a part of a head is put after it. -/
theorem Phase.next_eq_head :
  q.next p = .head ↔ (q = .empty ∨ q = .head) ∧ p = .head
  := by
  cases q <;> cases p <;> decide

/-- A list is closed by the mark, and stays so with more of the tail. -/
theorem Phase.next_eq_closed :
  q.next p = .closed ↔ (q = .empty ∨ q = .head) ∧ p = .mark ∨ q = .closed ∧ p = .tail
  := by
  cases q <;> cases p <;> decide

/-- A list is only a tail when it was and a part of a tail is put after it. -/
theorem Phase.next_eq_bare :
  q.next p = .bare ↔ (q = .empty ∨ q = .bare) ∧ p = .tail
  := by
  cases q <;> cases p <;> decide

end Next

/-! ### Lists -/

variable {α : Type*} (part : α → Part)

/-- The phase after the elements of a list. -/
def Phase.after (q : Phase) (l : List α) : Phase := l.foldl (fun q x => q.next (part x)) q

/-- The phase a list ends in. -/
def phase (l : List α) : Phase := Phase.empty.after part l

variable {part} {q : Phase} {l r : List α}

@[simp]
theorem Phase.after_nil :
  q.after part [] = q
  := rfl

@[simp]
theorem Phase.after_cons {x : α} :
  q.after part (x :: l) = (q.next (part x)).after part l
  := rfl

theorem Phase.after_append :
  q.after part (l ++ r) = (q.after part l).after part r
  := List.foldl_append

theorem phase_append :
  phase part (l ++ r) = (phase part l).after part r
  := Phase.after_append

/-- What is broken is not mended. -/
theorem Phase.after_broken :
  Phase.broken.after part l = .broken
  := by
  induction l with
  | nil => rfl
  | cons x l ih => exact ih

/-- A head is followed by more of a head. -/
theorem Phase.after_head (h : ∀ x ∈ l, part x = .head) :
  Phase.head.after part l = .head
  := by
  induction l with
  | nil => rfl
  | cons x l ih =>
    rw [after_cons, h x List.mem_cons_self]
    apply ih
    intro y hy
    apply h y (List.mem_cons_of_mem x hy)

/-- A tail is followed by more of a tail. -/
theorem Phase.after_tail (hq : q.next .tail = q) (h : ∀ x ∈ l, part x = .tail) :
  q.after part l = q
  := by
  induction l with
  | nil => rfl
  | cons x l ih =>
    rw [after_cons, h x List.mem_cons_self, hq]
    apply ih
    intro y hy
    apply h y (List.mem_cons_of_mem x hy)

/-- After a mark or a tail, nothing of a head comes. -/
theorem Phase.after_closed_head (hl : l ≠ []) (h : ∀ x ∈ l, part x = .head) :
  Phase.closed.after part l = .broken
  := by
  obtain ⟨x, l, rfl⟩ := List.exists_cons_of_ne_nil hl
  rw [after_cons, h x List.mem_cons_self]
  apply after_broken

/-! ### What the phases say of a list -/

theorem phase_concat {x : α} :
  phase part (l ++ [x]) = (phase part l).next (part x)
  := phase_append

theorem phase_eq_empty_iff :
  phase part l = .empty ↔ l = []
  := by
  constructor
  · intro h
    cases l using List.reverseRecOn with
    | nil => rfl
    | append_singleton l x =>
      rw [phase_concat] at h
      exact absurd h Phase.next_ne_empty
  · rintro rfl
    rfl

/-- Nothing but a head. -/
theorem phase_eq_head_iff :
  phase part l = .empty ∨ phase part l = .head ↔ ∀ x ∈ l, part x = .head
  := by
  constructor
  · intro h
    induction l using List.reverseRecOn with
    | nil =>
      intro x hx
      cases hx
    | append_singleton l x ih =>
      rw [phase_concat, or_iff_right Phase.next_ne_empty, Phase.next_eq_head] at h
      intro y hy
      obtain hy | hy := List.mem_append.mp hy
      · exact ih h.1 y hy
      · rw [List.mem_singleton.mp hy]
        exact h.2
  · intro h
    cases l with
    | nil => exact .inl rfl
    | cons x l =>
      right
      rw [phase, Phase.after_cons, h x List.mem_cons_self]
      apply Phase.after_head
      intro y hy
      exact h y (List.mem_cons_of_mem x hy)

/-- Nothing but a tail. -/
theorem phase_eq_bare_iff :
  phase part l = .empty ∨ phase part l = .bare ↔ ∀ x ∈ l, part x = .tail
  := by
  constructor
  · intro h
    induction l using List.reverseRecOn with
    | nil =>
      intro x hx
      cases hx
    | append_singleton l x ih =>
      rw [phase_concat, or_iff_right Phase.next_ne_empty, Phase.next_eq_bare] at h
      intro y hy
      obtain hy | hy := List.mem_append.mp hy
      · exact ih h.1 y hy
      · rw [List.mem_singleton.mp hy]
        exact h.2
  · intro h
    cases l with
    | nil => exact .inl rfl
    | cons x l =>
      right
      rw [phase, Phase.after_cons, h x List.mem_cons_self]
      apply Phase.after_tail rfl
      intro y hy
      exact h y (List.mem_cons_of_mem x hy)

/-- A head, one mark and a tail. -/
theorem phase_eq_closed_iff :
  phase part l = .closed
    ↔ ∃ hs m ts, (∀ x ∈ hs, part x = .head) ∧ part m = .mark ∧ (∀ x ∈ ts, part x = .tail)
      ∧ l = hs ++ m :: ts
  := by
  constructor
  · intro h
    induction l using List.reverseRecOn with
    | nil => cases h
    | append_singleton l x ih =>
      rw [phase_concat, Phase.next_eq_closed] at h
      obtain ⟨hl, hx⟩ | ⟨hl, hx⟩ := h
      · use l, x, [], phase_eq_head_iff.mp hl, hx
        simp
      · obtain ⟨hs, m, ts, hhs, hm, hts, rfl⟩ := ih hl
        use hs, m, ts ++ [x], hhs, hm
        simpa [or_imp, forall_and, hx] using hts
  · rintro ⟨hs, m, ts, hhs, hm, hts, rfl⟩
    have hmark : (phase part hs).next .mark = .closed := by
      rw [Phase.next_eq_closed]
      exact .inl ⟨phase_eq_head_iff.mpr hhs, rfl⟩
    rw [phase_append, Phase.after_cons, hm, hmark]
    apply Phase.after_tail rfl hts

end Framing
