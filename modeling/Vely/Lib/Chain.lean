import Vely.Lib.Memory

/-!
# Singly linked chains in memory

A cell of a chain holds an item and a link to the next cell.  `Chain item next m p xs q` says that
in the memory `m` the link `p` leads through cells at the addresses of `xs`, which hold the
items of `xs`, and from the last of them on to `q`.  A chain of a list ends at NULL.  The
operations put a cell in front of a chain, take a cell out of it, and change the item of a cell.
-/

namespace Vely

variable {α ι : Type} (item : α → ι) (next : α → Option Addr)

/-- The cells of `xs` are linked in this order, from `p` and on to `q`. -/
def Chain (m : Mem α) : Option Addr → List (Addr × ι) → Option Addr → Prop
  | p, [], q => p = q
  | p, (a, i) :: xs, q =>
    p = some a ∧ ∃ v, m a = some v ∧ item v = i ∧ Chain m (next v) xs q

section Chain

variable {item next} {m m' : Mem α} {p q : Option Addr} {xs ys : List (Addr × ι)}

@[simp]
theorem chain_nil :
  Chain item next m p [] q ↔ p = q
  := Iff.rfl

@[simp]
theorem chain_cons {a : Addr} {i : ι} :
  Chain item next m p ((a, i) :: xs) q
    ↔ p = some a ∧ ∃ v, m a = some v ∧ item v = i ∧ Chain item next m (next v) xs q
  := Iff.rfl

/-- A chain splits into two, the first leading to the second. -/
theorem chain_append :
  Chain item next m p (xs ++ ys) q
    ↔ ∃ r, Chain item next m p xs r ∧ Chain item next m r ys q
  := by
  induction xs generalizing p with
  | nil => simp
  | cons x xs ih =>
    obtain ⟨a, i⟩ := x
    simp only [List.cons_append, chain_cons, ih]
    constructor
    · rintro ⟨hp, v, hv, hi, r, hxs, hys⟩
      use r
      exact ⟨⟨hp, v, hv, hi, hxs⟩, hys⟩
    · rintro ⟨r, ⟨hp, v, hv, hi, hxs⟩, hys⟩
      exact ⟨hp, v, hv, hi, r, hxs, hys⟩

/-- The link to a chain is the address of its first cell. -/
theorem Chain.head (h : Chain item next m p xs q) :
  p = (xs.head?.map Prod.fst).or q
  := by
  cases xs with
  | nil => apply h
  | cons x xs => apply h.1

/-- A chain reads only the cells of its list. -/
theorem Chain.frame (h : Chain item next m p xs q) (hm : ∀ x ∈ xs, m' x.1 = m x.1) :
  Chain item next m' p xs q
  := by
  induction xs generalizing p with
  | nil => apply h
  | cons x xs ih =>
    obtain ⟨a, i⟩ := x
    obtain ⟨hp, v, hv, hi, hxs⟩ := h
    refine ⟨hp, v, ?_, hi, ?_⟩
    · rw [← hv]
      apply hm (a, i) (by simp)
    · apply ih hxs
      intro x hx
      apply hm x (by simp [hx])

/-- Every cell of a chain is live, and holds its item. -/
theorem Chain.cell {x : Addr × ι} (h : Chain item next m p xs q) (hx : x ∈ xs) :
  ∃ v, m x.1 = some v ∧ item v = x.2
  := by
  induction xs generalizing p with
  | nil => cases hx
  | cons y xs ih =>
    obtain ⟨hp, v, hv, hi, hxs⟩ := h
    rcases List.mem_cons.mp hx with rfl | hx
    · exact ⟨v, hv, hi⟩
    · apply ih hxs hx

/-- A new cell in front of a chain. -/
theorem Chain.push {a : Addr} {v : α} (h : Chain item next m p xs q) (ha : m a = none)
    (hv : next v = p) :
  Chain item next (m.set a v) (some a) ((a, item v) :: xs) q
  := by
  refine ⟨rfl, v, Mem.set_self .., rfl, ?_⟩
  rw [hv]
  apply h.frame
  intro x hx
  obtain ⟨w, hw, -⟩ := h.cell hx
  apply Mem.set_of_ne
  rintro rfl
  rw [ha] at hw
  cases hw

/-- A chain with a cell in its middle: the link to the cell, and the chain behind it. -/
theorem chain_middle {a : Addr} {i : ι} :
  Chain item next m p (xs ++ (a, i) :: ys) q
    ↔ Chain item next m p xs (some a)
      ∧ ∃ v, m a = some v ∧ item v = i ∧ Chain item next m (next v) ys q
  := by
  rw [chain_append]
  constructor
  · rintro ⟨r, hxs, rfl, hys⟩
    exact ⟨hxs, hys⟩
  · rintro ⟨hxs, hys⟩
    exact ⟨some a, hxs, rfl, hys⟩

/-- The item of a cell is changed. -/
theorem Chain.change {a : Addr} {i : ι} {v w : α}
    (h : Chain item next m p (xs ++ (a, i) :: ys) q) (hv : m a = some v)
    (hw : next w = next v) (hxs : ∀ x ∈ xs, x.1 ≠ a) (hys : ∀ y ∈ ys, y.1 ≠ a) :
  Chain item next (m.set a w) p (xs ++ (a, item w) :: ys) q
  := by
  rw [chain_middle] at h ⊢
  obtain ⟨hbefore, v', hv', -, hafter⟩ := h
  obtain rfl := Option.some.inj (hv.symm.trans hv')
  constructor
  · apply hbefore.frame
    intro x hx
    apply Mem.set_of_ne _ _ (hxs x hx)
  · refine ⟨w, Mem.set_self .., rfl, ?_⟩
    rw [hw]
    apply hafter.frame
    intro y hy
    apply Mem.set_of_ne _ _ (hys y hy)

/-- The cell behind the cell at `a` is taken out: `a` is linked to what follows it. -/
theorem Chain.unlink {a b : Addr} {i j : ι} {v w u : α}
    (h : Chain item next m p (xs ++ (a, i) :: (b, j) :: ys) q) (hv : m a = some v)
    (hu : m b = some u) (hi : item w = item v) (hw : next w = next u)
    (hxs : ∀ x ∈ xs, x.1 ≠ a) (hys : ∀ y ∈ ys, y.1 ≠ a) :
  Chain item next (m.set a w) p (xs ++ (a, i) :: ys) q
  := by
  rw [chain_middle] at h ⊢
  obtain ⟨hbefore, v', hv', rfl, -, u', hu', -, hafter⟩ := h
  obtain rfl := Option.some.inj (hv.symm.trans hv')
  obtain rfl := Option.some.inj (hu.symm.trans hu')
  constructor
  · apply hbefore.frame
    intro x hx
    apply Mem.set_of_ne _ _ (hxs x hx)
  · refine ⟨w, Mem.set_self .., hi, ?_⟩
    rw [hw]
    apply hafter.frame
    intro y hy
    apply Mem.set_of_ne _ _ (hys y hy)

end Chain

end Vely
