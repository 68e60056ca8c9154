import Mathlib.Data.Nat.Fib.Basic
import Mathlib.Tactic.NormNum.NatFib
import Mathlib.Tactic.Ring
import Vely.Lib.OrderedMap

/-!
# Balanced search trees

Binary trees, the two rotations and the balancing step of a height-balanced tree, stated
for both sides at once: `join s x a y` is the node `a` with `x` on the side `s` and `y`
on the other.  Rotating and balancing keep the in-order list; balancing a node whose
subtrees are balanced and differ in depth by at most two gives a balanced tree.  From
this, insertion and deletion in a search tree keep the tree balanced and act on the
in-order list as on an ordered map, and the depth is logarithmic in the size.
-/

namespace Vely

open Std

/-- A side of a node: that of the lesser keys, or that of the greater. -/
inductive Side where
  | lesser
  | greater
  deriving DecidableEq

/-- The other side. -/
def Side.flip : Side → Side
  | .lesser => .greater
  | .greater => .lesser

@[simp]
theorem Side.flip_flip (s : Side) :
  s.flip.flip = s
  := by
  cases s <;> rfl

@[simp]
theorem Side.flip_ne (s : Side) :
  s.flip ≠ s
  := by
  cases s <;> simp [flip]

/-- The side a comparison sends a search to, none when the keys are equal. -/
def sideOf : Ordering → Option Side
  | .lt => some .lesser
  | .eq => none
  | .gt => some .greater

theorem sideOf_eq_none {o : Ordering} :
  sideOf o = none ↔ o = .eq
  := by
  cases o <;> simp [sideOf]

/-- A binary tree. -/
inductive Tree (α : Type) where
  | nil
  | node (l : Tree α) (a : α) (r : Tree α)

namespace Tree

variable {α : Type}

/-- The number of nodes on a longest path from the root. -/
def depth : Tree α → Nat
  | nil => 0
  | node l _ r => max l.depth r.depth + 1

/-- The nodes in order. -/
def toList : Tree α → List α
  | nil => []
  | node l a r => l.toList ++ a :: r.toList

/-- The subtree on the side `s`. -/
def child (s : Side) : Tree α → Tree α
  | nil => nil
  | node l _ r =>
    match s with
    | .lesser => l
    | .greater => r

/-- The node `a` with `x` on the side `s` and `y` on the other side. -/
def join (s : Side) (x : Tree α) (a : α) (y : Tree α) : Tree α :=
  match s with
  | .lesser => node x a y
  | .greater => node y a x

@[simp]
theorem toList_nil :
  (nil : Tree α).toList = []
  := rfl

@[simp]
theorem toList_node (l : Tree α) (a : α) (r : Tree α) :
  (node l a r).toList = l.toList ++ a :: r.toList
  := rfl

@[simp]
theorem depth_nil :
  (nil : Tree α).depth = 0
  := rfl

@[simp]
theorem depth_node (l : Tree α) (a : α) (r : Tree α) :
  (node l a r).depth = max l.depth r.depth + 1
  := rfl

@[simp]
theorem depth_join (s : Side) (x : Tree α) (a : α) (y : Tree α) :
  (join s x a y).depth = max x.depth y.depth + 1
  := by
  cases s with
  | lesser => rfl
  | greater => rw [join, depth_node, max_comm]

@[simp]
theorem child_join (s : Side) (x : Tree α) (a : α) (y : Tree α) :
  (join s x a y).child s = x
  := by
  cases s <;> rfl

@[simp]
theorem child_flip_join (s : Side) (x : Tree α) (a : α) (y : Tree α) :
  (join s x a y).child s.flip = y
  := by
  cases s <;> rfl

@[simp]
theorem join_ne_nil (s : Side) (x : Tree α) (a : α) (y : Tree α) :
  join s x a y ≠ nil
  := by
  cases s <;> simp [join]

/-- Flipping the side swaps the subtrees. -/
theorem join_flip (s : Side) (x : Tree α) (a : α) (y : Tree α) :
  join s.flip x a y = join s y a x
  := by
  cases s <;> rfl

/-- A tree with nodes is a node, seen from either side. -/
theorem exists_join (s : Side) {t : Tree α} (h : t ≠ nil) :
  ∃ x a y, t = join s x a y
  := by
  cases t with
  | nil => apply absurd rfl h
  | node l a r =>
    cases s with
    | lesser => use l, a, r; rfl
    | greater => use r, a, l; rfl

/-- A node, seen from the side `s`. -/
theorem exists_join_node (s : Side) (l : Tree α) (a : α) (r : Tree α) :
  ∃ x y, node l a r = join s x a y
  := by
  cases s with
  | lesser => use l, r; rfl
  | greater => use r, l; rfl

/-- Induction on a tree, with the hypothesis for the subtree on either side. -/
@[elab_as_elim]
theorem induction_sides {motive : Tree α → Prop} (nil : motive nil)
    (node : ∀ l a r, (∀ s x y, node l a r = join s x a y → motive x) →
      motive (.node l a r)) (t : Tree α) :
  motive t
  := by
  induction t with
  | nil => apply nil
  | node l a r ihl ihr =>
    apply node
    intro s x y h
    cases s with
    | lesser =>
      injection h with h1
      rwa [← h1]
    | greater =>
      injection h with _ _ h3
      rwa [← h3]

theorem depth_pos {t : Tree α} (h : t ≠ nil) :
  0 < t.depth
  := by
  cases t with
  | nil => apply absurd rfl h
  | node => simp

theorem ne_nil_of_depth {t : Tree α} (h : 0 < t.depth) :
  t ≠ nil
  := by
  rintro rfl
  simp at h

theorem toList_eq_nil {t : Tree α} :
  t.toList = [] ↔ t = nil
  := by
  cases t <;> simp

/-- The depth is at most the number of nodes. -/
theorem depth_le_length (t : Tree α) :
  t.depth ≤ t.toList.length
  := by
  induction t with
  | nil => simp
  | node l a r hl hr =>
    simp only [depth_node, toList_node, List.length_append, List.length_cons]
    omega

/-- The tree with `f` applied to every node. -/
def map {β : Type} (f : α → β) : Tree α → Tree β
  | nil => nil
  | node l a r => node (l.map f) (f a) (r.map f)

@[simp]
theorem toList_map {β : Type} (f : α → β) (t : Tree α) :
  (t.map f).toList = t.toList.map f
  := by
  induction t with
  | nil => rfl
  | node l a r ihl ihr => simp [map, ihl, ihr]

@[simp]
theorem depth_map {β : Type} (f : α → β) (t : Tree α) :
  (t.map f).depth = t.depth
  := by
  induction t with
  | nil => rfl
  | node l a r ihl ihr => simp [map, ihl, ihr]

/-! ### Rotations -/

/-- Lift the subtree on the side `s` above the root. -/
def rotate (s : Side) : Tree α → Tree α
  | nil => nil
  | node l a r =>
    match s with
    | .lesser =>
      match l with
      | nil => node nil a r
      | node ll b lr => node ll b (node lr a r)
    | .greater =>
      match r with
      | nil => node l a nil
      | node rl b rr => node (node l a rl) b rr

/-- A rotation lifts the subtree on its side and hands the inner subtree over. -/
@[simp]
theorem rotate_join (s : Side) (xx : Tree α) (b : α) (xy : Tree α) (a : α) (y : Tree α) :
  rotate s (join s (join s xx b xy) a y) = join s xx b (join s xy a y)
  := by
  cases s <;> rfl

@[simp]
theorem toList_rotate (s : Side) (t : Tree α) :
  (rotate s t).toList = t.toList
  := by
  cases t with
  | nil => rfl
  | node l a r =>
    cases s with
    | lesser => cases l <;> simp [rotate]
    | greater => cases r <;> simp [rotate]

theorem toList_join_congr (s : Side) {x x' : Tree α} (a : α) (y : Tree α)
    (h : x'.toList = x.toList) :
  (join s x' a y).toList = (join s x a y).toList
  := by
  cases s <;> simp [join, h]

/-- Lift the deeper subtree `x` above `a`, after rotating `x` the other way when its
inner subtree is the deeper one. -/
def lift (s : Side) (x : Tree α) (a : α) (y : Tree α) : Tree α :=
  rotate s (join s
    (if (x.child s.flip).depth > (x.child s).depth then rotate s.flip x else x) a y)

/-- Balance a node whose subtrees differ in depth by at most two. -/
def balance : Tree α → Tree α
  | nil => nil
  | node l a r =>
    if r.depth + 2 ≤ l.depth then lift .lesser l a r
    else if l.depth + 2 ≤ r.depth then lift .greater r a l
    else node l a r

@[simp]
theorem toList_lift (s : Side) (x : Tree α) (a : α) (y : Tree α) :
  (lift s x a y).toList = (join s x a y).toList
  := by
  rw [lift, toList_rotate]
  apply toList_join_congr
  split
  · apply toList_rotate
  · rfl

@[simp]
theorem toList_balance (t : Tree α) :
  t.balance.toList = t.toList
  := by
  cases t with
  | nil => rfl
  | node l a r =>
    rw [balance]
    split
    · apply toList_lift
    · split
      · apply toList_lift
      · rfl

/-! ### Balance -/

/-- The depths of the two subtrees of every node differ by at most one. -/
def Balanced : Tree α → Prop
  | nil => True
  | node l _ r =>
    l.depth ≤ r.depth + 1 ∧ r.depth ≤ l.depth + 1 ∧ l.Balanced ∧ r.Balanced

@[simp]
theorem balanced_nil :
  (nil : Tree α).Balanced
  := trivial

@[simp]
theorem balanced_join {s : Side} {x : Tree α} {a : α} {y : Tree α} :
  (join s x a y).Balanced
    ↔ x.depth ≤ y.depth + 1 ∧ y.depth ≤ x.depth + 1 ∧ x.Balanced ∧ y.Balanced
  := by
  cases s with
  | lesser => rfl
  | greater =>
    rw [join, Balanced]
    tauto

@[simp]
theorem balanced_map {β : Type} {f : α → β} {t : Tree α} :
  (t.map f).Balanced ↔ t.Balanced
  := by
  induction t with
  | nil => rfl
  | node l a r ihl ihr => simp [map, Balanced, ihl, ihr]

/-- Balancing leaves a balanced tree as it is. -/
theorem balance_of_balanced {t : Tree α} (h : t.Balanced) :
  t.balance = t
  := by
  cases t with
  | nil => rfl
  | node l a r =>
    obtain ⟨hl, hr, -, -⟩ := h
    rw [balance, if_neg (by omega), if_neg (by omega)]

/-- Lifting a balanced subtree two deeper than its balanced sibling gives a balanced
tree, of the depth of the subtree or one more. -/
theorem balanced_lift {s : Side} {x : Tree α} {a : α} {y : Tree α}
    (hx : x.Balanced) (hy : y.Balanced) (h : x.depth = y.depth + 2) :
  (lift s x a y).Balanced ∧ x.depth ≤ (lift s x a y).depth
    ∧ (lift s x a y).depth ≤ x.depth + 1
  := by
  obtain ⟨xx, b, xy, rfl⟩ := exists_join s (ne_nil_of_depth (by omega : 0 < x.depth))
  rw [lift, child_join, child_flip_join]
  rw [balanced_join] at hx
  obtain ⟨h1, h2, hxx, hxy⟩ := hx
  rw [depth_join] at h
  split
  · -- the inner subtree is the deeper one: it goes up, its two halves to either side
    next hdeep =>
    obtain ⟨p, c, q, rfl⟩ := exists_join s.flip (ne_nil_of_depth (by omega : 0 < xy.depth))
    rw [balanced_join] at hxy
    obtain ⟨h3, h4, hp, hq⟩ := hxy
    have hrot : rotate s.flip (join s xx b (join s.flip p c q))
        = join s (join s xx b q) c p := by
      rw [← join_flip, rotate_join, join_flip, join_flip]
    rw [hrot, rotate_join]
    simp only [depth_join, balanced_join] at h hdeep h1 h2 ⊢
    refine ⟨⟨by omega, by omega, ⟨by omega, by omega, hxx, hq⟩,
      by omega, by omega, hp, hy⟩, by omega, by omega⟩
  · rw [rotate_join]
    simp only [depth_join, balanced_join]
    refine ⟨⟨by omega, by omega, hxx, by omega, by omega, hxy, hy⟩, by omega, by omega⟩

/-- Balancing a node whose balanced subtrees differ in depth by at most two gives a
balanced tree, of the depth of the node or one less, and one less only when the depths
differ by two. -/
theorem balanced_balance {l : Tree α} {a : α} {r : Tree α}
    (hl : l.Balanced) (hr : r.Balanced) (hlr : l.depth ≤ r.depth + 2)
    (hrl : r.depth ≤ l.depth + 2) :
  (balance (node l a r)).Balanced ∧ max l.depth r.depth ≤ (balance (node l a r)).depth
    ∧ (balance (node l a r)).depth ≤ max l.depth r.depth + 1
    ∧ (l.depth ≤ r.depth + 1 → r.depth ≤ l.depth + 1 →
        (balance (node l a r)).depth = max l.depth r.depth + 1)
  := by
  rw [balance]
  split
  · have h := balanced_lift (s := .lesser) (a := a) hl hr (by omega)
    refine ⟨h.1, by omega, by omega, by omega⟩
  · split
    · have h := balanced_lift (s := .greater) (a := a) hr hl (by omega)
      refine ⟨h.1, by omega, by omega, by omega⟩
    · refine ⟨⟨by omega, by omega, hl, hr⟩, by simp, by simp, by simp⟩

/-- A balanced tree of depth `d` has at least `fib (d + 2) - 1` nodes. -/
theorem Balanced.fib_le {t : Tree α} (h : t.Balanced) :
  Nat.fib (t.depth + 2) ≤ t.toList.length + 1
  := by
  induction t with
  | nil => simp
  | node l a r ihl ihr =>
    obtain ⟨hlr, hrl, hl, hr⟩ := h
    have hl' := ihl hl
    have hr' := ihr hr
    have hfib : Nat.fib (max l.depth r.depth + 1 + 2)
        = Nat.fib (max l.depth r.depth + 1) + Nat.fib (max l.depth r.depth + 2) :=
      Nat.fib_add_two
    have hle : Nat.fib (max l.depth r.depth + 1) ≤ Nat.fib (min l.depth r.depth + 2) :=
      Nat.fib_mono (by omega)
    simp only [depth_node, toList_node, List.length_append, List.length_cons]
    rcases Nat.le_total l.depth r.depth with hd | hd
    · rw [max_eq_right hd] at hfib hle ⊢
      rw [min_eq_left hd] at hle
      omega
    · rw [max_eq_left hd] at hfib hle ⊢
      rw [min_eq_right hd] at hle
      omega

theorem two_pow_half_le_fib : ∀ d : Nat,
  2 ^ (d / 2) ≤ Nat.fib (d + 2)
  | 0 => by simp
  | 1 => by simp [Nat.fib_add_two]
  | d + 2 => by
    have ih := two_pow_half_le_fib d
    have hmono : Nat.fib (d + 2) ≤ Nat.fib (d + 3) := Nat.fib_mono (by omega)
    have hfib : Nat.fib (d + 2 + 2) = Nat.fib (d + 2) + Nat.fib (d + 3) := Nat.fib_add_two
    have hdiv : (d + 2) / 2 = d / 2 + 1 := by omega
    rw [hdiv, pow_succ]
    omega

/-- The depth of a balanced tree is logarithmic in its size. -/
theorem Balanced.two_pow_half_depth_le {t : Tree α} (h : t.Balanced) :
  2 ^ (t.depth / 2) ≤ t.toList.length + 1
  := Nat.le_trans (two_pow_half_le_fib t.depth) h.fib_le

/-! ### Insertion -/

section Search

variable {K : Type} (cmp : K → K → Ordering) (key : α → K)

/-- Add a node at its place, balancing on the way back. -/
def insert (n : α) : Tree α → Tree α
  | nil => node nil n nil
  | node l a r =>
    match cmp (key n) (key a) with
    | .lt => balance (node (insert n l) a r)
    | .eq => node l a r
    | .gt => balance (node l a (insert n r))

variable {cmp key}

variable (cmp key) in
/-- Insertion keeps a tree balanced and adds at most one to its depth. -/
theorem balanced_insert (n : α) {t : Tree α} (h : t.Balanced) :
  (insert cmp key n t).Balanced ∧ t.depth ≤ (insert cmp key n t).depth
    ∧ (insert cmp key n t).depth ≤ t.depth + 1
  := by
  induction t with
  | nil => simp [insert, Balanced]
  | node l a r ihl ihr =>
    obtain ⟨hlr, hrl, hl, hr⟩ := h
    obtain ⟨hl1, hl2, hl3⟩ := ihl hl
    obtain ⟨hr1, hr2, hr3⟩ := ihr hr
    rw [insert, depth_node]
    split
    · have hb := balanced_balance (a := a) hl1 hr (by omega) (by omega)
      exact ⟨hb.1, by omega, by omega⟩
    · exact ⟨⟨hlr, hrl, hl, hr⟩, by simp, by simp⟩
    · have hb := balanced_balance (a := a) hl hr1 (by omega) (by omega)
      exact ⟨hb.1, by omega, by omega⟩

theorem insert_join {n : α} {s : Side} {x : Tree α} {a : α} {y : Tree α}
    (h : sideOf (cmp (key n) (key a)) = some s) :
  insert cmp key n (join s x a y) = balance (join s (insert cmp key n x) a y)
  := by
  cases hc : cmp (key n) (key a) <;> rw [hc] at h <;> cases h <;> simp only [join, insert, hc]

/-- A subtree of a search tree is a search tree. -/
theorem sortedBy_join {s : Side} {x : Tree α} {a : α} {y : Tree α}
    (h : SortedBy cmp key (join s x a y).toList) :
  SortedBy cmp key x.toList
  := by
  cases s with
  | lesser => apply SortedBy.before h
  | greater => apply SortedBy.after h

variable [TransCmp cmp]

/-- A key on the side `s` of the root is looked for in the subtree on that side. -/
theorem lookup_join {k : K} {s : Side} {x : Tree α} {a : α} {y : Tree α}
    (hs : SortedBy cmp key (join s x a y).toList) (h : sideOf (cmp k (key a)) = some s) :
  lookup cmp key k (join s x a y).toList = lookup cmp key k x.toList
  := by
  cases hc : cmp k (key a) with
  | lt =>
    rw [hc] at h
    cases h
    apply lookup_lt hs hc
  | eq =>
    rw [hc] at h
    cases h
  | gt =>
    rw [hc] at h
    cases h
    apply lookup_gt hs hc

/-- Inserting an absent key puts the node at its place in the in-order list. -/
theorem toList_insert {n : α} {t : Tree α} (hs : SortedBy cmp key t.toList)
    (h : lookup cmp key (key n) t.toList = none) :
  (insert cmp key n t).toList = place cmp key n t.toList
  := by
  induction t with
  | nil => rfl
  | node l a r ihl ihr =>
    rw [insert]
    rw [toList_node] at hs h ⊢
    cases hc : cmp (key n) (key a) with
    | lt =>
      rw [lookup_lt hs hc] at h
      rw [place_lt hs hc, toList_balance, toList_node, ihl hs.before h]
    | eq =>
      rw [lookup_eq hs hc] at h
      cases h
    | gt =>
      rw [lookup_gt hs hc] at h
      rw [place_gt hs hc, toList_balance, toList_node, ihr hs.after h]

end Search

/-! ### Deletion -/

/-- The first node of the tree with root `a` and lesser subtree `l`. -/
def first : Tree α → α → α
  | nil, a => a
  | node l' a' _, _ => first l' a'

/-- The tree with lesser subtree `l`, root `a` and greater subtree `r`, without its first
node, balanced on the way back. -/
def dropFirst : Tree α → α → Tree α → Tree α
  | nil, _, r => r
  | node l' a' r', a, r => balance (node (dropFirst l' a' r') a r)

/-- The first node and the rest make up the in-order list. -/
theorem toList_dropFirst (l : Tree α) (a : α) (r : Tree α) :
  first l a :: (dropFirst l a r).toList = (node l a r).toList
  := by
  induction l generalizing a r with
  | nil => rfl
  | node l' a' r' ihl ihr =>
    rw [dropFirst, first, toList_balance, toList_node, ← List.cons_append, ihl]
    rfl

/-- Dropping the first node keeps a tree balanced and takes at most one from its depth. -/
theorem balanced_dropFirst {l : Tree α} {a : α} {r : Tree α} (h : (node l a r).Balanced) :
  (dropFirst l a r).Balanced ∧ (dropFirst l a r).depth ≤ (node l a r).depth
    ∧ (node l a r).depth ≤ (dropFirst l a r).depth + 1
  := by
  induction l generalizing a r with
  | nil =>
    obtain ⟨-, -, -, hr⟩ := h
    rw [dropFirst]
    simp [hr]
  | node l' a' r' ihl ihr =>
    obtain ⟨hlr, hrl, hl, hr⟩ := h
    obtain ⟨h1, h2, h3⟩ := ihl hl
    rw [dropFirst, depth_node]
    have hb := balanced_balance (a := a) h1 hr (by omega) (by omega)
    exact ⟨hb.1, by omega, by omega⟩

section Search

variable {K : Type} (cmp : K → K → Ordering) (key : α → K) (move : α → α → α)

/-- Remove the root `a`, balancing on the way back: it gives way to its lesser subtree,
or becomes `move a b` for the first node `b` of its greater subtree. -/
def eraseRoot (l : Tree α) (a : α) : Tree α → Tree α
  | nil => l
  | node rl b rr => balance (node l (move a (first rl b)) (dropFirst rl b rr))

/-- Remove the key `k`, balancing on the way back. A node with a greater subtree is not
taken out: it becomes `move a b`, for the first node `b` of that subtree, which is. -/
def erase (k : K) : Tree α → Tree α
  | nil => nil
  | node l a r =>
    match cmp k (key a) with
    | .lt => balance (node (erase k l) a r)
    | .gt => balance (node l a (erase k r))
    | .eq => eraseRoot move l a r

/-- The node that is taken out to remove the root `a`: the root, or the first node of its
greater subtree. -/
def takenRoot (a : α) : Tree α → α
  | nil => a
  | node rl b _ => first rl b

/-- The node that is taken out to remove the key `k`. -/
def taken (k : K) : Tree α → Option α
  | nil => none
  | node l a r =>
    match cmp k (key a) with
    | .lt => taken k l
    | .gt => taken k r
    | .eq => some (takenRoot a r)

/-- The greater subtree of the node of the key `k`. -/
def greaterOf (k : K) : Tree α → Tree α
  | nil => nil
  | node l a r =>
    match cmp k (key a) with
    | .lt => greaterOf k l
    | .gt => greaterOf k r
    | .eq => r

variable {cmp key move}

theorem erase_join {k : K} {s : Side} {x : Tree α} {a : α} {y : Tree α}
    (h : sideOf (cmp k (key a)) = some s) :
  erase cmp key move k (join s x a y) = balance (join s (erase cmp key move k x) a y)
  := by
  cases hc : cmp k (key a) <;> rw [hc] at h <;> cases h <;> simp only [join, erase, hc]

variable (cmp key move) in
/-- Deletion keeps a tree balanced and takes at most one from its depth. -/
theorem balanced_erase (k : K) {t : Tree α} (h : t.Balanced) :
  (erase cmp key move k t).Balanced ∧ (erase cmp key move k t).depth ≤ t.depth
    ∧ t.depth ≤ (erase cmp key move k t).depth + 1
  := by
  induction t with
  | nil => simp [erase]
  | node l a r ihl ihr =>
    obtain ⟨hlr, hrl, hl, hr⟩ := h
    obtain ⟨hl1, hl2, hl3⟩ := ihl hl
    obtain ⟨hr1, hr2, hr3⟩ := ihr hr
    rw [erase, depth_node]
    split
    · have hb := balanced_balance (a := a) hl1 hr (by omega) (by omega)
      exact ⟨hb.1, by omega, by omega⟩
    · have hb := balanced_balance (a := a) hl hr1 (by omega) (by omega)
      exact ⟨hb.1, by omega, by omega⟩
    · cases r with
      | nil => exact ⟨hl, by simp [eraseRoot], by simp [eraseRoot]⟩
      | node rl b rr =>
        rw [eraseRoot]
        obtain ⟨h1, h2, h3⟩ := balanced_dropFirst hr
        have hb := balanced_balance (a := move a (first rl b)) hl h1 (by omega) (by omega)
        exact ⟨hb.1, by omega, by omega⟩

variable [TransCmp cmp]

omit [TransCmp cmp] in
theorem taken_join {k : K} {s : Side} {x : Tree α} {a : α} {y : Tree α}
    (h : sideOf (cmp k (key a)) = some s) :
  taken cmp key k (join s x a y) = taken cmp key k x
  := by
  cases hc : cmp k (key a) <;> rw [hc] at h <;> cases h <;> simp only [join, taken, hc]

omit [TransCmp cmp] in
theorem greaterOf_join {k : K} {s : Side} {x : Tree α} {a : α} {y : Tree α}
    (h : sideOf (cmp k (key a)) = some s) :
  greaterOf cmp key k (join s x a y) = greaterOf cmp key k x
  := by
  cases hc : cmp k (key a) <;> rw [hc] at h <;> cases h <;> simp only [join, greaterOf, hc]

variable (move) in
/-- Removing a key takes its node out of the in-order list when that has no greater subtree, and
moves the node after it into it otherwise. -/
theorem toList_erase {k : K} {e : α} {t : Tree α} (hs : SortedBy cmp key t.toList)
    (h : lookup cmp key k t.toList = some e) :
  ∃ xs ys, t.toList = xs ++ e :: ys
    ∧ (greaterOf cmp key k t = nil ∧ taken cmp key k t = some e
        ∧ (erase cmp key move k t).toList = xs ++ ys
      ∨ greaterOf cmp key k t ≠ nil ∧ ∃ b zs, ys = b :: zs ∧ taken cmp key k t = some b
        ∧ (erase cmp key move k t).toList = xs ++ move e b :: zs)
  := by
  induction t with
  | nil => cases h
  | node l a r ihl ihr =>
    rw [erase, taken, greaterOf]
    rw [toList_node] at hs h ⊢
    cases hc : cmp k (key a) with
    | lt =>
      rw [lookup_lt hs hc] at h
      obtain ⟨xs, ys, hl, hcase⟩ := ihl hs.before h
      refine ⟨xs, ys ++ a :: r.toList, by simp [hl], ?_⟩
      rcases hcase with ⟨hnil, htaken, herase⟩ | ⟨hne, b, zs, rfl, htaken, herase⟩
      · left
        simp [hnil, htaken, herase]
      · right
        refine ⟨hne, b, zs ++ a :: r.toList, ?_⟩
        simp [htaken, herase]
    | eq =>
      rw [lookup_eq hs hc] at h
      obtain rfl := Option.some.inj h
      refine ⟨l.toList, r.toList, rfl, ?_⟩
      cases r with
      | nil =>
        left
        simp [eraseRoot, takenRoot]
      | node rl b rr =>
        right
        refine ⟨by simp, first rl b, (dropFirst rl b rr).toList,
          (toList_dropFirst rl b rr).symm, rfl, ?_⟩
        simp [eraseRoot]
    | gt =>
      rw [lookup_gt hs hc] at h
      obtain ⟨xs, ys, hr, hcase⟩ := ihr hs.after h
      refine ⟨l.toList ++ a :: xs, ys, by simp [hr], ?_⟩
      rcases hcase with ⟨hnil, htaken, herase⟩ | ⟨hne, b, zs, rfl, htaken, herase⟩
      · left
        simp [hnil, htaken, herase]
      · right
        refine ⟨hne, b, zs, ?_⟩
        simp [htaken, herase]

variable (move) in
/-- What `f` sees of the in-order list after a deletion is what it sees of the list
without the key, if `move a b` looks to `f` like `b`. -/
theorem map_toList_erase {β : Type} (f : α → β) (hf : ∀ a b, f (move a b) = f b) {k : K}
    {e : α} {t : Tree α} (hs : SortedBy cmp key t.toList)
    (h : lookup cmp key k t.toList = some e) :
  (erase cmp key move k t).toList.map f = (remove cmp key k t.toList).map f
  := by
  obtain ⟨xs, ys, ht, hcase⟩ := toList_erase move hs h
  have hk := (lookup_some h).2
  rw [ht] at hs ⊢
  rw [remove_eq hs hk]
  rcases hcase with ⟨-, -, herase⟩ | ⟨-, b, zs, rfl, -, herase⟩
  · rw [herase]
  · simp [herase, hf]

end Search

end Tree

end Vely
