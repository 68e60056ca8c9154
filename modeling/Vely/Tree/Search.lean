import Vely.Tree.Layout

/-!
# Searches in memory

On the nodes of a search tree, the search for a key finds the entry of the key, and the
searches for a neighbour find the entry with the nearest key on one side; descending to
one side always ends at the first or the last entry.
-/

namespace Vely

open Std Vely.Tree

variable {K D : Type} {cmp : K → K → Ordering}

/-! ### Neighbours in a list of entries -/

section Nearest

variable {α : Type} {key : α → K}

/-- The entry with the nearest key on the side `s` of `k`. -/
def nearest (cmp : K → K → Ordering) (key : α → K) (s : Side) (k : K) (es : List α) : Option α :=
  match s with
  | .lesser => lower cmp key k es
  | .greater => upper cmp key k es

/-- The first entry, or the last. -/
def extremal (s : Side) (es : List α) : Option α :=
  match s with
  | .lesser => es.head?
  | .greater => es.getLast?

variable {near s : Side} {k : K} {x y : Tree α} {a : α}

/-- The extremal entry of a node on the side `s` is that of its subtree, or the root. -/
theorem extremal_join :
  extremal s (join s x a y).toList = (extremal s x.toList).or (some a)
  := by
  cases s with
  | lesser => simp [extremal, join, List.head?_append]
  | greater => simp [extremal, join, List.getLast?_append, List.getLast?_cons]

variable [TransCmp cmp]

/-- A key on the near side of the root, or equal to it, has its neighbour below. -/
theorem nearest_join_near (hs : SortedBy cmp key (join near x a y).toList)
    (h : ∀ s, sideOf (cmp k (key a)) = some s → s = near) :
  nearest cmp key near k (join near x a y).toList = nearest cmp key near k x.toList
  := by
  cases near with
  | lesser =>
    apply lower_lt hs
    intro hc
    cases h .greater (by rw [hc]; rfl)
  | greater =>
    apply upper_gt hs
    intro hc
    cases h .lesser (by rw [hc]; rfl)

omit [TransCmp cmp] in
/-- A key on the far side of the root has the root for a neighbour, if none is nearer. -/
theorem nearest_join_far (h : sideOf (cmp k (key a)) = some s) (hs : s ≠ near) :
  nearest cmp key near k (join s x a y).toList
    = (nearest cmp key near k x.toList).or (some a)
  := by
  cases near with
  | lesser =>
    cases s with
    | lesser => apply absurd rfl hs
    | greater =>
      apply lower_gt
      cases hc : cmp k (key a) <;> rw [hc] at h <;> cases h
  | greater =>
    cases s with
    | lesser =>
      apply upper_lt
      cases hc : cmp k (key a) <;> rw [hc] at h <;> cases h
    | greater => apply absurd rfl hs

end Nearest

/-! ### The loops -/

section Loops

variable {t : Tree (Entry K D)} {st : TreeState K D} {k : K} {bound : Nat}

/-- The state after a search that came to the entry `r`, or to none. -/
def TreeState.found (st : TreeState K D) (r : Option Addr) : TreeState K D :=
  match r with
  | some a => st.moveTo a
  | none => st.setStatus .errExist

/-- The child on a side is the root of the subtree there. -/
theorem child_of_join {s : Side} {l x y r : Tree (Entry K D)} {e : Entry K D} {h : BitVec 7}
    (hxy : Tree.node l e r = join s x e y) :
  (cell .lesser e l.ptr r.ptr h).child s = x.ptr
  := by
  cases s with
  | lesser =>
    cases hxy
    rfl
  | greater =>
    cases hxy
    rfl

/-- Descending to the side `s` ends at the extremal entry. -/
theorem treeFarthest_spec (s : Side) (bound : Nat) {m : Mem (TreeNode K D)} {a : Addr} (ht : LaidTop m t)
    (ha : t.ptr = some a) (hbound : t.depth ≤ bound) :
  ∃ e, extremal s t.toList = some e ∧ treeFarthest m s bound a = .ok e.addr
  := by
  induction t using induction_sides generalizing a bound with
  | nil => cases ha
  | node l e r ih =>
    obtain rfl := Option.some.inj ha
    obtain ⟨bound, rfl⟩ : ∃ b, bound = b + 1 :=
      Nat.exists_eq_add_one_of_ne_zero (by rw [depth_node] at hbound; omega)
    obtain ⟨x, y, hxy⟩ := exists_join_node s l e r
    have ihx := @ih s x y hxy
    rw [hxy] at ht hbound ⊢
    obtain ⟨⟨h, he⟩, hx, -⟩ := laidTop_join.mp ht
    rw [depth_join] at hbound
    rw [extremal_join, treeFarthest, Mem.read_of he, ok_bind, child_cell]
    cases hc : x.ptr with
    | none =>
      obtain rfl := ptr_eq_none.mp hc
      refine ⟨e, ?_, rfl⟩
      cases s <;> rfl
    | some c =>
      obtain ⟨f, hf, hok⟩ := ihx bound hx.top hc (by omega)
      refine ⟨f, ?_, hok⟩
      rw [hf]
      rfl

variable [TransCmp cmp]

/-- The search for a key ends at its entry. -/
theorem treeSearchLoop_spec (st : TreeState K D) (hk : st.cursor.key = some k)
    (ht : LaidTop st.node t)
    (hs : SortedBy cmp Entry.key t.toList) (hbound : t.depth ≤ bound) :
  treeSearchLoop cmp bound st t.ptr
    = .ok (st.found ((lookup cmp Entry.key k t.toList).map Entry.addr))
  := by
  induction t using induction_sides generalizing bound with
  | nil =>
    rw [ptr_nil, treeSearchLoop]
    rfl
  | node l e r ih =>
    obtain ⟨⟨h, he⟩, -⟩ := id ht
    obtain ⟨bound, rfl⟩ : ∃ b, bound = b + 1 :=
      Nat.exists_eq_add_one_of_ne_zero (by rw [depth_node] at hbound; omega)
    rw [ptr, treeSearchLoop, Mem.read_of he, ok_bind]
    simp only [key_cell, hk, deref_some, ok_bind]
    cases hside : sideOf (cmp k e.key) with
    | none =>
      rw [toList_node, lookup_eq hs (sideOf_eq_none.mp hside)]
      rfl
    | some s =>
      obtain ⟨x, y, hxy⟩ := exists_join_node s l e r
      have ihx := @ih s x y hxy
      have hchild := child_of_join (h := h) hxy
      rw [hxy] at ht hs hbound ⊢
      obtain ⟨-, hx, -⟩ := laidTop_join.mp ht
      rw [depth_join] at hbound
      rw [lookup_join hs hside]
      simp only [hchild]
      apply ihx hx.top (sortedBy_join hs) (by omega)

/-- The search for a neighbour ends at the entry with the nearest key, or at the last node
passed before. -/
theorem treeNearLoop_spec (st : TreeState K D) {near : Side} {equal : Bool}
    {prev : Option Addr} (hk : st.cursor.key = some k) (ht : LaidTop st.node t)
    (hs : SortedBy cmp Entry.key t.toList) (hbound : t.depth ≤ bound) :
  treeNearLoop cmp near equal bound st prev t.ptr
    = .ok (st.found ((((if equal then lookup cmp Entry.key k t.toList else none).or
        (nearest cmp Entry.key near k t.toList)).map Entry.addr).or prev))
  := by
  induction t using induction_sides generalizing bound prev with
  | nil =>
    have hnone : nearest cmp Entry.key near k ([] : List (Entry K D)) = none := by
      cases near <;> rfl
    rw [ptr_nil, toList_nil, hnone, lookup]
    cases prev <;> cases equal <;> rw [treeNearLoop] <;> rfl
  | node l e r ih =>
    obtain ⟨⟨h, he⟩, -⟩ := id ht
    obtain ⟨bound, rfl⟩ : ∃ b, bound = b + 1 :=
      Nat.exists_eq_add_one_of_ne_zero (by rw [depth_node] at hbound; omega)
    rw [ptr, treeNearLoop, Mem.read_of he, ok_bind]
    simp only [key_cell, hk, deref_some, ok_bind]
    cases hside : sideOf (cmp k e.key) with
    | none =>
      cases equal with
      | true =>
        rw [toList_node, lookup_eq hs (sideOf_eq_none.mp hside)]
        rfl
      | false =>
        obtain ⟨x, y, hxy⟩ := exists_join_node near l e r
        have ihx := @ih near x y hxy
        have hchild := child_of_join (h := h) hxy
        rw [hxy] at ht hs hbound ⊢
        obtain ⟨-, hx, -⟩ := laidTop_join.mp ht
        rw [depth_join] at hbound
        rw [hchild, nearest_join_near hs (by simp [hside])]
        apply ihx hx.top (sortedBy_join hs) (by omega)
    | some s =>
      obtain ⟨x, y, hxy⟩ := exists_join_node s l e r
      have ihx := @ih s x y hxy
      have hchild := child_of_join (h := h) hxy
      rw [hxy] at ht hs hbound ⊢
      obtain ⟨-, hx, -⟩ := laidTop_join.mp ht
      rw [depth_join] at hbound
      rw [lookup_join hs hside]
      simp only [hchild]
      by_cases hnear : s = near
      · subst hnear
        rw [nearest_join_near hs (by simp [hside]), if_pos rfl]
        apply ihx hx.top (sortedBy_join hs) (by omega)
      · rw [nearest_join_far hside hnear, if_neg hnear,
          ihx hx.top (sortedBy_join hs) (by omega)]
        congr 2
        cases (if equal then lookup cmp Entry.key k x.toList else none) <;>
          cases nearest cmp Entry.key near k x.toList <;> rfl

end Loops

end Vely
