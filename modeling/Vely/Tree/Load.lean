import Vely.Tree.State

/-!
# Reading a tree from memory

`TreeState.load` follows the links from the root and gives the nodes as they are in memory;
`keyed` are those with a key, in order, and `contents` their keys and data.  On a
represented tree they are what the representation says, the stored heights below the root are
the depths, the list runs through the keyed nodes, and every link leads to a live node.
-/

namespace Vely

open Std Vely.Tree

variable {K D : Type} {cmp : K → K → Ordering}

/-- The nodes below a pointer, with their addresses. -/
def treeLoad (m : Mem (TreeNode K D)) :
    Nat → Option Addr → Except Stop (Tree (Addr × TreeNode K D))
  | _, none => .ok .nil
  | 0, some _ => .error .fault
  | bound + 1, some a => do
    let n ← m.read a
    let l ← treeLoad m bound n.lesserNode
    let r ← treeLoad m bound n.greaterNode
    return .node l (a, n) r

namespace TreeState

/-- The nodes of the tree. -/
def load (st : TreeState K D) : Except Stop (Tree (Addr × TreeNode K D)) := do
  treeLoad st.node st.bound (← st.root)

/-- The nodes with a key, in order. -/
def keyed (st : TreeState K D) : Except Stop (List (Addr × TreeNode K D)) := do
  return (← st.load).toList.filter (fun x => x.2.keyPresent)

/-- The keys and data of the tree, in order. -/
def contents (st : TreeState K D) : Except Stop (List (Option K × Option D)) := do
  return (← st.keyed).map (fun x => (x.2.key, x.2.data))

end TreeState

/-- Every node stores its height. -/
def Tree.HeightsStored : Tree (Addr × TreeNode K D) → Prop
  | .nil => True
  | .node l (a, n) r =>
    n.height.toNat = (Tree.node l (a, n) r).depth ∧ l.HeightsStored ∧ r.HeightsStored

/-- A node of memory, with its address. -/
def loaded (m : Mem (TreeNode K D)) (e : Entry K D) : Addr × TreeNode K D :=
  (e.addr, (m e.addr).getD TreeNode.blank)

section Laid

variable {m : Mem (TreeNode K D)} {t : Tree (Entry K D)} {bound : Nat}

/-- The node of an entry holds its key and data. -/
theorem LaidTop.cell_of_mem (h : LaidTop m t) {e : Entry K D} (he : e ∈ t.toList) :
  ∃ x y h, m e.addr = some (cell .lesser e x y h)
  := by
  induction t with
  | nil => cases he
  | node l f r ihl ihr =>
    obtain ⟨⟨h', hf⟩, hl, hr⟩ := h
    rw [toList_node, List.mem_append, List.mem_cons] at he
    rcases he with he | rfl | he
    · apply ihl hl.top he
    · exact ⟨_, _, _, hf⟩
    · apply ihr hr.top he

/-- Loading a laid tree gives its nodes. -/
theorem treeLoad_laidTop (h : LaidTop m t) (hbound : t.depth ≤ bound) :
  treeLoad m bound t.ptr = .ok (t.map (loaded m))
  := by
  induction t generalizing bound with
  | nil =>
    cases bound <;> rfl
  | node l e r ihl ihr =>
    obtain ⟨⟨h', he⟩, hl, hr⟩ := h
    rw [depth_node] at hbound
    obtain ⟨bound, rfl⟩ : ∃ b, bound = b + 1 :=
      Nat.exists_eq_add_one_of_ne_zero (by omega)
    have hl' : treeLoad m bound l.ptr = .ok (l.map (loaded m)) := ihl hl.top (by omega)
    have hr' : treeLoad m bound r.ptr = .ok (r.map (loaded m)) := ihr hr.top (by omega)
    rw [ptr, treeLoad, Mem.read_of he]
    simp only [cell, ok_bind, hl', hr', pure_eq_ok, Tree.map, loaded, he, Option.getD_some]

/-- In a laid tree that is not deep, every node stores its height. -/
theorem Laid.heightsStored (h : Laid m t) (hd : t.depth < 128) :
  (t.map (loaded m)).HeightsStored
  := by
  induction t with
  | nil => trivial
  | node l e r ihl ihr =>
    obtain ⟨he, hl, hr⟩ := h
    have hs := toNat_stored hd
    rw [depth_node] at hd
    refine ⟨?_, ihl hl (by omega), ihr hr (by omega)⟩
    simp only [he, Option.getD_some, height_cell, hs, depth_node, depth_map]

end Laid

namespace Represents

variable {st : TreeState K D} {t : Tree (Entry K D)} {nodes : List Addr}

/-- What is loaded: the nodes of the tree, or the root without a key. -/
theorem load (h : Represents cmp st t nodes) :
  (t ≠ nil ∧ st.load = .ok (t.map (loaded st.node)))
    ∨ (t = nil ∧ ∃ b, nodes = [b] ∧ st.load = .ok (node nil (b, TreeNode.blank) nil))
  := by
  obtain ⟨a, hroot, -, hptr, hblank⟩ := h.root
  have hbound := h.depth_lt_bound
  rw [TreeState.load, hroot, ok_bind]
  by_cases hnil : t = nil
  · obtain ⟨hb, hnodes⟩ := hblank hnil
    right
    refine ⟨hnil, a, hnodes, ?_⟩
    rw [TreeState.bound, treeLoad, Mem.read_of hb, ok_bind]
    cases st.count.toNat <;> rfl
  · left
    refine ⟨hnil, ?_⟩
    rw [← hptr hnil]
    apply treeLoad_laidTop h.laidTop (by omega)

/-- The keyed nodes are those of the entries. -/
theorem keyed (h : Represents cmp st t nodes) :
  st.keyed = .ok (t.toList.map (loaded st.node))
  := by
  rcases h.load with ⟨-, hload⟩ | ⟨rfl, b, -, hload⟩
  · rw [TreeState.keyed, hload, ok_bind, pure_eq_ok, toList_map]
    congr 1
    apply List.filter_eq_self.mpr
    intro x hx
    obtain ⟨e, he, rfl⟩ := List.mem_map.mp hx
    obtain ⟨x, y, h', hcell⟩ := h.laidTop.cell_of_mem he
    simp [loaded, hcell]
  · rw [TreeState.keyed, hload, ok_bind, pure_eq_ok]
    rfl

/-- The node of an entry holds its key and data. -/
theorem key_loaded (h : Represents cmp st t nodes) {e : Entry K D} (he : e ∈ t.toList) :
  (loaded st.node e).2.key = some e.key ∧ (loaded st.node e).2.data = some e.data
  := by
  obtain ⟨x, y, h', hcell⟩ := h.laidTop.cell_of_mem he
  simp [loaded, hcell]

/-- The contents are the keys and data of the entries. -/
theorem contents (h : Represents cmp st t nodes) :
  st.contents = .ok (t.toList.map (fun e => (some e.key, some e.data)))
  := by
  rw [TreeState.contents, h.keyed, ok_bind, pure_eq_ok, List.map_map]
  congr 1
  apply List.map_congr_left
  intro e he
  obtain ⟨hkey, hdata⟩ := h.key_loaded he
  rw [Function.comp_apply, hkey, hdata]

/-- The loaded nodes are balanced, store their heights below the root, and are as many as the
count says, but for the root without a key. -/
theorem load_balanced (h : Represents cmp st t nodes) :
  ∃ T, st.load = .ok T ∧ T.Balanced ∧ (T.child .lesser).HeightsStored
    ∧ (T.child .greater).HeightsStored ∧ 2 ^ (T.depth / 2) ≤ st.count + 1
  := by
  rcases h.load with ⟨-, hload⟩ | ⟨rfl, b, -, hload⟩
  · refine ⟨_, hload, balanced_map.mpr h.balanced, ?_, ?_, ?_⟩
    · cases t with
      | nil => trivial
      | node l e r =>
        have hd := depth_le_of_nodup h.balanced h.nodup
        rw [depth_node] at hd
        apply h.laidTop.2.1.heightsStored (by omega)
    · cases t with
      | nil => trivial
      | node l e r =>
        have hd := depth_le_of_nodup h.balanced h.nodup
        rw [depth_node] at hd
        apply h.laidTop.2.2.heightsStored (by omega)
    · rw [depth_map, h.count]
      have hpow := h.balanced.two_pow_half_depth_le
      exact_mod_cast hpow
  · refine ⟨_, hload, by simp [Tree.Balanced], trivial, trivial, ?_⟩
    rw [h.count]
    simp

/-! ### Links -/

/-- The child of a node of the tree is a node of it. -/
theorem child_mem {m : Mem (TreeNode K D)} {a b : Addr} {n : TreeNode K D} {s : Side}
    (h : LaidTop m t) (ha : a ∈ t.addrs) (hn : m a = some n) (hb : n.child s = some b) :
  b ∈ t.addrs
  := by
  induction t with
  | nil => cases ha
  | node l e r ihl ihr =>
    obtain ⟨⟨h', he⟩, hl, hr⟩ := h
    rw [addrs_node, List.mem_append, List.mem_cons] at ha ⊢
    rcases ha with ha | rfl | ha
    · left
      apply ihl hl.top ha
    · rw [hn] at he
      obtain rfl := Option.some.inj he
      cases s with
      | lesser =>
        left
        apply ptr_mem_addrs hb
      | greater =>
        right
        right
        apply ptr_mem_addrs hb
    · right
      right
      apply ihr hr.top ha

/-- No node has a dangling child. -/
theorem child_live (h : Represents cmp st t nodes) {a b : Addr} {n : TreeNode K D} {s : Side}
    (hn : st.node a = some n) (hb : n.child s = some b) :
  st.node b ≠ none
  := by
  obtain ⟨r, hroot, -, hptr, hblank⟩ := h.root
  rcases (h.live a).mp (by simp [hn]) with rfl | ha
  · obtain ⟨n', hn', hg⟩ := h.dummy
    obtain rfl : n = n' := by simpa [hn] using hn'
    rw [TreeState.root, Mem.read_of hn, ok_bind, pure_eq_ok] at hroot
    cases s with
    | lesser =>
      have hbr : some b = some r := hb.symm.trans (Except.ok.inj hroot)
      obtain rfl := Option.some.inj hbr
      by_cases hnil : t = nil
      · simp [(hblank hnil).1]
      · apply h.laidTop.live (ptr_mem_addrs (hptr hnil))
    | greater =>
      rw [TreeNode.child, hg] at hb
      cases hb
  · by_cases hnil : t = nil
    · obtain ⟨hr, hnodes⟩ := hblank hnil
      rw [hnodes, List.mem_singleton] at ha
      subst ha
      rw [hr] at hn
      obtain rfl := Option.some.inj hn
      cases s <;> cases hb
    · obtain ⟨-, -, hnodes⟩ := (rooted_of_ne_nil hnil).mp h.rooted
      rw [hnodes] at ha
      apply h.laidTop.live (child_mem h.laidTop ha hn hb)

/-- Only the nodes of the entries have links in the sorted list. -/
theorem mem_of_link (h : Represents cmp st t nodes) (hsorted : st.sorted = true) {a b : Addr}
    {l : Links} {s : Side} (hl : st.list.links a = some l) (hb : l.get s = some b) :
  a ∈ t.addrs
  := by
  obtain ⟨-, hsame, htop, hnull⟩ := h.lists hsorted
  have hlive : st.node a ≠ none := by
    intro hnone
    rw [← hsame a, hl] at hnone
    cases hnone
  have hne : l ≠ Links.null := by
    rintro rfl
    cases s <;> cases hb
  rcases (h.live a).mp hlive with rfl | ha
  · rw [hl] at htop
    apply absurd (Option.some.inj htop) hne
  · by_cases hnil : t = nil
    · have hnull' := hnull hnil a ha
      rw [hl] at hnull'
      apply absurd (Option.some.inj hnull') hne
    · obtain ⟨-, -, hnodes⟩ := (rooted_of_ne_nil hnil).mp h.rooted
      rwa [← hnodes]

/-- The link of `a` on to `b` and that of `b` back to `a` come together. -/
theorem link_iff (h : Represents cmp st t nodes) (hsorted : st.sorted = true) (a b : Addr) :
  (∃ l, st.list.links a = some l ∧ l.greater = some b)
    ↔ ∃ l, st.list.links b = some l ∧ l.lesser = some a
  := by
  obtain ⟨hl, -⟩ := h.lists hsorted
  constructor
  · rintro ⟨l, ha, hb⟩
    apply (hl.linked.next (h.mem_of_link (s := .greater) hsorted ha hb) ha hb).2
  · rintro ⟨l, hb, ha⟩
    apply (hl.linked.prev (h.mem_of_link (s := .lesser) hsorted hb ha) hb ha).2

/-- No cell of the sorted list has a dangling link. -/
theorem link_live (h : Represents cmp st t nodes) (hsorted : st.sorted = true) {a b : Addr}
    {l : Links} {s : Side} (hl : st.list.links a = some l) (hb : l.get s = some b) :
  st.node b ≠ none
  := by
  obtain ⟨hlists, -⟩ := h.lists hsorted
  have ha := h.mem_of_link hsorted hl hb
  apply h.laidTop.live
  cases s with
  | lesser => apply (hlists.linked.prev ha hl hb).1
  | greater => apply (hlists.linked.next ha hl hb).1

/-- Walking the list in either direction visits the keyed nodes. -/
theorem walk (h : Represents cmp st t nodes) (hsorted : st.sorted = true) :
  Vely.walk .greater st.list.links st.bound st.list.min = .ok t.addrs
    ∧ Vely.walk .lesser st.list.links st.bound st.list.max = .ok t.addrs.reverse
  := by
  obtain ⟨hl, -⟩ := h.lists hsorted
  have hbound : t.addrs.length ≤ st.bound := by
    rw [addrs, List.length_map, TreeState.bound, h.count, Int.toNat_natCast]
    omega
  rw [hl.min, hl.max]
  exact ⟨hl.linked.walk_greater hbound, hl.linked.walk_lesser hbound⟩

end Represents

end Vely
