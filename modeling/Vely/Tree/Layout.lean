import Vely.Tree.Model

/-!
# Trees in memory

An `Entry` is a node of the tree: its address, key and data.  `Laid m t` says that the nodes
of the memory `m` at the addresses of `t` are linked as `t` is, each storing its height;
`LaidTop m t` leaves the height stored at the root open, as the source does after a rotation.
`Under m p dir t` says that `t` hangs below the node `p` on the side `dir`, and `Slot` that an
operation has put another tree there and touched nothing else.  A rotation and a balancing
step of the source put the rotated and the balanced tree in the slot.
-/

namespace Vely

variable {K D : Type}

/-- A node of the tree: its address, key and data. -/
structure Entry (K D : Type) where
  addr : Addr
  key : K
  data : D

/-- The addresses of the nodes of a tree, in order. -/
def Tree.addrs (t : Tree (Entry K D)) : List Addr := t.toList.map Entry.addr

/-- The pointer to the root. -/
def Tree.ptr : Tree (Entry K D) → Option Addr
  | .nil => none
  | .node _ e _ => some e.addr

/-- The height of a tree as a node stores it. -/
def Tree.stored (t : Tree (Entry K D)) : BitVec 7 := BitVec.ofNat 7 t.depth

/-- The node of `e` with the child `x` on the side `s`, the child `y` on the other side, and
the stored height `h`. -/
def cell (s : Side) (e : Entry K D) (x y : Option Addr) (h : BitVec 7) : TreeNode K D :=
  match s with
  | .lesser => ⟨some e.data, x, y, h, true, some e.key⟩
  | .greater => ⟨some e.data, y, x, h, true, some e.key⟩

section Cell

variable (s : Side) (e : Entry K D) (x y p : Option Addr) (h : BitVec 7)

@[simp]
theorem child_cell :
  (cell s e x y h).child s = x
  := by
  cases s <;> rfl

@[simp]
theorem child_flip_cell :
  (cell s e x y h).child s.flip = y
  := by
  cases s <;> rfl

@[simp]
theorem setChild_cell :
  (cell s e x y h).setChild s p = cell s e p y h
  := by
  cases s <;> rfl

@[simp]
theorem setChild_flip_cell :
  (cell s e x y h).setChild s.flip p = cell s e x p h
  := by
  cases s <;> rfl

@[simp]
theorem height_cell :
  (cell s e x y h).height = h
  := by
  cases s <;> rfl

@[simp]
theorem key_cell :
  (cell s e x y h).key = some e.key
  := by
  cases s <;> rfl

@[simp]
theorem data_cell :
  (cell s e x y h).data = some e.data
  := by
  cases s <;> rfl

@[simp]
theorem keyPresent_cell :
  (cell s e x y h).keyPresent = true
  := by
  cases s <;> rfl

/-- Seen from the other side, the children change places. -/
theorem cell_flip :
  cell s.flip e x y h = cell s e y x h
  := by
  cases s <;> rfl

@[simp]
theorem withHeight_cell (h' : BitVec 7) :
  { cell s e x y h with height := h' } = cell s e x y h'
  := by
  cases s <;> rfl

end Cell

namespace TreeNode

variable (s : Side) (n : TreeNode K D)

@[simp]
theorem child_setChild (p : Option Addr) :
  (n.setChild s p).child s = p
  := by
  cases s <;> rfl

@[simp]
theorem child_flip_setChild (p : Option Addr) :
  (n.setChild s p).child s.flip = n.child s.flip
  := by
  cases s <;> rfl

@[simp]
theorem child_withHeight (s' : Side) (h : BitVec 7) :
  { n with height := h }.child s' = n.child s'
  := by
  cases s' <;> rfl

@[simp]
theorem keyPresent_blank :
  (blank : TreeNode K D).keyPresent = false
  := rfl

/-- Setting a child to what it is changes nothing. -/
theorem setChild_child :
  n.setChild s (n.child s) = n
  := by
  cases s <;> rfl

/-- The last setting of a height and of a child is the one that stays. -/
theorem setChild_withHeight (p q : Option Addr) (h h' : BitVec 7) :
  { { n with height := h }.setChild s p with height := h' }.setChild s q
    = { n with height := h' }.setChild s q
  := by
  cases s <;> rfl

end TreeNode

/-! ### Layout -/

/-- The nodes of `t` lie in memory, linked as `t` is and storing their heights. -/
def Laid (m : Mem (TreeNode K D)) : Tree (Entry K D) → Prop
  | .nil => True
  | .node l e r =>
    m e.addr = some (cell .lesser e l.ptr r.ptr (Tree.node l e r).stored)
      ∧ Laid m l ∧ Laid m r

/-- The nodes of `t` lie in memory, all but the root storing their heights. -/
def LaidTop (m : Mem (TreeNode K D)) : Tree (Entry K D) → Prop
  | .nil => True
  | .node l e r =>
    (∃ h, m e.addr = some (cell .lesser e l.ptr r.ptr h)) ∧ Laid m l ∧ Laid m r

section Layout

open Vely.Tree

variable {m m' : Mem (TreeNode K D)} {s : Side} {x y t : Tree (Entry K D)} {e : Entry K D}

@[simp]
theorem ptr_nil :
  (nil : Tree (Entry K D)).ptr = none
  := rfl

@[simp]
theorem ptr_join :
  (join s x e y).ptr = some e.addr
  := by
  cases s <;> rfl

theorem ptr_eq_none :
  t.ptr = none ↔ t = nil
  := by
  cases t <;> simp [ptr]

@[simp]
theorem laid_nil :
  Laid m nil
  := trivial

@[simp]
theorem laid_join :
  Laid m (join s x e y)
    ↔ m e.addr = some (cell s e x.ptr y.ptr (join s x e y).stored) ∧ Laid m x ∧ Laid m y
  := by
  cases s with
  | lesser => rfl
  | greater =>
    rw [join, Laid, and_comm (a := Laid m x)]
    rfl

@[simp]
theorem laidTop_join :
  LaidTop m (join s x e y)
    ↔ (∃ h, m e.addr = some (cell s e x.ptr y.ptr h)) ∧ Laid m x ∧ Laid m y
  := by
  cases s with
  | lesser => rfl
  | greater =>
    rw [join, LaidTop, and_comm (a := Laid m x)]
    rfl

theorem Laid.top (h : Laid m t) :
  LaidTop m t
  := by
  cases t with
  | nil => trivial
  | node l e r => exact ⟨⟨_, h.1⟩, h.2⟩

theorem addrs_nil :
  (nil : Tree (Entry K D)).addrs = []
  := rfl

theorem addrs_node (l r : Tree (Entry K D)) :
  (node l e r).addrs = l.addrs ++ e.addr :: r.addrs
  := by
  simp [addrs]

@[simp]
theorem addrs_balance :
  t.balance.addrs = t.addrs
  := by
  rw [addrs, toList_balance]
  rfl

/-- What stands around a subtree in the list of addresses stands around any tree in its
place. -/
theorem exists_around (s : Side) (e : Entry K D) (y : Tree (Entry K D))
    (pre post : List Addr) :
  ∃ pre' post', (∀ x, pre ++ (join s x e y).addrs ++ post = pre' ++ x.addrs ++ post')
    ∧ ∀ a ∈ pre' ++ post', a ∈ pre ++ post ∨ a ∈ (join s nil e y).addrs
  := by
  cases s with
  | lesser =>
    refine ⟨pre, e.addr :: y.addrs ++ post, ?_, ?_⟩
    · intro x
      simp [join, addrs_node]
    · intro a ha
      simp only [join, addrs_node, addrs_nil, List.mem_append, List.mem_cons] at ha ⊢
      tauto
  | greater =>
    refine ⟨pre ++ y.addrs ++ [e.addr], post, ?_, ?_⟩
    · intro x
      simp [join, addrs_node]
    · intro a ha
      simp only [join, addrs_node, addrs_nil, List.mem_append, List.mem_cons] at ha ⊢
      tauto

/-- A leaf below a node stands beside it in the list of addresses. -/
theorem exists_beside_leaf (s : Side) (n e : Entry K D) (y : Tree (Entry K D))
    (pre post : List Addr) :
  ∃ xs ys, pre ++ (join s nil e y).addrs ++ post = xs ++ e.addr :: ys
    ∧ pre ++ (join s (node nil n nil) e y).addrs ++ post = beside s n.addr xs e.addr ys
  := by
  cases s with
  | lesser =>
    use pre, y.addrs ++ post
    simp [join, addrs_node, addrs_nil, beside]
  | greater =>
    use pre ++ y.addrs, post
    simp [join, addrs_node, addrs_nil, beside]

theorem mem_addrs_join {a : Addr} :
  a ∈ (join s x e y).addrs ↔ a = e.addr ∨ a ∈ x.addrs ∨ a ∈ y.addrs
  := by
  cases s <;> simp only [join, addrs_node, List.mem_append, List.mem_cons] <;> tauto

/-- The addresses of a node are distinct when its own is new to both subtrees and theirs are
distinct and disjoint. -/
theorem nodup_addrs_join :
  (join s x e y).addrs.Nodup
    ↔ x.addrs.Nodup ∧ y.addrs.Nodup ∧ e.addr ∉ x.addrs ∧ e.addr ∉ y.addrs
      ∧ ∀ a ∈ x.addrs, a ∉ y.addrs
  := by
  have key : ∀ xs ys : List Addr, ∀ a : Addr, (xs ++ a :: ys).Nodup
      ↔ xs.Nodup ∧ ys.Nodup ∧ a ∉ xs ∧ a ∉ ys ∧ ∀ b ∈ xs, b ∉ ys := by
    intro xs ys a
    simp only [List.nodup_append, List.nodup_cons, List.mem_cons, ne_eq]
    constructor
    · rintro ⟨hx, ⟨hay, hy⟩, hdisj⟩
      refine ⟨hx, hy, ?_, hay, ?_⟩
      · intro ha
        apply hdisj a ha a (Or.inl rfl) rfl
      · intro b hb hb'
        apply hdisj b hb b (Or.inr hb') rfl
    · rintro ⟨hx, hy, hax, hay, hdisj⟩
      refine ⟨hx, ⟨hay, hy⟩, ?_⟩
      rintro b hb c (rfl | hc) rfl
      · apply hax hb
      · apply hdisj b hb hc
  cases s with
  | lesser => rw [join, addrs_node, key]
  | greater =>
    rw [join, addrs_node, key]
    constructor
    · rintro ⟨hy, hx, hay, hax, hdisj⟩
      exact ⟨hx, hy, hax, hay, fun a ha ha' => hdisj a ha' ha⟩
    · rintro ⟨hx, hy, hax, hay, hdisj⟩
      exact ⟨hy, hx, hay, hax, fun a ha ha' => hdisj a ha' ha⟩

theorem ptr_mem_addrs {a : Addr} (h : t.ptr = some a) :
  a ∈ t.addrs
  := by
  cases t with
  | nil => cases h
  | node l e r =>
    obtain rfl := Option.some.inj h
    simp [addrs_node]

theorem Laid.live (h : Laid m t) {a : Addr} (ha : a ∈ t.addrs) :
  m a ≠ none
  := by
  induction t with
  | nil => cases ha
  | node l e r ihl ihr =>
    obtain ⟨he, hl, hr⟩ := h
    rw [addrs_node, List.mem_append, List.mem_cons] at ha
    rcases ha with ha | rfl | ha
    · apply ihl hl ha
    · simp [he]
    · apply ihr hr ha

theorem LaidTop.live (h : LaidTop m t) {a : Addr} (ha : a ∈ t.addrs) :
  m a ≠ none
  := by
  cases t with
  | nil => cases ha
  | node l e r =>
    obtain ⟨⟨_, he⟩, hl, hr⟩ := h
    rw [addrs_node, List.mem_append, List.mem_cons] at ha
    rcases ha with ha | rfl | ha
    · apply hl.live ha
    · simp [he]
    · apply hr.live ha

/-- A layout reads only the nodes of the tree. -/
theorem Laid.frame (h : Laid m t) (hm : ∀ a ∈ t.addrs, m' a = m a) :
  Laid m' t
  := by
  induction t with
  | nil => trivial
  | node l e r ihl ihr =>
    obtain ⟨he, hl, hr⟩ := h
    simp only [addrs_node, List.mem_append, List.mem_cons] at hm
    refine ⟨?_, ?_, ?_⟩
    · rw [hm e.addr (by simp), he]
    · apply ihl hl
      intro a ha
      apply hm a (by simp [ha])
    · apply ihr hr
      intro a ha
      apply hm a (by simp [ha])

theorem LaidTop.frame (h : LaidTop m t) (hm : ∀ a ∈ t.addrs, m' a = m a) :
  LaidTop m' t
  := by
  cases t with
  | nil => trivial
  | node l e r =>
    obtain ⟨⟨h', he⟩, hl, hr⟩ := h
    simp only [addrs_node, List.mem_append, List.mem_cons] at hm
    refine ⟨⟨h', ?_⟩, ?_, ?_⟩
    · rw [hm e.addr (by simp), he]
    · apply hl.frame
      intro a ha
      apply hm a (by simp [ha])
    · apply hr.frame
      intro a ha
      apply hm a (by simp [ha])

end Layout

/-! ### Slots -/

/-- The tree `t` hangs below the node `p` on the side `dir`: `p` points to its root, is not a
node of it, and has a live child or none on the other side. -/
structure Under (m : Mem (TreeNode K D)) (p : Addr) (dir : Side) (t : Tree (Entry K D)) :
    Prop where
  parent : ∃ n, m p = some n ∧ n.child dir = t.ptr
    ∧ ∀ a, n.child dir.flip = some a → m a ≠ none ∧ a ∉ t.addrs ∧ a ≠ p
  notMem : p ∉ t.addrs
  nodup : t.addrs.Nodup

/-- From `m` to `m'`, the tree below `p` on the side `dir` has changed from `t` to `t'`. The
node `p` has its child changed and perhaps its height; the nodes of `t` that are not in
`t'` are freed; nothing else has changed. -/
structure Slot (m m' : Mem (TreeNode K D)) (p : Addr) (dir : Side)
    (t t' : Tree (Entry K D)) : Prop where
  top : LaidTop m' t'
  parent : ∀ n, m p = some n →
    ∃ h, m' p = some ({ n with height := h }.setChild dir t'.ptr)
  frame : ∀ a, a ≠ p → a ∉ t'.addrs → m' a = if a ∈ t.addrs then none else m a

section Slot

open Vely.Tree

variable {m m' m'' : Mem (TreeNode K D)} {p : Addr} {s dir : Side}
  {t t' t'' x x' y : Tree (Entry K D)} {e : Entry K D}

/-- A subtree hangs below the root. -/
theorem Under.ofJoin (h : LaidTop m (join s x e y)) (hnd : (join s x e y).addrs.Nodup) :
  Under m e.addr s x
  := by
  obtain ⟨⟨_, he⟩, -, hy⟩ := laidTop_join.mp h
  obtain ⟨hndx, -, hex, hey, hdisj⟩ := nodup_addrs_join.mp hnd
  refine ⟨⟨_, he, by simp, ?_⟩, hex, hndx⟩
  intro a ha
  rw [child_flip_cell] at ha
  have hmem := ptr_mem_addrs ha
  refine ⟨hy.live hmem, ?_, ?_⟩
  · intro hax
    apply hdisj a hax hmem
  · rintro rfl
    apply hey hmem

/-- After a change of the slot to a tree whose nodes are old or were free before, that tree
hangs there. -/
theorem Slot.under (h : Slot m m' p dir t t') (hu : Under m p dir t)
    (hnew : ∀ a ∈ t'.addrs, a ∈ t.addrs ∨ m a = none) (hnd : t'.addrs.Nodup) :
  Under m' p dir t'
  := by
  obtain ⟨n, hn, hc, hsib⟩ := hu.parent
  obtain ⟨h', hp⟩ := h.parent n hn
  refine ⟨⟨_, hp, by simp, ?_⟩, ?_, hnd⟩
  · intro a ha
    rw [TreeNode.child_flip_setChild, TreeNode.child_withHeight] at ha
    obtain ⟨hlive, hat, hap⟩ := hsib a ha
    have hat' : a ∉ t'.addrs := by
      intro hmem
      rcases hnew a hmem with hold | hfree
      · apply hat hold
      · apply hlive hfree
    refine ⟨?_, hat', hap⟩
    rw [h.frame a hap hat', if_neg hat]
    apply hlive
  · intro hmem
    rcases hnew p hmem with hold | hfree
    · apply hu.notMem hold
    · simp [hn] at hfree

/-- No change. -/
theorem Slot.refl (hu : Under m p dir t) (ht : LaidTop m t) :
  Slot m m p dir t t
  := by
  obtain ⟨⟨n, hn, hc, -⟩, -, -⟩ := hu
  refine ⟨ht, ?_, ?_⟩
  · intro n' hn'
    obtain rfl : n = n' := by simpa [hn] using hn'
    use n.height
    rw [hn, ← hc]
    simp [TreeNode.setChild_child]
  · intro a _ ha
    rw [if_neg ha]

/-- A change of the slot after a change, when the second keeps the set of nodes. -/
theorem Slot.trans (h : Slot m m' p dir t t') (h' : Slot m' m'' p dir t' t'')
    (hsame : ∀ a, a ∈ t''.addrs ↔ a ∈ t'.addrs) :
  Slot m m'' p dir t t''
  := by
  refine ⟨h'.top, ?_, ?_⟩
  · intro n hn
    obtain ⟨h1, hp⟩ := h.parent n hn
    obtain ⟨h2, hp'⟩ := h'.parent _ hp
    use h2
    rw [hp', TreeNode.setChild_withHeight]
  · intro a hap ha
    have ha' : a ∉ t'.addrs := by rwa [← hsame]
    rw [h'.frame a hap ha, if_neg ha', h.frame a hap ha']

/-- After a change of the subtree `x` to a tree whose nodes are old or were free before, the
root holds that tree, and the other subtree is as it was. -/
theorem Slot.root (h : Slot m m' e.addr s x x') (hl : LaidTop m (join s x e y))
    (hnd : (join s x e y).addrs.Nodup) (hnew : ∀ a ∈ x'.addrs, a ∈ x.addrs ∨ m a = none) :
  (∃ h', m' e.addr = some (cell s e x'.ptr y.ptr h')) ∧ Laid m' y
  := by
  obtain ⟨⟨_, he⟩, -, hy⟩ := laidTop_join.mp hl
  obtain ⟨-, -, -, hey, hdisj⟩ := nodup_addrs_join.mp hnd
  constructor
  · obtain ⟨h', hp⟩ := h.parent _ he
    use h'
    rw [hp, withHeight_cell, setChild_cell]
  · apply hy.frame
    intro a ha
    have hax : a ∉ x.addrs := fun hmem => hdisj a hmem ha
    have hax' : a ∉ x'.addrs := by
      intro hmem
      rcases hnew a hmem with hold | hfree
      · apply hax hold
      · apply hy.live ha hfree
    rw [h.frame a (by rintro rfl; exact hey ha) hax', if_neg hax]

/-- After a change of the subtree `x`, the whole tree hangs where it did. -/
theorem Slot.underRoot (h : Slot m m' e.addr s x x') (hu : Under m p dir (join s x e y))
    (hl : LaidTop m (join s x e y)) (hnew : ∀ a ∈ x'.addrs, a ∈ x.addrs ∨ m a = none)
    (hnd : x'.addrs.Nodup) :
  Under m' p dir (join s x' e y)
  := by
  obtain ⟨⟨n, hn, hc, hsib⟩, hp, hnd'⟩ := hu
  obtain ⟨⟨_, he⟩, -, hy⟩ := laidTop_join.mp hl
  obtain ⟨-, hndy, hex, hey, hdisj⟩ := nodup_addrs_join.mp hnd'
  have hfresh : ∀ a, m a ≠ none → a ∉ x.addrs → a ∉ x'.addrs := by
    intro a hlive hax hmem
    rcases hnew a hmem with hold | hfree
    · apply hax hold
    · apply hlive hfree
  simp only [mem_addrs_join, not_or] at hp
  have hpx' : p ∉ x'.addrs := hfresh p (by simp [hn]) hp.2.1
  refine ⟨⟨n, ?_, ?_, ?_⟩, ?_, ?_⟩
  · rw [h.frame p hp.1 hpx', if_neg hp.2.1, hn]
  · rw [hc, ptr_join, ptr_join]
  · intro a ha
    obtain ⟨hlive, hat, hap⟩ := hsib a ha
    simp only [mem_addrs_join, not_or] at hat ⊢
    have hax' := hfresh a hlive hat.2.1
    refine ⟨?_, ⟨hat.1, hax', hat.2.2⟩, hap⟩
    rw [h.frame a hat.1 hax', if_neg hat.2.1]
    apply hlive
  · simp only [mem_addrs_join, not_or]
    exact ⟨hp.1, hpx', hp.2.2⟩
  · apply nodup_addrs_join.mpr
    refine ⟨hnd, hndy, hfresh e.addr (by simp [he]) hex, hey, ?_⟩
    intro a ha hay
    apply hfresh a (hy.live hay) (fun hax => hdisj a hax hay) ha

/-- A change of the subtree `x` followed by a change of the whole that keeps the set of nodes
is a change of the whole. -/
theorem Slot.whole (h : Slot m m' e.addr s x x') (hu : Under m p dir (join s x e y))
    (hnew : ∀ a ∈ x'.addrs, a ∈ x.addrs ∨ m a = none)
    (h' : Slot m' m'' p dir (join s x' e y) t)
    (hsame : ∀ a, a ∈ t.addrs ↔ a ∈ (join s x' e y).addrs) :
  Slot m m'' p dir (join s x e y) t
  := by
  obtain ⟨⟨n, hn, -, -⟩, hp, -⟩ := hu
  simp only [mem_addrs_join, not_or] at hp
  refine ⟨h'.top, ?_, ?_⟩
  · intro n' hn'
    apply h'.parent
    have hpx' : p ∉ x'.addrs := by
      intro hmem
      rcases hnew p hmem with hold | hfree
      · apply hp.2.1 hold
      · simp [hn] at hfree
    rw [h.frame p hp.1 hpx', if_neg hp.2.1, hn']
  · intro a hap ha
    rw [hsame] at ha
    rw [h'.frame a hap (by rwa [hsame]), if_neg ha]
    simp only [mem_addrs_join, not_or] at ha ⊢
    rw [h.frame a ha.1 ha.2.1]
    simp only [ha.1, ha.2.2, false_or, or_false]

/-- Other contents of the root leave the tree hanging where it does. -/
theorem Under.moved (e' : Entry K D) (hu : Under m p dir (join s x e y)) (v : TreeNode K D)
    (he : e'.addr = e.addr) :
  Under (m.set e.addr v) p dir (join s x e' y)
  := by
  obtain ⟨⟨n, hn, hc, hsib⟩, hp, hnd⟩ := hu
  have hsame : ∀ a, a ∈ (join s x e' y).addrs ↔ a ∈ (join s x e y).addrs := by
    intro a
    rw [mem_addrs_join, mem_addrs_join, he]
  refine ⟨⟨n, ?_, ?_, ?_⟩, ?_, ?_⟩
  · rw [Mem.set_of_ne, hn]
    rintro rfl
    apply hp
    simp [mem_addrs_join]
  · rw [hc, ptr_join, ptr_join, he]
  · intro a ha
    obtain ⟨hlive, hat, hap⟩ := hsib a ha
    refine ⟨?_, by rwa [hsame], hap⟩
    rw [Mem.set_of_ne]
    · apply hlive
    · rintro rfl
      apply hat
      simp [mem_addrs_join]
  · rwa [hsame]
  · rw [nodup_addrs_join] at hnd ⊢
    rwa [he]

/-- A root with other contents is laid over the same subtrees. -/
theorem LaidTop.moved (e' : Entry K D) {h : BitVec 7} (ht : LaidTop m (join s x e y))
    (hnd : (join s x e y).addrs.Nodup) (he : e'.addr = e.addr) :
  LaidTop (m.set e.addr (cell s e' x.ptr y.ptr h)) (join s x e' y)
  := by
  obtain ⟨-, hx, hy⟩ := laidTop_join.mp ht
  obtain ⟨-, -, hex, hey, -⟩ := nodup_addrs_join.mp hnd
  rw [laidTop_join, he]
  refine ⟨⟨h, Mem.set_self ..⟩, ?_, ?_⟩
  · apply hx.frame
    intro a ha
    apply Mem.set_of_ne
    rintro rfl
    apply hex ha
  · apply hy.frame
    intro a ha
    apply Mem.set_of_ne
    rintro rfl
    apply hey ha

/-- A change of the slot that starts by giving the root other contents. -/
theorem Slot.ofMoved (e' : Entry K D) {v : TreeNode K D} (he : e'.addr = e.addr)
    (h : Slot (m.set e.addr v) m' p dir (join s x e' y) t) (hp : p ≠ e.addr)
    (het : e.addr ∈ t.addrs) :
  Slot m m' p dir (join s x e y) t
  := by
  refine ⟨h.top, ?_, ?_⟩
  · intro n hn
    apply h.parent
    rw [Mem.set_of_ne _ _ hp, hn]
  · intro a hap ha
    rw [h.frame a hap ha, Mem.set_of_ne]
    · simp only [mem_addrs_join, he]
    · rintro rfl
      apply ha het

end Slot

/-! ### Heights -/

section Height

open Vely.Tree

variable {m : Mem (TreeNode K D)} {s : Side} {x y t : Tree (Entry K D)} {e : Entry K D}
  {p : Addr}

theorem toNat_stored (h : t.depth < 128) :
  t.stored.toNat = t.depth
  := by
  rw [stored, BitVec.toNat_ofNat]
  apply Nat.mod_eq_of_lt h

theorem childHeight_laid (h : Laid m t) (hd : t.depth < 128) :
  childHeight m t.ptr = .ok t.depth
  := by
  cases t with
  | nil => rfl
  | node l e r =>
    have hs := toNat_stored hd
    simp only [ptr, childHeight, Mem.read_of h.1, ok_bind, height_cell, hs]
    rfl

/-- The balance factor of a node: the depth of the lesser subtree less that of the greater. -/
def balFactor (t : Tree (Entry K D)) : Int :=
  (t.child .lesser).depth - (t.child .greater).depth

/-- On a node over two laid trees, `vv_tree_height` stores the height of the node. -/
theorem treeHeight_laid {h : BitVec 7} (he : m e.addr = some (cell s e x.ptr y.ptr h))
    (hx : Laid m x) (hy : Laid m y) (hd : (join s x e y).depth ≤ 127) :
  treeHeight m e.addr
    = .ok (m.set e.addr (cell s e x.ptr y.ptr (join s x e y).stored),
        balFactor (join s x e y))
  := by
  rw [depth_join] at hd
  have hcx := childHeight_laid hx (by omega)
  have hcy := childHeight_laid hy (by omega)
  rw [treeHeight, Mem.read_of he, ok_bind]
  cases s with
  | lesser =>
    simp only [cell, hcx, hcy, ok_bind, Mem.modify_of he, pure_eq_ok, join, balFactor, child,
      stored, depth_node]
    congr 5
    split <;> omega
  | greater =>
    simp only [cell, hcx, hcy, ok_bind, Mem.modify_of he, pure_eq_ok, join, balFactor, child,
      stored, depth_node]
    congr 5
    split <;> omega

theorem childHeight_ok {q : Option Addr} (h : ∀ a, q = some a → m a ≠ none) :
  ∃ k, childHeight m q = .ok k
  := by
  cases q with
  | none => exact ⟨0, rfl⟩
  | some a =>
    obtain ⟨n, hn⟩ := Option.ne_none_iff_exists'.mp (h a rfl)
    use n.height.toNat
    simp [childHeight, Mem.read_of hn]

/-- On a node with live children, `vv_tree_height` changes the stored height alone. -/
theorem treeHeight_ok {n : TreeNode K D} (hn : m p = some n)
    (hlive : ∀ s a, n.child s = some a → m a ≠ none) :
  ∃ h f, treeHeight m p = .ok (m.set p { n with height := h }, f)
  := by
  obtain ⟨kl, hl⟩ := childHeight_ok (m := m) (hlive .lesser)
  obtain ⟨kr, hr⟩ := childHeight_ok (m := m) (hlive .greater)
  simp only [TreeNode.child] at hl hr
  rw [treeHeight, Mem.read_of hn, ok_bind, hl, ok_bind, hr, ok_bind]
  simp only [Mem.modify_of hn, ok_bind, pure_eq_ok]
  exact ⟨_, _, rfl⟩

end Height

end Vely
