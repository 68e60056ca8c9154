import Vely.Tree.Delete
import Vely.Tree.Insert
import Vely.Tree.Search

/-!
# The state of a tree

`Represents cmp st t nodes` says that the state `st` is that of a tree whose nodes are those
of `t`: they hang below the dummy node, or a root without a key does when `t` is empty; these
are the live nodes; `t` is a balanced search tree; the count is right; and when the tree is
sorted, the list runs through the nodes in order.  Creating a tree represents the empty one,
and each call from outside goes from a represented tree to a represented tree.
-/

namespace Vely

open Std Vely.Tree

variable {K D : Type} {cmp : K → K → Ordering}

/-- What hangs below the dummy node `top`: the tree, or when it is empty a root without a key. -/
def Rooted (m : Mem (TreeNode K D)) (top : Addr) (t : Tree (Entry K D)) (nodes : List Addr) :
    Prop :=
  match t with
  | .nil => ∃ n b, m top = some n ∧ n.lesserNode = some b ∧ top ≠ b
    ∧ m b = some TreeNode.blank ∧ nodes = [b]
  | .node .. => Under m top .lesser t ∧ LaidTop m t ∧ nodes = t.addrs

theorem rooted_of_ne_nil {m : Mem (TreeNode K D)} {top : Addr} {t : Tree (Entry K D)}
    {nodes : List Addr} (h : t ≠ nil) :
  Rooted m top t nodes ↔ Under m top .lesser t ∧ LaidTop m t ∧ nodes = t.addrs
  := by
  cases t with
  | nil => apply absurd rfl h
  | node l e r => rfl

/-- The state `st` is that of a tree with the entries of `t`, whose nodes are at `nodes`. -/
structure Represents (cmp : K → K → Ordering) (st : TreeState K D) (t : Tree (Entry K D))
    (nodes : List Addr) : Prop where
  dummy : ∃ n, st.node st.tree = some n ∧ n.greaterNode = none
  rooted : Rooted st.node st.tree t nodes
  live : ∀ a, st.node a ≠ none ↔ a = st.tree ∨ a ∈ nodes
  balanced : t.Balanced
  sortedBy : SortedBy cmp Entry.key t.toList
  count : st.count = t.toList.length
  lists : st.sorted = true → st.list.Lists t.addrs ∧ SameLive st.node st.list.links
    ∧ st.list.links st.tree = some Links.null
    ∧ (t = nil → ∀ a ∈ nodes, st.list.links a = some Links.null)

section Slot

variable {m m' : Mem (TreeNode K D)} {top : Addr} {t t' : Tree (Entry K D)}

/-- A change below the dummy node leaves it without a greater child. -/
theorem Slot.dummy (h : Slot m m' top .lesser t t')
    (hd : ∃ n, m top = some n ∧ n.greaterNode = none) :
  ∃ n, m' top = some n ∧ n.greaterNode = none
  := by
  obtain ⟨n, hn, hg⟩ := hd
  obtain ⟨h', hn'⟩ := h.parent n hn
  exact ⟨_, hn', hg⟩

/-- After a change below the dummy node, the live nodes are those of the new tree. -/
theorem Slot.live (h : Slot m m' top .lesser t t') (hd : ∃ n, m top = some n)
    (hl : ∀ a, m a ≠ none ↔ a = top ∨ a ∈ t.addrs) (a : Addr) :
  m' a ≠ none ↔ a = top ∨ a ∈ t'.addrs
  := by
  by_cases hat : a = top
  · obtain ⟨n, hn⟩ := hd
    obtain ⟨h', hn'⟩ := h.parent n hn
    simp [hat, hn']
  · by_cases ha : a ∈ t'.addrs
    · simp [ha, h.top.live ha]
    · rw [h.frame a hat ha]
      split
      · simp [hat, ha]
      · next hat' =>
        rw [hl]
        simp [hat, ha, hat']

end Slot

/-- A balanced tree in memory is not deep: its depth fits in the seven bits of a height. -/
theorem depth_le_of_nodup {t : Tree (Entry K D)} (hb : t.Balanced) (hnd : t.addrs.Nodup) :
  t.depth ≤ 110
  := by
  by_contra hd
  have hfib := hb.fib_le
  have hlen := length_le_addrSpace hnd
  rw [addrs, List.length_map] at hlen
  have hmono : Nat.fib 113 ≤ Nat.fib (t.depth + 2) := Nat.fib_mono (by omega)
  have hval : Nat.fib 113 = 184551825793033096366333 := by norm_num
  rw [addrSpace] at hlen
  omega

namespace Represents

variable {st : TreeState K D} {t : Tree (Entry K D)} {nodes : List Addr}

/-- The bound the calls from outside pass exceeds the depth of the tree. -/
theorem depth_lt_bound (h : Represents cmp st t nodes) :
  t.depth + 1 ≤ st.bound
  := by
  have hdepth := depth_le_length t
  rw [TreeState.bound, h.count, Int.toNat_natCast]
  omega

/-- The count is zero when the tree is empty only. -/
theorem count_eq_zero (h : Represents cmp st t nodes) :
  st.count = 0 ↔ t = nil
  := by
  rw [h.count, ← toList_eq_nil, ← List.length_eq_zero_iff]
  omega

theorem nodup (h : Represents cmp st t nodes) :
  t.addrs.Nodup
  := by
  have hr := h.rooted
  cases t with
  | nil => simp [addrs_nil]
  | node l e r => apply hr.1.nodup

/-- The nodes of the tree are live. -/
theorem laidTop (h : Represents cmp st t nodes) :
  LaidTop st.node t
  := by
  have hr := h.rooted
  cases t with
  | nil => trivial
  | node l e r => apply hr.2.1

/-- The root: a pointer to the first node, or to the root without a key. -/
theorem root (h : Represents cmp st t nodes) :
  ∃ a, st.root = .ok (some a) ∧ hasKey st.node (some a) = .ok (t.ptr != none)
    ∧ (t ≠ nil → t.ptr = some a)
    ∧ (t = nil → st.node a = some TreeNode.blank ∧ nodes = [a])
  := by
  have hr := h.rooted
  cases t with
  | nil =>
    obtain ⟨n, b, hn, hb, -, hblank, hnodes⟩ := hr
    refine ⟨b, ?_, ?_, by simp, fun _ => ⟨hblank, hnodes⟩⟩
    · rw [TreeState.root, Mem.read_of hn, ok_bind, hb]
      rfl
    · rw [hasKey, Mem.read_of hblank, ok_bind]
      rfl
  | node l e r =>
    obtain ⟨⟨⟨n, hn, hc, -⟩, -, -⟩, ⟨⟨h', he⟩, -, -⟩, -⟩ := hr
    refine ⟨e.addr, ?_, ?_, fun _ => rfl, by simp⟩
    · have hc' : n.lesserNode = some e.addr := hc
      rw [TreeState.root, Mem.read_of hn, ok_bind, hc']
      rfl
    · rw [hasKey, Mem.read_of he, ok_bind, keyPresent_cell]
      rfl

/-- A change below the dummy node from a tree to another, neither of them empty. -/
theorem ofSlot (h : Represents cmp st t nodes) (st' : TreeState K D) {t' : Tree (Entry K D)}
    (hne : t ≠ nil) (hne' : t' ≠ nil) (htree : st'.tree = st.tree)
    (hs : Slot st.node st'.node st.tree .lesser t t')
    (hnew : ∀ a ∈ t'.addrs, a ∈ t.addrs ∨ st.node a = none) (hnd : t'.addrs.Nodup)
    (hb : t'.Balanced) (hsorted : SortedBy cmp Entry.key t'.toList)
    (hcount : st'.count = t'.toList.length)
    (hlists : st'.sorted = true → st'.list.Lists t'.addrs ∧ SameLive st'.node st'.list.links
      ∧ st'.list.links st.tree = some Links.null) :
  Represents cmp st' t' t'.addrs
  := by
  obtain ⟨hu, ht, hnodes⟩ := (rooted_of_ne_nil hne).mp h.rooted
  obtain ⟨n, hn, hg⟩ := h.dummy
  rw [← htree] at hs hu hlists hn
  refine ⟨hs.dummy ⟨n, hn, hg⟩, ?_, ?_, hb, hsorted, hcount, ?_⟩
  · rw [rooted_of_ne_nil hne']
    exact ⟨hs.under hu hnew hnd, hs.top, rfl⟩
  · apply hs.live ⟨n, hn⟩
    rw [← hnodes, htree]
    apply h.live
  · intro hsort
    obtain ⟨hl, hsame, htop⟩ := hlists hsort
    exact ⟨hl, hsame, htop, fun hnil => absurd hnil hne'⟩

/-- A change below the dummy node that keeps the entries keeps what is represented, whatever the
cursor. -/
theorem ofSame (h : Represents cmp st t nodes) (hne : t ≠ nil) {m : Mem (TreeNode K D)}
    (hs : Slot st.node m st.tree .lesser t t) (c : TreeCursor K D) :
  Represents cmp { st with node := m, cursor := c } t nodes
  := by
  obtain ⟨hu, -, hnodes⟩ := (rooted_of_ne_nil hne).mp h.rooted
  obtain ⟨n, hn, -⟩ := h.dummy
  subst hnodes
  apply h.ofSlot { st with node := m, cursor := c } hne hne rfl hs
    (fun a ha => Or.inl ha) hu.nodup h.balanced h.sortedBy h.count
  intro hsorted
  obtain ⟨hl, hsame, htop, -⟩ := h.lists hsorted
  refine ⟨hl, ?_, htop⟩
  intro a
  have hiff : m a ≠ none ↔ st.node a ≠ none := by
    rw [hs.live ⟨n, hn⟩ h.live, h.live]
  show st.list.links a = none ↔ m a = none
  rw [hsame a]
  tauto

/-- What is represented does not depend on the cursor. -/
theorem withCursor (h : Represents cmp st t nodes) (c : TreeCursor K D) :
  Represents cmp { st with cursor := c } t nodes
  := ⟨h.dummy, h.rooted, h.live, h.balanced, h.sortedBy, h.count, h.lists⟩

end Represents

/-! ### Creation -/

/-- A root without a key makes a tree out of a dummy node alone. -/
theorem treeCreateRoot_spec (cmp : K → K → Ordering) (al : Allocator (TreeNode K D))
    (st : TreeState K D) {n : TreeNode K D} (hn : st.node st.tree = some n) (hg : n.greaterNode = none)
    (hlive : ∀ a, st.node a ≠ none ↔ a = st.tree) (hcount : st.count = 0)
    (hlists : st.sorted = true → st.list.Lists [] ∧ SameLive st.node st.list.links
      ∧ st.list.links st.tree = some Links.null) :
  treeCreateRoot al st = .error .outOfMemory
    ∨ ∃ st' b, treeCreateRoot al st = .ok st' ∧ Represents cmp st' nil [b]
      ∧ st'.cursor = st.cursor ∧ st'.sorted = st.sorted
  := by
  rw [treeCreateRoot, treeNodeCreate, Allocator.alloc]
  cases ha : al.choose st.node with
  | none => left; rfl
  | some b =>
    have hb : st.tree ≠ b := by
      rintro rfl
      simp [al.fresh ha] at hn
    have hn' : (st.node.set b TreeNode.blank) st.tree = some n := by
      rw [Mem.set_of_ne _ _ hb, hn]
    simp only [ok_bind, pure_eq_ok, Mem.modify_of hn']
    right
    refine ⟨_, b, rfl, ⟨?_, ?_, ?_, trivial, List.Pairwise.nil, hcount, ?_⟩, rfl, rfl⟩
    · refine ⟨_, Mem.set_self .., hg⟩
    · refine ⟨_, b, Mem.set_self .., rfl, hb, ?_, rfl⟩
      show ((st.node.set b TreeNode.blank).set st.tree _) b = _
      rw [Mem.set_of_ne _ _ (Ne.symm hb), Mem.set_self]
    · intro a
      show ((st.node.set b TreeNode.blank).set st.tree _) a ≠ none ↔ a = st.tree ∨ a ∈ [b]
      by_cases hat : a = st.tree
      · simp [hat]
      · rw [Mem.set_of_ne _ _ hat, List.mem_singleton]
        by_cases hab : a = b
        · simp [hab]
        · rw [Mem.set_of_ne _ _ hab, hlive]
          simp [hat, hab]
    · intro hsorted
      have hs : st.sorted = true := hsorted
      obtain ⟨hl, hsame, htop⟩ := hlists hs
      simp only [hs, if_true]
      refine ⟨⟨trivial, hl.min, hl.max⟩, ?_, ?_, ?_⟩
      · intro a
        show (st.list.links.set b Links.null) a = none
          ↔ ((st.node.set b TreeNode.blank).set st.tree _) a = none
        by_cases hat : a = st.tree
        · subst hat
          rw [Mem.set_of_ne _ _ hb, Mem.set_self, htop]
          simp
        · rw [Mem.set_of_ne _ _ hat]
          by_cases hab : a = b
          · simp [hab]
          · rw [Mem.set_of_ne _ _ hab, Mem.set_of_ne _ _ hab, hsame a]
      · show (st.list.links.set b Links.null) st.tree = _
        rw [Mem.set_of_ne _ _ hb, htop]
      · intro _ a ha
        obtain rfl := List.mem_singleton.mp ha
        apply Mem.set_self

/-- A new tree represents the empty tree. -/
theorem treeCreate_spec (cmp : K → K → Ordering) (al : Allocator (TreeNode K D))
    (sorted : Bool) :
  treeCreate al sorted = .error .outOfMemory
    ∨ ∃ st nodes, treeCreate al sorted = .ok st ∧ Represents cmp st nil nodes
      ∧ st.sorted = sorted
  := by
  rw [treeCreate, treeNodeCreate, Allocator.alloc]
  cases ha : al.choose Mem.empty with
  | none => left; rfl
  | some top =>
    simp only [ok_bind, pure_eq_ok]
    have hlive : ∀ a, (Mem.empty.set top (TreeNode.blank : TreeNode K D)) a ≠ none ↔ a = top := by
      intro a
      by_cases hat : a = top
      · simp [hat]
      · rw [Mem.set_of_ne _ _ hat]
        simp [hat, Mem.empty]
    have hlists : sorted = true →
        LinkedList.Lists ⟨if sorted = true then Mem.empty.set top Links.null else Mem.empty,
          none, none⟩ []
        ∧ SameLive (Mem.empty.set top (TreeNode.blank : TreeNode K D))
          (if sorted = true then Mem.empty.set top Links.null else Mem.empty)
        ∧ (if sorted = true then Mem.empty.set top Links.null else Mem.empty) top
          = some Links.null := by
      rintro rfl
      simp only [if_true]
      refine ⟨⟨trivial, rfl, rfl⟩, ?_, Mem.set_self ..⟩
      intro a
      by_cases hat : a = top
      · simp [hat]
      · rw [Mem.set_of_ne _ _ hat, Mem.set_of_ne _ _ hat]
        simp [Mem.empty]
    rcases treeCreateRoot_spec cmp al
        { node := Mem.empty.set top TreeNode.blank
          list := ⟨if sorted = true then Mem.empty.set top Links.null else Mem.empty, none, none⟩
          tree := top, count := 0, sorted := sorted, cursor := TreeCursor.unset }
        (n := TreeNode.blank) (Mem.set_self ..) rfl hlive rfl hlists
      with herr | ⟨st, b, hok, hrep, -, hsorted⟩
    · left
      apply herr
    · right
      exact ⟨st, [b], hok, hrep, hsorted⟩

end Vely
