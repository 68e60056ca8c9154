import Vely.Tree.State

/-!
# The calls from outside

What the calls of `tree.c` do on a represented tree, for any cursor they are given: the
searches leave it as it is and move the cursor; an insertion adds an entry and a deletion
removes one, or they leave the entries as they are and report `VV_ERR_EXIST`.  The only thing
that can stop a call is a lack of memory.
-/

namespace Vely

open Std Vely.Tree

variable {K D : Type} {cmp : K → K → Ordering} {al : Allocator (TreeNode K D)}
  {st : TreeState K D} {t : Tree (Entry K D)} {nodes : List Addr}

/-! ### Searches -/

section Searches

theorem root_useKey (st : TreeState K D) (lcurs : TreeCursor K D) (k : K) :
  (st.useKey lcurs k).root = st.root
  := rfl

/-- On a sorted tree, `min` and `max` are the addresses of the extremal entries. -/
theorem Represents.endOf (h : Represents cmp st t nodes) (hsorted : st.sorted = true) (s : Side) :
  st.list.endOf s = (extremal s t.toList).map Entry.addr
  := by
  obtain ⟨hl, -⟩ := h.lists hsorted
  cases s with
  | lesser =>
    rw [LinkedList.endOf, hl.min, addrs, List.head?_map]
    rfl
  | greater =>
    rw [LinkedList.endOf, hl.max, addrs, List.getLast?_map]
    rfl

/-- The search for the extremal key, when the cursor is in use already. -/
theorem treeExtremal_cursor (s : Side) (st : TreeState K D) :
  treeExtremal s st.cursor st
    = if st.sorted then
        if st.count = 0 then .ok (st.setStatus .errExist)
        else .ok { st with cursor :=
          { st.cursor with status := .okay, current := st.list.endOf s } }
      else do
        let cur ← st.root
        if st.count = 0 then .ok (st.setStatus .errExist)
        else return st.moveTo (← treeFarthest st.node s st.bound (← deref cur))
  := rfl

/-- The search for the extremal key comes to the extremal entry. -/
theorem treeExtremal_spec (h : Represents cmp st t nodes) (s : Side) (lcurs : TreeCursor K D) :
  treeExtremal s lcurs st
    = .ok ({ st with cursor := lcurs }.found ((extremal s t.toList).map Entry.addr))
  := by
  suffices hc : ∀ st : TreeState K D, Represents cmp st t nodes → treeExtremal s st.cursor st
      = .ok (st.found ((extremal s t.toList).map Entry.addr)) by
    apply hc { st with cursor := lcurs } (h.withCursor lcurs)
  intro st h
  obtain ⟨a, hroot, -, hne, -⟩ := h.root
  rw [treeExtremal_cursor, hroot, ok_bind]
  by_cases hnil : t = nil
  · have hcount := h.count_eq_zero.mpr hnil
    rw [if_pos hcount, if_pos hcount, ite_self, hnil]
    cases s <;> rfl
  · have hcount : ¬ st.count = 0 := fun hz => hnil (h.count_eq_zero.mp hz)
    have hbound := h.depth_lt_bound
    obtain ⟨e, he, hfar⟩ := treeFarthest_spec s st.bound h.laidTop (hne hnil) (by omega)
    rw [if_neg hcount, if_neg hcount, he, deref_some, ok_bind, hfar, ok_bind]
    by_cases hsorted : st.sorted = true
    · rw [if_pos hsorted, h.endOf hsorted, he]
      rfl
    · rw [if_neg hsorted]
      rfl

variable [TransCmp cmp]

/-- The search for a key comes to the entry of the key. -/
theorem treeSearchF_spec (h : Represents cmp st t nodes) (lcurs : TreeCursor K D) (k : K) :
  treeSearchF cmp lcurs k st
    = .ok ((st.useKey lcurs k).found ((lookup cmp Entry.key k t.toList).map Entry.addr))
  := by
  obtain ⟨a, hroot, hkey, hne, -⟩ := h.root
  have hkey' : hasKey (st.useKey lcurs k).node (some a) = .ok (t.ptr != none) := hkey
  rw [treeSearchF]
  simp only [root_useKey, hroot, ok_bind]
  rw [treeSearch, hkey', ok_bind]
  by_cases hnil : t = nil
  · subst hnil
    rfl
  · rw [hne hnil, if_pos (by rfl), ← hne hnil]
    apply treeSearchLoop_spec (st.useKey lcurs k) rfl h.laidTop h.sortedBy
    have hbound := h.depth_lt_bound
    show t.depth ≤ st.bound
    omega

/-- The search for a neighbour comes to the entry with the nearest key. -/
theorem treeSearchNear_spec (h : Represents cmp st t nodes) (near : Side) (equal : Bool)
    (lcurs : TreeCursor K D) (k : K) {root : Option Addr} (hr : st.root = .ok root) :
  treeSearchNear cmp near (st.useKey lcurs k) root equal
    = .ok ((st.useKey lcurs k).found (((if equal then lookup cmp Entry.key k t.toList else none).or
        (nearest cmp Entry.key near k t.toList)).map Entry.addr))
  := by
  obtain ⟨a, hroot, hkey, hne, -⟩ := h.root
  obtain rfl : some a = root := by simpa [hroot] using hr
  have hkey' : hasKey (st.useKey lcurs k).node (some a) = .ok (t.ptr != none) := hkey
  rw [treeSearchNear, hkey', ok_bind]
  by_cases hnil : t = nil
  · subst hnil
    cases near <;> cases equal <;> rfl
  · rw [hne hnil, if_pos (by rfl), ← hne hnil]
    have hbound := h.depth_lt_bound
    rw [treeNearLoop_spec (st.useKey lcurs k) (k := k) rfl h.laidTop h.sortedBy
      (by show t.depth ≤ st.bound; omega), Option.or_none]

/-- `vv_tree_search_lesser_equal_f` comes to the entry with the nearest lesser key. -/
theorem treeSearchLesserEqualF_spec (h : Represents cmp st t nodes) (equal : Bool)
    (lcurs : TreeCursor K D) (k : K) :
  treeSearchLesserEqualF cmp lcurs equal k st
    = .ok ((st.useKey lcurs k).found (((if equal then lookup cmp Entry.key k t.toList else none).or
        (lower cmp Entry.key k t.toList)).map Entry.addr))
  := by
  obtain ⟨a, hroot, -⟩ := h.root
  rw [treeSearchLesserEqualF]
  simp only [root_useKey, hroot, ok_bind]
  apply treeSearchNear_spec h .lesser equal lcurs k hroot

/-- `vv_tree_search_greater_equal_f` comes to the entry with the nearest greater key. -/
theorem treeSearchGreaterEqualF_spec (h : Represents cmp st t nodes) (equal : Bool)
    (lcurs : TreeCursor K D) (k : K) :
  treeSearchGreaterEqualF cmp lcurs equal k st
    = .ok ((st.useKey lcurs k).found (((if equal then lookup cmp Entry.key k t.toList else none).or
        (upper cmp Entry.key k t.toList)).map Entry.addr))
  := by
  obtain ⟨a, hroot, -⟩ := h.root
  rw [treeSearchGreaterEqualF]
  simp only [root_useKey, hroot, ok_bind]
  apply treeSearchNear_spec h .greater equal lcurs k hroot

end Searches

/-! ### Insertion -/

section Insertion

variable (al) in
/-- The first insertion into an empty tree fills the root without a key. -/
theorem treeInsertF_empty (h : Represents cmp st nil nodes) (lcurs : TreeCursor K D) (k : K)
    (data : D) :
  ∃ st' a, treeInsertF cmp al lcurs k data st = .ok st'
    ∧ Represents cmp st' (node nil ⟨a, k, data⟩ nil) [a]
    ∧ st'.cursor = { lcurs with key := some k, current := some a, status := .okay }
    ∧ st'.sorted = st.sorted
  := by
  obtain ⟨n, a, hn, hna, hta, hblank, hnodes⟩ := h.rooted
  obtain ⟨n', hn', hg⟩ := h.dummy
  obtain rfl : n = n' := by simpa [hn] using hn'
  have hlists := h.lists
  obtain ⟨list, hfill, hl, hsame, hlinks⟩ := treeFill_spec (st.useKey lcurs k) data [] [] hblank
    rfl (by
      intro hsorted
      obtain ⟨-, -, -, hnull⟩ := hlists hsorted
      refine ⟨⟨?_, trivial⟩, by simp, by simp⟩
      apply hnull rfl a
      simp [hnodes])
  refine ⟨{ st.useKey lcurs k with
    node := st.node.set a (cell .lesser ⟨a, k, data⟩ none none 1)
    list, count := st.count + 1 }.moveTo a, a, ?_, ⟨?_, ?_, ?_, ?_, ?_, ?_, ?_⟩, rfl, rfl⟩
  · rw [treeInsertF, root_useKey, TreeState.root, Mem.read_of hn]
    simp only [ok_bind, pure_eq_ok, hna, deref_some]
    have hread : (st.useKey lcurs k).node.read a = .ok TreeNode.blank := Mem.read_of hblank
    rw [TreeState.bound, treeInsert, hread, ok_bind]
    simp only [TreeNode.keyPresent_blank, if_true]
    apply hfill
  · refine ⟨n, ?_, hg⟩
    apply (Mem.set_of_ne _ _ hta).trans hn
  · refine ⟨⟨⟨n, ?_, hna, ?_⟩, ?_, ?_⟩, ⟨⟨1, Mem.set_self ..⟩, trivial, trivial⟩, rfl⟩
    · apply (Mem.set_of_ne _ _ hta).trans hn
    · intro b hb
      rw [Side.flip, TreeNode.child, hg] at hb
      cases hb
    · show st.tree ∉ _
      simpa [addrs_node, addrs_nil] using hta
    · simp [addrs_node, addrs_nil]
  · intro b
    show (st.node.set a _) b ≠ none ↔ b = st.tree ∨ b ∈ [a]
    have hlive := h.live b
    rw [hnodes] at hlive
    by_cases hba : b = a
    · simp [hba]
    · rw [Mem.set_of_ne _ _ hba, hlive]
  · simp [Tree.Balanced]
  · exact List.pairwise_singleton ..
  · show st.count + 1 = _
    rw [h.count]
    rfl
  · intro hsorted
    obtain ⟨-, hsame', htop, -⟩ := hlists hsorted
    refine ⟨hl hsorted, ?_, ?_, by simp⟩
    · intro b
      show list.links b = none ↔ (st.node.set a _) b = none
      rw [hlinks]
      by_cases hba : b = a
      · subst hba
        simp [TreeState.useKey, hsame' b, hblank]
      · rw [Mem.set_of_ne _ _ hba]
        apply hsame' b
    · show list.links st.tree = _
      rw [hlinks]
      apply htop

variable [TransCmp cmp]

variable (al) in
/-- Inserting a key that is present changes no entry and reports `VV_ERR_EXIST`. -/
theorem treeInsertF_present (h : Represents cmp st t nodes) (lcurs : TreeCursor K D) {k : K}
    (data : D) (hp : lookup cmp Entry.key k t.toList ≠ none) :
  ∃ st', treeInsertF cmp al lcurs k data st = .ok st' ∧ Represents cmp st' t nodes
    ∧ st'.cursor = { lcurs with key := some k, status := .errExist } ∧ st'.sorted = st.sorted
  := by
  have hne : t ≠ nil := by
    rintro rfl
    apply hp rfl
  obtain ⟨a, hroot, -, hptr, -⟩ := h.root
  obtain ⟨hu, ht, -⟩ := (rooted_of_ne_nil hne).mp h.rooted
  have hbound := h.depth_lt_bound
  obtain ⟨m, hm, hs⟩ := treeInsert_present al (st.useKey lcurs k) data st.bound rfl hu ht h.balanced
    h.sortedBy (depth_le_of_nodup h.balanced h.nodup) (by omega) (hptr hne) hp
  refine ⟨_, ?_, h.ofSame hne hs _, rfl, rfl⟩
  rw [treeInsertF, root_useKey, hroot]
  apply hm

variable (al) in
/-- Inserting an absent key adds the entry and puts the cursor on it, unless there is no memory
for the new node. -/
theorem treeInsertF_absent (h : Represents cmp st t nodes) (lcurs : TreeCursor K D) {k : K}
    (data : D) (habsent : lookup cmp Entry.key k t.toList = none) :
  treeInsertF cmp al lcurs k data st = .error .outOfMemory
    ∨ ∃ st' a, treeInsertF cmp al lcurs k data st = .ok st' ∧ a ∉ t.addrs
      ∧ Represents cmp st' (Tree.insert cmp Entry.key ⟨a, k, data⟩ t)
        (Tree.insert cmp Entry.key ⟨a, k, data⟩ t).addrs
      ∧ st'.cursor = { lcurs with key := some k, current := some a, status := .okay }
      ∧ st'.sorted = st.sorted
  := by
  by_cases hne : t = nil
  · subst hne
    right
    obtain ⟨st', a, hok, hrep, hcursor, hsorted⟩ := treeInsertF_empty al h lcurs k data
    exact ⟨st', a, hok, by simp [addrs_nil], hrep, hcursor, hsorted⟩
  obtain ⟨b, hroot, -, hptr, -⟩ := h.root
  obtain ⟨hu, ht, hnodes⟩ := (rooted_of_ne_nil hne).mp h.rooted
  have hbound := h.depth_lt_bound
  have hroot' : ∀ r, treeInsert cmp al st.bound (st.useKey lcurs k) st.tree .lesser b data = r →
      treeInsertF cmp al lcurs k data st = r := by
    intro r hr
    rw [treeInsertF, root_useKey, hroot]
    apply hr
  cases ha : al.choose st.node with
  | none =>
    left
    apply hroot'
    apply treeInsert_full (st.useKey lcurs k) data st.bound rfl ht h.sortedBy (by omega) (hptr hne)
      habsent ha
  | some a =>
    right
    have hfree : st.node a = none := al.fresh ha
    have hta : st.tree ≠ a := by
      obtain ⟨n, hn, -⟩ := h.dummy
      rintro rfl
      simp [hn] at hfree
    obtain ⟨st', hok, hslot, hins⟩ := treeInsert_absent (st.useKey lcurs k) data st.bound [] []
      rfl hu ht h.balanced h.sortedBy
      (depth_le_of_nodup h.balanced h.nodup) hbound (hptr hne) habsent ha
      (by
        intro hs
        rw [List.nil_append, List.append_nil]
        apply (h.lists hs).1) (by simpa using h.nodup) (by simp)
    rw [List.nil_append, List.append_nil] at hins
    have hperm := addrs_insert_perm (n := ⟨a, k, data⟩) h.sortedBy habsent
    have hat : a ∉ t.addrs := fun hmem => ht.live hmem hfree
    obtain ⟨hb, hdepth, -⟩ := balanced_insert cmp Entry.key ⟨a, k, data⟩ h.balanced
    have hsorted' : st'.sorted = st.sorted := by rw [hins.state]; rfl
    refine ⟨st', a, hroot' _ hok, hat, ?_, by rw [hins.state]; rfl, hsorted'⟩
    have hnot : st.tree ∉ (Tree.insert cmp Entry.key ⟨a, k, data⟩ t).addrs := by
      rw [hperm.mem_iff, List.mem_cons, not_or]
      exact ⟨hta, hu.notMem⟩
    have hpos := depth_pos hne
    apply h.ofSlot st' hne (ne_nil_of_depth (by omega)) (by rw [hins.state]; rfl) hslot _
      (hperm.nodup_iff.mpr (List.nodup_cons.mpr ⟨hat, hu.nodup⟩)) hb _ _
    · intro hs
      rw [hsorted'] at hs
      obtain ⟨hl, hsame, htop, -⟩ := h.lists hs
      obtain ⟨hl', hlive', hframe'⟩ := hins.lists hs
      obtain ⟨n, hn, -⟩ := h.dummy
      refine ⟨hl', ?_, ?_⟩
      · intro c
        have hnode := hslot.live ⟨n, hn⟩ (by rw [← hnodes]; apply h.live) c
        rw [hperm.mem_iff, List.mem_cons] at hnode
        rw [hlive' c, ← not_iff_not, ← ne_eq (st'.node c), hnode]
        by_cases hca : c = a
        · simp [hca]
        · have hlinks : (Mem.set (st.useKey lcurs k).list.links a Links.null) c
              = st.list.links c := Mem.set_of_ne _ _ hca
          rw [hlinks, hsame c, ← ne_eq, h.live c, hnodes]
          simp [hca]
      · rw [hframe' st.tree hnot hta]
        apply (Mem.set_of_ne _ _ hta).trans htop
    · intro c hc
      rcases List.mem_cons.mp (hperm.mem_iff.mp hc) with rfl | hc
      · right
        apply hfree
      · left
        apply hc
    · rw [toList_insert h.sortedBy habsent]
      apply h.sortedBy.place
    · have hlen := hperm.length_eq
      simp only [addrs, List.length_map, List.length_cons] at hlen
      rw [hins.state, hlen]
      show st.count + 1 = _
      rw [h.count]
      rfl

end Insertion

/-! ### Deletion -/

section Deletion

variable [TransCmp cmp] (al) (lcurs : TreeCursor K D) {k : K}

/-- Deleting an absent key changes no entry and reports `VV_ERR_EXIST`. -/
theorem treeDeleteF_absent (h : Represents cmp st t nodes)
    (habsent : lookup cmp Entry.key k t.toList = none) :
  ∃ st', treeDeleteF cmp al lcurs k st = .ok st' ∧ Represents cmp st' t nodes
    ∧ st'.cursor = { lcurs with key := some k, status := .errExist } ∧ st'.sorted = st.sorted
  := by
  obtain ⟨b, hroot, hkey, hptr, -⟩ := h.root
  have hkey' : hasKey (st.useKey lcurs k).node (some b) = .ok (t.ptr != none) := hkey
  by_cases hne : t = nil
  · subst hne
    refine ⟨(st.useKey lcurs k).setStatus .errExist, ?_, h.withCursor _, rfl, rfl⟩
    rw [treeDeleteF]
    simp only [root_useKey, hroot, ok_bind, hkey']
    rfl
  · obtain ⟨hu, ht, -⟩ := (rooted_of_ne_nil hne).mp h.rooted
    have hbound := h.depth_lt_bound
    obtain ⟨m, hm, hs⟩ := treeDelete_absent (st.useKey lcurs k) st.bound rfl hu
      ht h.balanced h.sortedBy (depth_le_of_nodup h.balanced h.nodup) (by omega) (hptr hne)
      habsent
    have hrep := h.ofSame hne hs { lcurs with key := some k, status := .errExist }
    obtain ⟨b', hroot', -⟩ := hrep.root
    have hdelete : treeDelete cmp (st.useKey lcurs k).bound (st.useKey lcurs k)
        (st.useKey lcurs k).tree .lesser b
        = .ok { st with
          node := m, cursor := { lcurs with key := some k, status := .errExist } } := hm
    refine ⟨_, ?_, hrep, rfl, rfl⟩
    rw [treeDeleteF]
    simp only [root_useKey, hroot, ok_bind, hkey', hptr hne, deref_some, hdelete, hroot']
    rfl

omit al in
/-- What is left in memory after the key of `f` is deleted from a tree that is not empty. -/
theorem treeDelete_represents {f : Entry K D} (h : Represents cmp st t nodes) {b : Addr}
    (hptr : t.ptr = some b) (hpresent : lookup cmp Entry.key k t.toList = some f) :
  ∃ st' a, treeDelete cmp st.bound (st.useKey lcurs k) st.tree .lesser b = .ok st'
    ∧ taken cmp Entry.key k t = some a
    ∧ Slot st.node st'.node st.tree .lesser t (erase cmp Entry.key Entry.move k t)
    ∧ st'.tree = st.tree ∧ st'.sorted = st.sorted ∧ st'.count = st.count - 1
    ∧ st'.cursor = { lcurs with
      key := some k, status := .okay, res := some f.data, rkey := some f.key }
    ∧ (st'.sorted = true → st'.list.Lists (erase cmp Entry.key Entry.move k t).addrs
      ∧ SameLive st'.node st'.list.links ∧ st'.list.links st.tree = some Links.null)
  := by
  have hne : t ≠ nil := by
    rintro rfl
    cases hptr
  obtain ⟨hu, ht, hnodes⟩ := (rooted_of_ne_nil hne).mp h.rooted
  have hbound := h.depth_lt_bound
  obtain ⟨n, hn, -⟩ := h.dummy
  obtain ⟨st', a, hok, htaken, hslot, hdel⟩ := treeDelete_present (st.useKey lcurs k) st.bound
    [] [] rfl hu ht h.balanced h.sortedBy
    (depth_le_of_nodup h.balanced h.nodup) (by omega) hptr hpresent
    (by
      intro hs
      rw [List.nil_append, List.append_nil]
      apply (h.lists hs).1) (by simpa using h.nodup)
  rw [List.nil_append, List.append_nil] at hdel
  obtain ⟨a', htaken', hperm, hsub⟩ := addrs_erase h.sortedBy hpresent
  obtain rfl : a = a' := by simpa [htaken] using htaken'
  have hsorted' : st'.sorted = st.sorted := by rw [hdel.state]; rfl
  refine ⟨st', a, hok, htaken, hslot, by rw [hdel.state]; rfl, hsorted', by rw [hdel.state]; rfl,
    by rw [hdel.state]; rfl, ?_⟩
  intro hs
  rw [hsorted'] at hs
  obtain ⟨hl, hsame, htop, -⟩ := h.lists hs
  obtain ⟨hl', hlive', hframe'⟩ := hdel.lists hs
  have hnd := hperm.nodup_iff.mp h.nodup
  have hta : st.tree ≠ a.addr := by
    rintro heq
    apply hu.notMem
    rw [heq, hperm.mem_iff]
    simp
  refine ⟨hl', ?_, ?_⟩
  · intro c
    have hnode := hslot.live ⟨n, hn⟩ (by rw [← hnodes]; apply h.live) c
    rw [hlive' c, ← not_iff_not, ← ne_eq (st'.node c), hnode]
    by_cases hca : c = a.addr
    · rw [hca]
      simp [(List.nodup_cons.mp hnd).1, Ne.symm hta]
    · have hlinks : (Mem.erase (st.useKey lcurs k).list.links a.addr) c = st.list.links c :=
        Mem.erase_of_ne _ hca
      rw [hlinks, hsame c, ← ne_eq, h.live c, hnodes, hperm.mem_iff, List.mem_cons]
      simp [hca]
  · rw [hframe' st.tree (fun hmem => hu.notMem (hsub.subset hmem)) hta]
    apply (Mem.erase_of_ne _ hta).trans htop

omit [TransCmp cmp] in
/-- A deletion of a present key goes down the tree, and then sees to the root. -/
theorem treeDeleteF_eq {st1 : TreeState K D} {b : Addr}
    (h : Represents cmp st t nodes) (hptr : t.ptr = some b)
    (hdelete : treeDelete cmp st.bound (st.useKey lcurs k) st.tree .lesser b = .ok st1) :
  treeDeleteF cmp al lcurs k st
    = (do if (← st1.root) = none then treeCreateRoot al st1 else return st1)
  := by
  obtain ⟨b', hroot, hkey, hptr', -⟩ := h.root
  have hne : t ≠ nil := by
    rintro rfl
    cases hptr
  obtain rfl : b = b' := Option.some.inj (hptr.symm.trans (hptr' hne))
  have hkey' : hasKey (st.useKey lcurs k).node (some b) = .ok (t.ptr != none) := hkey
  have hdelete' : treeDelete cmp (st.useKey lcurs k).bound (st.useKey lcurs k)
      (st.useKey lcurs k).tree .lesser b = .ok st1 := hdelete
  rw [treeDeleteF]
  simp only [root_useKey, hroot, ok_bind, hkey', hptr, deref_some, hdelete']
  rfl

/-- Deleting a key that is not the last removes its entry and hands its key and data back. -/
theorem treeDeleteF_remaining {f : Entry K D} (h : Represents cmp st t nodes)
    (hpresent : lookup cmp Entry.key k t.toList = some f)
    (hmore : erase cmp Entry.key Entry.move k t ≠ nil) :
  ∃ st', treeDeleteF cmp al lcurs k st = .ok st'
    ∧ Represents cmp st' (erase cmp Entry.key Entry.move k t)
      (erase cmp Entry.key Entry.move k t).addrs
    ∧ st'.cursor = { lcurs with
      key := some k, status := .okay, res := some f.data, rkey := some f.key }
    ∧ st'.sorted = st.sorted ∧ st'.tree = st.tree
  := by
  have hne : t ≠ nil := by
    rintro rfl
    cases hpresent
  obtain ⟨b, -, -, hptr, -⟩ := h.root
  obtain ⟨st1, a, hok, htaken, hslot, htree, hsorted, hcount, hcursor, hlists⟩ :=
    treeDelete_represents lcurs h (hptr hne) hpresent
  obtain ⟨a', -, hperm, hsub⟩ := addrs_erase h.sortedBy hpresent
  have hlen := hperm.length_eq
  simp only [addrs, List.length_map, List.length_cons] at hlen
  have hrep : Represents cmp st1 (erase cmp Entry.key Entry.move k t)
      (erase cmp Entry.key Entry.move k t).addrs := by
    apply h.ofSlot st1 hne hmore htree hslot (fun c hc => Or.inl (hsub.subset hc))
      (hsub.nodup h.nodup) (balanced_erase cmp Entry.key Entry.move k h.balanced).1 _ _ hlists
    · have hmap := map_toList_erase Entry.move Entry.key (fun _ _ => rfl)
        h.sortedBy hpresent
      have hremove := h.sortedBy.filter (fun e => cmp k e.key != .eq)
      rw [SortedBy, ← List.pairwise_map (f := Entry.key) (R := fun x y => cmp x y = .lt)]
        at hremove ⊢
      rw [hmap]
      apply hremove
    · rw [hcount, h.count, hlen]
      omega
  obtain ⟨b1, hroot1, -⟩ := hrep.root
  refine ⟨st1, ?_, hrep, hcursor, hsorted, htree⟩
  rw [treeDeleteF_eq al lcurs h (hptr hne) hok, hroot1, ok_bind]
  rfl

/-- Deleting a key that is present removes its entry and hands its key and data back, unless the
tree is empty then and there is no memory for the root without a key. -/
theorem treeDeleteF_present {f : Entry K D} (h : Represents cmp st t nodes)
    (hpresent : lookup cmp Entry.key k t.toList = some f) :
  treeDeleteF cmp al lcurs k st = .error .outOfMemory
    ∨ ∃ st' nodes', treeDeleteF cmp al lcurs k st = .ok st'
      ∧ Represents cmp st' (erase cmp Entry.key Entry.move k t) nodes'
      ∧ st'.cursor = { lcurs with
        key := some k, status := .okay, res := some f.data, rkey := some f.key }
      ∧ st'.sorted = st.sorted
  := by
  by_cases hmore : erase cmp Entry.key Entry.move k t ≠ nil
  · right
    obtain ⟨st', hok, hrep, hcursor, hsorted, -⟩ := treeDeleteF_remaining al lcurs h
      hpresent hmore
    exact ⟨st', _, hok, hrep, hcursor, hsorted⟩
  have hempty := not_not.mp hmore
  have hne : t ≠ nil := by
    rintro rfl
    cases hpresent
  obtain ⟨b, -, -, hptr, -⟩ := h.root
  obtain ⟨n, hn, hg⟩ := h.dummy
  obtain ⟨-, -, hnodes⟩ := (rooted_of_ne_nil hne).mp h.rooted
  obtain ⟨st1, a, hok, htaken, hslot, htree, hsorted, hcount, hcursor, hlists⟩ :=
    treeDelete_represents lcurs h (hptr hne) hpresent
  obtain ⟨a', -, hperm, -⟩ := addrs_erase h.sortedBy hpresent
  have hlen := hperm.length_eq
  simp only [addrs, List.length_map, List.length_cons] at hlen
  obtain ⟨h1, hn1⟩ := hslot.parent n hn
  rw [treeDeleteF_eq al lcurs h (hptr hne) hok]
  rw [hempty] at hlists hslot hn1 hlen ⊢
  have hroot1 : st1.root = .ok none := by
    rw [TreeState.root, htree, Mem.read_of hn1]
    rfl
  rw [toList_nil, List.length_nil] at hlen
  simp only [hroot1, ok_bind, if_true]
  have hlive := hslot.live ⟨n, hn⟩ (by rw [← hnodes]; apply h.live)
  rcases treeCreateRoot_spec cmp al st1
    (n := { n with height := h1 }.setChild .lesser none) (by rw [htree]; exact hn1) hg
    (by
      intro c
      rw [hlive c, htree]
      simp [addrs_nil]) (by rw [hcount, h.count, hlen]; rfl)
    (by
      rw [htree]
      exact hlists) with herr | ⟨st', b', hok', hrep, hcursor', hsorted'⟩
  · left
    apply herr
  · right
    exact ⟨st', [b'], hok', hrep, hcursor'.trans hcursor, hsorted'.trans hsorted⟩

end Deletion

end Vely
