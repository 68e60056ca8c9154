import Vely.Tree.Balance

/-!
# Deletion in memory

A deletion descends to the node of the key.  When the node has no greater child, its lesser
child takes its place and the node is freed.  Otherwise the node is given the key and the data
of the first node of its greater subtree, and it is that node which is freed; in the sorted
list the node then stands where the freed one stood.  On the way back the tree is balanced:
the slot the descent started from then holds the tree without the key.
-/

namespace Vely

open Std Vely.Tree

variable {K D : Type} {cmp : K → K → Ordering}

/-- The node `a` with the key and the data of `b`. -/
def Entry.move (a b : Entry K D) : Entry K D := { a with key := b.key, data := b.data }

@[simp]
theorem Entry.addr_move (a b : Entry K D) :
  (a.move b).addr = a.addr
  := rfl

/-! ### Freeing a node -/

/-- The state after the node at `a` is taken out, `xs` being the addresses then in order: the
nodes aside, what the source does to the memory. -/
structure Removed (st st' : TreeState K D) (a : Addr) (xs : List Addr) : Prop where
  state : st' = { st with node := st'.node, list := st'.list }
  lists : st.sorted = true → LinkedList.Relinked (st.list.links.erase a) st'.list a xs
  unsorted : st.sorted = false → st'.list = st.list

/-- Changing the nodes again changes nothing else. -/
theorem Removed.withNode {st st' : TreeState K D} {a : Addr} {xs : List Addr}
    (h : Removed st st' a xs) (m : Mem (TreeNode K D)) :
  Removed st { st' with node := m } a xs
  := by
  refine ⟨?_, h.lists, h.unsorted⟩
  rw [h.state]

section Free

variable {m m' : Mem (TreeNode K D)} {p : Addr} {s dir : Side} {e : Entry K D}
  {y : Tree (Entry K D)} {st : TreeState K D} {xs : List Addr}

/-- A node that has left the sorted list can be freed. -/
theorem treeNodeDelete_spec {a : Addr} {n : TreeNode K D} {list : LinkedList}
    (ha : m a = some n) (hax : a ∉ xs)
    (hlist : st.sorted = true → LinkedList.Relinked st.list.links list a xs
      ∧ ∃ c, st.list.links a = some c)
    (hunsorted : st.sorted = false → list = st.list) :
  ∃ st', treeNodeDelete { st with node := m, list } a = .ok st' ∧ st'.node = m.erase a
    ∧ Removed st st' a xs
  := by
  rw [treeNodeDelete, Mem.free_of ha, ok_bind]
  cases hsorted : st.sorted with
  | false =>
    refine ⟨_, rfl, rfl, ?_, ?_, ?_⟩
    · cases st
      cases hsorted
      rfl
    · intro h
      simp [hsorted] at h
    · intro _
      apply hunsorted hsorted
  | true =>
    obtain ⟨⟨hl, hlive, hframe⟩, hlinks⟩ := hlist hsorted
    obtain ⟨c, hc⟩ : ∃ c, list.links a = some c := by
      apply Option.ne_none_iff_exists'.mp
      obtain ⟨c, hc⟩ := hlinks
      simp [hlive a, hc]
    simp only [if_true, Mem.free_of hc, ok_bind, pure_eq_ok]
    refine ⟨_, rfl, rfl, ?_, ?_, ?_⟩
    · cases st
      cases hsorted
      rfl
    · intro _
      refine ⟨⟨?_, hl.min, hl.max⟩, hlive.erase a, ?_⟩
      · apply hl.linked.frame
        intro b hb
        apply Mem.erase_of_ne
        rintro rfl
        apply hax hb
      · intro b hb hba
        show (list.links.erase a) b = _
        rw [Mem.erase_of_ne _ hba, Mem.erase_of_ne _ hba, hframe b hb hba]
    · intro h
      simp [hsorted] at h

/-- When the root has no child on the side `s`, its other child takes its place and the root is
freed. -/
theorem slot_freed {np : TreeNode K D} (hp : m p = some np)
    (hu : Under m p dir (join s nil e y)) (ht : LaidTop m (join s nil e y)) :
  Slot m ((m.set p (np.setChild dir y.ptr)).erase e.addr) p dir (join s nil e y) y
  := by
  obtain ⟨-, hpt, hnd⟩ := hu
  obtain ⟨-, -, hy⟩ := laidTop_join.mp ht
  obtain ⟨-, -, -, hey, -⟩ := nodup_addrs_join.mp hnd
  simp only [mem_addrs_join, addrs_nil, List.not_mem_nil, false_or, not_or] at hpt
  have hframe : ∀ a, a ≠ p → a ≠ e.addr →
      ((m.set p (np.setChild dir y.ptr)).erase e.addr) a = m a := by
    intro a hap hae
    rw [Mem.erase_of_ne _ hae, Mem.set_of_ne _ _ hap]
  refine ⟨?_, ?_, ?_⟩
  · apply (hy.frame _).top
    intro a ha
    apply hframe
    · rintro rfl
      apply hpt.2 ha
    · rintro rfl
      apply hey ha
  · intro n hn
    obtain rfl : np = n := by simpa [hp] using hn
    use np.height
    rw [Mem.erase_of_ne _ hpt.1, Mem.set_self]
  · intro a hap ha
    by_cases hae : a = e.addr
    · subst hae
      simp [mem_addrs_join]
    · rw [if_neg (by simp [mem_addrs_join, addrs_nil, hae, ha]), hframe a hap hae]

end Free

/-! ### The first node of a subtree -/

section FindLeaf

variable {st : TreeState K D} {m0 : Mem (TreeNode K D)} {parent fa : Addr} {dir : Side}
  {n0 : TreeNode K D} {e : Entry K D} {l r : Tree (Entry K D)} {pre post : List Addr}

/-- The first node without a lesser child: its key and data go to `found`, its place in the
list too, its greater child goes to its place in the tree, and it is freed. -/
theorem treeFindLeafDel_leaf {bound : Nat} (hf : st.node fa = some n0)
    (hm0 : m0 = st.node.set fa { n0 with key := some e.key, data := some e.data })
    (hu : Under m0 parent dir (node nil e r)) (ht : LaidTop m0 (node nil e r))
    (hfa : fa ∉ (node nil e r).addrs)
    (hlist : st.sorted = true → st.list.Lists (pre ++ fa :: e.addr :: (r.addrs ++ post)))
    (hnd : (pre ++ fa :: e.addr :: (r.addrs ++ post)).Nodup) :
  ∃ st', treeFindLeafDel (bound + 1) st parent dir e.addr fa = .ok st'
    ∧ Slot m0 st'.node parent dir (node nil e r) r
    ∧ Removed st st' e.addr (pre ++ fa :: (r.addrs ++ post))
  := by
  obtain ⟨⟨h, he⟩, -, hr⟩ := id ht
  obtain ⟨⟨np, hp, -⟩, hpt, -⟩ := id hu
  have hfe : e.addr ≠ fa := by
    rintro rfl
    simp [addrs_node] at hfa
  have hpe : e.addr ≠ parent := by
    rintro rfl
    simp [addrs_node] at hpt
  have hst : st.node e.addr = some (cell .lesser e none r.ptr h) := by
    rw [hm0, Mem.set_of_ne _ _ hfe] at he
    apply he
  have hfree : (m0.set parent (np.setChild dir r.ptr)) e.addr
      = some (cell .lesser e none r.ptr h) := by
    rw [Mem.set_of_ne _ _ hpe]
    apply he
  have hnot : e.addr ∉ pre ++ fa :: (r.addrs ++ post) := by
    rw [← List.singleton_append, ← List.append_assoc] at hnd ⊢
    apply (List.nodup_cons.mp (List.nodup_middle.mp hnd)).1
  obtain ⟨list, hlist', hlists, hsame⟩ : ∃ list,
      (st.sorted = true → ∃ l1, st.list.unlink fa = .ok l1 ∧ l1.replace fa e.addr = .ok list)
      ∧ (st.sorted = true →
        LinkedList.Relinked st.list.links list e.addr (pre ++ fa :: (r.addrs ++ post))
        ∧ ∃ c, st.list.links e.addr = some c)
      ∧ (st.sorted = false → list = st.list) := by
    cases hsorted : st.sorted with
    | false => exact ⟨st.list, by simp, by simp, by simp⟩
    | true =>
      obtain ⟨l1, l2, hl1, hl2, hlists⟩ := LinkedList.takeOver_spec (hlist hsorted) hnd
      refine ⟨l2, fun _ => ⟨l1, hl1, hl2⟩, fun _ => ⟨hlists, ?_⟩, by simp⟩
      apply (hlist hsorted).linked.live
      simp
  obtain ⟨st', hdelete, hnode, hremoved⟩ := treeNodeDelete_spec hfree hnot hlists hsame
  refine ⟨st', ?_, ?_, hremoved⟩
  · rw [treeFindLeafDel, Mem.read_of hst, ok_bind]
    simp only [cell, Mem.modify_of hf, ← hm0, setParent, Mem.modify_of hp, ok_bind]
    cases hsorted : st.sorted with
    | false =>
      rw [hsame hsorted] at hdelete
      rw [if_neg (by simp), ← hsorted]
      apply hdelete
    | true =>
      obtain ⟨l1, hl1, hl2⟩ := hlist' hsorted
      rw [if_pos rfl, hl1, ok_bind, hl2, ok_bind, ← hsorted]
      apply hdelete
  · rw [hnode]
    apply slot_freed (s := .lesser) hp hu ht

/-- The addresses without the first node. -/
theorem addrs_dropFirst (l : Tree (Entry K D)) (e : Entry K D) (r : Tree (Entry K D)) :
  (node l e r).addrs = (first l e).addr :: (dropFirst l e r).addrs
  := by
  rw [addrs, ← toList_dropFirst]
  rfl

/-- The descent to the first node of a subtree takes it out, after its key and data went to
`found`. -/
theorem treeFindLeafDel_spec {bound : Nat} (hf : st.node fa = some n0)
    (hm0 : m0 = st.node.set fa
      { n0 with key := some (first l e).key, data := some (first l e).data })
    (hu : Under m0 parent dir (node l e r)) (ht : LaidTop m0 (node l e r))
    (hfa : fa ∉ (node l e r).addrs) (hb : (node l e r).Balanced)
    (hd : (node l e r).depth ≤ 110) (hbound : (node l e r).depth ≤ bound)
    (hlist : st.sorted = true → st.list.Lists (pre ++ fa :: ((node l e r).addrs ++ post)))
    (hnd : (pre ++ fa :: ((node l e r).addrs ++ post)).Nodup) :
  ∃ st', treeFindLeafDel bound st parent dir e.addr fa = .ok st'
    ∧ Slot m0 st'.node parent dir (node l e r) (dropFirst l e r)
    ∧ Removed st st' (first l e).addr (pre ++ fa :: ((dropFirst l e r).addrs ++ post))
  := by
  obtain ⟨bound, rfl⟩ : ∃ b, bound = b + 1 :=
    Nat.exists_eq_add_one_of_ne_zero (by rw [depth_node] at hbound; omega)
  induction l generalizing e r parent dir bound post with
  | nil => apply treeFindLeafDel_leaf hf hm0 hu ht hfa hlist hnd
  | node ll f lr ihl ihr =>
    obtain ⟨⟨h, he⟩, hl, hr⟩ := id ht
    obtain ⟨hlr, hrl, hbl, hbr⟩ := id hb
    simp only [addrs_node (node ll f lr)] at hlist hnd hfa
    have hst : st.node e.addr = some (cell .lesser e (some f.addr) r.ptr h) := by
      rw [hm0, Mem.set_of_ne _ _ (by rintro heq; simp [heq] at hfa)] at he
      apply he
    have hux := Under.ofJoin (s := .lesser) ht hu.nodup
    rw [depth_node (node ll f lr)] at hd hbound
    obtain ⟨bound, rfl⟩ : ∃ b, bound = b + 1 :=
      Nat.exists_eq_add_one_of_ne_zero (by rw [depth_node] at hbound; omega)
    have hfa' : fa ∉ (node ll f lr).addrs := by
      intro hmem
      apply hfa
      simp [hmem]
    have hlist' : st.sorted = true →
        st.list.Lists (pre ++ fa :: ((node ll f lr).addrs ++ (e.addr :: r.addrs ++ post))) := by
      simpa using hlist
    have hnd' : (pre ++ fa :: ((node ll f lr).addrs ++ (e.addr :: r.addrs ++ post))).Nodup := by
      simpa using hnd
    obtain ⟨st1, hst1, hslot1, hrem1⟩ := ihl hm0 hux hl.top hfa' hbl (by omega) hlist' hnd' bound
      (by omega)
    obtain ⟨hbal, hd1, hd2⟩ := balanced_dropFirst hbl
    have hdrop := addrs_dropFirst ll f lr
    have hndx : (dropFirst ll f lr).addrs.Nodup := by
      have h := hux.nodup
      rw [hdrop] at h
      apply (List.nodup_cons.mp h).2
    obtain ⟨m2, m3, hm2, hm3, hslot⟩ := rebalance_spec hslot1 hu ht (by
      intro a ha
      left
      rw [hdrop]
      simp [ha]) hndx hbal (by omega) (by omega) (by omega)
    refine ⟨{ st1 with node := m3 }, ?_, hslot, ?_⟩
    · rw [treeFindLeafDel, Mem.read_of hst, ok_bind]
      simp only [cell, hst1, ok_bind, hm2, hm3, pure_eq_ok]
    · rw [dropFirst, addrs_balance, addrs_node]
      simpa [first] using hrem1.withNode m3

/-- A node without a greater child is taken out itself. -/
theorem treeTakeOut_leaf {bound : Nat} {h : BitVec 7}
    (he : st.node e.addr = some (cell .lesser e l.ptr none h))
    (hu : Under st.node parent dir (node l e nil)) (ht : LaidTop st.node (node l e nil))
    (hlist : st.sorted = true → st.list.Lists (pre ++ ((node l e nil).addrs ++ post)))
    (hnd : (pre ++ ((node l e nil).addrs ++ post)).Nodup) :
  ∃ st', treeTakeOut bound st parent dir e.addr (cell .lesser e l.ptr none h) = .ok st'
    ∧ Slot st.node st'.node parent dir (node l e nil) l
    ∧ Removed st st' e.addr (pre ++ (l.addrs ++ post))
  := by
  obtain ⟨⟨np, hp, -⟩, hpt, -⟩ := id hu
  have hpe : e.addr ≠ parent := by
    rintro rfl
    simp [addrs_node] at hpt
  have hfree : (st.node.set parent (np.setChild dir l.ptr)) e.addr
      = some (cell .lesser e l.ptr none h) := by
    rw [Mem.set_of_ne _ _ hpe, he]
  have hsplit : pre ++ ((node l e nil).addrs ++ post) = (pre ++ l.addrs) ++ e.addr :: post := by
    simp [addrs_node, addrs_nil]
  rw [hsplit] at hlist hnd
  have hnot : e.addr ∉ pre ++ (l.addrs ++ post) := by
    rw [← List.append_assoc]
    apply (List.nodup_cons.mp (List.nodup_middle.mp hnd)).1
  obtain ⟨list, hunlink, hlists, hsame⟩ : ∃ list,
      (st.sorted = true → st.list.unlink e.addr = .ok list)
      ∧ (st.sorted = true →
        LinkedList.Relinked st.list.links list e.addr (pre ++ (l.addrs ++ post))
        ∧ ∃ c, st.list.links e.addr = some c)
      ∧ (st.sorted = false → list = st.list) := by
    cases hsorted : st.sorted with
    | false => exact ⟨st.list, by simp, by simp, by simp⟩
    | true =>
      obtain ⟨l1, hl1, hlists, hframe, hlive⟩ := LinkedList.unlink_spec (hlist hsorted) hnd
      rw [List.append_assoc] at hlists hframe
      refine ⟨l1, fun _ => hl1, fun _ => ⟨⟨hlists, hlive, fun b hb _ => hframe b hb⟩, ?_⟩,
        by simp⟩
      apply (hlist hsorted).linked.live
      simp
  obtain ⟨st', hdelete, hnode, hremoved⟩ := treeNodeDelete_spec hfree hnot hlists hsame
  refine ⟨st', ?_, ?_, hremoved⟩
  · rw [treeTakeOut]
    simp only [cell, setParent, Mem.modify_of hp, ok_bind]
    cases hsorted : st.sorted with
    | false =>
      rw [hsame hsorted] at hdelete
      rw [if_neg (by simp), ← hsorted]
      apply hdelete
    | true =>
      rw [if_pos rfl, hunlink hsorted, ok_bind, ← hsorted]
      apply hdelete
  · rw [hnode]
    apply slot_freed (s := .greater) hp hu ht

/-- Taking the key of a node out erases the root of the tree below the slot. -/
theorem treeTakeOut_spec {bound : Nat} {h : BitVec 7}
    (he : st.node e.addr = some (cell .lesser e l.ptr r.ptr h))
    (hu : Under st.node parent dir (node l e r)) (ht : LaidTop st.node (node l e r))
    (hb : (node l e r).Balanced) (hd : (node l e r).depth ≤ 110)
    (hbound : (node l e r).depth ≤ bound + 1)
    (hlist : st.sorted = true → st.list.Lists (pre ++ ((node l e r).addrs ++ post)))
    (hnd : (pre ++ ((node l e r).addrs ++ post)).Nodup) :
  ∃ st', treeTakeOut bound st parent dir e.addr (cell .lesser e l.ptr r.ptr h) = .ok st'
    ∧ Slot st.node st'.node parent dir (node l e r) (eraseRoot Entry.move l e r)
    ∧ Removed st st' (takenRoot e r).addr (pre ++ ((eraseRoot Entry.move l e r).addrs ++ post))
  := by
  cases r with
  | nil => apply treeTakeOut_leaf he hu ht hlist hnd
  | node rl b rr =>
    have hnd' := hu.nodup
    obtain ⟨⟨np, hp, -⟩, hpt, -⟩ := id hu
    have hpe : parent ≠ e.addr := by
      rintro rfl
      simp [addrs_node] at hpt
    -- found has the key and the data of the first node from here on
    have hu0 := hu.moved (s := .lesser) (e.move (first rl b))
      (cell .lesser (e.move (first rl b)) l.ptr (some b.addr) h) rfl
    have ht0 := ht.moved (s := .lesser) (e.move (first rl b)) (h := h) hnd' rfl
    have hux := Under.ofJoin (s := .greater) ht0 hu0.nodup
    obtain ⟨-, -, hg⟩ := id ht0
    obtain ⟨hlg, hgl, hbl, hbg⟩ := hb
    rw [depth_node] at hd hbound
    have hsplit : pre ++ ((node l e (node rl b rr)).addrs ++ post)
        = (pre ++ l.addrs) ++ e.addr :: ((node rl b rr).addrs ++ post) := by
      simp [addrs_node l]
    rw [hsplit] at hlist hnd
    obtain ⟨st1, hst1, hslot1, hrem1⟩ := treeFindLeafDel_spec he rfl hux hg.top hux.notMem hbg
      (by omega) (by omega : (node rl b rr).depth ≤ bound) hlist hnd
    obtain ⟨hbal, hd1, hd2⟩ := balanced_dropFirst hbg
    have hdrop := addrs_dropFirst rl b rr
    have hndx : (dropFirst rl b rr).addrs.Nodup := by
      have h := hux.nodup
      rw [hdrop] at h
      apply (List.nodup_cons.mp h).2
    obtain ⟨m2, m3, hm2, hm3, hslot⟩ := rebalance_spec hslot1 hu0 ht0 (by
      intro a ha
      left
      rw [hdrop]
      simp [ha]) hndx hbal (by omega) (by omega) (by omega)
    refine ⟨{ st1 with node := m3 }, ?_, ?_, ?_⟩
    · rw [treeTakeOut]
      rw [Entry.addr_move] at hst1 hm2 hm3
      simp only [cell, ptr, hst1, ok_bind, hm2, hm3, pure_eq_ok]
    · rw [eraseRoot]
      apply Slot.ofMoved (s := .lesser) (e := e) (e.move (first rl b)) rfl hslot hpe
      simp [join, addrs_node, Entry.move]
    · rw [eraseRoot, addrs_balance, addrs_node]
      simpa [takenRoot, Entry.move] using hrem1.withNode m3

end FindLeaf

/-! ### The descent -/

/-- The state after the key of `e` is deleted and the node at `a` freed, `xs` being the
addresses then in order: the nodes aside, what the deletion of a present key does. -/
structure Deleted (st st' : TreeState K D) (e : Entry K D) (a : Addr) (xs : List Addr) :
    Prop where
  state : st' = { st with
    node := st'.node, list := st'.list, count := st.count - 1
    cursor := { st.cursor with status := .okay, res := some e.data, rkey := some e.key } }
  lists : st.sorted = true → LinkedList.Relinked (st.list.links.erase a) st'.list a xs
  unsorted : st.sorted = false → st'.list = st.list

/-- Changing the nodes again changes nothing else. -/
theorem Deleted.withNode {st st' : TreeState K D} {e : Entry K D} {a : Addr} {xs : List Addr}
    (h : Deleted st st' e a xs) (m : Mem (TreeNode K D)) :
  Deleted st { st' with node := m } e a xs
  := by
  refine ⟨?_, h.lists, h.unsorted⟩
  rw [h.state]

section Descent

variable {k : K} {s : Side} {e : Entry K D} {x x' y t : Tree (Entry K D)}
  {st : TreeState K D} {parent tree : Addr} {dir : Side} {bound : Nat} {pre post : List Addr}

/-- One step of the descent, on a node with a child `c` on the side of the key: what is done
below the node, and then the balancing. -/
theorem treeDelete_down {st1 : TreeState K D} {c : Addr} (hk : st.cursor.key = some k)
    (hside : sideOf (cmp k e.key) = some s) (hc : x.ptr = some c)
    (hdown : treeDelete cmp bound st e.addr s c = .ok st1)
    (hs : Slot st.node st1.node e.addr s x x') (hu : Under st.node parent dir (join s x e y))
    (hl : LaidTop st.node (join s x e y)) (hnew : x'.addrs.Sublist x.addrs)
    (hx' : x'.Balanced) (hxy : x'.depth ≤ y.depth + 2) (hyx : y.depth ≤ x'.depth + 2)
    (hd : max x'.depth y.depth ≤ 120) :
  ∃ m, treeDelete cmp (bound + 1) st parent dir e.addr = .ok { st1 with node := m }
    ∧ Slot st.node m parent dir (join s x e y) (balance (join s x' e y))
  := by
  obtain ⟨⟨h, he⟩, -, -⟩ := laidTop_join.mp hl
  obtain ⟨m2, m3, hm2, hm3, hs3⟩ := rebalance_spec hs hu hl (fun a ha => Or.inl (hnew.subset ha))
    (hnew.nodup (Under.ofJoin hl hu.nodup).nodup) hx' hxy hyx hd
  refine ⟨m3, ?_, hs3⟩
  rw [treeDelete, Mem.read_of he, ok_bind]
  simp only [key_cell, hk, deref_some, ok_bind, hside, child_cell, hc, hdown, hm2, hm3,
    pure_eq_ok]

variable [TransCmp cmp]

/-- The addresses after a deletion are those before without that of the node taken out. -/
theorem addrs_erase {e : Entry K D} (hs : SortedBy cmp Entry.key t.toList)
    (h : lookup cmp Entry.key k t.toList = some e) :
  ∃ a, taken cmp Entry.key k t = some a
    ∧ t.addrs.Perm (a.addr :: (erase cmp Entry.key Entry.move k t).addrs)
    ∧ (erase cmp Entry.key Entry.move k t).addrs.Sublist t.addrs
  := by
  obtain ⟨xs, ys, ht, ⟨-, htaken, herase⟩ | ⟨-, b, zs, rfl, htaken, herase⟩⟩ :=
    toList_erase Entry.move hs h
  · refine ⟨e, htaken, ?_, ?_⟩
    · simp only [addrs, ht, herase, List.map_append, List.map_cons]
      apply List.perm_middle
    · simp only [addrs, ht, herase, List.map_append, List.map_cons]
      apply List.Sublist.append_left
      apply List.sublist_cons_self
  · refine ⟨b, htaken, ?_, ?_⟩
    · simp only [addrs, ht, herase, List.map_append, List.map_cons, Entry.addr_move]
      have hmiddle : (xs.map Entry.addr ++ [e.addr] ++ b.addr :: zs.map Entry.addr).Perm
          (b.addr :: (xs.map Entry.addr ++ [e.addr] ++ zs.map Entry.addr)) := List.perm_middle
      simpa using hmiddle
    · simp only [addrs, ht, herase, List.map_append, List.map_cons, Entry.addr_move]
      apply List.Sublist.append_left
      apply List.Sublist.cons_cons
      apply List.sublist_cons_self

/-- Deleting a present key erases it from the tree below the slot. -/
theorem treeDelete_present (st : TreeState K D) (bound : Nat) (pre post : List Addr)
    {f : Entry K D} (hk : st.cursor.key = some k)
    (hu : Under st.node parent dir t) (ht : LaidTop st.node t) (hb : t.Balanced)
    (hs : SortedBy cmp Entry.key t.toList) (hd : t.depth ≤ 110) (hbound : t.depth ≤ bound)
    (htree : t.ptr = some tree) (hpresent : lookup cmp Entry.key k t.toList = some f)
    (hlist : st.sorted = true → st.list.Lists (pre ++ (t.addrs ++ post)))
    (hnd : (pre ++ (t.addrs ++ post)).Nodup) :
  ∃ st' a, treeDelete cmp bound st parent dir tree = .ok st'
    ∧ taken cmp Entry.key k t = some a
    ∧ Slot st.node st'.node parent dir t (erase cmp Entry.key Entry.move k t)
    ∧ Deleted st st' f a.addr (pre ++ ((erase cmp Entry.key Entry.move k t).addrs ++ post))
  := by
  induction t using induction_sides generalizing st parent dir tree bound pre post with
  | nil => cases htree
  | node l e r ih =>
    obtain rfl := Option.some.inj htree
    obtain ⟨⟨h, he⟩, -⟩ := id ht
    obtain ⟨bound, rfl⟩ : ∃ b, bound = b + 1 :=
      Nat.exists_eq_add_one_of_ne_zero (by rw [depth_node] at hbound; omega)
    cases hside : sideOf (cmp k e.key) with
    | none =>
      have hc := sideOf_eq_none.mp hside
      rw [toList_node, lookup_eq hs hc] at hpresent
      obtain rfl := Option.some.inj hpresent
      obtain ⟨st1, hst1, hslot, hrem⟩ := treeTakeOut_spec he hu ht hb hd hbound hlist hnd
      refine ⟨{ st1 with
        count := st1.count - 1
        cursor := { st1.cursor with status := .okay, res := some e.data, rkey := some e.key } },
        takenRoot e r, ?_, ?_, ?_, ?_⟩
      · rw [treeDelete, Mem.read_of he, ok_bind]
        simp only [key_cell, data_cell, hk, deref_some, ok_bind, hside, hst1, pure_eq_ok]
      · simp only [taken, hc]
      · simp only [erase, hc]
        apply hslot
      · simp only [erase, hc]
        refine ⟨?_, hrem.lists, hrem.unsorted⟩
        rw [hrem.state]
    | some s =>
      obtain ⟨x, y, hxy⟩ := exists_join_node s l e r
      have ihx := @ih s x y hxy
      rw [hxy] at hu ht hb hs hd hbound hpresent hlist hnd ⊢
      rw [erase_join hside, taken_join hside]
      obtain ⟨-, hx, hy⟩ := laidTop_join.mp ht
      rw [lookup_join hs hside] at hpresent
      rw [depth_join] at hd hbound
      obtain ⟨hxy1, hxy2, hbx, hby⟩ := balanced_join.mp hb
      have hne : x ≠ nil := by
        rintro rfl
        cases hpresent
      obtain ⟨c, hc⟩ : ∃ c, x.ptr = some c :=
        Option.ne_none_iff_exists'.mp (fun hnil => hne (ptr_eq_none.mp hnil))
      obtain ⟨pre', post', haround, -⟩ := exists_around s e y pre post
      simp only [List.append_assoc] at haround
      rw [haround] at hlist hnd
      obtain ⟨st1, a, hst1, htaken, hs1, hd1⟩ := ihx st bound pre' post' hk
        (Under.ofJoin ht hu.nodup) hx.top hbx (sortedBy_join hs) (by omega) (by omega) hc hpresent
        hlist hnd
      obtain ⟨hbx', hdx1, hdx2⟩ := balanced_erase cmp Entry.key Entry.move k hbx
      obtain ⟨-, -, -, hsub⟩ := addrs_erase (sortedBy_join hs) hpresent
      obtain ⟨m, hm, hslot⟩ := treeDelete_down hk hside hc hst1 hs1 hu ht hsub hbx' (by omega)
        (by omega) (by omega)
      refine ⟨_, a, hm, htaken, hslot, ?_⟩
      rw [addrs_balance, haround]
      apply hd1.withNode

/-- Deleting an absent key reports `VV_ERR_EXIST`; the nodes keep their places, keys and
data. -/
theorem treeDelete_absent (st : TreeState K D) (bound : Nat) (hk : st.cursor.key = some k)
    (hu : Under st.node parent dir t)
    (ht : LaidTop st.node t) (hb : t.Balanced) (hs : SortedBy cmp Entry.key t.toList)
    (hd : t.depth ≤ 110) (hbound : t.depth ≤ bound) (htree : t.ptr = some tree)
    (habsent : lookup cmp Entry.key k t.toList = none) :
  ∃ m, treeDelete cmp bound st parent dir tree
      = .ok ({ st with node := m }.setStatus .errExist)
    ∧ Slot st.node m parent dir t t
  := by
  induction t using induction_sides generalizing st parent dir tree bound with
  | nil => cases htree
  | node l e r ih =>
    obtain rfl := Option.some.inj htree
    obtain ⟨bound, rfl⟩ : ∃ b, bound = b + 1 :=
      Nat.exists_eq_add_one_of_ne_zero (by rw [depth_node] at hbound; omega)
    cases hside : sideOf (cmp k e.key) with
    | none =>
      rw [toList_node, lookup_eq hs (sideOf_eq_none.mp hside)] at habsent
      cases habsent
    | some s =>
      obtain ⟨x, y, hxy⟩ := exists_join_node s l e r
      have ihx := @ih s x y hxy
      rw [hxy] at hu ht hb hs hd hbound habsent ⊢
      obtain ⟨⟨h, he⟩, hx, hy⟩ := laidTop_join.mp ht
      rw [lookup_join hs hside] at habsent
      rw [depth_join] at hd hbound
      obtain ⟨hxy1, hxy2, hbx, hby⟩ := balanced_join.mp hb
      cases hc : x.ptr with
      | none =>
        refine ⟨st.node, ?_, Slot.refl hu ht⟩
        rw [treeDelete, Mem.read_of he, ok_bind]
        simp only [key_cell, hk, deref_some, ok_bind, hside, child_cell, hc]
        rfl
      | some c =>
        obtain ⟨m1, hm1, hs1⟩ := ihx st bound hk (Under.ofJoin ht hu.nodup) hx.top hbx
          (sortedBy_join hs) (by omega) (by omega) hc habsent
        obtain ⟨m, hm, hslot⟩ := treeDelete_down hk hside hc hm1 hs1 hu ht (List.Sublist.refl _)
          hbx (by omega) (by omega) (by omega)
        rw [balance_of_balanced hb] at hslot
        exact ⟨m, hm, hslot⟩

end Descent

end Vely
