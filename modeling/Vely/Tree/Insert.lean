import Vely.Tree.Balance

/-!
# Insertion in memory

An insertion descends to the place of the key.  When the key is there already, it comes
back with the tree as it was.  Otherwise it puts a new node there, beside the node above it
in the sorted list too, and balances on the way back: the slot the descent started from
then holds the tree with the new node inserted.
-/

namespace Vely

open Std Vely.Tree

variable {K D : Type} {cmp : K → K → Ordering} {al : Allocator (TreeNode K D)}

/-! ### The new node -/

/-- Filling a node records it as the end of the sorted list on the sides it has no
neighbour on. -/
theorem treeFill_spec (st : TreeState K D) {a : Addr} {k : K} (data : D) (xs ys : List Addr)
    (ha : st.node a = some TreeNode.blank) (hk : st.cursor.key = some k)
    (hlist : st.sorted = true → Linked st.list.links none (xs ++ a :: ys) none
      ∧ (xs ≠ [] → st.list.min = xs.head?) ∧ (ys ≠ [] → st.list.max = ys.getLast?)) :
  ∃ list : LinkedList, treeFill st a data
      = .ok ({ st with
          node := st.node.set a (cell .lesser ⟨a, k, data⟩ none none 1)
          list, count := st.count + 1 }.moveTo a)
    ∧ (st.sorted = true → list.Lists (xs ++ a :: ys)) ∧ (st.sorted = false → list = st.list)
    ∧ list.links = st.list.links
  := by
  rw [treeFill, Mem.modify_of ha, ok_bind, hk]
  cases hsorted : st.sorted with
  | false => exact ⟨st.list, rfl, by simp, by simp, rfl⟩
  | true =>
    obtain ⟨hlinked, hmin, hmax⟩ := hlist hsorted
    have hread := hlinked.at
    simp only [Option.or_none] at hread
    simp only [Mem.read_of hread, if_true, ok_bind, pure_eq_ok]
    refine ⟨_, rfl, ?_, by simp, ?_⟩
    · intro _
      constructor
      · cases xs.getLast? <;> cases ys.head? <;> exact hlinked
      · cases xs with
        | nil =>
          cases ys <;> simp [LinkedList.setEnd]
        | cons b xs =>
          have hb := hmin (by simp)
          cases ys <;> simp [List.getLast?_cons, LinkedList.setEnd, hb]
      · rcases List.eq_nil_or_concat ys with rfl | ⟨zs, b, rfl⟩
        · simp [LinkedList.setEnd]
        · have hb := hmax (by simp)
          cases xs <;> cases zs <;> simp_all [List.getLast?_cons, LinkedList.setEnd,
            List.getLast?_append]
    · cases xs.getLast? <;> cases ys.head? <;> rfl

/-- A new child is put below a node that has none on the side `s`, and beside it in the sorted
list. -/
theorem treeAttach_spec {st : TreeState K D} {s : Side} {e : Entry K D} {y : Option Addr}
    {h : BitVec 7} {a : Addr} {xs ys : List Addr}
    (he : st.node e.addr = some (cell s e none y h)) (ha : al.choose st.node = some a)
    (hlist : st.sorted = true → st.list.Lists (xs ++ e.addr :: ys))
    (hnd : (xs ++ e.addr :: ys).Nodup) (hfresh : a ∉ xs ++ e.addr :: ys) :
  ∃ links, treeAttach al st s e.addr = .ok (a, { st with
      node := (st.node.set a TreeNode.blank).set e.addr (cell s e (some a) y h)
      list := { st.list with links } })
    ∧ (st.sorted = true → Linked links none (beside s a xs e.addr ys) none
      ∧ SameLive (st.list.links.set a Links.null) links
      ∧ ∀ b, b ≠ a → b ∉ xs ++ e.addr :: ys → links b = (st.list.links.set a Links.null) b)
    ∧ (st.sorted = false → links = st.list.links)
  := by
  have hea : e.addr ≠ a := by
    rintro rfl
    simp at hfresh
  have he' : (st.node.set a TreeNode.blank) e.addr = some (cell s e none y h) := by
    rw [Mem.set_of_ne _ _ hea, he]
  rw [treeAttach, treeNodeCreate, Allocator.alloc, ha]
  simp only [ok_bind, pure_eq_ok, Mem.modify_of he', setChild_cell]
  cases hsorted : st.sorted with
  | false => exact ⟨_, rfl, by simp, by simp⟩
  | true =>
    have hlinked : Linked (st.list.links.set a Links.null) none (xs ++ e.addr :: ys) none := by
      apply (hlist hsorted).linked.frame
      intro b hb
      apply Mem.set_of_ne
      rintro rfl
      apply hfresh hb
    obtain ⟨links, hok, hl, hframe, hlive⟩ := insertBeside_spec s hlinked hnd (Mem.set_self ..)
      hfresh
    refine ⟨links, ?_, fun _ => ⟨hl, hlive, hframe⟩, by simp⟩
    simp only [if_true, hok, ok_bind]

/-- The state after the node `n` is added, `xs` being the addresses then in order: the nodes
aside, what the insertion of an absent key does. -/
structure Inserted (st st' : TreeState K D) (n : Entry K D) (xs : List Addr) : Prop where
  state : st' = { st with node := st'.node, list := st'.list, count := st.count + 1 }.moveTo n.addr
  lists : st.sorted = true →
    LinkedList.Relinked (st.list.links.set n.addr Links.null) st'.list n.addr xs
  unsorted : st.sorted = false → st'.list = st.list

/-- Changing the nodes again changes nothing else. -/
theorem Inserted.withNode {st st' : TreeState K D} {n : Entry K D} {xs : List Addr}
    (h : Inserted st st' n xs) (m : Mem (TreeNode K D)) :
  Inserted st { st' with node := m } n xs
  := by
  refine ⟨?_, h.lists, h.unsorted⟩
  rw [h.state]
  rfl

/-! ### The descent -/

section Descent

variable {k : K} {data : D} {s : Side} {e : Entry K D} {x x' y : Tree (Entry K D)}
  {st : TreeState K D} {parent : Addr} {dir : Side} {bound : Nat}

/-- One step of the descent, on a node with a child `c` on the side of the key: what is done
below the node, and then the balancing. -/
theorem treeInsert_down {st1 : TreeState K D} {c : Addr} (hk : st.cursor.key = some k)
    (hside : sideOf (cmp k e.key) = some s) (hc : x.ptr = some c)
    (hdown : treeInsert cmp al bound st e.addr s c data = .ok st1)
    (hs : Slot st.node st1.node e.addr s x x') (hu : Under st.node parent dir (join s x e y))
    (hl : LaidTop st.node (join s x e y))
    (hnew : ∀ a ∈ x'.addrs, a ∈ x.addrs ∨ st.node a = none) (hnd : x'.addrs.Nodup)
    (hne : x' ≠ nil) (hx' : x'.Balanced) (hxy : x'.depth ≤ y.depth + 2)
    (hyx : y.depth ≤ x'.depth + 2) (hd : max x'.depth y.depth ≤ 120) :
  ∃ m, treeInsert cmp al (bound + 1) st parent dir e.addr data = .ok { st1 with node := m }
    ∧ Slot st.node m parent dir (join s x e y) (balance (join s x' e y))
  := by
  obtain ⟨⟨h, he⟩, -, -⟩ := laidTop_join.mp hl
  obtain ⟨⟨h1, he1⟩, -⟩ := hs.root hl hu.nodup hnew
  obtain ⟨m2, m3, hm2, hm3, hs3⟩ := rebalance_spec hs hu hl hnew hnd hx' hxy hyx hd
  obtain ⟨c', hc'⟩ : ∃ c', x'.ptr = some c' :=
    Option.ne_none_iff_exists'.mp (fun hnil => hne (ptr_eq_none.mp hnil))
  rw [treeBalanceChild, Mem.read_of he1, ok_bind, child_cell] at hm2
  simp only [hc'] at hm2
  refine ⟨m3, ?_, hs3⟩
  rw [treeInsert, Mem.read_of he, ok_bind]
  simp only [keyPresent_cell, key_cell, hk, deref_some, ok_bind, Bool.true_eq_false, if_false,
    hside, child_cell, hc, hdown, Mem.read_of he1, hc', hm2, hm3, pure_eq_ok]

/-- The last step of the descent: a new leaf below a node without a child on the side of the
key. -/
theorem treeInsert_leaf {a : Addr} {pre post : List Addr} (hk : st.cursor.key = some k)
    (hside : sideOf (cmp k e.key) = some s) (hu : Under st.node parent dir (join s nil e y))
    (hl : LaidTop st.node (join s nil e y)) (ha : al.choose st.node = some a)
    (hlist : st.sorted = true → st.list.Lists (pre ++ (join s nil e y).addrs ++ post))
    (hnd : (pre ++ (join s nil e y).addrs ++ post).Nodup)
    (hlive : ∀ b ∈ pre ++ post, st.node b ≠ none) :
  ∃ st', treeInsert cmp al (bound + 2) st parent dir e.addr data = .ok st'
    ∧ Slot st.node st'.node parent dir (join s nil e y)
      (join s (node nil ⟨a, k, data⟩ nil) e y)
    ∧ Inserted st st' ⟨a, k, data⟩
      (pre ++ (join s (node nil ⟨a, k, data⟩ nil) e y).addrs ++ post)
  := by
  have hfree : st.node a = none := al.fresh ha
  obtain ⟨⟨h, he⟩, -, hy⟩ := laidTop_join.mp hl
  have hea : e.addr ≠ a := by
    rintro rfl
    simp [he] at hfree
  obtain ⟨xs, ys, hxs, hbeside⟩ := exists_beside_leaf s ⟨a, k, data⟩ e y pre post
  have hfresh : a ∉ xs ++ e.addr :: ys := by
    intro hmem
    rw [← hxs] at hmem
    simp only [List.mem_append] at hmem
    rcases hmem with (hmem | hmem) | hmem
    · apply hlive a (by simp [hmem]) hfree
    · apply hl.live hmem hfree
    · apply hlive a (by simp [hmem]) hfree
  rw [hxs] at hlist hnd
  obtain ⟨links, hattach, hsorted, hunsorted⟩ := treeAttach_spec he ha hlist hnd hfresh
  obtain ⟨us, vs, huv, hhead, hlast⟩ := exists_beside s a xs e.addr ys
  have hblank : ((st.node.set a TreeNode.blank).set e.addr (cell s e (some a) y.ptr h)) a
      = some TreeNode.blank := by
    rw [Mem.set_of_ne _ _ (Ne.symm hea), Mem.set_self]
  have hends : st.sorted = true → Linked links none (us ++ a :: vs) none
      ∧ (us ≠ [] → st.list.min = us.head?) ∧ (vs ≠ [] → st.list.max = vs.getLast?) := by
    intro hs
    obtain ⟨-, hmin, hmax⟩ := hlist hs
    rw [← huv]
    refine ⟨(hsorted hs).1, ?_, ?_⟩
    · intro hus
      apply hmin.trans (hhead hus)
    · intro hvs
      apply hmax.trans (hlast hvs)
  obtain ⟨list, hfill, hfilled, hsame, hlinks⟩ := treeFill_spec { st with
    node := (st.node.set a TreeNode.blank).set e.addr (cell s e (some a) y.ptr h)
    list := { st.list with links } } data us vs hblank hk hends
  have hset : ∀ b, b ≠ e.addr → b ≠ a →
      (((st.node.set a TreeNode.blank).set e.addr (cell s e (some a) y.ptr h)).set a
        (cell .lesser ⟨a, k, data⟩ none none 1)) b = st.node b := by
    intro b hbe hba
    rw [Mem.set_of_ne _ _ hba, Mem.set_of_ne _ _ hbe, Mem.set_of_ne _ _ hba]
  have hslot : Slot st.node (((st.node.set a TreeNode.blank).set e.addr
      (cell s e (some a) y.ptr h)).set a (cell .lesser ⟨a, k, data⟩ none none 1)) e.addr s nil
      (node nil ⟨a, k, data⟩ nil) := by
    refine ⟨⟨⟨1, Mem.set_self ..⟩, trivial, trivial⟩, ?_, ?_⟩
    · intro n hn
      obtain rfl : cell s e none y.ptr h = n := by simpa [he] using hn
      use h
      rw [Mem.set_of_ne _ _ hea, Mem.set_self, withHeight_cell, setChild_cell]
      rfl
    · intro b hbe hb
      simp only [addrs_node, addrs_nil, List.nil_append, List.mem_singleton] at hb
      rw [hset b hbe hb]
      rfl
  have hnew : ∀ b ∈ (node nil (⟨a, k, data⟩ : Entry K D) nil).addrs,
      b ∈ (nil : Tree (Entry K D)).addrs ∨ st.node b = none := by
    intro b hb
    simp only [addrs_node, addrs_nil, List.nil_append, List.mem_singleton] at hb
    right
    rw [hb, hfree]
  have hleaf : (node nil (⟨a, k, data⟩ : Entry K D) nil).addrs.Nodup := by
    simp [addrs_node, addrs_nil]
  obtain ⟨hroot, hy'⟩ := hslot.root hl hu.nodup hnew
  have hwhole := hslot.whole hu hnew (Slot.refl (hslot.underRoot hu hl hnew hleaf)
    (laidTop_join.mpr ⟨hroot, ⟨Mem.set_self .., trivial, trivial⟩, hy'⟩)) (fun _ => Iff.rfl)
  refine ⟨{ st with
    node := ((st.node.set a TreeNode.blank).set e.addr (cell s e (some a) y.ptr h)).set a
      (cell .lesser ⟨a, k, data⟩ none none 1)
    list, count := st.count + 1 }.moveTo a, ?_, hwhole, ⟨rfl, ?_, ?_⟩⟩
  · rw [treeInsert, Mem.read_of he, ok_bind]
    simp only [keyPresent_cell, key_cell, hk, deref_some, ok_bind, Bool.true_eq_false, if_false,
      hside, child_cell, ptr_nil, hattach, treeInsert, Mem.read_of hblank,
      TreeNode.keyPresent_blank, if_true]
    apply hfill
  · intro hs
    obtain ⟨-, hsame', hframe⟩ := hsorted hs
    rw [hbeside, huv]
    refine ⟨hfilled hs, ?_, ?_⟩
    · show SameLive _ list.links
      rwa [hlinks]
    · intro b hb hba
      show list.links b = _
      rw [hlinks]
      apply hframe b hba
      rw [← huv] at hb
      intro hmem
      apply hb
      apply mem_beside hmem
  · intro hs
    show list = st.list
    rw [hsame hs, hunsorted hs]

end Descent

variable [TransCmp cmp]

/-- The addresses after the insertion of an absent key. -/
theorem addrs_insert_perm {n : Entry K D} {t : Tree (Entry K D)}
    (hs : SortedBy cmp Entry.key t.toList) (h : lookup cmp Entry.key n.key t.toList = none) :
  (Tree.insert cmp Entry.key n t).addrs.Perm (n.addr :: t.addrs)
  := by
  rw [addrs, toList_insert hs h]
  apply (place_perm h).map

variable (al) in
/-- Inserting a key that is present reports `VV_ERR_EXIST`; the nodes keep their places, keys
and data. -/
theorem treeInsert_present (st : TreeState K D) (data : D) (bound : Nat) {k : K}
    {t : Tree (Entry K D)} {parent tree : Addr} {dir : Side} (hk : st.cursor.key = some k)
    (hu : Under st.node parent dir t) (ht : LaidTop st.node t) (hb : t.Balanced)
    (hs : SortedBy cmp Entry.key t.toList) (hd : t.depth ≤ 110) (hbound : t.depth ≤ bound)
    (htree : t.ptr = some tree) (hpresent : lookup cmp Entry.key k t.toList ≠ none) :
  ∃ m, treeInsert cmp al bound st parent dir tree data
      = .ok ({ st with node := m }.setStatus .errExist)
    ∧ Slot st.node m parent dir t t
  := by
  induction t using induction_sides generalizing st parent dir tree bound with
  | nil => cases htree
  | node l e r ih =>
    obtain rfl := Option.some.inj htree
    obtain ⟨⟨h, he⟩, -⟩ := id ht
    obtain ⟨bound, rfl⟩ : ∃ b, bound = b + 1 :=
      Nat.exists_eq_add_one_of_ne_zero (by rw [depth_node] at hbound; omega)
    cases hside : sideOf (cmp k e.key) with
    | none =>
      refine ⟨st.node, ?_, Slot.refl hu ht⟩
      rw [treeInsert, Mem.read_of he, ok_bind]
      simp only [keyPresent_cell, key_cell, hk, deref_some, ok_bind, Bool.true_eq_false, if_false,
        hside]
      rfl
    | some s =>
      obtain ⟨x, y, hxy⟩ := exists_join_node s l e r
      have ihx := @ih s x y hxy
      rw [hxy] at hu ht hb hs hd hbound hpresent ⊢
      obtain ⟨⟨h, he⟩, hx, hy⟩ := laidTop_join.mp ht
      rw [lookup_join hs hside] at hpresent
      rw [depth_join] at hd hbound
      obtain ⟨hxy1, hxy2, hbx, hby⟩ := balanced_join.mp hb
      have hne : x ≠ nil := by
        rintro rfl
        apply hpresent rfl
      obtain ⟨c, hc⟩ : ∃ c, x.ptr = some c :=
        Option.ne_none_iff_exists'.mp (fun hnil => hne (ptr_eq_none.mp hnil))
      have hux := Under.ofJoin ht hu.nodup
      obtain ⟨m1, hm1, hs1⟩ := ihx st bound hk hux hx.top hbx (sortedBy_join hs) (by omega)
        (by omega) hc hpresent
      obtain ⟨m, hm, hslot⟩ := treeInsert_down hk hside hc hm1 hs1 hu ht
        (fun a ha => Or.inl ha) hux.nodup hne hbx (by omega) (by omega) (by omega)
      rw [balance_of_balanced hb] at hslot
      exact ⟨m, hm, hslot⟩

/-- Inserting an absent key puts a new node in the tree, if there is memory for it. -/
theorem treeInsert_absent (st : TreeState K D) (data : D) (bound : Nat) (pre post : List Addr)
    {k : K} {t : Tree (Entry K D)} {parent tree a : Addr} {dir : Side}
    (hk : st.cursor.key = some k) (hu : Under st.node parent dir t) (ht : LaidTop st.node t)
    (hb : t.Balanced) (hs : SortedBy cmp Entry.key t.toList) (hd : t.depth ≤ 110)
    (hbound : t.depth + 1 ≤ bound) (htree : t.ptr = some tree)
    (habsent : lookup cmp Entry.key k t.toList = none) (ha : al.choose st.node = some a)
    (hlist : st.sorted = true → st.list.Lists (pre ++ t.addrs ++ post))
    (hnd : (pre ++ t.addrs ++ post).Nodup) (hlive : ∀ b ∈ pre ++ post, st.node b ≠ none) :
  ∃ st', treeInsert cmp al bound st parent dir tree data = .ok st'
    ∧ Slot st.node st'.node parent dir t (Tree.insert cmp Entry.key ⟨a, k, data⟩ t)
    ∧ Inserted st st' ⟨a, k, data⟩
      (pre ++ (Tree.insert cmp Entry.key ⟨a, k, data⟩ t).addrs ++ post)
  := by
  induction t using induction_sides generalizing st parent dir tree bound pre post with
  | nil => cases htree
  | node l e r ih =>
    obtain rfl := Option.some.inj htree
    obtain ⟨bound, rfl⟩ : ∃ b, bound = b + 2 :=
      Nat.exists_eq_add_of_le' (by rw [depth_node] at hbound; omega)
    cases hside : sideOf (cmp k e.key) with
    | none =>
      rw [toList_node, lookup_eq hs (sideOf_eq_none.mp hside)] at habsent
      cases habsent
    | some s =>
      obtain ⟨x, y, hxy⟩ := exists_join_node s l e r
      have ihx := @ih s x y hxy
      rw [hxy] at hu ht hb hs hd hbound habsent hlist hnd ⊢
      rw [insert_join hside]
      obtain ⟨⟨h, he⟩, hx, hy⟩ := laidTop_join.mp ht
      rw [lookup_join hs hside] at habsent
      rw [depth_join] at hd hbound
      obtain ⟨hxy1, hxy2, hbx, hby⟩ := balanced_join.mp hb
      by_cases hne : x = nil
      · subst hne
        have hbal : (join s (Tree.insert cmp Entry.key ⟨a, k, data⟩ nil) e y).Balanced := by
          simp only [depth_nil] at hxy2
          simp only [Tree.insert, balanced_join, Tree.Balanced, depth_node, depth_nil]
          refine ⟨by omega, by omega, by simp, hby⟩
        rw [balance_of_balanced hbal]
        apply treeInsert_leaf hk hside hu ht ha hlist hnd hlive
      · obtain ⟨c, hc⟩ : ∃ c, x.ptr = some c :=
          Option.ne_none_iff_exists'.mp (fun hnil => hne (ptr_eq_none.mp hnil))
        obtain ⟨pre', post', haround, hmem⟩ := exists_around s e y pre post
        rw [haround] at hlist hnd
        have hlive' : ∀ b ∈ pre' ++ post', st.node b ≠ none := by
          intro b hb'
          rcases hmem b hb' with hb' | hb'
          · apply hlive b hb'
          · apply ht.live
            simp only [mem_addrs_join] at hb' ⊢
            tauto
        obtain ⟨st1, hm1, hs1, hi1⟩ := ihx st (bound + 1) pre' post' hk (Under.ofJoin ht hu.nodup)
          hx.top hbx (sortedBy_join hs) (by omega) (by omega) hc habsent ha hlist hnd hlive'
        obtain ⟨hbx', hdx1, hdx2⟩ := balanced_insert cmp Entry.key ⟨a, k, data⟩ hbx
        have hperm := addrs_insert_perm (n := ⟨a, k, data⟩) (sortedBy_join hs) habsent
        have hnew : ∀ b ∈ (Tree.insert cmp Entry.key ⟨a, k, data⟩ x).addrs,
            b ∈ x.addrs ∨ st.node b = none := by
          intro b hb'
          rcases List.mem_cons.mp (hperm.mem_iff.mp hb') with rfl | hb'
          · right
            apply al.fresh ha
          · left
            apply hb'
        have hndx : (Tree.insert cmp Entry.key ⟨a, k, data⟩ x).addrs.Nodup := by
          apply hperm.nodup_iff.mpr
          apply List.nodup_cons.mpr
          refine ⟨?_, (Under.ofJoin ht hu.nodup).nodup⟩
          intro hmem
          apply hx.live hmem (al.fresh ha)
        have hne' : Tree.insert cmp Entry.key ⟨a, k, data⟩ x ≠ nil := by
          have hpos := depth_pos hne
          apply ne_nil_of_depth
          omega
        obtain ⟨m, hm, hslot⟩ := treeInsert_down hk hside hc hm1 hs1 hu ht hnew hndx hne' hbx'
          (by omega) (by omega) (by omega)
        refine ⟨_, hm, hslot, ?_⟩
        rw [addrs_balance, haround]
        apply hi1.withNode

/-- Inserting an absent key stops when there is no memory for the new node. -/
theorem treeInsert_full (st : TreeState K D) (data : D) (bound : Nat) {k : K}
    {t : Tree (Entry K D)} {parent tree : Addr} {dir : Side} (hk : st.cursor.key = some k)
    (ht : LaidTop st.node t) (hs : SortedBy cmp Entry.key t.toList) (hbound : t.depth ≤ bound)
    (htree : t.ptr = some tree) (habsent : lookup cmp Entry.key k t.toList = none)
    (ha : al.choose st.node = none) :
  treeInsert cmp al bound st parent dir tree data = .error .outOfMemory
  := by
  induction t using induction_sides generalizing st parent dir tree bound with
  | nil => cases htree
  | node l e r ih =>
    obtain rfl := Option.some.inj htree
    obtain ⟨bound, rfl⟩ : ∃ b, bound = b + 1 :=
      Nat.exists_eq_add_one_of_ne_zero (by rw [depth_node] at hbound; omega)
    cases hside : sideOf (cmp k e.key) with
    | none =>
      rw [toList_node, lookup_eq hs (sideOf_eq_none.mp hside)] at habsent
      cases habsent
    | some s =>
      obtain ⟨x, y, hxy⟩ := exists_join_node s l e r
      have ihx := @ih s x y hxy
      rw [hxy] at ht hs hbound habsent
      obtain ⟨⟨h, he⟩, hx, hy⟩ := laidTop_join.mp ht
      rw [lookup_join hs hside] at habsent
      rw [depth_join] at hbound
      rw [treeInsert, Mem.read_of he, ok_bind]
      simp only [keyPresent_cell, key_cell, hk, deref_some, ok_bind, Bool.true_eq_false, if_false,
        hside, child_cell]
      cases hc : x.ptr with
      | none => simp only [treeAttach, treeNodeCreate, Allocator.alloc, ha, error_bind]
      | some c =>
        simp only [ihx st bound hk hx.top (sortedBy_join hs) (by omega) hc habsent ha, error_bind]

end Vely
