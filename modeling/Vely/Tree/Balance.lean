import Vely.Tree.Layout

/-!
# Rotations and balancing in memory

A rotation of the source, in the slot of a tree whose root and whose root's child may store
any heights, puts the rotated tree there with only the new root's height in doubt.  The
balancing step puts the balanced tree there; on a tree that is balanced already it
does nothing but store the height of the root.
-/

namespace Vely

open Vely.Tree

variable {K D : Type} {m : Mem (TreeNode K D)} {p : Addr} {s dir : Side}
  {x xx xy y l r : Tree (Entry K D)} {e f : Entry K D}

/-- Rotating lifts the child on the side `s`; the stored height of that child stays as it
was. -/
theorem treeRotate_spec {he hf : BitVec 7}
    (hu : Under m p dir (join s (join s xx f xy) e y))
    (hme : m e.addr = some (cell s e (some f.addr) y.ptr he))
    (hmf : m f.addr = some (cell s f xx.ptr xy.ptr hf))
    (hxx : Laid m xx) (hxy : Laid m xy) (hy : Laid m y)
    (hd : (join s xy e y).depth ≤ 127) :
  ∃ m', treeRotate s m p dir e.addr = .ok m'
    ∧ Slot m m' p dir (join s (join s xx f xy) e y) (join s xx f (join s xy e y))
  := by
  obtain ⟨⟨n, hn, hc, hsib⟩, hp, hnd⟩ := hu
  rw [ptr_join] at hc
  simp only [mem_addrs_join, not_or] at hp
  obtain ⟨hpe, ⟨hpf, hpxx, hpxy⟩, hpy⟩ := hp
  obtain ⟨hndx, hndy, hex, hey, hdisj⟩ := nodup_addrs_join.mp hnd
  simp only [mem_addrs_join, not_or] at hex
  obtain ⟨hef, hexx, hexy⟩ := hex
  obtain ⟨hndxx, hndxy, hfxx, hfxy, hdxx⟩ := nodup_addrs_join.mp hndx
  have hfy : f.addr ∉ y.addrs := hdisj f.addr (by simp [mem_addrs_join])
  have hfe : f.addr ≠ e.addr := Ne.symm hef
  -- the memory after the three pointers are set, before the heights are
  have hframe : ∀ a, a ≠ p → a ≠ e.addr → a ≠ f.addr → ∀ np ne nf : TreeNode K D,
      (((m.set p np).set f.addr nf).set e.addr ne) a = m a := by
    intro a hap hae haf np ne nf
    rw [Mem.set_of_ne _ _ hae, Mem.set_of_ne _ _ haf, Mem.set_of_ne _ _ hap]
  have hlaid : ∀ t : Tree (Entry K D), Laid m t → p ∉ t.addrs → e.addr ∉ t.addrs →
      f.addr ∉ t.addrs → ∀ np ne nf : TreeNode K D,
      Laid (((m.set p np).set f.addr nf).set e.addr ne) t := by
    intro t ht hpt het hft np ne nf
    apply ht.frame
    intro a ha
    apply hframe a
    · rintro rfl
      apply hpt ha
    · rintro rfl
      apply het ha
    · rintro rfl
      apply hft ha
  have hread : (m.set p (n.setChild dir (some f.addr))) e.addr
      = some (cell s e (some f.addr) y.ptr he) := by
    rw [Mem.set_of_ne _ _ (Ne.symm hpe), hme]
  have hreadf : (m.set p (n.setChild dir (some f.addr))) f.addr
      = some (cell s f xx.ptr xy.ptr hf) := by
    rw [Mem.set_of_ne _ _ (Ne.symm hpf), hmf]
  have hread' : ((m.set p (n.setChild dir (some f.addr))).set f.addr
      (cell s f xx.ptr (some e.addr) hf)) e.addr
      = some (cell s e (some f.addr) y.ptr he) := by
    rw [Mem.set_of_ne _ _ hef, hread]
  have hheight := treeHeight_laid (Mem.set_self ..)
    (hlaid xy hxy hpxy hexy hfxy (n.setChild dir (some f.addr)) (cell s e xy.ptr y.ptr he)
      (cell s f xx.ptr (some e.addr) hf))
    (hlaid y hy hpy hey hfy (n.setChild dir (some f.addr)) (cell s e xy.ptr y.ptr he)
      (cell s f xx.ptr (some e.addr) hf)) hd
  rw [Mem.set_set] at hheight
  obtain ⟨h, b, hparent⟩ := treeHeight_ok
    (m := ((m.set p (n.setChild dir (some f.addr))).set f.addr
      (cell s f xx.ptr (some e.addr) hf)).set e.addr
      (cell s e xy.ptr y.ptr (join s xy e y).stored))
    (p := p) (n := n.setChild dir (some f.addr))
    (by rw [Mem.set_of_ne _ _ hpe, Mem.set_of_ne _ _ hpf, Mem.set_self])
    (by
      intro s' a ha
      by_cases haf : a = f.addr
      · subst haf
        rw [Mem.set_of_ne _ _ hfe]
        simp
      by_cases hs' : s' = dir
      · subst hs'
        rw [TreeNode.child_setChild] at ha
        apply absurd (Option.some.inj ha).symm haf
      · have hflip : s' = dir.flip := by cases s' <;> cases dir <;> simp_all [Side.flip]
        subst hflip
        rw [TreeNode.child_flip_setChild] at ha
        obtain ⟨hlive, hat, hap⟩ := hsib a ha
        simp only [mem_addrs_join, not_or] at hat
        rw [hframe a hap hat.1 haf]
        apply hlive)
  refine ⟨(((m.set p (n.setChild dir (some f.addr))).set f.addr
    (cell s f xx.ptr (some e.addr) hf)).set e.addr
    (cell s e xy.ptr y.ptr (join s xy e y).stored)).set p
    { n.setChild dir (some f.addr) with height := h }, ?_, ⟨?_, ?_, ?_⟩⟩
  · rw [treeRotate, Mem.read_of hme, ok_bind, child_cell, setParent, Mem.modify_of hn, ok_bind,
      Mem.read_of hread, ok_bind, child_cell, deref_some, ok_bind, Mem.read_of hreadf, ok_bind,
      child_flip_cell, Mem.modify_of hreadf, ok_bind, setChild_flip_cell,
      Mem.modify_of hread', ok_bind, setChild_cell, hheight, ok_bind]
    simp only [hparent, ok_bind, pure_eq_ok]
  · rw [laidTop_join, laid_join, ptr_join]
    refine ⟨⟨hf, ?_⟩, ?_, ?_, ?_, ?_⟩
    · rw [Mem.set_of_ne _ _ (Ne.symm hpf), Mem.set_of_ne _ _ hfe, Mem.set_self]
    · apply (hlaid xx hxx hpxx hexx hfxx _ _ _).frame
      intro a ha
      rw [Mem.set_of_ne]
      rintro rfl
      apply hpxx ha
    · rw [Mem.set_of_ne _ _ (Ne.symm hpe), Mem.set_self]
    · apply (hlaid xy hxy hpxy hexy hfxy _ _ _).frame
      intro a ha
      rw [Mem.set_of_ne]
      rintro rfl
      apply hpxy ha
    · apply (hlaid y hy hpy hey hfy _ _ _).frame
      intro a ha
      rw [Mem.set_of_ne]
      rintro rfl
      apply hpy ha
  · intro n' hn'
    obtain rfl : n = n' := by simpa [hn] using hn'
    use h
    rw [Mem.set_self, ptr_join]
    cases dir <;> rfl
  · intro a hap ha
    simp only [mem_addrs_join, not_or] at ha
    rw [if_neg (by simp only [mem_addrs_join]; tauto), Mem.set_of_ne _ _ hap,
      hframe a hap ha.2.2.1 ha.1]

/-- On a tree that is balanced, balancing stores the height of the root. -/
theorem treeBalance_of_balanced {h : BitVec 7}
    (hme : m e.addr = some (cell s e x.ptr y.ptr h)) (hx : Laid m x) (hy : Laid m y)
    (hb : (join s x e y).Balanced) (hd : (join s x e y).depth ≤ 127) :
  treeBalance m p dir e.addr
    = .ok (m.set e.addr (cell s e x.ptr y.ptr (join s x e y).stored))
  := by
  rw [treeBalance, treeHeight_laid hme hx hy hd, ok_bind]
  rw [balanced_join] at hb
  have hbal : -1 ≤ balFactor (join s x e y) ∧ balFactor (join s x e y) ≤ 1 := by
    cases s <;> simp only [balFactor, join, child] <;> omega
  simp only [show ¬ balFactor (join s x e y) ≥ 2 by omega,
    show ¬ balFactor (join s x e y) ≤ -2 by omega, if_false, pure_eq_ok]

/-- Lifting the taller child in memory puts the lifted tree in the slot. -/
theorem treeLift_spec {h : BitVec 7} (hu : Under m p dir (join s x e y))
    (hme : m e.addr = some (cell s e x.ptr y.ptr h)) (hx : Laid m x) (hy : Laid m y)
    (hxy : x.depth = y.depth + 2) (hd : x.depth ≤ 120) :
  ∃ m', treeLift s (treeRotate s.flip) (treeRotate s) m p dir e.addr = .ok m'
    ∧ Slot m m' p dir (join s x e y) (lift s x e y)
  := by
  obtain ⟨xx, f, xy, rfl⟩ := exists_join s (ne_nil_of_depth (by omega : 0 < x.depth))
  have hl : LaidTop m (join s (join s xx f xy) e y) := laidTop_join.mpr ⟨⟨_, hme⟩, hx, hy⟩
  obtain ⟨hmf, hxx, hxyl⟩ := laid_join.mp hx
  rw [ptr_join] at hme
  rw [depth_join] at hd hxy
  have hcxx := childHeight_laid hxx (by omega)
  have hcxy := childHeight_laid hxyl (by omega)
  -- storing the height of `e` once more, after the rotation, changes nothing
  have hagain : ∀ (m' : Mem (TreeNode K D)) (z w : Tree (Entry K D)), Laid m' (join s z e w) →
      (join s z e w).depth ≤ 127 → ∃ b, treeHeight m' e.addr = .ok (m', b) := by
    intro m' z w hzw hdzw
    obtain ⟨he, hz, hw⟩ := laid_join.mp hzw
    use balFactor (join s z e w)
    rw [treeHeight_laid he hz hw hdzw, Mem.set_eq_self he]
  rw [treeLift, Mem.read_of hme, ok_bind, child_cell]
  simp only [Mem.read_of hmf, ok_bind, child_cell, child_flip_cell, hcxx, hcxy]
  rw [lift, child_join, child_flip_join]
  split
  · next hdeep =>
    obtain ⟨u, c, v, rfl⟩ := exists_join s.flip (ne_nil_of_depth (by omega : 0 < xy.depth))
    obtain ⟨hmc, hlu, hlv⟩ := laid_join.mp hxyl
    rw [depth_join] at hd hxy hdeep
    have hux := Under.ofJoin hl hu.nodup
    rw [← join_flip s (join s.flip u c v) f xx] at hux hl hu ⊢
    obtain ⟨m1, hm1, hs1⟩ := treeRotate_spec hux
      (by rw [hmf, ptr_join, cell_flip]) hmc hlu hlv hxx
      (by rw [depth_join]; omega)
    have hnew : ∀ a ∈ (join s.flip u c (join s.flip v f xx)).addrs,
        a ∈ (join s.flip (join s.flip u c v) f xx).addrs ∨ m a = none := by
      intro a ha
      left
      simp only [mem_addrs_join] at ha ⊢
      tauto
    have hnd1 : (join s.flip u c (join s.flip v f xx)).addrs.Nodup := by
      rw [addrs, ← rotate_join, toList_rotate]
      apply hux.nodup
    have hu1 := hs1.underRoot hu hl hnew hnd1
    obtain ⟨⟨h1, he1⟩, hy1⟩ := hs1.root hl hu.nodup hnew
    have htop := hs1.top
    rw [rotate_join]
    rw [join_flip s u c (join s.flip v f xx)] at hs1 hu1 he1 htop hnew ⊢
    obtain ⟨⟨hc1, hmc1⟩, hvx1, hu1l⟩ := laidTop_join.mp htop
    rw [ptr_join] at he1
    obtain ⟨m2, hm2, hs2⟩ := treeRotate_spec hu1 he1 hmc1 hvx1 hu1l hy1
      (by rw [depth_join]; omega)
    obtain ⟨-, -, hlast⟩ := laidTop_join.mp hs2.top
    obtain ⟨b, hb⟩ := hagain m2 _ _ hlast (by rw [depth_join]; omega)
    refine ⟨m2, ?_, ?_⟩
    · simp only [hm1, hm2, ok_bind, hb, pure_eq_ok]
    · rw [rotate_join]
      apply hs1.whole hu hnew hs2
      intro a
      simp only [mem_addrs_join]
      tauto
  · obtain ⟨m1, hm1, hs1⟩ := treeRotate_spec hu hme hmf hxx hxyl hy
      (by rw [depth_join]; omega)
    obtain ⟨-, -, hlast⟩ := laidTop_join.mp hs1.top
    obtain ⟨b, hb⟩ := hagain m1 _ _ hlast (by rw [depth_join]; omega)
    refine ⟨m1, ?_, ?_⟩
    · simp only [pure_eq_ok, ok_bind, hm1, hb]
    · rw [rotate_join]
      apply hs1

/-- Storing the height of the root leaves the tree laid in its slot. -/
theorem slot_stored (hu : Under m p dir (join s x e y))
    (hx : Laid m x) (hy : Laid m y) :
  Laid (m.set e.addr (cell s e x.ptr y.ptr (join s x e y).stored)) (join s x e y)
    ∧ Slot m (m.set e.addr (cell s e x.ptr y.ptr (join s x e y).stored)) p dir
      (join s x e y) (join s x e y)
  := by
  obtain ⟨⟨n, hn, hc, -⟩, hp, hnd⟩ := hu
  obtain ⟨-, -, hex, hey, -⟩ := nodup_addrs_join.mp hnd
  simp only [mem_addrs_join, not_or] at hp
  have hframe : ∀ a, a ≠ e.addr →
      (m.set e.addr (cell s e x.ptr y.ptr (join s x e y).stored)) a = m a :=
    fun a ha => Mem.set_of_ne _ _ ha
  have hlaid : Laid (m.set e.addr (cell s e x.ptr y.ptr (join s x e y).stored))
      (join s x e y) := by
    rw [laid_join]
    refine ⟨Mem.set_self .., ?_, ?_⟩
    · apply hx.frame
      intro a ha
      apply hframe
      rintro rfl
      apply hex ha
    · apply hy.frame
      intro a ha
      apply hframe
      rintro rfl
      apply hey ha
  refine ⟨hlaid, hlaid.top, ?_, ?_⟩
  · intro n' hn'
    obtain rfl : n = n' := by simpa [hn] using hn'
    use n.height
    rw [hframe p hp.1, hn, ← hc]
    simp [TreeNode.setChild_child]
  · intro a hap ha
    rw [if_neg ha]
    apply hframe
    simp only [mem_addrs_join, not_or] at ha
    apply ha.1

/-- Balancing in memory puts the balanced tree in the slot. -/
theorem treeBalance_spec (hu : Under m p dir (node l e r)) (ht : LaidTop m (node l e r))
    (hlr : l.depth ≤ r.depth + 2) (hrl : r.depth ≤ l.depth + 2)
    (hd : (node l e r).depth ≤ 121) :
  ∃ m', treeBalance m p dir e.addr = .ok m'
    ∧ Slot m m' p dir (node l e r) (balance (node l e r))
  := by
  obtain ⟨⟨h, hme⟩, hl, hr⟩ := id ht
  rw [depth_node] at hd
  have hheight : treeHeight m e.addr
      = .ok (m.set e.addr (cell .lesser e l.ptr r.ptr (node l e r).stored),
          balFactor (node l e r)) :=
    treeHeight_laid (s := .lesser) hme hl hr (by rw [depth_join]; omega)
  obtain ⟨hlaid, hstored⟩ := slot_stored (s := .lesser) hu hl hr
  have hu' := hstored.under hu (fun a ha => Or.inl ha) hu.nodup
  have hbal : balFactor (node l e r) = (l.depth : Int) - r.depth := rfl
  rw [treeBalance, hheight, ok_bind, balance]
  simp only [join] at hlaid hstored hu'
  by_cases h1 : r.depth + 2 ≤ l.depth
  · have hf : balFactor (node l e r) ≥ 2 := by omega
    simp only [if_pos h1, if_pos hf]
    obtain ⟨hme', hl', hr'⟩ := hlaid
    obtain ⟨m', hm', hs'⟩ := treeLift_spec (s := .lesser) hu' hme' hl' hr' (by omega) (by omega)
    refine ⟨m', hm', hstored.trans hs' ?_⟩
    intro a
    rw [addrs, toList_lift]
    rfl
  · by_cases h2 : l.depth + 2 ≤ r.depth
    · have hf : ¬ balFactor (node l e r) ≥ 2 := by omega
      have hf' : balFactor (node l e r) ≤ -2 := by omega
      simp only [if_neg h1, if_pos h2, if_neg hf, if_pos hf']
      obtain ⟨hme', hl', hr'⟩ := hlaid
      obtain ⟨m', hm', hs'⟩ := treeLift_spec (s := .greater) hu' hme' hr' hl' (by omega)
        (by omega)
      refine ⟨m', hm', hstored.trans hs' ?_⟩
      intro a
      rw [addrs, toList_lift]
      rfl
    · have hf : ¬ balFactor (node l e r) ≥ 2 := by omega
      have hf' : ¬ balFactor (node l e r) ≤ -2 := by omega
      simp only [if_neg h1, if_neg h2, if_neg hf, if_neg hf']
      exact ⟨_, rfl, hstored⟩

/-- Balancing, for a tree seen from the side `s`. -/
theorem treeBalance_join (hu : Under m p dir (join s x e y)) (ht : LaidTop m (join s x e y))
    (hxy : x.depth ≤ y.depth + 2) (hyx : y.depth ≤ x.depth + 2)
    (hd : max x.depth y.depth ≤ 120) :
  ∃ m', treeBalance m p dir e.addr = .ok m'
    ∧ Slot m m' p dir (join s x e y) (balance (join s x e y))
  := by
  cases s with
  | lesser =>
    apply treeBalance_spec hu ht hxy hyx
    rw [depth_node]
    omega
  | greater =>
    apply treeBalance_spec hu ht hyx hxy
    rw [depth_node]
    omega

/-- What follows a change below the root on the way back: balancing the changed subtree, which
only stores its height, and then the whole. -/
theorem rebalance_spec {m1 : Mem (TreeNode K D)} {x' : Tree (Entry K D)}
    (hs : Slot m m1 e.addr s x x') (hu : Under m p dir (join s x e y))
    (hl : LaidTop m (join s x e y)) (hnew : ∀ a ∈ x'.addrs, a ∈ x.addrs ∨ m a = none)
    (hnd : x'.addrs.Nodup) (hx' : x'.Balanced) (hxy : x'.depth ≤ y.depth + 2)
    (hyx : y.depth ≤ x'.depth + 2) (hd : max x'.depth y.depth ≤ 120) :
  ∃ m2 m3, treeBalanceChild m1 e.addr s = .ok m2 ∧ treeBalance m2 p dir e.addr = .ok m3
    ∧ Slot m m3 p dir (join s x e y) (balance (join s x' e y))
  := by
  have hux := Under.ofJoin hl hu.nodup
  obtain ⟨⟨h1, he1⟩, -⟩ := hs.root hl hu.nodup hnew
  obtain ⟨m2, hm2, hlaid2, hs2⟩ : ∃ m2, treeBalanceChild m1 e.addr s = .ok m2
      ∧ Laid m2 x' ∧ Slot m m2 e.addr s x x' := by
    rw [treeBalanceChild, Mem.read_of he1, ok_bind, child_cell]
    cases x' with
    | nil => exact ⟨m1, rfl, trivial, hs⟩
    | node xl f xr =>
      obtain ⟨⟨hf, hmf⟩, hxl, hxr⟩ := hs.top
      have hux' := hs.under hux hnew hnd
      have hstored := slot_stored (s := .lesser) hux' hxl hxr
      refine ⟨_, treeBalance_of_balanced (s := .lesser) hmf hxl hxr hx' ?_, hstored.1,
        hs.trans hstored.2 (fun a => Iff.rfl)⟩
      rw [depth_join]
      simp only [depth_node] at hd
      omega
  obtain ⟨hroot, hy⟩ := hs2.root hl hu.nodup hnew
  obtain ⟨m3, hm3, hs3⟩ := treeBalance_join (hs2.underRoot hu hl hnew hnd)
    (laidTop_join.mpr ⟨hroot, hlaid2, hy⟩) hxy hyx hd
  refine ⟨m2, m3, hm2, hm3, hs2.whole hu hnew hs3 ?_⟩
  intro a
  rw [addrs, toList_balance]
  rfl

end Vely
