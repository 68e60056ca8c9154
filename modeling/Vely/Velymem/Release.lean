import Vely.Velymem.Layout

/-!
# Releasing a slot

A block that is freed gives its slot back, and a block that is resized gives its slot back and takes
it again.  A slot is also marked as that of the process, or cleared when its file was closed.
-/

namespace Vely

namespace Velymem

section Release

variable {m m' : Velymem} {r : Nat} {a b : Addr} {w : Int}

/-- The block at `a`, which has the slot `r`, is given back. -/
def released (m : Velymem) (a : Addr) (r : Nat) : Velymem :=
  { m with
    vm := Function.update m.vm r
      { m.vm r with ptr := none, free := true, nextFree := m.vmFirstFree }
    vmFirstFree := some r
    heap := m.heap.erase a }

theorem released_self (m : Velymem) (a : Addr) (r : Nat) :
  (m.released a r).vm r = { m.vm r with ptr := none, free := true, nextFree := m.vmFirstFree }
  := Function.update_self ..

theorem released_of_ne {i : Nat} (m : Velymem) (a : Addr) (h : i ≠ r) :
  (m.released a r).vm i = m.vm i
  := Function.update_of_ne h ..

/-- The slot of a block has a place in the table. -/
theorem Inv.index (h : m.Inv) (ha : m.heap a = some w) :
  ∃ r : Nat, w = r ∧ r < m.vmCurr ∧ r < m.vmTot ∧ (m.vm r).ptr = some (.block a)
    ∧ (m.vm r).free = false ∧ (m.vm r).file = false
  := by
  obtain ⟨r, rfl, hr, hptr⟩ := h.owner ha
  exact ⟨r, rfl, hr, Nat.lt_trans hr h.top, hptr, (h.block hr hptr).2⟩

/-- Taking a slot leaves the slots of the blocks that are live as they are. -/
theorem Takes.keeps {p : Ptr} (ht : Takes m p r m') (h : m.Inv) (ha : m.heap a = some w) :
  w.toNat ≠ r ∧ m'.vm w.toNat = m.vm w.toNat
  := by
  obtain ⟨i, rfl, hi, -, -, hfree, -⟩ := h.index ha
  rw [Int.toNat_natCast]
  have hir : i ≠ r := by
    rintro rfl
    rcases ht.was with ⟨-, hwas, -⟩ | ⟨rfl, -⟩
    · rw [hfree] at hwas
      cases hwas
    · exact absurd hi (lt_irrefl _)
  exact ⟨hir, (ht.others i hir (Nat.lt_of_lt_of_le hi ht.curr.2)).2⟩

/-- Two slots do not point to one block. -/
theorem Inv.slot_unique (h : m.Inv) {i j : Nat} (hi : i < m.vmCurr) (hj : j < m.vmCurr)
    (hia : (m.vm i).ptr = some (.block a)) (hja : (m.vm j).ptr = some (.block a)) :
  i = j
  := by
  have hheap := (h.block hi hia).1
  rw [(h.block hj hja).1] at hheap
  exact (Int.ofNat_inj.mp (Option.some.inj hheap)).symm

theorem velySetFree_of_lt (h : r < m.vmTot) :
  velySetFree r m = .ok { m with
    vm := Function.update m.vm r
      { m.vm r with ptr := none, free := true, nextFree := m.vmFirstFree }
    vmFirstFree := some r }
  := by
  rw [velySetFree, slot_of_lt h]
  rfl

/-- The memory of a block is given back behind its slot. -/
theorem release (h : r < m.vmTot) (ha : m.heap a = some w) :
  (velySetFree r m >>= osFree a) = .ok (m.released a r)
  := by
  rw [velySetFree_of_lt h, ok_bind, osFree]
  simp only [ha]
  rfl

theorem velyGetMemory_of (ha : m.heap a = some w) (word : Option Int) :
  m.velyGetMemory a word = .ok w
  := by
  rw [velyGetMemory, ha]
  rfl

/-- The index in front of a live block points back to it. -/
theorem pointsBack_of (hr : r < m.vmCurr) (hptr : (m.vm r).ptr = some (.block a)) :
  m.pointsBack a r = true
  := by
  simp [pointsBack, hr, hptr]

theorem slotAt_of_lt (h : r < m.vmTot) :
  m.slotAt (r : Int) = .ok (m.vm r)
  := by
  rw [slotAt, if_neg (by omega)]
  exact slot_of_lt h

/-- A live block is freed, with or without the check. -/
theorem Inv.velyFree (h : m.Inv) (ha : m.heap a = some (r : Int)) (check : Bool)
    (word : Option Int) :
  Velymem.velyFree (some a) check word m = .ok (true, m.released a r)
  := by
  obtain ⟨i, hi, hcurr, htot, hptr, hfree, -⟩ := h.index ha
  obtain rfl := Int.ofNat_inj.mp hi
  rw [Velymem.velyFree]
  simp only [velyGetMemory_of ha, ok_bind, pointsBack_of hcurr hptr, slotAt_of_lt htot, hfree]
  have hrelease := release htot ha
  simp only [Bool.not_true, Bool.and_false, Bool.false_eq_true, if_false, Int.toNat_natCast]
  rw [← bind_assoc, hrelease]
  rfl

/-- The free list of the table without a block has the slot of the block in front. -/
theorem Inv.released (h : m.Inv) (ha : m.heap a = some (r : Int)) :
  (m.released a r).Inv
  := by
  obtain ⟨i, hi, hcurr, -, hptr, hfree, hfile⟩ := h.index ha
  obtain rfl := Int.ofNat_inj.mp hi
  constructor
  · exact h.top
  · apply h.freeList.push (i := r)
    · rw [hfree]
      simp
    · rintro j ⟨-, hj⟩
      have hjr : j ≠ r := by
        rintro rfl
        rw [hfree] at hj
        cases hj
      simp only [released_of_ne m a hjr]
    · simp only [released_self]
    · intro j
      by_cases hjr : j = r
      · subst hjr
        rw [released_self]
        simpa [Velymem.released] using hcurr
      · rw [released_of_ne m a hjr]
        simp [hjr, Velymem.released]
  · intro b v hb
    have hba : b ≠ a := by
      rintro rfl
      simp [Velymem.released] at hb
    simp only [Velymem.released, Mem.erase_of_ne _ hba] at hb
    obtain ⟨i, hv, hi, hib⟩ := h.owner hb
    have hir : i ≠ r := by
      rintro rfl
      rw [hptr] at hib
      cases hib
      exact hba rfl
    refine ⟨i, hv, hi, ?_⟩
    rw [released_of_ne m a hir]
    exact hib
  · intro i b hi hib
    by_cases hir : i = r
    · rw [hir, released_self] at hib
      cases hib
    · rw [released_of_ne m a hir] at hib ⊢
      have hba : b ≠ a := by
        rintro rfl
        exact hir (h.slot_unique hi hcurr hib hptr)
      simp only [Velymem.released, Mem.erase_of_ne _ hba]
      exact h.block hi hib
  · intro i f hi hif
    by_cases hir : i = r
    · rw [hir, released_self] at hif
      cases hif
    · rw [released_of_ne m a hir] at hif ⊢
      exact h.file hi hif
  · intro i hi hifree
    by_cases hir : i = r
    · rw [hir, released_self]
      exact hfile
    · rw [released_of_ne m a hir] at hifree ⊢
      exact h.freed hi hifree
  · intro i hi hifree hnone
    by_cases hir : i = r
    · rw [hir, released_self] at hifree
      cases hifree
    · rw [released_of_ne m a hir] at hifree hnone ⊢
      exact h.cleared hi hifree hnone
  · intro i hle hlt
    have hir : i ≠ r := by
      rintro rfl
      exact absurd hcurr (not_lt.mpr hle)
    rw [released_of_ne m a hir]
    exact h.fresh hle hlt
  · intro b v hb
    by_cases hba : b = a
    · subst hba
      simp [Velymem.released] at hb
    · simp only [Velymem.released, Mem.erase_of_ne _ hba] at hb
      exact h.apart hb

/-! ### The calls that take and release -/

/-- `_vely_malloc` takes a slot for an address that is not in use. -/
theorem Inv.velyMalloc (h : m.Inv) (a : Addr) :
  Ends (Velymem.velyMalloc a m) (fun m' => m.heap a = none ∧ m.unmanaged a = none
    ∧ ∃ r m₁, Takes m (.block a) r m₁ ∧ m' = velyVmset a r m₁)
  := by
  rw [Velymem.velyMalloc]
  split
  · rfl
  · next hfresh =>
    rw [inUse, Bool.or_eq_true, not_or, Option.not_isSome_iff_eq_none,
      Option.not_isSome_iff_eq_none] at hfresh
    obtain ⟨r, m₁, hadd, ht⟩ := h.velyAddMem (.block a)
    rw [hadd]
    exact ⟨hfresh.1, hfresh.2, r, m₁, ht, rfl⟩

/-- `_vely_realloc` of a live block gives its slot back and takes the same slot again. -/
theorem Inv.velyRealloc (h : m.Inv) (ha : m.heap a = some w) (b : Addr) (safe : Bool) :
  Ends (Velymem.velyRealloc (some a) b safe m) (fun o => ∃ (r : Nat) (m₁ : Velymem),
    m.heap a = some (r : Int) ∧ (m.released a r).heap b = none ∧ m.unmanaged b = none
      ∧ Takes (m.released a r) (.block b) r m₁ ∧ o = some (velyVmset b r m₁))
  := by
  obtain ⟨r, rfl, hcurr, htot, hptr, -, -⟩ := h.index ha
  rw [Velymem.velyRealloc]
  simp only [velyGetMemory_of ha, ok_bind, pointsBack_of hcurr hptr, Bool.not_true, Bool.and_false,
    Bool.false_eq_true, if_false, Int.toNat_natCast]
  rw [if_neg (by omega), ← bind_assoc, release htot ha, ok_bind]
  split
  · rfl
  · next hfresh =>
    rw [inUse, Bool.or_eq_true, not_or, Option.not_isSome_iff_eq_none,
      Option.not_isSome_iff_eq_none] at hfresh
    obtain ⟨i, m₁, hadd, ht⟩ := (h.released ha).velyAddMem (.block b)
    have hir : i = r := by
      rcases ht.was with ⟨-, -, hfirst⟩ | ⟨-, hfirst⟩
      · exact (Option.some.inj hfirst).symm
      · cases hfirst
    subst hir
    rw [hadd]
    exact ⟨i, m₁, ha, hfresh.1, hfresh.2, ht, rfl⟩

/-- A slot is changed in its bit for the process, or cleared when it is that of a file variable. -/
theorem Inv.setSlot (h : m.Inv) (hr : r < m.vmCurr) {v : Vml}
    (hnext : v.nextFree = (m.vm r).nextFree) (hfree : v.free = (m.vm r).free)
    (hfile : v.file = (m.vm r).file)
    (hptr : v.ptr = (m.vm r).ptr ∨ v.ptr = none ∧ (m.vm r).file = true) :
  (m.setSlot r v).Inv
  := by
  have hself : (m.setSlot r v).vm r = v := Function.update_self ..
  have hother : ∀ i, i ≠ r → (m.setSlot r v).vm i = m.vm i := fun i hi => Function.update_of_ne hi ..
  have hkept : ∀ i p, ((m.setSlot r v).vm i).ptr = some p → (m.vm i).ptr = some p := by
    intro i p hi
    by_cases hir : i = r
    · rw [hir, hself] at hi
      rcases hptr with hptr | ⟨hptr, -⟩
      · rw [hir, ← hptr, hi]
      · rw [hptr] at hi
        cases hi
    · rwa [hother i hir] at hi
  have hbits : ∀ i, ((m.setSlot r v).vm i).free = (m.vm i).free
      ∧ ((m.setSlot r v).vm i).file = (m.vm i).file
      ∧ ((m.setSlot r v).vm i).nextFree = (m.vm i).nextFree := by
    intro i
    by_cases hir : i = r
    · rw [hir, hself]
      exact ⟨hfree, hfile, hnext⟩
    · rw [hother i hir]
      exact ⟨rfl, rfl, rfl⟩
  constructor
  · exact h.top
  · apply h.freeList.frame
    · rintro i -
      exact (hbits i).2.2
    · intro i
      rw [(hbits i).1]
      rfl
  · intro b u hb
    obtain ⟨i, hu, hi, hib⟩ := h.owner hb
    refine ⟨i, hu, hi, ?_⟩
    by_cases hir : i = r
    · rw [hir, hself]
      rw [hir] at hib
      rcases hptr with hptr | ⟨-, hptr⟩
      · rw [hptr, hib]
      · rw [(h.block hr hib).2.2] at hptr
        cases hptr
    · rw [hother i hir, hib]
  · intro i b hi hib
    rw [(hbits i).1, (hbits i).2.1]
    exact h.block hi (hkept i _ hib)
  · intro i f hi hif
    rw [(hbits i).1, (hbits i).2.1]
    exact h.file hi (hkept i _ hif)
  · intro i hi hfree
    rw [(hbits i).1] at hfree
    rw [(hbits i).2.1]
    exact h.freed hi hfree
  · intro i hi hifree hnone
    rw [(hbits i).1] at hifree
    rw [(hbits i).2.1]
    by_cases hir : i = r
    · rw [hir, hself] at hnone
      rw [hir] at hifree ⊢
      rcases hptr with hptr | ⟨-, hptr⟩
      · apply h.cleared hr hifree
        rw [← hptr, hnone]
      · exact hptr
    · rw [hother i hir] at hnone
      exact h.cleared hi hifree hnone
  · intro i hle hlt
    have hir : i ≠ r := by
      rintro rfl
      exact absurd hr (not_lt.mpr hle)
    rw [hother i hir]
    exact h.fresh hle hlt
  · exact h.apart

/-- A live block is marked as that of the process. -/
theorem Inv.velyMemSetProcess (h : m.Inv) (ha : m.heap a = some w) :
  ∃ r : Nat, m.heap a = some (r : Int) ∧ r < m.vmCurr
    ∧ Velymem.velyMemSetProcess a m
      = .ok (some (m.setSlot r { m.vm r with process := (m.vm r).process || m.memProcess }))
  := by
  obtain ⟨r, rfl, hcurr, htot, hptr, -, -⟩ := h.index ha
  refine ⟨r, ha, hcurr, ?_⟩
  rw [Velymem.velyMemSetProcess]
  cases hp : m.memProcess with
  | true =>
    simp only [if_true, velyGetMemory_of ha, ok_bind, pointsBack_of hcurr hptr, slotAt_of_lt htot,
      Int.toNat_natCast, Bool.or_true]
    rfl
  | false =>
    simp only [Bool.false_eq_true, if_false, Bool.or_false, Velymem.setSlot,
      Function.update_eq_self]
    rfl

/-- The variable of an open file is registered in a slot of its own. -/
theorem Inv.openFile (h : m.Inv) (f i : Nat) :
  ∃ r m₁, Takes { m with files := Function.update m.files f (some i), opened := i :: m.opened }
      (.file f) r m₁
    ∧ Velymem.openFile f (some i) m = .ok (m₁.setSlot r { m₁.vm r with file := true })
  := by
  have h' : Velymem.Inv
      { m with files := Function.update m.files f (some i), opened := i :: m.opened } :=
    h.congr rfl rfl rfl rfl rfl rfl
  obtain ⟨r, m₁, hadd, ht⟩ := h'.velyAddMem (.file f)
  refine ⟨r, m₁, ht, ?_⟩
  rw [Velymem.openFile]
  simp only
  rw [velyRegFile, hadd, ok_bind]
  simp only
  rw [slot_of_lt (Nat.lt_trans ht.curr.1 ht.top)]
  rfl

end Release

end Velymem

end Vely
