import Vely.Lib.FreeList
import Vely.Lib.Run
import Vely.Velymem.Table

/-!
# What the table of memory keeps

Every managed block has a slot that points back to it, and the slots that are free form the free
list. A slot is taken from the front of the list, or behind all others.
-/

namespace Vely

namespace Velymem

/-- What every call keeps. -/
structure Inv (m : Velymem) : Prop where
  top : m.vmCurr < m.vmTot
  freeList : IsFreeList (fun i => (m.vm i).nextFree) m.vmFirstFree
    (fun i => i < m.vmCurr ∧ (m.vm i).free = true)
  owner : ∀ {a w}, m.heap a = some w →
    ∃ r : Nat, w = r ∧ r < m.vmCurr ∧ (m.vm r).ptr = some (.block a)
  block : ∀ {r a}, r < m.vmCurr → (m.vm r).ptr = some (.block a) →
    m.heap a = some (r : Int) ∧ (m.vm r).free = false ∧ (m.vm r).file = false
  file : ∀ {r f}, r < m.vmCurr → (m.vm r).ptr = some (.file f) →
    (m.vm r).free = false ∧ (m.vm r).file = true
  freed : ∀ {r}, r < m.vmCurr → (m.vm r).free = true → (m.vm r).file = false
  cleared : ∀ {r}, r < m.vmCurr → (m.vm r).free = false → (m.vm r).ptr = none →
    (m.vm r).file = true
  fresh : ∀ {r}, m.vmCurr ≤ r → r < m.vmTot →
    (m.vm r).free = false ∧ (m.vm r).file = false ∧ (m.vm r).process = false
  apart : ∀ {a w}, m.heap a = some w → m.unmanaged a = none

section Inv

variable {m m' : Velymem} {r : Nat} {a : Addr} {p : Ptr}

/-- A free slot points nowhere. -/
theorem Inv.ptr_of_free (h : m.Inv) (hr : r < m.vmCurr) (hfree : (m.vm r).free = true) :
  (m.vm r).ptr = none
  := by
  cases hptr : (m.vm r).ptr with
  | none => rfl
  | some p =>
    cases p with
    | block a =>
      have hblock := (h.block hr hptr).2.1
      rw [hfree] at hblock
      cases hblock
    | file f =>
      have hfile := (h.file hr hptr).1
      rw [hfree] at hfile
      cases hfile

/-- The invariant is about the table and the memory. -/
theorem Inv.congr (h : m.Inv) (hvm : m'.vm = m.vm) (htot : m'.vmTot = m.vmTot)
    (hcurr : m'.vmCurr = m.vmCurr) (hfirst : m'.vmFirstFree = m.vmFirstFree)
    (hheap : m'.heap = m.heap) (hunmanaged : m'.unmanaged = m.unmanaged) :
  m'.Inv
  := by
  obtain ⟨vm, tot, curr, first, process, heap, unmanaged, files, opened, closed⟩ := m'
  subst hvm htot hcurr hfirst hheap hunmanaged
  exact ⟨h.top, h.freeList, h.owner, h.block, h.file, h.freed, h.cleared, h.fresh, h.apart⟩

theorem slot_of_lt (h : r < m.vmTot) :
  m.slot r = .ok (m.vm r)
  := if_pos h

/-! ### Taking a slot -/

/-- What `vely_add_mem` does: one slot that was free, or is behind the others, is taken. -/
structure Takes (m : Velymem) (p : Ptr) (r : Nat) (m' : Velymem) : Prop where
  was : r < m.vmCurr ∧ (m.vm r).free = true ∧ m.vmFirstFree = some r
    ∨ r = m.vmCurr ∧ m.vmFirstFree = none
  slot : m'.vm r = takenSlot (m.vm r) p m.memProcess
  others : ∀ i, i ≠ r → i < m'.vmCurr → i < m.vmCurr ∧ m'.vm i = m.vm i
  curr : r < m'.vmCurr ∧ m.vmCurr ≤ m'.vmCurr
  top : m'.vmCurr < m'.vmTot
  freeList : IsFreeList (fun i => (m'.vm i).nextFree) m'.vmFirstFree
    (fun i => i < m'.vmCurr ∧ (m'.vm i).free = true)
  fresh : ∀ {i}, m'.vmCurr ≤ i → i < m'.vmTot →
    (m'.vm i).free = false ∧ (m'.vm i).file = false ∧ (m'.vm i).process = false
  heap : m'.heap = m.heap
  unmanaged : m'.unmanaged = m.unmanaged
  files : m'.files = m.files
  opened : m'.opened = m.opened
  closed : m'.closed = m.closed
  memProcess : m'.memProcess = m.memProcess

/-- The first slot of the free list is taken. -/
theorem Inv.takes_first (h : m.Inv) (hfirst : m.vmFirstFree = some r) (p : Ptr) :
  Takes m p r (setSlot { m with vmFirstFree := (m.vm r).nextFree } r
    (takenSlot (m.vm r) p m.memProcess))
  := by
  have hlist := h.freeList
  rw [hfirst] at hlist
  obtain ⟨⟨hlt, hfree⟩, hrest⟩ := hlist.pop
  have hother : ∀ i, i ≠ r → Function.update m.vm r (takenSlot (m.vm r) p m.memProcess) i = m.vm i :=
    fun i hi => Function.update_of_ne hi ..
  have hself : Function.update m.vm r (takenSlot (m.vm r) p m.memProcess) r
      = takenSlot (m.vm r) p m.memProcess := Function.update_self ..
  constructor
  · exact Or.inl ⟨hlt, hfree, hfirst⟩
  · exact hself
  · intro i hi hlt'
    exact ⟨hlt', hother i hi⟩
  · exact ⟨hlt, Nat.le_refl _⟩
  · exact h.top
  · apply hrest.frame
    · rintro i ⟨-, hi⟩
      simp only [setSlot, hother i hi]
    · intro i
      by_cases hi : i = r
      · subst hi
        simp [setSlot, takenSlot]
      · simp only [setSlot, hother i hi]
        simp [hi]
  · intro i hle hlt'
    have hi : i ≠ r := by
      rintro rfl
      exact absurd hlt (not_lt.mpr hle)
    simp only [setSlot, hother i hi]
    exact h.fresh hle hlt'
  · rfl
  · rfl
  · rfl
  · rfl
  · rfl
  · rfl

/-- What the table is when a slot is taken behind the others. -/
theorem Inv.nextSlot (h : m.Inv) :
  m.nextSlot.vmCurr = m.vmCurr + 1 ∧ m.vmCurr + 1 < m.nextSlot.vmTot
    ∧ (∀ i, i < m.vmTot → m.nextSlot.vm i = m.vm i)
    ∧ (∀ {i}, m.vmCurr ≤ i → i < m.nextSlot.vmTot →
      (m.nextSlot.vm i).free = false ∧ (m.nextSlot.vm i).file = false
        ∧ (m.nextSlot.vm i).process = false)
  := by
  have htop := h.top
  rw [Velymem.nextSlot]
  split
  · refine ⟨rfl, ?_, ?_, ?_⟩
    · simp only [velymsize]
      omega
    · intro i hi
      simp only
      rw [if_neg (by omega)]
    · intro i hle hlt
      simp only at hlt ⊢
      split
      · exact ⟨rfl, rfl, rfl⟩
      · exact h.fresh hle (by omega)
  · refine ⟨rfl, ?_, fun i hi => rfl, fun hle hlt => h.fresh hle hlt⟩
    simp only
    omega

theorem nextSlot_frame (m : Velymem) :
  m.nextSlot.heap = m.heap ∧ m.nextSlot.unmanaged = m.unmanaged ∧ m.nextSlot.files = m.files
    ∧ m.nextSlot.opened = m.opened ∧ m.nextSlot.closed = m.closed ∧ m.nextSlot.memProcess = m.memProcess
    ∧ m.nextSlot.vmFirstFree = m.vmFirstFree
  := by
  rw [Velymem.nextSlot]
  split
  · exact ⟨rfl, rfl, rfl, rfl, rfl, rfl, rfl⟩
  · exact ⟨rfl, rfl, rfl, rfl, rfl, rfl, rfl⟩

/-- The slot behind the others is taken. -/
theorem Inv.takes_next (h : m.Inv) (hfirst : m.vmFirstFree = none) (p : Ptr) :
  Takes m p m.vmCurr (m.nextSlot.setSlot m.vmCurr
    (takenSlot (m.nextSlot.vm m.vmCurr) p m.nextSlot.memProcess))
  := by
  obtain ⟨hcurr, htop, hsame, hfresh⟩ := h.nextSlot
  obtain ⟨hheap, hunmanaged, hfiles, hopened, hclosed, hprocess, hff⟩ := nextSlot_frame m
  have hother : ∀ i v, i ≠ m.vmCurr →
      Function.update m.nextSlot.vm m.vmCurr v i = m.nextSlot.vm i :=
    fun i v hi => Function.update_of_ne hi ..
  have hnone := h.freeList
  rw [hfirst] at hnone
  constructor
  · exact Or.inr ⟨rfl, hfirst⟩
  · simp only [setSlot, Function.update_self, hsame _ h.top, hprocess]
  · intro i hi hlt
    have hlt' : i < m.vmCurr := by
      change i < m.nextSlot.vmCurr at hlt
      omega
    refine ⟨hlt', ?_⟩
    simp only [setSlot, hother i _ hi]
    apply hsame i (Nat.lt_trans hlt' h.top)
  · change m.vmCurr < m.nextSlot.vmCurr ∧ m.vmCurr ≤ m.nextSlot.vmCurr
    omega
  · change m.nextSlot.vmCurr < m.nextSlot.vmTot
    omega
  · simp only [setSlot]
    rw [hff, hfirst]
    apply IsFreeList.empty
    rintro i ⟨hlt, hfree⟩
    by_cases hi : i = m.vmCurr
    · subst hi
      rw [Function.update_self] at hfree
      cases hfree
    · rw [hother i _ hi, hsame i (by have := h.top; omega)] at hfree
      exact hnone.none i ⟨by omega, hfree⟩
  · intro i hle hlt
    simp only [setSlot] at hle hlt ⊢
    rw [hother i _ (by omega)]
    exact hfresh (by omega) hlt
  · exact hheap
  · exact hunmanaged
  · exact hfiles
  · exact hopened
  · exact hclosed
  · exact hprocess

/-- `vely_add_mem` takes a slot. -/
theorem Inv.velyAddMem (h : m.Inv) (p : Ptr) :
  ∃ r m', Velymem.velyAddMem p m = .ok (r, m') ∧ Takes m p r m'
  := by
  cases hfirst : m.vmFirstFree with
  | some r =>
    have htakes := h.takes_first hfirst p
    have hlt : r < m.vmTot := by
      rcases htakes.was with hwas | hwas
      · exact Nat.lt_trans hwas.1 h.top
      · rw [hwas.1]
        exact h.top
    refine ⟨r, _, ?_, htakes⟩
    rw [Velymem.velyAddMem, hfirst]
    simp only
    rw [slot_of_lt hlt]
    rfl
  | none =>
    refine ⟨m.vmCurr, _, ?_, h.takes_next hfirst p⟩
    rw [Velymem.velyAddMem, hfirst]
    simp only
    rw [slot_of_lt (Nat.lt_of_succ_lt h.nextSlot.2.1)]
    rfl

/-! ### What is done with a slot -/

/-- The slot that is taken for a block points to it, and its index is stored in front of the block.
-/
theorem Takes.inv_block (h : m.Inv) (ht : Takes m (.block a) r m') (hheap : m.heap a = none) :
  (velyVmset a r m').Inv
  := by
  have hself : (m'.vm r).ptr = some (.block a) := by
    rw [ht.slot]
    rfl
  have hfile : (m.vm r).file = false := by
    rcases ht.was with ⟨hlt, hfree, -⟩ | ⟨rfl, -⟩
    · exact h.freed hlt hfree
    · exact (h.fresh (Nat.le_refl _) h.top).2.1
  have hnot : ∀ i b, i < m.vmCurr → (m.vm i).ptr = some (.block b) → b ≠ a := by
    rintro i b hi hptr rfl
    rw [(h.block hi hptr).1] at hheap
    cases hheap
  have hptr : ∀ b, (m.vm r).ptr = some (.block b) → ¬ r < m.vmCurr := by
    intro b hptr hlt
    rcases ht.was with ⟨-, hfree, -⟩ | ⟨rfl, -⟩
    · rw [h.ptr_of_free hlt hfree] at hptr
      cases hptr
    · exact absurd hlt (lt_irrefl _)
  constructor
  · exact ht.top
  · exact ht.freeList
  · intro b w hb
    simp only [velyVmset, ht.heap] at hb
    by_cases hba : b = a
    · subst hba
      rw [Mem.set_self] at hb
      exact ⟨r, (Option.some.inj hb).symm, ht.curr.1, hself⟩
    · rw [Mem.set_of_ne _ _ hba] at hb
      obtain ⟨i, hw, hi, hib⟩ := h.owner hb
      have hir : i ≠ r := by
        rintro rfl
        exact hptr b hib hi
      refine ⟨i, hw, Nat.lt_of_lt_of_le hi ht.curr.2, ?_⟩
      simp only [velyVmset]
      rw [(ht.others i hir (Nat.lt_of_lt_of_le hi ht.curr.2)).2]
      exact hib
  · intro i b hi hib
    simp only [velyVmset, ht.heap] at hi hib ⊢
    by_cases hir : i = r
    · subst hir
      rw [hself] at hib
      cases hib
      rw [Mem.set_self, ht.slot]
      exact ⟨rfl, rfl, hfile⟩
    · obtain ⟨hi', hvm⟩ := ht.others i hir hi
      rw [hvm] at hib ⊢
      rw [Mem.set_of_ne _ _ (hnot i b hi' hib)]
      exact h.block hi' hib
  · intro i f hi hif
    simp only [velyVmset] at hi hif ⊢
    by_cases hir : i = r
    · subst hir
      rw [hself] at hif
      cases hif
    · obtain ⟨hi', hvm⟩ := ht.others i hir hi
      rw [hvm] at hif ⊢
      exact h.file hi' hif
  · intro i hi hfree
    simp only [velyVmset] at hi hfree ⊢
    by_cases hir : i = r
    · subst hir
      rw [ht.slot] at hfree
      cases hfree
    · obtain ⟨hi', hvm⟩ := ht.others i hir hi
      rw [hvm] at hfree ⊢
      exact h.freed hi' hfree
  · intro i hi hfree hnone
    simp only [velyVmset] at hi hfree hnone ⊢
    by_cases hir : i = r
    · subst hir
      rw [hself] at hnone
      cases hnone
    · obtain ⟨hi', hvm⟩ := ht.others i hir hi
      rw [hvm] at hfree hnone ⊢
      exact h.cleared hi' hfree hnone
  · exact ht.fresh
  · intro b w hb
    simp only [velyVmset, ht.heap, ht.unmanaged] at hb ⊢
    by_cases hba : b = a
    · rw [hba, Mem.erase_self]
    · rw [Mem.set_of_ne _ _ hba] at hb
      rw [Mem.erase_of_ne _ hba]
      exact h.apart hb

/-- The slot that is taken for a file variable has the status of one. -/
theorem Takes.inv_file {f : Nat} (h : m.Inv) (ht : Takes m (.file f) r m') :
  (m'.setSlot r { m'.vm r with file := true }).Inv
  := by
  have hself : (m'.vm r).ptr = some (.file f) := by
    rw [ht.slot]
    rfl
  have hself' : Function.update m'.vm r { m'.vm r with file := true } r
      = { m'.vm r with file := true } := Function.update_self ..
  have hother : ∀ i, i ≠ r → Function.update m'.vm r { m'.vm r with file := true } i = m'.vm i :=
    fun i hi => Function.update_of_ne hi ..
  constructor
  · exact ht.top
  · apply ht.freeList.frame
    · rintro i -
      simp only [setSlot]
      by_cases hir : i = r
      · rw [hir, hself']
      · rw [hother i hir]
    · intro i
      simp only [setSlot]
      by_cases hir : i = r
      · rw [hir, hself']
      · rw [hother i hir]
  · intro b w hb
    simp only [setSlot, ht.heap] at hb ⊢
    obtain ⟨i, hw, hi, hib⟩ := h.owner hb
    have hir : i ≠ r := by
      rintro rfl
      rcases ht.was with ⟨-, hfree, -⟩ | ⟨rfl, -⟩
      · rw [h.ptr_of_free hi hfree] at hib
        cases hib
      · exact absurd hi (lt_irrefl _)
    refine ⟨i, hw, Nat.lt_of_lt_of_le hi ht.curr.2, ?_⟩
    rw [hother i hir, (ht.others i hir (Nat.lt_of_lt_of_le hi ht.curr.2)).2]
    exact hib
  · intro i b hi hib
    simp only [setSlot, ht.heap] at hi hib ⊢
    by_cases hir : i = r
    · rw [hir, hself', hself] at hib
      cases hib
    · obtain ⟨hi', hvm⟩ := ht.others i hir hi
      rw [hother i hir, hvm] at hib ⊢
      exact h.block hi' hib
  · intro i g hi hig
    simp only [setSlot] at hi hig ⊢
    by_cases hir : i = r
    · rw [hir, hself', ht.slot]
      exact ⟨rfl, rfl⟩
    · obtain ⟨hi', hvm⟩ := ht.others i hir hi
      rw [hother i hir, hvm] at hig ⊢
      exact h.file hi' hig
  · intro i hi hfree
    simp only [setSlot] at hi hfree ⊢
    by_cases hir : i = r
    · rw [hir, hself', ht.slot] at hfree
      cases hfree
    · obtain ⟨hi', hvm⟩ := ht.others i hir hi
      rw [hother i hir, hvm] at hfree ⊢
      exact h.freed hi' hfree
  · intro i hi hfree hnone
    simp only [setSlot] at hi hfree hnone ⊢
    by_cases hir : i = r
    · rw [hir, hself']
    · obtain ⟨hi', hvm⟩ := ht.others i hir hi
      rw [hother i hir, hvm] at hfree hnone ⊢
      exact h.cleared hi' hfree hnone
  · intro i hle hlt
    simp only [setSlot] at hle hlt ⊢
    have hir : i ≠ r := by
      rintro rfl
      exact absurd ht.curr.1 (not_lt.mpr hle)
    rw [hother i hir]
    exact ht.fresh hle hlt
  · intro b w hb
    simp only [setSlot, ht.heap, ht.unmanaged] at hb ⊢
    exact h.apart hb

end Inv

end Velymem

end Vely
