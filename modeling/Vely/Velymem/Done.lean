import Mathlib.Data.List.Perm.Basic
import Vely.Velymem.Release

/-!
# The end of a request

At the end of a request the slots are visited one after the other.  What is done to a slot does not
touch the others, so that what is done to all of them is known from what is done to each.
-/

namespace Vely

namespace Velymem

/-- The file variables and the files that are open. -/
structure FilesOk (m : Velymem) : Prop where
  nodup : m.opened.Nodup
  opened : ∀ {f h}, m.files f = some h → h ∈ m.opened
  distinct : ∀ {f g h}, m.files f = some h → m.files g = some h → f = g

/-- What every call keeps of the table and of the files. -/
structure Sound (m : Velymem) : Prop extends Inv m, FilesOk m

/-- The slot is that of a block which is not of the process. -/
def IsRequest (m : Velymem) (i : Nat) : Prop :=
  (∃ a, (m.vm i).ptr = some (.block a)) ∧ (m.vm i).process = false

/-- The slot is that of a block of the process. -/
def IsProcess (m : Velymem) (i : Nat) : Prop :=
  (∃ a, (m.vm i).ptr = some (.block a)) ∧ (m.vm i).process = true

/-- What becomes of the table when the slots `is` are visited. -/
structure Visited (is : List Nat) (m m' : Velymem) : Prop where
  curr : m'.vmCurr = m.vmCurr
  memProcess : m'.memProcess = m.memProcess
  unmanaged : m'.unmanaged = m.unmanaged
  process : ∀ i, (m'.vm i).process = (m.vm i).process
  kept : ∀ i, ¬ (i ∈ is ∧ m.IsRequest i) → m'.vm i = m.vm i
  freed : ∀ i ∈ is, m.IsRequest i → (m'.vm i).ptr = none ∧ (m'.vm i).free = true
  heap : ∀ a w, m'.heap a = some w
    ↔ m.heap a = some w ∧ ¬ (w.toNat ∈ is ∧ (m.vm w.toNat).process = false)

/-- What becomes of the files when the slots `is` are visited. -/
structure Closes (is : List Nat) (m m' : Velymem) : Prop where
  files : ∀ i ∈ is, ∀ f, (m.vm i).ptr = some (.file f) → m'.files f = none
  left : ∀ h ∈ m'.opened, ∀ f, m.files f = some h → m'.files f = some h
  fewer : ∀ f h, m'.files f = some h → m.files f = some h
  closed : ∃ hs, m'.closed = m.closed ++ hs ∧ (hs ++ m'.opened).Perm m.opened

section Visited

variable {m m₁ m' : Velymem} {i : Nat} {is : List Nat} {a : Addr}

/-- There is nothing to visit. -/
theorem Visited.nil (m : Velymem) :
  Visited [] m m
  := by
  constructor
  · rfl
  · rfl
  · rfl
  · intro i
    rfl
  · intro i _
    rfl
  · intro i hi
    cases hi
  · intro a w
    simp

/-- One slot is visited, then the others. -/
theorem Visited.cons (h : Visited [i] m m₁) (h' : Visited is m₁ m') :
  Visited (i :: is) m m'
  := by
  have hreq : ∀ j, m₁.vm j = m.vm j → (m₁.IsRequest j ↔ m.IsRequest j) := by
    intro j hj
    rw [IsRequest, IsRequest, hj]
  constructor
  · rw [h'.curr, h.curr]
  · rw [h'.memProcess, h.memProcess]
  · rw [h'.unmanaged, h.unmanaged]
  · intro j
    rw [h'.process, h.process]
  · intro j hj
    have hj₁ : m₁.vm j = m.vm j := by
      apply h.kept
      rintro ⟨hji, hr⟩
      apply hj
      exact ⟨List.mem_cons.mpr (Or.inl (List.mem_singleton.mp hji)), hr⟩
    rw [← hj₁]
    apply h'.kept
    rintro ⟨hmem, hr⟩
    apply hj
    exact ⟨List.mem_cons_of_mem i hmem, (hreq j hj₁).mp hr⟩
  · intro j hj hr
    by_cases hji : j = i
    · subst hji
      have hfreed := h.freed j (List.mem_singleton_self j) hr
      rw [h'.kept j]
      · exact hfreed
      · rintro ⟨-, ⟨a, ha⟩, -⟩
        rw [hfreed.1] at ha
        cases ha
    · have hj₁ : m₁.vm j = m.vm j := by
        apply h.kept
        rintro ⟨hmem, -⟩
        exact hji (List.mem_singleton.mp hmem)
      apply h'.freed j _ ((hreq j hj₁).mpr hr)
      rcases List.mem_cons.mp hj with hmem | hmem
      · exact absurd hmem hji
      · exact hmem
  · intro a w
    simp only [h'.heap, h.heap, h.process, List.mem_cons, List.not_mem_nil, or_false]
    tauto

theorem Closes.nil (m : Velymem) :
  Closes [] m m
  := by
  constructor
  · intro i hi
    cases hi
  · intro h _ f hf
    exact hf
  · intro f h hf
    exact hf
  · exact ⟨[], (List.append_nil _).symm, List.Perm.refl _⟩

/-- The file of one slot is closed, then those of the others. -/
theorem Closes.cons (hv : Visited [i] m m₁) (h : Closes [i] m m₁) (h' : Closes is m₁ m') :
  Closes (i :: is) m m'
  := by
  have hstays : ∀ f, m₁.files f = none → m'.files f = none := by
    intro f hf
    cases hf' : m'.files f with
    | none => rfl
    | some k =>
      rw [h'.fewer f k hf'] at hf
      cases hf
  constructor
  · intro j hj f hf
    rcases List.mem_cons.mp hj with rfl | hj
    · exact hstays f (h.files j (List.mem_singleton_self j) f hf)
    · apply h'.files j hj
      rw [hv.kept j, hf]
      rintro ⟨-, ⟨a, ha⟩, -⟩
      rw [hf] at ha
      cases ha
  · intro k hk f hf
    apply h'.left k hk
    apply h.left k _ f hf
    obtain ⟨hs, -, hperm⟩ := h'.closed
    exact hperm.subset (List.mem_append_right hs hk)
  · intro f k hf
    exact h.fewer f k (h'.fewer f k hf)
  · obtain ⟨hs, hclosed, hperm⟩ := h.closed
    obtain ⟨hs', hclosed', hperm'⟩ := h'.closed
    use hs ++ hs'
    constructor
    · rw [hclosed', hclosed, List.append_assoc]
    · rw [List.append_assoc]
      exact (hperm'.append_left hs).trans hperm

/-! ### One slot -/

/-- The file of a variable is closed. -/
theorem FilesOk.closeVariable (h : m.FilesOk) (f : Nat) :
  ∃ m', Velymem.closeVariable f m = .ok m' ∧ m'.FilesOk ∧ m'.files f = none
    ∧ m' = { m with files := m'.files, opened := m'.opened }
    ∧ (∀ k ∈ m'.opened, ∀ g, m.files g = some k → m'.files g = some k)
    ∧ (∀ g k, m'.files g = some k → m.files g = some k)
    ∧ ((m.files f).toList ++ m'.opened).Perm m.opened
  := by
  rw [Velymem.closeVariable]
  cases hf : m.files f with
  | none =>
    refine ⟨m, rfl, h, hf, rfl, ?_, ?_, List.Perm.refl _⟩
    · intro k _ g hg
      exact hg
    · intro g k hg
      exact hg
  | some k =>
    have hk := h.opened hf
    have hother : ∀ g j, Function.update m.files f none g = some j → m.files g = some j ∧ g ≠ f := by
      intro g j hg
      by_cases hgf : g = f
      · rw [hgf, Function.update_self] at hg
        cases hg
      · rw [Function.update_of_ne hgf] at hg
        exact ⟨hg, hgf⟩
    simp only [if_pos hk]
    refine ⟨_, rfl, ?_, Function.update_self .., rfl, ?_, ?_, ?_⟩
    · constructor
      · exact h.nodup.erase k
      · intro g j hg
        obtain ⟨hgj, hgf⟩ := hother g j hg
        rw [h.nodup.mem_erase_iff]
        refine ⟨?_, h.opened hgj⟩
        rintro rfl
        exact hgf (h.distinct hgj hf)
      · intro g g' j hg hg'
        exact h.distinct (hother g j hg).1 (hother g' j hg').1
    · intro j hj g hg
      simp only at hj ⊢
      rw [Function.update_of_ne, hg]
      rintro rfl
      rw [hf] at hg
      obtain rfl := Option.some.inj hg
      exact (h.nodup.mem_erase_iff.mp hj).1 rfl
    · intro g j hg
      exact (hother g j hg).1
    · exact (List.perm_cons_erase hk).symm

/-- The visit of a slot that is left as it is. -/
theorem Visited.leaves (h : ∀ b, (m.vm i).ptr = some (.block b) → (m.vm i).process = true)
    (hinv : m.Inv) :
  Visited [i] m m
  := by
  constructor
  · rfl
  · rfl
  · rfl
  · intro i
    rfl
  · intro i _
    rfl
  · intro j hj hr
    obtain rfl := List.mem_singleton.mp hj
    obtain ⟨⟨b, hb⟩, hp⟩ := hr
    rw [h b hb] at hp
    cases hp
  · intro b w
    constructor
    · intro hb
      refine ⟨hb, ?_⟩
      rintro ⟨hw, hp⟩
      obtain ⟨r, rfl, hr, -, hptr, -⟩ := hinv.index hb
      rw [Int.toNat_natCast] at hw hp
      obtain rfl := List.mem_singleton.mp hw
      rw [h b hptr] at hp
      cases hp
    · exact fun hb => hb.1

/-- The visit of a slot with a block that is freed. -/
theorem Visited.frees (hinv : m.Inv) (ha : m.heap a = some (i : Int))
    (hp : (m.vm i).process = false) :
  Visited [i] m (m.released a i)
  := by
  obtain ⟨r, hr, hcurr, -, hptr, -, -⟩ := hinv.index ha
  obtain rfl := Int.ofNat_inj.mp hr
  constructor
  · rfl
  · rfl
  · rfl
  · intro j
    by_cases hj : j = i
    · rw [hj, released_self]
    · rw [released_of_ne m a hj]
  · intro j hj
    apply released_of_ne
    rintro rfl
    exact hj ⟨List.mem_singleton_self j, ⟨a, hptr⟩, hp⟩
  · intro j hj _
    rw [List.mem_singleton.mp hj, released_self]
    exact ⟨rfl, rfl⟩
  · intro b w
    simp only [Velymem.released]
    by_cases hb : b = a
    · rw [hb, Mem.erase_self, ha]
      simp only [reduceCtorEq, false_iff, not_and, Option.some.injEq]
      rintro rfl hnot
      rw [Int.toNat_natCast] at hnot
      exact hnot (List.mem_singleton_self i) hp
    · rw [Mem.erase_of_ne _ hb, iff_self_and]
      rintro hw ⟨hwi, -⟩
      obtain ⟨j, rfl, hj, -, hjb, -⟩ := hinv.index hw
      rw [Int.toNat_natCast, List.mem_singleton] at hwi
      rw [hwi, hptr] at hjb
      cases hjb
      exact hb rfl

/-- What a visit that closes no file does to the files. -/
theorem Closes.of_same (hptr : ∀ f, (m.vm i).ptr ≠ some (.file f)) (hfiles : m'.files = m.files)
    (hopened : m'.opened = m.opened) (hclosed : m'.closed = m.closed) :
  Closes [i] m m'
  := by
  constructor
  · intro j hj f hf
    obtain rfl := List.mem_singleton.mp hj
    exact absurd hf (hptr f)
  · intro k _ f hf
    rw [hfiles, hf]
  · intro f k hf
    rw [← hfiles, hf]
  · use []
    rw [hclosed, hopened, List.append_nil]
    exact ⟨rfl, List.Perm.refl _⟩

/-- The visit of one slot. -/
theorem Sound.doneSlot (h : m.Sound) (hi : i < m.vmCurr) (keep : Bool) :
  ∃ m' keep', Velymem.doneSlot i m keep = .ok (m', keep') ∧ m'.Sound ∧ Visited [i] m m'
    ∧ Closes [i] m m' ∧ (keep' = true ↔ keep = true ∨ m.IsProcess i)
  := by
  have htot : i < m.vmTot := Nat.lt_trans hi h.top
  rw [Velymem.doneSlot, slot_of_lt htot, ok_bind]
  cases hptr : (m.vm i).ptr with
  | none =>
    have hnone : ∀ p, (m.vm i).ptr ≠ some p := by
      intro p
      rw [hptr]
      simp
    refine ⟨m, keep, ?_, h, Visited.leaves (fun b hb => absurd hb (hnone _)) h.toInv,
      Closes.of_same (fun f => hnone _) rfl rfl rfl, ?_⟩
    · split
      · rfl
      · rfl
    · rw [IsProcess]
      simp [hptr]
  | some p =>
    cases p with
    | file f =>
      obtain ⟨hfree, hfile⟩ := h.file hi hptr
      obtain ⟨m₁, hclose, hok, hnone, hsame, hleft, hfewer, hperm⟩ := h.toFilesOk.closeVariable f
      simp only [hfree, hfile, Bool.false_eq_true, if_false, if_true, hclose, ok_bind]
      rw [hsame]
      refine ⟨_, keep, rfl, ⟨h.toInv.congr rfl rfl rfl rfl rfl rfl,
        ⟨hok.nodup, hok.opened, hok.distinct⟩⟩, ?_, ?_, ?_⟩
      · have hleaves := Visited.leaves (i := i)
          (fun b hb => absurd (hptr.symm.trans hb) (by simp)) h.toInv
        exact ⟨rfl, rfl, rfl, hleaves.process, hleaves.kept, hleaves.freed, hleaves.heap⟩
      · constructor
        · intro j hj g hg
          obtain rfl := List.mem_singleton.mp hj
          rw [hptr] at hg
          cases hg
          exact hnone
        · exact hleft
        · exact hfewer
        · exact ⟨_, rfl, hperm⟩
      · rw [IsProcess]
        simp [hptr]
    | block a =>
      obtain ⟨ha, hfree, hfile⟩ := h.block hi hptr
      have hnofile : ∀ f, (m.vm i).ptr ≠ some (.file f) := by
        intro f
        rw [hptr]
        simp
      simp only [hfree, hfile, Bool.false_eq_true, if_false]
      cases hp : (m.vm i).process with
      | true =>
        refine ⟨m, true, rfl, h, Visited.leaves (fun _ _ => hp) h.toInv,
          Closes.of_same hnofile rfl rfl rfl, ?_⟩
        rw [IsProcess]
        simp [hptr, hp]
      | false =>
        simp only [Bool.false_eq_true, if_false]
        rw [h.toInv.velyFree ha]
        refine ⟨m.released a i, keep, rfl, ⟨h.toInv.released ha,
          ⟨h.nodup, h.opened, h.distinct⟩⟩, Visited.frees h.toInv ha hp,
          Closes.of_same hnofile rfl rfl rfl, ?_⟩
        rw [IsProcess]
        simp [hp]

/-- The visit of the slots of a list. -/
theorem Sound.doneLoop (h : m.Sound) (his : ∀ i ∈ is, i < m.vmCurr) (keep : Bool) :
  ∃ m' keep', Velymem.doneLoop is m keep = .ok (m', keep') ∧ m'.Sound ∧ Visited is m m'
    ∧ Closes is m m' ∧ (keep' = true ↔ keep = true ∨ ∃ i ∈ is, m.IsProcess i)
  := by
  induction is generalizing m keep with
  | nil =>
    refine ⟨m, keep, rfl, h, Visited.nil m, Closes.nil m, ?_⟩
    simp
  | cons i is ih =>
    obtain ⟨m₁, keep₁, hslot, h₁, hv₁, hc₁, hkeep₁⟩ :=
      h.doneSlot (his i (List.mem_cons_self ..)) keep
    have his₁ : ∀ j ∈ is, j < m₁.vmCurr := by
      intro j hj
      rw [hv₁.curr]
      exact his j (List.mem_cons_of_mem i hj)
    obtain ⟨m', keep', hloop, h', hv, hc, hkeep⟩ := ih h₁ his₁ keep₁
    refine ⟨m', keep', ?_, h', hv₁.cons hv, hc₁.cons hv₁ hc, ?_⟩
    · rw [Velymem.doneLoop, hslot, ok_bind]
      exact hloop
    · have hsame : ∀ j, m₁.IsProcess j ↔ m.IsProcess j := by
        intro j
        by_cases hr : m.IsRequest j
        · rw [IsProcess, IsProcess, hv₁.process, hr.2]
          simp
        · rw [IsProcess, IsProcess, hv₁.kept j (fun hj => hr hj.2)]
      rw [hkeep, hkeep₁]
      simp only [hsame, List.exists_mem_cons_iff]
      rw [or_assoc]

end Visited

/-! ### The whole table -/

/-- What becomes of the memory at the end of a request: the table is kept when there is a block of
the process, and is discarded when there is none. -/
structure Ended (m m' : Velymem) : Prop where
  memProcess : m'.memProcess = m.memProcess
  heap : ∀ a w, m'.heap a = some w ↔ m.heap a = some w ∧ (m.vm w.toNat).process = true
  closes : Closes (List.range m.vmCurr) m m'
  table : (∃ i < m.vmCurr, m.IsProcess i) ∧ m'.vmCurr = m.vmCurr
      ∧ (∀ i < m.vmCurr, ¬ m.IsRequest i → m'.vm i = m.vm i)
      ∧ (∀ i < m.vmCurr, m.IsRequest i → (m'.vm i).ptr = none ∧ (m'.vm i).free = true)
    ∨ (∀ i < m.vmCurr, ¬ m.IsProcess i) ∧ m'.vmCurr = 0

/-- A new table has no slots in use. -/
theorem newTable_sound {m : Velymem} (h : m.FilesOk) (hheap : ∀ a, m.heap a = none) :
  m.newTable.Sound
  := by
  have hnone : ∀ {i : Nat}, ¬ i < m.newTable.vmCurr := fun hi => Nat.not_lt_zero _ hi
  constructor
  · constructor
    · exact Nat.zero_lt_of_lt (Nat.lt_succ_self 511)
    · apply IsFreeList.empty
      rintro i ⟨hi, -⟩
      exact hnone hi
    · intro a w ha
      rw [newTable, hheap] at ha
      cases ha
    · intro i a hi
      exact absurd hi hnone
    · intro i f hi
      exact absurd hi hnone
    · intro i hi
      exact absurd hi hnone
    · intro i hi
      exact absurd hi hnone
    · intro i _ _
      exact ⟨rfl, rfl, rfl⟩
    · intro a w ha
      rw [newTable, hheap] at ha
      cases ha
  · exact ⟨h.nodup, h.opened, h.distinct⟩

/-- The end of a request. -/
theorem Sound.velyDone {m : Velymem} (h : m.Sound) :
  ∃ m', Velymem.velyDone m = .ok m' ∧ m'.Sound ∧ Ended m m'
  := by
  have hrange : ∀ i ∈ List.range m.vmCurr, i < m.vmCurr := fun i hi => List.mem_range.mp hi
  obtain ⟨m₁, keep, hloop, h₁, hv, hc, hkeep⟩ := h.doneLoop hrange false
  simp only [Bool.false_eq_true, false_or, List.mem_range] at hkeep
  have hheap : ∀ a w, m₁.heap a = some w ↔ m.heap a = some w ∧ (m.vm w.toNat).process = true := by
    intro a w
    rw [hv.heap, List.mem_range]
    apply and_congr_right
    intro ha
    obtain ⟨r, rfl, hr, -⟩ := h.index ha
    simp [hr]
  rw [Velymem.velyDone, hloop, ok_bind]
  cases keep with
  | true =>
    refine ⟨m₁, rfl, h₁, hv.memProcess, hheap, hc, ?_⟩
    refine Or.inl ⟨hkeep.mp rfl, hv.curr, ?_, ?_⟩
    · intro i _ hr
      exact hv.kept i (fun hi => hr hi.2)
    · intro i hi hr
      exact hv.freed i (List.mem_range.mpr hi) hr
  | false =>
    have hno : ∀ i < m.vmCurr, ¬ m.IsProcess i := by
      intro i hi hp
      exact Bool.false_ne_true (hkeep.mpr ⟨i, hi, hp⟩)
    have hempty : ∀ a, m₁.heap a = none := by
      intro a
      cases ha : m₁.heap a with
      | none => rfl
      | some w =>
        obtain ⟨ha, hp⟩ := (hheap a w).mp ha
        obtain ⟨r, rfl, hr, -, hptr, -⟩ := h.index ha
        exact absurd ⟨⟨a, hptr⟩, hp⟩ (hno r hr)
    refine ⟨m₁.newTable, rfl, newTable_sound h₁.toFilesOk hempty, hv.memProcess, hheap, ?_,
      Or.inr ⟨hno, rfl⟩⟩
    exact ⟨hc.files, hc.left, hc.fewer, hc.closed⟩

end Velymem

end Vely
