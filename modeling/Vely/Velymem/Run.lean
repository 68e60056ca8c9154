import Vely.Velymem.Done

/-!
# Runs of the memory

A run is a sequence of calls over any number of requests: managed memory is allocated, resized,
freed and marked as that of the process, files are opened and closed, other memory is allocated, and
requests end.  The table and the files stay sound in every run.
-/

namespace Vely

namespace Velymem

/-- A call.  The address of new memory is chosen by the system, and so is the word that is read in
front of memory that is not live. -/
inductive Call where
  | scope (process : Bool)
  | malloc (a : Addr)
  | calloc (a : Addr)
  | realloc (p : Option Addr) (b : Addr) (safe : Bool)
  | free (p : Option Addr)
  | safeFree (p : Option Addr) (word : Option Int)
  | setProcess (a : Addr)
  | openFile (f : Nat) (h : Option Nat)
  | closeFile (f mind : Nat)
  | osMalloc (a : Addr) (word : Int)
  | osFree (a : Addr)
  | done

/-- Make a call; the answer is whether it was done. -/
def Call.exec (c : Call) (m : Velymem) : Except Stop (Bool × Velymem) :=
  match c with
  | .scope process => .ok (true, { m with memProcess := process })
  | .malloc a => do return (true, ← velyMalloc a m)
  | .calloc a => do return (true, ← velyCalloc a m)
  | .realloc p b safe => do
    match ← velyRealloc p b safe m with
    | some m => return (true, m)
    | none => return (false, m)
  | .free p => velyFree p false none m
  | .safeFree p word => velyFree p true word m
  | .setProcess a => do
    match ← velyMemSetProcess a m with
    | some m => return (true, m)
    | none => return (false, m)
  | .openFile f h => do return (true, ← Velymem.openFile f h m)
  | .closeFile f mind => do return (true, ← Velymem.closeFile f mind m)
  | .osMalloc a word =>
    if m.inUse a then .error .outOfMemory
    else .ok (true, { m with unmanaged := m.unmanaged.set a word })
  | .osFree a => do return (true, { m with unmanaged := ← m.unmanaged.free a })
  | .done => do return (true, ← velyDone m)

/-- What a program may call: memory that is resized, freed without a check or marked is live, what
is in front of memory that is freed with a check can be read, the files of the system are distinct,
and a file is closed through its own registration. -/
def Call.Allowed (c : Call) (m : Velymem) : Prop :=
  match c with
  | .realloc (some a) _ _ => (m.heap a).isSome
  | .free (some a) => (m.heap a).isSome
  | .safeFree (some a) word => ∃ w, m.velyGetMemory a word = .ok w
  | .setProcess a => (m.heap a).isSome
  | .openFile _ (some h) => h ∉ m.opened
  | .closeFile f mind => mind < m.vmCurr ∧ (m.vm mind).ptr = some (.file f)
  | .osFree a => (m.unmanaged a).isSome
  | _ => True

/-- The memory after a run from `m₀` whose calls all satisfy `P`. -/
inductive Reach (P : Call → Velymem → Prop) (m₀ : Velymem) : Velymem → Prop
  | refl : Reach P m₀ m₀
  | call {m m' : Velymem} {c : Call} {answer : Bool} :
    Reach P m₀ m → c.Allowed m → P c m → c.exec m = .ok (answer, m') → Reach P m₀ m'

/-- The memory after any run of a program. -/
abbrev Reachable : Velymem → Prop := Reach (fun _ _ => True) start

/-- A run that satisfies more satisfies less. -/
theorem Reach.mono {P Q : Call → Velymem → Prop} {m₀ m : Velymem} (h : Reach P m₀ m)
    (hPQ : ∀ c m, P c m → Q c m) :
  Reach Q m₀ m
  := by
  induction h with
  | refl => exact .refl
  | call _ hallowed hp hexec ih => exact .call ih hallowed (hPQ _ _ hp) hexec

section Run

variable {m m' : Velymem} {a : Addr}

/-- The memory is sound when the table is and the files are as they were. -/
theorem Sound.of_inv (h : m.Sound) (hinv : m'.Inv) (hfiles : m'.files = m.files)
    (hopened : m'.opened = m.opened) :
  m'.Sound
  := by
  refine ⟨hinv, ?_⟩
  constructor
  · rw [hopened]
    exact h.nodup
  · intro f k hf
    rw [hfiles] at hf
    rw [hopened]
    exact h.opened hf
  · intro f g k hf hg
    rw [hfiles] at hf hg
    exact h.distinct hf hg

/-- Other memory may be what it likes, as long as it is not where a block is. -/
theorem Sound.withUnmanaged (h : m.Sound) {u : Mem Int}
    (hu : ∀ b w, m.heap b = some w → u b = none) :
  Sound { m with unmanaged := u }
  := by
  have hinv : Velymem.Inv { m with unmanaged := u } :=
    ⟨h.top, h.freeList, h.owner, h.block, h.file, h.freed, h.cleared, h.fresh, @fun b w => hu b w⟩
  exact h.of_inv hinv rfl rfl

/-- Other memory that is allocated is not where a block is. -/
theorem Inv.apart_set (h : m.Inv) (ha : m.heap a = none) (word : Int) :
  ∀ b w, m.heap b = some w → m.unmanaged.set a word b = none
  := by
  intro b w hb
  rw [Mem.set_of_ne]
  · exact h.apart hb
  · rintro rfl
    rw [ha] at hb
    cases hb

/-- A new block is in the table. -/
theorem Sound.velyMalloc (h : m.Sound) (a : Addr) :
  Ends (Velymem.velyMalloc a m) Sound
  := by
  apply (h.toInv.velyMalloc a).mono
  rintro m' ⟨hheap, -, r, m₁, ht, rfl⟩
  exact h.of_inv (ht.inv_block h.toInv hheap) ht.files ht.opened

/-- A block that was resized is in the table. -/
theorem Sound.velyRealloc (h : m.Sound) (ha : (m.heap a).isSome = true) (b : Addr) (safe : Bool) :
  Ends (Velymem.velyRealloc (some a) b safe m) (fun o => ∃ m', o = some m' ∧ m'.Sound)
  := by
  obtain ⟨w, hw⟩ := Option.isSome_iff_exists.mp ha
  apply (h.toInv.velyRealloc hw b safe).mono
  rintro o ⟨r, m₁, hr, hheap, -, ht, rfl⟩
  refine ⟨_, rfl, ?_⟩
  have hinv := ht.inv_block (h.toInv.released hr) hheap
  exact h.of_inv hinv ht.files ht.opened

/-- A block that is not live has no slot that points back to it. -/
theorem Inv.not_pointsBack (h : m.Inv) (ha : m.heap a = none) (w : Int) :
  m.pointsBack a w = false
  := by
  rw [← Bool.not_eq_true]
  intro hback
  simp only [pointsBack, Bool.and_eq_true, decide_eq_true_eq] at hback
  obtain ⟨⟨hnonneg, hlt⟩, hptr⟩ := hback
  rw [(h.block (by omega) hptr).1] at ha
  cases ha

/-- A checked free of memory that has no slot changes nothing. -/
theorem velyFree_rejected {word : Option Int} {w : Int} (hw : m.velyGetMemory a word = .ok w)
    (hback : m.pointsBack a w = false) :
  Velymem.velyFree (some a) true word m = .ok (false, m)
  := by
  rw [Velymem.velyFree, hw, ok_bind, hback]
  rfl

/-- A block is freed when it is live, or it is rejected. -/
theorem Sound.safeFree (h : m.Sound) {word : Option Int} {w : Int}
    (hw : m.velyGetMemory a word = .ok w) :
  (∃ r : Nat, m.heap a = some (r : Int)
      ∧ Velymem.velyFree (some a) true word m = .ok (true, m.released a r))
    ∨ m.heap a = none ∧ Velymem.velyFree (some a) true word m = .ok (false, m)
  := by
  cases ha : m.heap a with
  | none => exact Or.inr ⟨rfl, velyFree_rejected hw (h.toInv.not_pointsBack ha w)⟩
  | some v =>
    obtain ⟨r, rfl, -⟩ := h.toInv.index ha
    exact Or.inl ⟨r, rfl, h.toInv.velyFree ha true word⟩

/-- A file variable that takes a file is registered. -/
theorem Sound.openFile (h : m.Sound) (f : Nat) {i : Option Nat} (hi : ∀ k, i = some k → k ∉ m.opened) :
  ∃ m', Velymem.openFile f i m = .ok m' ∧ m'.Sound
  := by
  have hother : ∀ g k, Function.update m.files f none g = some k → m.files g = some k := by
    intro g k hg
    by_cases hgf : g = f
    · rw [hgf, Function.update_self] at hg
      cases hg
    · rwa [Function.update_of_ne hgf] at hg
  cases i with
  | none =>
    refine ⟨_, rfl, h.toInv.congr rfl rfl rfl rfl rfl rfl, h.nodup, ?_, ?_⟩
    · intro g k hg
      exact h.opened (hother g k hg)
    · intro g g' k hg hg'
      exact h.distinct (hother g k hg) (hother g' k hg')
  | some k =>
    have hk := hi k rfl
    obtain ⟨r, m₁, ht, hopen⟩ := h.toInv.openFile f k
    have h' : Velymem.Inv
        { m with files := Function.update m.files f (some k), opened := k :: m.opened } :=
      h.toInv.congr rfl rfl rfl rfl rfl rfl
    have hcases : ∀ g j, m₁.files g = some j → g = f ∧ j = k ∨ g ≠ f ∧ m.files g = some j := by
      intro g j hg
      rw [ht.files] at hg
      simp only at hg
      by_cases hgf : g = f
      · rw [hgf, Function.update_self] at hg
        exact Or.inl ⟨hgf, (Option.some.inj hg).symm⟩
      · rw [Function.update_of_ne hgf] at hg
        exact Or.inr ⟨hgf, hg⟩
    refine ⟨_, hopen, ht.inv_file h', ?_⟩
    constructor
    · change m₁.opened.Nodup
      rw [ht.opened]
      exact List.nodup_cons.mpr ⟨hk, h.nodup⟩
    · intro g j hg
      change j ∈ m₁.opened
      rw [ht.opened, List.mem_cons]
      rcases hcases g j hg with ⟨-, rfl⟩ | ⟨-, hg⟩
      · exact Or.inl rfl
      · exact Or.inr (h.opened hg)
    · intro g g' j hg hg'
      rcases hcases g j hg with ⟨rfl, rfl⟩ | ⟨-, hg⟩
      · rcases hcases g' j hg' with ⟨rfl, -⟩ | ⟨-, hg'⟩
        · rfl
        · exact absurd (h.opened hg') hk
      · rcases hcases g' j hg' with ⟨-, rfl⟩ | ⟨-, hg'⟩
        · exact absurd (h.opened hg) hk
        · exact h.distinct hg hg'

/-- A file variable that is cleared has a slot which is not used for another one. -/
theorem Sound.closeFile (h : m.Sound) {f mind : Nat} (hmind : mind < m.vmCurr)
    (hptr : (m.vm mind).ptr = some (.file f)) :
  ∃ m₁, Velymem.closeVariable f m = .ok m₁ ∧ m₁.Sound
    ∧ m₁ = { m with files := m₁.files, opened := m₁.opened }
    ∧ Velymem.closeFile f mind m = .ok (m₁.setSlot mind { m.vm mind with ptr := none })
    ∧ (m₁.setSlot mind { m.vm mind with ptr := none }).Sound
  := by
  obtain ⟨m₁, hclose, hok, -, hsame, -⟩ := h.toFilesOk.closeVariable f
  have hvm : m₁.vm = m.vm := by rw [hsame]
  have hcurr : m₁.vmCurr = m.vmCurr := by rw [hsame]
  have htot : m₁.vmTot = m.vmTot := by rw [hsame]
  have hinv : m₁.Inv := by
    rw [hsame]
    exact h.toInv.congr rfl rfl rfl rfl rfl rfl
  have h₁ : m₁.Sound := ⟨hinv, hok⟩
  have hslot : (m₁.setSlot mind { m₁.vm mind with ptr := none }).Inv := by
    apply hinv.setSlot
    · rw [hcurr]
      exact hmind
    · rfl
    · rfl
    · rfl
    · right
      rw [hvm]
      exact ⟨rfl, (h.file hmind hptr).2⟩
  rw [hvm] at hslot
  refine ⟨m₁, hclose, h₁, hsame, ?_, h₁.of_inv hslot rfl rfl⟩
  rw [Velymem.closeFile, hclose, ok_bind, velyClearMem, slot_of_lt, hvm]
  · rfl
  · rw [htot]
    exact Nat.lt_trans hmind h.top

/-- Every call that is allowed keeps the memory sound, and none faults. -/
theorem Call.exec_sound {c : Call} (h : m.Sound) (hallowed : c.Allowed m) :
  Ends (c.exec m) (fun r => r.2.Sound)
  := by
  cases c with
  | scope process =>
    exact h.of_inv (h.toInv.congr rfl rfl rfl rfl rfl rfl) rfl rfl
  | malloc a =>
    apply (h.velyMalloc a).bind
    intro m' h'
    exact h'
  | calloc a =>
    apply (h.velyMalloc a).bind
    intro m' h'
    exact h'
  | realloc p b safe =>
    cases p with
    | none =>
      have hmalloc := h.velyMalloc b
      simp only [exec, Velymem.velyRealloc]
      cases hx : Velymem.velyMalloc b m with
      | ok m' =>
        rw [hx] at hmalloc
        exact hmalloc
      | error e =>
        rw [hx] at hmalloc
        exact hmalloc
    | some a =>
      apply (h.velyRealloc hallowed b safe).bind
      rintro o ⟨m', rfl, h'⟩
      exact h'
  | free p =>
    cases p with
    | none => exact h
    | some a =>
      obtain ⟨w, hw⟩ := Option.isSome_iff_exists.mp hallowed
      obtain ⟨r, rfl, -⟩ := h.toInv.index hw
      rw [exec, h.toInv.velyFree hw]
      exact h.of_inv (h.toInv.released hw) rfl rfl
  | safeFree p word =>
    cases p with
    | none => exact h
    | some a =>
      obtain ⟨w, hw⟩ := hallowed
      rw [exec]
      rcases h.safeFree hw with ⟨r, hr, hfree⟩ | ⟨-, hfree⟩
      · rw [hfree]
        exact h.of_inv (h.toInv.released hr) rfl rfl
      · rw [hfree]
        exact h
  | setProcess a =>
    obtain ⟨w, hw⟩ := Option.isSome_iff_exists.mp hallowed
    obtain ⟨r, hr, hcurr, hmark⟩ := h.toInv.velyMemSetProcess hw
    rw [exec, hmark]
    exact h.of_inv (h.toInv.setSlot hcurr rfl rfl rfl (Or.inl rfl)) rfl rfl
  | openFile f i =>
    have hi : ∀ k, i = some k → k ∉ m.opened := by
      rintro k rfl
      exact hallowed
    obtain ⟨m', hopen, h'⟩ := h.openFile f hi
    rw [exec, hopen]
    exact h'
  | closeFile f mind =>
    obtain ⟨m₁, -, -, -, hclose, h'⟩ := h.closeFile hallowed.1 hallowed.2
    rw [exec, hclose]
    exact h'
  | osMalloc a word =>
    rw [exec]
    split
    · rfl
    · next hfresh =>
      rw [inUse, Bool.or_eq_true, not_or, Option.not_isSome_iff_eq_none,
        Option.not_isSome_iff_eq_none] at hfresh
      exact h.withUnmanaged (h.toInv.apart_set hfresh.1 word)
  | osFree a =>
    obtain ⟨w, hw⟩ := Option.isSome_iff_exists.mp hallowed
    rw [exec, Mem.free_of hw]
    apply h.withUnmanaged
    intro b v hb
    by_cases hba : b = a
    · rw [hba, Mem.erase_self]
    · rw [Mem.erase_of_ne _ hba]
      exact h.apart hb
  | done =>
    obtain ⟨m', hdone, h', -⟩ := h.velyDone
    rw [exec, hdone]
    exact h'

/-- The memory is sound at the start. -/
theorem start_sound :
  start.Sound
  := by
  apply newTable_sound
  · constructor
    · exact List.nodup_nil
    · intro f k hf
      cases hf
    · intro f g k hf
      cases hf
  · intro a
    rfl

/-- The memory stays sound in every run. -/
theorem Reach.sound {P : Call → Velymem → Prop} {m₀ : Velymem} (h : Reach P m₀ m) (h₀ : m₀.Sound) :
  m.Sound
  := by
  induction h with
  | refl => exact h₀
  | call _ hallowed _ hexec ih =>
    have hends := Call.exec_sound ih hallowed
    rw [hexec] at hends
    exact hends

end Run

/-! ### The table in every run -/

/-- The free slots form a list without cycles, distinct blocks have distinct slots that point back
to them, and the table is larger than what is used of it. -/
structure TableOk (m : Velymem) : Prop where
  freeList : IsFreeList (fun i => (m.vm i).nextFree) m.vmFirstFree
    (fun i => i < m.vmCurr ∧ (m.vm i).free = true)
  distinct : ∀ {a b w v}, m.heap a = some w → m.heap b = some v → a ≠ b → w ≠ v
  index : ∀ {a w}, m.heap a = some w →
    0 ≤ w ∧ w < m.vmCurr ∧ (m.vm w.toNat).ptr = some (.block a)
  top : m.vmCurr < m.vmTot

/-- A sound memory has such a table. -/
theorem Inv.tableOk {m : Velymem} (h : m.Inv) :
  m.TableOk
  := by
  have hindex : ∀ {a w}, m.heap a = some w →
      0 ≤ w ∧ w < m.vmCurr ∧ (m.vm w.toNat).ptr = some (.block a) := by
    intro a w ha
    obtain ⟨r, rfl, hr, hptr⟩ := h.owner ha
    rw [Int.toNat_natCast]
    exact ⟨Int.natCast_nonneg r, Int.ofNat_lt.mpr hr, hptr⟩
  constructor
  · exact h.freeList
  · rintro a b w v ha hb hne rfl
    have hptr := (hindex ha).2.2
    rw [(hindex hb).2.2] at hptr
    cases hptr
    exact hne rfl
  · exact hindex
  · exact h.top

/-- In every run the table is as it should be, no call that is allowed faults, and a checked free of
memory whose index names no slot that points back to it changes nothing; memory that is not live is
such memory. -/
theorem table_of_reachable {m : Velymem} (h : Reachable m) :
  m.TableOk
    ∧ (∀ c : Call, c.Allowed m → Ends (c.exec m) (fun r => r.2.TableOk))
    ∧ (∀ a word w, m.velyGetMemory a word = .ok w → m.pointsBack a w = false →
      velyFree (some a) true word m = .ok (false, m))
    ∧ ∀ a w, m.heap a = none → m.pointsBack a w = false
  := by
  have hsound := Reach.sound h start_sound
  refine ⟨hsound.toInv.tableOk, ?_, ?_, ?_⟩
  · intro c hc
    apply (Call.exec_sound hsound hc).mono
    intro r hr
    exact hr.toInv.tableOk
  · intro a word w hw hback
    exact velyFree_rejected hw hback
  · intro a w ha
    exact hsound.toInv.not_pointsBack ha w

/-- The block number `n` of a memory of blocks of 16 bytes. -/
def nth (n : Nat) : Addr := Fin.ofNat (addrSpace - 1 + 1) (16 * n)

/-- After two blocks were allocated and the first was freed, another block has its slot; a checked
free of the first is rejected then. -/
theorem table_of_reachable_reused :
  ∃ m, Reachable m ∧ m.heap (nth 1) = none ∧ m.heap (nth 3) = some 0 ∧ m.TableOk
    ∧ velyFree (some (nth 1)) true (some 0) m = .ok (false, m)
  := by
  have h₁ : Reachable _ := .call (c := .malloc (nth 1)) .refl trivial trivial rfl
  have h₂ : Reachable _ := .call (c := .malloc (nth 2)) h₁ trivial trivial rfl
  have h₃ : Reachable _ := .call (c := .free (some (nth 1))) h₂ rfl trivial rfl
  have h₄ : Reachable _ := .call (c := .malloc (nth 3)) h₃ trivial trivial rfl
  have h := table_of_reachable h₄
  exact ⟨_, h₄, rfl, rfl, h.1, h.2.2.1 (nth 1) (some 0) 0 rfl (h.2.2.2 (nth 1) 0 rfl)⟩

end Velymem

end Vely
