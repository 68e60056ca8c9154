import Vely.Velymem.Run

/-!
# Files at the end of a request

The slot of a file variable is not given back.  It goes away with the table, which is discarded at
the end of a request unless there is a block of the process; then the slot stays, and so does the
slot of a file that was closed.
-/

namespace Vely

namespace Velymem

/-- What the end of a request should leave of the files that were open: each of them is closed once,
no slot is that of a file variable, and the slots in use are those of the blocks that are live. -/
structure FilesGone (m m' : Velymem) : Prop where
  closed : ∃ hs, m'.closed = m.closed ++ hs ∧ hs.Perm m.opened
  opened : m'.opened = []
  slots : ∀ r < m'.vmCurr, ∀ f, (m'.vm r).ptr ≠ some (.file f)
  used : ∀ r < m'.vmCurr, (m'.vm r).free = false → ∃ a, m'.heap a = some (r : Int)

/-- There is no block of the process, or there is no slot that was that of a file variable. -/
def NoFileKept (m : Velymem) : Prop :=
  (∀ i < m.vmCurr, ¬ m.IsProcess i) ∨ ∀ i < m.vmCurr, (m.vm i).file = false

/-- A file variable that takes a file has no file that is open, and a request ends with no file that
is kept. -/
def FilesApart (c : Call) (m : Velymem) : Prop :=
  match c with
  | .openFile f _ => m.files f = none
  | .done => m.NoFileKept
  | _ => True

/-- Every file that is open is in a variable that is registered. -/
def AllHeld (m : Velymem) : Prop :=
  ∀ h ∈ m.opened, ∃ f r, m.files f = some h ∧ r < m.vmCurr ∧ (m.vm r).ptr = some (.file f)

section Files

variable {m m' : Velymem} {a b : Addr}

/-- Files are held when the slots of file variables stay. -/
theorem AllHeld.mono (h : m.AllHeld) (hfiles : m'.files = m.files) (hopened : m'.opened = m.opened)
    (hslots : ∀ r < m.vmCurr, ∀ f, (m.vm r).ptr = some (.file f) →
      r < m'.vmCurr ∧ (m'.vm r).ptr = some (.file f)) :
  m'.AllHeld
  := by
  intro k hk
  rw [hopened] at hk
  obtain ⟨f, r, hf, hr, hptr⟩ := h k hk
  obtain ⟨hr', hptr'⟩ := hslots r hr f hptr
  refine ⟨f, r, ?_, hr', hptr'⟩
  rw [hfiles, hf]

/-- Taking a slot leaves the slots of file variables as they are. -/
theorem Takes.keeps_file {p : Ptr} {r i f : Nat} (ht : Takes m p r m') (h : m.Inv)
    (hi : i < m.vmCurr) (hptr : (m.vm i).ptr = some (.file f)) :
  i < m'.vmCurr ∧ (m'.vm i).ptr = some (.file f)
  := by
  have hir : i ≠ r := by
    rintro rfl
    rcases ht.was with ⟨-, hwas, -⟩ | ⟨rfl, -⟩
    · rw [(h.file hi hptr).1] at hwas
      cases hwas
    · exact absurd hi (lt_irrefl _)
  have hi' := Nat.lt_of_lt_of_le hi ht.curr.2
  refine ⟨hi', ?_⟩
  rw [(ht.others i hir hi').2, hptr]

/-- A new block. -/
theorem AllHeld.velyMalloc (h : m.AllHeld) (hsound : m.Sound)
    (hexec : Velymem.velyMalloc a m = .ok m') :
  m'.AllHeld
  := by
  have hends := hsound.toInv.velyMalloc a
  rw [hexec] at hends
  obtain ⟨-, -, r, m₁, ht, rfl⟩ := hends
  apply h.mono
  · exact ht.files
  · exact ht.opened
  · intro i hi f hptr
    exact ht.keeps_file hsound.toInv hi hptr

/-- A block that is given back. -/
theorem AllHeld.released {r : Nat} (h : m.AllHeld) (hsound : m.Sound)
    (ha : m.heap a = some (r : Int)) :
  (m.released a r).AllHeld
  := by
  apply h.mono
  · rfl
  · rfl
  · intro i hi f hptr
    obtain ⟨j, hj, -, -, hja, -⟩ := hsound.toInv.index ha
    have hir : i ≠ r := by
      rintro rfl
      rw [Int.ofNat_inj.mp hj, hja] at hptr
      cases hptr
    refine ⟨hi, ?_⟩
    rw [released_of_ne m a hir, hptr]

/-- A file variable without a file takes one. -/
theorem AllHeld.openFile (h : m.AllHeld) (hsound : m.Sound) {f : Nat} {i : Option Nat}
    (hf : m.files f = none) (hexec : Velymem.openFile f i m = .ok m') :
  m'.AllHeld
  := by
  cases i with
  | none =>
    cases hexec
    apply h.mono
    · simp only
      rw [← hf, Function.update_eq_self]
    · rfl
    · intro r hr g hptr
      exact ⟨hr, hptr⟩
  | some k =>
    obtain ⟨r, m₁, ht, hopen⟩ := hsound.toInv.openFile f k
    rw [hexec] at hopen
    cases hopen
    have hinv : Velymem.Inv
        { m with files := Function.update m.files f (some k), opened := k :: m.opened } :=
      hsound.toInv.congr rfl rfl rfl rfl rfl rfl
    have hptr : ∀ i, ((m₁.setSlot r { m₁.vm r with file := true }).vm i).ptr = (m₁.vm i).ptr := by
      intro i
      simp only [setSlot]
      by_cases hi : i = r
      · rw [hi, Function.update_self]
      · rw [Function.update_of_ne hi]
    intro j hj
    change j ∈ m₁.opened at hj
    rw [ht.opened, List.mem_cons] at hj
    rcases hj with rfl | hj
    · refine ⟨f, r, ?_, ht.curr.1, ?_⟩
      · change m₁.files f = _
        rw [ht.files]
        exact Function.update_self ..
      · rw [hptr, ht.slot]
        rfl
    · obtain ⟨g, i, hg, hi, hig⟩ := h j hj
      obtain ⟨hi', hig'⟩ := ht.keeps_file hinv hi hig
      refine ⟨g, i, ?_, hi', ?_⟩
      · change m₁.files g = _
        rw [ht.files]
        simp only
        rw [Function.update_of_ne, hg]
        rintro rfl
        rw [hf] at hg
        cases hg
      · rw [hptr, hig']

/-- A file variable is cleared. -/
theorem AllHeld.closeFile (h : m.AllHeld) (hsound : m.Sound) {f mind : Nat}
    (hmind : mind < m.vmCurr) (hptr : (m.vm mind).ptr = some (.file f))
    (hexec : Velymem.closeFile f mind m = .ok m') :
  m'.AllHeld
  := by
  obtain ⟨m₁, hclose, -, hsame, hclose', -⟩ := hsound.closeFile hmind hptr
  rw [hexec] at hclose'
  cases hclose'
  obtain ⟨m₂, hclose₂, -, hnone, -, hleft, -, hperm⟩ := hsound.toFilesOk.closeVariable f
  rw [hclose] at hclose₂
  cases hclose₂
  intro k hk
  obtain ⟨g, i, hg, hi, hig⟩ := h k (hperm.subset (List.mem_append_right _ hk))
  have hg' := hleft k hk g hg
  have hne : i ≠ mind := by
    rintro rfl
    rw [hptr] at hig
    cases hig
    rw [hnone] at hg'
    cases hg'
  refine ⟨g, i, hg', ?_, ?_⟩
  · rw [hsame]
    exact hi
  · rw [hsame]
    simp only [setSlot]
    rw [Function.update_of_ne hne, hig]

/-- When every file that is open is held, the end of a request closes each of them once. -/
theorem AllHeld.done (h : m.AllHeld) (hend : Ended m m') :
  (∃ hs, m'.closed = m.closed ++ hs ∧ hs.Perm m.opened) ∧ m'.opened = []
  := by
  obtain ⟨hs, hclosed, hperm⟩ := hend.closes.closed
  have hnil : m'.opened = [] := by
    rw [List.eq_nil_iff_forall_not_mem]
    intro k hk
    obtain ⟨f, r, hf, hr, hptr⟩ := h k (hperm.subset (List.mem_append_right hs hk))
    have hnone := hend.closes.files r (List.mem_range.mpr hr) f hptr
    rw [hend.closes.left k hk f hf] at hnone
    cases hnone
  rw [hnil, List.append_nil] at hperm
  exact ⟨⟨hs, hclosed, hperm⟩, hnil⟩

/-- The end of a request leaves nothing of the files exactly when none is kept. -/
theorem Ended.filesGone (hend : Ended m m') (hsound : m.Sound) (hheld : m.AllHeld) :
  FilesGone m m' ↔ m.NoFileKept
  := by
  obtain ⟨hclosed, hopened⟩ := hheld.done hend
  rcases hend.table with ⟨⟨i, hi, hp⟩, hcurr, hkept, hfreed⟩ | ⟨hno, hcurr⟩
  · constructor
    · intro hgone
      right
      intro r hr
      rw [← Bool.not_eq_true]
      intro hfile
      have hnot : ¬ m.IsRequest r := by
        rintro ⟨⟨a, ha⟩, -⟩
        rw [(hsound.block hr ha).2.2] at hfile
        cases hfile
      have hfree : (m.vm r).free = false := by
        rw [← Bool.not_eq_true]
        intro hfree
        rw [hsound.freed hr hfree] at hfile
        cases hfile
      have hr' : r < m'.vmCurr := by rwa [hcurr]
      obtain ⟨a, ha⟩ := hgone.used r hr' (by rw [hkept r hr hnot, hfree])
      obtain ⟨j, hj, -, -, -, -, hjfile⟩ := hsound.toInv.index ((hend.heap a r).mp ha).1
      rw [← Int.ofNat_inj.mp hj, hfile] at hjfile
      cases hjfile
    · rintro (hno | hfile)
      · exact absurd hp (hno i hi)
      · refine ⟨hclosed, hopened, ?_, ?_⟩
        · intro r hr f hptr
          rw [hcurr] at hr
          by_cases hreq : m.IsRequest r
          · rw [(hfreed r hr hreq).1] at hptr
            cases hptr
          · rw [hkept r hr hreq] at hptr
            have hbit := (hsound.file hr hptr).2
            rw [hfile r hr] at hbit
            cases hbit
        · intro r hr hfree
          rw [hcurr] at hr
          by_cases hreq : m.IsRequest r
          · rw [(hfreed r hr hreq).2] at hfree
            cases hfree
          · rw [hkept r hr hreq] at hfree
            cases hptr : (m.vm r).ptr with
            | none =>
              have hbit := hsound.cleared hr hfree hptr
              rw [hfile r hr] at hbit
              cases hbit
            | some p =>
              cases p with
              | file f =>
                have hbit := (hsound.file hr hptr).2
                rw [hfile r hr] at hbit
                cases hbit
              | block a =>
                refine ⟨a, (hend.heap a r).mpr ⟨(hsound.block hr hptr).1, ?_⟩⟩
                rw [Int.toNat_natCast, ← Bool.not_eq_false]
                intro hprocess
                exact hreq ⟨⟨a, hptr⟩, hprocess⟩
  · have hnone : ∀ {r}, ¬ r < m'.vmCurr := by
      intro r hr
      rw [hcurr] at hr
      exact Nat.not_lt_zero r hr
    constructor
    · intro _
      exact Or.inl hno
    · intro _
      refine ⟨hclosed, hopened, ?_, ?_⟩
      · intro r hr
        exact absurd hr hnone
      · intro r hr
        exact absurd hr hnone

/-- Every call leaves the files held when a variable that takes a file has none. -/
theorem AllHeld.exec (h : m.AllHeld) (hsound : m.Sound) {c : Call} {answer : Bool}
    (hallowed : c.Allowed m) (happart : FilesApart c m) (hexec : c.exec m = .ok (answer, m')) :
  m'.AllHeld
  := by
  cases c with
  | scope process =>
    cases hexec
    exact h
  | malloc a =>
    obtain ⟨m₁, hmalloc, heq⟩ := exists_of_bind hexec
    cases heq
    exact h.velyMalloc hsound hmalloc
  | calloc a =>
    obtain ⟨m₁, hmalloc, heq⟩ := exists_of_bind hexec
    cases heq
    exact h.velyMalloc hsound hmalloc
  | realloc p b safe =>
    obtain ⟨o, hrealloc, heq⟩ := exists_of_bind hexec
    cases p with
    | none =>
      rw [velyRealloc] at hrealloc
      cases hmalloc : Velymem.velyMalloc b m with
      | ok m₁ =>
        rw [hmalloc] at hrealloc
        cases hrealloc
        cases heq
        exact h.velyMalloc hsound hmalloc
      | error e =>
        rw [hmalloc] at hrealloc
        cases hrealloc
    | some a =>
      obtain ⟨w, hw⟩ := Option.isSome_iff_exists.mp hallowed
      have hends := hsound.toInv.velyRealloc hw b safe
      rw [hrealloc] at hends
      obtain ⟨r, m₁, hr, -, -, ht, rfl⟩ := hends
      cases heq
      apply (h.released hsound hr).mono
      · exact ht.files
      · exact ht.opened
      · intro i hi f hptr
        exact ht.keeps_file (hsound.toInv.released hr) hi hptr
  | free p =>
    cases p with
    | none =>
      cases hexec
      exact h
    | some a =>
      obtain ⟨w, hw⟩ := Option.isSome_iff_exists.mp hallowed
      obtain ⟨r, rfl, -⟩ := hsound.toInv.index hw
      rw [Call.exec, hsound.toInv.velyFree hw] at hexec
      cases hexec
      exact h.released hsound hw
  | safeFree p word =>
    cases p with
    | none =>
      cases hexec
      exact h
    | some a =>
      obtain ⟨w, hw⟩ := hallowed
      rw [Call.exec] at hexec
      rcases hsound.safeFree hw with ⟨r, hr, hfree⟩ | ⟨-, hfree⟩
      · rw [hfree] at hexec
        cases hexec
        exact h.released hsound hr
      · rw [hfree] at hexec
        cases hexec
        exact h
  | setProcess a =>
    obtain ⟨w, hw⟩ := Option.isSome_iff_exists.mp hallowed
    obtain ⟨r, hr, -, hmark⟩ := hsound.toInv.velyMemSetProcess hw
    rw [Call.exec, hmark] at hexec
    cases hexec
    apply h.mono
    · rfl
    · rfl
    · intro i hi f hptr
      refine ⟨hi, ?_⟩
      simp only [setSlot]
      by_cases hir : i = r
      · rw [hir, Function.update_self]
        rwa [hir] at hptr
      · rwa [Function.update_of_ne hir]
  | openFile f i =>
    obtain ⟨m₁, hopen, heq⟩ := exists_of_bind hexec
    cases heq
    exact h.openFile hsound happart hopen
  | closeFile f mind =>
    obtain ⟨m₁, hclose, heq⟩ := exists_of_bind hexec
    cases heq
    exact h.closeFile hsound hallowed.1 hallowed.2 hclose
  | osMalloc a word =>
    rw [Call.exec] at hexec
    split at hexec
    · cases hexec
    · cases hexec
      exact h
  | osFree a =>
    obtain ⟨unmanaged, -, heq⟩ := exists_of_bind hexec
    cases heq
    exact h
  | done =>
    obtain ⟨m₁, hdone, heq⟩ := exists_of_bind hexec
    cases heq
    obtain ⟨m₂, hdone', -, hend⟩ := hsound.velyDone
    rw [hdone] at hdone'
    cases hdone'
    intro k hk
    rw [(h.done hend).2] at hk
    cases hk

/-- The files stay held in every run in which a variable that takes a file has none. -/
theorem Reach.allHeld (h : Reach FilesApart start m) :
  m.AllHeld
  := by
  induction h with
  | refl =>
    intro k hk
    cases hk
  | call hrun hallowed happart hexec ih =>
    exact ih.exec (hrun.sound start_sound) hallowed happart hexec

/-- In every run in which no request ended with a file that is kept, and no variable took a file
while it had one, the end of the request leaves nothing of the files exactly when none is kept. -/
theorem filesGone_iff (h : Reach FilesApart start m) :
  ∃ m', velyDone m = .ok m' ∧ (FilesGone m m' ↔ m.NoFileKept)
  := by
  have hsound := h.sound start_sound
  obtain ⟨m', hdone, -, hend⟩ := hsound.velyDone
  exact ⟨m', hdone, hend.filesGone hsound h.allHeld⟩

end Files

/-- A file that is open at the end of a request without blocks of the process. -/
theorem filesGone_iff_open :
  ∃ m m', Reach FilesApart start m ∧ m.opened = [7] ∧ velyDone m = .ok m' ∧ FilesGone m m'
  := by
  have h₁ : Reach FilesApart start _ := .call (c := .malloc (nth 1)) .refl trivial trivial rfl
  have h₂ : Reach FilesApart start _ :=
    .call (c := .openFile 0 (some 7)) h₁ List.not_mem_nil rfl rfl
  obtain ⟨m', hdone, hiff⟩ := filesGone_iff h₂
  refine ⟨_, m', h₂, rfl, hdone, hiff.mpr (Or.inl ?_)⟩
  rintro i hi ⟨-, hprocess⟩
  have hlt : i < 2 := hi
  obtain rfl | rfl : i = 0 ∨ i = 1 := by omega
  · cases hprocess
  · cases hprocess

/-- A block of the process keeps the table, and with it the slot of a file variable of the request.
-/
theorem not_filesGone_kept :
  ¬ ∀ m, Reachable m → ∃ m', velyDone m = .ok m' ∧ FilesGone m m'
  := by
  intro h
  have h₁ : Reachable _ := .call (c := .scope true) .refl trivial trivial rfl
  have h₂ : Reachable _ := .call (c := .malloc (nth 1)) h₁ trivial trivial rfl
  have h₃ : Reachable _ := .call (c := .scope false) h₂ trivial trivial rfl
  have h₄ : Reachable _ :=
    .call (c := .openFile 0 (some 7)) h₃ List.not_mem_nil trivial rfl
  obtain ⟨m', hdone, hgone⟩ := h _ h₄
  cases hdone
  exact hgone.slots 1 (by decide) 0 rfl

end Velymem

end Vely
