import Vely.Velymem.Run

/-!
# The scope of memory

The scope of a block is a bit of its slot.  The bit is never taken back from a slot while the table
is kept, so a block that takes the slot of a freed block of the process is of the process too.
-/

namespace Vely

namespace Velymem

/-- The blocks of the process. -/
def ofProcess (s : Mem Bool) : Mem Bool := fun a => if s a = some true then some true else none

/-- The scopes of the blocks that are live: `true` for a block that was allocated, resized or marked
while memory was of the process. -/
def Call.scopes (c : Call) (m : Velymem) (s : Mem Bool) : Mem Bool :=
  match c with
  | .malloc a => s.set a m.memProcess
  | .calloc a => s.set a m.memProcess
  | .realloc none b _ => s.set b m.memProcess
  | .realloc (some a) b _ => (s.erase a).set b ((s a).getD false || m.memProcess)
  | .free (some a) => s.erase a
  | .safeFree (some a) _ => s.erase a
  | .setProcess a => if m.memProcess then s.set a true else s
  | .done => ofProcess s
  | _ => s

/-- The memory after a run whose calls all satisfy `P`, and the scopes of the blocks that are live.
-/
inductive ScopeRun (P : Call → Velymem → Prop) : Velymem → Mem Bool → Prop
  | start : ScopeRun P start Mem.empty
  | call {m m' : Velymem} {s : Mem Bool} {c : Call} {answer : Bool} :
    ScopeRun P m s → c.Allowed m → P c m → c.exec m = .ok (answer, m') →
      ScopeRun P m' (c.scopes m s)

/-- The end of the request leaves the blocks of the process and no others. -/
def SurvivorsExact (m : Velymem) (s : Mem Bool) : Prop :=
  ∃ m', velyDone m = .ok m' ∧ ∀ a, (m'.heap a).isSome = true ↔ s a = some true

/-- The slot that is taken next has not been one of the process. -/
def CleanNext (m : Velymem) : Prop :=
  ∀ r, m.vmFirstFree = some r → (m.vm r).process = false

/-- A block of a request does not take a slot which has been one of the process. -/
def TakesClean (c : Call) (m : Velymem) : Prop :=
  match c with
  | .malloc _ => m.memProcess = true ∨ m.CleanNext
  | .calloc _ => m.memProcess = true ∨ m.CleanNext
  | .realloc none _ _ => m.memProcess = true ∨ m.CleanNext
  | _ => True

/-- The bit of the slot of each block is its scope. -/
def Scoped (m : Velymem) (s : Mem Bool) : Prop :=
  ∀ a, s a = (m.heap a).map (fun w => (m.vm w.toNat).process)

section Scope

variable {m m' : Velymem} {s : Mem Bool} {a b : Addr} {w : Int}

/-- The blocks that are live have a scope. -/
theorem Scoped.isSome (h : m.Scoped s) (a : Addr) :
  (s a).isSome = (m.heap a).isSome
  := by
  rw [h a, Option.isSome_map]

/-- Scopes are those of the slots of the table and of the memory. -/
theorem Scoped.congr (h : m.Scoped s) (hheap : m'.heap = m.heap)
    (hbits : ∀ a w, m.heap a = some w → (m'.vm w.toNat).process = (m.vm w.toNat).process) :
  m'.Scoped s
  := by
  intro a
  rw [h a, hheap]
  cases ha : m.heap a with
  | none => rfl
  | some w =>
    simp only [Option.map_some]
    rw [hbits a w ha]

/-- A block takes a slot. -/
theorem Scoped.takes {r : Nat} (h : m.Scoped s) (hinv : m.Inv) (ht : Takes m (.block b) r m') :
  (velyVmset b r m').Scoped (s.set b ((m.vm r).process || m.memProcess))
  := by
  intro a
  simp only [velyVmset, ht.heap]
  by_cases hab : a = b
  · rw [hab, Mem.set_self, Mem.set_self, Option.map_some, Int.toNat_natCast, ht.slot]
    rfl
  · rw [Mem.set_of_ne _ _ hab, Mem.set_of_ne _ _ hab, h a]
    cases ha : m.heap a with
    | none => rfl
    | some w => rw [Option.map_some, Option.map_some, (ht.keeps hinv ha).2]

/-- A block gives its slot back, and the slot keeps its bit. -/
theorem Scoped.released {r : Nat} (h : m.Scoped s) :
  (m.released a r).Scoped (s.erase a)
  := by
  intro b
  by_cases hb : b = a
  · rw [hb, Mem.erase_self]
    simp [Velymem.released]
  · have hheap : (m.released a r).heap b = m.heap b := Mem.erase_of_ne _ hb
    rw [Mem.erase_of_ne _ hb, hheap, h b]
    congr 1
    funext w
    by_cases hw : w.toNat = r
    · rw [hw, released_self]
    · rw [released_of_ne m a hw]

/-- A block is marked as that of the process. -/
theorem Scoped.marks {r : Nat} (h : m.Scoped s) (hinv : m.Inv) (ha : m.heap a = some (r : Int)) :
  (m.setSlot r { m.vm r with process := (m.vm r).process || m.memProcess }).Scoped
    (if m.memProcess then s.set a true else s)
  := by
  cases hp : m.memProcess with
  | false =>
    apply h.congr
    · rfl
    · intro b w _
      simp only [setSlot, Bool.or_false]
      rw [Function.update_eq_self]
  | true =>
    intro b
    simp only [setSlot, Bool.or_true, if_true]
    by_cases hb : b = a
    · rw [hb, Mem.set_self, ha, Option.map_some, Int.toNat_natCast, Function.update_self]
    · rw [Mem.set_of_ne _ _ hb, h b]
      cases hw : m.heap b with
      | none => rfl
      | some w =>
        have hne : w.toNat ≠ r := by
          intro hwr
          obtain ⟨i, rfl, -, -, hib, -⟩ := hinv.index hw
          obtain ⟨j, hj, -, -, hja, -⟩ := hinv.index ha
          rw [Int.toNat_natCast] at hwr
          rw [hwr, Int.ofNat_inj.mp hj, hja] at hib
          cases hib
          exact hb rfl
        rw [Option.map_some, Option.map_some, Function.update_of_ne hne]

/-- The bit of a slot that is taken for a block of a request, when the slot has not been one of the
process. -/
theorem Takes.clean {p : Ptr} {r : Nat} (ht : Takes m p r m') (hinv : m.Inv)
    (h : m.memProcess = true ∨ m.CleanNext) :
  ((m.vm r).process || m.memProcess) = m.memProcess
  := by
  rcases h with h | h
  · rw [h, Bool.or_true]
  · rcases ht.was with ⟨-, -, hfirst⟩ | ⟨rfl, -⟩
    · rw [h r hfirst, Bool.false_or]
    · rw [(hinv.fresh (Nat.le_refl _) hinv.top).2.2, Bool.false_or]

/-- The end of a request leaves the blocks whose slots have the bit. -/
theorem Scoped.done (h : m.Scoped s) (hinv : m.Inv) (hend : Ended m m') :
  m'.Scoped (ofProcess s)
  := by
  intro a
  have hs := h a
  rw [ofProcess]
  cases ha : m'.heap a with
  | none =>
    rw [Option.map_none, if_neg]
    intro htrue
    rw [htrue] at hs
    obtain ⟨w, hw, hp⟩ := Option.map_eq_some_iff.mp hs.symm
    rw [(hend.heap a w).mpr ⟨hw, hp⟩] at ha
    cases ha
  | some w =>
    obtain ⟨hw, hp⟩ := (hend.heap a w).mp ha
    rw [hw, Option.map_some, hp] at hs
    rw [if_pos hs, Option.map_some]
    obtain ⟨r, rfl, hr, -, hptr, -⟩ := hinv.index hw
    rw [Int.toNat_natCast] at hp ⊢
    rcases hend.table with ⟨-, -, hkept, -⟩ | ⟨hno, -⟩
    · rw [hkept r hr, hp]
      rintro ⟨-, hfalse⟩
      rw [hp] at hfalse
      cases hfalse
    · exact absurd ⟨⟨a, hptr⟩, hp⟩ (hno r hr)

/-- A new block, when it takes a slot that has not been one of the process. -/
theorem Scoped.velyMalloc (h : m.Scoped s) (hsound : m.Sound)
    (hclean : m.memProcess = true ∨ m.CleanNext) (hexec : Velymem.velyMalloc a m = .ok m') :
  m'.Scoped (s.set a m.memProcess)
  := by
  have hends := hsound.toInv.velyMalloc a
  rw [hexec] at hends
  obtain ⟨-, -, r, m₁, ht, rfl⟩ := hends
  rw [← ht.clean hsound.toInv hclean]
  exact h.takes hsound.toInv ht

/-- Every call keeps the bits as they should be when the blocks of requests take clean slots. -/
theorem Scoped.exec (h : m.Scoped s) (hsound : m.Sound) {c : Call} {answer : Bool}
    (hallowed : c.Allowed m) (hclean : TakesClean c m) (hexec : c.exec m = .ok (answer, m')) :
  m'.Scoped (c.scopes m s)
  := by
  cases c with
  | scope process =>
    cases hexec
    exact h
  | malloc a =>
    obtain ⟨m₁, hmalloc, heq⟩ := exists_of_bind hexec
    cases heq
    exact h.velyMalloc hsound hclean hmalloc
  | calloc a =>
    obtain ⟨m₁, hmalloc, heq⟩ := exists_of_bind hexec
    cases heq
    exact h.velyMalloc hsound hclean hmalloc
  | realloc p b safe =>
    obtain ⟨o, hrealloc, heq⟩ := exists_of_bind hexec
    cases p with
    | none =>
      rw [velyRealloc] at hrealloc
      cases hmalloc : Velymem.velyMalloc b m with
      | ok m₁ =>
        rw [hmalloc] at hrealloc
        cases hrealloc
        cases heq
        exact h.velyMalloc hsound hclean hmalloc
      | error e =>
        rw [hmalloc] at hrealloc
        cases hrealloc
    | some a =>
      obtain ⟨w, hw⟩ := Option.isSome_iff_exists.mp hallowed
      have hends := hsound.toInv.velyRealloc hw b safe
      rw [hrealloc] at hends
      obtain ⟨r, m₁, hr, -, -, ht, rfl⟩ := hends
      cases heq
      have hscope : (s a).getD false = ((m.released a r).vm r).process := by
        rw [h a, hr, released_self]
        rfl
      rw [Call.scopes, hscope]
      exact h.released.takes (hsound.toInv.released hr) ht
  | free p =>
    cases p with
    | none =>
      cases hexec
      exact h
    | some a =>
      obtain ⟨w, hw⟩ := Option.isSome_iff_exists.mp hallowed
      obtain ⟨r, rfl, -⟩ := hsound.toInv.index hw
      rw [Call.exec, hsound.toInv.velyFree hw] at hexec
      cases hexec
      exact h.released
  | safeFree p word =>
    cases p with
    | none =>
      cases hexec
      exact h
    | some a =>
      obtain ⟨w, hw⟩ := hallowed
      rw [Call.exec] at hexec
      rcases hsound.safeFree hw with ⟨r, hr, hfree⟩ | ⟨hnone, hfree⟩
      · rw [hfree] at hexec
        cases hexec
        exact h.released
      · rw [hfree] at hexec
        cases hexec
        have herase : s.erase a = s := by
          rw [Mem.erase, Function.update_eq_self_iff, h a, hnone, Option.map_none]
        rw [Call.scopes, herase]
        exact h
  | setProcess a =>
    obtain ⟨w, hw⟩ := Option.isSome_iff_exists.mp hallowed
    obtain ⟨r, hr, -, hmark⟩ := hsound.toInv.velyMemSetProcess hw
    rw [Call.exec, hmark] at hexec
    cases hexec
    exact h.marks hsound.toInv hr
  | openFile f i =>
    obtain ⟨m₁, hopen, heq⟩ := exists_of_bind hexec
    cases heq
    cases i with
    | none =>
      cases hopen
      exact h
    | some k =>
      obtain ⟨r, m₂, ht, hopen'⟩ := hsound.toInv.openFile f k
      rw [hopen] at hopen'
      cases hopen'
      have hinv : Velymem.Inv
          { m with files := Function.update m.files f (some k), opened := k :: m.opened } :=
        hsound.toInv.congr rfl rfl rfl rfl rfl rfl
      apply h.congr
      · exact ht.heap
      · intro b w hb
        obtain ⟨hne, hvm⟩ := ht.keeps hinv hb
        simp only [setSlot]
        rw [Function.update_of_ne hne, hvm]
  | closeFile f mind =>
    obtain ⟨m₁, -, -, hsame, hclose, -⟩ := hsound.closeFile hallowed.1 hallowed.2
    rw [Call.exec, hclose] at hexec
    cases hexec
    rw [hsame]
    apply h.congr
    · rfl
    · intro b w _
      simp only [setSlot]
      by_cases hw : w.toNat = mind
      · rw [hw, Function.update_self]
      · rw [Function.update_of_ne hw]
  | osMalloc a word =>
    rw [Call.exec] at hexec
    split at hexec
    · cases hexec
    · cases hexec
      exact h
  | osFree a =>
    obtain ⟨unmanaged, -, heq⟩ := exists_of_bind hexec
    cases heq
    exact h
  | done =>
    obtain ⟨m₁, hdone, heq⟩ := exists_of_bind hexec
    cases heq
    obtain ⟨m₂, hdone', -, hend⟩ := hsound.velyDone
    rw [hdone] at hdone'
    cases hdone'
    exact h.done hsound.toInv hend

/-- A run with scopes is a run. -/
theorem ScopeRun.reach {P : Call → Velymem → Prop} (h : ScopeRun P m s) :
  Reach P Velymem.start m
  := by
  induction h with
  | start => exact .refl
  | call _ hallowed hp hexec ih => exact .call ih hallowed hp hexec

/-- The bits are as they should be in every run in which the blocks of requests take clean slots. -/
theorem ScopeRun.scoped (h : ScopeRun TakesClean m s) :
  m.Scoped s
  := by
  induction h with
  | start =>
    intro a
    rfl
  | call hrun hallowed hclean hexec ih =>
    exact ih.exec (hrun.reach.sound start_sound) hallowed hclean hexec

/-- In every run in which no block of a request takes a slot which has been one of the process, the
blocks that are live are those that the program has, and the end of a request leaves the blocks of
the process and no others. -/
theorem survivorsExact_of_clean (h : ScopeRun TakesClean m s) :
  (∀ a, (m.heap a).isSome = (s a).isSome) ∧ SurvivorsExact m s
  := by
  have hscoped := h.scoped
  have hsound := h.reach.sound start_sound
  obtain ⟨m', hdone, -, hend⟩ := hsound.velyDone
  refine ⟨fun a => (hscoped.isSome a).symm, m', hdone, ?_⟩
  intro a
  rw [← (hscoped.done hsound.toInv hend).isSome a, ofProcess]
  split
  · next hs => simp [hs]
  · next hs => simp [hs]

end Scope

/-- After a block of the process and one of a request, which each take a slot of their own, the end
of the request leaves the first. -/
theorem survivorsExact_of_clean_two :
  ∃ m s, ScopeRun TakesClean m s ∧ s (nth 1) = some true ∧ s (nth 2) = some false
    ∧ SurvivorsExact m s
  := by
  have h₁ : ScopeRun TakesClean _ _ := .call (c := .scope true) .start trivial trivial rfl
  have h₂ : ScopeRun TakesClean _ _ :=
    .call (c := .malloc (nth 1)) h₁ trivial (Or.inl rfl) rfl
  have h₃ : ScopeRun TakesClean _ _ := .call (c := .scope false) h₂ trivial trivial rfl
  have h₄ : ScopeRun TakesClean _ _ :=
    .call (c := .malloc (nth 2)) h₃ trivial (Or.inr (fun _ hr => by cases hr)) rfl
  exact ⟨_, _, h₄, rfl, rfl, (survivorsExact_of_clean h₄).2⟩

/-- A block of a request that takes the slot of a freed block of the process survives the request.
-/
theorem not_survivorsExact_reused :
  ¬ ∀ m s, ScopeRun (fun _ _ => True) m s → SurvivorsExact m s
  := by
  intro h
  have h₁ : ScopeRun (fun _ _ => True) _ _ := .call (c := .scope true) .start trivial trivial rfl
  have h₂ : ScopeRun (fun _ _ => True) _ _ := .call (c := .malloc (nth 1)) h₁ trivial trivial rfl
  have h₃ : ScopeRun (fun _ _ => True) _ _ := .call (c := .free (some (nth 1))) h₂ rfl trivial rfl
  have h₄ : ScopeRun (fun _ _ => True) _ _ := .call (c := .scope false) h₃ trivial trivial rfl
  have h₅ : ScopeRun (fun _ _ => True) _ _ := .call (c := .malloc (nth 2)) h₄ trivial trivial rfl
  obtain ⟨m', hdone, hsurvive⟩ := h _ _ h₅
  cases hdone
  cases (hsurvive (nth 2)).mp rfl

end Velymem

end Vely
