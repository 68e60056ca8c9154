import Vely.Fcgi.Calls

/-!
# The two ways to make calls

The buffers of the calls that are made in threads are put into the table of memory when the threads
are joined.  Those of a single call, and those of a call without a thread, are not.
-/

namespace Vely

open Velymem

section Live

variable {m m' m₁ : Velymem} {a b : Addr} {as : List Addr}

/-- A live block is freed. -/
theorem Velymem.Sound.free_live (h : m.Sound) (ha : (m.heap a).isSome = true) :
  ∃ m', Velymem.velyFree (some a) false none m = .ok (true, m') ∧ m'.Sound
    ∧ m'.heap = m.heap.erase a ∧ m'.unmanaged = m.unmanaged
  := by
  obtain ⟨w, hw⟩ := Option.isSome_iff_exists.mp ha
  obtain ⟨r, rfl, -⟩ := h.toInv.index hw
  exact ⟨_, h.toInv.velyFree hw false none, h.of_inv (h.toInv.released hw) rfl rfl, rfl, rfl⟩

/-- A block stays live in the memory with another block set. -/
theorem isSome_set {μ : Mem Int} {w : Int} (h : (μ a).isSome = true) :
  (μ.set b w a).isSome = true
  := by
  by_cases hab : a = b
  · rw [hab, Mem.set_self]
    rfl
  · rwa [Mem.set_of_ne _ _ hab]

/-- A block stays live in the memory without another block. -/
theorem isSome_erase {μ : Mem Int} (h : (μ a).isSome = true) (hab : a ≠ b) :
  (μ.erase b a).isSome = true
  := by
  rwa [Mem.erase_of_ne _ hab]

/-- A new block leaves the others live. -/
theorem velyMalloc_live (h : m.Sound) (hexec : Velymem.velyMalloc b m = .ok m')
    (ha : (m.heap a).isSome = true) :
  (m'.heap a).isSome = true
  := by
  have hends := h.toInv.velyMalloc b
  rw [hexec] at hends
  obtain ⟨-, -, r, m₁, ht, rfl⟩ := hends
  simp only [velyVmset, ht.heap]
  exact isSome_set ha

/-- A call that leaves a block alone leaves it live. -/
theorem Spares.live {c : Call} {answer : Bool} (hspares : Spares as c) (h : m.Sound)
    (hallowed : c.Allowed m) (hexec : c.exec m = .ok (answer, m')) (has : a ∈ as)
    (ha : (m.heap a).isSome = true) :
  (m'.heap a).isSome = true
  := by
  cases c with
  | scope process =>
    cases hexec
    exact ha
  | malloc b =>
    obtain ⟨m₁, hmalloc, heq⟩ := exists_of_bind hexec
    cases heq
    exact velyMalloc_live h hmalloc ha
  | calloc b =>
    obtain ⟨m₁, hmalloc, heq⟩ := exists_of_bind hexec
    cases heq
    exact velyMalloc_live h hmalloc ha
  | realloc p b safe =>
    obtain ⟨o, hrealloc, heq⟩ := exists_of_bind hexec
    cases p with
    | none =>
      rw [Velymem.velyRealloc] at hrealloc
      cases hmalloc : Velymem.velyMalloc b m with
      | ok m₁ =>
        rw [hmalloc] at hrealloc
        cases hrealloc
        cases heq
        exact velyMalloc_live h hmalloc ha
      | error e =>
        rw [hmalloc] at hrealloc
        cases hrealloc
    | some d =>
      obtain ⟨w, hw⟩ := Option.isSome_iff_exists.mp hallowed
      have hends := h.toInv.velyRealloc hw b safe
      rw [hrealloc] at hends
      obtain ⟨r, m₁, -, -, -, ht, rfl⟩ := hends
      cases heq
      simp only [velyVmset, ht.heap]
      apply isSome_set
      apply isSome_erase ha
      rintro rfl
      exact hspares has
  | free p =>
    cases p with
    | none =>
      cases hexec
      exact ha
    | some d =>
      obtain ⟨m₁, hfree, -, hheap, -⟩ := h.free_live hallowed
      rw [Call.exec, hfree] at hexec
      cases hexec
      rw [hheap]
      apply isSome_erase ha
      rintro rfl
      exact hspares has
  | safeFree p word =>
    cases p with
    | none =>
      cases hexec
      exact ha
    | some d =>
      obtain ⟨w, hw⟩ := hallowed
      rw [Call.exec] at hexec
      rcases h.safeFree hw with ⟨r, -, hfree⟩ | ⟨-, hfree⟩
      · rw [hfree] at hexec
        cases hexec
        apply isSome_erase ha
        rintro rfl
        exact hspares has
      · rw [hfree] at hexec
        cases hexec
        exact ha
  | setProcess d =>
    obtain ⟨w, hw⟩ := Option.isSome_iff_exists.mp hallowed
    obtain ⟨r, -, -, hmark⟩ := h.toInv.velyMemSetProcess hw
    rw [Call.exec, hmark] at hexec
    cases hexec
    exact ha
  | openFile f i =>
    obtain ⟨m₁, hopen, heq⟩ := exists_of_bind hexec
    cases heq
    cases i with
    | none =>
      cases hopen
      exact ha
    | some k =>
      obtain ⟨r, m₂, ht, hopen'⟩ := h.toInv.openFile f k
      rw [hopen] at hopen'
      cases hopen'
      simp only [setSlot, ht.heap]
      exact ha
  | closeFile f mind =>
    obtain ⟨m₁, -, -, hsame, hclose, -⟩ := h.closeFile hallowed.1 hallowed.2
    rw [Call.exec, hclose] at hexec
    cases hexec
    rw [hsame]
    exact ha
  | osMalloc d word =>
    rw [Call.exec] at hexec
    split at hexec
    · cases hexec
    · cases hexec
      exact ha
  | osFree d =>
    obtain ⟨unmanaged, -, heq⟩ := exists_of_bind hexec
    cases heq
    exact ha
  | done => exact hspares.elim

/-- Blocks that are left alone stay live. -/
theorem reach_live (h : m.Sound) (hrun : Reach (fun c _ => Spares as c) m m₁) (has : a ∈ as)
    (ha : (m.heap a).isSome = true) :
  (m₁.heap a).isSome = true
  := by
  induction hrun with
  | refl => exact ha
  | call hrun hallowed hspares hexec ih =>
    exact hspares.live (hrun.sound h) hallowed hexec has ih

/-- A handle whose blocks are live and distinct can be deleted after other calls. -/
theorem deletesAlone {h : VvFc} (hsound : m.Sound) (hdata : h.data = some a)
    (herror : h.error = some b) (hab : a ≠ b) (hblock : a ≠ h.block ∧ b ≠ h.block)
    (hlive : ∀ d ∈ h.blocks, (m.heap d).isSome = true) :
  DeletesAlone h m
  := by
  have hblocks : h.blocks = [a, b, h.block] := by
    rw [VvFc.blocks, hdata, herror]
    rfl
  intro m₁ hrun
  have hlive₁ : ∀ d ∈ [a, b, h.block], (m₁.heap d).isSome = true := by
    intro d hd
    rw [← hblocks] at hd
    exact reach_live hsound hrun hd (hlive d hd)
  obtain ⟨m₂, hfree₂, h₂, hheap₂, hun₂⟩ :=
    (hrun.sound hsound).free_live (hlive₁ a (by simp))
  have hb₂ : (m₂.heap b).isSome = true := by
    rw [hheap₂]
    exact isSome_erase (hlive₁ b (by simp)) hab.symm
  obtain ⟨m₃, hfree₃, h₃, hheap₃, hun₃⟩ := h₂.free_live hb₂
  have hblock₃ : (m₃.heap h.block).isSome = true := by
    rw [hheap₃, hheap₂]
    apply isSome_erase
    · exact isSome_erase (hlive₁ h.block (by simp)) hblock.1.symm
    · exact hblock.2.symm
  obtain ⟨m₄, hfree₄, h₄, hheap₄, hun₄⟩ := h₃.free_live hblock₃
  refine ⟨m₄, ?_, h₄.toInv.tableOk, ?_, ?_⟩
  · rw [vvFcDelete, hdata, herror]
    simp only [deref_some, ok_bind, hfree₂, hfree₃, hfree₄]
    rfl
  · rw [hblocks, Mem.without_cons, Mem.without_cons, Mem.without_cons, Mem.without_nil, hheap₄,
      hheap₃, hheap₂]
  · rw [hun₄, hun₃, hun₂]

end Live

/-! ### Threads -/

/-- The buffers of the calls whose threads are started. -/
def buffers (req : List (VvFc × Exchange)) : List Addr :=
  req.flatMap (fun x => if x.2.started then [x.2.reply.data, x.2.reply.error] else [])

/-- The handle of a call when the threads run. -/
def runHandle (x : VvFc × Exchange) : VvFc :=
  let h := { x.1 with hooks := false }
  if x.2.started then h.answered x.2.reply else { h with invalidThread := true }

/-- The handle of a call when the threads are joined. -/
def joinedHandle (emptyString : Addr) (x : VvFc × Exchange) : VvFc :=
  if !x.1.invalidThread && x.2.joined then x.1
  else { x.1 with data := some emptyString, error := some emptyString }

section Threads

variable {m : Velymem} {emptyString : Addr}

/-- An exchange with a server gets memory of the system. -/
theorem vvFcRequest_spec (h : m.Sound) (reply : Reply) (handle : VvFc) :
  Ends (vvFcRequest reply handle m) (fun r => r.1 = handle.answered reply ∧ r.2.Sound
    ∧ m.inUse reply.data = false ∧ m.inUse reply.error = false ∧ reply.data ≠ reply.error
    ∧ r.2 = { m with unmanaged := (m.unmanaged.set reply.data 0).set reply.error 0 })
  := by
  rw [vvFcRequest]
  split
  · rfl
  · next hfresh =>
    simp only [Bool.or_eq_true, not_or, Bool.not_eq_true, decide_eq_true_eq] at hfresh
    obtain ⟨⟨hdata, herror⟩, hne⟩ := hfresh
    refine ⟨rfl, ?_, hdata, herror, hne, rfl⟩
    simp only [inUse, Bool.or_eq_false_iff, Option.isSome_eq_false_iff,
      Option.isNone_iff_eq_none] at hdata herror
    have h₁ := h.withUnmanaged (h.toInv.apart_set hdata.1 0)
    exact h₁.withUnmanaged (h₁.toInv.apart_set herror.1 0)

/-- Memory of the system is put into the table. -/
theorem adopt_spec {a : Addr} (h : m.Sound) (ha : m.heap a = none) :
  ∃ m' w, adopt (some a) m = .ok m' ∧ m'.Sound ∧ m'.heap = m.heap.set a w
    ∧ m'.unmanaged = m.unmanaged.erase a
  := by
  obtain ⟨r, m₁, hadd, ht⟩ := h.toInv.velyAddMem (.block a)
  refine ⟨velyVmset a r m₁, r, ?_, h.of_inv (ht.inv_block h.toInv ha) ht.files ht.opened, ?_, ?_⟩
  · rw [adopt, deref_some, ok_bind, hadd]
    rfl
  · rw [velyVmset, ht.heap]
  · rw [velyVmset, ht.unmanaged]

/-- The threads that are started make their exchanges in memory that was not in use. -/
theorem startThreads_spec (req : List (VvFc × Exchange)) (h : m.Sound) :
  Ends (startThreads req m) (fun r => r.2.2.Sound ∧ r.2.2.heap = m.heap
    ∧ (∀ a, (m.unmanaged a).isSome = true → (r.2.2.unmanaged a).isSome = true)
    ∧ r.1 = req.map (fun x => (runHandle x, x.2)) ∧ (buffers req).Nodup
    ∧ ∀ a ∈ buffers req, m.inUse a = false ∧ (r.2.2.unmanaged a).isSome = true)
  := by
  induction req generalizing m with
  | nil => exact ⟨h, rfl, fun a ha => ha, rfl, List.nodup_nil, fun a ha => nomatch ha⟩
  | cons x req ih =>
    obtain ⟨handle, e⟩ := x
    rw [startThreads]
    cases he : e.started with
    | false =>
      simp only [Bool.false_eq_true, if_false]
      apply (ih h).bind
      rintro ⟨req', totrun, m'⟩ ⟨h', hheap, hstay, hreq, hnodup, hbuffers⟩
      have hnone : buffers ((handle, e) :: req) = buffers req := by
        simp [buffers, he]
      rw [hnone]
      refine ⟨h', hheap, hstay, ?_, hnodup, hbuffers⟩
      simp only at hreq ⊢
      rw [hreq, List.map_cons, runHandle]
      simp [he]
    | true =>
      simp only [if_true]
      apply (vvFcRequest_spec h e.reply _).bind
      rintro ⟨handle₁, m₁⟩ ⟨hhandle, h₁, hdata, herror, hne, hm₁⟩
      simp only at hhandle h₁ hm₁ ⊢
      apply (ih h₁).bind
      rintro ⟨req', totrun, m'⟩ ⟨h', hheap, hstay, hreq, hnodup, hbuffers⟩
      simp only at h' hheap hstay hreq hbuffers
      have hsome : buffers ((handle, e) :: req)
          = e.reply.data :: e.reply.error :: buffers req := by
        simp [buffers, he]
      have hdata₁ : (m₁.unmanaged e.reply.data).isSome = true := by
        rw [hm₁]
        apply isSome_set
        rw [Mem.set_self]
        rfl
      have herror₁ : (m₁.unmanaged e.reply.error).isSome = true := by
        rw [hm₁]
        simp only [Mem.set_self]
        rfl
      have hnot : ∀ a, (m₁.unmanaged a).isSome = true → a ∉ buffers req := by
        intro a ha hmem
        have hfree := (hbuffers a hmem).1
        rw [inUse, ha, Bool.or_true] at hfree
        cases hfree
      have hgrows : ∀ a, (m.unmanaged a).isSome = true → (m₁.unmanaged a).isSome = true := by
        intro a ha
        rw [hm₁]
        exact isSome_set (isSome_set ha)
      rw [hsome]
      refine ⟨h', ?_, ?_, ?_, ?_, ?_⟩
      · rw [hheap, hm₁]
      · intro a ha
        exact hstay a (hgrows a ha)
      · simp only
        rw [hreq, hhandle, List.map_cons, runHandle]
        simp [he]
      · rw [List.nodup_cons, List.nodup_cons, List.mem_cons, not_or]
        exact ⟨⟨hne, hnot _ hdata₁⟩, hnot _ herror₁, hnodup⟩
      · intro a ha
        simp only [List.mem_cons] at ha
        rcases ha with rfl | rfl | ha
        · exact ⟨hdata, hstay _ hdata₁⟩
        · exact ⟨herror, hstay _ herror₁⟩
        · refine ⟨?_, (hbuffers a ha).2⟩
          have hfree := (hbuffers a ha).1
          simp only [inUse, Bool.or_eq_false_iff] at hfree ⊢
          constructor
          · have hfree₁ := hfree.1
            rwa [hm₁] at hfree₁
          · rw [← Bool.not_eq_true]
            intro hm
            rw [hgrows a hm] at hfree
            exact Bool.noConfusion hfree.2

/-- The call of a handle is joined when it finishes. -/
theorem finishes_iff (x : VvFc × Exchange) :
  (!(runHandle x).invalidThread && x.2.joined) = true ↔ Finishes x
  := by
  rw [Finishes, runHandle]
  cases hs : x.2.started with
  | false => simp
  | true =>
    simp only [if_true, VvFc.answered]
    split
    · simp [and_comm]
    · simp [and_comm]

/-- The buffers of a call that finishes. -/
theorem run_data {x : VvFc × Exchange} (hx : x.2.started = true) :
  (runHandle x).data = some x.2.reply.data ∧ (runHandle x).error = some x.2.reply.error
  := by
  rw [runHandle, if_pos hx, VvFc.answered]
  split
  · exact ⟨rfl, rfl⟩
  · exact ⟨rfl, rfl⟩

/-- Memory of the system is not where a block is. -/
theorem heap_none {a : Addr} (h : m.Sound) (ha : (m.unmanaged a).isSome = true) :
  m.heap a = none
  := by
  cases hw : m.heap a with
  | none => rfl
  | some w =>
    rw [h.apart hw] at ha
    cases ha

/-- The buffers of the first call and of the others. -/
theorem buffers_cons (x : VvFc × Exchange) (req : List (VvFc × Exchange)) :
  buffers (x :: req)
    = (if x.2.started then [x.2.reply.data, x.2.reply.error] else []) ++ buffers req
  := List.flatMap_cons

/-- The buffers of the calls that finish are put into the table. -/
theorem joinThreads_spec (req : List (VvFc × Exchange)) (h : m.Sound)
    (hempty : (m.unmanaged emptyString).isSome = true) (hnot : emptyString ∉ buffers req)
    (hnodup : (buffers req).Nodup) (hbuffers : ∀ a ∈ buffers req, (m.unmanaged a).isSome = true) :
  ∃ totok m', joinThreads emptyString (req.map (fun x => (runHandle x, x.2))) m
      = .ok (req.map (fun x => joinedHandle emptyString (runHandle x, x.2)), totok, m')
    ∧ m'.Sound ∧ (m'.unmanaged emptyString).isSome = true
    ∧ (∀ a, (m.heap a).isSome = true → (m'.heap a).isSome = true)
    ∧ ∀ x ∈ req, Finishes x →
      (m'.heap x.2.reply.data).isSome = true ∧ (m'.heap x.2.reply.error).isSome = true
  := by
  induction req generalizing m with
  | nil => exact ⟨0, m, rfl, h, hempty, fun a ha => ha, fun x hx => nomatch hx⟩
  | cons x req ih =>
    rw [buffers_cons] at hnot hnodup hbuffers
    rw [List.mem_append, not_or] at hnot
    obtain ⟨hnodup₁, hnodup₂, hdisjoint⟩ := List.nodup_append.mp hnodup
    have hrest : ∀ a ∈ buffers req, (m.unmanaged a).isSome = true :=
      fun a ha => hbuffers a (List.mem_append_right _ ha)
    rw [List.map_cons, List.map_cons, joinThreads, joinedHandle]
    by_cases hx : Finishes x
    · obtain ⟨hdata, herror⟩ := run_data hx.1
      rw [hx.1, if_pos rfl] at hnot hnodup₁ hdisjoint hbuffers
      have hne : x.2.reply.data ≠ x.2.reply.error := by
        intro heq
        simp [heq] at hnodup₁
      have hdata₀ := hbuffers x.2.reply.data (by simp)
      have herror₀ := hbuffers x.2.reply.error (by simp)
      obtain ⟨m₁, w₁, hadopt₁, h₁, hheap₁, hun₁⟩ := adopt_spec h (heap_none h hdata₀)
      have herror₁ : (m₁.unmanaged x.2.reply.error).isSome = true := by
        rw [hun₁]
        exact isSome_erase herror₀ hne.symm
      obtain ⟨m₂, w₂, hadopt₂, h₂, hheap₂, hun₂⟩ := adopt_spec h₁ (heap_none h₁ herror₁)
      have hstay : ∀ a, a ≠ x.2.reply.data → a ≠ x.2.reply.error →
          (m.unmanaged a).isSome = true → (m₂.unmanaged a).isSome = true := by
        intro a hda hea ha
        rw [hun₂, hun₁]
        exact isSome_erase (isSome_erase ha hda) hea
      have hempty₂ : (m₂.unmanaged emptyString).isSome = true := by
        apply hstay _ _ _ hempty
        · rintro rfl
          exact hnot.1 (by simp)
        · rintro rfl
          exact hnot.1 (by simp)
      have hrest₂ : ∀ a ∈ buffers req, (m₂.unmanaged a).isSome = true := by
        intro a ha
        apply hstay _ _ _ (hrest a ha)
        · exact (hdisjoint _ (by simp) a ha).symm
        · exact (hdisjoint _ (by simp) a ha).symm
      obtain ⟨totok, m', hjoin, h', hempty', hlive, hfinish⟩ :=
        ih h₂ hempty₂ hnot.2 hnodup₂ hrest₂
      have hgrows : ∀ a, (m.heap a).isSome = true → (m₂.heap a).isSome = true := by
        intro a ha
        rw [hheap₂, hheap₁]
        exact isSome_set (isSome_set ha)
      simp only [(finishes_iff x).mpr hx, if_true, hdata, herror, hadopt₁, hadopt₂, hjoin, ok_bind]
      refine ⟨_, m', rfl, h', hempty', fun a ha => hlive a (hgrows a ha), ?_⟩
      intro y hy hfin
      rcases List.mem_cons.mp hy with rfl | hy
      · constructor
        · apply hlive
          rw [hheap₂, hheap₁]
          apply isSome_set
          rw [Mem.set_self]
          rfl
        · apply hlive
          rw [hheap₂, Mem.set_self]
          rfl
      · exact hfinish y hy hfin
    · obtain ⟨totok, m', hjoin, h', hempty', hlive, hfinish⟩ := ih h hempty hnot.2 hnodup₂ hrest
      have hcond : (!(runHandle x).invalidThread && x.2.joined) = false := by
        rw [← Bool.not_eq_true, finishes_iff]
        exact hx
      simp only [hcond, Bool.false_eq_true, if_false, hjoin, ok_bind]
      refine ⟨_, m', rfl, h', hempty', hlive, ?_⟩
      intro y hy hfin
      rcases List.mem_cons.mp hy with rfl | hy
      · exact absurd hfin hx
      · exact hfinish y hy hfin

/-- A handle that is joined is as it should be exactly when its call finishes. -/
theorem joined_settled_iff {x : VvFc × Exchange} (h : m.Sound)
    (hempty : (m.unmanaged emptyString).isSome = true)
    (hblock : (m.heap x.1.block).isSome = true)
    (hne : x.2.started = true → x.2.reply.data ≠ x.2.reply.error
      ∧ x.2.reply.data ≠ x.1.block ∧ x.2.reply.error ≠ x.1.block)
    (hfinish : Finishes x →
      (m.heap x.2.reply.data).isSome = true ∧ (m.heap x.2.reply.error).isSome = true) :
  CallSettled x (joinedHandle emptyString (runHandle x, x.2)) m
    ∧ DeletesAlone (joinedHandle emptyString (runHandle x, x.2)) m ↔ Finishes x
  := by
  rw [joinedHandle]
  constructor
  · rintro ⟨⟨reply, -, hhandle, -, hdata, -⟩, -⟩
    rw [← finishes_iff]
    by_contra hcond
    rw [if_neg hcond] at hhandle
    have hreply : reply.data = emptyString := by
      have hfield := congrArg VvFc.data hhandle
      simp only [VvFc.answered] at hfield
      split at hfield
      · exact (Option.some.inj hfield).symm
      · exact (Option.some.inj hfield).symm
    rw [hreply, heap_none h hempty] at hdata
    cases hdata
  · intro hx
    obtain ⟨hdata, herror⟩ := hfinish hx
    obtain ⟨hne₁, hne₂, hne₃⟩ := hne hx.1
    obtain ⟨hrun₁, hrun₂⟩ := run_data hx.1
    have hrunblock : (runHandle x).block = x.1.block := by
      rw [runHandle, if_pos hx.1, VvFc.answered]
      split
      · rfl
      · rfl
    rw [if_pos ((finishes_iff x).mpr hx)]
    constructor
    · refine ⟨x.2.reply, fun _ => rfl, ?_, hne₁, hdata, herror⟩
      simp only [runHandle, if_pos hx.1, VvFc.answered]
      cases badTimeout x.1.timeout with
      | true => rfl
      | false => rfl
    · apply deletesAlone h hrun₁ hrun₂ hne₁
      · rw [hrunblock]
        exact ⟨hne₂, hne₃⟩
      · intro d hd
        simp only [VvFc.blocks, hrun₁, hrun₂, hrunblock] at hd
        simp only [Option.toList_some, List.mem_append, List.mem_singleton] at hd
        rcases hd with (rfl | rfl) | rfl
        · exact hdata
        · exact herror
        · exact hblock

/-- The data of a handle that an exchange has set. -/
theorem answered_data (h : VvFc) (reply : Reply) :
  (h.answered reply).data = some reply.data
  := by
  rw [VvFc.answered]
  split
  · rfl
  · rfl

/-- The buffers of a single call stay memory of the system. -/
theorem single_not_settled {x : VvFc × Exchange}
    (hfresh : m.inUse x.2.reply.data = false) {m' : Velymem} (hheap : m'.heap = m.heap) :
  ¬ CallSettled x (x.1.answered x.2.reply) m'
  := by
  rintro ⟨reply, -, hhandle, -, hdata, -⟩
  have hfield := congrArg VvFc.data hhandle
  simp only [answered_data] at hfield
  rw [← Option.some.inj hfield, hheap] at hdata
  rw [inUse, hdata] at hfresh
  cases hfresh

/-- Several calls are made in threads. -/
theorem vvCallFcgi_many {req : List (VvFc × Exchange)} (hlen : req.length ≠ 1) :
  vvCallFcgi emptyString req m
    = if req.length > 1000000 then .ok (⟨.tooMany, none, none, req.map Prod.fst⟩, m)
      else do
        let (req', totrun, m) ← startThreads req m
        let (hs, totok, m) ← joinThreads emptyString req' m
        let okay := totrun = req.length ∧ totok = req.length
        return (⟨if okay then .okay else .failed, some totrun, some totok, hs⟩, m)
  := by
  match req with
  | [] => rfl
  | [x] => exact absurd rfl hlen
  | x :: y :: req => rfl

/-- The calls of a list, unless there are too many, leave every handle as it should be exactly when
there is not just one call and all of them finish. -/
theorem callsAgree_iff {req : List (VvFc × Exchange)} (h : m.Sound)
    (hempty : (m.unmanaged emptyString).isSome = true)
    (hreq : ∀ x ∈ req, (m.heap x.1.block).isSome = true) :
  Ends (vvCallFcgi emptyString req m) (fun r => r.2.Sound
    ∧ ((r.1.status = .tooMany ∨ CallsAgree req r.1.handles r.2)
      ↔ req.length > 1000000 ∨ req.length ≠ 1 ∧ ∀ x ∈ req, Finishes x))
  := by
  by_cases hlen : req.length = 1
  · obtain ⟨x, rfl⟩ := List.length_eq_one_iff.mp hlen
    apply (vvFcRequest_spec h x.2.reply x.1).bind
    rintro ⟨handle, m'⟩ ⟨hhandle, h', hfresh, -, -, hm'⟩
    simp only at hhandle h' hm' ⊢
    refine ⟨h', ?_⟩
    constructor
    · rintro (hstatus | hagree)
      · simp only at hstatus
        split at hstatus
        · cases hstatus
        · cases hstatus
      · simp only [CallsAgree, List.forall₂_cons] at hagree
        rw [hhandle] at hagree
        refine absurd hagree.1.1 (single_not_settled hfresh ?_)
        rw [hm']
    · rintro (hmany | ⟨hne, -⟩)
      · rw [hlen] at hmany
        omega
      · exact absurd hlen hne
  · rw [vvCallFcgi_many hlen]
    split
    · next hmany => exact ⟨h, fun _ => Or.inl hmany, fun _ => Or.inl rfl⟩
    · next hmany =>
      apply (startThreads_spec req h).bind
      rintro ⟨req', totrun, m₁⟩ ⟨h₁, hheap, hstay, hreq', hnodup, hbuffers⟩
      simp only at h₁ hheap hstay hreq' hbuffers ⊢
      have hempty₁ := hstay _ hempty
      have hnot : emptyString ∉ buffers req := by
        intro hmem
        have hfresh := (hbuffers _ hmem).1
        rw [inUse, hempty, Bool.or_true] at hfresh
        cases hfresh
      obtain ⟨totok, m', hjoin, h', hempty', hlive, hfinish⟩ :=
        joinThreads_spec req h₁ hempty₁ hnot hnodup (fun a ha => (hbuffers a ha).2)
      rw [hreq', hjoin]
      refine ⟨h', ?_⟩
      have heach : ∀ x ∈ req, (CallSettled x (joinedHandle emptyString (runHandle x, x.2)) m'
          ∧ DeletesAlone (joinedHandle emptyString (runHandle x, x.2)) m' ↔ Finishes x) := by
        intro x hx
        have hblock : (m.heap x.1.block).isSome = true := hreq x hx
        apply joined_settled_iff h' hempty'
        · apply hlive
          rwa [hheap]
        · intro hs
          have hmem : ∀ a ∈ [x.2.reply.data, x.2.reply.error], a ∈ buffers req := by
            intro a ha
            rw [buffers, List.mem_flatMap]
            refine ⟨x, hx, ?_⟩
            rwa [if_pos hs]
          have hapart : ∀ a ∈ buffers req, a ≠ x.1.block := by
            rintro a ha rfl
            have hfresh := (hbuffers _ ha).1
            rw [inUse, hblock] at hfresh
            cases hfresh
          refine ⟨?_, hapart _ (hmem _ (by simp)), hapart _ (hmem _ (by simp))⟩
          intro heq
          have hsub : List.Sublist [x.2.reply.data, x.2.reply.error] (buffers req) := by
            rw [buffers, List.flatMap_def]
            apply List.sublist_flatten_of_mem
            rw [List.mem_map]
            exact ⟨x, hx, by rw [if_pos hs]⟩
          have hpair := hnodup.sublist hsub
          rw [heq] at hpair
          simp at hpair
        · exact hfinish x hx
      have hagree : CallsAgree req
          (req.map (fun x => joinedHandle emptyString (runHandle x, x.2))) m'
          ↔ ∀ x ∈ req, Finishes x := by
        rw [CallsAgree, List.forall₂_map_right_iff, List.forall₂_same]
        constructor
        · intro hall x hx
          exact (heach x hx).mp (hall x hx)
        · intro hall x hx
          exact (heach x hx).mpr (hall x hx)
      simp only [hagree]
      constructor
      · rintro (hstatus | hall)
        · split at hstatus
          · cases hstatus
          · cases hstatus
        · exact Or.inr ⟨hlen, hall⟩
      · rintro (hmany' | ⟨-, hall⟩)
        · exact absurd hmany' hmany
        · exact Or.inr hall

end Threads

/-- A handle that was not used before. -/
def newHandle (block : Addr) : VvFc := ⟨block, 0, none, none, 0, 0, 0, 0, none, false, false, false⟩

/-- A call whose server sends two bytes. -/
def shortCall (block data error : Addr) : VvFc × Exchange :=
  (newHandle block, ⟨⟨data, error, 2, 0, some 0, 0, ""⟩, true, true⟩)

/-- Two calls that finish leave their handles as they should be. -/
theorem callsAgree_iff_two :
  ∃ m r, vvCallFcgi (nth 1)
      [shortCall (nth 2) (nth 4) (nth 5), shortCall (nth 3) (nth 6) (nth 7)] m = .ok r
    ∧ CallsAgree [shortCall (nth 2) (nth 4) (nth 5), shortCall (nth 3) (nth 6) (nth 7)]
      r.1.handles r.2
  := by
  have h₁ : Reachable _ := .call (c := .osMalloc (nth 1) 0) .refl trivial trivial rfl
  have h₂ : Reachable _ := .call (c := .malloc (nth 2)) h₁ trivial trivial rfl
  have h₃ : Reachable _ := .call (c := .malloc (nth 3)) h₂ trivial trivial rfl
  have hends := @callsAgree_iff _ (nth 1)
    [shortCall (nth 2) (nth 4) (nth 5), shortCall (nth 3) (nth 6) (nth 7)]
    (h₃.sound start_sound) rfl (by simp only [List.forall_mem_cons]; exact ⟨rfl, rfl, by simp⟩)
  obtain ⟨r, hr, -, hiff⟩ := hends.exists_ok rfl
  refine ⟨_, r, hr, ?_⟩
  cases hr
  refine (hiff.mpr (Or.inr ⟨by simp, ?_⟩)).resolve_left (by decide)
  simp only [List.forall_mem_cons]
  exact ⟨⟨rfl, rfl, rfl⟩, ⟨rfl, rfl, rfl⟩, by simp⟩

/-- The buffers of a single call are not in the table. -/
theorem not_callsAgree_single :
  ¬ ∀ (emptyString : Addr) (req : List (VvFc × Exchange)) (m : Velymem), m.Sound →
    (m.unmanaged emptyString).isSome = true → (∀ x ∈ req, (m.heap x.1.block).isSome = true) →
    Ends (vvCallFcgi emptyString req m)
      (fun r => r.1.status = .tooMany ∨ CallsAgree req r.1.handles r.2)
  := by
  intro h
  have h₁ : Reachable _ := .call (c := .osMalloc (nth 1) 0) .refl trivial trivial rfl
  have h₂ : Reachable _ := .call (c := .malloc (nth 2)) h₁ trivial trivial rfl
  have hends := h (nth 1) [shortCall (nth 2) (nth 4) (nth 5)] _ (h₂.sound start_sound) rfl
    (by simp only [List.forall_mem_cons]; exact ⟨rfl, by simp⟩)
  obtain ⟨r, hr, hagree⟩ := hends.exists_ok rfl
  cases hr
  have hcall := hagree.resolve_left (by decide)
  rw [CallsAgree, List.forall₂_cons] at hcall
  obtain ⟨⟨reply, -, hhandle, -, hdata, -⟩, -⟩ := hcall.1
  have hreply : some (nth 4) = some reply.data :=
    (congrArg VvFc.data hhandle).trans (answered_data ..)
  rw [← Option.some.inj hreply] at hdata
  cases hdata

end Vely
