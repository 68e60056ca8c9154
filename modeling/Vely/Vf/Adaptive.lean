import Vely.Vf.Model

/-!
# The number of workers

The slots that hold a worker are never all used in adaptive mode: a worker is started for the load
only while the workers counted are fewer than one below the maximum.  So the maximum is not
exceeded, and it is not reached either.
-/

namespace Vely

namespace Vf

/-- How many slots hold a worker. -/
def registered (s : State) : Nat := s.plist.countP Option.isSome

/-- How many of the workers in the slots are gone. -/
def gone (env : Env) (s : State) : Nat :=
  s.plist.countP fun slot => slot.any fun pid => !whatisprocess env pid s.world.now

/-- There is load in adaptive mode, whenever it is looked for. -/
def Load (t : Tick) (s : State) : Prop :=
  t.first = true ∧ t.second = true ∧ t.third = true ∧ s.tempNoRestart = false

/-- A turn without load in which a worker may be stopped. -/
def Release (opts : Options) (t : Tick) (s : State) : Prop :=
  t.first = false ∧ t.second = false ∧ t.third = false ∧ s.tempNoRestart = false ∧
    opts.spikes ≤ s.nspike + 1

/-- What is asked of a turn in adaptive mode: the workers that run are at most as many as they may
be, before and after it; where one that runs is stopped for want of load, more than the minimum ran;
and with load throughout and fewer than the maximum, one is started. -/
structure TickOk (opts : Options) (env : Env) (t : Tick) (s : State) : Prop where
  before : live env s ≤ opts.maxproc
  after : ∀ s', tick opts env t s = some s' → live env s' ≤ opts.maxproc
  kept : ∀ s', tick opts env t s = some s' →
    ∀ n ∈ s'.stopped, n ∈ s.stopped ∨ opts.numToStartMin < n
  started : Load t s → live env s < opts.maxproc →
    ∀ s', tick opts env t s = some s' → s.world.attempts < s'.world.attempts

/-- With load throughout, the workers counted are not one below the maximum.  When one may be
stopped and more than the minimum are counted, either the first is gone by then or fewer are gone
than were counted beyond the minimum. -/
structure Met (opts : Options) (env : Env) (t : Tick) (s : State) : Prop where
  load : Load t s → (totprocess env s).1 ≠ opts.maxproc - 1
  release : Release opts t s → opts.numToStartMin < (totprocess env s).1 →
    (∀ pid, firstWorker (totprocess env s).2 = some pid →
      whatisprocess env pid (totprocess env s).2.world.now = false) ∨
    gone env (totprocess env s).2 < (totprocess env s).1 - opts.numToStartMin

section Count

variable {opts : Options} {env : Env} {s s' : State}

/-- Workers in the slots run or are gone. -/
theorem registered_eq (env : Env) (s : State) :
  registered s = live env s + gone env s
  := by
  rw [registered, live, gone]
  induction s.plist with
  | nil => rfl
  | cons slot plist ih =>
    rw [List.countP_cons, List.countP_cons, List.countP_cons, ih]
    cases slot with
    | none => simp
    | some pid =>
      by_cases hruns : whatisprocess env pid s.world.now = true
      · simp [hruns]
        omega
      · simp [hruns]
        omega

/-- A count of the workers leaves those that are counted in the slots. -/
theorem totSlots_spec (env : Env) (plist : List (Option Nat)) (now : Nat) :
  (totSlots env plist now).2.1.length = plist.length ∧
    (totSlots env plist now).1 = (totSlots env plist now).2.1.countP Option.isSome ∧
    (totSlots env plist now).1 ≤ plist.countP Option.isSome
  := by
  induction plist generalizing now with
  | nil => exact ⟨rfl, rfl, Nat.le_refl 0⟩
  | cons slot plist ih =>
    cases slot with
    | none =>
      obtain ⟨hlength, htot, hle⟩ := ih now
      rw [totSlots]
      refine ⟨?_, ?_, ?_⟩
      · simp only [List.length_cons, hlength]
      · simp only [List.countP_cons, Option.isSome_none, Bool.false_eq_true, if_false]
        exact htot
      · simp only [List.countP_cons, Option.isSome_none, Bool.false_eq_true, if_false]
        exact hle
    | some pid =>
      obtain ⟨hlength, htot, hle⟩ := ih (now + 1)
      simp only [totSlots, List.countP_cons, Option.isSome_some, if_true]
      split
      · refine ⟨?_, ?_, ?_⟩
        · simp only [List.length_cons, hlength]
        · simp only [List.countP_cons, Option.isSome_some, if_true, ← htot]
        · apply Nat.succ_le_succ hle
      · refine ⟨?_, ?_, ?_⟩
        · simp only [List.length_cons, hlength]
        · simp only [List.countP_cons, Option.isSome_none, Bool.false_eq_true, if_false]
          exact htot
        · apply Nat.le_succ_of_le hle

/-- An attempt to start a worker is counted. -/
theorem startChild_attempts {w w' : World} {slot : Option Nat}
    (h : startChild env w = some (slot, w')) :
  w'.attempts = w.attempts + 1
  := by
  rw [startChild] at h
  split at h
  · cases h
    rfl
  · cases h
    rfl
  · cases h

/-- What starting missing workers does to the slots: at most one more is used when one is added, and
at most as many as are missing otherwise. -/
structure Raised (opts : Options) (addone : Bool) (tot : Nat) (plist : List (Option Nat)) (w : World)
    (plist' : List (Option Nat)) (w' : World) : Prop where
  length : plist'.length = plist.length
  used : plist'.countP Option.isSome
    ≤ plist.countP Option.isSome + (if addone then 1 else opts.numToStartMin - tot)
  attempts : w.attempts ≤ w'.attempts
  added : addone = true → plist.countP Option.isSome < plist.length → w.attempts < w'.attempts

/-- A slot that is kept. -/
theorem Raised.skip {addone : Bool} {tot : Nat} {plist plist' : List (Option Nat)} {w w₁ w' : World}
    (h : Raised opts addone tot plist w₁ plist' w') (hw : w₁.attempts = w.attempts)
    {slot slot' : Option Nat} (hslot : slot'.isSome = true → slot.isSome = true)
    (hempty : addone = true → slot = none → False) :
  Raised opts addone tot (slot :: plist) w (slot' :: plist') w'
  := by
  have hle : (if slot'.isSome = true then 1 else 0) ≤ if slot.isSome = true then 1 else 0 := by
    split
    · rename_i hs
      exact Nat.le_of_eq (if_pos (hslot hs)).symm
    · apply Nat.zero_le
  constructor
  · simp only [List.length_cons, h.length]
  · simp only [List.countP_cons]
    have hused := h.used
    omega
  · rw [← hw]
    exact h.attempts
  · intro hadd hlt
    cases slot with
    | none => exact absurd rfl (hempty hadd)
    | some pid =>
      simp only [List.countP_cons, Option.isSome_some, if_true, List.length_cons,
        Nat.add_lt_add_iff_right] at hlt
      rw [← hw]
      exact h.added hadd hlt

/-- A worker that is the only one to be started. -/
theorem raised_one {tot : Nat} {plist : List (Option Nat)} {w w₁ w' : World} {slot slot' : Option Nat}
    (h : startChild env w₁ = some (slot', w')) (hw : w₁.attempts = w.attempts) :
  Raised opts true tot (slot :: plist) w (slot' :: plist) w'
  := by
  have hattempts := startChild_attempts h
  have hle : (if slot'.isSome = true then 1 else 0) ≤ 1 := by
    split
    · apply Nat.le_refl
    · apply Nat.zero_le
  constructor
  · rfl
  · simp only [List.countP_cons, if_true]
    omega
  · omega
  · intro _ _
    omega

/-- A worker that is started before others. -/
theorem Raised.more {tot : Nat} {plist plist' : List (Option Nat)} {w w₁ w₂ w' : World}
    {slot slot' : Option Nat} (h : Raised opts false (tot + 1) plist w₂ plist' w')
    (hstart : startChild env w₁ = some (slot', w₂)) (hw : w₁.attempts = w.attempts)
    (hneed : tot < opts.numToStartMin) :
  Raised opts false tot (slot :: plist) w (slot' :: plist') w'
  := by
  have hattempts := startChild_attempts hstart
  have hused := h.used
  have hmore := h.attempts
  have hle : (if slot'.isSome = true then 1 else 0) ≤ 1 := by
    split
    · apply Nat.le_refl
    · apply Nat.zero_le
  constructor
  · simp only [List.length_cons, h.length]
  · simp only [List.countP_cons, Bool.false_eq_true, if_false] at hused ⊢
    omega
  · omega
  · intro hadd
    cases hadd

/-- What an optional computation does first. -/
theorem bind_eq_some {α β : Type} {x : Option α} {f : α → Option β} {b : β}
    (h : x >>= f = some b) :
  ∃ a, x = some a ∧ f a = some b
  := Option.bind_eq_some_iff.mp h

/-- The loop of `processup` starts what is missing in adaptive mode. -/
theorem upSlots_raised (hadapt : opts.adapt = true) {addone : Bool} {tot : Nat}
    {plist plist' : List (Option Nat)} {w w' : World}
    (h : upSlots opts env addone plist tot w = some (plist', w')) :
  Raised opts addone tot plist w plist' w'
  := by
  induction plist generalizing tot w plist' w' with
  | nil =>
    cases h
    constructor
    · rfl
    · apply Nat.zero_le
    · apply Nat.le_refl
    · intro _ hlt
      cases hlt
  | cons slot plist ih =>
    -- the rest of the loop, after a worker is started for this slot
    have hadd : ∀ w₁, w₁.attempts = w.attempts → opts.needs addone tot = true →
        (startChild env w₁ >>= fun p =>
          if addone then pure (p.1 :: plist, p.2)
          else upSlots opts env addone plist (tot + 1) p.2 >>= fun q =>
            pure (p.1 :: q.1, q.2)) = some (plist', w') →
        Raised opts addone tot (slot :: plist) w plist' w' := by
      intro w₁ hw hneed h
      obtain ⟨⟨slot', w₂⟩, hstart, h⟩ := bind_eq_some h
      cases haddone : addone with
      | true =>
        simp only [haddone, if_true] at h
        cases h
        apply raised_one hstart hw
      | false =>
        simp only [haddone, Bool.false_eq_true, if_false] at h
        obtain ⟨⟨plist₁, w₃⟩, hup, h⟩ := bind_eq_some h
        cases h
        subst haddone
        apply (ih hup).more hstart hw
        simpa [Options.needs, hadapt] using hneed
    have hkeep : ∀ w₁ (slot' : Option Nat), w₁.attempts = w.attempts →
        (slot'.isSome = true → slot.isSome = true) → (addone = true → slot = none → False) →
        (upSlots opts env addone plist tot w₁ >>= fun q => pure (slot' :: q.1, q.2)) =
          some (plist', w') →
        Raised opts addone tot (slot :: plist) w plist' w' := by
      intro w₁ slot' hw hslot hempty h
      obtain ⟨⟨plist₁, w₂⟩, hup, h⟩ := bind_eq_some h
      cases h
      apply (ih hup).skip hw hslot hempty
    cases slot with
    | none =>
      rw [upSlots] at h
      split at h
      · rename_i hneed
        exact hadd w rfl hneed h
      · rename_i hneed
        apply hkeep w none rfl id _ h
        intro hone
        exact absurd (by simp [Options.needs, hone]) hneed
    | some pid =>
      rw [upSlots] at h
      split at h
      · apply hkeep { w with now := w.now + 1 } (some pid) rfl id _ h
        intro _ hslot
        cases hslot
      · split at h
        · rename_i hneed
          exact hadd { w with now := w.now + 1 } rfl hneed h
        · apply hkeep { w with now := w.now + 1 } none rfl _ _ h
          · intro hnone
            cases hnone
          · intro _ hslot
            cases hslot

/-- Stopping workers uses no more slots. -/
theorem stopSlots_spec (one : Bool) (plist : List (Option Nat)) (now : Nat) :
  (stopSlots one plist now).1.length = plist.length ∧
    (stopSlots one plist now).1.countP Option.isSome ≤ plist.countP Option.isSome
  := by
  induction plist generalizing now with
  | nil => exact ⟨rfl, Nat.le_refl 0⟩
  | cons slot plist ih =>
    cases slot with
    | none =>
      obtain ⟨hlength, hle⟩ := ih now
      rw [stopSlots]
      constructor
      · simp only [List.length_cons, hlength]
      · simpa using hle
    | some pid =>
      rw [stopSlots]
      split
      · constructor
        · rfl
        · simp
      · obtain ⟨hlength, hle⟩ := ih (now + 1)
        constructor
        · simp only [List.length_cons, hlength]
        · simp only [List.countP_cons, Option.isSome_none, Option.isSome_some, if_true,
            Bool.false_eq_true, if_false]
          omega

end Count

section Moves

variable {opts : Options} {env : Env} {s s' s'' : State} {t : Tick} {ok : Prop}

/-- What every step of the loop keeps: a slot is free if one was, attempts to start a worker are not
forgotten, and, if it is `ok`, a worker that runs is stopped only if more than the minimum do. -/
structure Moves (opts : Options) (ok : Prop) (s s' : State) : Prop where
  length : s'.plist.length = s.plist.length
  free : registered s < opts.maxproc → registered s' < opts.maxproc
  attempts : s.world.attempts ≤ s'.world.attempts
  kept : ok → ∀ n ∈ s'.stopped, n ∈ s.stopped ∨ opts.numToStartMin < n

/-- A step in which the slots and the attempts stay, and no worker is stopped. -/
theorem Moves.of_eq (hplist : s'.plist = s.plist) (hworld : s'.world = s.world)
    (hstopped : s'.stopped = s.stopped) :
  Moves opts ok s s'
  := by
  constructor
  · rw [hplist]
  · intro h
    rw [registered, hplist]
    exact h
  · exact Nat.le_of_eq (congrArg World.attempts hworld.symm)
  · intro hok n hn
    left
    rw [← hstopped]
    exact hn

/-- One step after the other. -/
theorem Moves.trans (h : Moves opts ok s s') (h' : Moves opts ok s' s'') :
  Moves opts ok s s''
  := by
  constructor
  · rw [h'.length, h.length]
  · intro hfree
    apply h'.free
    apply h.free hfree
  · apply Nat.le_trans h.attempts h'.attempts
  · intro hok n hn
    obtain hold | hmin := h'.kept hok n hn
    · exact h.kept hok n hold
    · exact Or.inr hmin

/-- A count of the workers. -/
theorem totprocess_spec (env : Env) (s : State) (ok : Prop) :
  Moves opts ok s (totprocess env s).2 ∧ (totprocess env s).2.world.attempts = s.world.attempts ∧
    (totprocess env s).1 = registered (totprocess env s).2 ∧ (totprocess env s).1 ≤ registered s
  := by
  obtain ⟨hlength, htot, hle⟩ := totSlots_spec env s.plist s.world.now
  refine ⟨?_, rfl, htot, hle⟩
  constructor
  · exact hlength
  · intro hfree
    show (totSlots env s.plist s.world.now).2.1.countP Option.isSome < opts.maxproc
    rw [← htot]
    exact Nat.lt_of_le_of_lt hle hfree
  · apply Nat.le_refl
  · intro hok n hn
    exact Or.inl hn

/-- Starting what is missing. -/
theorem processup_moves (hadapt : opts.adapt = true) (h : processup opts env false s = some s') :
  Moves opts ok s s'
  := by
  simp only [processup, hadapt, if_true] at h
  obtain ⟨⟨plist, world⟩, hup, h⟩ := bind_eq_some h
  cases h
  obtain ⟨hmoves, hattempts, htot, hle⟩ := @totprocess_spec opts env s ok
  have hraised := upSlots_raised hadapt hup
  apply hmoves.trans
  have hmin := (opts.adaptive hadapt).1
  constructor
  · exact hraised.length
  · intro hfree
    have hused := hraised.used
    rw [htot] at hused
    simp only [registered, Bool.false_eq_true, if_false] at hused hfree ⊢
    omega
  · exact hraised.attempts
  · intro hok n hn
    exact Or.inl hn

/-- Adding one worker when fewer than one below the maximum are counted. -/
theorem processup_added (hadapt : opts.adapt = true) (hlength : s.plist.length = opts.maxproc)
    (htot : registered s < opts.maxproc - 1) (h : processup opts env true s = some s') :
  Moves opts ok s s' ∧ s.world.attempts < s'.world.attempts
  := by
  simp only [processup, hadapt, if_true] at h
  obtain ⟨⟨plist, world⟩, hup, h⟩ := bind_eq_some h
  cases h
  obtain ⟨hmoves, hattempts, hcount, hle⟩ := @totprocess_spec opts env s ok
  have hraised := upSlots_raised hadapt hup
  have hfree : registered (totprocess env s).2 < opts.maxproc - 1 := by omega
  constructor
  · apply hmoves.trans
    constructor
    · exact hraised.length
    · intro _
      have hused := hraised.used
      simp only [registered, if_true] at hused hfree ⊢
      omega
    · exact hraised.attempts
    · intro hok n hn
      exact Or.inl hn
  · rw [← hattempts]
    apply hraised.added rfl
    have hlength' := hmoves.length
    simp only [registered] at hfree
    omega

/-- Stopping all workers. -/
theorem handlestop_moves (env : Env) (s : State) :
  Moves opts ok s (handlestop env false s)
  := by
  obtain ⟨hlength, hle⟩ := stopSlots_spec false s.plist s.world.now
  constructor
  · exact hlength
  · intro hfree
    exact Nat.lt_of_le_of_lt hle hfree
  · apply Nat.le_refl
  · intro hok n hn
    exact Or.inl hn

/-- Stopping one worker when more than the minimum run, or the first is gone. -/
theorem handlestop_one (h : ok → (∀ pid, firstWorker s = some pid →
      whatisprocess env pid s.world.now = false) ∨ opts.numToStartMin < live env s) :
  Moves opts ok s (handlestop env true s)
  := by
  obtain ⟨hlength, hle⟩ := stopSlots_spec true s.plist s.world.now
  constructor
  · exact hlength
  · intro hfree
    exact Nat.lt_of_le_of_lt hle hfree
  · apply Nat.le_refl
  · intro hok n hn
    have hmem : n ∈ stopRecord env s ++ s.stopped := hn
    obtain hrecord | hold := List.mem_append.mp hmem
    · right
      rw [stopRecord] at hrecord
      split at hrecord
      · rename_i hruns
        rw [List.mem_singleton.mp hrecord]
        obtain hgone | hmin := h hok
        · cases hfirst : firstWorker s with
          | none =>
            rw [hfirst] at hruns
            cases hruns
          | some pid =>
            rw [hfirst, Option.any_some, hgone pid hfirst] at hruns
            cases hruns
        · exact hmin
      · cases hrecord
    · exact Or.inl hold

/-- What is done in adaptive mode before missing workers are started; with load throughout, a worker
is started. -/
theorem adaptive_moves (hadapt : opts.adapt = true) (hlength : s.plist.length = opts.maxproc)
    (hfree : registered s < opts.maxproc) (hmanaged : s.tempNoRestart = false)
    (hmet : ok → Met opts env t s) (h : adaptive opts env t s = some s') :
  Moves opts ok s s' ∧ (ok → Load t s → s.world.attempts < s'.world.attempts)
  := by
  obtain ⟨hmoves, hattempts, htot, hle⟩ := @totprocess_spec opts env { s with nspike := 0 } ok
  have hreset : Moves opts ok s { s with nspike := 0 } := Moves.of_eq rfl rfl rfl
  rw [adaptive] at h
  split at h
  · rename_i hfirst
    simp only at h
    split at h
    · rename_i hload
      rw [Bool.and_eq_true] at hload
      split at h
      · rename_i hbelow
        obtain ⟨hadded, hstarted⟩ := @processup_added _ _ _ _ ok hadapt
          (hmoves.length.trans hlength) (htot ▸ hbelow) h
        constructor
        · exact (hreset.trans hmoves).trans hadded
        · intro _ _
          rw [hattempts] at hstarted
          exact hstarted
      · rename_i hmax
        cases h
        constructor
        · exact hreset.trans hmoves
        · intro hok hyes
          have hne : (totprocess env { s with nspike := 0 }).1 ≠ opts.maxproc - 1 :=
            (hmet hok).load hyes
          have hle' : (totprocess env { s with nspike := 0 }).1 ≤ registered s := hle
          omega
    · rename_i hload
      cases h
      constructor
      · exact hreset
      · rintro - ⟨-, hsecond, hthird, -⟩
        simp [hsecond, hthird] at hload
  · rename_i hfirst
    have hno : ok → Load t s → s.world.attempts < s'.world.attempts := by
      rintro - ⟨hyes, -⟩
      exact absurd hyes hfirst
    refine ⟨?_, hno⟩
    split at h
    · rename_i hquiet
      rw [Bool.and_eq_true, Bool.not_eq_true', Bool.not_eq_true'] at hquiet
      simp only at h
      split at h
      · rename_i hspikes
        have hrelease : Release opts t s :=
          ⟨Bool.not_eq_true _ ▸ hfirst, hquiet.1, hquiet.2, hmanaged, hspikes⟩
        obtain ⟨hmoves', -, htot', -⟩ := @totprocess_spec opts env { s with nspike := s.nspike + 1 } ok
        have hspike : Moves opts ok s { s with nspike := s.nspike + 1 } := Moves.of_eq rfl rfl rfl
        have hcounted := hspike.trans hmoves'
        cases h
        split
        · rename_i hmin
          have hstop : ok → (∀ pid, firstWorker (totprocess env s).2 = some pid →
              whatisprocess env pid (totprocess env s).2.world.now = false) ∨
              opts.numToStartMin < live env (totprocess env s).2 := by
            intro hok
            obtain hgone | hfew := (hmet hok).release hrelease hmin
            · exact Or.inl hgone
            · right
              have hsum := registered_eq env (totprocess env s).2
              have htot : (totprocess env s).1 = registered (totprocess env s).2 := htot'
              omega
          have hone : Moves opts ok (totprocess env { s with nspike := s.nspike + 1 }).2
              (handlestop env true (totprocess env { s with nspike := s.nspike + 1 }).2) :=
            handlestop_one hstop
          exact (hcounted.trans hone).trans (Moves.of_eq rfl rfl rfl)
        · exact hcounted.trans (Moves.of_eq rfl rfl rfl)
      · cases h
        exact Moves.of_eq rfl rfl rfl
    · cases h
      exact Moves.of_eq rfl rfl rfl

/-- Workers are stopped when the program has changed, and missing ones are started. -/
theorem restart_moves (hadapt : opts.adapt = true) (h : restart opts env t s = some s') :
  Moves opts ok s s'
  := by
  rw [restart] at h
  apply Moves.trans _ (processup_moves hadapt h)
  split
  · apply handlestop_moves
  · exact Moves.of_eq rfl rfl rfl

/-- A command of a client is obeyed. -/
theorem checkshm_moves (hadapt : opts.adapt = true) {command : Option Command}
    (h : checkshm opts env command s = some s') :
  Moves opts ok s s'
  := by
  have hflag : ∀ b, Moves opts ok s { s with tempNoRestart := b } :=
    fun _ => Moves.of_eq rfl rfl rfl
  cases command with
  | none =>
    cases h
    exact Moves.of_eq rfl rfl rfl
  | some command =>
    cases command with
    | restart =>
      apply (hflag false).trans
      exact (handlestop_moves env _).trans (processup_moves hadapt h)
    | start => exact (hflag false).trans (processup_moves hadapt h)
    | stop =>
      cases h
      exact (handlestop_moves env s).trans (Moves.of_eq rfl rfl rfl)
    | quit => cases h
    | status =>
      cases h
      exact Moves.of_eq rfl rfl rfl
    | other =>
      cases h
      exact Moves.of_eq rfl rfl rfl

/-- A turn of the loop in adaptive mode. -/
theorem tick_moves (hadapt : opts.adapt = true) (hlength : s.plist.length = opts.maxproc)
    (hfree : registered s < opts.maxproc) (hmet : ok → Met opts env t s)
    (h : tick opts env t s = some s') :
  Moves opts ok s s' ∧ (ok → Load t s → s.world.attempts < s'.world.attempts)
  := by
  rw [tick] at h
  obtain ⟨s₁, hmanage, h⟩ := bind_eq_some h
  obtain ⟨s₂, hrestart, h⟩ := bind_eq_some h
  have hfirst : Moves opts ok s s₁ ∧ (ok → Load t s → s.world.attempts < s₁.world.attempts) := by
    rw [manage] at hmanage
    split at hmanage
    · rename_i hon
      rw [Bool.and_eq_true, Bool.not_eq_true'] at hon
      obtain ⟨s₀, hadaptive, hup⟩ := bind_eq_some hmanage
      obtain ⟨hmoves, hstarted⟩ := adaptive_moves hadapt hlength hfree hon.2 hmet hadaptive
      have hmore := @processup_moves _ _ _ _ ok hadapt hup
      constructor
      · exact hmoves.trans hmore
      · intro hok hload
        exact Nat.lt_of_lt_of_le (hstarted hok hload) hmore.attempts
    · rename_i hoff
      cases hmanage
      constructor
      · exact Moves.of_eq rfl rfl rfl
      · rintro - ⟨-, -, -, hmanaged⟩
        simp [hadapt, hmanaged] at hoff
  have hrest : Moves opts ok s₁ s' := by
    apply Moves.trans _ (checkshm_moves hadapt h)
    rw [revive] at hrestart
    split at hrestart
    · cases hrestart
      exact Moves.of_eq rfl rfl rfl
    · exact restart_moves hadapt hrestart
  constructor
  · exact hfirst.1.trans hrest
  · intro hok hload
    exact Nat.lt_of_lt_of_le (hfirst.2 hok hload) hrest.attempts

/-- The slots a manager starts with. -/
theorem initSlots_spec {n : Nat} {w w' : World} {plist : List (Option Nat)}
    (h : initSlots env n w = some (plist, w')) :
  plist.length = n
  := by
  induction n generalizing w w' plist with
  | zero =>
    cases h
    rfl
  | succ n ih =>
    obtain ⟨⟨slot, w₁⟩, -, h⟩ := bind_eq_some h
    obtain ⟨⟨plist₁, w₂⟩, hinit, h⟩ := bind_eq_some h
    cases h
    rw [List.length_cons, ih hinit]

/-- A manager in adaptive mode starts with a free slot. -/
theorem start_spec (hadapt : opts.adapt = true) (h : start opts env = some s) :
  s.plist.length = opts.maxproc ∧ registered s < opts.maxproc
  := by
  have hmin := (opts.adaptive hadapt).1
  obtain ⟨⟨plist, world⟩, hinit, h⟩ := bind_eq_some h
  cases h
  have hlength := initSlots_spec hinit
  constructor
  · simp only [List.length_append, List.length_replicate, hlength]
    omega
  · have hle := @List.countP_le_length _ Option.isSome plist
    simp only [registered, List.countP_append, List.countP_replicate, Option.isSome_none,
      Bool.false_eq_true, if_false]
    omega

/-- In every run of the manager in adaptive mode a slot is free: the maximum of workers is not
reached. -/
theorem eachTick_free (hadapt : opts.adapt = true) (ts : List Tick) (h : start opts env = some s) :
  EachTick opts env (fun _ s => registered s < opts.maxproc) ts s
  := by
  obtain ⟨hlength, hfree⟩ := start_spec hadapt h
  clear h
  induction ts generalizing s with
  | nil => trivial
  | cons t ts ih =>
    constructor
    · exact hfree
    · intro s' h
      have hmoves := (tick_moves hadapt hlength hfree False.elim h).1
      apply ih
      · rw [hmoves.length, hlength]
      · exact hmoves.free hfree

/-- A turn that meets the condition, from a state in which a slot is free. -/
theorem tickOk_of_met (hadapt : opts.adapt = true) (hlength : s.plist.length = opts.maxproc)
    (hfree : registered s < opts.maxproc) (hmet : Met opts env t s) :
  TickOk opts env t s
  := by
  have hlive : ∀ s, registered s < opts.maxproc → live env s ≤ opts.maxproc := by
    intro s hs
    have hsum := registered_eq env s
    omega
  constructor
  · exact hlive s hfree
  · intro s' h
    exact hlive s' ((tick_moves hadapt hlength hfree (fun _ : True => hmet) h).1.free hfree)
  · intro s' h
    exact (tick_moves hadapt hlength hfree (fun _ : True => hmet) h).1.kept trivial
  · intro hload _ s' h
    exact (tick_moves hadapt hlength hfree (fun _ : True => hmet) h).2 trivial hload

end Moves

/-- In every run of the manager in adaptive mode whose turns meet the condition, there are never
more workers than the maximum, none is stopped for want of load unless more than the minimum run,
and with load throughout a turn another one is started. -/
theorem eachTick_ok (opts : Options) (env : Env) (hadapt : opts.adapt = true) (ts : List Tick)
    (hmet : ∀ s, start opts env = some s → EachTick opts env (Met opts env) ts s) :
  ∀ s, start opts env = some s → EachTick opts env (TickOk opts env) ts s
  := by
  have hrun : ∀ s, s.plist.length = opts.maxproc → registered s < opts.maxproc →
      EachTick opts env (Met opts env) ts s → EachTick opts env (TickOk opts env) ts s := by
    clear hmet
    induction ts with
    | nil =>
      intro s _ _ _
      trivial
    | cons t ts ih =>
      intro s hlength hfree hmet
      constructor
      · exact tickOk_of_met hadapt hlength hfree hmet.1
      · intro s' h
        have hmoves := (tick_moves hadapt hlength hfree (fun _ : True => hmet.1) h).1
        apply ih
        · rw [hmoves.length, hlength]
        · exact hmoves.free hfree
        · exact hmet.2 s' h
  intro s hstart
  obtain ⟨hlength, hfree⟩ := start_spec hadapt hstart
  exact hrun s hlength hfree (hmet s hstart)

/-- Workers that all start and do not exit. -/
def steady : Env := ⟨fun _ => none, fun _ => .started⟩

/-- One to three workers, that are stopped one by one after 30 seconds without load. -/
def oneToThree : Options where
  adapt := true
  numToStartMin := 1
  maxproc := 3
  tspike := 30
  mslp := 400
  modreload := true
  dnr := false
  mslp_bounds := by decide
  tspike_bounds := by decide
  min_le_max := by decide
  adaptive := by decide

/-- With one worker, a second is started for the load. -/
theorem eachTick_ok_loaded :
  ∃ s, start oneToThree steady = some s ∧ EachTick oneToThree steady (TickOk oneToThree steady)
    [⟨true, true, true, false, none⟩, ⟨false, false, false, false, none⟩] s
  := by
  refine ⟨_, rfl, eachTick_ok oneToThree steady rfl _ ?_ _ rfl⟩
  intro s hs
  cases hs
  constructor
  · constructor
    · intro _
      decide
    · rintro ⟨hfirst, -⟩
      cases hfirst
  · intro s' h
    cases h
    constructor
    · constructor
      · rintro ⟨hfirst, -⟩
        cases hfirst
      · rintro ⟨-, -, -, -, hspikes⟩
        exact absurd hspikes (by decide)
    · intro s'' _
      trivial

/-- At most one worker, and none to start with. -/
def atMostOne : Options :=
  { oneToThree with numToStartMin := 0, maxproc := 1, min_le_max := by decide, adaptive := by decide }

/-- With load and no worker, none is started. -/
theorem not_eachTick_ok_none :
  ¬ ∀ s, start atMostOne steady = some s → EachTick atMostOne steady (TickOk atMostOne steady)
    [⟨true, true, true, false, none⟩] s
  := by
  intro h
  have hok := (h _ rfl).1
  have hstarted := hok.started ⟨rfl, rfl, rfl, rfl⟩ (by decide) _ rfl
  exact absurd hstarted (by decide)

end Vf

end Vely
