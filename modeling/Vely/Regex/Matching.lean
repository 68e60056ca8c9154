import Vely.Lib.Run
import Vely.Regex.Replace

/-!
# The search for matches

The first match in a text may be empty.  The search goes on behind each match, in what is left of
the text, and ends when nothing is left or nothing is found in it.  After an empty match at the
beginning of what is left, all of it is left again.
-/

namespace Vely

/-- A compiled regular expression: the first match in a text, which is in the text as its groups
are, and may be empty. -/
structure Matcher (reNsub : Nat) where
  regexec : List UInt8 → Option Match
  so_le : ∀ s m, regexec s = some m → m.so ≤ m.eo
  eo_le : ∀ s m, regexec s = some m → m.eo ≤ s.length
  group_le : ∀ s m, regexec s = some m → m.GroupsIn s

/-- A regular expression without empty matches. -/
def Regex.toMatcher {reNsub : Nat} (reg : Regex reNsub) : Matcher reNsub where
  regexec := reg.regexec
  so_le s m h := (reg.not_empty s m h).le
  eo_le := reg.eo_le
  group_le s m h i so eo hi := reg.group_le s m i so eo h hi

/-- What is done for a match: the replacement is built, and the search moves behind the match. -/
def Search.pass (subNum : Nat) (replace : Option CString) (s : Search) (m : Match) :
    Except Stop Search := do
  let res ←
    match replace with
    | none => pure s.res
    | some replace => do
      let r ← s.res.copy s.lastLookHere m.so
      copyReplace subNum s.lastLookHere m false [] replace.bytes r
  return ⟨s.lastLookHere.drop m.eo, res, s.totMatch + 1⟩

/-- The loop over the matches, passed at most `n` times; without a result it does not end there. -/
def matchLoop {subNum : Nat} (reg : Matcher subNum) (replace : Option CString)
    (singleMatch : Bool) : Nat → Search → Except Stop (Option Search)
  | n, s =>
    if s.lastLookHere = [] then .ok (some s)
    else
      match reg.regexec s.lastLookHere with
      | none => .ok (some s)
      | some m =>
        match n with
        | 0 => .ok none
        | n + 1 => do
          let s ← s.pass subNum replace m
          if singleMatch then return some s else matchLoop reg replace singleMatch n s

/-- The search from the beginning of a text. -/
def Search.start (text : CString) : Search := ⟨text.bytes, .empty, 0⟩

/-- The loop ends, with at most one pass for each position of the text. -/
def LoopEnds {subNum : Nat} (reg : Matcher subNum) (replace : Option CString) (singleMatch : Bool)
    (text : CString) : Prop :=
  ∃ s, matchLoop reg replace singleMatch text.length (.start text) = .ok (some s)

/-- What is left of a text behind some matches, each one in what was left before. -/
inductive Rest {subNum : Nat} (reg : Matcher subNum) (text : List UInt8) : List UInt8 → Prop where
  | text : Rest reg text text
  | next {s : List UInt8} {m : Match} (h : Rest reg text s) (hs : s ≠ [])
      (hm : reg.regexec s = some m) : Rest reg text (s.drop m.eo)

/-- No match ends where what is left of the text begins. -/
def Moves {subNum : Nat} (reg : Matcher subNum) (text : List UInt8) : Prop :=
  ∀ s m, Rest reg text s → s ≠ [] → reg.regexec s = some m → 0 < m.eo

section

variable {subNum : Nat} {reg : Matcher subNum} {replace : Option CString} {singleMatch : Bool}
  {n : Nat} {s : Search} {m : Match}

/-! ### One pass -/

theorem matchLoop_nil (hs : s.lastLookHere = []) :
  matchLoop reg replace singleMatch n s = .ok (some s)
  := by
  rw [matchLoop, if_pos hs]

theorem matchLoop_none (hm : reg.regexec s.lastLookHere = none) :
  matchLoop reg replace singleMatch n s = .ok (some s)
  := by
  rw [matchLoop, hm]
  exact ite_self _

theorem matchLoop_zero (hs : s.lastLookHere ≠ []) (hm : reg.regexec s.lastLookHere = some m) :
  matchLoop reg replace singleMatch 0 s = .ok none
  := by
  rw [matchLoop, if_neg hs, hm]

theorem matchLoop_succ (hs : s.lastLookHere ≠ []) (hm : reg.regexec s.lastLookHere = some m) :
  matchLoop reg replace singleMatch (n + 1) s
    = s.pass subNum replace m >>= fun s =>
      if singleMatch then .ok (some s) else matchLoop reg replace singleMatch n s
  := by
  rw [matchLoop, if_neg hs, hm]
  rfl

/-- A match is passed, and its replacement is added. -/
theorem pass_ok (hm : reg.regexec s.lastLookHere = some m) (hs : s.res.Fits) :
  ∃ s', s.pass subNum replace m = .ok s' ∧ s'.res.Fits ∧ s'.lastLookHere = s.lastLookHere.drop m.eo
    ∧ s'.totMatch = s.totMatch + 1
    ∧ ∀ r ∈ replace, s'.res.bytes = s.res.bytes ++ s.lastLookHere.take m.so
      ++ flagExpand (groupText s.lastLookHere m) false (readPieces subNum r.bytes)
  := by
  cases replace with
  | none =>
    refine ⟨_, rfl, hs, rfl, rfl, ?_⟩
    intro r hr
    cases hr
  | some replace =>
    have hso := le_trans (reg.so_le _ m hm) (reg.eo_le _ m hm)
    obtain ⟨r₁, hcopy₁, hfits₁, hbytes₁⟩ := hs.copy hso
    obtain ⟨r₂, hcopy₂, hfits₂, hbytes₂⟩ := @copyReplace_eq subNum s.lastLookHere m [] false
      r₁ (reg.group_le _ m hm) replace.bytes hfits₁
    refine ⟨⟨s.lastLookHere.drop m.eo, r₂, s.totMatch + 1⟩, ?_, hfits₂, rfl, rfl, ?_⟩
    · rw [Search.pass]
      dsimp only
      rw [hcopy₁, ok_bind, hcopy₂]
      rfl
    · intro r hr
      cases hr
      rw [hbytes₂, hbytes₁, List.append_nil]

/-- With regular expressions that have no empty matches it is the loop of `vely_regex`. -/
theorem regexLoop_of_matchLoop {reg : Regex subNum} {s' : Search}
    (h : matchLoop reg.toMatcher replace singleMatch n s = .ok (some s')) :
  regexLoop reg replace singleMatch n s = .ok s'
  := by
  induction n generalizing s with
  | zero =>
    rw [regexLoop]
    rw [matchLoop] at h
    split at h
    · cases h
      rfl
    · split at h
      · cases h
        rfl
      · cases h
  | succ n ih =>
    rw [regexLoop]
    by_cases hs : s.lastLookHere = []
    · rw [if_pos hs]
      rw [matchLoop_nil hs] at h
      cases h
      rfl
    · rw [if_neg hs]
      cases hm : reg.regexec s.lastLookHere with
      | none =>
        rw [@matchLoop_none _ reg.toMatcher _ _ _ _ hm] at h
        cases h
        rfl
      | some m =>
        rw [@matchLoop_succ _ reg.toMatcher _ _ _ _ m hs hm] at h
        obtain ⟨s₁, hpass, h⟩ := exists_of_bind h
        have hrest : (if singleMatch = true then Except.ok s₁
            else regexLoop reg replace singleMatch n s₁) = .ok s' := by
          split at h
          · next hsingle =>
            cases h
            rw [if_pos hsingle]
          · next hsingle =>
            rw [if_neg hsingle]
            exact ih h
        cases replace with
        | none =>
          cases hpass
          exact hrest
        | some replace =>
          obtain ⟨r₁, hcopy₁, hpass⟩ := exists_of_bind hpass
          obtain ⟨r₂, hcopy₂, hpass⟩ := exists_of_bind hpass
          cases hpass
          dsimp only
          rw [hcopy₁, ok_bind, hcopy₂, ok_bind]
          exact hrest

/-! ### All passes -/

/-- The loop ends when each match moves it. -/
theorem matchLoop_ends {text : List UInt8} (hmoves : Moves reg text) (hs : s.res.Fits)
    (hrest : Rest reg text s.lastLookHere) (hn : s.lastLookHere.length ≤ n) :
  ∃ s', matchLoop reg replace singleMatch n s = .ok (some s')
  := by
  induction n generalizing s with
  | zero =>
    have hnil := List.length_eq_zero_iff.mp (Nat.le_zero.mp hn)
    exact ⟨s, matchLoop_nil hnil⟩
  | succ n ih =>
    by_cases hnil : s.lastLookHere = []
    · exact ⟨s, matchLoop_nil hnil⟩
    · cases hm : reg.regexec s.lastLookHere with
      | none => exact ⟨s, matchLoop_none hm⟩
      | some m =>
        have hlt := hmoves _ m hrest hnil hm
        obtain ⟨s₁, hpass, hfits, hdrop, -⟩ := @pass_ok _ _ replace _ _ hm hs
        rw [matchLoop_succ hnil hm, hpass, ok_bind]
        cases singleMatch with
        | true => exact ⟨s₁, rfl⟩
        | false =>
          rw [if_neg Bool.false_ne_true]
          apply ih hfits
          · rw [hdrop]
            exact Rest.next hrest hnil hm
          · rw [hdrop, List.length_drop]
            omega

/-- After a match that does not move it the loop never ends. -/
theorem matchLoop_stuck (hs : s.res.Fits) (hnil : s.lastLookHere ≠ [])
    (hm : reg.regexec s.lastLookHere = some m) (heo : m.eo = 0) (s' : Search) :
  matchLoop reg replace false n s ≠ .ok (some s')
  := by
  induction n generalizing s with
  | zero =>
    rw [matchLoop_zero hnil hm]
    intro h
    cases h
  | succ n ih =>
    obtain ⟨s₁, hpass, hfits, hdrop, -⟩ := @pass_ok _ _ replace _ _ hm hs
    rw [heo, List.drop_zero] at hdrop
    rw [matchLoop_succ hnil hm, hpass, ok_bind, if_neg Bool.false_ne_true]
    rw [← hdrop] at hnil hm
    exact ih hfits hnil hm

/-- A loop that ends passes by all that is left behind matches. -/
theorem matchLoop_rest {t : List UInt8} {s' : Search} (hs : s.res.Fits)
    (hrest : Rest reg s.lastLookHere t) (h : matchLoop reg replace false n s = .ok (some s')) :
  ∃ n' s₁, s₁.res.Fits ∧ s₁.lastLookHere = t
    ∧ matchLoop reg replace false n' s₁ = .ok (some s')
  := by
  induction hrest with
  | text => exact ⟨n, s, hs, rfl, h⟩
  | next hrest hnil hm ih =>
    obtain ⟨n', s₁, hfits, rfl, h₁⟩ := ih
    cases n' with
    | zero =>
      rw [matchLoop_zero hnil hm] at h₁
      cases h₁
    | succ n' =>
      obtain ⟨s₂, hpass, hfits₂, hdrop, -⟩ := @pass_ok _ _ replace _ _ hm hfits
      rw [matchLoop_succ hnil hm, hpass, ok_bind, if_neg Bool.false_ne_true] at h₁
      exact ⟨n', s₂, hfits₂, hdrop, h₁⟩

end

/-- The loop ends, with at most one pass for each position of the text, exactly when a single match
is asked for or no match ends where what is left of the text begins. -/
theorem loopEnds_iff {subNum : Nat} (reg : Matcher subNum) (replace : Option CString)
    (singleMatch : Bool) (text : CString) :
  LoopEnds reg replace singleMatch text ↔ singleMatch = true ∨ Moves reg text.bytes
  := by
  constructor
  · rintro ⟨s', h⟩
    cases singleMatch with
    | true => exact Or.inl rfl
    | false =>
      right
      intro t m hrest hnil hm
      by_contra hno
      obtain ⟨n, s₁, hfits, rfl, h₁⟩ := @matchLoop_rest _ _ _ _ (.start text) t s' .empty hrest h
      exact matchLoop_stuck hfits hnil hm (by omega) s' h₁
  · rintro (rfl | hmoves)
    · by_cases hnil : text.bytes = []
      · exact ⟨_, matchLoop_nil hnil⟩
      · cases hm : reg.regexec text.bytes with
        | none => exact ⟨_, @matchLoop_none _ _ _ _ _ (.start text) hm⟩
        | some m =>
          obtain ⟨s₁, hpass, -⟩ := @pass_ok _ _ replace (.start text) _ hm .empty
          obtain ⟨n, hn⟩ := Nat.exists_eq_succ_of_ne_zero (List.length_pos_iff.mpr hnil).ne'
          use s₁
          rw [CString.length, hn, @matchLoop_succ _ _ _ _ _ (.start text) m hnil hm, hpass]
          rfl
    · exact matchLoop_ends hmoves .empty Rest.text (le_refl _)

/-- A regular expression that matches the empty text at the beginning of every text. -/
def emptyMatcher : Matcher 0 where
  regexec _ := some ⟨0, 0, fun _ => none⟩
  so_le := by
    intro s m h
    cases h
    exact le_refl 0
  eo_le := by
    intro s m h
    cases h
    exact Nat.zero_le _
  group_le := by
    intro s m h i so eo hi
    cases h
    cases hi

/-- In a text of one byte the search for empty matches never ends. -/
theorem not_loopEnds_empty :
  ¬ LoopEnds emptyMatcher none false ⟨[97], by decide⟩
    ∧ ∀ n s, matchLoop emptyMatcher none false n (.start ⟨[97], by decide⟩) ≠ .ok (some s)
  := by
  have hstuck : ∀ n s,
      matchLoop emptyMatcher none false n (.start ⟨[97], by decide⟩) ≠ .ok (some s) := by
    intro n s
    exact matchLoop_stuck .empty (List.cons_ne_nil _ _) rfl rfl s
  constructor
  · rintro ⟨s, h⟩
    exact hstuck _ s h
  · exact hstuck

end Vely
