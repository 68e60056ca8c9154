import Vely.Regex.Matching

/-!
# Matches in their context

Whether there is a match at a place of a text may depend on what stands in front of it.  The search
goes on behind a match as if the rest was a text of its own.  It finds the matches of the whole text
when at each of these places the rest alone has the match that is next in the text.
-/

namespace Vely

/-- A match in what is left of a text from `o` on, as one in the text. -/
def Match.shift (o : Nat) (m : Match) : Match where
  so := o + m.so
  eo := o + m.eo
  group i := (m.group i).map fun g => (o + g.1, o + g.2)

/-- A regular expression that sees the whole text: the first match that starts at an offset or after
it, where it is told whether the offset is the beginning of the text. -/
structure Pattern (reNsub : Nat) where
  find : List UInt8 → Nat → Bool → Option Match
  le_so : ∀ s o b m, find s o b = some m → o ≤ m.so
  so_le : ∀ s o b m, find s o b = some m → m.so ≤ m.eo
  eo_le : ∀ s o b m, find s o b = some m → m.eo ≤ s.length
  group_le : ∀ s o b m, find s o b = some m → m.GroupsIn s

/-- Where a match ends; without one, the beginning of the text. -/
def endOf : Option Match → Nat
  | none => 0
  | some m => m.eo

/-- The matches that the loop passes by, in a text that is left from `o` on. -/
def found {subNum : Nat} (reg : Matcher subNum) : Nat → Nat → List UInt8 → Option (List Match)
  | n, o, s =>
    if s = [] then some []
    else
      match reg.regexec s with
      | none => some []
      | some m =>
        match n with
        | 0 => none
        | n + 1 => (found reg n (o + m.eo) (s.drop m.eo)).map (m.shift o :: ·)

/-- The end of `vely_regex`, after the loop. -/
def regexResult (replace : Option CString) (s : Search) : Except Stop RegexResult :=
  match replace with
  | none => .ok ⟨none, 0, s.totMatch⟩
  | some _ => do
    let r ← s.res.copy s.lastLookHere s.lastLookHere.length
    return ⟨some r.bytes, r.replaceResLen, s.totMatch⟩

/-- A text from `o` on, with other texts in the place of some matches. -/
def replaceMatches (f : Match → List UInt8) (text : List UInt8) : Nat → List Match → List UInt8
  | o, [] => text.drop o
  | o, m :: ms => (text.drop o).take (m.so - o) ++ f m ++ replaceMatches f text m.eo ms

namespace Pattern

variable {subNum : Nat} (p : Pattern subNum)

/-- The regular expression for texts of their own. -/
def toMatcher : Matcher subNum where
  regexec s := p.find s 0 true
  so_le s m h := p.so_le s 0 true m h
  eo_le s m h := p.eo_le s 0 true m h
  group_le s m h := p.group_le s 0 true m h

/-- The next match in a text: the first one from the end of the last one on.  An empty match is not
found twice. -/
def nextMatch (text : List UInt8) : Option Match → Option Match
  | none => p.find text 0 true
  | some m =>
    match p.find text m.eo (m.eo = 0) with
    | none => none
    | some m' =>
      if m.so = m.eo ∧ m'.eo = m.eo then
        if m.eo < text.length then p.find text (m.eo + 1) false else none
      else some m'

/-- The matches of a text, one after the other, behind a match. -/
inductive Successive (text : List UInt8) : Option Match → List Match → Prop where
  | none {q : Option Match} (h : p.nextMatch text q = none) : Successive text q []
  | some {q : Option Match} {m : Match} {ms : List Match} (h : p.nextMatch text q = some m)
      (hms : Successive text (some m) ms) : Successive text q (m :: ms)

/-- For a search and for each replacement, the loop of `vely_regex` ends, it passes by the matches
of the text and counts them, and the result has their replacements in their place. -/
def MatchesOk (text : CString) : Prop :=
  ∃ ms, p.Successive text.bytes none ms
    ∧ found p.toMatcher text.length 0 text.bytes = some ms
    ∧ ∀ replace, ∃ s, matchLoop p.toMatcher replace false text.length (.start text) = .ok (some s)
      ∧ (replace = none → regexResult replace s = .ok ⟨none, 0, ms.length⟩)
      ∧ ∀ r ∈ replace, ∀ t, t = replaceMatches (fun m =>
          flagExpand (groupText text.bytes m) false (readPieces subNum r.bytes)) text.bytes 0 ms →
        regexResult replace s = .ok ⟨some t, t.length, ms.length⟩

/-- The matches that come behind a match, and the match itself. -/
inductive Behind (text : List UInt8) : Option Match → Option Match → Prop where
  | refl (q : Option Match) : Behind text q q
  | next {q q' : Option Match} {m : Match} (h : p.nextMatch text q = some m)
      (hm : Behind text (some m) q') : Behind text q q'

/-- The match that the rest of a text behind a match has by itself, if anything is left. -/
def restMatch (text : List UInt8) (q : Option Match) : Option Match :=
  if endOf q < text.length then (p.find (text.drop (endOf q)) 0 true).map (Match.shift (endOf q))
  else none

/-- At its beginning and behind each of its matches, the rest of a text has by itself the match that
is the next one in the text. -/
def RestsAgree (text : List UInt8) : Prop :=
  ∀ q, p.Behind text none q → p.restMatch text q = p.nextMatch text q

end Pattern

section

variable {subNum : Nat} {p : Pattern subNum} {text : List UInt8} {q : Option Match} {m : Match}
  {ms : List Match} {n : Nat}

/-! ### The loop -/

theorem groupText_shift (o : Nat) (m : Match) :
  groupText text (m.shift o) = groupText (text.drop o) m
  := by
  funext i
  rw [groupText, groupText]
  cases hi : m.group i with
  | none => simp [Match.shift, hi]
  | some g =>
    obtain ⟨so, eo⟩ := g
    simp only [Match.shift, hi, Option.map_some, List.drop_drop]
    congr 1
    omega

/-- What the loop finds, one pass after the other. -/
theorem found_cases {reg : Matcher subNum} {o : Nat} {s : List UInt8}
    (h : found reg n o s = some ms) :
  (ms = [] ∧ (s = [] ∨ reg.regexec s = none))
    ∨ ∃ m n' ms', s ≠ [] ∧ reg.regexec s = some m ∧ n = n' + 1
      ∧ found reg n' (o + m.eo) (s.drop m.eo) = some ms' ∧ ms = m.shift o :: ms'
  := by
  rw [found] at h
  split at h
  · next hnil =>
    cases h
    exact Or.inl ⟨rfl, Or.inl hnil⟩
  · next hnil =>
    split at h
    · next hm =>
      cases h
      exact Or.inl ⟨rfl, Or.inr hm⟩
    · next m hm =>
      split at h
      · cases h
      · next n' =>
        obtain ⟨ms', hms', rfl⟩ := Option.map_eq_some_iff.mp h
        exact Or.inr ⟨m, n', ms', hnil, hm, rfl, hms', rfl⟩

/-- The loop passes by the matches that it finds, counts them, and replaces them. -/
theorem matchLoop_found {reg : Matcher subNum} {replace : Option CString} {s : Search} {o : Nat}
    (hs : s.res.Fits) (ho : s.lastLookHere = text.drop o)
    (h : found reg n o s.lastLookHere = some ms) :
  ∃ s', matchLoop reg replace false n s = .ok (some s') ∧ s'.res.Fits
    ∧ s'.totMatch = s.totMatch + ms.length
    ∧ ∀ r ∈ replace, s'.res.bytes ++ s'.lastLookHere = s.res.bytes ++ replaceMatches (fun m =>
        flagExpand (groupText text m) false (readPieces subNum r.bytes)) text o ms
  := by
  induction ms generalizing s o n with
  | nil =>
    use s
    refine ⟨?_, hs, rfl, ?_⟩
    · obtain ⟨-, hnil | hm⟩ | ⟨m, n', ms', -, -, -, -, hcons⟩ := found_cases h
      · exact matchLoop_nil hnil
      · exact matchLoop_none hm
      · cases hcons
    · intro r _
      rw [replaceMatches, ho]
  | cons m ms ih =>
    obtain ⟨hnil, -⟩ | ⟨m₀, n', ms', hnil, hm, rfl, hrest, hcons⟩ := found_cases h
    · cases hnil
    · rw [List.cons.injEq] at hcons
      obtain ⟨rfl, rfl⟩ := hcons
      obtain ⟨s₁, hpass, hfits, hdrop, htot, hbytes⟩ := @pass_ok _ _ replace _ _ hm hs
      have hdrop' : s₁.lastLookHere = text.drop (o + m₀.eo) := by
        rw [hdrop, ho, List.drop_drop]
      rw [← hdrop] at hrest
      obtain ⟨s', hloop, hfits', htot', hbytes'⟩ := ih hfits hdrop' hrest
      use s'
      refine ⟨?_, hfits', ?_, ?_⟩
      · rw [matchLoop_succ hnil hm, hpass, ok_bind, if_neg Bool.false_ne_true, hloop]
      · rw [htot', htot, List.length_cons]
        omega
      · intro r hr
        rw [hbytes' r hr, hbytes r hr, replaceMatches, groupText_shift, ho]
        simp [Match.shift]

/-- With regular expressions that have no empty matches this is `vely_regex`. -/
theorem velyRegex_of_matchLoop {reg : Regex subNum} {replace : Option CString} {singleMatch : Bool}
    {look : CString} {s : Search}
    (h : matchLoop reg.toMatcher replace singleMatch look.length (.start look) = .ok (some s)) :
  velyRegex look reg replace singleMatch = regexResult replace s
  := by
  have hloop := regexLoop_of_matchLoop h
  rw [Search.start] at hloop
  rw [velyRegex, hloop, ok_bind]
  cases replace with
  | none => rfl
  | some r => rfl

/-! ### The matches of the text -/

theorem toMatcher_regexec (s : List UInt8) :
  p.toMatcher.regexec s = p.find s 0 true
  := rfl

/-- Where the loop finds the matches of the text, the rests have them by themselves. -/
theorem restMatch_of_found (hms : p.Successive text q ms)
    (h : found p.toMatcher n (endOf q) (text.drop (endOf q)) = some ms) {q' : Option Match}
    (hq' : p.Behind text q q') :
  p.restMatch text q' = p.nextMatch text q'
  := by
  induction ms generalizing q n with
  | nil =>
    cases hms with
    | none hnext =>
      cases hq' with
      | refl =>
        rw [hnext, Pattern.restMatch]
        split
        · next hlt =>
          obtain ⟨-, hnil | hm⟩ | ⟨m, n', ms', -, -, -, -, hcons⟩ := found_cases h
          · rw [List.drop_eq_nil_iff] at hnil
            omega
          · rw [toMatcher_regexec] at hm
            rw [hm]
            rfl
          · cases hcons
        · rfl
      | next hsome _ =>
        rw [hnext] at hsome
        cases hsome
  | cons m ms ih =>
    cases hms with
    | some hnext hms =>
      obtain ⟨hnil, -⟩ | ⟨m₀, n', ms', hnil, hm, rfl, hrest, hcons⟩ := found_cases h
      · cases hnil
      · rw [List.cons.injEq] at hcons
        obtain ⟨rfl, rfl⟩ := hcons
        cases hq' with
        | refl =>
          rw [List.ne_nil_iff_length_pos, List.length_drop] at hnil
          rw [toMatcher_regexec] at hm
          rw [hnext, Pattern.restMatch, if_pos (by omega), hm]
          rfl
        | next hsome hbehind =>
          rw [hnext] at hsome
          cases hsome
          apply ih hms _ hbehind
          · exact n'
          · rw [List.drop_drop] at hrest
            exact hrest

/-- The next match is behind the last one, or is empty at its end. -/
theorem nextMatch_ne_self (m : Match) (heo : m.so = m.eo) :
  p.nextMatch text (some m) ≠ some m
  := by
  rw [Pattern.nextMatch]
  intro h
  split at h
  · cases h
  · next m' hm' =>
    split at h
    · split at h
      · have hle := p.le_so _ _ _ _ h
        omega
      · cases h
    · next hne =>
      cases h
      exact hne ⟨heo, rfl⟩

/-- Where the rests have the next matches by themselves, each of them moves the search. -/
theorem endOf_lt (hagree : ∀ q', p.Behind text q q' → p.restMatch text q' = p.nextMatch text q')
    (h : p.nextMatch text q = some m) :
  endOf q < m.eo ∧ endOf q < text.length
  := by
  have hfirst := hagree q (.refl q)
  rw [h, Pattern.restMatch] at hfirst
  split at hfirst
  · next hlt =>
    refine ⟨?_, hlt⟩
    obtain ⟨m₀, hm₀, hshift⟩ := Option.map_eq_some_iff.mp hfirst
    by_contra hno
    -- The match is empty at the beginning of the rest, and the rest has it once more.
    have hle := p.so_le _ _ _ _ hm₀
    have hso : m.so = endOf q + m₀.so := by rw [← hshift]; rfl
    have heo : m.eo = endOf q + m₀.eo := by rw [← hshift]; rfl
    have hend : endOf (some m) = endOf q := by
      change m.eo = endOf q
      omega
    have hsecond := hagree (some m) (.next h (.refl _))
    rw [Pattern.restMatch, hend, if_pos hlt, hm₀, Option.map_some, hshift] at hsecond
    exact nextMatch_ne_self m (by omega) hsecond.symm
  · cases hfirst

/-- Then the loop finds the matches of the text. -/
theorem found_of_agree (hagree : ∀ q', p.Behind text q q'
      → p.restMatch text q' = p.nextMatch text q')
    (hn : text.length - endOf q ≤ n) :
  ∃ ms, p.Successive text q ms
    ∧ found p.toMatcher n (endOf q) (text.drop (endOf q)) = some ms
  := by
  have hfirst := hagree q (.refl q)
  induction n generalizing q with
  | zero =>
    have hnil : text.drop (endOf q) = [] := by
      rw [List.drop_eq_nil_iff]
      omega
    refine ⟨[], .none ?_, ?_⟩
    · rw [← hfirst, Pattern.restMatch, if_neg (by omega)]
    · rw [found, if_pos hnil]
  | succ n ih =>
    cases hnext : p.nextMatch text q with
    | none =>
      refine ⟨[], .none hnext, ?_⟩
      rw [hnext, Pattern.restMatch] at hfirst
      rw [found]
      split
      · rfl
      · next hnil =>
        rw [List.drop_eq_nil_iff] at hnil
        rw [if_pos (by omega), Option.map_eq_none_iff] at hfirst
        rw [toMatcher_regexec, hfirst]
    | some m =>
      obtain ⟨hmoves, hlt⟩ := endOf_lt hagree hnext
      have hrest : ∀ q', p.Behind text (some m) q' → p.restMatch text q' = p.nextMatch text q' :=
        fun q' hq' => hagree q' (.next hnext hq')
      have hlength : text.length - endOf (some m) ≤ n := by
        change text.length - m.eo ≤ n
        omega
      obtain ⟨ms, hms, hfound⟩ := ih hrest hlength (hrest _ (.refl _))
      refine ⟨m :: ms, .some hnext hms, ?_⟩
      rw [hnext, Pattern.restMatch, if_pos hlt] at hfirst
      obtain ⟨m₀, hm₀, rfl⟩ := Option.map_eq_some_iff.mp hfirst
      have hnil : text.drop (endOf q) ≠ [] := by
        rw [ne_eq, List.drop_eq_nil_iff]
        omega
      rw [found, if_neg hnil, toMatcher_regexec, hm₀]
      dsimp only
      rw [List.drop_drop]
      have hfound' : found p.toMatcher n (endOf q + m₀.eo) (text.drop (endOf q + m₀.eo))
          = some ms := hfound
      rw [hfound']
      rfl

end

/-- The matches that are counted and replaced are the successive ones of the text exactly when at
the beginning of the text and behind each of them the rest has the next one by itself. -/
theorem matchesOk_iff {subNum : Nat} (p : Pattern subNum) (text : CString) :
  p.MatchesOk text ↔ p.RestsAgree text.bytes
  := by
  constructor
  · rintro ⟨ms, hms, hfound, -⟩ q hq
    exact restMatch_of_found hms hfound hq
  · intro hagree
    obtain ⟨ms, hms, hfound⟩ := found_of_agree hagree (Nat.sub_le text.length 0)
    refine ⟨ms, hms, hfound, ?_⟩
    intro replace
    obtain ⟨s, hloop, hfits, htot, hbytes⟩ :=
      @matchLoop_found subNum text.bytes ms text.length p.toMatcher replace (.start text) 0 .empty
        rfl hfound
    have htot' : s.totMatch = ms.length := by
      rw [htot]
      exact Nat.zero_add _
    refine ⟨s, hloop, ?_, ?_⟩
    · rintro rfl
      rw [regexResult, htot']
    · intro r hr t ht
      obtain rfl : replace = some r := hr
      obtain ⟨res, hcopy, hfits', hres⟩ := hfits.copy_all s.lastLookHere
      have hbytes' : res.bytes = t := by
        rw [hres, hbytes r rfl, ht]
        rfl
      rw [regexResult]
      rw [hcopy, ok_bind, hfits'.length, hbytes', htot']
      rfl

/-- The pattern `^a`: an `a` at the beginning of the text. -/
def anchoredA : Pattern 0 where
  find s o b := if b = true ∧ s[o]? = some 97 then some ⟨o, o + 1, fun _ => none⟩ else none
  le_so := by
    intro s o b m h
    split at h
    · cases h
      exact le_refl o
    · cases h
  so_le := by
    intro s o b m h
    split at h
    · cases h
      exact Nat.le_succ o
    · cases h
  eo_le := by
    intro s o b m h
    split at h
    · next ha =>
      cases h
      exact (List.getElem?_eq_some_iff.mp ha.2).1
    · cases h
  group_le := by
    intro s o b m h i so eo hi
    split at h
    · cases h
      cases hi
    · cases h

/-- In the text `aa` the pattern `^a` has one match, and two are found. -/
theorem not_matchesOk_anchored :
  ¬ anchoredA.MatchesOk ⟨[97, 97], by decide⟩
  := by
  rintro ⟨ms, hms, hfound, -⟩
  cases hms with
  | none h => cases h
  | some h hms =>
    cases h
    cases hms with
    | none h => cases hfound
    | some h hms => cases h

end Vely
