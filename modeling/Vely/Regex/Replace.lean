import Vely.Regex.Model

/-!
# What the replacement is

A replacement pattern is read as bytes and references to groups.  The text that comes out has the
expansion of the pattern in the place of every match, or of the first one.  The flag for references
of one digit is only reset after a reference, so that it is still set for a reference of two digits
after a backslash and a digit that stand for themselves.
-/

namespace Vely

/-- A part of a replacement pattern: a byte, a backslash and a digit that is not a group, or a
reference of one or two digits. -/
inductive Piece where
  | byte (b : UInt8)
  | skip (d : UInt8)
  | one (d : UInt8)
  | two (d e : UInt8)

/-- A digit. -/
def digit (d : UInt8) : Nat := d.toNat - 48

/-- The number of two digits. -/
def number (d e : UInt8) : Nat := digit d * 10 + digit e

/-- A backslash and one digit are a reference if there is such a group. -/
def single (subNum : Nat) (d : UInt8) : Piece :=
  if digit d = 0 ∨ subNum < digit d then .skip d else .one d

/-- The parts of a replacement pattern.  Two digits are read where there are more than nine groups,
and as one where their number is out of range. -/
def readPieces (subNum : Nat) : List UInt8 → List Piece
  | [] => []
  | [c] => [.byte c]
  | [c, d] => if c = 92 ∧ isdigit d then [single subNum d] else [.byte c, .byte d]
  | c :: d :: e :: rest =>
    if c = 92 ∧ isdigit d then
      if 9 < subNum ∧ isdigit e ∧ number d e ≤ subNum then
        if number d e = 0 then .byte c :: .byte d :: readPieces subNum (e :: rest)
        else .two d e :: readPieces subNum rest
      else single subNum d :: readPieces subNum (e :: rest)
    else .byte c :: readPieces subNum (d :: e :: rest)

/-- The text of a group, which is empty if the group took no part in the match. -/
def groupText (look : List UInt8) (m : Match) (i : Nat) : List UInt8 :=
  match m.group i with
  | some (so, eo) => (look.drop so).take (eo - so)
  | none => []

/-- What a part of the pattern stands for, given the texts of the groups. -/
def Piece.text (g : Nat → List UInt8) : Piece → List UInt8
  | .byte b => [b]
  | .skip d => [92, d]
  | .one d => g (digit d)
  | .two d e => g (number d e)

/-- What the pattern stands for. -/
def expand (g : Nat → List UInt8) (ps : List Piece) : List UInt8 := ps.flatMap (Piece.text g)

/-- The text `t` is `s` with the expansions `f` in the place of its `k` matches, or of the first
one. -/
inductive IsReplaced {subNum : Nat} (reg : Regex subNum) (f : List UInt8 → Match → List UInt8)
    (singleMatch : Bool) : List UInt8 → List UInt8 → Nat → Prop where
  | none {s : List UInt8} : reg.regexec s = none → IsReplaced reg f singleMatch s s 0
  | last {s : List UInt8} {m : Match} : reg.regexec s = some m → singleMatch = true →
    IsReplaced reg f singleMatch s (s.take m.so ++ f s m ++ s.drop m.eo) 1
  | next {s t : List UInt8} {m : Match} {k : Nat} : reg.regexec s = some m → singleMatch = false →
    IsReplaced reg f singleMatch (s.drop m.eo) t k →
    IsReplaced reg f singleMatch s (s.take m.so ++ f s m ++ t) (k + 1)

/-- For every regular expression, text and mode, the result is the text with the expansions of the
pattern, its length is what is reported, and so is the number of matches. -/
def RegexOk (subNum : Nat) (replace : CString) : Prop :=
  ∀ (reg : Regex subNum) (singleMatch : Bool) (text : CString), ∃ t k,
    velyRegex text reg (some replace) singleMatch = .ok ⟨some t, t.length, k⟩ ∧
      IsReplaced reg (fun s m => expand (groupText s m) (readPieces subNum replace.bytes)) singleMatch
        text.bytes t k

/-- A part that is a reference. -/
def Piece.isGroup : Piece → Bool
  | .byte _ => false
  | .skip _ => false
  | .one _ => true
  | .two _ _ => true

/-- Between a backslash with a digit that is not a group and a reference of two digits there is
another reference. -/
def RefsApart (ps : List Piece) : Prop :=
  ∀ before d mid e f after, ps = before ++ .skip d :: (mid ++ .two e f :: after) →
    ∃ p ∈ mid, p.isGroup = true

/-- What the loop over the pattern makes of it, with the flag for references of one digit. -/
def flagExpand (g : Nat → List UInt8) : Bool → List Piece → List UInt8
  | _, [] => []
  | sdig, .byte b :: ps => b :: flagExpand g sdig ps
  | _, .skip d :: ps => 92 :: d :: flagExpand g true ps
  | _, .one d :: ps => g (digit d) ++ flagExpand g false ps
  | true, .two d e :: ps =>
    if digit d = 0 then 92 :: d :: e :: flagExpand g true ps
    else g (digit d) ++ e :: flagExpand g false ps
  | false, .two d e :: ps => g (number d e) ++ flagExpand g false ps

section Copy

/-- The replacement that is built is in its memory, with the byte after it. -/
structure Res.Fits (r : Res) : Prop where
  length : r.replaceResLen = r.bytes.length
  lt : r.replaceResLen < r.resNeeded
  le : r.resNeeded ≤ r.resAllocated

theorem Res.Fits.empty :
  Res.empty.Fits
  := ⟨rfl, by decide, by decide⟩

/-- Bytes are copied to the end, in memory that is there. -/
theorem Res.Fits.copy {r : Res} (h : r.Fits) {from_ : List UInt8} {addlen : Nat}
    (hle : addlen ≤ from_.length) :
  ∃ r', r.copy from_ addlen = .ok r' ∧ r'.Fits ∧ r'.bytes = r.bytes ++ from_.take addlen
  := by
  have hlt := h.lt
  have hle' := h.le
  have hroom : r.replaceResLen + addlen < if r.resAllocated ≤ r.resNeeded + (addlen + 1) then
      r.resNeeded + (addlen + 1) + 512 else r.resAllocated := by
    split
    · omega
    · omega
  rw [Res.copy]
  simp only [if_pos hroom]
  refine ⟨_, rfl, ⟨?_, ?_, ?_⟩, rfl⟩
  · simp only [List.length_append, List.length_take, h.length]
    omega
  · simp only
    omega
  · simp only
    split
    · omega
    · omega

theorem Res.Fits.copy_all {r : Res} (h : r.Fits) (s : List UInt8) :
  ∃ r', r.copy s s.length = .ok r' ∧ r'.Fits ∧ r'.bytes = r.bytes ++ s
  := by
  have hcopy := h.copy (le_refl s.length)
  rwa [List.take_length] at hcopy

/-- The groups of a match are in the text. -/
def Match.GroupsIn (m : Match) (look : List UInt8) : Prop :=
  ∀ i so eo, m.group i = some (so, eo) → so ≤ eo ∧ eo ≤ look.length

/-- A group that is in the text is copied. -/
theorem Res.Fits.copy_group {look : List UInt8} {m : Match} {r : Res} (h : r.Fits)
    (hm : m.GroupsIn look) (i : Nat) :
  ∃ r', r.copy (look.drop ((m.group i).getD (0, 0)).1)
      (((m.group i).getD (0, 0)).2 - ((m.group i).getD (0, 0)).1) = .ok r' ∧ r'.Fits ∧
    r'.bytes = r.bytes ++ groupText look m i
  := by
  rw [groupText]
  cases hi : m.group i with
  | none => exact h.copy (Nat.zero_le _)
  | some p =>
    obtain ⟨so, eo⟩ := p
    have hbounds := hm i so eo hi
    apply h.copy
    rw [Option.getD_some, List.length_drop]
    omega

theorem digit_le {d : UInt8} (h : isdigit d = true) :
  digit d ≤ 9
  := by
  simp only [isdigit, Bool.and_eq_true, decide_eq_true_eq] at h
  have hd : d.toNat ≤ 57 := h.2
  rw [digit]
  omega

/-- One digit is looked at where there are no two of them, or their number is out of range. -/
theorem actsub_single {subNum : Nat} {sdig : Bool} {d : UInt8} {next : Option UInt8}
    (h : ∀ e, next = some e → ¬ (9 < subNum ∧ isdigit e = true ∧ number d e ≤ subNum)) :
  actsub subNum sdig d next = (if subNum < digit d then 0 else digit d, true)
  := by
  have hflag : (if 9 < subNum then
      if (next.map isdigit).getD false then
        (if subNum < (d.toNat - 48) * 10 + ((next.getD 0).toNat - 48) then true else sdig)
      else true
    else true) = true := by
    split
    · next hnine =>
      cases next with
      | none => rfl
      | some e =>
        simp only [Option.map_some, Option.getD_some]
        split
        · next hdigit =>
          rw [if_pos]
          have hnot := h e rfl
          simp only [hnine, hdigit, true_and, number, digit] at hnot
          omega
        · rfl
    · rfl
  simp only [actsub, hflag, if_true, digit]
  rfl

/-- Two digits are looked at, unless the flag is set. -/
theorem actsub_two {subNum : Nat} {sdig : Bool} {d e : UInt8} (hd : isdigit d = true)
    (h : 9 < subNum ∧ isdigit e = true ∧ number d e ≤ subNum) :
  actsub subNum sdig d (some e) = (if sdig then digit d else number d e, sdig)
  := by
  have hle : ¬ subNum < (d.toNat - 48) * 10 + (e.toNat - 48) := Nat.not_lt.mpr h.2.2
  have hd' := digit_le hd
  rw [digit] at hd'
  have hone : ¬ subNum < d.toNat - 48 := by omega
  simp only [actsub, if_pos h.1, Option.map_some, Option.getD_some, h.2.1, if_true, if_neg hle]
  cases sdig with
  | true => simp only [if_true, if_neg hone, digit]
  | false => simp only [Bool.false_eq_true, if_false, number, digit]

variable {subNum : Nat} {look : List UInt8} {m : Match} {run rest : List UInt8} {sdig f : Bool}
  {r : Res} {d : UInt8}

/-- A backslash and a digit that are not a reference are left for later. -/
theorem copyReplace_skip (hd : isdigit d = true) (h : actsub subNum sdig d rest.head? = (0, f)) :
  copyReplace subNum look m sdig run (92 :: d :: rest) r
    = copyReplace subNum look m f (run ++ [92, d]) rest r
  := by
  rw [copyReplace, if_pos ⟨rfl, hd⟩, h]

/-- At a reference, what was left is copied, and the group; the pattern goes on after it. -/
theorem copyReplace_group {i : Nat} (hm : m.GroupsIn look) (hr : r.Fits)
    (hd : isdigit d = true) (h : actsub subNum sdig d rest.head? = (i + 1, f)) :
  ∃ r', r'.Fits ∧ r'.bytes = r.bytes ++ run ++ groupText look m (i + 1) ∧
    copyReplace subNum look m sdig run (92 :: d :: rest) r =
      match f, rest with
      | true, rest => copyReplace subNum look m false [] rest r'
      | false, _ :: rest => copyReplace subNum look m false [] rest r'
      | false, [] => .error .fault
  := by
  obtain ⟨r₁, hcopy₁, hfits₁, hbytes₁⟩ := hr.copy_all run
  obtain ⟨r₂, hcopy₂, hfits₂, hbytes₂⟩ := hfits₁.copy_group hm (i + 1)
  refine ⟨r₂, hfits₂, ?_, ?_⟩
  · rw [hbytes₂, hbytes₁]
  · rw [copyReplace, if_pos ⟨rfl, hd⟩, h]
    cases f with
    | true => simp only [hcopy₁, hcopy₂, bind, Except.bind]
    | false =>
      cases rest with
      | nil => simp only [hcopy₁, hcopy₂, bind, Except.bind]
      | cons e rest => simp only [hcopy₁, hcopy₂, bind, Except.bind]

theorem readPieces_of_not {c : UInt8} (hc : ¬ (c = 92 ∧ isdigit d = true)) :
  readPieces subNum (c :: d :: rest) = .byte c :: readPieces subNum (d :: rest)
  := by
  cases rest with
  | nil => simp only [readPieces, if_neg hc]
  | cons e rest => rw [readPieces, if_neg hc]

/-- A backslash and a digit without a second digit of a number in range. -/
theorem readPieces_single (hd : isdigit d = true)
    (h : ∀ e, rest.head? = some e → ¬ (9 < subNum ∧ isdigit e = true ∧ number d e ≤ subNum)) :
  readPieces subNum (92 :: d :: rest) = single subNum d :: readPieces subNum rest
  := by
  cases rest with
  | nil => simp only [readPieces, hd, and_self, if_true]
  | cons e rest => rw [readPieces, if_pos ⟨rfl, hd⟩, if_neg (h e rfl)]

/-- A digit that is not after a backslash is a byte. -/
theorem readPieces_digit {e : UInt8} (he : isdigit e = true) :
  readPieces subNum (e :: rest) = .byte e :: readPieces subNum rest
  := by
  cases rest with
  | nil => rfl
  | cons c rest =>
    apply readPieces_of_not
    rintro ⟨rfl, -⟩
    cases he

/-- The loop over the pattern for one match. -/
theorem copyReplace_eq (hm : m.GroupsIn look) {s : List UInt8} (hr : r.Fits) :
  ∃ r', copyReplace subNum look m sdig run s r = .ok r' ∧ r'.Fits ∧
    r'.bytes = r.bytes ++ run ++ flagExpand (groupText look m) sdig (readPieces subNum s)
  := by
  induction hn : s.length using Nat.strong_induction_on generalizing s run sdig r with
  | _ n ih =>
    match s with
    | [] =>
      obtain ⟨r', hcopy, hfits, hbytes⟩ := hr.copy_all run
      refine ⟨r', hcopy, hfits, ?_⟩
      simp [hbytes, readPieces, flagExpand]
    | [c] =>
      obtain ⟨r', hcopy, hfits, hbytes⟩ := hr.copy_all (run ++ [c])
      refine ⟨r', hcopy, hfits, ?_⟩
      simp [hbytes, readPieces, flagExpand]
    | c :: d :: rest =>
      by_cases hc : c = 92 ∧ isdigit d = true
      · obtain ⟨rfl, hd⟩ := hc
        by_cases htwo : ∃ e, rest.head? = some e ∧ 9 < subNum ∧ isdigit e = true ∧
            number d e ≤ subNum
        · obtain ⟨e, he, htwo⟩ := htwo
          cases rest with
          | nil => cases he
          | cons e' rest =>
            cases he
            have hact := @actsub_two subNum sdig d e hd htwo
            by_cases hzero : number d e = 0
            · have hd0 : digit d = 0 := by
                rw [number] at hzero
                omega
              have hread : readPieces subNum (92 :: d :: e :: rest)
                  = .byte 92 :: .byte d :: readPieces subNum (e :: rest) := by
                rw [readPieces, if_pos ⟨rfl, hd⟩, if_pos htwo, if_pos hzero]
              have hact' : actsub subNum sdig d (some e) = (0, sdig) := by
                rw [hact, hzero, hd0, ite_self]
              obtain ⟨r', hcopy, hfits, hbytes⟩ := @ih (e :: rest).length (by simp [← hn])
                (run ++ [92, d]) sdig r (e :: rest) hr rfl
              refine ⟨r', ?_, hfits, ?_⟩
              · rw [copyReplace_skip hd hact']
                exact hcopy
              · rw [hbytes, hread, flagExpand, flagExpand]
                simp
            · have hread : readPieces subNum (92 :: d :: e :: rest)
                  = .two d e :: readPieces subNum rest := by
                rw [readPieces, if_pos ⟨rfl, hd⟩, if_pos htwo, if_neg hzero]
              rw [hread]
              cases sdig with
              | true =>
                simp only [if_true] at hact
                by_cases hd0 : digit d = 0
                · rw [hd0] at hact
                  obtain ⟨r', hcopy, hfits, hbytes⟩ := @ih (e :: rest).length (by simp [← hn])
                    (run ++ [92, d]) true r (e :: rest) hr rfl
                  refine ⟨r', ?_, hfits, ?_⟩
                  · rw [copyReplace_skip hd hact]
                    exact hcopy
                  · rw [hbytes, readPieces_digit htwo.2.1, flagExpand, flagExpand, if_pos hd0]
                    simp
                · obtain ⟨i, hi⟩ := Nat.exists_eq_succ_of_ne_zero hd0
                  rw [hi] at hact
                  obtain ⟨r₁, hfits₁, hbytes₁, hcopy₁⟩ := @copyReplace_group subNum look m run
                    (e :: rest) true true r d i hm hr hd hact
                  obtain ⟨r', hcopy, hfits, hbytes⟩ := @ih (e :: rest).length (by simp [← hn])
                    [] false r₁ (e :: rest) hfits₁ rfl
                  refine ⟨r', ?_, hfits, ?_⟩
                  · rw [hcopy₁]
                    exact hcopy
                  · rw [hbytes, hbytes₁, readPieces_digit htwo.2.1, flagExpand, flagExpand,
                      if_neg hd0, hi]
                    simp
              | false =>
                obtain ⟨i, hi⟩ := Nat.exists_eq_succ_of_ne_zero hzero
                simp only [Bool.false_eq_true, if_false] at hact
                rw [hi] at hact
                obtain ⟨r₁, hfits₁, hbytes₁, hcopy₁⟩ := @copyReplace_group subNum look m run
                  (e :: rest) false false r d i hm hr hd hact
                obtain ⟨r', hcopy, hfits, hbytes⟩ := @ih rest.length (by simp only [← hn, List.length_cons]; omega)
                  [] false r₁ rest hfits₁ rfl
                refine ⟨r', ?_, hfits, ?_⟩
                · rw [hcopy₁]
                  exact hcopy
                · rw [hbytes, hbytes₁, flagExpand, hi]
                  simp
        · have hnot : ∀ e, rest.head? = some e →
              ¬ (9 < subNum ∧ isdigit e = true ∧ number d e ≤ subNum) :=
            fun e he h => htwo ⟨e, he, h⟩
          have hact := @actsub_single subNum sdig d rest.head? hnot
          rw [readPieces_single hd hnot, single]
          by_cases hskip : digit d = 0 ∨ subNum < digit d
          · have hzero : (if subNum < digit d then 0 else digit d) = 0 := by
              split
              · rfl
              · omega
            rw [hzero] at hact
            obtain ⟨r', hcopy, hfits, hbytes⟩ := @ih rest.length (by simp only [← hn, List.length_cons]; omega)
              (run ++ [92, d]) true r rest hr rfl
            refine ⟨r', ?_, hfits, ?_⟩
            · rw [copyReplace_skip hd hact]
              exact hcopy
            · rw [hbytes, if_pos hskip, flagExpand]
              simp
          · rw [not_or] at hskip
            obtain ⟨i, hi⟩ := Nat.exists_eq_succ_of_ne_zero hskip.1
            rw [if_neg hskip.2, hi] at hact
            obtain ⟨r₁, hfits₁, hbytes₁, hcopy₁⟩ := @copyReplace_group subNum look m run rest
              sdig true r d i hm hr hd hact
            obtain ⟨r', hcopy, hfits, hbytes⟩ := @ih rest.length (by simp only [← hn, List.length_cons]; omega)
              [] false r₁ rest hfits₁ rfl
            refine ⟨r', ?_, hfits, ?_⟩
            · rw [hcopy₁]
              exact hcopy
            · rw [hbytes, hbytes₁, if_neg (by omega), flagExpand, hi]
              simp
      · obtain ⟨r', hcopy, hfits, hbytes⟩ := @ih (d :: rest).length (by simp [← hn])
          (run ++ [c]) sdig r (d :: rest) hr rfl
        refine ⟨r', ?_, hfits, ?_⟩
        · rw [copyReplace, if_neg hc]
          exact hcopy
        · rw [hbytes, readPieces_of_not hc, flagExpand]
          simp

end Copy

section Loop

variable {subNum : Nat} {reg : Regex subNum} {replace : CString} {singleMatch : Bool}

/-- There is no match in an empty text. -/
theorem regexec_nil :
  reg.regexec [] = none
  := by
  cases h : reg.regexec [] with
  | none => rfl
  | some m =>
    have hlt := reg.not_empty [] m h
    have hle := reg.eo_le [] m h
    rw [List.length_nil] at hle
    omega

/-- The loop replaces the matches by what it makes of the pattern; there is as much fuel as text. -/
theorem regexLoop_eq {n : Nat} {s : Search} (hn : s.lastLookHere.length ≤ n) (hs : s.res.Fits) :
  ∃ s' t k, regexLoop reg (some replace) singleMatch n s = .ok s' ∧ s'.res.Fits ∧
    s'.res.bytes ++ s'.lastLookHere = s.res.bytes ++ t ∧ s'.totMatch = s.totMatch + k ∧
    IsReplaced reg (fun s m => flagExpand (groupText s m) false (readPieces subNum replace.bytes))
      singleMatch s.lastLookHere t k
  := by
  induction n generalizing s with
  | zero =>
    have hnil := List.length_eq_zero_iff.mp (Nat.le_zero.mp hn)
    refine ⟨s, s.lastLookHere, 0, rfl, hs, rfl, rfl, ?_⟩
    apply IsReplaced.none
    rw [hnil]
    exact regexec_nil
  | succ n ih =>
    by_cases hnil : s.lastLookHere = []
    · refine ⟨s, s.lastLookHere, 0, ?_, hs, rfl, rfl, ?_⟩
      · rw [regexLoop, if_pos hnil]
      · apply IsReplaced.none
        rw [hnil]
        exact regexec_nil
    · cases hm : reg.regexec s.lastLookHere with
      | none =>
        refine ⟨s, s.lastLookHere, 0, ?_, hs, rfl, rfl, IsReplaced.none hm⟩
        rw [regexLoop, if_neg hnil, hm]
      | some m =>
        have hlt := reg.not_empty _ m hm
        have hle := reg.eo_le _ m hm
        obtain ⟨r₁, hcopy₁, hfits₁, hbytes₁⟩ := hs.copy (Nat.le_trans hlt.le hle)
        have hgroups : m.GroupsIn s.lastLookHere :=
          fun i so eo hi => reg.group_le s.lastLookHere m i so eo hm hi
        obtain ⟨r₂, hcopy₂, hfits₂, hbytes₂⟩ := @copyReplace_eq subNum s.lastLookHere m [] false
          r₁ hgroups replace.bytes hfits₁
        have hloop : regexLoop reg (some replace) singleMatch (n + 1) s
            = if singleMatch then .ok ⟨s.lastLookHere.drop m.eo, r₂, s.totMatch + 1⟩
              else regexLoop reg (some replace) singleMatch n
                ⟨s.lastLookHere.drop m.eo, r₂, s.totMatch + 1⟩ := by
          rw [regexLoop, if_neg hnil, hm]
          simp only [hcopy₁, hcopy₂, bind, Except.bind]
        rw [hloop]
        cases hsingle : singleMatch with
        | true =>
          rw [if_pos rfl]
          refine ⟨_, _, 1, rfl, hfits₂, ?_, rfl, IsReplaced.last hm rfl⟩
          rw [hbytes₂, hbytes₁]
          simp
        | false =>
          rw [if_neg Bool.false_ne_true]
          rw [hsingle] at ih
          obtain ⟨s', t, k, hok, hfits, hbytes, htot, hreplaced⟩ := @ih
            ⟨s.lastLookHere.drop m.eo, r₂, s.totMatch + 1⟩
            (by simp only [List.length_drop]; omega) hfits₂
          refine ⟨s', _, k + 1, hok, hfits, ?_, ?_, IsReplaced.next hm rfl hreplaced⟩
          · rw [hbytes, hbytes₂, hbytes₁]
            simp
          · rw [htot]
            simp only
            omega

/-- The result, with what the loop makes of the pattern in the place of the matches. -/
theorem velyRegex_eq (text : CString) :
  ∃ t k, velyRegex text reg (some replace) singleMatch = .ok ⟨some t, t.length, k⟩ ∧
    IsReplaced reg (fun s m => flagExpand (groupText s m) false (readPieces subNum replace.bytes))
      singleMatch text.bytes t k
  := by
  obtain ⟨s, t, k, hok, hfits, hbytes, htot, hreplaced⟩ := @regexLoop_eq subNum reg replace
    singleMatch text.length ⟨text.bytes, .empty, 0⟩ le_rfl .empty
  obtain ⟨r, hcopy, hfits', hbytes'⟩ := hfits.copy_all s.lastLookHere
  have ht : r.bytes = t := by
    rw [hbytes', hbytes]
    rfl
  refine ⟨t, k, ?_, hreplaced⟩
  rw [velyRegex, hok]
  simp only [bind, Except.bind, hcopy]
  rw [hfits'.length, ht, htot, Nat.zero_add]

end Loop

section Flag

/-- With the flag, the parts have a reference of two digits that the flag is set for. -/
def Stale : Bool → List Piece → Prop
  | _, [] => False
  | sdig, .byte _ :: ps => Stale sdig ps
  | _, .skip _ :: ps => Stale true ps
  | _, .one _ :: ps => Stale false ps
  | true, .two _ _ :: _ => True
  | false, .two _ _ :: ps => Stale false ps

/-- Without such a reference the pattern is expanded as it is read. -/
theorem flagExpand_of_not {g : Nat → List UInt8} {sdig : Bool} {ps : List Piece}
    (h : ¬ Stale sdig ps) :
  flagExpand g sdig ps = expand g ps
  := by
  induction ps generalizing sdig with
  | nil => cases sdig <;> rfl
  | cons p ps ih =>
    rw [expand, List.flatMap_cons, ← expand]
    cases p with
    | byte b =>
      rw [flagExpand, ih h]
      rfl
    | skip d =>
      rw [flagExpand, ih h]
      rfl
    | one d =>
      rw [flagExpand, ih h]
      rfl
    | two d e =>
      cases sdig with
      | true => exact absurd trivial h
      | false =>
        rw [flagExpand, ih h]
        rfl

/-- With empty groups a digit too many is left for every such reference. -/
theorem length_flagExpand {sdig : Bool} {ps : List Piece} :
  (expand (fun _ => []) ps).length ≤ (flagExpand (fun _ => []) sdig ps).length ∧
    (Stale sdig ps →
      (expand (fun _ => []) ps).length < (flagExpand (fun _ => []) sdig ps).length)
  := by
  have hadd : ∀ (k a b : Nat) (S : Prop), (a ≤ b ∧ (S → a < b)) →
      (k + a ≤ k + b ∧ (S → k + a < k + b)) := by
    rintro k a b S ⟨hle, hlt⟩
    constructor
    · omega
    · intro h
      have := hlt h
      omega
  induction ps generalizing sdig with
  | nil =>
    constructor
    · exact Nat.zero_le _
    · intro h
      cases sdig <;> cases h
  | cons p ps ih =>
    have hcons : (expand (fun _ => []) (p :: ps)).length
        = (p.text fun _ => []).length + (expand (fun _ => []) ps).length := by
      rw [expand, List.flatMap_cons, List.length_append]
      rfl
    rw [hcons]
    cases p with
    | byte b =>
      rw [flagExpand, List.length_cons, Nat.add_comm _ 1]
      exact hadd 1 _ _ _ ih
    | skip d =>
      rw [flagExpand, List.length_cons, List.length_cons, Nat.add_assoc, Nat.add_comm _ 2]
      exact hadd 2 _ _ _ ih
    | one d =>
      rw [flagExpand, List.length_append]
      exact hadd 0 _ _ _ ih
    | two d e =>
      cases sdig with
      | true =>
        have htrue := (@ih true).1
        have hfalse := (@ih false).1
        simp only [flagExpand, Piece.text, Stale, List.length_nil, List.nil_append]
        split
        · simp only [List.length_cons]
          omega
        · simp only [List.length_cons]
          omega
      | false =>
        rw [flagExpand, List.length_append]
        exact hadd 0 _ _ _ ih

/-- The parts have a reference of two digits before any other reference. -/
def FirstTwo (ps : List Piece) : Prop :=
  ∃ mid e f after, ps = mid ++ .two e f :: after ∧ ∀ p ∈ mid, p.isGroup = false

/-- After a backslash with a digit that is not a group, the parts have a reference of two digits
before any other reference. -/
def SkipTwo (ps : List Piece) : Prop := ∃ before d rest, ps = before ++ .skip d :: rest ∧ FirstTwo rest

theorem firstTwo_cons {p : Piece} {ps : List Piece} :
  FirstTwo (p :: ps) ↔ (∃ e f, p = .two e f) ∨ (p.isGroup = false ∧ FirstTwo ps)
  := by
  constructor
  · rintro ⟨mid, e, f, after, heq, hmid⟩
    cases mid with
    | nil =>
      rw [List.nil_append, List.cons.injEq] at heq
      exact Or.inl ⟨e, f, heq.1⟩
    | cons q mid =>
      rw [List.cons_append, List.cons.injEq] at heq
      obtain ⟨rfl, heq⟩ := heq
      right
      use hmid p List.mem_cons_self, mid, e, f, after, heq
      intro q hq
      apply hmid q (List.mem_cons_of_mem p hq)
  · rintro (⟨e, f, rfl⟩ | ⟨hp, mid, e, f, after, rfl, hmid⟩)
    · use [], e, f, ps, rfl
      simp
    · use p :: mid, e, f, after, rfl
      intro q hq
      cases hq with
      | head => exact hp
      | tail _ hq => exact hmid q hq

theorem skipTwo_cons {p : Piece} {ps : List Piece} :
  SkipTwo (p :: ps) ↔ (∃ d, p = .skip d ∧ FirstTwo ps) ∨ SkipTwo ps
  := by
  constructor
  · rintro ⟨before, d, rest, heq, hrest⟩
    cases before with
    | nil =>
      rw [List.nil_append, List.cons.injEq] at heq
      obtain ⟨rfl, rfl⟩ := heq
      exact Or.inl ⟨d, rfl, hrest⟩
    | cons q before =>
      rw [List.cons_append, List.cons.injEq] at heq
      exact Or.inr ⟨before, d, rest, heq.2, hrest⟩
  · rintro (⟨d, rfl, hps⟩ | ⟨before, d, rest, rfl, hrest⟩)
    · exact ⟨[], d, ps, rfl, hps⟩
    · exact ⟨p :: before, d, rest, rfl, hrest⟩

/-- The flag is set for a reference of two digits if it is set first and no reference is before it,
or if it is set by a backslash with a digit before it. -/
theorem stale_iff {sdig : Bool} {ps : List Piece} :
  Stale sdig ps ↔ (sdig = true ∧ FirstTwo ps) ∨ SkipTwo ps
  := by
  induction ps generalizing sdig with
  | nil => simp [Stale, FirstTwo, SkipTwo]
  | cons p ps ih =>
    rw [firstTwo_cons, skipTwo_cons]
    cases p with
    | byte b => simp [Stale, ih, Piece.isGroup]
    | skip d =>
      simp only [Stale, ih, Piece.isGroup]
      grind
    | one d => simp [Stale, ih, Piece.isGroup]
    | two d e =>
      cases sdig with
      | true => simp [Stale]
      | false => simp [Stale, ih]

theorem refsApart_iff {ps : List Piece} :
  RefsApart ps ↔ ¬ Stale false ps
  := by
  rw [stale_iff]
  constructor
  · rintro h (⟨hfalse, -⟩ | ⟨before, d, rest, rfl, mid, e, f, after, rfl, hmid⟩)
    · cases hfalse
    · obtain ⟨p, hp, hgroup⟩ := h before d mid e f after rfl
      rw [hmid p hp] at hgroup
      cases hgroup
  · intro h before d mid e f after heq
    by_contra hno
    apply h
    right
    refine ⟨before, d, _, heq, mid, e, f, after, rfl, ?_⟩
    intro p hp
    cases hgroup : p.isGroup with
    | false => rfl
    | true => exact absurd ⟨p, hp, hgroup⟩ hno

/-- A regular expression with the one match `a`, in which no group takes part. -/
def matchA (subNum : Nat) : Regex subNum where
  regexec s := if s = [97] then some ⟨0, 1, fun _ => none⟩ else none
  not_empty := by
    intro s m h
    split at h
    · cases h
      exact Nat.one_pos
    · cases h
  eo_le := by
    intro s m h
    split at h
    · next hs =>
      cases h
      rw [hs]
      rfl
    · cases h
  group_le := by
    intro s m i so eo h hi
    split at h
    · cases h
      cases hi
    · cases h

/-- A pattern in which the flag is set for a reference of two digits is not expanded as it is read.
-/
theorem not_regexOk_of_stale {subNum : Nat} {replace : CString}
    (h : Stale false (readPieces subNum replace.bytes)) :
  ¬ RegexOk subNum replace
  := by
  intro hok
  have hlength := length_flagExpand.2 h
  obtain ⟨t, k, hrun, hreplaced⟩ := hok (matchA subNum) true ⟨[97], by decide⟩
  obtain ⟨t', k', hrun', hreplaced'⟩ := @velyRegex_eq subNum (matchA subNum) replace true
    ⟨[97], by decide⟩
  have hone : ∀ (f : List UInt8 → Match → List UInt8) t k,
      IsReplaced (matchA subNum) f true [97] t k → t = f [97] ⟨0, 1, fun _ => none⟩ := by
    intro f t k hr
    cases hr with
    | none hm => simp [matchA] at hm
    | last hm _ =>
      cases hm
      simp
    | next _ hsingle _ => cases hsingle
  have ht := hone _ t k hreplaced
  have ht' := hone _ t' k' hreplaced'
  rw [hrun, Except.ok.injEq, RegexResult.mk.injEq, Option.some.injEq] at hrun'
  have hgroups : groupText [97] ⟨0, 1, fun _ => none⟩ = fun _ => [] := rfl
  rw [hrun'.1, ht', hgroups] at ht
  rw [ht] at hlength
  exact Nat.lt_irrefl _ hlength

end Flag

/-- The result is as the pattern reads, for every regular expression, text and mode, exactly when in
the pattern a reference of two digits is not the next one after a backslash and a digit that stand
for themselves. -/
theorem regexOk_iff {subNum : Nat} {replace : CString} :
  RegexOk subNum replace ↔ RefsApart (readPieces subNum replace.bytes)
  := by
  rw [refsApart_iff]
  constructor
  · intro hok hstale
    exact not_regexOk_of_stale hstale hok
  · intro hstale reg singleMatch text
    have hflag : (fun s m => expand (groupText s m) (readPieces subNum replace.bytes))
        = fun s m => flagExpand (groupText s m) false (readPieces subNum replace.bytes) := by
      funext s m
      exact (flagExpand_of_not hstale).symm
    rw [hflag]
    apply velyRegex_eq

/-- With ten groups, `\0 \10` is expanded to `\0`, a space, the first group and `0`. -/
theorem not_regexOk_stale :
  ¬ RegexOk 10 ⟨ascii "\\0 \\10", by decide⟩
  := by
  have hread : readPieces 10 (ascii "\\0 \\10") = [.skip 48, .byte 32, .two 49 48] := by rfl
  apply not_regexOk_of_stale
  rw [hread]
  trivial

end Vely
