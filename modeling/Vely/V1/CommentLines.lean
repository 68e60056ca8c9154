import Vely.V1.Comments

/-!
# The lines without comments

Where the lines of a source file are read alike, `vely_gen_c_code` goes on with what C has of them.
While the comments of a line are looked for, the part of the line before `lcheck` is settled, and
the rest is as it was read.
-/

namespace Vely

namespace V1

section Marks

variable {s t mark line : List UInt8} {n p : Nat} {r : Option Nat}

/-! ## Markers -/

/-- A marker stands at `p`, where no quote is open. -/
def MarkAt (mark s : List UInt8) (p : Nat) : Prop := mark <+: s.drop p ∧ Shown s p

/-- The first marker is found. -/
theorem findMark_of_first (hmark : mark ≠ []) (hr : FirstFrom (MarkAt mark line) 0 r) :
  findMark line mark = .ok r
  := by
  have hfirst : FirstFrom (SeenIn false line mark false) 0
      (findLoop line mark false false (line.length + 1) 0) :=
    findLoop_seenIn hmark (fun h => absurd h (by decide)) (fun _ h => absurd rfl h) (by omega)
  have hiff (q : Nat) : SeenIn false line mark false q ↔ MarkAt mark line q := by
    constructor
    · rintro ⟨h₁, _, _, h₄⟩
      exact ⟨h₁, h₄⟩
    · rintro ⟨h₁, h₂⟩
      exact ⟨h₁, fun h => absurd h (by decide), fun h => absurd h (by decide), h₂⟩
  rw [findMark, velyFindKeyword0, if_neg hmark, ((FirstFrom.congr hiff).mp hfirst).unique hr]
  rfl

/-- A marker is looked for without errors. -/
theorem findMark_ok (line : List UInt8) (hmark : mark ≠ []) :
  ∃ r, findMark line mark = .ok r ∧ FirstFrom (MarkAt mark line) 0 r
  := by
  obtain ⟨r, hr⟩ := FirstFrom.exists (MarkAt mark line)
  exact ⟨r, findMark_of_first hmark hr, hr⟩

theorem find_of_first {c : Comments} (hmark : mark ≠ [])
    (hr : FirstFrom (MarkAt mark (c.line.drop c.lcheck)) 0 r) :
  c.find mark = .ok (r.map (c.lcheck + ·))
  := by
  rw [Comments.find, findMark_of_first hmark hr]
  rfl

theorem lt_length_of_prefix (hmark : mark ≠ []) (h : mark <+: s.drop p) :
  p + mark.length ≤ s.length
  := by
  have hpos := List.length_pos_of_ne_nil hmark
  have hlen := h.length_le
  rw [List.length_drop] at hlen
  omega

/-- Where a marker is hidden in the whole text, it is not found. -/
theorem Hidden.first_none (hmark : mark ≠ []) (h : Hidden mark s s.length) :
  FirstFrom (MarkAt mark s) 0 none
  := by
  rintro q _ ⟨hstarts, hshown⟩
  have hpos := List.length_pos_of_ne_nil hmark
  have hle := lt_length_of_prefix hmark hstarts
  exact h q (by omega) hstarts hshown

/-- A marker before which it is hidden is found. -/
theorem Hidden.first_some (h : Hidden mark s n) (hat : MarkAt mark s n) :
  FirstFrom (MarkAt mark s) 0 (some n)
  := by
  use Nat.zero_le n, hat
  rintro q _ hlt ⟨hstarts, hshown⟩
  exact h q hlt hstarts hshown

theorem shown_take (hp : p ≤ n) :
  Shown (s.take n) p ↔ Shown s p
  := by
  rw [Shown, Shown, List.take_take, Nat.min_eq_left hp]

/-- What is hidden stays so when the text is cut. -/
theorem Hidden.take (h : Hidden mark s n) :
  Hidden mark (s.take n) n
  := by
  intro p hp hstarts hshown
  apply h p hp _ ((shown_take hp.le).mp hshown)
  rw [List.drop_take] at hstarts
  exact hstarts.trans (List.take_prefix _ _)

/-- Whether markers of two bytes are hidden depends on the bytes up to the next one. -/
theorem Hidden.of_take (hmark : mark.length = 2) (h : Hidden mark s n)
    (heq : t.take (n + 1) = s.take (n + 1)) :
  Hidden mark t n
  := by
  intro p hp hstarts hshown
  have hcut : mark <+: (t.take (n + 1)).drop p := by
    rw [List.drop_take, List.prefix_take_iff]
    exact ⟨hstarts, by omega⟩
  rw [heq, List.drop_take, List.prefix_take_iff] at hcut
  apply h p hp hcut.1
  rw [← shown_take (n := n + 1) (by omega), ← heq, shown_take (by omega)]
  exact hshown

end Marks

/-- A marker of two slashes that starts before the end of a part is in it, or one slash is at its
end. -/
theorem lineMark_append {a b : List UInt8} {p : Nat} (hp : p < a.length)
    (h : lineMark <+: (a ++ b).drop p) :
  lineMark <+: a.drop p ∨ a.getLast? = some 47 ∧ b.head? = some 47
  := by
  have htwo : lineMark.length = 2 := rfl
  rw [List.drop_append_of_le_length hp.le] at h
  by_cases hlen : lineMark.length ≤ (a.drop p).length
  · left
    exact List.prefix_of_prefix_length_le h (List.prefix_append _ _) hlen
  · right
    have hone : (a.drop p).length = 1 := by
      rw [List.length_drop] at hlen ⊢
      omega
    obtain ⟨c, hc⟩ := List.length_eq_one_iff.mp hone
    have hlast : a.getLast? = some c := by
      rw [← List.take_append_drop p a, hc]
      simp
    rw [hc] at h
    obtain ⟨u, hu⟩ := h
    obtain ⟨rfl, rfl⟩ := List.cons.inj hu
    exact ⟨hlast, rfl⟩

/-! ## The part of a line that is settled -/

/-- The beginning of a line in which the comments are blanked out. -/
structure Settled (done : List UInt8) : Prop where
  last : ∀ c ∈ done.getLast?, c = 32
  shown : (count false done).outside = true
  noLine : Hidden lineMark done done.length

section Settling

variable {done s : List UInt8} {n p : Nat}

theorem settled_nil :
  Settled []
  := by
  use by simp, rfl
  intro p hp
  exact absurd hp (Nat.not_lt_zero p)

/-- After a settled part, quotes are counted as from the beginning. -/
theorem Settled.shown_append (h : Settled done) :
  Shown (done ++ s) (done.length + p) ↔ Shown s p
  := by
  have hbefore : done.getLast? ≠ some 92 := by
    intro hlast
    exact absurd (h.last 92 hlast) (by decide)
  have hsame : ((count false done).all false none (s.take p)).outside
      = (count false (s.take p)).outside :=
    (Count.outside_iff.mp h.shown).all.outside
  have hcount : count false (done ++ s.take p) = (count false done).all false none (s.take p) := by
    have hiff : done.getLast?.or none = some 92 ↔ (none : Option UInt8) = some 92 := by
      simp [hbefore]
    rw [count, Count.all_append, Count.all_before hiff]
    rfl
  rw [Shown, Shown, List.take_length_add_append, hcount, hsame]

/-- A marker is hidden up to a place of the line when it is up to that of the rest. -/
theorem Settled.hidden_append (h : Settled done) (hs : Hidden lineMark s n) :
  Hidden lineMark (done ++ s) (done.length + n)
  := by
  intro p hp hstarts
  by_cases hlt : p < done.length
  · have htake : (done ++ s).take p = done.take p := List.take_append_of_le_length hlt.le
    rw [Shown, htake]
    obtain hin | ⟨hlast, -⟩ := lineMark_append hlt hstarts
    · exact h.noLine p hlt hin
    · exact absurd (h.last 47 hlast) (by decide)
  · obtain ⟨i, rfl⟩ := Nat.exists_eq_add_of_le (not_lt.mp hlt)
    rw [h.shown_append]
    rw [List.drop_length_add_append] at hstarts
    exact hs i (by omega) hstarts

/-- What is settled, the code before a comment, and blanks for it are settled. -/
theorem Settled.blank (h : Settled done) (hn : n ≤ s.length) (hline : Hidden lineMark s n)
    (hshown : Shown s n) (k : Nat) :
  Settled (done ++ s.take n ++ List.replicate (k + 1) 32)
  := by
  have hcode : (done ++ s).take (done.length + n) = done ++ s.take n :=
    List.take_length_add_append n
  have hlen : (done ++ s.take n).length = done.length + n := by
    rw [List.length_append, List.length_take, Nat.min_eq_left hn]
  have hhidden : Hidden lineMark (done ++ s.take n) (done.length + n) := by
    rw [← hcode]
    exact (h.hidden_append hline).take
  constructor
  · intro c hc
    rw [List.getLast?_append, List.getLast?_replicate, if_neg (by omega)] at hc
    exact (Option.some.inj hc).symm
  · have hplain : ∀ c ∈ List.replicate (k + 1) (32 : UInt8), plain c = true := by
      intro c hc
      rw [List.eq_of_mem_replicate hc]
      rfl
    have hcount := h.shown_append.mpr hshown
    rw [Shown, hcode] at hcount
    rw [count, Count.all_append, Count.all_plain hplain]
    exact hcount
  · intro p hp hstarts
    by_cases hlt : p < done.length + n
    · have htake : (done ++ s.take n ++ List.replicate (k + 1) 32).take p
          = (done ++ s.take n).take p := List.take_append_of_le_length (by omega)
      rw [Shown, htake]
      obtain hin | ⟨-, hhead⟩ := lineMark_append (by omega) hstarts
      · exact hhidden p hlt hin
      · rw [List.replicate_succ] at hhead
        exact absurd (Option.some.inj hhead) (by decide)
    · obtain ⟨i, rfl⟩ := Nat.exists_eq_add_of_le (not_lt.mp hlt)
      rw [← hlen, List.drop_length_add_append, List.drop_replicate] at hstarts
      have hpos : 0 < k + 1 - i := by
        simp only [List.length_append, List.length_replicate] at hp hlen
        omega
      obtain ⟨j, hj⟩ := Nat.exists_eq_succ_of_ne_zero hpos.ne'
      rw [hj, List.replicate_succ] at hstarts
      obtain ⟨u, hu⟩ := hstarts
      exact absurd (List.cons.inj hu).1 (by decide)

end Settling

/-! ## What C has -/

section Reading

variable {s : List UInt8} {q : Nat}

theorem cLine_of_not_starts (h : ¬ openMark <+: s.drop (codeLength .code s)) :
  cLine s = (s.take (codeLength .code s), false)
  := by
  rw [cLine]
  simp only
  rw [if_neg h]

theorem cLine_unclosed (h : openMark <+: s.drop (codeLength .code s))
    (hends : strstr (s.drop (codeLength .code s + 2)) closeMark = none) :
  cLine s = (s.take (codeLength .code s), true)
  := by
  rw [cLine]
  simp only
  rw [if_pos h, hends]

theorem cLine_closed (h : openMark <+: s.drop (codeLength .code s))
    (hends : strstr (s.drop (codeLength .code s + 2)) closeMark = some q) :
  cLine s = (s.take (codeLength .code s) ++ List.replicate (q + 4) 32
      ++ (cLine (s.drop (codeLength .code s + 2 + q + 2))).1,
    (cLine (s.drop (codeLength .code s + 2 + q + 2))).2)
  := by
  conv_lhs => rw [cLine]
  simp only
  rw [if_pos h, hends]

/-- Comments of the two kinds do not start at one place. -/
theorem not_openMark_of_lineMark (h : lineMark <+: s) :
  ¬ openMark <+: s
  := by
  obtain ⟨t, rfl⟩ := h
  rintro ⟨u, hu⟩
  exact absurd (List.cons.inj (List.cons.inj hu).2).1 (by decide)

/-- No end marker starts with a slash. -/
theorem not_closeMark_of_slash {c : UInt8} (h : [47, c] <+: s) :
  ¬ closeMark <+: s
  := by
  obtain ⟨t, rfl⟩ := h
  rintro ⟨u, hu⟩
  exact absurd (List.cons.inj hu).1 (by decide)

/-- No start marker comes before the code ends. -/
theorem CodeAgrees.openMark_ge (h : CodeAgrees s) {p : Nat} (hat : MarkAt openMark s p) :
  codeLength .code s ≤ p
  := by
  by_contra hlt
  exact h.noOpen p (not_le.mp hlt) hat.1 hat.2

theorem CommentAgrees.closeMark_ge {mark : List UInt8} (h : CommentAgrees mark s) {p : Nat}
    (hat : MarkAt closeMark s p) :
  codeLength .code s ≤ p
  := by
  by_contra hlt
  exact h.noClose p (not_le.mp hlt) hat.1 hat.2

/-- An end marker after a start marker that has no byte in common with it. -/
theorem CommentAgrees.closeMark_after (h : CommentAgrees openMark s)
    (hapart : ¬ closeMark <+: s.drop (codeLength .code s + 1)) {p : Nat}
    (hat : MarkAt closeMark s p) :
  codeLength .code s + 2 ≤ p
  := by
  have hle := h.closeMark_ge hat
  by_contra hlt
  obtain heq | heq : p = codeLength .code s ∨ p = codeLength .code s + 1 := by omega
  · rw [heq] at hat
    exact not_closeMark_of_slash h.starts hat.1
  · rw [heq] at hat
    exact hapart hat.1

end Reading

/-! ## The loop over the comments of a line -/

section Loop

variable {c : Comments} {bound n : Nat}

theorem openMark_ne_nil :
  openMark ≠ []
  := by decide

theorem closeMark_ne_nil :
  closeMark ≠ []
  := by decide

theorem lineMark_ne_nil :
  lineMark ≠ []
  := by decide

/-- Without a comment up to its end, a line is left as it is. -/
theorem lineComment_none (h : Hidden lineMark c.line c.line.length) :
  lineComment c = .ok (if c.skipLine then none else some c.line, c.ccommOpen)
  := by
  rw [lineComment, findMark_of_first lineMark_ne_nil (h.first_none lineMark_ne_nil)]
  rfl

/-- A comment up to the end of the line is cut, with those that were found after it. -/
theorem lineComment_some (h : Hidden lineMark c.line n) (hat : MarkAt lineMark c.line n)
    (hclosing : c.closingCcommPos.any (· < n) = false) :
  lineComment c = .ok (if c.skipLine then none else some (c.line.take n),
    if c.ccommPos.any (n < ·) then false else c.ccommOpen)
  := by
  rw [lineComment, findMark_of_first lineMark_ne_nil (h.first_some hat), ok_bind]
  simp only
  rw [if_neg (by simp [hclosing])]
  rfl

/-- A line that is skipped. -/
theorem lineComment_skip (hskip : c.skipLine = true) (hpos : c.ccommPos = none)
    (hclosing : c.closingCcommPos = none) :
  lineComment c = .ok (none, c.ccommOpen)
  := by
  obtain ⟨r, hr, -⟩ := findMark_ok c.line lineMark_ne_nil
  rw [lineComment, hr, ok_bind]
  cases r with
  | none => simp [hskip, pure_eq_ok]
  | some len => simp [hskip, hpos, hclosing, pure_eq_ok]

/-- One step, where no comment is open. -/
theorem commentLoop_step {l r : Option Nat} (hopen : c.ccommOpen = false)
    (hl : FirstFrom (MarkAt openMark (c.line.drop c.lcheck)) 0 l)
    (hr : FirstFrom (MarkAt closeMark (c.line.drop c.lcheck)) 0 r) :
  commentLoop (bound + 1) c =
    match l, r with
    | none, none => .ok c
    | some l, none => .ok { c with
        line := c.line.take (c.lcheck + l), ccommOpen := true, ccommPos := some (c.lcheck + l) }
    | some l, some r =>
      if l < r then commentLoop bound { c with
        line := blankOut c.line (c.lcheck + l) (c.lcheck + r + 2), lcheck := c.lcheck + r + 2 }
      else .ok { c with closingCcommPos := some (c.lcheck + r) }
    | none, some r => .ok { c with closingCcommPos := some (c.lcheck + r) }
  := by
  rw [commentLoop, find_of_first openMark_ne_nil hl, find_of_first closeMark_ne_nil hr, ok_bind,
    ok_bind, hopen, if_neg (by decide)]
  cases l with
  | none =>
    cases r with
    | none => rfl
    | some r => rfl
  | some l =>
    cases r with
    | none => rfl
    | some r =>
      simp only [Option.map_some, Nat.add_lt_add_iff_left]
      rfl

/-- One step, where a comment is open. -/
theorem commentLoop_open {r : Option Nat} (hopen : c.ccommOpen = true)
    (hr : FirstFrom (MarkAt closeMark (c.line.drop c.lcheck)) 0 r) :
  commentLoop (bound + 1) c =
    match r with
    | none => .ok { c with skipLine := true }
    | some r => commentLoop bound { c with
        line := c.line.drop (c.lcheck + r + 2), lcheck := 0, ccommOpen := false }
  := by
  obtain ⟨l, hl⟩ := FirstFrom.exists (MarkAt openMark (c.line.drop c.lcheck))
  rw [commentLoop, find_of_first openMark_ne_nil hl, find_of_first closeMark_ne_nil hr, ok_bind,
    ok_bind, hopen, if_pos rfl]
  cases r with
  | none => rfl
  | some r => rfl

/-- What is found from a place on that is behind a comment up to the end of the line leaves the
line up to that comment as it is. -/
theorem commentLoop_after (hopen : c.ccommOpen = false) (hskip : c.skipLine = false)
    (hclosing : c.closingCcommPos = none)
    (hl : ∀ p, MarkAt openMark (c.line.drop c.lcheck) p → n + 2 ≤ c.lcheck + p)
    (hr : ∀ p, MarkAt closeMark (c.line.drop c.lcheck) p → n ≤ c.lcheck + p)
    (hle : c.lcheck ≤ c.line.length) (hbound : c.line.length < bound + c.lcheck) :
  ∃ c', commentLoop bound c = .ok c' ∧ c'.line.take (n + 2) = c.line.take (n + 2)
    ∧ c'.skipLine = false ∧ c'.closingCcommPos.any (· < n) = false
    ∧ (c'.ccommOpen = false ∨ c'.ccommPos.any (n < ·) = true)
  := by
  induction bound generalizing c with
  | zero => omega
  | succ bound ih =>
    obtain ⟨l, hfirst⟩ := FirstFrom.exists (MarkAt openMark (c.line.drop c.lcheck))
    obtain ⟨r, hlast⟩ := FirstFrom.exists (MarkAt closeMark (c.line.drop c.lcheck))
    rw [commentLoop_step hopen hfirst hlast]
    have hclose {r : Nat} (hlast : FirstFrom (MarkAt closeMark (c.line.drop c.lcheck)) 0 (some r)) :
        (some (c.lcheck + r)).any (· < n) = false := by
      have hn := hr r hlast.2.1
      simpa using hn
    cases l with
    | none =>
      cases r with
      | none => exact ⟨c, rfl, rfl, hskip, by simp [hclosing], .inl hopen⟩
      | some r => exact ⟨_, rfl, rfl, hskip, hclose hlast, .inl hopen⟩
    | some l =>
      have hn := hl l hfirst.2.1
      cases r with
      | none =>
        refine ⟨_, rfl, ?_, hskip, by simp [hclosing], .inr ?_⟩
        · rw [List.take_take, Nat.min_eq_left hn]
        · simp only [Option.any_some, decide_eq_true_eq]
          omega
      | some r =>
        simp only
        split
        · next hlt =>
          have hin := lt_length_of_prefix closeMark_ne_nil hlast.2.1.1
          have htwo : closeMark.length = 2 := rfl
          rw [List.length_drop] at hin
          have hlength : (blankOut c.line (c.lcheck + l) (c.lcheck + r + 2)).length
              = c.line.length := by
            simp only [blankOut, List.length_append, List.length_take, List.length_replicate,
              List.length_drop]
            omega
          have htake : (blankOut c.line (c.lcheck + l) (c.lcheck + r + 2)).take (n + 2)
              = c.line.take (n + 2) := by
            rw [blankOut, List.append_assoc, List.take_append_of_le_length
              (by rw [List.length_take]; omega), List.take_take, Nat.min_eq_left hn]
          rw [← htake]
          apply @ih { c with
            line := blankOut c.line (c.lcheck + l) (c.lcheck + r + 2)
            lcheck := c.lcheck + r + 2 } hopen hskip hclosing
          · intro p _
            simp only
            omega
          · intro p _
            simp only
            omega
          · simp only [hlength]
            omega
          · simp only [hlength]
            omega
        · exact ⟨_, rfl, rfl, hskip, hclose hlast, .inl hopen⟩

end Loop

/-! ## Lines that are read alike -/

section Lines

variable {s done line f : List UInt8} {lines : List (List UInt8)} {bound : Nat} {ccommOpen : Bool}

/-- A line of which a part is settled, where no comment is open. -/
def midLine (done s : List UInt8) : Comments := ⟨done ++ s, done.length, false, none, none, false⟩

theorem drop_midLine :
  (midLine done s).line.drop (midLine done s).lcheck = s
  := List.drop_left

/-- A line of code is left as it is. -/
theorem CodeAgrees.comments (h : CodeAgrees s) (hends : codeLength .code s = s.length)
    (hdone : Settled done) :
  (do lineComment (← commentLoop (bound + 1) (midLine done s)))
    = .ok (some (done ++ (cLine s).1), (cLine s).2)
  := by
  have hline : Hidden lineMark (done ++ s) (done ++ s).length := by
    rw [List.length_append, ← hends]
    exact hdone.hidden_append h.noLine
  have hopen : FirstFrom (MarkAt openMark s) 0 none :=
    Hidden.first_none openMark_ne_nil (hends ▸ h.noOpen)
  obtain ⟨r, hr⟩ := FirstFrom.exists (MarkAt closeMark s)
  have hc : cLine s = (s, false) := by
    rw [cLine_of_not_starts, hends, List.take_length]
    rw [hends, List.drop_length]
    exact fun h => openMark_ne_nil (List.prefix_nil.mp h)
  rw [commentLoop_step rfl (by rwa [drop_midLine]) (by rwa [drop_midLine]), hc]
  cases r with
  | none =>
    rw [ok_bind, lineComment_none hline]
    rfl
  | some r =>
    rw [ok_bind, lineComment_none hline]
    rfl

/-- A comment up to the end of the line is cut. -/
theorem CommentAgrees.comments_line (h : CommentAgrees lineMark s)
    (hapart : ¬ openMark <+: s.drop (codeLength .code s + 1)) (hdone : Settled done)
    (hbound : s.length < bound) :
  (do lineComment (← commentLoop bound (midLine done s)))
    = .ok (some (done ++ (cLine s).1), (cLine s).2)
  := by
  have hcode := h.toCodeAgrees
  have htwo := lt_length_of_prefix lineMark_ne_nil h.starts
  have hl : ∀ p, MarkAt openMark ((midLine done s).line.drop (midLine done s).lcheck) p →
      done.length + codeLength .code s + 2 ≤ done.length + p := by
    intro p hp
    rw [drop_midLine] at hp
    have hge := hcode.openMark_ge hp
    by_contra hlt
    obtain heq | heq : p = codeLength .code s ∨ p = codeLength .code s + 1 := by omega
    · rw [heq] at hp
      exact not_openMark_of_lineMark h.starts hp.1
    · rw [heq] at hp
      exact hapart hp.1
  have hr : ∀ p, MarkAt closeMark ((midLine done s).line.drop (midLine done s).lcheck) p →
      done.length + codeLength .code s ≤ done.length + p := by
    intro p hp
    rw [drop_midLine] at hp
    exact Nat.add_le_add_left (h.closeMark_ge hp) _
  obtain ⟨c, hloop, htake, hskip, hclosing, hpos⟩ := @commentLoop_after (midLine done s) bound
    (done.length + codeLength .code s) rfl rfl rfl hl hr (by simp [midLine])
    (by simp only [midLine, List.length_append]; omega)
  -- What was found is behind the comment, so that the line is the same up to its marker.
  have hcut {k : Nat} (hk : k ≤ done.length + codeLength .code s + 2) :
      c.line.take k = (done ++ s).take k := by
    have h := congrArg (List.take k) htake
    rwa [List.take_take, List.take_take, Nat.min_eq_left hk] at h
  have hat : MarkAt lineMark c.line (done.length + codeLength .code s) := by
    constructor
    · have hstarts : lineMark <+: (c.line.take (done.length + codeLength .code s + 2)).drop
          (done.length + codeLength .code s) := by
        rw [hcut le_rfl, List.drop_take, List.drop_length_add_append, List.prefix_take_iff]
        exact ⟨h.starts, by simp [lineMark]⟩
      exact hstarts.trans ((List.take_prefix _ _).drop _)
    · rw [Shown, hcut (by omega)]
      exact hdone.shown_append.mpr h.shown
  have hhidden : Hidden lineMark c.line (done.length + codeLength .code s) :=
    (hdone.hidden_append hcode.noLine).of_take rfl (hcut (by omega))
  have hcomm : (if c.ccommPos.any (done.length + codeLength .code s < ·) then false
      else c.ccommOpen) = false := by
    obtain hopen | hpos := hpos
    · simp [hopen]
    · simp [hpos]
  rw [hloop, ok_bind, lineComment_some hhidden hat hclosing, hskip, hcomm,
    cLine_of_not_starts (not_openMark_of_lineMark h.starts), hcut (by omega),
    List.take_length_add_append]
  rfl

/-- A comment that does not end on the line is cut. -/
theorem CommentAgrees.comments_unclosed (h : CommentAgrees openMark s)
    (hapart : ¬ closeMark <+: s.drop (codeLength .code s + 1))
    (hends : strstr (s.drop (codeLength .code s + 2)) closeMark = none) (hdone : Settled done) :
  (do lineComment (← commentLoop (bound + 1) (midLine done s)))
    = .ok (some (done ++ (cLine s).1), (cLine s).2)
  := by
  have hl : FirstFrom (MarkAt openMark s) 0 (some (codeLength .code s)) :=
    h.noOpen.first_some ⟨h.starts, h.shown⟩
  have hr : FirstFrom (MarkAt closeMark s) 0 none := by
    intro p _ hp
    obtain ⟨i, rfl⟩ := Nat.exists_eq_add_of_le (h.closeMark_after hapart hp)
    have hno := strstr_first (s := s.drop (codeLength .code s + 2)) closeMark_ne_nil
    rw [hends] at hno
    apply hno i (Nat.zero_le i)
    rw [List.drop_drop]
    exact hp.1
  have hcut : (done ++ s).take (done.length + codeLength .code s)
      = done ++ s.take (codeLength .code s) := List.take_length_add_append _
  have hlen : (done ++ s.take (codeLength .code s)).length = done.length + codeLength .code s := by
    rw [List.length_append, List.length_take, Nat.min_eq_left (codeLength_le _ _)]
  have hhidden : Hidden lineMark (done ++ s.take (codeLength .code s))
      (done ++ s.take (codeLength .code s)).length := by
    rw [hlen, ← hcut]
    exact (hdone.hidden_append h.noLine).take
  rw [commentLoop_step rfl (by rwa [drop_midLine]) (by rwa [drop_midLine])]
  simp only [midLine]
  rw [ok_bind, hcut, lineComment_none hhidden, cLine_unclosed h.starts hends]
  rfl

/-- A comment that ends on the line is blanked out. -/
theorem CommentAgrees.comments_closed {q : Nat} (h : CommentAgrees openMark s)
    (hapart : ¬ closeMark <+: s.drop (codeLength .code s + 1))
    (hends : strstr (s.drop (codeLength .code s + 2)) closeMark = some q)
    (heven : Shown s (codeLength .code s + 2 + q)) :
  commentLoop (bound + 1) (midLine done s)
    = commentLoop bound (midLine
        (done ++ s.take (codeLength .code s) ++ List.replicate (q + 4) 32)
        (s.drop (codeLength .code s + 2 + q + 2)))
  := by
  have hl : FirstFrom (MarkAt openMark s) 0 (some (codeLength .code s)) :=
    h.noOpen.first_some ⟨h.starts, h.shown⟩
  have hfirst := strstr_first (s := s.drop (codeLength .code s + 2)) closeMark_ne_nil
  rw [hends] at hfirst
  obtain ⟨-, hend, hno⟩ := hfirst
  rw [List.drop_drop] at hend
  have hr : FirstFrom (MarkAt closeMark s) 0 (some (codeLength .code s + 2 + q)) := by
    use Nat.zero_le _, ⟨hend, heven⟩
    intro p _ hlt hp
    obtain ⟨i, rfl⟩ := Nat.exists_eq_add_of_le (h.closeMark_after hapart hp)
    apply hno i (Nat.zero_le i) (by omega)
    rw [List.drop_drop]
    exact hp.1
  have hlen : (done ++ s.take (codeLength .code s)).length = done.length + codeLength .code s := by
    rw [List.length_append, List.length_take, Nat.min_eq_left (codeLength_le _ _)]
  rw [commentLoop_step rfl (by rwa [drop_midLine]) (by rwa [drop_midLine])]
  simp only [midLine]
  rw [if_pos (by omega), blankOut, List.take_length_add_append]
  congr 2
  · rw [Nat.add_assoc, List.drop_length_add_append]
    congr 3
    omega
  · rw [List.length_append, hlen, List.length_replicate]
    omega

/-- From a place on where no comment is open, what is left of the line is what C has. -/
theorem Agrees.comments (h : Agrees s) (hdone : Settled done) (hbound : s.length < bound) :
  (do lineComment (← commentLoop bound (midLine done s)))
    = .ok (some (done ++ (cLine s).1), (cLine s).2)
  := by
  induction h generalizing done bound with
  | code ends code =>
    obtain ⟨bound, rfl⟩ := Nat.exists_eq_succ_of_ne_zero (Nat.ne_zero_of_lt hbound)
    exact code.comments ends hdone
  | line comment apart => exact comment.comments_line apart hdone hbound
  | unclosed comment apart ends =>
    obtain ⟨bound, rfl⟩ := Nat.exists_eq_succ_of_ne_zero (Nat.ne_zero_of_lt hbound)
    exact comment.comments_unclosed apart ends hdone
  | @closed s q comment apart ends even rest ih =>
    obtain ⟨bound, rfl⟩ := Nat.exists_eq_succ_of_ne_zero (Nat.ne_zero_of_lt hbound)
    have hpos : 0 < s.length := by
      have hlen := lt_length_of_prefix openMark_ne_nil comment.starts
      have htwo : openMark.length = 2 := rfl
      omega
    have hsettled := hdone.blank (codeLength_le .code s) comment.noLine comment.shown (q + 3)
    rw [comment.comments_closed apart ends even, ih hsettled (by rw [List.length_drop]; omega),
      cLine_closed comment.starts ends]
    simp only [List.append_assoc]

/-- The comments of a line that is read alike. -/
theorem commentLine_of_agrees (h : LineAgrees ccommOpen line) :
  commentLine ccommOpen line = .ok (cReadLine ccommOpen line)
  := by
  have hline {s : List UInt8} {bound : Nat} (hagree : Agrees s) (hbound : s.length < bound) :
      (do lineComment (← commentLoop bound ⟨s, 0, false, none, none, false⟩))
        = .ok (some (cLine s).1, (cLine s).2) := hagree.comments settled_nil hbound
  cases ccommOpen with
  | true =>
    rw [commentLine, if_pos (by rfl), cReadLine, if_pos rfl, cComment]
    have hfirst := strstr_first (s := line) closeMark_ne_nil
    cases hend : strstr line closeMark with
    | none =>
      rw [hend] at hfirst
      have hr : FirstFrom (MarkAt closeMark line) 0 none := fun p hp hat => hfirst p hp hat.1
      rw [@commentLoop_open ⟨line, 0, true, none, none, false⟩ _ _ rfl hr, ok_bind,
        lineComment_skip rfl rfl rfl]
    | some q =>
      rw [hend] at hfirst
      obtain ⟨heven, hagree⟩ := h q hend
      have hr : FirstFrom (MarkAt closeMark line) 0 (some q) :=
        ⟨hfirst.1, ⟨hfirst.2.1, heven⟩, fun p hp hlt hat => hfirst.2.2 p hp hlt hat.1⟩
      rw [@commentLoop_open ⟨line, 0, true, none, none, false⟩ _ _ rfl hr]
      simp only [Nat.zero_add]
      rw [hline hagree (by rw [List.length_drop]; omega)]
      rfl
  | false =>
    rw [commentLine, cReadLine, if_neg Bool.false_ne_true, Bool.false_or]
    cases hout : isOutput line with
    | true => rfl
    | false =>
      have hagree : Agrees line := h.resolve_left (by simp [hout])
      rw [Bool.not_false, if_pos rfl, hline hagree (by omega)]
      rfl

/-- The lines of a file that are read alike. -/
theorem linesLoop_of_agree (hlines : sourceLines bound f = .ok lines)
    (h : LinesAgree ccommOpen lines) :
  linesLoop bound ccommOpen f = .ok (cReadLines ccommOpen lines)
  := by
  induction bound generalizing f lines ccommOpen with
  | zero => cases hlines
  | succ bound ih =>
    rw [sourceLines] at hlines
    rw [linesLoop]
    cases hread : readLine (f.length + 1) [] f with
    | error e => simp [hread] at hlines
    | ok r =>
      rw [hread, ok_bind] at hlines
      rw [ok_bind]
      cases r with
      | none =>
        cases hlines
        rfl
      | some r =>
        obtain ⟨line, rest⟩ := r
        simp only at hlines ⊢
        cases hmore : sourceLines bound rest with
        | error e => simp [hmore] at hlines
        | ok more =>
          simp only [hmore, ok_bind] at hlines
          obtain rfl := Except.ok.inj hlines
          obtain ⟨hline, hrest⟩ := h
          rw [commentLine_of_agrees hline, ok_bind, ih hmore hrest]
          rfl

theorem length_takeLine_le (n : Nat) (f : List UInt8) :
  (takeLine n f).2.length ≤ f.length
  := by
  induction n generalizing f with
  | zero => exact le_rfl
  | succ n ih =>
    cases f with
    | nil => exact le_rfl
    | cons c f =>
      rw [takeLine, List.length_cons]
      split
      · exact Nat.le_succ _
      · exact (ih f).trans (Nat.le_succ _)

/-- A part of the file is read, if there is room for a byte. -/
theorem length_fgets_lt {size : Nat} {res rest : List UInt8} (hsize : 2 ≤ size)
    (h : fgets size f = some (res, rest)) :
  rest.length < f.length
  := by
  rw [fgets] at h
  split at h
  · cases h
  · next hf =>
    obtain ⟨c, f, rfl⟩ := List.exists_cons_of_ne_nil hf
    obtain ⟨n, hn⟩ := Nat.exists_eq_succ_of_ne_zero (show size - 1 ≠ 0 by omega)
    have hrest := congrArg Prod.snd (Option.some.inj h)
    rw [hn, takeLine] at hrest
    change _ = rest at hrest
    rw [← hrest, List.length_cons]
    split
    · exact Nat.lt_succ_self _
    · exact Nat.lt_succ_of_le (length_takeLine_le n f)

/-- A line is read within the bound, unless it is too long. -/
theorem readLine_total (hline : line.length < sizeofLine - 2) (hbound : f.length < bound) :
  readLine bound line f = .error .tooLong ∨ readLine bound line f = .ok none
    ∨ ∃ line' rest, readLine bound line f = .ok (some (line', rest)) ∧ rest.length < f.length
  := by
  induction bound generalizing line f with
  | zero => omega
  | succ bound ih =>
    rw [readLine]
    cases hget : fgets (sizeofLine - line.length - 1) f with
    | none => exact .inr (.inl rfl)
    | some r =>
      obtain ⟨res, rest⟩ := r
      have hlt := length_fgets_lt (by omega) hget
      simp only
      generalize continueLine line (bufferString res).bytes = whole
      split
      · exact .inl rfl
      · next hlong =>
        have htrim : (trimSpaces whole).length ≤ whole.length :=
          (List.rdropWhile_prefix isspace _).length_le.trans
            (List.dropWhile_sublist isspace).length_le
        split
        · obtain h | h | ⟨line', rest', h, hlt'⟩ := @ih (trimSpaces whole).dropLast rest
            (by rw [List.length_dropLast]; omega) (by omega)
          · exact .inl h
          · exact .inr (.inl h)
          · exact .inr (.inr ⟨line', rest', h, hlt'.trans hlt⟩)
        · exact .inr (.inr ⟨_, _, rfl, hlt⟩)

/-- The lines of a file are read within the bound, unless one is too long. -/
theorem sourceLines_total (hbound : f.length < bound) :
  sourceLines bound f = .error .tooLong ∨ ∃ lines, sourceLines bound f = .ok lines
  := by
  induction bound generalizing f with
  | zero => omega
  | succ bound ih =>
    rw [sourceLines]
    obtain h | h | ⟨line, rest, h, hlt⟩ := @readLine_total [] f
        (f.length + 1) (by decide) (Nat.lt_succ_self _)
    · rw [h]
      exact .inl rfl
    · rw [h]
      exact .inr ⟨[], rfl⟩
    · rw [h, ok_bind]
      simp only
      obtain hmore | ⟨lines, hmore⟩ := ih (f := rest) (by omega)
      · rw [hmore]
        exact .inl rfl
      · rw [hmore]
        exact .inr ⟨line :: lines, rfl⟩

/-- Where every line is read alike, what is kept of a source file is what C has of it. -/
theorem velyGenCCodeLines_of_agree (hlines : sourceLines (f.length + 1) f = .ok lines)
    (h : LinesAgree false lines) :
  velyGenCCodeLines f = cRead lines
  := by
  rw [velyGenCCodeLines, linesLoop_of_agree hlines h, ok_bind, cRead]
  rfl

end Lines

/-- A comment on a line, one up to its end, and one over two lines. -/
theorem velyGenCCodeLines_three :
  velyGenCCodeLines (ascii "a /* b */ \"//\" // c\nd /* e\nf */ g\n")
    = cRead [ascii "a /* b */ \"//\" // c", ascii "d /* e", ascii "f */ g"]
  := by
  have hfirst : Agrees (ascii "a /* b */ \"//\" // c") := by
    apply Agrees.closed (q := 3) ⟨⟨by decide +kernel, by decide +kernel⟩, by decide +kernel,
      by decide +kernel, by decide +kernel⟩ (by decide +kernel) (by decide +kernel)
      (by decide +kernel)
    exact Agrees.line ⟨⟨by decide +kernel, by decide +kernel⟩, by decide +kernel,
      by decide +kernel, by decide +kernel⟩ (by decide +kernel)
  have hsecond : Agrees (ascii "d /* e") :=
    Agrees.unclosed ⟨⟨by decide +kernel, by decide +kernel⟩, by decide +kernel, by decide +kernel,
      by decide +kernel⟩ (by decide +kernel) (by decide +kernel)
  have hthird : Agrees (ascii " g") :=
    Agrees.code (by decide +kernel) ⟨by decide +kernel, by decide +kernel⟩
  have hopen : (cReadLine false (ascii "a /* b */ \"//\" // c")).2 = false := by
    decide +kernel
  have hopen' : (cReadLine false (ascii "d /* e")).2 = true := by
    decide +kernel
  apply velyGenCCodeLines_of_agree (by decide +kernel)
  refine ⟨.inr hfirst, ?_, ?_, trivial⟩
  · rw [hopen]
    exact .inr hsecond
  · rw [hopen, hopen']
    intro q hq
    obtain rfl : q = 2 := by
      have h : strstr (ascii "f */ g") closeMark = some 2 := by decide +kernel
      exact Option.some.inj (hq.symm.trans h)
    exact ⟨by decide +kernel, hthird⟩

/-- A quote in a comment hides its end marker. -/
theorem not_velyGenCCodeLines_quote :
  ¬ ∀ {f : List UInt8} {lines : List (List UInt8)}, sourceLines (f.length + 1) f = .ok lines →
      velyGenCCodeLines f = cRead lines
  := by
  intro h
  have hlines : sourceLines ((ascii "/* \" */ a\n").length + 1) (ascii "/* \" */ a\n")
      = .ok [ascii "/* \" */ a"] := by decide +kernel
  have hcode : velyGenCCodeLines (ascii "/* \" */ a\n") = .error .unclosed := by decide +kernel
  have hc : cRead [ascii "/* \" */ a"] = .ok [ascii "        a"] := by
    decide +kernel
  have heq := h hlines
  rw [hcode, hc] at heq
  cases heq

end V1

end Vely
