import Vely.V1.Orders

/-!
# Expressions of C

The text of an expression is read as C reads it: strings and character constants, with their
escapes, and parentheses outside of them.  Where no string ends with an escaped backslash, and no
character constant holds a quote or a parenthesis, what is counted agrees with that, so that
keywords inside strings and parentheses are not seen.
-/

namespace Vely

namespace V1

/-- What a byte of an expression is in. -/
inductive Lex where
  | code
  | string
  | stringEscape
  | char
  | charEscape
  deriving DecidableEq

/-- The reader after a byte, and how many parentheses are open. -/
def Lex.next : Lex × Int → UInt8 → Lex × Int
  | (.code, d), c =>
    if c = 34 then (.string, d)
    else if c = 39 then (.char, d)
    else if c = 40 then (.code, d + 1)
    else if c = 41 then (.code, d - 1)
    else (.code, d)
  | (.string, d), c => if c = 92 then (.stringEscape, d) else if c = 34 then (.code, d) else (.string, d)
  | (.stringEscape, d), _ => (.string, d)
  | (.char, d), c => if c = 92 then (.charEscape, d) else if c = 39 then (.code, d) else (.char, d)
  | (.charEscape, d), _ => (.char, d)

/-- The reader after a text. -/
def Lex.all (l : Lex × Int) (s : List UInt8) : Lex × Int := s.foldl Lex.next l

/-- Outside of strings and parentheses. -/
def Lex.Outside (l : Lex × Int) : Prop := l.1 ≠ .string ∧ l.1 ≠ .stringEscape ∧ l.2 = 0

/-- A byte after which what is counted agrees with the reader: no backslash in the code, no quote
that ends a string after a backslash, and no quote or parenthesis in a character constant. -/
def Lex.tame (l : Lex) (before : Option UInt8) (c : UInt8) : Bool :=
  match l with
  | .code => c ≠ 92
  | .string => c ≠ 34 || before ≠ some 92
  | .stringEscape => true
  | .char => c ≠ 34 && c ≠ 40 && c ≠ 41
  | .charEscape => c ≠ 40 && c ≠ 41

/-- A text of such bytes. -/
def Lex.Tame : Lex × Int → Option UInt8 → List UInt8 → Prop
  | _, _, [] => True
  | l, before, c :: s => Lex.tame l.1 before c = true ∧ Lex.Tame (Lex.next l c) (some c) s

/-- An expression: it is tame, and ends outside of strings, character constants and parentheses. -/
def Expression (s : List UInt8) : Prop :=
  Lex.Tame (.code, 0) none s ∧ Lex.all (.code, 0) s = (.code, 0)

section Reading

variable {l : Lex × Int} {b b' : Option UInt8} {n : Count} {c : UInt8} {s t : List UInt8}

/-- What is counted agrees with the reader. -/
structure Agree (l : Lex × Int) (before : Option UInt8) (n : Count) : Prop where
  within : n.within = true ↔ l.1 = .string ∨ l.1 = .stringEscape
  parens : (n.left : Int) - n.right = l.2
  escape : l.1 = .stringEscape ∨ l.1 = .charEscape → before = some 92
  code : l.1 = .code → before ≠ some 92

theorem Agree.outside_iff (h : Agree l b n) :
  n.outside = true ↔ Lex.Outside l
  := by
  obtain ⟨hwithin, hparens, -, -⟩ := h
  simp only [Count.outside, Bool.and_eq_true, Bool.not_eq_true', decide_eq_true_eq, Lex.Outside]
  rw [← Bool.not_eq_true, hwithin, not_or, and_assoc]
  constructor
  · rintro ⟨h₁, h₂, h₃⟩
    exact ⟨h₁, h₂, by omega⟩
  · rintro ⟨h₁, h₂, h₃⟩
    exact ⟨h₁, h₂, by omega⟩

/-- A count after a quote that is counted. -/
theorem Count.next_quote (hb : b ≠ some 92) :
  n.next true b 34 = { n with quotes := n.quotes + 1 }
  := by
  simp [Count.next, hb]

/-- A count after a quote that is escaped. -/
theorem Count.next_escaped :
  n.next true (some 92) 34 = n
  := by
  simp [Count.next]

/-- A count after a byte that is not a quote, inside of a string. -/
theorem Count.next_within (hc : c ≠ 34) (hn : n.within = true) :
  n.next true b c = n
  := by
  simp [Count.next, hc, hn]

/-- A count after a byte that is neither a quote nor a parenthesis. -/
theorem Count.next_other (hquote : c ≠ 34) (hleft : c ≠ 40) (hright : c ≠ 41) :
  n.next true b c = n
  := by
  simp [Count.next, hquote, hleft, hright]

theorem Count.within_succ :
  ({ n with quotes := n.quotes + 1 } : Count).within = !n.within
  := by
  unfold Count.within
  rw [Bool.eq_iff_iff]
  simp only [decide_eq_true_eq, Bool.not_eq_true', decide_eq_false_iff_not]
  omega

/-- A tame byte keeps the agreement. -/
theorem Agree.next (h : Agree l b n) (htame : Lex.tame l.1 b c = true) :
  Agree (Lex.next l c) (some c) (n.next true b c)
  := by
  obtain ⟨x, d⟩ := l
  obtain ⟨hwithin, hparens, hescape, hcode⟩ := h
  cases x with
  | code =>
    have hout : n.within = false := by
      rw [← Bool.not_eq_true, hwithin]
      simp
    have hb := hcode rfl
    have hc : c ≠ 92 := by simpa [Lex.tame] using htame
    have hsome : some c ≠ some 92 := fun h => hc (Option.some.inj h)
    simp only [Lex.next]
    split
    · next hquote =>
      rw [hquote, Count.next_quote hb]
      exact ⟨by simp [Count.within_succ, hout], hparens, by simp, by simp⟩
    · next hquote =>
      split
      · next hchar =>
        rw [Count.next_other hquote (by simp [hchar]) (by simp [hchar])]
        exact ⟨by simp [hout], hparens, by simp, by simp⟩
      · next hchar =>
        split
        · next hleft =>
          have hn : n.next true b c = { n with left := n.left + 1 } := by
            simp [Count.next, hleft, hout]
          rw [hn]
          have hpar : ((n.left + 1 : Nat) : Int) - n.right = d + 1 := by
            simp only at hparens
            omega
          exact ⟨by simpa [Count.within] using hout, hpar, by simp, fun _ => hsome⟩
        · next hleft =>
          split
          · next hright =>
            have hn : n.next true b c = { n with right := n.right + 1 } := by
              simp [Count.next, hright, hout]
            rw [hn]
            have hpar : (n.left : Int) - (n.right + 1 : Nat) = d - 1 := by
              simp only at hparens
              omega
            exact ⟨by simpa [Count.within] using hout, hpar, by simp, fun _ => hsome⟩
          · next hright =>
            rw [Count.next_other hquote hleft hright]
            exact ⟨by simp [hout], hparens, by simp, fun _ => hsome⟩
  | string =>
    have hin : n.within = true := hwithin.mpr (Or.inl rfl)
    simp only [Lex.next]
    split
    · next hback =>
      rw [Count.next_within (by simp [hback]) hin]
      exact ⟨by simp [hin], hparens, by simp [hback], by simp⟩
    · next hback =>
      split
      · next hquote =>
        have hb : b ≠ some 92 := by simpa [Lex.tame, hquote] using htame
        rw [hquote, Count.next_quote hb]
        exact ⟨by simp [Count.within_succ, hin], hparens, by simp, by simp⟩
      · next hquote =>
        rw [Count.next_within hquote hin]
        exact ⟨by simp [hin], hparens, by simp, by simp⟩
  | stringEscape =>
    have hin : n.within = true := hwithin.mpr (Or.inr rfl)
    have hn : n.next true b c = n := by
      by_cases hquote : c = 34
      · rw [hquote, hescape (Or.inl rfl), Count.next_escaped]
      · exact Count.next_within hquote hin
    rw [hn]
    exact ⟨by simp [hin, Lex.next], hparens, by simp [Lex.next], by simp [Lex.next]⟩
  | char =>
    have hout : n.within = false := by
      rw [← Bool.not_eq_true, hwithin]
      simp
    simp only [Lex.tame, Bool.and_eq_true, decide_eq_true_eq] at htame
    rw [Count.next_other htame.1.1 htame.1.2 htame.2]
    simp only [Lex.next]
    split
    · next hback => exact ⟨by simp [hout], hparens, by simp [hback], by simp⟩
    · next hback =>
      have hsome : some c ≠ some 92 := fun h => hback (Option.some.inj h)
      split
      · exact ⟨by simp [hout], hparens, by simp, fun _ => hsome⟩
      · exact ⟨by simp [hout], hparens, by simp, by simp⟩
  | charEscape =>
    have hout : n.within = false := by
      rw [← Bool.not_eq_true, hwithin]
      simp
    simp only [Lex.tame, Bool.and_eq_true, decide_eq_true_eq] at htame
    have hn : n.next true b c = n := by
      by_cases hquote : c = 34
      · rw [hquote, hescape (Or.inr rfl), Count.next_escaped]
      · exact Count.next_other hquote htame.1 htame.2
    rw [hn]
    exact ⟨by simp [hout, Lex.next], hparens, by simp [Lex.next], by simp [Lex.next]⟩

/-- A tame text keeps the agreement. -/
theorem Agree.all (h : Agree l b n) (htame : Lex.Tame l b s) :
  ∃ b', Agree (Lex.all l s) b' (n.all true b s)
  := by
  induction s generalizing l b n with
  | nil => exact ⟨b, h⟩
  | cons c s ih => exact ih (h.next htame.1) htame.2

theorem agree_zero :
  Agree (.code, 0) none Count.zero
  := by
  use by decide, rfl, by simp, by simp

theorem Lex.Tame.take (h : Lex.Tame l b s) (p : Nat) :
  Lex.Tame l b (s.take p)
  := by
  induction s generalizing l b p with
  | nil =>
    rw [List.take_nil]
    exact h
  | cons c s ih =>
    cases p with
    | zero => trivial
    | succ p => exact ⟨h.1, ih h.2 p⟩

/-- The part of a tame text before a place is closed when the place is outside of strings and
parentheses. -/
theorem closed_take_iff (h : Lex.Tame (.code, 0) none s) (p : Nat) :
  Closed (s.take p) ↔ Lex.Outside (Lex.all (.code, 0) (s.take p))
  := by
  obtain ⟨b', hagree⟩ := agree_zero.all (h.take p)
  exact hagree.outside_iff

theorem Expression.closed (h : Expression s) :
  Closed s
  := by
  have hiff := closed_take_iff h.1 s.length
  rw [List.take_length, h.2] at hiff
  apply hiff.mpr
  exact ⟨by decide, by decide, rfl⟩

/-! ## Keywords outside of strings and parentheses -/

/-- What is before code does not matter. -/
theorem Lex.Tame.before {d : Int} (h : Lex.Tame (.code, d) b s) (b' : Option UInt8) :
  Lex.Tame (.code, d) b' s
  := by
  cases s with
  | nil => trivial
  | cons c s => exact h

theorem Lex.next_plain {d : Int} (h : plain c = true) :
  Lex.next (.code, d) c = (.code, d)
  := by
  simp only [plain, Bool.and_eq_true, decide_eq_true_eq] at h
  simp [Lex.next, h.1.1.1.1, h.1.1.1.2, h.1.1.2, h.1.2]

theorem Lex.all_plain {d : Int} (h : ∀ c ∈ s, plain c = true) :
  Lex.all (.code, d) (s ++ t) = Lex.all (.code, d) t
  := by
  induction s with
  | nil => rfl
  | cons c s ih =>
    rw [List.cons_append, Lex.all, List.foldl_cons, Lex.next_plain (h c List.mem_cons_self)]
    apply ih
    intro e he
    exact h e (List.mem_cons_of_mem _ he)

/-- Plain bytes before and a blank after keep a text tame. -/
theorem Lex.Tame.plain_append (hs : ∀ c ∈ s, plain c = true) (ht : Lex.Tame (.code, 0) none t) :
  Lex.Tame (.code, 0) b (s ++ t)
  := by
  induction s generalizing b with
  | nil => exact ht.before b
  | cons c s ih =>
    have hc := hs c List.mem_cons_self
    constructor
    · simp only [plain, Bool.and_eq_true, decide_eq_true_eq] at hc
      simp [Lex.tame, hc.2]
    · rw [Lex.next_plain hc]
      apply ih
      intro e he
      exact hs e (List.mem_cons_of_mem _ he)

theorem Lex.Tame.append_blank (h : Lex.Tame l b s) (hend : (Lex.all l s).1 = .code) :
  Lex.Tame l b (s ++ [32])
  := by
  induction s generalizing l b with
  | nil =>
    constructor
    · change l.1 = .code at hend
      rw [hend]
      rfl
    · trivial
  | cons c s ih => exact ⟨h.1, ih h.2 hend⟩

/-- The keyword `find` stands at `p`, outside of strings and parentheses, with blanks around it
where they are asked for. -/
structure Stands (str find : List UInt8) (hasSpaces : Bool) (p : Nat) : Prop where
  starts : find <+: str.drop p
  before : hasSpaces = true → p ≠ 0 → charAt str (p - 1) = 0 ∨ charAt str (p - 1) = 32
  after : hasSpaces = true → charAt str (p + find.length - 1) = 32 ∨ charAt str (p + find.length) = 0
    ∨ charAt str (p + find.length) = 32
  outside : Lex.Outside (Lex.all (.code, 0) (str.take p))

/-- In a tame text, a keyword is seen where it stands. -/
theorem seen_iff_stands {str find : List UInt8} {hasSpaces : Bool} {p : Nat}
    (h : Lex.Tame (.code, 0) none str) :
  Seen str find hasSpaces p ↔ Stands str find hasSpaces p
  := by
  constructor
  · rintro ⟨h₁, h₂, h₃, h₄⟩
    exact ⟨h₁, h₂, h₃, (closed_take_iff h p).mp h₄⟩
  · rintro ⟨h₁, h₂, h₃, h₄⟩
    exact ⟨h₁, h₂, h₃, (closed_take_iff h p).mpr h₄⟩

end Reading

namespace Written

variable {s : Written}

theorem tame_gap {x y : List UInt8} (hx : ∀ c ∈ x, plain c = true) (hy : Expression y) (follows : Bool) :
  Lex.Tame (.code, 0) none (x ++ y ++ gap follows)
  := by
  unfold gap
  have htame : Lex.Tame (.code, 0) none (x ++ y) := Lex.Tame.plain_append hx hy.1
  split
  · apply htame.append_blank
    rw [Lex.all_plain hx, hy.2]
  · rwa [List.append_nil]

/-- A statement whose object and values are expressions is separate when no keyword and no `>>`
stands in them outside of strings and parentheses. -/
theorem separate_of_expressions (hobj : Expression s.obj)
    (hvalues : ∀ c ∈ s.clauses, Expression c.value)
    (hendObj : ∀ q, ¬ Stands s.head inlineEnd false q)
    (hend : ∀ c ∈ s.clauses, ∀ q, ¬ Stands c.chunk inlineEnd false q)
    (hkeyObj : ∀ k ∈ s.keys, ∀ q, ¬ Stands (s.head ++ gap (0 < s.clauses.length)) k.bytes k.hasSpaces q)
    (hkey : ∀ k ∈ s.keys, ∀ c ∈ s.clauses, c.key.bytes ≠ k.bytes →
      ∀ q, ¬ Stands (c.chunk ++ gap (1 < s.clauses.length)) k.bytes k.hasSpaces q) :
  s.Separate
  := by
  have hhead : ∀ follows, Lex.Tame (.code, 0) none (s.head ++ gap follows) :=
    fun follows => tame_gap (x := [32]) (by decide +kernel) hobj follows
  have hchunk : ∀ c ∈ s.clauses, ∀ follows, Lex.Tame (.code, 0) none (c.chunk ++ gap follows) := by
    intro c hc follows
    apply tame_gap (x := 32 :: c.key.bytes) _ (hvalues c hc)
    intro d hd
    obtain rfl | hd := List.mem_cons.mp hd
    · decide
    · exact (c.key.isPlain d hd).1
  have hgap : ∀ {x : List UInt8}, x ++ gap false = x := List.append_nil _
  constructor
  · exact hobj.closed
  · intro c hc
    exact (hvalues c hc).closed
  · intro q hq
    have htame := hhead false
    rw [hgap] at htame
    exact hendObj q ((seen_iff_stands htame).mp hq)
  · intro c hc q hq
    have htame := hchunk c hc false
    rw [hgap] at htame
    exact hend c hc q ((seen_iff_stands htame).mp hq)
  · intro k hk q hq
    exact hkeyObj k hk q ((seen_iff_stands (hhead _)).mp hq)
  · intro k hk c hc hne q hq
    exact hkey k hk c hc hne q ((seen_iff_stands (hchunk c hc _)).mp hq)

end Written

end V1

end Vely
