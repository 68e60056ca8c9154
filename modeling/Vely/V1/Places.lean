import Vely.V1.Clauses

/-!
# The places of the clauses

A statement is recognized up to its end, and each of its clauses is found at its place, in every
order of the clauses, exactly when the object and the values are separate.
-/

namespace Vely

namespace V1

section Recognized

variable {s t find : List UInt8} {withinInline : Bool} {q e : Nat}

/-- What is seen of a word without a blank is seen also when no blank follows. -/
theorem seen_of_append_blank (hfind : find ≠ []) (hblank : 32 ∉ find)
    (h : Seen (s ++ [32]) find false q) :
  Seen s find false q
  := by
  obtain ⟨h₁, -, -, h₄⟩ := h
  have hpos := List.length_pos_of_ne_nil hfind
  have hlen := h₁.length_le
  rw [List.length_drop, List.length_append, List.length_singleton] at hlen
  have hdrop : (s ++ [32]).drop q = s.drop q ++ [32] := List.drop_append_of_le_length (by omega)
  rw [hdrop] at h₁
  use ?_, fun h => absurd h (by decide), fun h => absurd h (by decide)
  · rwa [List.take_append_of_le_length (by omega)] at h₄
  · obtain h | h := List.prefix_concat_iff.mp h₁
    · rw [h] at hblank
      simp at hblank
    · exact h

/-- What is seen of `>>` before the end of a text is seen in the text, if that does not end with
`>`. -/
theorem seen_end_iff (hended : Ended s) (hq : q < s.length) :
  Seen (s ++ (inlineEnd ++ t)) inlineEnd false q ↔ Seen s inlineEnd false q
  := by
  have hdrop : (s ++ (inlineEnd ++ t)).drop q = s.drop q ++ (inlineEnd ++ t) :=
    List.drop_append_of_le_length hq.le
  have htake : (s ++ (inlineEnd ++ t)).take q = s.take q := List.take_append_of_le_length hq.le
  have hiff : inlineEnd <+: s.drop q ++ (inlineEnd ++ t) ↔ inlineEnd <+: s.drop q := by
    constructor
    · intro h
      by_cases hlen : inlineEnd.length ≤ (s.drop q).length
      · exact List.prefix_of_prefix_length_le h (List.prefix_append _ _) hlen
      · have hone : (s.drop q).length = 1 := by
          simp only [List.length_drop, inlineEnd, List.length_cons, List.length_nil] at hlen ⊢
          omega
        obtain ⟨c, hc⟩ := List.length_eq_one_iff.mp hone
        rw [hc] at h
        obtain ⟨u, hu⟩ := h
        have hlast : s.getLast? = some c := by
          rw [← List.take_append_drop q s, hc]
          simp
        exact absurd (List.cons.inj hu).1.symm (hended c hlast).2
    · intro h
      exact h.trans (List.prefix_append _ _)
  constructor
  · rintro ⟨h₁, h₂, h₃, h₄⟩
    rw [hdrop, hiff] at h₁
    rw [htake] at h₄
    exact ⟨h₁, fun h => absurd h (by decide), fun h => absurd h (by decide), h₄⟩
  · rintro ⟨h₁, h₂, h₃, h₄⟩
    use by rwa [hdrop, hiff], fun h => absurd h (by decide), fun h => absurd h (by decide)
    rwa [htake]

theorem inlineEnd_ne_nil :
  inlineEnd ≠ []
  := by decide

theorem findKeyword_inlineEnd {r : Option Nat} :
  findKeyword s inlineEnd false = .ok r ↔ FirstFrom (Seen s inlineEnd false) 0 r
  := findKeyword_iff inlineEnd_ne_nil (fun h => absurd h (by decide))

/-- A text with `>>` ends there. -/
theorem endOfText_of_some {p : Nat} (h : findKeyword s inlineEnd false = .ok (some p)) :
  endOfText withinInline s = if withinInline then .ok (p, true) else .error .noInline
  := by
  rw [endOfText, h]
  rfl

/-- A text without `>>` ends where nothing is looked for, or with the line. -/
theorem endOfText_of_none (h : findKeyword s inlineEnd false = .ok none) :
  endOfText withinInline s = (findKeyword s [] false).map (fun r => (r.getD s.length, false))
  := by
  rw [endOfText, h]
  cases findKeyword s [] false with
  | error err => rfl
  | ok r =>
    cases r with
    | none => rfl
    | some p => rfl

/-- A text ends with the first `>>` that is seen. -/
theorem endOfText_inline :
  endOfText withinInline s = .ok (e, true) ↔
    withinInline = true ∧ FirstFrom (Seen s inlineEnd false) 0 (some e)
  := by
  obtain ⟨r, hr⟩ := @findKeyword_ok inlineEnd s false inlineEnd_ne_nil
  have hfirst := findKeyword_inlineEnd.mp hr
  cases r with
  | none =>
    rw [endOfText_of_none hr]
    constructor
    · intro h
      cases hn : findKeyword s [] false with
      | error err =>
        rw [hn] at h
        cases h
      | ok r =>
        rw [hn] at h
        cases h
    · rintro ⟨_, h⟩
      exact absurd h.2.1 (hfirst e h.1)
  | some p =>
    rw [endOfText_of_some hr]
    cases withinInline with
    | false =>
      constructor
      · intro h
        cases h
      · intro h
        cases h.1
    | true =>
      constructor
      · intro h
        cases h
        exact ⟨rfl, hfirst⟩
      · rintro ⟨_, h⟩
        cases hfirst.unique h
        rfl

/-- A text without `>>` ends with the line, and is closed. -/
theorem endOfText_line :
  endOfText withinInline s = .ok (e, false) ↔
    FirstFrom (Seen s inlineEnd false) 0 none ∧ Closed s ∧ e = s.length
  := by
  obtain ⟨r, hr⟩ := @findKeyword_ok inlineEnd s false inlineEnd_ne_nil
  have hfirst := findKeyword_inlineEnd.mp hr
  cases r with
  | none =>
    rw [endOfText_of_none hr]
    constructor
    · intro h
      cases hn : findKeyword s [] false with
      | error err =>
        rw [hn] at h
        cases h
      | ok r =>
        obtain ⟨hclosed, rfl⟩ := findKeyword_nil.mp hn
        rw [hn] at h
        cases h
        exact ⟨hfirst, hclosed, rfl⟩
    · rintro ⟨_, hclosed, he⟩
      rw [findKeyword_nil.mpr ⟨hclosed, rfl⟩, he]
      rfl
  | some p =>
    rw [endOfText_of_some hr]
    constructor
    · intro h
      cases withinInline with
      | false => cases h
      | true => cases h
    · rintro ⟨h, _⟩
      exact absurd hfirst.2.1 (h p (Nat.zero_le p))

end Recognized

namespace Written

variable {s : Written} {cs : List Clause} {c : Clause} {k : Key}

theorem ended_chunks (h : chunks cs ≠ []) :
  ∃ c ∈ (chunks cs).getLast?, c ≠ 59 ∧ c ≠ 62
  := by
  induction cs with
  | nil => exact absurd rfl h
  | cons c cs ih =>
    rw [chunks_cons, List.getLast?_append]
    by_cases hcs : chunks cs = []
    · rw [hcs, List.getLast?_nil, Option.none_or, Clause.chunk, List.getLast?_append]
      cases hv : c.value.getLast? with
      | some d => exact ⟨d, rfl, c.ended d hv⟩
      | none =>
        rw [Option.none_or, List.getLast?_cons]
        use c.key.bytes.getLast?.getD 32, rfl
        cases hb : c.key.bytes.getLast? with
        | none => decide
        | some d =>
          have hplain := c.key.isPlain d (List.mem_of_getLast? hb)
          exact ⟨hplain.2.2.1, hplain.2.2.2⟩
    · obtain ⟨d, hd, hends⟩ := ih hcs
      use d
      rw [Option.mem_def] at hd ⊢
      rw [hd]
      exact ⟨rfl, hends⟩

theorem ended_text :
  Ended (s.text cs)
  := by
  intro d hd
  rw [text, List.getLast?_append] at hd
  by_cases hcs : chunks cs = []
  · rw [hcs, List.getLast?_nil, Option.none_or, head, List.getLast?_cons] at hd
    cases ho : s.obj.getLast? with
    | none =>
      rw [ho] at hd
      cases hd
      decide
    | some d' =>
      rw [ho] at hd
      cases hd
      exact s.objEnded d' ho
  · obtain ⟨d', hd', hends⟩ := ended_chunks hcs
    rw [Option.mem_def] at hd hd'
    rw [hd', Option.some_or] at hd
    cases hd
    exact hends

/-- A statement is recognized when its text ends where it is written to end. -/
theorem recognized_iff :
  recogStatement s.withinInline (s.line cs) s.name false =
      .ok (s.withinInline && s.rest.isNone,
        some ⟨s.text cs, s.rest.isSome, s.name.length + (s.text cs).length + 1⟩)
    ↔ endOfText s.withinInline (s.text cs ++ s.tail) = .ok ((s.text cs).length, s.rest.isSome)
  := by
  have hdrop : (s.line cs).drop s.name.length = s.text cs ++ s.tail := List.drop_left
  have hblank : charAt (s.line cs) s.name.length = 32 := by
    rw [line, charAt_length]
    rfl
  have hpre : s.name.isPrefixOf (s.line cs) = true := by
    rw [List.isPrefixOf_iff_prefix]
    exact List.prefix_append _ _
  have hnone : (!s.rest.isSome) = s.rest.isNone := by
    cases s.rest with
    | none => rfl
    | some r => rfl
  rw [recogStatement, if_pos hpre, if_neg (by decide), recogText, hdrop, hblank]
  constructor
  · intro h
    cases he : endOfText s.withinInline (s.text cs ++ s.tail) with
    | error err =>
      rw [he] at h
      cases h
    | ok r =>
      obtain ⟨e, i⟩ := r
      rw [he] at h
      change (if s.name ≠ [46] ∧ ((s.text cs ++ s.tail).take e).getLast? = some 59 then
          throw TextError.semicolon
        else if (32 : UInt8) ≠ 32 ∧ s.name ≠ [46] then _ else _) = _ at h
      split at h
      · cases h
      · rw [if_neg (by simp)] at h
        have hrec := Option.some.inj (Prod.mk.inj (Except.ok.inj h)).2
        obtain ⟨-, hi, hnext⟩ := Recog.mk.inj hrec
        rw [hi, show e = (s.text cs).length by omega]
  · intro h
    rw [h]
    change (if s.name ≠ [46] ∧ ((s.text cs ++ s.tail).take (s.text cs).length).getLast? = some 59 then
        throw TextError.semicolon
      else if (32 : UInt8) ≠ 32 ∧ s.name ≠ [46] then _ else _) = _
    rw [List.take_left, if_neg, if_neg (by simp), ← hnone]
    · rfl
    · rintro ⟨_, hlast⟩
      exact (ended_text 59 hlast).1 rfl

/-- The text of a statement is closed, and `>>` is not seen in it. -/
theorem endOfText_iff :
  endOfText s.withinInline (s.text cs ++ s.tail) = .ok ((s.text cs).length, s.rest.isSome) ↔
    Closed (s.text cs) ∧ ∀ q, ¬ Seen (s.text cs) inlineEnd false q
  := by
  have hlength : ∀ q, Seen (s.text cs) inlineEnd false q → q < (s.text cs).length := by
    intro q hseen
    have hlen := hseen.starts.length_le
    simp only [inlineEnd, List.length_cons, List.length_nil, List.length_drop] at hlen
    omega
  have hinline := s.inline
  unfold tail
  cases hrest : s.rest with
  | none =>
    rw [List.append_nil, Option.isSome_none, endOfText_line]
    constructor
    · rintro ⟨hno, hclosed, _⟩
      exact ⟨hclosed, fun q => hno q (Nat.zero_le q)⟩
    · rintro ⟨hclosed, hno⟩
      exact ⟨fun q _ => hno q, hclosed, rfl⟩
  | some more =>
    rw [hrest] at hinline
    rw [Option.isSome_some, endOfText_inline]
    constructor
    · rintro ⟨_, hfirst⟩
      obtain ⟨-, hseen, hno⟩ := hfirst
      have hclosed := hseen.closed
      rw [List.take_left] at hclosed
      use hclosed
      intro q hq
      have hlt := hlength q hq
      exact hno q (Nat.zero_le q) hlt ((seen_end_iff ended_text hlt).mpr hq)
    · rintro ⟨hclosed, hno⟩
      use hinline rfl, Nat.zero_le _
      constructor
      · use ?_, fun h => absurd h (by decide), fun h => absurd h (by decide)
        · rwa [List.take_left]
        · rw [List.drop_left]
          exact List.prefix_append _ _
      · intro q _ hlt hseen
        exact hno q ((seen_end_iff ended_text hlt).mp hseen)

/-- The keywords are found at the places where they are first seen. -/
theorem found_iff {str : List UInt8} {ks : List Key} {f : Key → Option Nat} :
  findAll str (ks.map Key.toKeyword) = .ok (ks.map f) ↔
    ∀ k ∈ ks, FirstFrom (Seen str k.bytes k.hasSpaces) 0 (f k)
  := by
  induction ks with
  | nil => simp [findAll]
  | cons k ks ih =>
    rw [List.map_cons, findAll, List.map_cons, List.forall_mem_cons, ← ih,
      ← findKeyword_iff k.nonempty k.apart]
    constructor
    · intro h
      cases hk : findKeyword str k.bytes k.hasSpaces with
      | error e =>
        rw [hk] at h
        cases h
      | ok r =>
        cases hks : findAll str (ks.map Key.toKeyword) with
        | error e =>
          rw [hk, hks] at h
          cases h
        | ok rs =>
          rw [hk, hks] at h
          have hcons := List.cons.inj (Except.ok.inj h)
          rw [hcons.1, hcons.2]
          exact ⟨rfl, rfl⟩
    · rintro ⟨hk, hks⟩
      rw [hk, hks]
      rfl

/-! ## Every order -/

theorem seen_le {str find : List UInt8} {hasSpaces : Bool} {q : Nat} (hfind : find ≠ [])
    (h : Seen str find hasSpaces q) :
  q < str.length
  := by
  have hpos := List.length_pos_of_ne_nil hfind
  have hlen := h.starts.length_le
  rw [List.length_drop] at hlen
  omega

/-- What is seen in a part is seen when others follow. -/
theorem seen_gap {str find t : List UInt8} {hasSpaces : Bool} {q : Nat} (hword : Word find)
    (ht : Blank t) {follows : Bool} (hfollows : follows = true ↔ t ≠ [])
    (h : Seen (str ++ gap follows) find hasSpaces q) :
  Seen (str ++ t) find hasSpaces q
  := by
  cases t with
  | nil =>
    cases follows with
    | false => exact h
    | true => exact absurd rfl (hfollows.mp rfl)
  | cons d t =>
    obtain rfl := ht d rfl
    cases follows with
    | false => exact absurd (hfollows.mpr (List.cons_ne_nil _ _)) (by decide)
    | true =>
      rw [hword.seen_append_left]
      · exact h
      · have hlt := seen_le hword.nonempty h
        rw [gap, if_pos rfl, List.length_append, List.length_singleton] at hlt
        omega

theorem word_inlineEnd :
  Word inlineEnd
  := by
  use by decide +kernel, by decide, by decide

/-- `>>` is not seen in two parts when it is in neither. -/
theorem not_seen_end_append {x t : List UInt8} (hx : Closed x) (ht : Blank t)
    (hnox : ∀ q, ¬ Seen x inlineEnd false q) (hnot : ∀ q, ¬ Seen t inlineEnd false q) (q : Nat) :
  ¬ Seen (x ++ t) inlineEnd false q
  := by
  cases t with
  | nil =>
    rw [List.append_nil]
    exact hnox q
  | cons d t =>
    obtain rfl := ht d rfl
    have hfirst : FirstFrom (Seen (x ++ 32 :: t) inlineEnd false) 0 (Option.map (x.length + ·) none) := by
      apply word_inlineEnd.first_pass hx
      · intro q h
        exact hnox q (seen_of_append_blank inlineEnd_ne_nil (by decide) h)
      · intro q _
        exact hnot q
    exact hfirst q (Nat.zero_le q)

/-- The text is closed, `>>` is not seen in it, and the keywords are first seen at their places. -/
structure Placed (s : Written) (cs : List Clause) : Prop where
  closed : Closed (s.text cs)
  noEnd : ∀ q, ¬ Seen (s.text cs) inlineEnd false q
  first : ∀ k ∈ s.keys,
    FirstFrom (Seen (s.text cs) k.bytes k.hasSpaces) 0 ((place k cs).map (s.head.length + ·))

theorem placed_iff :
  s.Placed cs ↔
    recogStatement s.withinInline (s.line cs) s.name false =
        .ok (s.withinInline && s.rest.isNone,
          some ⟨s.text cs, s.rest.isSome, s.name.length + (s.text cs).length + 1⟩)
      ∧ findAll (s.text cs) s.keywords = .ok (s.places cs)
  := by
  rw [recognized_iff, endOfText_iff, keywords, places, found_iff]
  constructor
  · rintro ⟨h₁, h₂, h₃⟩
    exact ⟨⟨h₁, h₂⟩, h₃⟩
  · rintro ⟨⟨h₁, h₂⟩, h₃⟩
    exact ⟨h₁, h₂, h₃⟩

section Separated

variable (hsep : s.Separate) (hperm : cs.Perm s.clauses)

include hsep hperm

theorem Separate.closed_chunks :
  Closed (chunks cs) ∧ ∀ q, ¬ Seen (chunks cs) inlineEnd false q
  := by
  have hmem : ∀ c ∈ cs, c ∈ s.clauses := fun c hc => hperm.mem_iff.mp hc
  clear hperm
  induction cs with
  | nil =>
    use closed_nil
    intro q h
    exact absurd (seen_le inlineEnd_ne_nil h) (Nat.not_lt_zero q)
  | cons c cs ih =>
    have hc := hmem c List.mem_cons_self
    have hclosed := closed_chunk.mpr (hsep.closed c hc)
    obtain ⟨hcs, hno⟩ := ih fun c hc => hmem c (List.mem_cons_of_mem _ hc)
    rw [chunks_cons]
    constructor
    · rwa [closed_append hclosed (blank_chunks cs)]
    · exact not_seen_end_append hclosed (blank_chunks cs) (hsep.noEnd c hc) hno

/-- Separate clauses are found in each order. -/
theorem Separate.placed :
  s.Placed cs
  := by
  have hhead := closed_head.mpr hsep.closedObj
  obtain ⟨hclosed, hno⟩ := hsep.closed_chunks hperm
  have hlength := hperm.length_eq
  constructor
  · rwa [text, closed_append hhead (blank_chunks cs)]
  · exact not_seen_end_append hhead (blank_chunks cs) hsep.noEndObj hno
  · intro k hk
    have hobj := hsep.noKeyObj k hk
    rw [← hlength] at hobj
    cases cs with
    | nil =>
      intro q _
      exact hobj q
    | cons d ds =>
      apply k.word.first_pass hhead
      · exact hobj
      · apply first_place
        · intro c hc
          exact hsep.closed c (hperm.mem_iff.mp hc)
        · intro c hc
          exact s.key_eq (hperm.mem_iff.mp hc) hk
        · intro c hc hne
          rw [hlength]
          exact hsep.noKey k hk c (hperm.mem_iff.mp hc) hne

end Separated

theorem place_pos {p : Nat} (h : place k cs = some p) :
  0 < p
  := by
  cases cs with
  | nil => cases h
  | cons c cs =>
    rw [place] at h
    split at h
    · cases h
      decide
    · obtain ⟨p', -, rfl⟩ := Option.map_eq_some_iff.mp h
      apply Nat.add_pos_left
      exact Nat.succ_pos _

/-- A keyword is not seen before its place. -/
theorem Placed.not_seen (h : s.Placed cs) (hk : k ∈ s.keys) {q : Nat}
    (hq : ∀ p, place k cs = some p → q < s.head.length + p) :
  ¬ Seen (s.text cs) k.bytes k.hasSpaces q
  := by
  have hfirst := h.first k hk
  cases hp : place k cs with
  | none =>
    rw [hp] at hfirst
    exact hfirst q (Nat.zero_le q)
  | some p =>
    rw [hp] at hfirst
    exact hfirst.2.2 q (Nat.zero_le q) (hq p hp)

/-- What is before the place of a clause is closed. -/
theorem Placed.closed_take (h : s.Placed cs) (hk : k ∈ s.keys) {p : Nat} (hp : place k cs = some p) :
  Closed (s.head ++ (chunks cs).take p)
  := by
  have hfirst := h.first k hk
  rw [hp] at hfirst
  have hclosed := hfirst.2.1.closed
  rwa [text, List.take_length_add_append] at hclosed

/-- A clause may be written as the first. -/
theorem exists_first (hc : c ∈ s.clauses) :
  ∃ rest, (c :: rest).Perm s.clauses
  := by
  obtain ⟨x, y, hxy⟩ := List.append_of_mem hc
  use x ++ y
  rw [hxy]
  exact List.perm_middle.symm

section Orders

variable (h : ∀ cs, cs.Perm s.clauses → s.Placed cs)

include h

theorem closedObj_of_placed :
  Closed s.head
  := by
  have hplaced := h s.clauses (List.Perm.refl _)
  cases hcs : s.clauses with
  | nil =>
    have hclosed := hplaced.closed
    rwa [text, hcs, chunks, List.flatMap_nil, List.append_nil] at hclosed
  | cons c cs =>
    have hmem : c ∈ s.clauses := by rw [hcs]; exact List.mem_cons_self
    have hplace : place c.key s.clauses = some 1 := by rw [hcs, place, if_pos rfl]
    have hclosed := hplaced.closed_take (s.known c hmem) hplace
    rw [hcs, chunks_cons, Clause.chunk, List.cons_append, List.cons_append, List.take_succ_cons,
      List.take_zero] at hclosed
    exact closed_append_blank.mp hclosed

theorem closed_of_placed (hc : c ∈ s.clauses) :
  Closed c.chunk
  := by
  have hhead := closedObj_of_placed h
  obtain ⟨rest, hperm⟩ := exists_first hc
  have hplaced := h _ hperm
  cases rest with
  | nil =>
    have hclosed := hplaced.closed
    rwa [text, closed_append hhead (blank_chunks _), chunks_cons, chunks, List.flatMap_nil,
      List.append_nil] at hclosed
  | cons d ds =>
    have hd : d ∈ s.clauses := hperm.mem_iff.mp (List.mem_cons_of_mem _ List.mem_cons_self)
    have hnodup := (hperm.map fun c => c.key.bytes).nodup_iff.mpr s.once
    have hne : c.key.bytes ≠ d.key.bytes := by
      simp only [List.map_cons, List.nodup_cons, List.mem_cons, not_or] at hnodup
      exact hnodup.1.1
    have hplace : place d.key (c :: d :: ds) = some (c.chunk.length + 1) := by
      rw [place, if_neg hne, place, if_pos rfl]
      rfl
    have hclosed := hplaced.closed_take (s.known d hd) hplace
    rw [closed_append hhead ((blank_chunks _).take _), chunks_cons, List.take_length_add_append, chunks_cons,
      Clause.chunk.eq_1 d, List.cons_append, List.cons_append, List.take_succ_cons, List.take_zero] at hclosed
    exact closed_append_blank.mp hclosed

/-- Clauses that are found in each order are separate. -/
theorem separate_of_placed :
  s.Separate
  := by
  have hhead := closedObj_of_placed h
  have hfollows : ∀ {c : Clause} {rest : List Clause}, (c :: rest).Perm s.clauses →
      (decide (1 < s.clauses.length) = true ↔ chunks rest ≠ []) := by
    intro c rest hperm
    rw [← hperm.length_eq]
    cases rest with
    | nil => simp [chunks]
    | cons d ds => simp [chunks, Clause.chunk]
  have hseen : ∀ {c : Clause} {rest : List Clause} {find : List UInt8} {hasSpaces : Bool} {q : Nat},
      (c :: rest).Perm s.clauses → Word find →
      Seen (c.chunk ++ gap (1 < s.clauses.length)) find hasSpaces q →
      Seen (s.text (c :: rest)) find hasSpaces (s.head.length + q) := by
    intro c rest find hasSpaces q hperm hword hq
    have hchunks := seen_gap hword (blank_chunks rest) (hfollows hperm) hq
    rw [text, seen_append_right hhead (blank_chunks _)]
    · exact hchunks
    · rintro rfl
      exact hword.not_seen_blank (s := []) hchunks
  constructor
  · exact closed_head.mp hhead
  · intro c hc
    exact closed_chunk.mp (closed_of_placed h hc)
  · intro q hq
    have hplaced := h s.clauses (List.Perm.refl _)
    apply hplaced.noEnd q
    have hfollows : decide (chunks s.clauses ≠ []) = true ↔ chunks s.clauses ≠ [] := decide_eq_true_iff
    apply seen_gap word_inlineEnd (blank_chunks _) hfollows
    · unfold gap
      split
      · exact hq.append_blank inlineEnd_ne_nil
      · rwa [List.append_nil]
  · intro c hc q hq
    obtain ⟨rest, hperm⟩ := exists_first hc
    apply (h _ hperm).noEnd (s.head.length + q)
    apply hseen hperm word_inlineEnd
    unfold gap
    split
    · exact hq.append_blank inlineEnd_ne_nil
    · rwa [List.append_nil]
  · intro k hk q hq
    have hlt : q ≤ s.head.length := by
      have hlen := seen_le k.nonempty hq
      unfold gap at hlen
      split at hlen
      · rw [List.length_append, List.length_singleton] at hlen
        omega
      · rw [List.append_nil] at hlen
        exact hlen.le
    apply (h s.clauses (List.Perm.refl _)).not_seen hk (q := q)
    · intro p hp
      have hpos := place_pos hp
      omega
    · apply seen_gap k.word (blank_chunks _) _ hq
      cases s.clauses with
      | nil => simp [chunks]
      | cons d ds => simp [chunks, Clause.chunk]
  · intro k hk c hc hne q hq
    obtain ⟨rest, hperm⟩ := exists_first hc
    have hlt : q ≤ c.chunk.length := by
      have hlen := seen_le k.nonempty hq
      unfold gap at hlen
      split at hlen
      · rw [List.length_append, List.length_singleton] at hlen
        omega
      · rw [List.append_nil] at hlen
        exact hlen.le
    apply (h _ hperm).not_seen hk (q := s.head.length + q)
    · intro p hp
      rw [place, if_neg hne] at hp
      obtain ⟨p', hp', rfl⟩ := Option.map_eq_some_iff.mp hp
      have hpos := place_pos hp'
      omega
    · exact hseen hperm k.word hq

end Orders

end Written

end V1

end Vely
