import Vely.Db.Prepare

/-!
# Dynamic and prepared statements

A statement is executed dynamically, with its values in the text, or prepared, with its values
bound. Escaping writes backslashes twice, which literals of SQLite do not undo, and the text with
the values is searched for placeholders once more.
-/

namespace Vely

open SqlText

/-- A value without spaces at its ends. -/
def Trimmed (v : List UInt8) : Prop :=
  (∀ c ∈ v.head?, isspace c = false) ∧ ∀ c ∈ v.getLast?, isspace c = false

/-- Read from a mode, the placeholders between the parts are literals of their own: the first quote
opens a literal and the second one closes it, and no digit comes after it that would be part of a
parameter in its place. -/
def OwnFrom (d : Dialect) : Mode → List (List UInt8) → Prop
  | m, a :: b :: as =>
    step d (after d m a) apostrophe = (.literal, [.opened]) ∧
      (∀ c ∈ b.head?, c ≠ apostrophe ∧ isdigit c = false) ∧ OwnFrom d .quote (b :: as)
  | _, _ => True

/-- The placeholders of an accepted format are literals of their own. -/
def OwnLiterals (format : CString) : Prop := OwnFrom sqlite .outside (parts format)

/-- SQLite executes the same, the values in the same places, for the dynamic and the prepared
statement. -/
def SameValues (format : CString) (values : List CString) : Prop :=
  ∃ sql ts, velyMakeSQL velyLiteEscape (values.map some) format = .ok sql ∧
    velyLiteExecText sql [] = some ts ∧ velyLiteExecText format.bytes values = some ts

/-- The value has no backslash, and no placeholder is in it between quotes. -/
def Plain (v : List UInt8) : Prop := 92 ∉ v ∧ ¬ quotedS <:+: 39 :: v ++ [39]

section Values

variable {v w : List UInt8}

/-- A value without spaces at its ends is not trimmed. -/
theorem Trimmed.trimValue (h : Trimmed v) :
  trimValue v = v
  := by
  have hright : v.rdropWhile isspace = v := by
    rw [List.rdropWhile_eq_self_iff]
    intro hv
    rw [h.2 _ (List.getLast?_eq_getLast_of_ne_nil hv)]
    simp
  rw [Vely.trimValue, hright, List.dropWhile_eq_self_iff]
  intro hv
  have hhead : v[0] ∈ v.head? := by simp [List.head?_eq_getElem?, hv]
  rw [h.1 _ hhead]
  simp

/-- Escaping leaves the first byte. -/
theorem head?_flatMap_escapeByte (v : List UInt8) :
  (v.flatMap escapeByte).head? = v.head?
  := by
  cases v with
  | nil => rfl
  | cons b v =>
    rw [List.flatMap_cons, escapeByte]
    split
    · next h => rw [h]; rfl
    · split
      · next h => rw [h]; rfl
      · rfl

/-- Escaping leaves the last byte. -/
theorem getLast?_flatMap_escapeByte (v : List UInt8) :
  (v.flatMap escapeByte).getLast? = v.getLast?
  := by
  induction v using List.reverseRecOn with
  | nil => rfl
  | append_singleton v b _ =>
    have hb : (escapeByte b).getLast? = some b := by
      rw [escapeByte]
      split
      · next h => rw [h]; rfl
      · split
        · next h => rw [h]; rfl
        · rfl
    rw [List.flatMap_append, List.flatMap_singleton, List.getLast?_append, hb,
      List.getLast?_concat]
    rfl

theorem Trimmed.escape (h : Trimmed v) :
  Trimmed (v.flatMap escapeByte)
  := by
  constructor
  · rw [head?_flatMap_escapeByte]
    exact h.1
  · rw [getLast?_flatMap_escapeByte]
    exact h.2

/-- An escaped value is read as the value with its backslashes written twice. -/
theorem inner_escape (v : List UInt8) :
  Inner (v.flatMap escapeByte) (v.flatMap (twice 92))
  := by
  induction v with
  | nil => exact .nil
  | cons b v ih =>
    rw [List.flatMap_cons, List.flatMap_cons, escapeByte, twice]
    split
    · exact .byte (by decide) (.byte (by decide) ih)
    · split
      · next hb =>
        rw [hb]
        exact ih.quote
      · next hb => exact .byte hb ih

/-- As many bytes with the backslashes written twice means that there are none. -/
theorem flatMap_twice_of_length (h : (v.flatMap (twice 92)).length ≤ v.length) :
  92 ∉ v
  := by
  induction v with
  | nil => simp
  | cons b v ih =>
    have hle := length_le_flatMap_twice 92 v
    rw [List.flatMap_cons, List.length_append, List.length_cons] at h
    by_cases hb : b = 92
    · rw [twice, if_pos hb] at h
      simp only [List.length_cons, List.length_nil] at h
      omega
    · rw [twice, if_neg hb, List.length_singleton] at h
      rw [List.mem_cons, not_or]
      exact ⟨Ne.symm hb, ih (by omega)⟩

theorem flatMap_twice_of_notMem (h : 92 ∉ v) :
  v.flatMap (twice 92) = v
  := by
  induction v with
  | nil => rfl
  | cons b v ih =>
    rw [List.mem_cons, not_or] at h
    rw [List.flatMap_cons, twice, if_neg (Ne.symm h.1), ih h.2]
    rfl

/-- Bytes other than quotes and backslashes come before a quote in an escaped value where they do in
the value. -/
theorem prefix_escape_iff {p : List UInt8} (hp : ∀ c ∈ p, c ≠ 39 ∧ c ≠ 92) :
  p ++ [39] <+: v.flatMap escapeByte ++ [39] ↔ p ++ [39] <+: v ++ [39]
  := by
  induction p generalizing v with
  | nil =>
    cases v with
    | nil => rfl
    | cons b v =>
      rw [List.flatMap_cons, escapeByte]
      split
      · next hb => simp [hb]
      · split
        · next hb => simp [hb]
        · simp
  | cons c p ih =>
    have hc := hp c List.mem_cons_self
    cases v with
    | nil => rfl
    | cons b v =>
      rw [List.flatMap_cons, escapeByte]
      split
      · next hb =>
        simp only [List.cons_append, List.cons_prefix_cons, hb, hc.2, false_and]
      · split
        · next hb =>
          simp only [List.cons_append, List.cons_prefix_cons, hb, hc.1, false_and]
        · simp only [List.cons_append, List.cons_prefix_cons, List.nil_append,
            ih (fun e he => hp e (List.mem_cons_of_mem c he))]

/-- A placeholder is in an escaped value between quotes where it is in the value. -/
theorem infix_escape_iff :
  quotedS <:+: 39 :: v.flatMap escapeByte ++ [39] ↔ quotedS <:+: 39 :: v ++ [39]
  := by
  have hquoted : quotedS = 39 :: (percentS ++ [39]) := rfl
  have hstarts : ∀ v : List UInt8, quotedS <+: 39 :: v.flatMap escapeByte ++ [39]
      ↔ quotedS <+: 39 :: v ++ [39] := by
    intro v
    rw [hquoted, List.cons_append, List.cons_prefix_cons, List.cons_append, List.cons_prefix_cons,
      prefix_escape_iff (by simp [percentS])]
  have hinfix : ∀ v : List UInt8, quotedS <:+: v.flatMap escapeByte ++ [39]
      ↔ quotedS <:+: v ++ [39] := by
    intro v
    induction v with
    | nil => rfl
    | cons b v ih =>
      rw [List.flatMap_cons, List.cons_append, List.infix_cons_iff, ← ih]
      by_cases hb : b = 39
      · subst hb
        have hescape : escapeByte 39 = [39, 39] := rfl
        have hno : ¬ quotedS <+: 39 :: 39 :: (v.flatMap escapeByte ++ [39]) := by
          simp [hquoted, percentS]
        rw [hescape]
        simp only [List.cons_append, List.nil_append]
        rw [List.infix_cons_iff, List.infix_cons_iff, ← List.cons_append, hstarts v]
        simp [hno]
      · have hno : ∀ s : List UInt8, ¬ quotedS <+: b :: s := by
          intro s h
          rw [hquoted, List.cons_prefix_cons] at h
          exact hb h.1.symm
        simp only [hno, false_or]
        rw [escapeByte]
        split
        · next hb' =>
          have hno' : ¬ quotedS <+: 92 :: (v.flatMap escapeByte ++ [39]) := hb' ▸ hno _
          have hno'' : ¬ quotedS <+: 92 :: 92 :: (v.flatMap escapeByte ++ [39]) := hb' ▸ hno _
          simp only [List.cons_append, List.nil_append]
          rw [List.infix_cons_iff, List.infix_cons_iff]
          simp [hno', hno'']
        · simp only [List.cons_append, List.nil_append]
          rw [List.infix_cons_iff]
          simp [hno]
  rw [List.cons_append, List.infix_cons_iff, hinfix, ← List.cons_append, hstarts,
    List.cons_append, List.infix_cons_iff, ← List.cons_append]

end Values

section Fill

variable {d : Dialect} {m m' m₀ : Mode} {as es : List (List UInt8)}

/-- Where a quote opens a literal, a question mark is a parameter. -/
theorem step_mark (h : step d m apostrophe = (.literal, [.opened])) :
  step d m mark = (.outside, [.param])
  := by
  have hopen : openStep d mark = (.outside, [.param]) := by simp [openStep, mark, apostrophe]
  cases m with
  | outside => exact hopen
  | word => exact hopen
  | hex => simp [step] at h
  | blob => simp [step] at h
  | sigil => exact hopen
  | dash => exact hopen
  | line => simp [step, apostrophe] at h
  | slash => exact hopen
  | block => simp [step, apostrophe] at h
  | star => simp [step, apostrophe] at h
  | name c =>
    rw [step] at h
    split at h
    · simp at h
    · simp at h
  | literal => simp [step] at h
  | quote => simp [step] at h

/-- The tokens of the parts, each read from where the placeholder before it leaves it. -/
def partTokens (d : Dialect) : Mode → List (List UInt8) → List (List Token)
  | _, [] => []
  | m, a :: as => tokens d m a :: partTokens d .quote as

theorem length_partTokens :
  (partTokens d m as).length = as.length
  := by
  induction as generalizing m with
  | nil => rfl
  | cons a as ih => rw [partTokens, List.length_cons, List.length_cons, ih]

/-- A text with values in its literals has the tokens of its parts with the literals between them.
-/
theorem OwnFrom.tokens_fill {cs : List (List UInt8)} (h : OwnFrom d m as)
    (hlength : es.length + 1 = as.length) (hes : List.Forall₂ Inner es cs) :
  tokens d m (fill as es) = weave (partTokens d m as) (cs.map fun c => .opened :: c.map .char)
  := by
  induction as generalizing m es cs with
  | nil => cases hlength
  | cons a as ih =>
    cases as with
    | nil =>
      cases es with
      | nil => rfl
      | cons e es => cases hlength
    | cons b as =>
      cases hes with
      | nil => cases hlength
      | @cons e c es cs he hes =>
        rw [List.length_cons, List.length_cons, Nat.add_right_cancel_iff] at hlength
        have hfill : fill (a :: b :: as) (e :: es)
            = a ++ apostrophe :: (e ++ apostrophe :: fill (b :: as) es) := by
          rw [fill]
          simp [apostrophe]
        have hquote : tokens d .literal (apostrophe :: fill (b :: as) es)
            = tokens d .quote (fill (b :: as) es) := rfl
        rw [hfill, tokens_append, tokens, h.1]
        simp only
        rw [tokens_append, he.read.1, he.read.2, hquote, ih h.2.2 hlength hes]
        simp [weave, partTokens]

/-- A text that does not start with a quote is read after a literal as where nothing is open. -/
theorem tokens_quote_eq {s : List UInt8} (hs : ∀ c ∈ s.head?, c ≠ apostrophe) :
  tokens d .quote s = tokens d .outside s ∧
    (s ≠ [] → after d .quote s = after d .outside s)
  := by
  cases s with
  | nil => exact ⟨rfl, fun h => absurd rfl h⟩
  | cons c s =>
    have hc : step d .quote c = step d .outside c := by
      simp only [step, if_neg (hs c rfl)]
    rw [tokens, tokens, after_cons, after_cons, hc]
    exact ⟨rfl, fun _ => rfl⟩

/-- A text with parameters in the place of its literals has the tokens of its parts with the
parameters between them. -/
theorem OwnFrom.tokens_marks {n : Nat} (h : OwnFrom d m as) (hlength : n + 1 = as.length)
    (hm : m' = m ∨ m = .quote ∧ m' = .outside ∧ ∀ a ∈ as.head?, ∀ c ∈ a.head?, c ≠ apostrophe) :
  tokens d m' (marks as) = weave (partTokens d m as) (List.replicate n [.param])
  := by
  induction as generalizing m m' n with
  | nil => cases hlength
  | cons a as ih =>
    have htokens : tokens d m' a = tokens d m a := by
      obtain rfl | ⟨rfl, rfl, ha⟩ := hm
      · rfl
      · exact (tokens_quote_eq (ha a rfl)).1.symm
    cases as with
    | nil =>
      cases n with
      | zero => exact htokens
      | succ n => cases hlength
    | cons b as =>
      cases n with
      | zero => cases hlength
      | succ n =>
        rw [List.length_cons, Nat.add_right_cancel_iff] at hlength
        have hafter : after d m' a = after d m a := by
          obtain rfl | ⟨rfl, rfl, ha⟩ := hm
          · rfl
          · apply Eq.symm
            apply (tokens_quote_eq (ha a rfl)).2
            rintro rfl
            have hopened := h.1
            simp [step] at hopened
        have hmark := step_mark h.1
        rw [marks, tokens_append, tokens, hafter, hmark, htokens]
        simp only
        rw [ih h.2.2 hlength (Or.inr ⟨rfl, rfl, ?_⟩)]
        · simp [weave, partTokens, List.replicate_succ]
        · intro x hx c hc
          cases hx
          exact (h.2.1 c hc).1

/-- The placeholders in a text with values are those in the values between quotes.  The first of
them is where a question mark is a parameter. -/
theorem OwnFrom.search_fill {cs : List (List UInt8)} {lead : List UInt8} (h : OwnFrom d m as)
    (hlength : es.length + 1 = as.length) (hes : List.Forall₂ Inner es cs)
    (hparts : ∀ a ∈ as, Substr.search percentS a = none)
    (hlead : ∀ a ∈ as.head?, Substr.search percentS (lead ++ a) = none)
    (hm : after d m₀ lead = m) :
  ((∀ e ∈ es, Substr.search quotedS (39 :: e ++ [39]) = none) ∧
      Substr.search quotedS (lead ++ fill as es) = none) ∨
    (¬ (∀ e ∈ es, Substr.search quotedS (39 :: e ++ [39]) = none) ∧
      ∃ x y, Substr.search quotedS (lead ++ fill as es) = some (x, y) ∧
        step d (after d m₀ x) mark = (.outside, [.param]))
  := by
  induction as generalizing m m₀ es cs lead with
  | nil => cases hlength
  | cons a as ih =>
    have hleada := hlead a rfl
    cases as with
    | nil =>
      cases es with
      | cons e es => cases hlength
      | nil =>
        left
        constructor
        · simp
        · rw [fill, Substr.search_eq_none_iff (by decide)]
          rw [Substr.search_eq_none_iff (by decide)] at hleada
          intro hinfix
          apply hleada
          apply List.IsInfix.trans _ hinfix
          exact ⟨[39], [39], rfl⟩
    | cons b as =>
      cases hes with
      | nil => cases hlength
      | @cons e c es cs he hes =>
        rw [List.length_cons, List.length_cons, Nat.add_right_cancel_iff] at hlength
        have hsplit : lead ++ fill (a :: b :: as) (e :: es)
            = (lead ++ a) ++ 39 :: (e ++ 39 :: fill (b :: as) es) := by
          rw [fill]
          simp
        have hnone : Substr.search quotedS ((lead ++ a) ++ [39]) = none :=
          Substr.search_quoted_eq_none (by decide) (by decide) hleada
        have hfirst : Substr.search quotedS (lead ++ fill (a :: b :: as) (e :: es))
            = (Substr.search quotedS (39 :: e ++ 39 :: fill (b :: as) es)).map
                fun p => ((lead ++ a) ++ p.1, p.2) := by
          rw [hsplit, quotedS, Substr.search_quoted_append_cons (by decide), ← quotedS, hnone]
          rfl
        have hsecond := @Substr.search_quoted_append_cons _ _ (39 :: e) (fill (b :: as) es) 39
          percentS (by decide)
        rw [← quotedS] at hsecond
        have hmode : after d m₀ (lead ++ a) = after d m a := by
          rw [after_append, hm]
        cases hin : Substr.search quotedS (39 :: e ++ [39]) with
        | some p =>
          obtain ⟨x, y⟩ := p
          rw [hin] at hsecond
          right
          constructor
          · intro hall
            have := hall e List.mem_cons_self
            rw [hin] at this
            cases this
          · refine ⟨(lead ++ a) ++ x, y ++ fill (b :: as) es, ?_, ?_⟩
            · rw [hfirst, hsecond]
              rfl
            · have heq := Substr.eq_of_search hin
              rw [after_append, hmode]
              cases x with
              | nil => exact step_mark h.1
              | cons f x =>
                rw [List.cons_append, List.cons_append, List.cons_append, List.cons.injEq] at heq
                obtain ⟨rfl, heq⟩ := heq
                have hx : e = x ++ apostrophe :: 37 :: (115 :: 39 :: y).dropLast := by
                  have hdrop := congrArg List.dropLast heq
                  rw [List.dropLast_concat] at hdrop
                  rw [hdrop]
                  simp [quotedS, percentS, apostrophe, List.dropLast_append_of_ne_nil]
                have hopen : after d (after d m a) (39 :: x) = .quote := by
                  rw [after_cons]
                  have hstep : step d (after d m a) 39 = (.literal, [.opened]) := h.1
                  rw [hstep]
                  apply Inner.quote_of_append _ (hx ▸ he)
                  decide
                rw [hopen]
                simp [step, mark, apostrophe, openStep]
        | none =>
          rw [hin] at hsecond
          simp only at hsecond
          have hrest := @ih .quote .literal es cs [39] h.2.2 hlength hes
            (fun x hx => hparts x (List.mem_cons_of_mem a hx))
            (by
              intro x hx
              cases hx
              have hnil : Substr.search percentS [] = none := rfl
              rw [List.singleton_append, ← List.nil_append (39 :: _),
                Substr.search_append_cons (by decide) (by decide), hnil, hparts _ (by simp)]
              rfl)
            rfl
          have hread : after d (after d m a) (39 :: e) = .literal := by
            have hstep : step d (after d m a) 39 = (.literal, [.opened]) := h.1
            rw [after_cons, hstep]
            exact he.read.1
          rw [List.singleton_append] at hrest
          obtain ⟨hall, hsearch⟩ | ⟨hsome, x, y, hsearch, hstep⟩ := hrest
          · left
            constructor
            · intro f hf
              cases hf with
              | head => exact hin
              | tail _ hf => exact hall f hf
            · rw [hfirst, hsecond, hsearch]
              rfl
          · right
            constructor
            · intro hall
              apply hsome
              intro f hf
              exact hall f (List.mem_cons_of_mem e hf)
            · refine ⟨(lead ++ a) ++ (39 :: e ++ x), y, ?_, ?_⟩
              · rw [hfirst, hsecond, hsearch]
                rfl
              · rw [after_append, hmode, after_append, hread]
                exact hstep

end Fill

/-- `VV_MAX_QUERY_INPUTS`, up to which the preprocessor takes values for a query. -/
def maxQueryInputs : Nat := 200

section Runs

variable {format : CString} {values : List CString}

/-- The text of a format is its parts with `%s` as the values. -/
theorem fill_nil {as : List (List UInt8)} :
  fill as [] = fill as (List.replicate (as.length - 1) percentS)
  := by
  induction as with
  | nil => rfl
  | cons a as ih =>
    cases as with
    | nil => rfl
    | cons b as =>
      have hsucc : (a :: b :: as).length - 1 = (b :: as).length - 1 + 1 := by simp
      rw [fill, ih, hsucc, List.replicate_succ, fill]

/-- The texts for values without spaces at their ends are the escaped values. -/
theorem texts_of_trimmed (htrimmed : ∀ v ∈ values, Trimmed v.bytes) :
  texts velyLiteEscape (values.map some) = some (values.map fun v => v.bytes.flatMap escapeByte)
  := by
  induction values with
  | nil => rfl
  | cons v values ih =>
    have hv := (htrimmed v List.mem_cons_self).escape.trimValue
    simp only [List.map_cons, texts, velyLiteEscape_eq, hv,
      ih (fun w hw => htrimmed w (List.mem_cons_of_mem v hw))]

theorem bindValues_nil (ts : List Token) :
  bindValues ts [] = ts
  := by
  induction ts with
  | nil => rfl
  | cons t ts ih =>
    cases t with
    | param => rw [bindValues, ih]; simp
    | text b => rw [bindValues, ih]; simp
    | opened => rw [bindValues, ih]; simp
    | char b => rw [bindValues, ih]; simp

/-- Literals have no parameters. -/
theorem count_param_literals (cs : List (List UInt8)) :
  ((cs.map fun c => Token.opened :: c.map Token.char).map (List.count Token.param)).sum = 0
  := by
  rw [List.sum_eq_zero_iff_forall_eq_nat]
  intro n hn
  obtain ⟨t, ht, rfl⟩ := List.mem_map.mp hn
  obtain ⟨c, -, rfl⟩ := List.mem_map.mp ht
  rw [List.count_eq_zero]
  simp

/-- Tokens with literals between the parts have the parameters of the parts. -/
theorem count_param_weave {ts : List (List Token)} {cs : List (List UInt8)}
    (hlength : cs.length + 1 = ts.length) :
  (weave ts (cs.map fun c => .opened :: c.map .char)).count .param = 0
    ↔ ∀ t ∈ ts, Token.param ∉ t
  := by
  rw [count_weave (f := List.count Token.param) (fun s t => List.count_append)
    (by rw [List.length_map, hlength]), count_param_literals, Nat.add_zero,
    List.sum_eq_zero_iff_forall_eq_nat]
  constructor
  · intro h t ht
    rw [← List.count_eq_zero]
    apply h
    apply List.mem_map_of_mem ht
  · intro h n hn
    obtain ⟨t, ht, rfl⟩ := List.mem_map.mp hn
    rw [List.count_eq_zero]
    exact h t ht

/-- Literals of the lengths of the values with backslashes written twice are those of the values
only if there are no backslashes. -/
theorem notMem_of_weave_eq {ts : List (List Token)} {vs : List (List UInt8)}
    (hlength : vs.length + 1 = ts.length)
    (h : weave ts ((vs.map (List.flatMap (twice 92))).map fun c => .opened :: c.map .char)
      = weave ts (vs.map fun c => .opened :: c.map .char)) :
  ∀ v ∈ vs, 92 ∉ v
  := by
  have hlen := congrArg List.length h
  rw [count_weave (f := List.length) (fun s t => List.length_append) (by simp [hlength]),
    count_weave (f := List.length) (fun s t => List.length_append) (by simp [hlength]),
    Nat.add_left_cancel_iff] at hlen
  clear h hlength
  have hle : ∀ vs : List (List UInt8),
      ((vs.map fun c => Token.opened :: c.map Token.char).map List.length).sum
        ≤ (((vs.map (List.flatMap (twice 92))).map fun c =>
          Token.opened :: c.map Token.char).map List.length).sum := by
    intro vs
    induction vs with
    | nil => exact le_rfl
    | cons v vs ih =>
      have hv := length_le_flatMap_twice 92 v
      simp only [List.map_cons, List.sum_cons, List.length_cons, List.length_map]
      omega
  induction vs with
  | nil => simp
  | cons v vs ih =>
    have hv := length_le_flatMap_twice 92 v
    have hvs := hle vs
    simp only [List.map_cons, List.sum_cons, List.length_cons, List.length_map] at hlen
    intro w hw
    cases hw with
    | head =>
      apply flatMap_twice_of_length
      omega
    | tail _ hw =>
      apply ih _ w hw
      omega

/-- The tokens that SQLite is to see: the parts of the format with the values in literals. -/
def wanted (format : CString) (values : List CString) : List Token :=
  weave (partTokens sqlite .outside (parts format))
    ((values.map CString.bytes).map fun v => .opened :: v.map .char)

/-- A format has parameters of its own where its parts have. -/
theorem notMem_param_iff (hown : OwnLiterals format) :
  Token.param ∉ tokens sqlite .outside format.bytes
    ↔ ∀ t ∈ partTokens sqlite .outside (parts format), Token.param ∉ t
  := by
  have hpos := List.length_pos_of_ne_nil (@Substr.pieces_ne_nil _ _ quotedS format.bytes)
  have hpercent : Inner percentS percentS := Inner.of_bytes (by simp [percentS, apostrophe])
  have hlength : (List.replicate ((parts format).length - 1) percentS).length + 1
      = (parts format).length := by
    rw [List.length_replicate]
    exact Nat.sub_add_cancel hpos
  have hinner : List.Forall₂ Inner (List.replicate ((parts format).length - 1) percentS)
      (List.replicate ((parts format).length - 1) percentS) := by
    rw [List.forall₂_same]
    intro e he
    rw [List.eq_of_mem_replicate he]
    exact hpercent
  have htokens := OwnFrom.tokens_fill hown hlength hinner
  rw [← fill_nil, parts, fill_pieces] at htokens
  rw [← List.count_eq_zero, htokens, ← parts, count_param_weave]
  rw [length_partTokens, hlength]

/-- The prepared statement is executed with the values, where the format has no parameters of its
own. -/
theorem exec_prepared (hown : OwnLiterals format)
    (hlength : values.length + 1 = (parts format).length)
    (hmax : values.length ≤ maxQueryInputs)
    (hparam : ∀ t ∈ partTokens sqlite .outside (parts format), Token.param ∉ t) :
  velyLiteExecText format.bytes values = some (wanted format values)
  := by
  have hcount : Substr.count quotedS format.bytes < 65535 := by
    rw [Substr.count, ← parts, ← hlength, Nat.add_sub_cancel]
    simp only [maxQueryInputs] at hmax
    omega
  have hprep : velyDbPrepText format.bytes = marks (parts format) := by
    rw [velyDbPrepText_eq, prepFrom_eq hcount, parts]
  have htokens : tokens sqlite .outside (marks (parts format))
      = weave (partTokens sqlite .outside (parts format)) (List.replicate values.length [.param]) :=
    OwnFrom.tokens_marks hown hlength (Or.inl rfl)
  have hn : (weave (partTokens sqlite .outside (parts format))
      (List.replicate values.length [Token.param])).count .param = values.length := by
    have hzero : ((partTokens sqlite .outside (parts format)).map (List.count Token.param)).sum
        = 0 := by
      rw [List.sum_eq_zero_iff_forall_eq_nat]
      intro n hn
      obtain ⟨t, ht, rfl⟩ := List.mem_map.mp hn
      rw [List.count_eq_zero]
      exact hparam t ht
    rw [count_weave (f := List.count Token.param) (fun s t => List.count_append)
      (by rw [List.length_replicate, length_partTokens, hlength]), hzero, List.map_replicate,
      List.sum_replicate_nat]
    simp
  have hreplicate : List.replicate values.length [Token.param]
      = (values.map CString.bytes).map fun _ => [Token.param] := by
    rw [List.map_const', List.length_map]
  rw [velyLiteExecText, velyLitePrepStmt, hprep, htokens]
  simp only [hn, if_true, Option.map_some]
  rw [hreplicate, bindValues_weave]
  · rfl
  · rw [List.length_map, length_partTokens, hlength]
  · exact hparam

end Runs

end Vely
