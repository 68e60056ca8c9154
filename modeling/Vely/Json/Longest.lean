import Vely.Json.Number

/-!
# The number at the beginning of a text

`vely_json_num` reads the longest run of a sign, digits, a point and an exponent, and succeeds when
it is a number.  What it takes is then the longest number that the text begins with.
-/

namespace Vely

/-! ### Runs -/

/-- A run of a sign, digits, a point and an exponent: each of its groups of digits may be empty. -/
structure NumberRun where
  neg : Bool
  int : List UInt8
  frac : Option (List UInt8)
  exp : Option (UInt8 × List UInt8 × List UInt8)
  int_digits : ∀ c ∈ int, isdigit c = true
  frac_digits : ∀ ds ∈ frac, ∀ c ∈ ds, isdigit c = true
  exp_digits : ∀ e ∈ exp, (e.1 = 'e'.toUInt8 ∨ e.1 = 'E'.toUInt8)
    ∧ (e.2.1 = [] ∨ e.2.1 = ['+'.toUInt8] ∨ e.2.1 = ['-'.toUInt8])
    ∧ ∀ c ∈ e.2.2, isdigit c = true

/-- The text of a run. -/
def NumberRun.render (r : NumberRun) : List UInt8 :=
  (if r.neg then ['-'.toUInt8] else []) ++ (r.int ++ (JsonNumber.fractionText r.frac
    ++ JsonNumber.exponentText r.exp))

/-- The longest run that a text begins with. -/
def LongestRun (r : NumberRun) (s : List UInt8) : Prop :=
  r.render <+: s ∧ ∀ r' : NumberRun, r'.render <+: s → r'.render.length ≤ r.render.length

/-- Whether a run is a number of the grammar. -/
def NumberRun.IsNumber (r : NumberRun) : Prop := ∃ n : JsonNumber, n.render = r.render

/-- The longest number that a text begins with. -/
def LongestNumber (n : JsonNumber) (s : List UInt8) : Prop :=
  n.render <+: s ∧ ∀ n' : JsonNumber, n'.render <+: s → n'.render.length ≤ n.render.length

/-- A number as a run. -/
def JsonNumber.toRun (n : JsonNumber) : NumberRun where
  neg := n.neg
  int := n.int
  frac := n.frac
  exp := n.exp
  int_digits := n.int_digits.2
  frac_digits := fun ds hds => (n.frac_digits ds hds).2
  exp_digits := fun e he => ⟨(n.exp_digits e he).1, (n.exp_digits e he).2.1,
    (n.exp_digits e he).2.2.2⟩

@[simp]
theorem JsonNumber.render_toRun (n : JsonNumber) :
  n.toRun.render = n.render
  := by
  rw [NumberRun.render, JsonNumber.render, List.append_assoc, List.append_assoc]
  rfl

/-! ### No run is longer -/

theorem isdigit_dot :
  isdigit '.'.toUInt8 = false
  := by decide

/-- Digits, and behind them something else, in front of a text: they are all the digits of it, or
the end of the prefix is among them. -/
theorem prefix_digits {ds ds' x y : List UInt8} (hds : ∀ c ∈ ds, isdigit c = true)
    (hds' : ∀ c ∈ ds', isdigit c = true) (hx : isdigit (byteAt x 0) = false)
    (hy : isdigit (byteAt y 0) = false) (h : ds' ++ x <+: ds ++ y) :
  (ds' = ds ∧ x <+: y) ∨ (x = [] ∧ ds'.length ≤ ds.length)
  := by
  induction ds' generalizing ds with
  | nil =>
    rw [List.nil_append] at h
    cases ds with
    | nil => exact .inl ⟨rfl, h⟩
    | cons d ds =>
      cases x with
      | nil => exact .inr ⟨rfl, Nat.zero_le _⟩
      | cons c x =>
        obtain ⟨rfl, -⟩ := List.cons_prefix_cons.mp h
        rw [byteAt_cons_zero, hds c (by simp)] at hx
        cases hx
  | cons d' ds' ih =>
    cases ds with
    | nil =>
      cases y with
      | nil => exact absurd (List.eq_nil_of_prefix_nil h) (by simp)
      | cons c y =>
        obtain ⟨rfl, -⟩ := List.cons_prefix_cons.mp h
        rw [byteAt_cons_zero, hds' d' (by simp)] at hy
        cases hy
    | cons d ds =>
      obtain ⟨rfl, htail⟩ := List.cons_prefix_cons.mp h
      rw [List.forall_mem_cons] at hds hds'
      obtain ⟨rfl, hxy⟩ | ⟨hx, hle⟩ := ih hds.2 hds'.2 htail
      · exact .inl ⟨rfl, hxy⟩
      · exact .inr ⟨hx, Nat.succ_le_succ hle⟩

/-- Digits in front of something else than a digit. -/
theorem eq_nil_of_prefix {c : UInt8} {ds z : List UInt8} (hds : ∀ c ∈ ds, isdigit c = true)
    (hc : isdigit c = false) (h : ds <+: c :: z) :
  ds = []
  := by
  cases ds with
  | nil => rfl
  | cons d ds =>
    obtain ⟨rfl, -⟩ := List.cons_prefix_cons.mp h
    rw [hds d (by simp)] at hc
    cases hc

/-- A sign and digits of an exponent, in front of a sign and one digit or more. -/
theorem length_sign_le {sign sign' ds ds' t : List UInt8}
    (hsign : sign = [] ∨ sign = ['+'.toUInt8] ∨ sign = ['-'.toUInt8])
    (hsign' : sign' = [] ∨ sign' = ['+'.toUInt8] ∨ sign' = ['-'.toUInt8]) (hne : ds ≠ [])
    (hds : ∀ c ∈ ds, isdigit c = true) (hds' : ∀ c ∈ ds', isdigit c = true)
    (ht : isdigit (byteAt t 0) = false) (h : sign' ++ ds' <+: sign ++ (ds ++ t)) :
  (sign' ++ ds').length ≤ (sign ++ ds).length
  := by
  have hsigned : ∀ {s : List UInt8}, (s = [] ∨ s = ['+'.toUInt8] ∨ s = ['-'.toUInt8]) →
      s = [] ∨ ∃ c, s = [c] ∧ isdigit c = false := by
    rintro s (rfl | rfl | rfl)
    · exact .inl rfl
    · exact .inr ⟨_, rfl, by decide⟩
    · exact .inr ⟨_, rfl, by decide⟩
  have hle : ds' <+: ds ++ t → ds'.length ≤ ds.length := by
    intro h
    obtain ⟨rfl, -⟩ | ⟨-, hle⟩ := @prefix_digits ds ds' [] t hds hds' rfl ht (by simpa using h)
    · exact le_rfl
    · exact hle
  obtain rfl | ⟨c', rfl, hc'⟩ := hsigned hsign'
  · obtain rfl | ⟨c, rfl, hc⟩ := hsigned hsign
    · exact hle h
    · obtain rfl := eq_nil_of_prefix hds' hc h
      exact Nat.zero_le _
  · obtain rfl | ⟨c, rfl, hc⟩ := hsigned hsign
    · obtain ⟨d, ds, rfl⟩ := List.exists_cons_of_ne_nil hne
      obtain ⟨rfl, -⟩ := List.cons_prefix_cons.mp h
      rw [hds c' (by simp)] at hc'
      cases hc'
    · obtain ⟨rfl, htail⟩ := List.cons_prefix_cons.mp h
      exact Nat.succ_le_succ (hle htail)

section Longest

variable {n : JsonNumber} {r : NumberRun} {t : List UInt8}

/-- An exponent in front of what is behind the fraction. -/
theorem length_exponent_le (ht : n.EndsAt t)
    (h : JsonNumber.exponentText r.exp <+: JsonNumber.exponentText n.exp ++ t) :
  (JsonNumber.exponentText r.exp).length ≤ (JsonNumber.exponentText n.exp).length
  := by
  obtain ⟨hdigit, hexp, -⟩ := ht
  cases hr : r.exp with
  | none => exact Nat.zero_le _
  | some e' =>
    obtain ⟨hmark', hsign', hds'⟩ := r.exp_digits _ hr
    rw [hr, JsonNumber.exponentText] at h
    cases hn : n.exp with
    | none =>
      obtain ⟨he, hE⟩ := hexp hn
      rw [hn, JsonNumber.exponentText, List.nil_append] at h
      obtain ⟨z, rfl⟩ := h
      rw [List.cons_append, byteAt_cons_zero] at he hE
      exact absurd hmark' (by simp [he, hE])
    | some e =>
      obtain ⟨hmark, hsign, hne, hds⟩ := n.exp_digits _ hn
      rw [hn, JsonNumber.exponentText, List.cons_append, List.append_assoc] at h
      obtain ⟨-, htail⟩ := List.cons_prefix_cons.mp h
      exact Nat.succ_le_succ (length_sign_le hsign hsign' hne hds hds' hdigit htail)

/-- What is behind the digits of a fraction is no digit. -/
theorem isdigit_exponentText {exp : Option (UInt8 × List UInt8 × List UInt8)}
    (hexp : ∀ e ∈ exp, e.1 = 'e'.toUInt8 ∨ e.1 = 'E'.toUInt8)
    (ht : isdigit (byteAt t 0) = false) :
  isdigit (byteAt (JsonNumber.exponentText exp ++ t) 0) = false
  := by
  cases exp with
  | none => exact ht
  | some e => exact (ne_of_mark (hexp e rfl)).1

/-- What is behind the first digits is no digit. -/
theorem isdigit_fractionText {frac : Option (List UInt8)} {s : List UInt8}
    (hs : isdigit (byteAt s 0) = false) :
  isdigit (byteAt (JsonNumber.fractionText frac ++ s) 0) = false
  := by
  cases frac with
  | none => exact hs
  | some ds => exact isdigit_dot

/-- A fraction and an exponent in front of what is behind the first digits. -/
theorem length_fraction_le (ht : n.EndsAt t)
    (h : JsonNumber.fractionText r.frac ++ JsonNumber.exponentText r.exp
      <+: JsonNumber.fractionText n.frac ++ (JsonNumber.exponentText n.exp ++ t)) :
  (JsonNumber.fractionText r.frac ++ JsonNumber.exponentText r.exp).length
    ≤ (JsonNumber.fractionText n.frac ++ JsonNumber.exponentText n.exp).length
  := by
  have hmark : ∀ e ∈ n.exp, e.1 = 'e'.toUInt8 ∨ e.1 = 'E'.toUInt8 :=
    fun e he => (n.exp_digits e he).1
  have hmark' : ∀ e ∈ r.exp, e.1 = 'e'.toUInt8 ∨ e.1 = 'E'.toUInt8 :=
    fun e he => (r.exp_digits e he).1
  cases hr : r.frac with
  | none =>
    rw [hr, JsonNumber.fractionText, List.nil_append] at h
    cases hn : n.frac with
    | none =>
      rw [hn, JsonNumber.fractionText, List.nil_append] at h
      exact length_exponent_le ht h
    | some ds =>
      rw [hn, JsonNumber.fractionText] at h
      cases he : r.exp with
      | none => exact Nat.zero_le _
      | some e =>
        rw [he, JsonNumber.exponentText, List.cons_append] at h
        obtain ⟨hdot, -⟩ := List.cons_prefix_cons.mp h
        exact absurd hdot (ne_of_mark (hmark' e he)).2.1
  | some ds' =>
    rw [hr, JsonNumber.fractionText, List.cons_append] at h
    cases hn : n.frac with
    | none =>
      exfalso
      rw [hn, JsonNumber.fractionText, List.nil_append] at h
      cases he : n.exp with
      | none =>
        rw [he, JsonNumber.exponentText, List.nil_append] at h
        obtain ⟨z, rfl⟩ := h
        exact ht.2.2 he hn rfl
      | some e =>
        rw [he, JsonNumber.exponentText, List.cons_append] at h
        obtain ⟨hdot, -⟩ := List.cons_prefix_cons.mp h
        exact (ne_of_mark (hmark e he)).2.1 hdot.symm
    | some ds =>
      rw [hn, JsonNumber.fractionText, List.cons_append] at h
      obtain ⟨-, htail⟩ := List.cons_prefix_cons.mp h
      have hx := @isdigit_exponentText [] _ hmark' rfl
      rw [List.append_nil] at hx
      simp only [JsonNumber.fractionText, List.cons_append, List.length_cons, List.length_append]
      obtain ⟨rfl, hexp⟩ | ⟨hnil, hle⟩ := prefix_digits (n.frac_digits ds hn).2
        (r.frac_digits ds' hr) hx (isdigit_exponentText hmark ht.1) htail
      · have hle := length_exponent_le ht hexp
        omega
      · rw [hnil, List.length_nil]
        omega

/-- The text of a run behind its sign. -/
def NumberRun.unsigned (r : NumberRun) : List UInt8 :=
  r.int ++ (JsonNumber.fractionText r.frac ++ JsonNumber.exponentText r.exp)

theorem NumberRun.render_eq (r : NumberRun) :
  r.render = (if r.neg then ['-'.toUInt8] else []) ++ r.unsigned
  := rfl

/-- A run behind the sign, in front of what is behind the sign of a number. -/
theorem length_unsigned_le (ht : n.EndsAt t) (h : r.unsigned <+: n.toRun.unsigned ++ t) :
  r.unsigned.length ≤ n.toRun.unsigned.length
  := by
  have hmark : ∀ e ∈ n.exp, e.1 = 'e'.toUInt8 ∨ e.1 = 'E'.toUInt8 :=
    fun e he => (n.exp_digits e he).1
  have hmark' : ∀ e ∈ r.exp, e.1 = 'e'.toUInt8 ∨ e.1 = 'E'.toUInt8 :=
    fun e he => (r.exp_digits e he).1
  have hx := @isdigit_exponentText [] _ hmark' rfl
  rw [List.append_nil] at hx
  rw [NumberRun.unsigned, NumberRun.unsigned, List.append_assoc, List.append_assoc] at h
  rw [NumberRun.unsigned, NumberRun.unsigned, List.length_append, @List.length_append _ n.toRun.int]
  obtain ⟨heq, htail⟩ | ⟨hnil, hle⟩ := prefix_digits n.int_digits.2 r.int_digits
    (isdigit_fractionText hx) (isdigit_fractionText (isdigit_exponentText hmark ht.1)) h
  · have hle := length_fraction_le ht htail
    rw [heq]
    exact Nat.add_le_add_left hle _
  · rw [hnil, List.length_nil]
    exact le_add_right hle

/-- No sign is in front of what is behind the sign of a run. -/
theorem unsigned_eq_nil {z : List UInt8} (h : r.unsigned <+: '-'.toUInt8 :: z) :
  r.unsigned = []
  := by
  rw [NumberRun.unsigned] at h ⊢
  cases hint : r.int with
  | cons d ds =>
    exfalso
    rw [hint] at h
    obtain ⟨rfl, -⟩ := List.cons_prefix_cons.mp h
    have hd := r.int_digits '-'.toUInt8 (by rw [hint]; simp)
    revert hd
    decide
  | nil =>
    rw [hint, List.nil_append] at h
    cases hfrac : r.frac with
    | some ds =>
      rw [hfrac] at h
      obtain ⟨hdot, -⟩ := List.cons_prefix_cons.mp h
      exact absurd hdot (by decide)
    | none =>
      cases hexp : r.exp with
      | none => rfl
      | some e =>
        rw [hfrac, hexp] at h
        obtain ⟨hmark, -⟩ := List.cons_prefix_cons.mp h
        exact absurd hmark (ne_of_mark (r.exp_digits e hexp).1).2.2

/-- No run at the beginning of a text is longer than a number that ends there. -/
theorem length_run_le (ht : n.EndsAt t) (h : r.render <+: n.render ++ t) :
  r.render.length ≤ n.render.length
  := by
  have hneg : n.toRun.neg = n.neg := rfl
  rw [← n.render_toRun, NumberRun.render_eq, NumberRun.render_eq, hneg, List.append_assoc] at h
  rw [← n.render_toRun, NumberRun.render_eq, NumberRun.render_eq, hneg, List.length_append,
    List.length_append]
  cases hr : r.neg with
  | true =>
    cases hn : n.neg with
    | true =>
      rw [hr, hn] at h
      obtain ⟨-, htail⟩ := List.cons_prefix_cons.mp h
      exact Nat.add_le_add_left (length_unsigned_le ht htail) _
    | false =>
      exfalso
      rw [hr, hn] at h
      obtain ⟨d, ds, hds⟩ := List.exists_cons_of_ne_nil n.int_digits.1
      have hd := n.int_digits.2 d (by rw [hds]; simp)
      have hint : n.toRun.unsigned = d :: (ds ++ (JsonNumber.fractionText n.frac
          ++ JsonNumber.exponentText n.exp)) := by
        rw [NumberRun.unsigned, ← List.cons_append, ← hds]
        rfl
      rw [hint] at h
      obtain ⟨rfl, -⟩ := List.cons_prefix_cons.mp h
      revert hd
      decide
  | false =>
    cases hn : n.neg with
    | true =>
      rw [hr, hn] at h
      rw [unsigned_eq_nil h]
      exact Nat.zero_le _
    | false =>
      rw [hr, hn] at h
      exact Nat.add_le_add_left (length_unsigned_le ht h) _

end Longest

/-! ### A number that goes as far as it can -/

/-- A digit behind a number is part of a longer run. -/
theorem exists_run_digit (n : JsonNumber) {c : UInt8} (hc : isdigit c = true) :
  ∃ r : NumberRun, r.render = n.render ++ [c]
  := by
  have happend : ∀ {ds : List UInt8}, (∀ d ∈ ds, isdigit d = true) →
      ∀ d ∈ ds ++ [c], isdigit d = true := by
    intro ds hds d hd
    rw [List.mem_append, List.mem_singleton] at hd
    obtain hd | rfl := hd
    · exact hds d hd
    · exact hc
  cases hexp : n.exp with
  | some e =>
    obtain ⟨mark, sign, ds⟩ := e
    obtain ⟨hmark, hsign, -, hds⟩ := n.exp_digits _ hexp
    use { n.toRun with
      exp := some (mark, sign, ds ++ [c])
      exp_digits := by
        intro e he
        obtain rfl := Option.some.inj he
        exact ⟨hmark, hsign, happend hds⟩ }
    simp [NumberRun.render, JsonNumber.render, JsonNumber.toRun, hexp, JsonNumber.exponentText]
  | none =>
    cases hfrac : n.frac with
    | some ds =>
      use { n.toRun with
        frac := some (ds ++ [c])
        frac_digits := by
          intro ds' hds'
          obtain rfl := Option.some.inj hds'
          exact happend (n.frac_digits ds hfrac).2 }
      simp [NumberRun.render, JsonNumber.render, JsonNumber.toRun, hexp, hfrac,
        JsonNumber.exponentText, JsonNumber.fractionText]
    | none =>
      use { n.toRun with
        int := n.int ++ [c]
        int_digits := happend n.int_digits.2 }
      simp [NumberRun.render, JsonNumber.render, JsonNumber.toRun, hexp, hfrac,
        JsonNumber.exponentText, JsonNumber.fractionText]

/-- Where the longest run of a text is a number, what is behind it is no part of a longer one. -/
theorem endsAt_of_longest {n : JsonNumber} {t : List UInt8}
    (h : ∀ r : NumberRun, r.render <+: n.render ++ t → r.render.length ≤ n.render.length) :
  n.EndsAt t
  := by
  -- a run with one more byte would be longer
  have hnone : ∀ {c : UInt8} {r : NumberRun}, byteAt t 0 = c → c ≠ 0 →
      r.render = n.render ++ [c] → False := by
    intro c r hc hz hr
    obtain ⟨t, rfl⟩ := eq_cons_of_byteAt hc hz
    have hle := h r (by rw [hr, List.append_cons n.render c t]; exact List.prefix_append _ _)
    rw [hr, List.length_append, List.length_singleton] at hle
    omega
  have hmark : ∀ {c : UInt8}, n.exp = none → c = 'e'.toUInt8 ∨ c = 'E'.toUInt8 →
      ∃ r : NumberRun, r.render = n.render ++ [c] := by
    intro c hexp hc
    use { n.toRun with
      exp := some (c, [], [])
      exp_digits := by
        intro e he
        obtain rfl := Option.some.inj he
        exact ⟨hc, .inl rfl, by simp⟩ }
    simp [NumberRun.render, JsonNumber.render, JsonNumber.toRun, hexp, JsonNumber.exponentText]
  refine ⟨?_, ?_, ?_⟩
  · cases hc : isdigit (byteAt t 0) with
    | false => rfl
    | true =>
      exfalso
      obtain ⟨r, hr⟩ := exists_run_digit n hc
      apply hnone rfl _ hr
      intro hz
      rw [hz] at hc
      revert hc
      decide
  · intro hexp
    constructor
    · intro he
      obtain ⟨r, hr⟩ := hmark hexp (.inl rfl)
      exact hnone he (by decide) hr
    · intro hE
      obtain ⟨r, hr⟩ := hmark hexp (.inr rfl)
      exact hnone hE (by decide) hr
  · intro hexp hfrac hdot
    refine @hnone _ { n.toRun with frac := some [], frac_digits := ?_ } hdot (by decide) ?_
    · intro ds hds
      obtain rfl := Option.some.inj hds
      simp
    · simp [NumberRun.render, JsonNumber.render, JsonNumber.toRun, hexp, hfrac,
        JsonNumber.exponentText, JsonNumber.fractionText]

/-- Whether a number has a fraction or an exponent is told by its text. -/
theorem JsonNumber.isReal_eq (n : JsonNumber) :
  n.isReal = n.render.any (fun c => c = '.'.toUInt8 || c = 'e'.toUInt8 || c = 'E'.toUInt8)
  := by
  have hdigits : ∀ {ds : List UInt8}, (∀ c ∈ ds, isdigit c = true) →
      ds.any (fun c => c = '.'.toUInt8 || c = 'e'.toUInt8 || c = 'E'.toUInt8) = false := by
    intro ds hds
    rw [List.any_eq_false]
    intro c hc h
    have hd := hds c hc
    simp only [Bool.or_eq_true, decide_eq_true_eq] at h
    rcases h with (rfl | rfl) | rfl
    all_goals
      revert hd
      decide
  have hsign : (if n.neg then ['-'.toUInt8] else []).any
      (fun c => c = '.'.toUInt8 || c = 'e'.toUInt8 || c = 'E'.toUInt8) = false := by
    cases n.neg with
    | true => decide
    | false => rfl
  rw [isReal, render, List.any_append, List.any_append, List.any_append, hsign,
    hdigits n.int_digits.2, Bool.false_or, Bool.false_or]
  congr 1
  · cases n.frac with
    | none => rfl
    | some ds => rfl
  · cases hexp : n.exp with
    | none => rfl
    | some e =>
      obtain ⟨hmark, -⟩ := n.exp_digits e hexp
      rw [exponentText, List.any_cons]
      rcases hmark with hmark | hmark
      all_goals
        rw [hmark]
        rfl

/-- The text of a number has no terminator in it. -/
theorem render_prefix_zero {n : JsonNumber} {s : List UInt8} (h : n.render <+: s ++ [0]) :
  n.render <+: s
  := by
  obtain ⟨t, ht⟩ := h
  rcases List.eq_nil_or_concat' t with rfl | ⟨t, c, rfl⟩
  · exfalso
    apply n.zero_not_mem
    rw [← List.append_nil n.render, ht]
    simp
  · rw [← List.append_assoc] at ht
    obtain ⟨rfl, -⟩ := List.append_inj' ht rfl
    exact List.prefix_append _ _

/-- What is read of a text is its longest run, when that is a number, and nothing else. -/
theorem velyJsonNum_longest (s : List UInt8) :
  ((velyJsonNum (s ++ [0])).isSome = true ↔ ∃ r, LongestRun r s ∧ r.IsNumber)
  ∧ ∀ real k, velyJsonNum (s ++ [0]) = some (real, k) →
    ∃ n, LongestNumber n s ∧ n.render = s.take k ∧ n.render.length = k
      ∧ ∀ n' : JsonNumber, n'.render = s.take k → real = n'.isReal
  := by
  have hread : ∀ {real k}, velyJsonNum (s ++ [0]) = some (real, k) →
      ∃ n : JsonNumber, n.render <+: s ∧ real = n.isReal ∧ k = n.render.length
        ∧ ∀ r : NumberRun, r.render <+: s → r.render.length ≤ n.render.length := by
    intro real k h
    obtain ⟨n, t, hs, hreal, hk, hends⟩ := velyJsonNum_ends h
    refine ⟨n, render_prefix_zero ⟨t, hs.symm⟩, hreal, hk, ?_⟩
    intro r hr
    apply length_run_le hends
    rw [← hs]
    exact hr.trans (List.prefix_append _ _)
  refine ⟨⟨?_, ?_⟩, ?_⟩
  · intro h
    obtain ⟨⟨real, k⟩, h⟩ := Option.isSome_iff_exists.mp h
    obtain ⟨n, hn, -, -, hlongest⟩ := hread h
    refine ⟨n.toRun, ⟨?_, ?_⟩, n, n.render_toRun.symm⟩
    · rwa [n.render_toRun]
    · rwa [n.render_toRun]
  · rintro ⟨r, ⟨⟨t, rfl⟩, hlongest⟩, n, hn⟩
    have hends : n.EndsAt t := by
      apply endsAt_of_longest
      rwa [hn]
    have hends : n.EndsAt (t ++ [0]) := by
      rwa [JsonNumber.EndsAt, byteAt_append_zero]
    rw [← hn, List.append_assoc, velyJsonNum_of_endsAt n hends]
    rfl
  · intro real k h
    obtain ⟨n, hn, rfl, rfl, hlongest⟩ := hread h
    have htake : n.render = s.take n.render.length := by
      obtain ⟨t, rfl⟩ := hn
      rw [List.take_left]
    refine ⟨n, ⟨hn, ?_⟩, htake, rfl, ?_⟩
    · intro n' hn'
      rw [← n'.render_toRun] at hn' ⊢
      exact hlongest _ hn'
    · intro n' hn'
      rw [n.isReal_eq, n'.isReal_eq, hn', ← htake]

end Vely
