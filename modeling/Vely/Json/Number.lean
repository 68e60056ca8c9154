import Vely.Json.Model
import Vely.Json.StringFrame
import Vely.Lib.JsonGrammar

/-!
# Numbers

`vely_json_num` accepts a number of the grammar, and takes all of it, unless what is behind it
would go on with it.
-/

namespace Vely

/-! ### Digits -/

theorem takeWhile_append_dropWhile_digits (s : List UInt8) :
  s.takeWhile isdigit ++ s.dropWhile isdigit = s
  := List.takeWhile_append_dropWhile

theorem digits_of_takeWhile (s : List UInt8) :
  ∀ c ∈ s.takeWhile isdigit, isdigit c = true
  := fun _ hc => List.mem_takeWhile_imp hc

/-- The digits at the beginning of a text that starts with one. -/
theorem takeWhile_ne_nil {s : List UInt8} (h : isdigit (byteAt s 0) = true) :
  s.takeWhile isdigit ≠ []
  := by
  cases s with
  | nil =>
    revert h
    decide
  | cons c s =>
    rw [byteAt_cons_zero] at h
    simp [h]

/-- What is behind the digits at the beginning of a text. -/
theorem isdigit_dropWhile (s : List UInt8) :
  isdigit (byteAt (s.dropWhile isdigit) 0) = false
  := by
  induction s with
  | nil => decide
  | cons c s ih =>
    rw [List.dropWhile_cons]
    split
    · exact ih
    · next h => simpa using h

/-- Digits before something else. -/
theorem dropWhile_digits {ds t : List UInt8} (hds : ∀ c ∈ ds, isdigit c = true)
    (ht : isdigit (byteAt t 0) = false) :
  (ds ++ t).dropWhile isdigit = t
  := by
  rw [List.dropWhile_append_of_pos hds]
  cases t with
  | nil => rfl
  | cons c t =>
    rw [byteAt_cons_zero] at ht
    rw [List.dropWhile_cons_of_neg]
    simp [ht]

/-- The first byte of digits. -/
theorem isdigit_byteAt {ds t : List UInt8} (hne : ds ≠ []) (hds : ∀ c ∈ ds, isdigit c = true) :
  isdigit (byteAt (ds ++ t) 0) = true
  := by
  cases ds with
  | nil => exact absurd rfl hne
  | cons c ds => exact hds c (by simp)

/-- A text that starts with a byte that is not zero. -/
theorem eq_cons_of_byteAt {s : List UInt8} {c : UInt8} (h : byteAt s 0 = c) (hc : c ≠ 0) :
  ∃ s', s = c :: s'
  := by
  cases s with
  | nil => exact absurd h.symm hc
  | cons d s =>
    rw [byteAt_cons_zero] at h
    exact ⟨s, by rw [h]⟩

/-! ### The parts of a number -/

/-- The fraction that is passed. -/
theorem skipFraction_sound {s t : List UInt8} {b : Bool} (h : skipFraction s = some (b, t)) :
  ∃ frac : Option (List UInt8), (∀ ds ∈ frac, ds ≠ [] ∧ ∀ c ∈ ds, isdigit c = true)
    ∧ b = frac.isSome
    ∧ s = JsonNumber.fractionText frac ++ t
    ∧ (isdigit (byteAt s 0) = false → isdigit (byteAt t 0) = false)
    ∧ (frac = none → byteAt t 0 ≠ '.'.toUInt8)
  := by
  rw [skipFraction] at h
  split at h
  · next hdot =>
    split at h
    · next hdigit =>
      obtain ⟨rfl, rfl⟩ := by simpa using h
      obtain ⟨s', rfl⟩ := eq_cons_of_byteAt hdot (by decide)
      rw [byteAt_cons_succ] at hdigit
      refine ⟨some (s'.takeWhile isdigit), ?_, rfl, ?_, ?_, nofun⟩
      · intro ds hds
        obtain rfl := Option.some.inj hds
        exact ⟨takeWhile_ne_nil hdigit, digits_of_takeWhile s'⟩
      · rw [JsonNumber.fractionText, List.tail_cons, List.cons_append,
          takeWhile_append_dropWhile_digits]
      · intro _
        exact isdigit_dropWhile s'
    · cases h
  · next hdot =>
    obtain ⟨rfl, rfl⟩ := by simpa using h
    exact ⟨none, by simp, rfl, rfl, id, fun _ => hdot⟩

/-- The sign of an exponent. -/
theorem exists_sign (s : List UInt8) :
  ∃ sign, (sign = [] ∨ sign = ['+'.toUInt8] ∨ sign = ['-'.toUInt8])
    ∧ s = sign ++ (if byteAt s 0 = '+'.toUInt8 ∨ byteAt s 0 = '-'.toUInt8 then s.drop 1 else s)
  := by
  split
  · next hsign =>
    rcases hsign with h | h
    · obtain ⟨s, rfl⟩ := eq_cons_of_byteAt h (by decide)
      exact ⟨['+'.toUInt8], by simp, rfl⟩
    · obtain ⟨s, rfl⟩ := eq_cons_of_byteAt h (by decide)
      exact ⟨['-'.toUInt8], by simp, rfl⟩
  · exact ⟨[], by simp, rfl⟩

/-- The exponent that is passed. -/
theorem skipExponent_sound {s t : List UInt8} {b : Bool} (h : skipExponent s = some (b, t)) :
  ∃ exp : Option (UInt8 × List UInt8 × List UInt8),
    (∀ e ∈ exp, (e.1 = 'e'.toUInt8 ∨ e.1 = 'E'.toUInt8)
      ∧ (e.2.1 = [] ∨ e.2.1 = ['+'.toUInt8] ∨ e.2.1 = ['-'.toUInt8])
      ∧ e.2.2 ≠ [] ∧ ∀ c ∈ e.2.2, isdigit c = true)
    ∧ b = exp.isSome
    ∧ s = JsonNumber.exponentText exp ++ t
    ∧ (isdigit (byteAt s 0) = false → isdigit (byteAt t 0) = false)
    ∧ (exp = none → t = s ∧ byteAt t 0 ≠ 'e'.toUInt8 ∧ byteAt t 0 ≠ 'E'.toUInt8)
  := by
  rw [skipExponent] at h
  split at h
  · next hmark =>
    obtain ⟨e, s', rfl⟩ : ∃ e s', s = e :: s' := by
      rcases hmark with h | h
      · exact ⟨_, eq_cons_of_byteAt h (by decide)⟩
      · exact ⟨_, eq_cons_of_byteAt h (by decide)⟩
    obtain ⟨sign, hsign, hs'⟩ := exists_sign s'
    simp only [List.drop_succ_cons, List.drop_zero] at h
    generalize (if byteAt s' 0 = '+'.toUInt8 ∨ byteAt s' 0 = '-'.toUInt8 then s'.drop 1 else s')
      = s'' at h hs'
    split at h
    · next hdigit =>
      obtain ⟨rfl, rfl⟩ := by simpa using h
      refine ⟨some (e, sign, s''.takeWhile isdigit), ?_, rfl, ?_, ?_, nofun⟩
      · intro x hx
        obtain rfl := Option.some.inj hx
        exact ⟨hmark, hsign, takeWhile_ne_nil hdigit, digits_of_takeWhile s''⟩
      · rw [JsonNumber.exponentText, List.cons_append, List.append_assoc,
          takeWhile_append_dropWhile_digits, ← hs']
      · intro _
        exact isdigit_dropWhile s''
    · cases h
  · next hmark =>
    obtain ⟨rfl, rfl⟩ := by simpa using h
    rw [not_or] at hmark
    exact ⟨none, by simp, rfl, rfl, id, fun _ => ⟨rfl, hmark⟩⟩

/-- What is behind a number is no part of a longer one: no digit, and no exponent or point where the
number might have one. -/
def JsonNumber.EndsAt (n : JsonNumber) (t : List UInt8) : Prop :=
  isdigit (byteAt t 0) = false
    ∧ (n.exp = none → byteAt t 0 ≠ 'e'.toUInt8 ∧ byteAt t 0 ≠ 'E'.toUInt8)
    ∧ (n.exp = none → n.frac = none → byteAt t 0 ≠ '.'.toUInt8)

/-- What is accepted as a number is one, and goes as far as it can. -/
theorem velyJsonNum_ends {s : List UInt8} {real : Bool} {k : Nat}
    (h : velyJsonNum s = some (real, k)) :
  ∃ (n : JsonNumber) (t : List UInt8), s = n.render ++ t ∧ real = n.isReal ∧ k = n.render.length
    ∧ n.EndsAt t
  := by
  rw [velyJsonNum] at h
  obtain ⟨neg, hneg⟩ : ∃ neg : Bool, s = (if neg then ['-'.toUInt8] else [])
      ++ (if byteAt s 0 = '-'.toUInt8 then s.drop 1 else s) := by
    split
    · next hminus =>
      use true
      obtain ⟨s, rfl⟩ := eq_cons_of_byteAt hminus (by decide)
      rfl
    · exact ⟨false, rfl⟩
  generalize (if byteAt s 0 = '-'.toUInt8 then s.drop 1 else s) = s₁ at h hneg
  simp only at h
  split at h
  · cases h
  · next hdigit =>
    split at h
    · cases h
    · next hzero =>
      rw [Bool.not_eq_true, Bool.not_eq_false] at hdigit
      obtain ⟨⟨f, s₂⟩, hfrac, h⟩ := Option.bind_eq_some_iff.mp h
      obtain ⟨⟨e, s₃⟩, hexp, h⟩ := Option.bind_eq_some_iff.mp h
      obtain ⟨rfl, rfl⟩ : (f || e) = real ∧ s.length - s₃.length = k := by simpa using h
      obtain ⟨frac, hfrac_digits, rfl, hs₂, hend₂, hdot⟩ := skipFraction_sound hfrac
      obtain ⟨exp, hexp_digits, rfl, hs₃, hend₃, hmark⟩ := skipExponent_sound hexp
      have hint : s₁ = s₁.takeWhile isdigit ++ s₁.dropWhile isdigit :=
        (takeWhile_append_dropWhile_digits s₁).symm
      let n : JsonNumber :=
        { neg, int := s₁.takeWhile isdigit, frac, exp
          int_digits := ⟨takeWhile_ne_nil hdigit, digits_of_takeWhile s₁⟩
          no_leading_zero := by
            intro hhead
            rcases s₁ with _ | ⟨c, _ | ⟨d, s₁⟩⟩
            · cases hhead
            · rw [byteAt_cons_zero] at hdigit
              simp [hdigit]
            · rw [byteAt_cons_zero] at hdigit
              rw [byteAt_cons_zero, byteAt_cons_succ, byteAt_cons_zero] at hzero
              rw [List.takeWhile_cons_of_pos hdigit] at hhead ⊢
              obtain rfl : c = '0'.toUInt8 := by simpa using hhead
              have hd : isdigit d = false := by simpa using hzero
              simp [hd]
          frac_digits := hfrac_digits
          exp_digits := hexp_digits }
      have hs : s = n.render ++ s₃ := by
        rw [hneg, hint, hs₂]
        simp only at hs₃
        rw [hs₃]
        simp only [JsonNumber.render, n, List.append_assoc]
      refine ⟨n, s₃, hs, rfl, ?_, hend₃ (hend₂ (isdigit_dropWhile s₁)), fun hexp => (hmark hexp).2,
        ?_⟩
      · have hlen := congrArg List.length hs
        rw [List.length_append] at hlen
        omega
      · intro hexp hfrac
        rw [(hmark hexp).1]
        exact hdot hfrac

/-- What is accepted as a number is one. -/
theorem velyJsonNum_sound {s : List UInt8} {real : Bool} {k : Nat}
    (h : velyJsonNum s = some (real, k)) :
  ∃ (n : JsonNumber) (t : List UInt8), s = n.render ++ t ∧ real = n.isReal ∧ k = n.render.length
  := by
  obtain ⟨n, t, hs, hreal, hk, -⟩ := velyJsonNum_ends h
  exact ⟨n, t, hs, hreal, hk⟩

/-- What is behind a number does not go on with it. -/
def EndsNumber (t : List UInt8) : Prop :=
  isdigit (byteAt t 0) = false ∧ byteAt t 0 ≠ '.'.toUInt8 ∧ byteAt t 0 ≠ 'e'.toUInt8
    ∧ byteAt t 0 ≠ 'E'.toUInt8

theorem skipFraction_render {frac : Option (List UInt8)} {t : List UInt8}
    (hfrac : ∀ ds ∈ frac, ds ≠ [] ∧ ∀ c ∈ ds, isdigit c = true)
    (ht : isdigit (byteAt t 0) = false) (hdot : frac = none → byteAt t 0 ≠ '.'.toUInt8) :
  skipFraction (JsonNumber.fractionText frac ++ t) = some (frac.isSome, t)
  := by
  cases frac with
  | none =>
    rw [JsonNumber.fractionText, List.nil_append, skipFraction, if_neg (hdot rfl)]
    rfl
  | some ds =>
    obtain ⟨hne, hds⟩ := hfrac ds rfl
    rw [JsonNumber.fractionText, List.cons_append, skipFraction, byteAt_cons_zero, if_pos rfl,
      byteAt_cons_succ, if_pos (isdigit_byteAt hne hds), List.drop_succ_cons, List.drop_zero,
      dropWhile_digits hds ht]
    rfl

theorem skipExponent_render {exp : Option (UInt8 × List UInt8 × List UInt8)} {t : List UInt8}
    (hexp : ∀ e ∈ exp, (e.1 = 'e'.toUInt8 ∨ e.1 = 'E'.toUInt8)
      ∧ (e.2.1 = [] ∨ e.2.1 = ['+'.toUInt8] ∨ e.2.1 = ['-'.toUInt8])
      ∧ e.2.2 ≠ [] ∧ ∀ c ∈ e.2.2, isdigit c = true)
    (hdigit : isdigit (byteAt t 0) = false)
    (hmark : exp = none → byteAt t 0 ≠ 'e'.toUInt8 ∧ byteAt t 0 ≠ 'E'.toUInt8) :
  skipExponent (JsonNumber.exponentText exp ++ t) = some (exp.isSome, t)
  := by
  cases exp with
  | none =>
    obtain ⟨he, hE⟩ := hmark rfl
    rw [JsonNumber.exponentText, List.nil_append, skipExponent, if_neg (by simp [he, hE])]
    rfl
  | some e =>
    obtain ⟨mark, sign, ds⟩ := e
    obtain ⟨hmark, hsign, hne, hds⟩ := hexp _ rfl
    have hfirst := isdigit_byteAt (t := t) hne hds
    have hrest : (if byteAt (sign ++ ds ++ t) 0 = '+'.toUInt8
        ∨ byteAt (sign ++ ds ++ t) 0 = '-'.toUInt8 then (sign ++ ds ++ t).drop 1
        else sign ++ ds ++ t) = ds ++ t := by
      rcases hsign with h | h | h <;> simp only at h <;> subst h
      · rw [List.nil_append, if_neg]
        rintro (h | h) <;> rw [h] at hfirst <;> revert hfirst <;> decide
      · rw [if_pos (by simp)]
        rfl
      · rw [if_pos (by simp)]
        rfl
    rw [JsonNumber.exponentText, List.cons_append, skipExponent, byteAt_cons_zero, if_pos hmark,
      List.drop_succ_cons, List.drop_zero]
    simp only [hrest]
    rw [if_pos hfirst, dropWhile_digits hds hdigit]
    rfl

/-- The mark of an exponent is no digit, no point and no sign. -/
theorem ne_of_mark {e : UInt8} (h : e = 'e'.toUInt8 ∨ e = 'E'.toUInt8) :
  isdigit e = false ∧ e ≠ '.'.toUInt8 ∧ e ≠ '-'.toUInt8
  := by
  rcases h with rfl | rfl
  · decide
  · decide

/-- A number is taken as a whole when it goes as far as it can. -/
theorem velyJsonNum_of_endsAt (n : JsonNumber) {t : List UInt8} (ht : n.EndsAt t) :
  velyJsonNum (n.render ++ t) = some (n.isReal, n.render.length)
  := by
  obtain ⟨hne, hint⟩ := n.int_digits
  -- what is behind the fraction, and what is behind the digits before it
  have hexp_first : isdigit (byteAt (JsonNumber.exponentText n.exp ++ t) 0) = false
      ∧ (n.frac = none → byteAt (JsonNumber.exponentText n.exp ++ t) 0 ≠ '.'.toUInt8) := by
    cases hexp : n.exp with
    | none => exact ⟨ht.1, ht.2.2 hexp⟩
    | some e =>
      obtain ⟨mark, sign, ds⟩ := e
      obtain ⟨hmark, -⟩ := n.exp_digits _ hexp
      rw [JsonNumber.exponentText, List.cons_append, byteAt_cons_zero]
      obtain ⟨hdigit, hdot, -⟩ := ne_of_mark hmark
      exact ⟨hdigit, fun _ => hdot⟩
  have hfrac_first : isdigit (byteAt (JsonNumber.fractionText n.frac
      ++ (JsonNumber.exponentText n.exp ++ t)) 0) = false := by
    cases n.frac with
    | none => exact hexp_first.1
    | some ds => rfl
  have hfirst := isdigit_byteAt (t := JsonNumber.fractionText n.frac
    ++ (JsonNumber.exponentText n.exp ++ t)) hne hint
  have hsign : (if byteAt (n.render ++ t) 0 = '-'.toUInt8 then (n.render ++ t).drop 1
      else n.render ++ t)
      = n.int ++ (JsonNumber.fractionText n.frac ++ (JsonNumber.exponentText n.exp ++ t)) := by
    rw [JsonNumber.render]
    cases n.neg with
    | true => simp
    | false =>
      simp only [Bool.false_eq_true, if_false, List.nil_append, List.append_assoc]
      rw [if_neg]
      intro h
      rw [h] at hfirst
      revert hfirst
      decide
  have hzero : ¬ (byteAt (n.int ++ (JsonNumber.fractionText n.frac
        ++ (JsonNumber.exponentText n.exp ++ t))) 0 = '0'.toUInt8
      ∧ isdigit (byteAt (n.int ++ (JsonNumber.fractionText n.frac
        ++ (JsonNumber.exponentText n.exp ++ t))) 1) = true) := by
    rintro ⟨h0, h1⟩
    have hnlz := n.no_leading_zero
    rcases hi : n.int with _ | ⟨c, _ | ⟨d, ds⟩⟩
    · exact hne hi
    · rw [hi, List.singleton_append, byteAt_cons_succ, hfrac_first] at h1
      cases h1
    · rw [hi] at h0 hnlz
      simp only [List.cons_append, byteAt_cons_zero] at h0
      simp [h0] at hnlz
  rw [velyJsonNum]
  simp only [hsign]
  rw [if_neg (by simp [hfirst]), if_neg hzero, dropWhile_digits hint hfrac_first,
    skipFraction_render n.frac_digits hexp_first.1 hexp_first.2]
  simp only [Option.bind_eq_bind, Option.bind_some, skipExponent_render n.exp_digits ht.1 ht.2.1]
  simp [JsonNumber.isReal]

/-- A number is taken as a whole, unless what is behind it would go on with it. -/
theorem velyJsonNum_render (n : JsonNumber) {t : List UInt8} (ht : EndsNumber t) :
  velyJsonNum (n.render ++ t) = some (n.isReal, n.render.length)
  := by
  apply velyJsonNum_of_endsAt
  exact ⟨ht.1, fun _ => ht.2.2, fun _ _ => ht.2.1⟩

/-- The bytes of a number are not zero. -/
theorem JsonNumber.zero_not_mem (n : JsonNumber) :
  0 ∉ n.render
  := by
  have hdigits : ∀ ds : List UInt8, (∀ c ∈ ds, isdigit c = true) → 0 ∉ ds := by
    intro ds hds h0
    have h := hds 0 h0
    revert h
    decide
  intro h
  rw [render] at h
  simp only [List.mem_append] at h
  rcases h with ((h | h) | h) | h
  · split at h <;> revert h <;> decide
  · exact hdigits _ n.int_digits.2 h
  · cases hf : n.frac with
    | none => simp [hf, fractionText] at h
    | some ds =>
      rw [hf, fractionText, List.mem_cons] at h
      rcases h with h | h
      · revert h
        decide
      · exact hdigits _ (n.frac_digits ds hf).2 h
  · cases he : n.exp with
    | none => simp [he, exponentText] at h
    | some e =>
      obtain ⟨mark, sign, ds⟩ := e
      obtain ⟨hmark, hsign, -, hds⟩ := n.exp_digits _ he
      rw [he, exponentText, List.mem_cons, List.mem_append] at h
      simp only at hmark hsign hds
      rcases h with rfl | h | h
      · revert hmark
        decide
      · rcases hsign with rfl | rfl | rfl <;> revert h <;> decide
      · exact hdigits _ hds h

theorem JsonNumber.render_ne_nil (n : JsonNumber) :
  n.render ≠ []
  := by
  have hne := n.int_digits.1
  simp [render, hne]

/-- The number at the beginning of a text with a terminator behind it. -/
theorem velyJsonNum_text {s : List UInt8} {real : Bool} {k : Nat}
    (h : velyJsonNum (s ++ [0]) = some (real, k)) :
  ∃ (n : JsonNumber) (t : List UInt8), s = n.render ++ t ∧ real = n.isReal ∧ k = n.render.length
  := by
  obtain ⟨n, t, hs, hreal, hk⟩ := velyJsonNum_sound h
  rcases List.eq_nil_or_concat' t with rfl | ⟨t, c, rfl⟩
  · exfalso
    apply n.zero_not_mem
    rw [← List.append_nil n.render, ← hs]
    simp
  · rw [← List.append_assoc] at hs
    obtain ⟨rfl, -⟩ := List.append_inj' hs rfl
    exact ⟨n, t, rfl, hreal, hk⟩

end Vely
