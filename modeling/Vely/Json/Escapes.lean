import Vely.Json.Valid
import Vely.Lib.Run

/-!
# The escapes that are decoded

What `vely_json_to_utf8` takes for an escape, and what it writes for it.  Behind a number that is a
surrogate it takes any second number for the other one of the pair.
-/

namespace Vely

/-! ### Escapes -/

/-- An escape, the bytes it is replaced by, and whether its surrogates are a high one and a low one
behind it. -/
inductive Escape : List UInt8 → List UInt8 → Bool → Prop where
  | letter {l : UInt8} (ok : isEscape l = true) : Escape ['\\'.toUInt8, l] [escapeValue l] true
  | unit {a b c d : UInt8} (ok : isHexDigit a ∧ isHexDigit b ∧ isHexDigit c ∧ isHexDigit d)
      (hs : isSurrogate (codeUnit a b c d) = false) (hf : codeUnit a b c d ≠ 0xFEFF) :
      Escape ['\\'.toUInt8, 'u'.toUInt8, a, b, c, d]
        (String.utf8EncodeChar (Char.ofNat (codeUnit a b c d))) true
  | pair {a b c d a' b' c' d' : UInt8} {bs : List UInt8}
      (ok : isHexDigit a ∧ isHexDigit b ∧ isHexDigit c ∧ isHexDigit d)
      (ok' : isHexDigit a' ∧ isHexDigit b' ∧ isHexDigit c' ∧ isHexDigit d')
      (hs : isSurrogate (codeUnit a b c d) = true)
      (hbs : decodedUnit (velyMakeFromUtf8Surrogate (codeUnit a b c d) (codeUnit a' b' c' d'))
        = some bs) :
      Escape ['\\'.toUInt8, 'u'.toUInt8, a, b, c, d, '\\'.toUInt8, 'u'.toUInt8, a', b', c', d'] bs
        (isHighSurrogate (codeUnit a b c d) && isLowSurrogate (codeUnit a' b' c' d'))

/-- A text without a closing quote in it, the bytes it is decoded to, and whether all its surrogates
are in pairs. -/
inductive Decodes : List UInt8 → List UInt8 → Bool → Prop where
  | nil : Decodes [] [] true
  | byte {t bs : List UInt8} {p : Bool} {c : UInt8}
      (hc : c ≠ 0 ∧ c ≠ '"'.toUInt8 ∧ c ≠ '\\'.toUInt8) (h : Decodes t bs p) :
      Decodes (c :: t) (c :: bs) p
  | escape {t bs x y : List UInt8} {p q : Bool} (he : Escape x y q) (h : Decodes t bs p) :
      Decodes (x ++ t) (y ++ bs) (q && p)

/-- Two texts, one behind the other. -/
theorem Decodes.append {t bs t' bs' : List UInt8} {p p' : Bool} (h : Decodes t bs p)
    (h' : Decodes t' bs' p') :
  Decodes (t ++ t') (bs ++ bs') (p && p')
  := by
  induction h with
  | nil => exact h'
  | byte hc h ih => exact .byte hc ih
  | escape he h ih =>
    rw [List.append_assoc, List.append_assoc, Bool.and_assoc]
    exact .escape he ih

theorem decodedUnit_eq_some {u : Int} {bs : List UInt8} :
  decodedUnit u = some bs ↔ velyDecodeUtf8 u = .ok bs
  := by
  rw [decodedUnit]
  cases velyDecodeUtf8 u with
  | error e => simp [Except.toOption]
  | ok bs' => simp [Except.toOption]

/-- The number of an escape that is no surrogate. -/
theorem decodedUnit_unit {u : Nat} (hlt : u < 0x10000) (hs : isSurrogate u = false)
    (hf : u ≠ 0xFEFF) :
  decodedUnit u = some (String.utf8EncodeChar (Char.ofNat u))
  := by
  simp only [isSurrogate, Bool.and_eq_false_iff, decide_eq_false_iff_not] at hs
  apply decodedUnit_char <;> omega

/-- Every escape is replaced by its bytes. -/
theorem Escape.replaces {x y : List UInt8} {q : Bool} (h : Escape x y q) :
  Replaces x y
  := by
  cases h with
  | letter ok => apply replaces_letter (escapedByte_of_isEscape ok)
  | @unit a b c d ok hs hf =>
    have hdecode := decodedUnit_eq_some.mp (decodedUnit_unit (codeUnit_lt ok) hs hf)
    have hlen := (length_of_velyDecodeUtf8 hdecode).2
    apply @replaces_unicode _ [a, b, c, d] _ _ _ hdecode
    · change _ ≤ 6
      omega
    · intro rest
      apply unicodeEscape_single ok hs
  | @pair a b c d a' b' c' d' bs ok ok' hs hbs =>
    have hdecode := decodedUnit_eq_some.mp hbs
    have hlen := (length_of_velyDecodeUtf8 hdecode).2
    apply @replaces_unicode _ [a, b, c, d, '\\'.toUInt8, 'u'.toUInt8, a', b', c', d'] _ _ _ hdecode
    · change _ ≤ 12
      omega
    · intro rest
      apply unicodeEscape_two ok ok' hs

/-! ### What is replaced is an escape -/

theorem isHexDigit_of_hexValue {c : UInt8} {d : Nat} (h : hexValue c = some d) :
  isHexDigit c = true
  := by
  have hall : ∀ n < 256, (hexValue (UInt8.ofNat n)).isSome = true →
      isHexDigit (UInt8.ofNat n) = true := by decide +kernel
  have hc := hall c.toNat c.toNat_lt
  rw [UInt8.ofNat_toNat, h] at hc
  exact hc rfl

theorem isEscape_of_escapedByte {c b : UInt8} (h : escapedByte c = some b) :
  isEscape c = true
  := by
  have hall : ∀ n < 256, (escapedByte (UInt8.ofNat n)).isSome = true →
      isEscape (UInt8.ofNat n) = true := by decide +kernel
  have hc := hall c.toNat c.toNat_lt
  rw [UInt8.ofNat_toNat, h] at hc
  exact hc rfl

/-- A number is read of four digits. -/
theorem exists_digits {v : List UInt8} {r : Int} (h : velyGetHex v = .ok r) :
  ∃ a b c d rest, v = a :: b :: c :: d :: rest
    ∧ (isHexDigit a ∧ isHexDigit b ∧ isHexDigit c ∧ isHexDigit d) ∧ r = codeUnit a b c d
  := by
  have hlen := length_of_velyGetHex h
  obtain ⟨a, b, c, d, rest, rfl⟩ : ∃ a b c d rest, v = a :: b :: c :: d :: rest := by
    match v, hlen with
    | a :: b :: c :: d :: rest, _ => exact ⟨a, b, c, d, rest, rfl⟩
  have ok : isHexDigit a ∧ isHexDigit b ∧ isHexDigit c ∧ isHexDigit d := by
    have hrange : List.range 4 = [0, 1, 2, 3] := rfl
    simp only [velyGetHex, hrange, List.foldlM_cons, List.foldlM_nil, byteAt_cons_zero,
      byteAt_cons_succ] at h
    cases ha : hexValue a with
    | none =>
      rw [ha] at h
      cases h
    | some va =>
      cases hb : hexValue b with
      | none =>
        rw [ha, hb] at h
        cases h
      | some vb =>
        cases hc : hexValue c with
        | none =>
          rw [ha, hb, hc] at h
          cases h
        | some vc =>
          cases hd : hexValue d with
          | none =>
            rw [ha, hb, hc, hd] at h
            cases h
          | some vd =>
            exact ⟨isHexDigit_of_hexValue ha, isHexDigit_of_hexValue hb, isHexDigit_of_hexValue hc,
              isHexDigit_of_hexValue hd⟩
  refine ⟨a, b, c, d, rest, rfl, ok, ?_⟩
  rw [velyGetHex_digits ok] at h
  exact (Except.ok.inj h).symm

/-- An escape with `u` that is replaced. -/
theorem exists_escape_unicode {v bs : List UInt8} {u : Int} {n : Nat}
    (h : unicodeEscape v = .ok (u, n)) (hbs : velyDecodeUtf8 u = .ok bs) :
  ∃ x q rest, v = x ++ rest ∧ Escape ('\\'.toUInt8 :: 'u'.toUInt8 :: x) bs q
  := by
  rw [unicodeEscape] at h
  cases hr : velyGetHex v with
  | error e =>
    rw [hr] at h
    cases h
  | ok r =>
    obtain ⟨a, b, c, d, rest, rfl, ok, rfl⟩ := exists_digits hr
    rw [hr, ok_bind] at h
    split at h
    case isFalse hnot =>
      cases h
      have hs : isSurrogate (codeUnit a b c d) = false := by
        simp only [isSurrogate, Bool.and_eq_false_iff, decide_eq_false_iff_not]
        omega
      have hf : codeUnit a b c d ≠ 0xFEFF := by
        intro hf
        rw [hf] at hbs
        cases hbs
      have hunit := decodedUnit_unit (codeUnit_lt ok) hs hf
      rw [decodedUnit_eq_some.mpr hbs] at hunit
      obtain rfl := Option.some.inj hunit
      exact ⟨[a, b, c, d], true, rest, rfl, .unit ok hs hf⟩
    case isTrue hrange =>
      have hs : isSurrogate (codeUnit a b c d) = true := by
        simp only [isSurrogate, Bool.and_eq_true, decide_eq_true_eq]
        omega
      split at h
      · cases h
      case isFalse hnext =>
        rw [not_or, not_not, not_not] at hnext
        cases hr' : velyGetHex ((a :: b :: c :: d :: rest).drop 6) with
        | error e =>
          rw [hr'] at h
          cases h
        | ok r' =>
          obtain ⟨a', b', c', d', rest', hrest, ok', rfl⟩ := exists_digits hr'
          rw [hr', ok_bind] at h
          cases h
          obtain ⟨s, z, hz⟩ : ∃ s z, rest = s :: z :: a' :: b' :: c' :: d' :: rest' := by
            cases rest with
            | nil => cases hrest
            | cons s rest =>
              cases rest with
              | nil => cases hrest
              | cons z rest => exact ⟨s, z, by rw [← hrest]; rfl⟩
          subst hz
          have hnext : s = '\\'.toUInt8 ∧ z = 'u'.toUInt8 := hnext
          obtain ⟨rfl, rfl⟩ := hnext
          exact ⟨[a, b, c, d, '\\'.toUInt8, 'u'.toUInt8, a', b', c', d'], _, rest', rfl,
            .pair ok ok' hs (decodedUnit_eq_some.mpr hbs)⟩

/-- What is replaced behind a backslash is an escape. -/
theorem exists_escape {done gap rem : List UInt8} {r : List UInt8 × Nat × Nat}
    (hrem : byteAt rem 0 = '\\'.toUInt8)
    (h : replaceEscape (done ++ (gap ++ rem)) (done.length + gap.length + 1) gap.length = .ok r) :
  ∃ x y q rest, rem = x ++ rest ∧ Escape x y q
  := by
  obtain ⟨rem, rfl⟩ : ∃ rem', rem = '\\'.toUInt8 :: rem' := by
    cases rem with
    | nil => exact absurd hrem (by decide)
    | cons c rem =>
      rw [byteAt_cons_zero] at hrem
      exact ⟨rem, by rw [hrem]⟩
  have hbyte : byteAt (done ++ (gap ++ '\\'.toUInt8 :: rem)) (done.length + gap.length + 1)
      = byteAt rem 0 := byteAt_middle ('\\'.toUInt8 :: rem) 1
  have hdrop : (done ++ (gap ++ '\\'.toUInt8 :: rem)).drop (done.length + gap.length + 1 + 1)
      = rem.drop 1 := by
    rw [← List.append_assoc, ← List.drop_drop, ← List.drop_drop, ← List.length_append,
      List.drop_left]
    rfl
  rw [replaceEscape, hbyte] at h
  cases hb : escapedByte (byteAt rem 0) with
  | some b =>
    have hletter := isEscape_of_escapedByte hb
    cases rem with
    | nil => exact absurd hletter (by decide)
    | cons l rem => exact ⟨['\\'.toUInt8, l], _, _, rem, rfl, .letter hletter⟩
  | none =>
    rw [hb] at h
    simp only at h
    split at h
    case isFalse => cases h
    case isTrue hu =>
      obtain ⟨rem, rfl⟩ : ∃ rem', rem = 'u'.toUInt8 :: rem' := by
        cases rem with
        | nil => exact absurd hu (by decide)
        | cons c rem =>
          rw [byteAt_cons_zero] at hu
          exact ⟨rem, by rw [hu]⟩
      rw [hdrop, List.drop_one, List.tail_cons] at h
      obtain ⟨⟨u, n⟩, hescape, h⟩ := exists_of_bind h
      obtain ⟨bs, hbs, -⟩ := exists_of_bind h
      obtain ⟨x, q, rest, rfl, he⟩ := exists_escape_unicode hescape hbs
      exact ⟨_, bs, q, rest, rfl, he⟩

end Vely
