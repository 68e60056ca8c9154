import Vely.Json.Decode

/-!
# Texts of strings

What `vely_utf8_to_json` writes is the text of a string of the grammar, unless the string has a
control character without a letter of its own: such a byte is copied.
-/

namespace Vely

/-- A text that may stand between quotes, with every surrogate in a pair. -/
def IsStringText (text : List UInt8) : Prop :=
  ∃ s : JsonString, s.content = text ∧ s.decode.isSome = true

/-- A byte between quotes is no control character. -/
theorem le_of_mem_content {s : JsonString} {b : UInt8} (h : b ∈ s.content) :
  32 ≤ b
  := by
  obtain ⟨c, -, hb⟩ := List.mem_flatMap.mp h
  have hhex : ∀ d, isHexDigit d = true → 32 ≤ d := by
    intro d hd
    simp only [isHexDigit, isdigit, Bool.or_eq_true, Bool.and_eq_true, decide_eq_true_eq] at hd
    grind
  cases c with
  | plain c ok =>
    obtain rfl := List.mem_singleton.mp hb
    rw [isPlain, Bool.and_eq_true, Bool.and_eq_true, decide_eq_true_eq] at ok
    exact ok.1.1
  | escape c ok =>
    have hall : ∀ l ∈ ascii "\"\\/bfnrt", 32 ≤ l := by decide +kernel
    simp only [JsonChar.render, List.mem_cons, List.not_mem_nil, or_false] at hb
    obtain rfl | rfl := hb
    · decide
    · exact hall b (by simpa [isEscape] using ok)
  | unicode x y z w ok =>
    obtain ⟨hx, hy, hz, hw⟩ := ok
    simp only [JsonChar.render, List.mem_cons, List.not_mem_nil, or_false] at hb
    obtain rfl | rfl | rfl | rfl | rfl | rfl := hb
    · decide
    · decide
    · apply hhex _ hx
    · apply hhex _ hy
    · apply hhex _ hz
    · apply hhex _ hw

/-! ### Characters -/

/-- The four digits of a number. -/
theorem hexFromInt16_digits {u : Int} (h : 0 ≤ u) (hu : u < 0x10000) :
  ∃ a b c d, hexFromInt16 u = [a, b, c, d]
    ∧ (isHexDigit a ∧ isHexDigit b ∧ isHexDigit c ∧ isHexDigit d) ∧ (codeUnit a b c d : Int) = u
  := by
  have hall : ∀ n < 16, isHexDigit (toHex (n : Nat)) = true := by decide
  have hdigit : ∀ x : Int, 0 ≤ x → x < 16 → isHexDigit (toHex x) = true := by
    intro x hx hlt
    have hd := hall x.toNat (by omega)
    rwa [Int.toNat_of_nonneg hx] at hd
  have ok : isHexDigit (toHex (u / 256 % 256 / 16 % 16))
      ∧ isHexDigit (toHex (u / 256 % 256 % 16)) ∧ isHexDigit (toHex (u % 256 / 16 % 16))
      ∧ isHexDigit (toHex (u % 256 % 16)) :=
    ⟨hdigit _ (by omega) (by omega), hdigit _ (by omega) (by omega),
      hdigit _ (by omega) (by omega), hdigit _ (by omega) (by omega)⟩
  refine ⟨_, _, _, _, rfl, ok, ?_⟩
  have hread := velyGetHex_hexFromInt16 h hu []
  have hdigits := velyGetHex_digits ok []
  apply Except.ok.inj
  rw [← hdigits, ← hread]
  rfl

/-- A character is written as characters of the grammar, which stand for it. -/
def Writes (c : Char) (x : JsonString) : Prop :=
  x.content = jsonChar c
    ∧ ∀ s : JsonString, (x ++ s).decode = s.decode.map (String.utf8EncodeChar c ++ ·)

section Writes

variable {c : Char}

/-- A character of ASCII is written as a letter behind a backslash, or as it is. -/
theorem exists_writes_ascii (hlt : c.toNat < 0x80)
    (hctl : c.toNat < 32 → (escapeLetter (UInt8.ofNat c.toNat)).isSome = true) :
  ∃ x, Writes c x
  := by
  have hbytes : String.utf8EncodeChar c = [UInt8.ofNat c.toNat] := by
    obtain ⟨-, h⟩ | h := utf8EncodeChar_cases c
    · exact h
    · omega
  have hjson : jsonChar c = (escapeLetter (UInt8.ofNat c.toNat)).elim [UInt8.ofNat c.toNat]
      (fun l => ['\\'.toUInt8, l]) := by
    rw [jsonChar, if_pos hlt]
    cases escapeLetter (UInt8.ofNat c.toNat) with
    | none => rfl
    | some l => rfl
  cases hl : escapeLetter (UInt8.ofNat c.toNat) with
  | some l =>
    rw [hl] at hjson
    have hletter : isEscape l = true ∧ escapeValue l = UInt8.ofNat c.toNat := by
      have hall : ∀ n < 128, ∀ l ∈ escapeLetter (UInt8.ofNat n),
          isEscape l = true ∧ escapeValue l = UInt8.ofNat n := by decide +kernel
      exact hall c.toNat hlt l hl
    obtain ⟨ok, hvalue⟩ := hletter
    use [.escape l ok]
    constructor
    · rw [hjson]
      rfl
    · intro s
      rw [List.singleton_append, JsonString.decode, hvalue, hbytes]
      rfl
  | none =>
    rw [hl] at hjson hctl
    have hle : 32 ≤ c.toNat := by
      by_contra h
      cases hctl (by omega)
    have hplain : isPlain (UInt8.ofNat c.toNat) = true := by
      have hall : ∀ n < 128, 32 ≤ n → escapeLetter (UInt8.ofNat n) = none →
          isPlain (UInt8.ofNat n) = true := by decide +kernel
      exact hall c.toNat hlt hle hl
    use [.plain _ hplain]
    constructor
    · rw [hjson]
      rfl
    · intro s
      rw [hbytes]
      rfl

/-- A character of the first plane above ASCII is written as an escape with its number. -/
theorem exists_writes_unicode (hle : 0x80 ≤ c.toNat) (hlt : c.toNat < 0x10000) :
  ∃ x, Writes c x
  := by
  obtain ⟨-, hnot⟩ := toNat_lt c
  obtain ⟨x, y, z, w, hhex, ok, hunit⟩ := @hexFromInt16_digits c.toNat (by omega) (by omega)
  have hunit : codeUnit x y z w = c.toNat := by exact_mod_cast hunit
  use [.unicode x y z w ok]
  constructor
  · rw [jsonChar, if_neg (by omega), if_neg (by omega), unicodeText, hhex]
    rfl
  · intro s
    have hlow : isLowSurrogate (codeUnit x y z w) = false := by
      rw [hunit, isLowSurrogate, Bool.and_eq_false_iff, decide_eq_false_iff_not,
        decide_eq_false_iff_not]
      omega
    have hhigh : isHighSurrogate (codeUnit x y z w) = false := by
      rw [hunit, isHighSurrogate, Bool.and_eq_false_iff, decide_eq_false_iff_not,
        decide_eq_false_iff_not]
      omega
    rw [List.singleton_append, JsonString.decode.eq_def]
    simp only [hlow, hhigh, Bool.false_eq_true, if_false]
    rw [hunit, Char.ofNat_toNat]

/-- A character above the first plane is written as a surrogate pair. -/
theorem exists_writes_pair (hle : 0x10000 ≤ c.toNat) :
  ∃ x, Writes c x
  := by
  obtain ⟨hlt, -⟩ := toNat_lt c
  obtain ⟨u0, hu0⟩ : ∃ u0, u0 = 0xD7C0 + c.toNat / 1024 := ⟨_, rfl⟩
  obtain ⟨u1, hu1⟩ : ∃ u1, u1 = 0xDC00 + c.toNat % 1024 := ⟨_, rfl⟩
  have hpair : velyGetUtf8Surrogate c.toNat = (↑u0, ↑u1) := by
    have hfirst : (velyGetUtf8Surrogate c.toNat).1 = u0 := by
      simp only [velyGetUtf8Surrogate]
      omega
    have hsecond : (velyGetUtf8Surrogate c.toNat).2 = u1 := by
      simp only [velyGetUtf8Surrogate]
      omega
    rw [← hfirst, ← hsecond]
  have h0 : isHighSurrogate u0 = true := by
    rw [isHighSurrogate, Bool.and_eq_true, decide_eq_true_eq, decide_eq_true_eq]
    omega
  have hlow0 : isLowSurrogate u0 = false := by
    simp only [isLowSurrogate, Bool.and_eq_false_iff, decide_eq_false_iff_not]
    omega
  have h1 : isLowSurrogate u1 = true := by
    simp only [isLowSurrogate, Bool.and_eq_true, decide_eq_true_eq]
    omega
  have hvalue : pairValue u0 u1 = c.toNat := by
    unfold pairValue
    omega
  obtain ⟨x, y, z, w, hhex, ok, hunit⟩ := @hexFromInt16_digits u0 (by omega) (by omega)
  obtain ⟨x', y', z', w', hhex', ok', hunit'⟩ := @hexFromInt16_digits u1 (by omega) (by omega)
  have hunit : codeUnit x y z w = u0 := by exact_mod_cast hunit
  have hunit' : codeUnit x' y' z' w' = u1 := by exact_mod_cast hunit'
  use [.unicode x y z w ok, .unicode x' y' z' w' ok']
  constructor
  · rw [jsonChar, if_neg (by omega), if_pos hle, hpair, unicodeText, unicodeText, hhex, hhex']
    rfl
  · intro s
    rw [List.cons_append, List.singleton_append, JsonString.decode.eq_def]
    simp only [hunit, hunit', hlow0, h0, h1, hvalue, if_true, Bool.false_eq_true, if_false,
      Char.ofNat_toNat]

end Writes

/-- A string without bare control characters is written as a text, which stands for it. -/
theorem exists_content {cs : List Char}
    (hctl : ∀ c ∈ cs, c.toNat < 32 → (escapeLetter (UInt8.ofNat c.toNat)).isSome = true) :
  ∃ s : JsonString, s.content = jsonText cs ∧ s.decode = some (utf8 cs)
  := by
  induction cs with
  | nil => exact ⟨[], rfl, rfl⟩
  | cons c cs ih =>
    obtain ⟨s, hcontent, hdecode⟩ := ih (fun c hc => hctl c (List.mem_cons_of_mem _ hc))
    obtain ⟨x, hx, hvalue⟩ : ∃ x, Writes c x := by
      by_cases hlt : c.toNat < 0x80
      · apply exists_writes_ascii hlt (hctl c List.mem_cons_self)
      · by_cases hpair : 0x10000 ≤ c.toNat
        · apply exists_writes_pair hpair
        · apply exists_writes_unicode <;> omega
    use x ++ s
    constructor
    · rw [JsonString.content, List.flatMap_append, ← JsonString.content, ← JsonString.content, hx,
        hcontent]
      rfl
    · rw [hvalue, hdecode]
      rfl

/-- What is written for a string is the text of a string, just when every control character in it
has a letter. -/
theorem velyUtf8ToJson_isStringText_iff (cs : List Char) :
  (∀ text, velyUtf8ToJson (utf8 cs) = .ok (.ok text) → IsStringText text)
    ↔ ∀ c ∈ cs, c.toNat < 32 → c.toNat ∈ [8, 9, 10, 12, 13]
  := by
  have hloop : velyUtf8ToJson (utf8 cs) = .ok (.ok (jsonText cs)) :=
    @toJsonLoop_chars (3 * (utf8 cs).length + 1) [] cs _ (le_refl _) (by simp)
  have hletter : ∀ n < 32, (escapeLetter (UInt8.ofNat n)).isSome = true ↔ n ∈ [8, 9, 10, 12, 13] := by
    decide
  constructor
  · intro h c hc hlt
    rw [← hletter _ hlt]
    by_contra hnone
    rw [Bool.not_eq_true, Option.isSome_eq_false_iff, Option.isNone_iff_eq_none] at hnone
    obtain ⟨s, hs, -⟩ := h _ hloop
    -- The byte is in the text as it is.
    have hmem : UInt8.ofNat c.toNat ∈ s.content := by
      rw [hs, jsonText, List.mem_flatMap]
      refine ⟨c, hc, ?_⟩
      rw [jsonChar, if_pos (by omega), hnone]
      exact List.mem_singleton_self _
    have hle := UInt8.le_iff_toNat_le.mp (le_of_mem_content hmem)
    rw [UInt8.toNat_ofNat', Nat.mod_eq_of_lt (by omega)] at hle
    have h32 : (32 : UInt8).toNat = 32 := rfl
    omega
  · intro h text htext
    rw [hloop] at htext
    cases htext
    obtain ⟨s, hs, hdecode⟩ := @exists_content cs (fun c hc hlt => (hletter _ hlt).mpr (h c hc hlt))
    exact ⟨s, hs, by rw [hdecode]; rfl⟩

/-- The character 1 is written as it is. -/
theorem not_isStringText_control :
  velyUtf8ToJson (utf8 [Char.ofNat 1]) = .ok (.ok [1]) ∧ ¬ IsStringText [1]
  := by
  constructor
  · rfl
  · rintro ⟨s, hs, -⟩
    have hmem : (1 : UInt8) ∈ s.content := by
      rw [hs]
      exact List.mem_singleton_self _
    exact absurd (le_of_mem_content hmem) (by decide)

end Vely
