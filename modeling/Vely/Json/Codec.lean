import Vely.Json.StringFrame
import Vely.Utf8.Chars

/-!
# Strings to JSON and back

The text that is written for a string in UTF-8, character by character, and the string that is read
of that text.
-/

namespace Vely

/-- An escape with `u`. -/
def unicodeText (u : Int) : List UInt8 := '\\'.toUInt8 :: 'u'.toUInt8 :: hexFromInt16 u

/-- The text of a character. -/
def jsonChar (c : Char) : List UInt8 :=
  if c.toNat < 0x80 then
    match escapeLetter (UInt8.ofNat c.toNat) with
    | some l => ['\\'.toUInt8, l]
    | none => [UInt8.ofNat c.toNat]
  else if 0x10000 ≤ c.toNat then
    unicodeText (velyGetUtf8Surrogate c.toNat).1 ++ unicodeText (velyGetUtf8Surrogate c.toNat).2
  else unicodeText c.toNat

/-- The text of a string. -/
def jsonText (cs : List Char) : List UInt8 := cs.flatMap jsonChar

@[simp]
theorem length_unicodeText (u : Int) :
  (unicodeText u).length = 6
  := rfl

/-- The text of a character has at most three times as many bytes. -/
theorem length_jsonChar_le (c : Char) :
  (jsonChar c).length ≤ 3 * (String.utf8EncodeChar c).length
  := by
  rw [jsonChar]
  rcases utf8EncodeChar_cases c with ⟨h, hc⟩ | ⟨hle, h, hc⟩ | ⟨hle, h, hc⟩ | ⟨h, hc⟩
  · rw [if_pos h, hc]
    split <;> simp
  · rw [if_neg (by omega), if_neg (by omega), hc]
    simp
  · rw [if_neg (by omega), if_neg (by omega), hc]
    simp
  · rw [if_neg (by omega), if_pos h, hc]
    simp

/-! ### To JSON -/

section ToJson

variable {size : Nat} {res bs : List UInt8}

theorem putBytes_of_le (h : res.length + bs.length ≤ size) :
  putBytes size res bs = .ok (res ++ bs)
  := if_pos h

theorem putUnicode_of_lt {u : Int} (h : res.length + 6 < size) :
  putUnicode size res u = .ok (res ++ unicodeText u)
  := by
  have hput : putBytes size res (['\\'.toUInt8, 'u'.toUInt8] ++ hexFromInt16 u)
      = .ok (res ++ unicodeText u) := by
    apply putBytes_of_le
    have hlen : (['\\'.toUInt8, 'u'.toUInt8] ++ hexFromInt16 u).length = 6 := rfl
    omega
  rw [putUnicode, hput, ok_bind, putBytes_of_le, ok_bind]
  · rfl
  · rw [List.length_append, length_unicodeText, List.length_singleton]
    omega

/-- One character is written. -/
theorem toJsonLoop_char {bound : Nat} (c : Char) (rest : List UInt8)
    (hsize : res.length + 3 * (String.utf8EncodeChar c).length + 1 ≤ size) :
  toJsonLoop size (bound + 1) (String.utf8EncodeChar c ++ rest) res
    = toJsonLoop size bound rest (res ++ jsonChar c)
  := by
  have hle := length_jsonChar_le c
  rcases utf8EncodeChar_cases c with ⟨h, hc⟩ | h
  · have hascii : ∀ n < 128, UInt8.ofNat n &&& 192 ≠ 192 := by decide
    rw [hc] at hsize ⊢
    rw [List.length_singleton] at hsize
    rw [List.singleton_append, toJsonLoop, if_neg (hascii _ h), jsonChar, if_pos h]
    cases hl : escapeLetter (UInt8.ofNat c.toNat) with
    | some l =>
      simp only
      rw [putBytes_of_le, ok_bind]
      rw [List.length_cons, List.length_singleton]
      omega
    | none =>
      simp only
      rw [putBytes_of_le, ok_bind]
      rw [List.length_singleton]
      omega
  · have hge : 0x80 ≤ c.toNat := by omega
    obtain ⟨b, bs, hc, hb⟩ := exists_lead c hge
    have hencode := velyEncodeUtf8_char c rest hge
    have hdrop : (String.utf8EncodeChar c ++ rest).drop (String.utf8EncodeChar c).length = rest :=
      List.drop_left
    have hloop : toJsonLoop size (bound + 1) (String.utf8EncodeChar c ++ rest) res
        = if (0x10000 : Int) ≤ c.toNat then
            putBytes size res (unicodeText (velyGetUtf8Surrogate c.toNat).1) >>= fun res =>
              putUnicode size res (velyGetUtf8Surrogate c.toNat).2 >>= toJsonLoop size bound rest
          else putUnicode size res c.toNat >>= toJsonLoop size bound rest := by
      rw [hc, List.cons_append] at hencode hdrop
      rw [hc, List.cons_append, toJsonLoop, if_pos hb, hencode]
      simp only [hdrop]
      rfl
    rw [hloop]
    by_cases hpair : 0x10000 ≤ c.toNat
    · have hjson : jsonChar c = unicodeText (velyGetUtf8Surrogate c.toNat).1
          ++ unicodeText (velyGetUtf8Surrogate c.toNat).2 := by
        rw [jsonChar, if_neg (by omega), if_pos hpair]
      rw [hjson, List.length_append, length_unicodeText, length_unicodeText] at hle
      rw [if_pos (by omega), hjson, putBytes_of_le, ok_bind, putUnicode_of_lt, ok_bind,
        List.append_assoc]
      · rw [List.length_append, length_unicodeText]
        omega
      · rw [length_unicodeText]
        omega
    · have hjson : jsonChar c = unicodeText c.toNat := by
        rw [jsonChar, if_neg (by omega), if_neg hpair]
      rw [hjson, length_unicodeText] at hle
      rw [if_neg (by omega), hjson, putUnicode_of_lt (by omega), ok_bind]

/-- The text of a string is written. -/
theorem toJsonLoop_chars {cs : List Char} {bound : Nat} (hb : (utf8 cs).length ≤ bound)
    (hsize : res.length + 3 * (utf8 cs).length + 1 ≤ size) :
  toJsonLoop size bound (utf8 cs) res = .ok (.ok (res ++ jsonText cs))
  := by
  induction cs generalizing bound res with
  | nil =>
    rw [utf8_nil, toJsonLoop, putBytes_of_le (by simpa using hsize), ok_bind]
    simp [jsonText]
  | cons c cs ih =>
    have hle := length_jsonChar_le c
    rw [utf8_cons, List.length_append] at hb hsize
    have hpos : 0 < (String.utf8EncodeChar c).length :=
      List.length_pos_of_ne_nil String.utf8EncodeChar_ne_nil
    obtain ⟨bound, rfl⟩ : ∃ b, bound = b + 1 := ⟨bound - 1, by omega⟩
    rw [utf8_cons, toJsonLoop_char c _ (by omega), ih (by omega)]
    · rw [jsonText, jsonText, List.flatMap_cons, List.append_assoc]
    · rw [List.length_append]
      omega

end ToJson

/-! ### Numbers of characters -/

theorem hexValue_toHex {x : Int} (h : 0 ≤ x) (hx : x < 16) :
  hexValue (toHex x) = some x.toNat
  := by
  have hall : ∀ d < 16, hexValue (toHex (d : Nat)) = some d := by decide
  have hd := hall x.toNat (by omega)
  rwa [Int.toNat_of_nonneg h] at hd

/-- The four digits of a number are read as the number. -/
theorem velyGetHex_hexFromInt16 {u : Int} (h : 0 ≤ u) (hu : u < 0x10000) (rest : List UInt8) :
  velyGetHex (hexFromInt16 u ++ rest) = .ok u
  := by
  have h0 := @hexValue_toHex (u / 256 % 256 / 16 % 16) (by omega) (by omega)
  have h1 := @hexValue_toHex (u / 256 % 256 % 16) (by omega) (by omega)
  have h2 := @hexValue_toHex (u % 256 / 16 % 16) (by omega) (by omega)
  have h3 := @hexValue_toHex (u % 256 % 16) (by omega) (by omega)
  have hrange : List.range 4 = [0, 1, 2, 3] := rfl
  simp only [velyGetHex, hrange, List.foldlM_cons, List.foldlM_nil, hexFromInt16, hexFromByte,
    List.cons_append, List.nil_append, byteAt_cons_zero, byteAt_cons_succ, h0, h1, h2, h3, ok_bind]
  simp only [pure_eq_ok, Except.ok.injEq]
  omega

/-- The escape of a character below the surrogates' range or above it. -/
theorem unicodeEscape_text {u : Int} (h : 0 ≤ u) (hu : u < 0x10000)
    (hs : ¬ (0xD800 ≤ u ∧ u ≤ 0xDFFF)) (rest : List UInt8) :
  unicodeEscape (hexFromInt16 u ++ rest) = .ok (u, 6)
  := by
  rw [unicodeEscape, velyGetHex_hexFromInt16 h hu, ok_bind, if_neg hs]
  rfl

/-- The escapes of a surrogate pair. -/
theorem unicodeEscape_pair {u : Int} (h : 0x10000 ≤ u) (hu : u < 0x110000) (rest : List UInt8) :
  unicodeEscape (hexFromInt16 (velyGetUtf8Surrogate u).1
    ++ (unicodeText (velyGetUtf8Surrogate u).2 ++ rest)) = .ok (u, 12)
  := by
  have hmake : velyMakeFromUtf8Surrogate (velyGetUtf8Surrogate u).1 (velyGetUtf8Surrogate u).2
      = u := by
    simp only [velyMakeFromUtf8Surrogate, velyGetUtf8Surrogate]
    omega
  have hfirst : 0xD800 ≤ (velyGetUtf8Surrogate u).1 ∧ (velyGetUtf8Surrogate u).1 ≤ 0xDFFF := by
    simp only [velyGetUtf8Surrogate]
    omega
  have hsecond : 0 ≤ (velyGetUtf8Surrogate u).2 ∧ (velyGetUtf8Surrogate u).2 < 0x10000 := by
    simp only [velyGetUtf8Surrogate]
    omega
  obtain ⟨⟨u0, u1⟩, hpair⟩ : ∃ x, velyGetUtf8Surrogate u = x := ⟨_, rfl⟩
  simp only [hpair] at hmake hfirst hsecond ⊢
  have hdrop : (hexFromInt16 u0 ++ (unicodeText u1 ++ rest)).drop 6 = hexFromInt16 u1 ++ rest := rfl
  have h4 : byteAt (hexFromInt16 u0 ++ (unicodeText u1 ++ rest)) 4 = '\\'.toUInt8 := rfl
  have h5 : byteAt (hexFromInt16 u0 ++ (unicodeText u1 ++ rest)) 5 = 'u'.toUInt8 := rfl
  rw [unicodeEscape, velyGetHex_hexFromInt16 (by omega) (by omega), ok_bind, if_pos hfirst, h4, h5,
    if_neg (by simp), hdrop, velyGetHex_hexFromInt16 hsecond.1 hsecond.2, ok_bind, hmake]
  rfl

/-! ### From JSON -/

/-- The byte that a letter was written for. -/
theorem escapedByte_of_escapeLetter {c l : UInt8} (h : escapeLetter c = some l) :
  escapedByte l = some c
  := by
  simp only [escapeLetter] at h
  split_ifs at h with h0 h1 h2 h3 h4 h5 h6
  all_goals
    obtain rfl := Option.some.inj h
    subst c
    decide

theorem ne_of_escapeLetter {c : UInt8} (h : escapeLetter c = none) :
  c ≠ '"'.toUInt8 ∧ c ≠ '\\'.toUInt8
  := by
  constructor
  all_goals
    rintro rfl
    cases h

section FromJson

variable {done gap rest bs : List UInt8} {bound : Nat} {quoted : Bool}

/-- Bytes are written over the first ones of `gap`. -/
theorem writeBytes_append (h : bs.length ≤ gap.length) :
  writeBytes (done ++ (gap ++ rest)) done.length bs = (done ++ bs) ++ (gap.drop bs.length ++ rest)
  := by
  rw [writeBytes, List.take_left, ← List.drop_drop, List.drop_left,
    List.drop_append_of_le_length h]

theorem set_append {b : UInt8} (h : gap ≠ []) :
  (done ++ (gap ++ rest)).set done.length b = (done ++ [b]) ++ (gap.drop 1 ++ rest)
  := by
  obtain ⟨c, gap, rfl⟩ := List.exists_cons_of_ne_nil h
  rw [List.set_append_right _ _ (le_refl _), Nat.sub_self]
  simp

theorem byteAt_middle (text : List UInt8) (k : Nat) :
  byteAt (done ++ (gap ++ text)) (done.length + gap.length + k) = byteAt text k
  := by
  rw [← byteAt_drop, ← List.append_assoc, ← List.length_append, List.drop_left]

/-- An escape of the text is replaced by bytes, and the gap before it grows. -/
def Replaces (text bs : List UInt8) : Prop :=
  bs.length ≤ text.length ∧ text.head? = some '\\'.toUInt8
    ∧ ∀ done gap rest : List UInt8,
      replaceEscape (done ++ (gap ++ (text ++ rest))) (done.length + gap.length + 1) gap.length
        = .ok ((done ++ bs) ++ ((gap ++ text).drop bs.length ++ rest),
          done.length + gap.length + text.length, gap.length + text.length - bs.length)

/-- An escape is read as its bytes. -/
theorem encodeLoop_replaces {text : List UInt8} (h : Replaces text bs) :
  encodeLoop quoted (bound + 1) (done ++ (gap ++ (text ++ rest))) (done.length + gap.length)
    gap.length
  = encodeLoop quoted bound ((done ++ bs) ++ ((gap ++ text).drop bs.length ++ rest))
      ((done ++ bs).length + ((gap ++ text).drop bs.length).length)
      ((gap ++ text).drop bs.length).length
  := by
  obtain ⟨hle, hhead, hreplace⟩ := h
  obtain ⟨text, rfl⟩ := List.head?_eq_some_iff.mp hhead
  have hbyte : byteAt (done ++ (gap ++ ('\\'.toUInt8 :: text ++ rest))) (done.length + gap.length)
      = '\\'.toUInt8 := by
    have h0 := @byteAt_middle done gap ('\\'.toUInt8 :: text ++ rest) 0
    rwa [Nat.add_zero, List.cons_append, byteAt_cons_zero] at h0
  have hgap : ((gap ++ '\\'.toUInt8 :: text).drop bs.length).length
      = gap.length + ('\\'.toUInt8 :: text).length - bs.length := by
    rw [List.length_drop, List.length_append]
  rw [encodeLoop, hbyte, if_neg (by decide), if_pos rfl, hreplace, hgap, List.length_append]
  simp only
  congr 1
  omega

/-- A backslash and a letter stand for a byte. -/
theorem replaces_letter {c l : UInt8} (h : escapedByte l = some c) :
  Replaces ['\\'.toUInt8, l] [c]
  := by
  refine ⟨by simp, rfl, ?_⟩
  intro done gap rest
  have hbyte : byteAt (done ++ (gap ++ (['\\'.toUInt8, l] ++ rest))) (done.length + gap.length + 1)
      = l := byteAt_middle _ 1
  have hplace : done.length + gap.length + 1 - 1 - gap.length = done.length := by omega
  have hset := @set_append done (gap ++ ['\\'.toUInt8, l]) rest c (by simp)
  rw [List.append_assoc] at hset
  rw [replaceEscape, hbyte, h]
  simp only [hplace, hset]
  rfl

/-- An escape with four digits, or two of them, stand for a character. -/
theorem replaces_unicode {text : List UInt8} {u : Int} (hlen : bs.length ≤ text.length + 2)
    (hescape : ∀ rest, unicodeEscape (text ++ rest) = .ok (u, text.length + 2))
    (hdecode : velyDecodeUtf8 u = .ok bs) :
  Replaces ('\\'.toUInt8 :: 'u'.toUInt8 :: text) bs
  := by
  refine ⟨hlen, rfl, ?_⟩
  intro done gap rest
  have hbyte : byteAt (done ++ (gap ++ ('\\'.toUInt8 :: 'u'.toUInt8 :: text ++ rest)))
      (done.length + gap.length + 1) = 'u'.toUInt8 := byteAt_middle _ 1
  have hplace : done.length + gap.length + 1 - 1 - gap.length = done.length := by omega
  have hdrop : (done ++ (gap ++ ('\\'.toUInt8 :: 'u'.toUInt8 :: text ++ rest))).drop
      (done.length + gap.length + 1 + 1) = text ++ rest := by
    rw [← List.append_assoc, ← List.drop_drop, ← List.drop_drop, ← List.length_append,
      List.drop_left]
    rfl
  have hwrite := @writeBytes_append done (gap ++ '\\'.toUInt8 :: 'u'.toUInt8 :: text) rest bs
    (by rw [List.length_append, List.length_cons, List.length_cons]; omega)
  rw [List.append_assoc] at hwrite
  have hnone : escapedByte 'u'.toUInt8 = none := by decide
  rw [replaceEscape, hbyte, hnone]
  simp only [if_true, hdrop, hescape, ok_bind, hdecode, hplace, hwrite]
  rw [pure_eq_ok, Except.ok.injEq]
  simp only [Prod.mk.injEq, List.length_cons, true_and, and_true]
  omega

/-- A byte is pulled back over the gap. -/
theorem set_pulled (b : UInt8) :
  (if gap.length ≠ 0 then (done ++ (gap ++ ([b] ++ rest))).set done.length b
    else done ++ (gap ++ ([b] ++ rest))) = (done ++ [b]) ++ ((gap ++ [b]).drop 1 ++ rest)
  := by
  cases gap with
  | nil => simp
  | cons d gap =>
    have h := @set_append done (d :: gap ++ [b]) rest b (by simp)
    rw [if_pos (by simp), ← h, List.append_assoc]

/-- A byte is read as itself. -/
theorem encodeLoop_plain {b : UInt8} (hz : b ≠ 0) (hquote : b ≠ '"'.toUInt8)
    (hback : b ≠ '\\'.toUInt8) :
  encodeLoop quoted (bound + 1) (done ++ (gap ++ ([b] ++ rest))) (done.length + gap.length)
    gap.length
  = encodeLoop quoted bound ((done ++ [b]) ++ ((gap ++ [b]).drop 1 ++ rest))
      ((done ++ [b]).length + ((gap ++ [b]).drop 1).length) ((gap ++ [b]).drop 1).length
  := by
  have hbyte : byteAt (done ++ (gap ++ ([b] ++ rest))) (done.length + gap.length) = b := by
    have h0 := @byteAt_middle done gap ([b] ++ rest) 0
    rwa [Nat.add_zero, List.singleton_append, byteAt_cons_zero] at h0
  have hgap : ((gap ++ [b]).drop 1).length = gap.length := by simp
  rw [encodeLoop, hbyte, if_neg (by simp [hquote, hz]), if_neg hback, hgap, Nat.add_sub_cancel]
  simp only [set_pulled, List.length_append, List.length_singleton]
  congr 1
  omega

/-- A character is read of its text. -/
theorem encodeLoop_char {c : Char} (hz : c.toNat ≠ 0) (hf : c.toNat ≠ 0xFEFF) :
  ∃ gap' : List UInt8,
    encodeLoop false (bound + 1) (done ++ (gap ++ (jsonChar c ++ rest))) (done.length + gap.length)
      gap.length
    = encodeLoop false bound ((done ++ String.utf8EncodeChar c) ++ (gap' ++ rest))
        ((done ++ String.utf8EncodeChar c).length + gap'.length) gap'.length
  := by
  obtain ⟨hlt, hsurrogate⟩ := toNat_lt c
  have hle : (String.utf8EncodeChar c).length ≤ 4 := by
    rw [String.length_utf8EncodeChar]
    apply Char.utf8Size_le_four
  have hdecode := velyDecodeUtf8_char c hf
  rw [jsonChar]
  by_cases h : c.toNat < 0x80
  · have hc : String.utf8EncodeChar c = [UInt8.ofNat c.toNat] := by
      rcases utf8EncodeChar_cases c with ⟨-, hc⟩ | h'
      · exact hc
      · omega
    rw [if_pos h, hc]
    cases hl : escapeLetter (UInt8.ofNat c.toNat) with
    | some l => exact ⟨_, encodeLoop_replaces (replaces_letter (escapedByte_of_escapeLetter hl))⟩
    | none =>
      have hnz : UInt8.ofNat c.toNat ≠ 0 := by
        intro h0
        have hnat := congrArg UInt8.toNat h0
        rw [UInt8.toNat_ofNat', Nat.mod_eq_of_lt (by omega)] at hnat
        exact hz hnat
      obtain ⟨hquote, hback⟩ := ne_of_escapeLetter hl
      exact ⟨_, encodeLoop_plain hnz hquote hback⟩
  · rw [if_neg h]
    by_cases hpair : 0x10000 ≤ c.toNat
    · rw [if_pos hpair]
      have hlen : (hexFromInt16 (velyGetUtf8Surrogate c.toNat).1
          ++ unicodeText (velyGetUtf8Surrogate c.toNat).2).length = 10 := rfl
      have hreplaces : Replaces ('\\'.toUInt8 :: 'u'.toUInt8
          :: (hexFromInt16 (velyGetUtf8Surrogate c.toNat).1
            ++ unicodeText (velyGetUtf8Surrogate c.toNat).2)) (String.utf8EncodeChar c) := by
        apply replaces_unicode _ _ hdecode
        · rw [hlen]
          omega
        · intro rest
          rw [List.append_assoc]
          exact unicodeEscape_pair (by omega) (by omega) rest
      exact ⟨_, encodeLoop_replaces hreplaces⟩
    · rw [if_neg hpair]
      refine ⟨_, encodeLoop_replaces (replaces_unicode ?_ ?_ hdecode)⟩
      · have hhex : (hexFromInt16 c.toNat).length = 4 := rfl
        omega
      · intro rest
        exact unicodeEscape_text (by omega) (by omega) (by omega) rest

/-- A string is read of its text, up to the terminator. -/
theorem encodeLoop_chars {cs : List Char} (hz : ∀ c ∈ cs, c.toNat ≠ 0)
    (hf : ∀ c ∈ cs, c.toNat ≠ 0xFEFF) (hrest : byteAt rest 0 = 0) (hb : cs.length < bound) :
  ∃ val i, encodeLoop false bound (done ++ (gap ++ (jsonText cs ++ rest)))
      (done.length + gap.length) gap.length = .ok ⟨val, some i, ""⟩
    ∧ ∃ r, byteAt r 0 = 0 ∧ val = done ++ utf8 cs ++ r
  := by
  induction cs generalizing done gap bound with
  | nil =>
    obtain ⟨bound, rfl⟩ : ∃ b, bound = b + 1 := ⟨bound - 1, by omega⟩
    have hbyte : byteAt (done ++ (gap ++ rest)) (done.length + gap.length) = 0 := by
      have h0 := @byteAt_middle done gap rest 0
      rwa [Nat.add_zero, hrest] at h0
    rw [jsonText, List.flatMap_nil, List.nil_append, encodeLoop, hbyte, if_pos (.inr rfl),
      finishString, if_neg (by simp), Nat.add_sub_cancel, utf8_nil, List.append_nil]
    refine ⟨_, _, rfl, ?_⟩
    cases gap with
    | nil => exact ⟨rest, hrest, rfl⟩
    | cons d gap =>
      refine ⟨0 :: (gap ++ rest), rfl, ?_⟩
      rw [if_pos (by simp), set_append (by simp)]
      simp
  | cons c cs ih =>
    obtain ⟨bound, rfl⟩ : ∃ b, bound = b + 1 := ⟨bound - 1, by omega⟩
    have htext : jsonText (c :: cs) ++ rest = jsonChar c ++ (jsonText cs ++ rest) := by
      rw [jsonText, List.flatMap_cons, List.append_assoc]
      rfl
    obtain ⟨gap', hchar⟩ := @encodeLoop_char done gap (jsonText cs ++ rest) bound c
      (hz c (by simp)) (hf c (by simp))
    obtain ⟨val, i, hloop, r, hr, hval⟩ := @ih (done ++ String.utf8EncodeChar c) gap' bound
      (fun c hc => hz c (by simp [hc])) (fun c hc => hf c (by simp [hc])) (by simpa using hb)
    refine ⟨val, i, ?_, r, hr, ?_⟩
    · rw [htext, hchar, hloop]
    · rw [hval, utf8_cons]
      simp

end FromJson

/-! ### There and back -/

theorem toNat_ne_zero {cs : List Char} (hz : 0 ∉ utf8 cs) {c : Char} (hc : c ∈ cs) :
  c.toNat ≠ 0
  := by
  intro h0
  apply hz
  rw [utf8, List.mem_flatMap]
  refine ⟨c, hc, ?_⟩
  rcases utf8EncodeChar_cases c with ⟨-, hbytes⟩ | h
  · rw [hbytes, h0]
    exact List.mem_singleton_self _
  · omega

theorem length_jsonText_le (cs : List Char) :
  (jsonText cs).length ≤ 3 * (utf8 cs).length ∧ cs.length ≤ (jsonText cs).length
  := by
  induction cs with
  | nil => simp [jsonText]
  | cons c cs ih =>
    have hle := length_jsonChar_le c
    have hpos : 0 < (jsonChar c).length := by
      rw [jsonChar]
      split
      · split <;> simp
      · split <;> simp
    simp only [jsonText, List.flatMap_cons, List.length_append, utf8_cons, List.length_cons] at ih ⊢
    omega

/-- A string in UTF-8 is written to JSON inside of the block that is allocated for it, and is read
back of it. -/
theorem velyJsonToUtf8_velyUtf8ToJson {cs : List Char} (hz : 0 ∉ utf8 cs)
    (hf : ∀ c ∈ cs, c.toNat ≠ 0xFEFF) :
  ∃ text, velyUtf8ToJson (utf8 cs) = .ok (.ok text)
    ∧ text.length + 1 ≤ 3 * (utf8 cs).length + 1
    ∧ ∀ rest, byteAt rest 0 = 0 →
      ∃ val i, velyJsonToUtf8 (text ++ rest) false true = .ok ⟨val, some i, ""⟩
        ∧ val.takeWhile (· ≠ 0) = utf8 cs
  := by
  obtain ⟨hle, hcount⟩ := length_jsonText_le cs
  refine ⟨jsonText cs, ?_, by omega, ?_⟩
  · have hloop := @toJsonLoop_chars (3 * (utf8 cs).length + 1) [] cs _ (le_refl _) (by simp)
    exact hloop
  · intro rest hrest
    obtain ⟨val, i, hloop, r, hr, hval⟩ := @encodeLoop_chars [] [] rest
      ((jsonText cs ++ rest).length + 1) cs (fun c hc => toNat_ne_zero hz hc) hf hrest
      (by rw [List.length_append]; omega)
    refine ⟨val, i, hloop, ?_⟩
    have hall : ∀ c ∈ utf8 cs, decide (c ≠ 0) = true := by
      intro c hc
      simp only [ne_eq, decide_eq_true_eq]
      rintro rfl
      exact hz hc
    rw [hval, List.nil_append, List.takeWhile_append_of_pos hall]
    cases r with
    | nil => simp
    | cons d r =>
      rw [byteAt_cons_zero] at hr
      simp [hr]

/-- A string with a character of each length. -/
theorem velyJsonToUtf8_four :
  ∃ text, velyUtf8ToJson (utf8 ['a', 'é', '€', '😀']) = .ok (.ok text)
    ∧ ∃ val i, velyJsonToUtf8 (text ++ [0, 1]) false true = .ok ⟨val, some i, ""⟩
      ∧ val.takeWhile (· ≠ 0) = utf8 ['a', 'é', '€', '😀']
  := by
  obtain ⟨text, htext, -, hback⟩ := @velyJsonToUtf8_velyUtf8ToJson ['a', 'é', '€', '😀']
    (by decide) (by simp)
  exact ⟨text, htext, hback [0, 1] rfl⟩

end Vely
