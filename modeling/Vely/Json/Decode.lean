import Vely.Json.Codec
import Vely.Json.Reader

/-!
# The strings of documents

What the parser reads of a string of the grammar: the escapes are replaced by the bytes they stand
for, and a string is not read when there is a surrogate alone, or U+FEFF.
-/

namespace Vely

/-! ### Digits and letters -/

/-- The digits of the grammar are those of the parser. -/
theorem hexValue_of_isHexDigit {c : UInt8} (h : isHexDigit c = true) :
  hexValue c = some (hexDigitValue c) ∧ hexDigitValue c < 16
  := by
  have hall : ∀ n < 256, isHexDigit (UInt8.ofNat n) = true →
      hexValue (UInt8.ofNat n) = some (hexDigitValue (UInt8.ofNat n))
        ∧ hexDigitValue (UInt8.ofNat n) < 16 := by decide +kernel
  have hc := hall c.toNat c.toNat_lt
  rw [UInt8.ofNat_toNat] at hc
  exact hc h

/-- The letters of the grammar are those of the parser. -/
theorem escapedByte_of_isEscape {c : UInt8} (h : isEscape c = true) :
  escapedByte c = some (escapeValue c)
  := by
  have hall : ∀ l ∈ ascii "\"\\/bfnrt", escapedByte l = some (escapeValue l) := by decide +kernel
  exact hall c (by simpa [isEscape] using h)

theorem ne_zero_of_isEscape {c : UInt8} (h : isEscape c = true) :
  c ≠ 0
  := by
  rintro rfl
  revert h
  decide

theorem ne_of_isPlain {c : UInt8} (h : isPlain c = true) :
  c ≠ 0 ∧ c ≠ '"'.toUInt8 ∧ c ≠ '\\'.toUInt8
  := by
  refine ⟨?_, ?_, ?_⟩
  all_goals
    rintro rfl
    revert h
    decide

theorem ne_of_isHexDigit {c : UInt8} (h : isHexDigit c = true) :
  c ≠ 0 ∧ c ≠ '"'.toUInt8 ∧ c ≠ '\\'.toUInt8
  := by
  refine ⟨?_, ?_, ?_⟩
  all_goals
    rintro rfl
    revert h
    decide

/-- Four digits are read as their number. -/
theorem velyGetHex_digits {a b c d : UInt8}
    (h : isHexDigit a ∧ isHexDigit b ∧ isHexDigit c ∧ isHexDigit d) (rest : List UInt8) :
  velyGetHex (a :: b :: c :: d :: rest) = .ok (codeUnit a b c d)
  := by
  obtain ⟨ha, hb, hc, hd⟩ := h
  have hrange : List.range 4 = [0, 1, 2, 3] := rfl
  simp only [velyGetHex, hrange, List.foldlM_cons, List.foldlM_nil, byteAt_cons_zero,
    byteAt_cons_succ, (hexValue_of_isHexDigit ha).1, (hexValue_of_isHexDigit hb).1,
    (hexValue_of_isHexDigit hc).1, (hexValue_of_isHexDigit hd).1, ok_bind]
  simp only [pure_eq_ok, Except.ok.injEq, codeUnit]
  omega

theorem codeUnit_lt {a b c d : UInt8}
    (h : isHexDigit a ∧ isHexDigit b ∧ isHexDigit c ∧ isHexDigit d) :
  codeUnit a b c d < 0x10000
  := by
  obtain ⟨ha, hb, hc, hd⟩ := h
  have h0 := (hexValue_of_isHexDigit ha).2
  have h1 := (hexValue_of_isHexDigit hb).2
  have h2 := (hexValue_of_isHexDigit hc).2
  have h3 := (hexValue_of_isHexDigit hd).2
  rw [codeUnit]
  omega

/-! ### What the parser reads -/

/-- Whether a code unit is a surrogate. -/
def isSurrogate (u : Nat) : Bool := 0xD800 ≤ u && u ≤ 0xDFFF

/-- The bytes of a number that `vely_decode_utf8` writes, when there is no error. -/
def decodedUnit (u : Int) : Option (List UInt8) := (velyDecodeUtf8 u).toOption

/-- What `vely_json_to_utf8` makes of a string of the grammar.  It takes any escape with `u` behind
a surrogate for the other one of the pair. -/
def JsonString.toUtf8 : JsonString → Option (List UInt8)
  | [] => some []
  | .plain c _ :: s => (toUtf8 s).map (c :: ·)
  | .escape c _ :: s => (toUtf8 s).map (escapeValue c :: ·)
  | .unicode a b c d _ :: s =>
    if isSurrogate (codeUnit a b c d) then
      match s with
      | .unicode a' b' c' d' _ :: s' =>
        (decodedUnit (velyMakeFromUtf8Surrogate (codeUnit a b c d) (codeUnit a' b' c' d'))).bind
          (fun bs => (toUtf8 s').map (bs ++ ·))
      | _ => none
    else (decodedUnit (codeUnit a b c d)).bind (fun bs => (toUtf8 s).map (bs ++ ·))

namespace JsonString

variable {a b c d : UInt8} (ok : isHexDigit a ∧ isHexDigit b ∧ isHexDigit c ∧ isHexDigit d)
  {s : JsonString}

theorem toUtf8_single (hs : isSurrogate (codeUnit a b c d) = false) :
  toUtf8 (.unicode a b c d ok :: s)
    = (decodedUnit (codeUnit a b c d)).bind (fun bs => (toUtf8 s).map (bs ++ ·))
  := by
  rw [toUtf8.eq_def]
  simp [hs]

theorem toUtf8_pair {a' b' c' d' : UInt8}
    (ok' : isHexDigit a' ∧ isHexDigit b' ∧ isHexDigit c' ∧ isHexDigit d')
    (hs : isSurrogate (codeUnit a b c d) = true) :
  toUtf8 (.unicode a b c d ok :: .unicode a' b' c' d' ok' :: s)
    = (decodedUnit (velyMakeFromUtf8Surrogate (codeUnit a b c d) (codeUnit a' b' c' d'))).bind
      (fun bs => (toUtf8 s).map (bs ++ ·))
  := by
  rw [toUtf8.eq_def]
  simp [hs]

theorem toUtf8_alone (hs : isSurrogate (codeUnit a b c d) = true)
    (halone : ∀ a' b' c' d' ok' s', s ≠ JsonChar.unicode a' b' c' d' ok' :: s') :
  toUtf8 (.unicode a b c d ok :: s) = none
  := by
  rw [toUtf8.eq_def]
  simp only [hs, if_true]

end JsonString

/-- What the parser reads of a string, when strings are decoded or when they are not. -/
def JsonString.read (dec : Bool) (s : JsonString) : Option (List UInt8) :=
  if dec then s.toUtf8 else some s.content

/-! ### The loop that replaces the escapes -/

/-- An escape that is not replaced, with `rest` behind it. -/
def ReplaceFails (text rest : List UInt8) : Prop :=
  text.head? = some '\\'.toUInt8
    ∧ ∀ done gap : List UInt8,
      ∃ e, replaceEscape (done ++ (gap ++ (text ++ rest))) (done.length + gap.length + 1) gap.length
        = .error e

section Loop

variable {done gap rest bs text : List UInt8} {bound : Nat} {quoted : Bool}

/-- At an escape that is not replaced the loop ends with an error. -/
theorem encodeLoop_fails (h : ReplaceFails text rest) :
  ∃ val e, encodeLoop quoted (bound + 1) (done ++ (gap ++ (text ++ rest)))
      (done.length + gap.length) gap.length = .ok ⟨val, none, e⟩
  := by
  obtain ⟨hhead, hfails⟩ := h
  obtain ⟨text, rfl⟩ := List.head?_eq_some_iff.mp hhead
  have hbyte : byteAt (done ++ (gap ++ ('\\'.toUInt8 :: text ++ rest))) (done.length + gap.length)
      = '\\'.toUInt8 := by
    have h0 := @byteAt_middle done gap ('\\'.toUInt8 :: text ++ rest) 0
    rwa [Nat.add_zero, List.cons_append, byteAt_cons_zero] at h0
  obtain ⟨e, he⟩ := hfails done gap
  rw [encodeLoop, hbyte, if_neg (by decide), if_pos rfl, he]
  exact ⟨_, e, rfl⟩

/-- An escape with `u` that is no number of a character is not replaced. -/
theorem replaceFails_unicode {e : String}
    (h : (unicodeEscape (text ++ rest) >>= fun x => velyDecodeUtf8 x.1) = .error e) :
  ReplaceFails ('\\'.toUInt8 :: 'u'.toUInt8 :: text) rest
  := by
  refine ⟨rfl, ?_⟩
  intro done gap
  have hbyte : byteAt (done ++ (gap ++ ('\\'.toUInt8 :: 'u'.toUInt8 :: text ++ rest)))
      (done.length + gap.length + 1) = 'u'.toUInt8 := byteAt_middle _ 1
  have hdrop : (done ++ (gap ++ ('\\'.toUInt8 :: 'u'.toUInt8 :: text ++ rest))).drop
      (done.length + gap.length + 1 + 1) = text ++ rest := by
    rw [← List.append_assoc, ← List.drop_drop, ← List.drop_drop, ← List.length_append,
      List.drop_left]
    rfl
  have hnone : escapedByte 'u'.toUInt8 = none := by decide
  use e
  rw [replaceEscape, hbyte, hnone]
  simp only [if_true, hdrop]
  cases hu : unicodeEscape (text ++ rest) with
  | error e' =>
    rw [hu] at h
    obtain rfl := Except.error.inj h
    rfl
  | ok x =>
    rw [hu, ok_bind] at h
    rw [ok_bind]
    simp only [h]
    rfl

/-! ### Numbers of characters -/

section Unicode

variable {a b c d a' b' c' d' : UInt8} (h : isHexDigit a ∧ isHexDigit b ∧ isHexDigit c ∧ isHexDigit d)
  (h' : isHexDigit a' ∧ isHexDigit b' ∧ isHexDigit c' ∧ isHexDigit d')

include h

theorem unicodeEscape_single (hs : isSurrogate (codeUnit a b c d) = false) :
  unicodeEscape (a :: b :: c :: d :: rest) = .ok (codeUnit a b c d, 6)
  := by
  simp only [isSurrogate, Bool.and_eq_false_iff, decide_eq_false_iff_not] at hs
  rw [unicodeEscape, velyGetHex_digits h, ok_bind, if_neg (by omega)]
  rfl

theorem unicodeEscape_alone (hs : isSurrogate (codeUnit a b c d) = true)
    (halone : byteAt rest 0 ≠ '\\'.toUInt8 ∨ byteAt rest 1 ≠ 'u'.toUInt8) :
  unicodeEscape (a :: b :: c :: d :: rest) = .error "Surrogate UTF-8 value missing"
  := by
  simp only [isSurrogate, Bool.and_eq_true, decide_eq_true_eq] at hs
  rw [unicodeEscape, velyGetHex_digits h, ok_bind, if_pos (by omega)]
  exact if_pos halone

include h' in
theorem unicodeEscape_two (hs : isSurrogate (codeUnit a b c d) = true) :
  unicodeEscape (a :: b :: c :: d :: '\\'.toUInt8 :: 'u'.toUInt8 :: a' :: b' :: c' :: d' :: rest)
    = .ok (velyMakeFromUtf8Surrogate (codeUnit a b c d) (codeUnit a' b' c' d'), 12)
  := by
  simp only [isSurrogate, Bool.and_eq_true, decide_eq_true_eq] at hs
  have hsecond := velyGetHex_digits h' rest
  rw [unicodeEscape, velyGetHex_digits h, ok_bind, if_pos (by omega)]
  simp only [byteAt_cons_succ, byteAt_cons_zero, ne_eq, not_true_eq_false, or_self, if_false,
    List.drop_succ_cons, List.drop_zero, hsecond, ok_bind]
  rfl

end Unicode

/-- The loop ends at `stop` behind a string that it read as `out` and these bytes, or with an error.
-/
def LoopReads (x : Except Stop Utf8Result) (stop : Nat) (out : List UInt8) :
    Option (List UInt8) → Prop
  | none => ∃ val e, x = .ok ⟨val, none, e⟩
  | some bs => ∃ val r, x = .ok ⟨val, some stop, ""⟩ ∧ val.set stop 0 = out ++ bs ++ 0 :: r

theorem LoopReads.map {x : Except Stop Utf8Result} {stop : Nat} {out : List UInt8}
    {y : Option (List UInt8)} (h : LoopReads x stop (out ++ bs) y) :
  LoopReads x stop out (y.map (bs ++ ·))
  := by
  cases y with
  | none => exact h
  | some bs' =>
    obtain ⟨val, r, hx, hval⟩ := h
    exact ⟨val, r, hx, by rw [hval]; simp⟩

/-- The closing quote ends the string. -/
theorem encodeLoop_quote {t : List UInt8} :
  LoopReads (encodeLoop true (bound + 1) (done ++ (gap ++ '"'.toUInt8 :: t))
    (done.length + gap.length) gap.length) (done.length + gap.length) done (some [])
  := by
  have hbyte : byteAt (done ++ (gap ++ '"'.toUInt8 :: t)) (done.length + gap.length)
      = '"'.toUInt8 := byteAt_middle ('"'.toUInt8 :: t) 0
  rw [encodeLoop, hbyte]
  simp only [true_or, if_true]
  cases gap with
  | nil =>
    simp only [List.length_nil, Nat.add_zero, List.nil_append] at hbyte
    rw [finishString]
    simp only [List.length_nil, Nat.add_zero, List.nil_append, ne_eq, not_true_eq_false, if_false,
      hbyte]
    rw [if_neg (by decide)]
    refine ⟨_, t, rfl, ?_⟩
    simp
  | cons e gap =>
    have hset : (done ++ (e :: gap ++ '"'.toUInt8 :: t)).set done.length 0
        = done ++ (0 :: gap ++ '"'.toUInt8 :: t) := by simp
    have hbyte' : byteAt (done ++ (0 :: gap ++ '"'.toUInt8 :: t)) (done.length + (e :: gap).length)
        = '"'.toUInt8 := @byteAt_middle done (0 :: gap) ('"'.toUInt8 :: t) 0
    have hpull : (e :: gap).length ≠ 0 := by simp
    rw [finishString]
    simp only [if_pos hpull, Nat.add_sub_cancel, hset, hbyte']
    rw [if_neg (by decide)]
    refine ⟨_, gap ++ 0 :: t, rfl, ?_⟩
    rw [List.set_append_right _ _ (by omega), Nat.add_sub_cancel_left,
      List.set_append_right _ _ (by simp)]
    simp

theorem content_cons (c : JsonChar) (s : JsonString) :
  JsonString.content (c :: s) = c.render ++ s.content
  := List.flatMap_cons

/-- A part of a string that is replaced by bytes. -/
theorem encodeLoop_step {s : JsonString} {t : List UInt8} {y : Option (List UInt8)}
    (hloop : encodeLoop true (bound + 1) (done ++ (gap ++ (text ++ (s.content ++ '"'.toUInt8 :: t))))
        (done.length + gap.length) gap.length
      = encodeLoop true bound
          ((done ++ bs) ++ ((gap ++ text).drop bs.length ++ (s.content ++ '"'.toUInt8 :: t)))
          ((done ++ bs).length + ((gap ++ text).drop bs.length).length)
          ((gap ++ text).drop bs.length).length)
    (hle : bs.length ≤ text.length)
    (ih : LoopReads (encodeLoop true bound
        ((done ++ bs) ++ ((gap ++ text).drop bs.length ++ (s.content ++ '"'.toUInt8 :: t)))
        ((done ++ bs).length + ((gap ++ text).drop bs.length).length)
        ((gap ++ text).drop bs.length).length)
      ((done ++ bs).length + ((gap ++ text).drop bs.length).length + s.content.length)
      (done ++ bs) y) :
  LoopReads (encodeLoop true (bound + 1)
      (done ++ (gap ++ ((text ++ s.content) ++ '"'.toUInt8 :: t))) (done.length + gap.length) gap.length)
    (done.length + gap.length + (text ++ s.content).length) done (y.map (bs ++ ·))
  := by
  have hstop : (done ++ bs).length + ((gap ++ text).drop bs.length).length + s.content.length
      = done.length + gap.length + (text ++ s.content).length := by
    simp only [List.length_append, List.length_drop]
    omega
  rw [List.append_assoc text, hloop, ← hstop]
  exact ih.map

/-- What a string of the grammar is read as. -/
theorem encodeLoop_string (s : JsonString) {t : List UInt8} (hb : s.length < bound) :
  LoopReads (encodeLoop true bound (done ++ (gap ++ (s.content ++ '"'.toUInt8 :: t)))
    (done.length + gap.length) gap.length) (done.length + gap.length + s.content.length) done s.toUtf8
  := by
  induction s using JsonString.toUtf8.induct generalizing done gap bound with
  | case1 =>
    obtain ⟨bound, rfl⟩ : ∃ b, bound = b + 1 := ⟨bound - 1, by omega⟩
    exact encodeLoop_quote
  | case2 c ok s ih =>
    rw [List.length_cons] at hb
    obtain ⟨bound, rfl⟩ : ∃ b, bound = b + 1 := ⟨bound - 1, by omega⟩
    obtain ⟨hz, hquote, hback⟩ := ne_of_isPlain ok
    rw [content_cons, JsonString.toUtf8]
    exact @encodeLoop_step done gap [c] [c] bound s t _ (encodeLoop_plain hz hquote hback) le_rfl
      (ih (by omega))
  | case3 c ok s ih =>
    rw [List.length_cons] at hb
    obtain ⟨bound, rfl⟩ : ∃ b, bound = b + 1 := ⟨bound - 1, by omega⟩
    rw [content_cons, JsonString.toUtf8]
    exact @encodeLoop_step done gap [escapeValue c] ['\\'.toUInt8, c] bound s t _
      (encodeLoop_replaces (replaces_letter (escapedByte_of_isEscape ok))) (by simp)
      (ih (by omega))
  | case4 a b c d ok hs a' b' c' d' ok' s ih =>
    rw [List.length_cons, List.length_cons] at hb
    obtain ⟨bound, rfl⟩ : ∃ b, bound = b + 1 := ⟨bound - 1, by omega⟩
    have hescape := fun rest => @unicodeEscape_two rest a b c d a' b' c' d' ok ok' hs
    rw [content_cons, content_cons, ← List.append_assoc (JsonChar.unicode a b c d ok).render,
      JsonString.toUtf8_pair ok ok' hs, decodedUnit]
    cases hdecode : velyDecodeUtf8 (velyMakeFromUtf8Surrogate (codeUnit a b c d)
        (codeUnit a' b' c' d')) with
    | error e =>
      rw [List.append_assoc]
      apply encodeLoop_fails
      apply @replaceFails_unicode _ [a, b, c, d, '\\'.toUInt8, 'u'.toUInt8, a', b', c', d'] e
      simp only [List.cons_append, List.nil_append, hescape, ok_bind, hdecode]
    | ok bs =>
      have hlen := (length_of_velyDecodeUtf8 hdecode).2
      have hreplaces : Replaces ((JsonChar.unicode a b c d ok).render
          ++ (JsonChar.unicode a' b' c' d' ok').render) bs :=
        @replaces_unicode bs [a, b, c, d, '\\'.toUInt8, 'u'.toUInt8, a', b', c', d'] _
          (by simp; omega) hescape hdecode
      exact @encodeLoop_step done gap bs _ bound s t _ (encodeLoop_replaces hreplaces)
        hreplaces.1 (ih (by omega))
  | case5 a b c d ok s hs hnext =>
    rw [List.length_cons] at hb
    obtain ⟨bound, rfl⟩ : ∃ b, bound = b + 1 := ⟨bound - 1, by omega⟩
    have halone : byteAt (JsonString.content s ++ '"'.toUInt8 :: t) 0 ≠ '\\'.toUInt8
        ∨ byteAt (JsonString.content s ++ '"'.toUInt8 :: t) 1 ≠ 'u'.toUInt8 := by
      rcases s with _ | ⟨x, s⟩
      · exact .inl (show '"'.toUInt8 ≠ '\\'.toUInt8 by decide)
      · cases x with
        | plain x ok => exact .inl (ne_of_isPlain ok).2.2
        | escape x ok =>
          right
          intro hu
          have hletter : isEscape 'u'.toUInt8 = false := by decide
          rw [content_cons] at hu
          change x = 'u'.toUInt8 at hu
          rw [hu, hletter] at ok
          cases ok
        | unicode a' b' c' d' ok' => exact absurd rfl (hnext a' b' c' d' ok' s)
    rw [content_cons, JsonString.toUtf8_alone ok hs hnext, List.append_assoc]
    apply encodeLoop_fails
    apply @replaceFails_unicode _ _ "Surrogate UTF-8 value missing"
    have hescape := unicodeEscape_alone ok hs halone
    simp only [List.cons_append, List.nil_append, hescape]
    rfl
  | case6 a b c d ok s hs ih =>
    rw [List.length_cons] at hb
    obtain ⟨bound, rfl⟩ : ∃ b, bound = b + 1 := ⟨bound - 1, by omega⟩
    rw [Bool.not_eq_true] at hs
    have hescape := fun rest => @unicodeEscape_single rest a b c d ok hs
    rw [content_cons, JsonString.toUtf8_single ok hs, decodedUnit]
    cases hdecode : velyDecodeUtf8 (codeUnit a b c d) with
    | error e =>
      rw [List.append_assoc]
      apply encodeLoop_fails
      apply @replaceFails_unicode _ _ e
      simp only [List.cons_append, List.nil_append, hescape, ok_bind, hdecode]
    | ok bs =>
      have hlen := (length_of_velyDecodeUtf8 hdecode).2
      have hreplaces : Replaces (JsonChar.unicode a b c d ok).render bs :=
        replaces_unicode (by simp; omega) hescape hdecode
      exact @encodeLoop_step done gap bs _ bound s t _ (encodeLoop_replaces hreplaces)
        hreplaces.1 (ih (by omega))

/-- A byte that no escape starts with is passed. -/
theorem noencodeLoop_byte {k : UInt8} (h : k ≠ 0 ∧ k ≠ '"'.toUInt8 ∧ k ≠ '\\'.toUInt8) :
  noencodeLoop true (bound + 1) (done ++ k :: rest) done.length
    = noencodeLoop true bound (done ++ [k] ++ rest) (done ++ [k]).length
  := by
  have hbyte : byteAt (done ++ k :: rest) done.length = k := by
    rw [byteAt_append_right le_rfl, Nat.sub_self, byteAt_cons_zero]
  rw [noencodeLoop, hbyte, if_neg h.1, if_neg (fun h' => h.2.2 h'.1), if_neg h.2.1, List.append_assoc,
    List.singleton_append, List.length_append, List.length_singleton]

/-- A backslash is passed with the byte behind it. -/
theorem noencodeLoop_escape {k : UInt8} (hz : k ≠ 0) :
  noencodeLoop true (bound + 1) (done ++ '\\'.toUInt8 :: k :: rest) done.length
    = noencodeLoop true bound (done ++ ['\\'.toUInt8, k] ++ rest)
        (done ++ ['\\'.toUInt8, k]).length
  := by
  have hbyte : byteAt (done ++ '\\'.toUInt8 :: k :: rest) done.length = '\\'.toUInt8 := by
    rw [byteAt_append_right le_rfl, Nat.sub_self, byteAt_cons_zero]
  have hnext : byteAt (done ++ '\\'.toUInt8 :: k :: rest) (done.length + 1) = k := by
    rw [byteAt_append_right (by omega), Nat.add_sub_cancel_left]
    rfl
  rw [noencodeLoop, hbyte, hnext, if_neg (by decide), if_pos ⟨rfl, hz⟩, List.append_assoc,
    List.length_append]
  rfl

/-- A string of the grammar is passed when strings are not decoded. -/
theorem noencodeLoop_string (s : JsonString) {t : List UInt8} (hb : s.content.length < bound) :
  noencodeLoop true bound (done ++ (s.content ++ '"'.toUInt8 :: t)) done.length
    = .ok ⟨done ++ (s.content ++ '"'.toUInt8 :: t), some (done.length + s.content.length), ""⟩
  := by
  induction s generalizing done bound with
  | nil =>
    obtain ⟨bound, rfl⟩ : ∃ b, bound = b + 1 := ⟨bound - 1, by omega⟩
    have hbyte : byteAt (done ++ '"'.toUInt8 :: t) done.length = '"'.toUInt8 := by
      rw [byteAt_append_right le_rfl, Nat.sub_self, byteAt_cons_zero]
    change noencodeLoop true (bound + 1) (done ++ '"'.toUInt8 :: t) done.length = _
    rw [noencodeLoop, hbyte, if_neg (by decide), if_neg (fun h => absurd h.1 (by decide)),
      if_pos rfl, if_pos rfl, finishString]
    simp only [ne_eq, not_true_eq_false, if_false, hbyte]
    rw [if_neg (by decide)]
    rfl
  | cons c s ih =>
    rw [content_cons, List.length_append] at hb
    rw [content_cons, List.append_assoc]
    have hnext : ∀ {bound : Nat}, (JsonString.content s).length < bound →
        noencodeLoop true bound (done ++ c.render ++ (JsonString.content s ++ '"'.toUInt8 :: t))
          (done ++ c.render).length
        = .ok ⟨done ++ (c.render ++ (JsonString.content s ++ '"'.toUInt8 :: t)),
            some (done.length + (c.render ++ JsonString.content s).length), ""⟩ := by
      intro bound hb
      rw [ih hb]
      simp only [List.append_assoc, List.length_append, Nat.add_assoc]
    cases c with
    | plain c ok =>
      simp only [JsonChar.render, List.length_singleton] at hb
      obtain ⟨bound, rfl⟩ : ∃ b, bound = b + 1 := ⟨bound - 1, by omega⟩
      rw [← hnext (by omega : (JsonString.content s).length < bound)]
      exact noencodeLoop_byte (ne_of_isPlain ok)
    | escape c ok =>
      simp only [JsonChar.render, List.length_cons, List.length_nil] at hb
      obtain ⟨bound, rfl⟩ : ∃ b, bound = b + 1 := ⟨bound - 1, by omega⟩
      rw [← hnext (by omega : (JsonString.content s).length < bound)]
      exact noencodeLoop_escape (ne_zero_of_isEscape ok)
    | unicode a b c d ok =>
      obtain ⟨ha, hb', hc, hd⟩ := ok
      simp only [JsonChar.render, List.length_cons, List.length_nil] at hb
      obtain ⟨bound, rfl⟩ : ∃ b, bound = b + 1 + 1 + 1 + 1 + 1 := ⟨bound - 5, by omega⟩
      rw [← hnext (by omega : (JsonString.content s).length < bound)]
      simp only [JsonChar.render, List.cons_append, List.nil_append]
      rw [noencodeLoop_escape (by decide), noencodeLoop_byte (ne_of_isHexDigit ha),
        noencodeLoop_byte (ne_of_isHexDigit hb'), noencodeLoop_byte (ne_of_isHexDigit hc),
        noencodeLoop_byte (ne_of_isHexDigit hd)]
      simp only [List.append_assoc, List.cons_append, List.nil_append]

end Loop

/-! ### Strings of documents -/

/-- Whether no character of a string is an escape. -/
def JsonString.isPlain (s : JsonString) : Bool := s.all (fun c => !c.isEscaped)

/-- A string without escapes is read as it is. -/
theorem toUtf8_of_isPlain {s : JsonString} (h : s.isPlain = true) :
  s.toUtf8 = some s.content
  := by
  induction s with
  | nil => rfl
  | cons c s ih =>
    rw [JsonString.isPlain, List.all_cons, Bool.and_eq_true] at h
    cases c with
    | plain c ok =>
      rw [JsonString.toUtf8, ih h.2]
      rfl
    | escape c ok => cases h.1
    | unicode a b c d ok => cases h.1

theorem length_le_content (s : JsonString) :
  s.length ≤ s.content.length
  := by
  induction s with
  | nil => simp
  | cons c s ih =>
    have hpos : 1 ≤ c.render.length := by
      cases c <;> simp [JsonChar.render]
    rw [content_cons, List.length_append, List.length_cons]
    omega

theorem takeWhile_zero (bs r : List UInt8) :
  (bs ++ 0 :: r).takeWhile (· ≠ 0) = bs.takeWhile (· ≠ 0)
  := by
  induction bs with
  | nil => simp
  | cons b bs ih =>
    by_cases hb : b = 0
    · simp [hb]
    · rw [List.cons_append, List.takeWhile_cons_of_pos (by simpa using hb),
        List.takeWhile_cons_of_pos (by simpa using hb), ih]

/-- What the parser reads of a string, its name and its value. -/
theorem readString_render (dec : Bool) (s : JsonString) (t : List UInt8) :
  match s.read dec with
  | none => readString dec (s.render ++ t) = none
  | some bs => ∃ name, readString dec (s.render ++ t) = some ⟨bs.takeWhile (· ≠ 0), name, t, true⟩
    ∧ (dec = false ∨ s.isPlain = true → name = s.content)
  := by
  have htext : s.render ++ t ++ [0]
      = ['"'.toUInt8] ++ ([] ++ (s.content ++ '"'.toUInt8 :: (t ++ [0]))) := by
    simp [JsonString.render]
  have hsound : isContent (((s.render ++ t).drop 1).take (1 + s.content.length - 1)) = true := by
    rw [isContent_iff]
    use s
    simp [JsonString.render]
  have hrest : (s.render ++ t).drop (1 + s.content.length + 1) = t := by
    apply List.drop_left'
    simp [JsonString.render]
    omega
  have hread : ∀ {val : List UInt8} {bs r : List UInt8},
      velyJsonToUtf8 (s.render ++ t ++ [0]) true dec
        = .ok ⟨val, some (1 + s.content.length), ""⟩ →
      val.set (1 + s.content.length) 0 = ['"'.toUInt8] ++ bs ++ 0 :: r →
      readString dec (s.render ++ t)
        = some ⟨bs.takeWhile (· ≠ 0), (bs ++ 0 :: r).take s.content.length, t, true⟩ := by
    intro val bs r hval hset
    have hname : (val.drop 1).take (1 + s.content.length - 1) = (bs ++ 0 :: r).take s.content.length := by
      have h := congrArg (fun v => (v.drop 1).take s.content.length) hset
      simp only [List.drop_set, List.append_assoc] at h
      rw [if_neg (by omega), List.take_set_of_le (by omega)] at h
      rw [Nat.add_sub_cancel_left, h]
      rfl
    have hvalue : ((val.set (1 + s.content.length) 0).drop 1).takeWhile (· ≠ 0)
        = bs.takeWhile (· ≠ 0) := by
      rw [hset]
      exact takeWhile_zero bs r
    rw [readString, hval]
    simp only [hname, hvalue, hrest, hsound]
  cases dec with
  | true =>
    have hle := length_le_content s
    have hloop := @encodeLoop_string ['"'.toUInt8] [] ((s.render ++ t ++ [0]).length + 1) s (t ++ [0])
      (by rw [htext]; simp; omega)
    rw [← htext] at hloop
    change LoopReads (velyJsonToUtf8 (s.render ++ t ++ [0]) true true) _ _ _ at hloop
    simp only [JsonString.read, if_true]
    cases hs : s.toUtf8 with
    | none =>
      rw [hs] at hloop
      obtain ⟨val, e, hval⟩ := hloop
      simp only
      rw [readString, hval]
    | some bs =>
      rw [hs] at hloop
      obtain ⟨val, r, hval, hset⟩ := hloop
      refine ⟨_, hread hval hset, ?_⟩
      rintro (h | h)
      · cases h
      · rw [toUtf8_of_isPlain h] at hs
        obtain rfl := Option.some.inj hs
        rw [List.take_left]
  | false =>
    have hloop := @noencodeLoop_string ['"'.toUInt8] ((s.render ++ t ++ [0]).length + 1) s (t ++ [0])
      (by rw [htext]; simp; omega)
    have hval : velyJsonToUtf8 (s.render ++ t ++ [0]) true false
        = .ok ⟨s.render ++ t ++ [0], some (1 + s.content.length), ""⟩ := by
      rw [htext]
      rw [htext] at hloop
      exact hloop
    refine ⟨_, @hread _ s.content (t ++ [0]) hval ?_, ?_⟩
    · rw [htext, List.nil_append, List.set_append_right _ _ (by simp), List.length_singleton,
        Nat.add_sub_cancel_left, List.set_append_right _ _ le_rfl, Nat.sub_self, List.set_cons_zero,
        List.append_assoc]
    · intro _
      rw [List.take_left]

/-! ### Values of strings -/

/-- The number of a character that is written with one escape or two. -/
theorem decodedUnit_char {n : Nat} (hn : n < 0x110000) (hs : ¬ (0xD800 ≤ n ∧ n ≤ 0xDFFF))
    (hf : n ≠ 0xFEFF) :
  decodedUnit n = some (String.utf8EncodeChar (Char.ofNat n))
  := by
  have hvalid : n.isValidChar := by
    rw [Nat.isValidChar]
    omega
  have htoNat : (Char.ofNat n).toNat = n := by
    rw [Char.ofNat, dif_pos hvalid]
    rfl
  have hdecode := velyDecodeUtf8_char (Char.ofNat n) (by rwa [htoNat])
  rw [htoNat] at hdecode
  rw [decodedUnit, hdecode]
  rfl

/-- The number of a surrogate pair. -/
theorem velyMakeFromUtf8Surrogate_pair {u u' : Nat} (h : isHighSurrogate u = true)
    (h' : isLowSurrogate u' = true) :
  velyMakeFromUtf8Surrogate u u' = pairValue u u' ∧ 0x10000 ≤ pairValue u u'
    ∧ pairValue u u' < 0x110000
  := by
  simp only [isHighSurrogate, isLowSurrogate, Bool.and_eq_true, decide_eq_true_eq] at h h'
  unfold velyMakeFromUtf8Surrogate pairValue
  omega

/-- U+FEFF is no surrogate. -/
theorem ne_feff {u : Nat} (h : isSurrogate u = true) :
  decide (u = 0xFEFF) = false
  := by
  simp only [isSurrogate, Bool.and_eq_true, decide_eq_true_eq] at h
  rw [decide_eq_false_iff_not]
  omega

theorem isSurrogate_eq (u : Nat) :
  isSurrogate u = (isHighSurrogate u || isLowSurrogate u)
  := by
  rw [Bool.eq_iff_iff]
  simp only [isSurrogate, isHighSurrogate, isLowSurrogate, Bool.or_eq_true, Bool.and_eq_true,
    decide_eq_true_eq]
  omega

namespace JsonChar

theorem isUnicode_plain (u : Nat) (c : UInt8) (ok : Vely.isPlain c = true) :
  (JsonChar.plain c ok).isUnicode u = false
  := rfl

theorem isUnicode_escape (u : Nat) (c : UInt8) (ok : isEscape c = true) :
  (JsonChar.escape c ok).isUnicode u = false
  := rfl

theorem isUnicode_unicode (u : Nat) {a b c d : UInt8}
    (ok : isHexDigit a ∧ isHexDigit b ∧ isHexDigit c ∧ isHexDigit d) :
  (JsonChar.unicode a b c d ok).isUnicode u = decide (codeUnit a b c d = u)
  := rfl

end JsonChar

/-- The parser reads the value of a string, unless there is an escape for U+FEFF. -/
theorem toUtf8_of_decode {s : JsonString} {bs : List UInt8} (h : s.decode = some bs) :
  s.toUtf8 = if s.any (fun c => c.isUnicode 0xFEFF) then none else some bs
  := by
  induction s using JsonString.decode.induct generalizing bs with
  | case1 =>
    obtain rfl := Option.some.inj h
    rfl
  | case2 c ok s ih =>
    rw [JsonString.decode] at h
    obtain ⟨bs', hs, rfl⟩ := Option.map_eq_some_iff.mp h
    rw [JsonString.toUtf8, ih hs, List.any_cons, JsonChar.isUnicode_plain, Bool.false_or]
    split <;> rfl
  | case3 c ok s ih =>
    rw [JsonString.decode] at h
    obtain ⟨bs', hs, rfl⟩ := Option.map_eq_some_iff.mp h
    rw [JsonString.toUtf8, ih hs, List.any_cons, JsonChar.isUnicode_escape, Bool.false_or]
    split <;> rfl
  | case4 a b c d ok s hlow =>
    rw [JsonString.decode.eq_def] at h
    simp [hlow] at h
  | case5 a b c d ok hlow hhigh a' b' c' d' ok' s hlow' ih =>
    rw [JsonString.decode.eq_def] at h
    simp only [hlow, hhigh, hlow', if_true, Bool.false_eq_true, if_false] at h
    obtain ⟨bs', hs, rfl⟩ := Option.map_eq_some_iff.mp h
    have hsurrogate : isSurrogate (codeUnit a b c d) = true := by
      rw [isSurrogate_eq, hhigh, Bool.true_or]
    have hsurrogate' : isSurrogate (codeUnit a' b' c' d') = true := by
      rw [isSurrogate_eq, hlow', Bool.or_true]
    obtain ⟨hpair, hge, hlt⟩ := velyMakeFromUtf8Surrogate_pair hhigh hlow'
    have hunit := decodedUnit_char hlt (by omega) (by omega)
    rw [JsonString.toUtf8_pair ok ok' hsurrogate, hpair, hunit, Option.bind_some, ih hs,
      List.any_cons, List.any_cons, JsonChar.isUnicode_unicode, JsonChar.isUnicode_unicode,
      ne_feff hsurrogate, ne_feff hsurrogate',
      Bool.false_or, Bool.false_or]
    split <;> rfl
  | case6 a b c d ok hlow hhigh a' b' c' d' ok' s hlow' =>
    rw [JsonString.decode.eq_def] at h
    simp [hlow, hhigh, hlow'] at h
  | case7 a b c d ok s hlow hhigh hnext =>
    rw [JsonString.decode.eq_def] at h
    simp [hlow, hhigh] at h
  | case8 a b c d ok s hlow hhigh ih =>
    have hlt := codeUnit_lt ok
    rw [JsonString.decode.eq_def] at h
    simp only [hlow, hhigh, Bool.false_eq_true, if_false] at h
    obtain ⟨bs', hs, rfl⟩ := Option.map_eq_some_iff.mp h
    rw [Bool.not_eq_true] at hlow hhigh
    have hsurrogate : isSurrogate (codeUnit a b c d) = false := by
      rw [isSurrogate_eq, hhigh, hlow, Bool.or_self]
    have hrange := hsurrogate
    simp only [isSurrogate, Bool.and_eq_false_iff, decide_eq_false_iff_not] at hrange
    rw [JsonString.toUtf8_single ok hsurrogate, List.any_cons, JsonChar.isUnicode_unicode]
    by_cases hf : codeUnit a b c d = 0xFEFF
    · rw [hf]
      rfl
    · rw [decodedUnit_char (by omega) (by omega) hf, Option.bind_some, ih hs,
        decide_eq_false hf, Bool.false_or]
      split <;> rfl

end Vely
