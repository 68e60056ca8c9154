import Vely.Json.Escapes

/-!
# Strings that are decoded

What `vely_json_to_utf8` comes to when it replaces the escapes of a string, and when what it accepts
has legal escapes only, in which every surrogate is in a pair.
-/

namespace Vely

/-! ### Legal strings -/

/-- An escape of JSON and the character it stands for; a surrogate is a high one with a low one
right behind it. -/
inductive LegalEscape : List UInt8 → Char → Prop where
  | letter {l : UInt8} (ok : isEscape l = true) :
      LegalEscape ['\\'.toUInt8, l] (Char.ofNat (escapeValue l).toNat)
  | unit {a b c d : UInt8} (ok : isHexDigit a ∧ isHexDigit b ∧ isHexDigit c ∧ isHexDigit d)
      (hs : isSurrogate (codeUnit a b c d) = false) :
      LegalEscape ['\\'.toUInt8, 'u'.toUInt8, a, b, c, d] (Char.ofNat (codeUnit a b c d))
  | pair {a b c d a' b' c' d' : UInt8}
      (ok : isHexDigit a ∧ isHexDigit b ∧ isHexDigit c ∧ isHexDigit d)
      (ok' : isHexDigit a' ∧ isHexDigit b' ∧ isHexDigit c' ∧ isHexDigit d')
      (hhigh : isHighSurrogate (codeUnit a b c d) = true)
      (hlow : isLowSurrogate (codeUnit a' b' c' d') = true) :
      LegalEscape
        ['\\'.toUInt8, 'u'.toUInt8, a, b, c, d, '\\'.toUInt8, 'u'.toUInt8, a', b', c', d']
        (Char.ofNat (pairValue (codeUnit a b c d) (codeUnit a' b' c' d')))

/-- A body of a string with legal escapes only, and its bytes with every escape replaced by the
character it stands for. -/
inductive Legal : List UInt8 → List UInt8 → Prop where
  | nil : Legal [] []
  | byte {t bs : List UInt8} {c : UInt8} (hc : c ≠ 0 ∧ c ≠ '"'.toUInt8 ∧ c ≠ '\\'.toUInt8)
      (h : Legal t bs) : Legal (c :: t) (c :: bs)
  | escape {t bs x : List UInt8} {c : Char} (he : LegalEscape x c) (h : Legal t bs) :
      Legal (x ++ t) (String.utf8EncodeChar c ++ bs)

/-- A body of a string in UTF-8 with legal escapes only, and the characters it denotes. -/
inductive DenotesText : List UInt8 → List Char → Prop where
  | nil : DenotesText [] []
  | char {t : List UInt8} {cs : List Char} {c : Char} (hc : c.toNat ≠ 0 ∧ c ≠ '"' ∧ c ≠ '\\')
      (h : DenotesText t cs) : DenotesText (String.utf8EncodeChar c ++ t) (c :: cs)
  | escape {t x : List UInt8} {cs : List Char} {c : Char} (he : LegalEscape x c)
      (h : DenotesText t cs) : DenotesText (x ++ t) (c :: cs)

/-- A letter behind a backslash stands for a character of ASCII. -/
theorem utf8EncodeChar_escapeValue {l : UInt8} (ok : isEscape l = true) :
  String.utf8EncodeChar (Char.ofNat (escapeValue l).toNat) = [escapeValue l]
  := by
  have hall : ∀ l ∈ ascii "\"\\/bfnrt",
      String.utf8EncodeChar (Char.ofNat (escapeValue l).toNat) = [escapeValue l] := by
    decide +kernel
  exact hall l (by simpa [isEscape] using ok)

/-- An escape whose surrogates are in pairs is legal. -/
theorem Escape.legal {x y : List UInt8} (h : Escape x y true) :
  ∃ c, LegalEscape x c ∧ y = String.utf8EncodeChar c
  := by
  generalize hq : true = q at h
  cases h with
  | letter ok => exact ⟨_, .letter ok, (utf8EncodeChar_escapeValue ok).symm⟩
  | unit ok hs hf => exact ⟨_, .unit ok hs, rfl⟩
  | pair ok ok' hs hbs =>
    obtain ⟨hhigh, hlow⟩ := Bool.and_eq_true_iff.mp hq.symm
    refine ⟨_, .pair ok ok' hhigh hlow, ?_⟩
    obtain ⟨hpair, hge, hlt⟩ := velyMakeFromUtf8Surrogate_pair hhigh hlow
    rw [hpair, decodedUnit_char hlt (by omega) (by omega)] at hbs
    exact (Option.some.inj hbs).symm

/-- A text whose surrogates are in pairs is legal. -/
theorem Decodes.legal {t bs : List UInt8} (h : Decodes t bs true) :
  Legal t bs
  := by
  generalize hp : true = p at h
  induction h with
  | nil => exact .nil
  | byte hc h ih => exact .byte hc (ih hp)
  | escape he h ih =>
    obtain ⟨rfl, rfl⟩ := Bool.and_eq_true_iff.mp hp.symm
    obtain ⟨c, hc, rfl⟩ := he.legal
    exact .escape hc (ih rfl)

/-- A legal escape that begins a text is the one that is replaced there. -/
theorem LegalEscape.escape {x x' y t t' : List UInt8} {c : Char} {q : Bool} (h : LegalEscape x c)
    (h' : Escape x' y q) (heq : x ++ t = x' ++ t') :
  q = true ∧ t = t'
  := by
  have hletter : isEscape 'u'.toUInt8 = false := by decide
  cases h with
  | letter ok =>
    cases h' with
    | letter ok' =>
      simp only [List.cons_append, List.nil_append, List.cons.injEq] at heq
      exact ⟨rfl, heq.2.2⟩
    | unit ok' =>
      simp only [List.cons_append, List.nil_append, List.cons.injEq] at heq
      rw [heq.2.1, hletter] at ok
      cases ok
    | pair ok' =>
      simp only [List.cons_append, List.nil_append, List.cons.injEq] at heq
      rw [heq.2.1, hletter] at ok
      cases ok
  | unit ok hs =>
    cases h' with
    | letter ok' =>
      simp only [List.cons_append, List.nil_append, List.cons.injEq] at heq
      rw [← heq.2.1, hletter] at ok'
      cases ok'
    | unit ok' =>
      simp only [List.cons_append, List.nil_append, List.cons.injEq] at heq
      exact ⟨rfl, heq.2.2.2.2.2.2⟩
    | pair ok' ok'' hs' =>
      simp only [List.cons_append, List.nil_append, List.cons.injEq] at heq
      obtain ⟨-, -, rfl, rfl, rfl, rfl, -⟩ := heq
      rw [hs] at hs'
      cases hs'
  | pair ok ok' hhigh hlow =>
    cases h' with
    | letter ok'' =>
      simp only [List.cons_append, List.nil_append, List.cons.injEq] at heq
      rw [← heq.2.1, hletter] at ok''
      cases ok''
    | unit ok'' hs =>
      simp only [List.cons_append, List.nil_append, List.cons.injEq] at heq
      obtain ⟨-, -, rfl, rfl, rfl, rfl, -⟩ := heq
      rw [isSurrogate_eq, hhigh, Bool.true_or] at hs
      cases hs
    | pair =>
      simp only [List.cons_append, List.nil_append, List.cons.injEq] at heq
      obtain ⟨-, -, rfl, rfl, rfl, rfl, -, -, rfl, rfl, rfl, rfl, rfl⟩ := heq
      rw [hhigh, hlow]
      exact ⟨rfl, rfl⟩

/-- Every escape begins with a backslash. -/
theorem Escape.exists_cons {x y : List UInt8} {q : Bool} (h : Escape x y q) :
  ∃ x', x = '\\'.toUInt8 :: x'
  := by
  cases h with
  | letter => exact ⟨_, rfl⟩
  | unit => exact ⟨_, rfl⟩
  | pair => exact ⟨_, rfl⟩

theorem LegalEscape.exists_cons {x : List UInt8} {c : Char} (h : LegalEscape x c) :
  ∃ x', x = '\\'.toUInt8 :: x'
  := by
  cases h with
  | letter => exact ⟨_, rfl⟩
  | unit => exact ⟨_, rfl⟩
  | pair => exact ⟨_, rfl⟩

/-- Of a legal text, all surrogates are in pairs. -/
theorem Legal.proper {t bs bs' : List UInt8} {p : Bool} (h : Legal t bs) (h' : Decodes t bs' p) :
  p = true
  := by
  induction h' generalizing bs with
  | nil => rfl
  | @byte t bs' p c hc h' ih =>
    generalize heq : c :: t = text at h
    cases h with
    | nil => cases heq
    | byte hc' h =>
      obtain ⟨-, rfl⟩ := List.cons.inj heq
      exact ih h
    | escape he h =>
      obtain ⟨x, rfl⟩ := he.exists_cons
      exact absurd (List.cons.inj heq).1 hc.2.2
  | @escape t bs' x y p q he' h' ih =>
    generalize heq : x ++ t = text at h
    cases h with
    | nil =>
      obtain ⟨x, rfl⟩ := he'.exists_cons
      cases heq
    | byte hc h =>
      obtain ⟨x, rfl⟩ := he'.exists_cons
      exact absurd (List.cons.inj heq).1.symm hc.2.2
    | escape he h =>
      obtain ⟨rfl, rfl⟩ := he.escape he' heq.symm
      rw [ih h, Bool.and_self]

/-! ### Texts in UTF-8 -/

/-- A text without a backslash in front is raw. -/
theorem Legal.raw {l t bs : List UInt8} (hl : '\\'.toUInt8 ∉ l) (h : Legal (l ++ t) bs) :
  (∀ b ∈ l, b ≠ 0 ∧ b ≠ '"'.toUInt8) ∧ ∃ bs', bs = l ++ bs' ∧ Legal t bs'
  := by
  induction l generalizing bs with
  | nil => exact ⟨by simp, bs, rfl, h⟩
  | cons b l ih =>
    rw [List.mem_cons, not_or] at hl
    generalize heq : b :: l ++ t = text at h
    cases h with
    | nil => cases heq
    | byte hc h =>
      obtain ⟨rfl, rfl⟩ := List.cons.inj heq
      obtain ⟨hraw, bs', rfl, h'⟩ := ih hl.2 h
      refine ⟨?_, bs', rfl, h'⟩
      rw [List.forall_mem_cons]
      exact ⟨⟨hc.1, hc.2.1⟩, hraw⟩
    | escape he h =>
      obtain ⟨x, rfl⟩ := he.exists_cons
      exact absurd (List.cons.inj heq).1.symm hl.1

/-- A byte of ASCII is among the bytes of its character only. -/
theorem eq_of_mem_utf8EncodeChar {c d : Char} {a : UInt8} (ha : a < 128)
    (hd : String.utf8EncodeChar d = [a]) (h : a ∈ String.utf8EncodeChar c) :
  c = d
  := by
  have hc := utf8EncodeChar_of_mem h ha
  apply @utf8EncodeChar_append_inj c d [] []
  rw [hc, hd]

/-- The bytes of a legal escape are characters. -/
theorem LegalEscape.exists_utf8 {x : List UInt8} {c : Char} (h : LegalEscape x c) :
  ∃ xs, x = utf8 xs
  := by
  have hhex : ∀ n < 256, isHexDigit (UInt8.ofNat n) = true → UInt8.ofNat n < 128 := by
    decide +kernel
  have hdigit : ∀ {d : UInt8}, isHexDigit d = true → d < 128 := by
    intro d hd
    have hd' := hhex d.toNat d.toNat_lt
    rw [UInt8.ofNat_toNat] at hd'
    exact hd' hd
  have hback : '\\'.toUInt8 < 128 := by decide
  have hu : 'u'.toUInt8 < 128 := by decide
  apply exists_utf8_ascii
  cases h with
  | letter ok =>
    have hall : ∀ l ∈ ascii "\"\\/bfnrt", l < 128 := by decide +kernel
    have hl := hall _ (by simpa [isEscape] using ok)
    simp [hback, hl]
  | unit ok hs =>
    obtain ⟨ha, hb, hc, hd⟩ := ok
    simp [hback, hu, hdigit ha, hdigit hb, hdigit hc, hdigit hd]
  | pair ok ok' hhigh hlow =>
    obtain ⟨ha, hb, hc, hd⟩ := ok
    obtain ⟨ha', hb', hc', hd'⟩ := ok'
    simp [hback, hu, hdigit ha, hdigit hb, hdigit hc, hdigit hd, hdigit ha', hdigit hb',
      hdigit hc', hdigit hd']

/-- A legal text in UTF-8 is decoded to the characters it denotes. -/
theorem Legal.denotes {ts : List Char} {t bs : List UInt8} (h : Legal t bs) (ht : t = utf8 ts) :
  ∃ cs, DenotesText t cs ∧ bs = utf8 cs
  := by
  induction hn : t.length using Nat.strong_induction_on generalizing t bs ts with
  | h n ih =>
    cases ts with
    | nil =>
      subst ht
      generalize heq : utf8 [] = text at h
      cases h with
      | nil => exact ⟨[], .nil, rfl⟩
      | byte => cases heq
      | escape he =>
        obtain ⟨x, rfl⟩ := he.exists_cons
        cases heq
    | cons d ts =>
      have hpos : 0 < (String.utf8EncodeChar d).length :=
        List.length_pos_of_ne_nil String.utf8EncodeChar_ne_nil
      rw [utf8_cons] at ht
      by_cases hback : d = '\\'
      · -- An escape: its bytes are characters, and so is what is behind it.
        cases h with
        | nil =>
          have hlen := congrArg List.length ht
          rw [List.length_append, List.length_nil] at hlen
          omega
        | byte hc h =>
          subst hback
          exact absurd (List.cons.inj ht).1 hc.2.2
        | @escape t bs x c he h =>
          obtain ⟨xs, hxs⟩ := he.exists_utf8
          rw [hxs, ← utf8_cons] at ht
          obtain ⟨us, hus⟩ := utf8_cancel ht
          obtain ⟨x', hx'⟩ := he.exists_cons
          have hlen : t.length < n := by
            rw [← hn, List.length_append, hx', List.length_cons]
            omega
          obtain ⟨cs, hcs, rfl⟩ := ih t.length hlen h hus rfl
          exact ⟨c :: cs, .escape he hcs, (utf8_cons c cs).symm⟩
      · have hmem : '\\'.toUInt8 ∉ String.utf8EncodeChar d :=
          fun hmem => hback (eq_of_mem_utf8EncodeChar (by decide) rfl hmem)
        subst ht
        obtain ⟨hraw, bs, rfl, h'⟩ := h.raw hmem
        have hlen : (utf8 ts).length < n := by
          rw [← hn, List.length_append]
          omega
        obtain ⟨cs, hcs, rfl⟩ := ih _ hlen h' rfl rfl
        refine ⟨d :: cs, .char ⟨?_, ?_, hback⟩ hcs, (utf8_cons d cs).symm⟩
        · intro hz
          obtain rfl : d = Char.ofNat 0 := by
            rw [← hz, Char.ofNat_toNat]
          exact (hraw 0 (by decide)).1 rfl
        · rintro rfl
          exact (hraw '"'.toUInt8 (by decide)).2 rfl

/-! ### The loop -/

/-- What the loop of `vely_json_to_utf8` comes to from the position `start` of a string: the string,
the position that is read, and how many bytes behind the one that is written it is. -/
inductive EncodeReach (text : List UInt8) (start : Nat) : List UInt8 → Nat → Nat → Prop where
  | start : EncodeReach text start text start 0
  | byte {val : List UInt8} {i pull : Nat} (h : EncodeReach text start val i pull)
      (hc : byteAt val i ≠ 0 ∧ byteAt val i ≠ '"'.toUInt8 ∧ byteAt val i ≠ '\\'.toUInt8) :
      EncodeReach text start (if pull ≠ 0 then val.set (i - pull) (byteAt val i) else val) (i + 1)
        pull
  | escape {val val' : List UInt8} {i i' pull pull' : Nat} (h : EncodeReach text start val i pull)
      (hc : byteAt val i = '\\'.toUInt8)
      (he : replaceEscape val (i + 1) pull = .ok (val', i', pull')) :
      EncodeReach text start val' i' pull'

/-- The length of an escape with `u`. -/
theorem length_unicodeEscape {v : List UInt8} {u : Int} {n : Nat}
    (h : unicodeEscape v = .ok (u, n)) :
  6 ≤ n
  := by
  rw [unicodeEscape] at h
  obtain ⟨r, -, h⟩ := exists_of_bind h
  split at h
  · split at h
    · cases h
    · obtain ⟨r', -, h⟩ := exists_of_bind h
      cases h
      omega
  · cases h
    omega

/-- The loop goes on behind an escape. -/
theorem lt_of_replaceEscape {val val' : List UInt8} {i i' pull pull' : Nat}
    (h : replaceEscape val i pull = .ok (val', i', pull')) :
  i < i'
  := by
  rw [replaceEscape] at h
  split at h
  · cases h
    omega
  · split at h
    · obtain ⟨⟨u, n⟩, hescape, h⟩ := exists_of_bind h
      obtain ⟨bs, -, h⟩ := exists_of_bind h
      have hlen := length_unicodeEscape hescape
      cases h
      omega
    · cases h

section Reach

variable {before body val : List UInt8} {i pull : Nat}

/-- What is decoded behind `before` when the loop is at `i`: what is read of the body is decoded in
front of a gap, and what is not read is unchanged. -/
theorem EncodeReach.decodes (h : EncodeReach (before ++ body) before.length val i pull) :
  ∃ t out p gap rem, body = t ++ rem ∧ Decodes t out p
    ∧ val = (before ++ out) ++ (gap ++ rem) ∧ i = (before ++ out).length + gap.length
    ∧ pull = gap.length ∧ out.length + gap.length = t.length
  := by
  induction h with
  | start => exact ⟨[], [], true, [], body, by simp [Decodes.nil]⟩
  | byte h hc ih =>
    obtain ⟨t, out, p, gap, rem, rfl, hdec, rfl, rfl, rfl, hlen⟩ := ih
    have hbyte : byteAt ((before ++ out) ++ (gap ++ rem)) ((before ++ out).length + gap.length)
        = byteAt rem 0 := byteAt_middle rem 0
    rw [hbyte] at hc ⊢
    cases rem with
    | nil => exact absurd rfl hc.1
    | cons b rem =>
      rw [byteAt_cons_zero] at hc ⊢
      refine ⟨t ++ [b], out ++ [b], p && true, (gap ++ [b]).drop 1, rem, ?_,
        hdec.append (.byte hc .nil), ?_, ?_, ?_, ?_⟩
      · rw [List.append_assoc, List.singleton_append]
      · have hset := @set_pulled (before ++ out) gap rem b
        rw [List.singleton_append] at hset
        rw [Nat.add_sub_cancel, hset, ← List.append_assoc before]
      · simp only [List.length_append, List.length_drop, List.length_singleton]
        omega
      · simp
      · simp only [List.length_append, List.length_drop, List.length_singleton]
        omega
  | escape h hc he ih =>
    obtain ⟨t, out, p, gap, rem, rfl, hdec, rfl, rfl, rfl, hlen⟩ := ih
    have hbyte : byteAt ((before ++ out) ++ (gap ++ rem)) ((before ++ out).length + gap.length)
        = byteAt rem 0 := byteAt_middle rem 0
    rw [hbyte] at hc
    obtain ⟨x, y, q, rest, rfl, hescape⟩ := exists_escape hc he
    obtain ⟨hle, -, hreplace⟩ := hescape.replaces
    rw [hreplace, Except.ok.injEq, Prod.mk.injEq, Prod.mk.injEq] at he
    obtain ⟨rfl, rfl, rfl⟩ := he
    have hnil : Decodes x y (q && true) := by
      have h := Decodes.escape hescape .nil
      rwa [List.append_nil, List.append_nil] at h
    refine ⟨t ++ x, out ++ y, p && (q && true), (gap ++ x).drop y.length, rest, ?_,
      hdec.append hnil, ?_, ?_, ?_, ?_⟩
    · rw [List.append_assoc]
    · rw [← List.append_assoc before]
    · simp only [List.length_append, List.length_drop]
      omega
    · rw [List.length_drop, List.length_append]
    · simp only [List.length_append, List.length_drop]
      omega

/-- The position that is written does not pass the position that is read, and what is not read yet
is unchanged. -/
theorem EncodeReach.pull_le (h : EncodeReach (before ++ body) before.length val i pull) :
  before.length + pull ≤ i ∧ val.drop i = (before ++ body).drop i
  := by
  obtain ⟨t, out, p, gap, rem, rfl, -, rfl, rfl, rfl, hlen⟩ := h.decodes
  constructor
  · rw [List.length_append]
    omega
  · have hi : (before ++ out).length + gap.length = (before ++ t).length := by
      rw [List.length_append, List.length_append]
      omega
    rw [hi, ← List.append_assoc before, List.drop_left]
    rw [← hi, ← List.length_append, ← List.append_assoc (before ++ out), List.drop_left]

/-- The loop of `vely_json_to_utf8` ends at a quote or a terminator that it comes to, or with an
error. -/
theorem encodeLoop_ends {quoted : Bool} {bound : Nat}
    (h : EncodeReach (before ++ body) before.length val i pull)
    (hb : (before ++ body).length < bound + i) :
  ∃ r, encodeLoop quoted bound val i pull = .ok r
    ∧ ((∃ val' i' pull', EncodeReach (before ++ body) before.length val' i' pull'
        ∧ (byteAt val' i' = '"'.toUInt8 ∨ byteAt val' i' = 0)
        ∧ r = finishString val' quoted i' pull')
      ∨ r.stop = none)
  := by
  induction bound generalizing val i pull with
  | zero =>
    exfalso
    obtain ⟨t, out, p, gap, rem, rfl, -, -, rfl, -, hlen⟩ := h.decodes
    simp only [List.length_append] at hb
    omega
  | succ bound ih =>
    rw [encodeLoop]
    by_cases hend : byteAt val i = '"'.toUInt8 ∨ byteAt val i = 0
    · rw [if_pos hend]
      exact ⟨_, rfl, .inl ⟨val, i, pull, h, hend, rfl⟩⟩
    · rw [if_neg hend]
      rw [not_or] at hend
      by_cases hback : byteAt val i = '\\'.toUInt8
      · rw [if_pos hback]
        cases he : replaceEscape val (i + 1) pull with
        | error e => exact ⟨_, rfl, .inr rfl⟩
        | ok r =>
          obtain ⟨val', i', pull'⟩ := r
          have h' := EncodeReach.escape h hback he
          have hlt := lt_of_replaceEscape he
          apply ih h'
          omega
      · rw [if_neg hback]
        apply ih (.byte h ⟨hend.2, hend.1, hback⟩)
        omega

end Reach

/-- From the body of a string the loop comes to where `out` is written in front of a gap, and `rem`
is not read yet. -/
def LoopsTo (quoted : Bool) (before body out gap rem : List UInt8) : Prop :=
  ∃ n ≤ out.length + gap.length, ∀ bound,
    encodeLoop quoted (bound + n) (before ++ body) before.length 0
      = encodeLoop quoted bound ((before ++ out) ++ (gap ++ rem))
          ((before ++ out).length + gap.length) gap.length

section LoopsTo

variable {quoted : Bool} {before body out gap rem : List UInt8}

theorem LoopsTo.start :
  LoopsTo quoted before body [] [] body
  := ⟨0, Nat.zero_le _, fun bound => by simp⟩

theorem LoopsTo.byte {c : UInt8} (hc : c ≠ 0 ∧ c ≠ '"'.toUInt8 ∧ c ≠ '\\'.toUInt8)
    (h : LoopsTo quoted before body out gap (c :: rem)) :
  LoopsTo quoted before body (out ++ [c]) ((gap ++ [c]).drop 1) rem
  := by
  obtain ⟨n, hn, hloop⟩ := h
  refine ⟨n + 1, ?_, ?_⟩
  · simp only [List.length_append, List.length_drop, List.length_singleton]
    omega
  · intro bound
    have hplain := @encodeLoop_plain (before ++ out) gap rem bound quoted c hc.1 hc.2.1 hc.2.2
    rw [List.singleton_append] at hplain
    rw [Nat.add_comm n, ← Nat.add_assoc, hloop, hplain, ← List.append_assoc before]

theorem LoopsTo.escape {x y : List UInt8} {q : Bool} (he : Escape x y q)
    (h : LoopsTo quoted before body out gap (x ++ rem)) :
  LoopsTo quoted before body (out ++ y) ((gap ++ x).drop y.length) rem
  := by
  obtain ⟨n, hn, hloop⟩ := h
  have hreplaces := he.replaces
  have hle := hreplaces.1
  obtain ⟨x', hx⟩ := he.exists_cons
  have hlen : x.length = x'.length + 1 := by rw [hx, List.length_cons]
  refine ⟨n + 1, ?_, ?_⟩
  · simp only [List.length_append, List.length_drop]
    omega
  · intro bound
    rw [Nat.add_comm n, ← Nat.add_assoc, hloop, encodeLoop_replaces hreplaces,
      ← List.append_assoc before]

/-- What is decoded of a text is written by the loop. -/
theorem Decodes.loopsTo {t bs : List UInt8} {p : Bool} (h : Decodes t bs p)
    (hloop : LoopsTo quoted before body out gap (t ++ rem)) :
  ∃ gap', gap'.length + bs.length = gap.length + t.length
    ∧ LoopsTo quoted before body (out ++ bs) gap' rem
  := by
  induction h generalizing out gap with
  | nil => exact ⟨gap, rfl, by rwa [List.append_nil]⟩
  | byte hc h ih =>
    obtain ⟨gap', hlen, hloop'⟩ := ih (hloop.byte hc)
    refine ⟨gap', ?_, ?_⟩
    · simp only [List.length_drop, List.length_append, List.length_cons, List.length_nil] at hlen ⊢
      omega
    · rwa [List.append_assoc, List.singleton_append] at hloop'
  | escape he h ih =>
    rw [List.append_assoc] at hloop
    obtain ⟨gap', hlen, hloop'⟩ := ih (hloop.escape he)
    have hle := he.replaces.1
    refine ⟨gap', ?_, ?_⟩
    · simp only [List.length_drop, List.length_append] at hlen ⊢
      omega
    · rwa [List.append_assoc] at hloop'

end LoopsTo

/-! ### What is accepted -/

/-- The string in memory, with its terminator; a quoted one has a quote in front. -/
def stringBefore (quoted : Bool) : List UInt8 := if quoted then ['"'.toUInt8] else []

/-- Whether a string ends in front of what is left. -/
def EndsString (quoted : Bool) (rest : List UInt8) : Prop :=
  byteAt rest 0 = '"'.toUInt8 ∨ (quoted = false ∧ byteAt rest 0 = 0)

/-- `vely_json_to_utf8` decodes a body as JSON has it: what it accepts has legal escapes only, its
bytes are those of the characters it denotes, and the position that is written does not pass the one
that is read. -/
def DecodesJson (quoted : Bool) (body : List UInt8) : Prop :=
  (∃ r, velyJsonToUtf8 (stringBefore quoted ++ (body ++ [0])) quoted true = .ok r
    ∧ ∀ stop, r.stop = some stop →
      ∃ t bs rest, body ++ [0] = t ++ rest ∧ EndsString quoted rest
        ∧ stop = (stringBefore quoted ++ t).length ∧ Legal t bs
        ∧ (∃ r', r.val.set stop 0 = stringBefore quoted ++ bs ++ 0 :: r')
        ∧ ∀ ts, t = utf8 ts → ∃ cs, DenotesText t cs ∧ bs = utf8 cs)
  ∧ ∀ val i pull,
    EncodeReach (stringBefore quoted ++ (body ++ [0])) (stringBefore quoted).length val i pull →
      (stringBefore quoted).length + pull ≤ i
        ∧ val.drop i = (stringBefore quoted ++ (body ++ [0])).drop i

/-- A body that is accepted, but with a surrogate that is not in a pair. -/
def Mispaired (quoted : Bool) (body : List UInt8) : Prop :=
  ∃ t bs rest, body ++ [0] = t ++ rest ∧ EndsString quoted rest ∧ Decodes t bs false

theorem velyJsonToUtf8_eq (quoted : Bool) (text : List UInt8) :
  velyJsonToUtf8 (stringBefore quoted ++ text) quoted true
    = encodeLoop quoted ((stringBefore quoted ++ text).length + 1) (stringBefore quoted ++ text)
        (stringBefore quoted).length 0
  := by
  cases quoted with
  | true => rfl
  | false => rfl

/-- No byte of a text that is decoded is a terminator. -/
theorem Decodes.zero_not_mem {t bs : List UInt8} {p : Bool} (h : Decodes t bs p) :
  0 ∉ t
  := by
  induction h with
  | nil => exact List.not_mem_nil
  | byte hc h ih =>
    rw [List.mem_cons, not_or]
    exact ⟨hc.1.symm, ih⟩
  | escape he h ih =>
    rw [List.mem_append, not_or]
    refine ⟨?_, ih⟩
    have hback : (0 : UInt8) ≠ '\\'.toUInt8 := by decide
    have hu : (0 : UInt8) ≠ 'u'.toUInt8 := by decide
    have hdigit : ∀ {d : UInt8}, isHexDigit d = true → (0 : UInt8) ≠ d :=
      fun hd => (ne_of_isHexDigit hd).1.symm
    cases he with
    | letter ok => simp [hback, (ne_zero_of_isEscape ok).symm]
    | unit ok =>
      obtain ⟨ha, hb, hc, hd⟩ := ok
      simp [hback, hu, hdigit ha, hdigit hb, hdigit hc, hdigit hd]
    | pair ok ok' =>
      obtain ⟨ha, hb, hc, hd⟩ := ok
      obtain ⟨ha', hb', hc', hd'⟩ := ok'
      simp [hback, hu, hdigit ha, hdigit hb, hdigit hc, hdigit hd, hdigit ha', hdigit hb',
        hdigit hc', hdigit hd']

section Finish

variable {quoted : Bool} {done gap rem : List UInt8}

/-- The string that is left at its end. -/
theorem finishString_val :
  ∃ z : List UInt8, z.length = gap.length
    ∧ (finishString (done ++ (gap ++ rem)) quoted (done.length + gap.length) gap.length)
      = (if byteAt rem 0 = 0 ∧ quoted then ⟨done ++ (z ++ rem), none, "Double quote is missing"⟩
        else ⟨done ++ (z ++ rem), some (done.length + gap.length), ""⟩)
    ∧ ∀ c rest, rem = c :: rest →
      ∃ r', (done ++ (z ++ rem)).set (done.length + gap.length) 0 = done ++ 0 :: r'
  := by
  cases gap with
  | nil =>
    refine ⟨[], rfl, ?_, ?_⟩
    · have hbyte : byteAt (done ++ ([] ++ rem)) (done.length + 0) = byteAt rem 0 :=
        @byteAt_middle done [] rem 0
      have hzero : ¬ (0 ≠ 0) := by simp
      simp only [finishString, List.length_nil, if_neg hzero, hbyte]
    · rintro c rest rfl
      use rest
      rw [List.length_nil, Nat.add_zero, List.nil_append, List.set_append_right _ _ le_rfl,
        Nat.sub_self, List.set_cons_zero]
  | cons d gap =>
    have hset : (done ++ (d :: gap ++ rem)).set done.length 0 = done ++ (0 :: gap ++ rem) := by
      rw [List.set_append_right _ _ le_rfl, Nat.sub_self]
      rfl
    refine ⟨0 :: gap, rfl, ?_, ?_⟩
    · have hbyte : byteAt (done ++ (0 :: gap ++ rem)) (done.length + (d :: gap).length)
          = byteAt rem 0 := @byteAt_middle done (0 :: gap) rem 0
      have hne : (d :: gap).length ≠ 0 := by simp
      simp only [finishString, if_pos hne, Nat.add_sub_cancel, hset, hbyte]
    · rintro c rest rfl
      use (gap ++ c :: rest).set gap.length 0
      rw [List.set_append_right _ _ (Nat.le_add_right _ _), Nat.add_sub_cancel_left]
      rfl

end Finish

/-- What is accepted is decoded, up to the end of the string. -/
theorem exists_decodes {quoted : Bool} {body : List UInt8} :
  ∃ r, velyJsonToUtf8 (stringBefore quoted ++ (body ++ [0])) quoted true = .ok r
    ∧ ∀ stop, r.stop = some stop →
      ∃ t bs p rest, body ++ [0] = t ++ rest ∧ EndsString quoted rest
        ∧ stop = (stringBefore quoted ++ t).length ∧ Decodes t bs p
        ∧ ∃ r', r.val.set stop 0 = stringBefore quoted ++ bs ++ 0 :: r'
  := by
  have hends := @encodeLoop_ends (stringBefore quoted) (body ++ [0]) _ _ _ quoted
    ((stringBefore quoted ++ (body ++ [0])).length + 1) .start (by omega)
  obtain ⟨r, hr, hends⟩ := hends
  refine ⟨r, by rw [velyJsonToUtf8_eq, hr], ?_⟩
  intro stop hstop
  obtain ⟨val, i, pull, hreach, hend, rfl⟩ | hnone := hends
  · obtain ⟨t, bs, p, gap, rem, hbody, hdec, rfl, rfl, rfl, hlen⟩ := hreach.decodes
    have hbyte : byteAt ((stringBefore quoted ++ bs) ++ (gap ++ rem))
        ((stringBefore quoted ++ bs).length + gap.length) = byteAt rem 0 := byteAt_middle rem 0
    rw [hbyte] at hend
    obtain ⟨z, hz, hfinish, hset⟩ := @finishString_val quoted (stringBefore quoted ++ bs) gap rem
    rw [hfinish] at hstop ⊢
    split at hstop
    case isTrue => cases hstop
    case isFalse hquoted =>
      obtain rfl := Option.some.inj hstop
      rw [if_neg hquoted]
      refine ⟨t, bs, p, rem, hbody, ?_, ?_, hdec, ?_⟩
      · obtain hquote | hzero := hend
        · exact .inl hquote
        · right
          rw [not_and, Bool.not_eq_true] at hquoted
          exact ⟨hquoted hzero, hzero⟩
      · rw [List.length_append, List.length_append]
        omega
      · cases rem with
        | nil =>
          exfalso
          apply hdec.zero_not_mem
          rw [List.append_nil] at hbody
          rw [← hbody]
          simp
        | cons c rest => exact hset c rest rfl
  · rw [hnone] at hstop
    cases hstop

/-- What is decoded up to the end of the string is accepted. -/
theorem Decodes.accepted {quoted : Bool} {body t bs rest : List UInt8} {p : Bool}
    (hbody : body ++ [0] = t ++ rest) (hend : EndsString quoted rest) (h : Decodes t bs p) :
  ∃ val, velyJsonToUtf8 (stringBefore quoted ++ (body ++ [0])) quoted true
    = .ok ⟨val, some (stringBefore quoted ++ t).length, ""⟩
  := by
  obtain ⟨gap, hgap, n, hn, hloop⟩ := @Decodes.loopsTo quoted (stringBefore quoted) (body ++ [0])
    [] [] rest t bs p h (by rw [← hbody]; exact .start)
  have hlen := congrArg List.length hbody
  simp only [List.length_append, List.nil_append, List.length_nil] at hlen hn hgap
  have hbound : (stringBefore quoted ++ (body ++ [0])).length + 1
      = ((stringBefore quoted ++ (body ++ [0])).length - n + 1) + n := by
    simp only [List.length_append]
    omega
  have hbyte : byteAt ((stringBefore quoted ++ ([] ++ bs)) ++ (gap ++ rest))
      ((stringBefore quoted ++ ([] ++ bs)).length + gap.length) = byteAt rest 0 :=
    byteAt_middle rest 0
  have hstop : byteAt rest 0 = '"'.toUInt8 ∨ byteAt rest 0 = 0 := by
    obtain hquote | hzero := hend
    · exact .inl hquote
    · exact .inr hzero.2
  obtain ⟨z, hz, hfinish, -⟩ :=
    @finishString_val quoted (stringBefore quoted ++ ([] ++ bs)) gap rest
  have hnot : ¬ (byteAt rest 0 = 0 ∧ quoted = true) := by
    rintro ⟨hzero, rfl⟩
    obtain hquote | ⟨hfalse, -⟩ := hend
    · rw [hzero] at hquote
      exact absurd hquote (by decide)
    · cases hfalse
  refine ⟨(stringBefore quoted ++ ([] ++ bs)) ++ (z ++ rest), ?_⟩
  rw [velyJsonToUtf8_eq, hbound, hloop, encodeLoop, hbyte, if_pos hstop, hfinish, if_neg hnot]
  have hi : (stringBefore quoted ++ ([] ++ bs)).length + gap.length
      = (stringBefore quoted ++ t).length := by
    simp only [List.length_append, List.nil_append]
    omega
  rw [hi]

/-- A body that is accepted with a surrogate that is not in a pair has no legal escapes only. -/
theorem Mispaired.not_decodesJson {quoted : Bool} {body : List UInt8} (h : Mispaired quoted body) :
  ¬ DecodesJson quoted body
  := by
  rintro ⟨⟨r, hr, haccepted⟩, -⟩
  obtain ⟨t, bs, rest, hbody, hend, hdec⟩ := h
  obtain ⟨val, hval⟩ := hdec.accepted hbody hend
  rw [hval] at hr
  obtain rfl := Except.ok.inj hr
  obtain ⟨t', bs', rest', hbody', -, hstop, hlegal, -⟩ := haccepted _ rfl
  have ht : t = t' := by
    rw [List.length_append, List.length_append] at hstop
    rw [hbody] at hbody'
    exact (List.append_inj hbody' (by omega)).1
  subst ht
  exact absurd (hlegal.proper hdec) (by decide)

/-- The strings are decoded as JSON has it but for those that are accepted with a surrogate that is
not in a pair. -/
theorem decodesJson_iff (quoted : Bool) (body : List UInt8) :
  DecodesJson quoted body ↔ ¬ Mispaired quoted body
  := by
  constructor
  · intro h hmispaired
    exact hmispaired.not_decodesJson h
  · intro hnot
    obtain ⟨r, hr, haccepted⟩ := @exists_decodes quoted body
    refine ⟨⟨r, hr, ?_⟩, fun val i pull hreach => hreach.pull_le⟩
    intro stop hstop
    obtain ⟨t, bs, p, rest, hbody, hend, hlen, hdec, hwritten⟩ := haccepted stop hstop
    cases p with
    | false => exact absurd ⟨t, bs, rest, hbody, hend, hdec⟩ hnot
    | true =>
      exact ⟨t, bs, rest, hbody, hend, hlen, hdec.legal, hwritten, fun ts hts =>
        hdec.legal.denotes hts⟩

/-- A high surrogate is taken with what is no low one: `\ud800\u0041` is decoded to U+2441. -/
theorem not_decodesJson_surrogate :
  ¬ DecodesJson true (ascii "\\ud800\\u0041\"")
  := by
  apply Mispaired.not_decodesJson
  have hpair : Escape (ascii "\\ud800\\u0041") [0xE2, 0x91, 0x81] false :=
    @Escape.pair 100 56 48 48 48 48 52 49 [0xE2, 0x91, 0x81] (by decide) (by decide) (by decide)
      (by decide +kernel)
  exact ⟨ascii "\\ud800\\u0041", _, ['"'.toUInt8, 0], by decide, .inl rfl, .escape hpair .nil⟩

end Vely
