import Vely.Lib.Ctype

/-!
# The grammar of JSON

A document is a tree that keeps the white space and the spelling of a text; `render` gives this
text, and a text is well formed when it is that of a document.  The characters are bytes, and a byte
above 127 is part of a character that may stand in a string as it is.
-/

namespace Vely

/-! ### Characters -/

/-- White space. -/
def isBlank (c : UInt8) : Bool := c = 32 || c = 9 || c = 10 || c = 13

/-- A character that stands for itself in a string. -/
def isPlain (c : UInt8) : Bool := 32 ≤ c && c ≠ '"'.toUInt8 && c ≠ '\\'.toUInt8

/-- A letter that is an escape with a backslash before it. -/
def isEscape (c : UInt8) : Bool := c ∈ ascii "\"\\/bfnrt"

/-- A digit of a hexadecimal number. -/
def isHexDigit (c : UInt8) : Bool :=
  isdigit c || (97 ≤ c && c ≤ 102) || (65 ≤ c && c ≤ 70)

/-- A stretch of white space. -/
structure Blank where
  bytes : List UInt8
  blank : ∀ c ∈ bytes, isBlank c = true

/-- A character of a string, as it is written. -/
inductive JsonChar where
  | plain (c : UInt8) (ok : isPlain c = true)
  | escape (c : UInt8) (ok : isEscape c = true)
  | unicode (a b c d : UInt8)
      (ok : isHexDigit a ∧ isHexDigit b ∧ isHexDigit c ∧ isHexDigit d)

/-- The text of a character. -/
def JsonChar.render : JsonChar → List UInt8
  | .plain c _ => [c]
  | .escape c _ => ['\\'.toUInt8, c]
  | .unicode a b c d _ => ['\\'.toUInt8, 'u'.toUInt8, a, b, c, d]

/-- The characters of a string. -/
abbrev JsonString := List JsonChar

namespace JsonString

/-- The text between the quotes. -/
def content (s : JsonString) : List UInt8 := s.flatMap JsonChar.render

/-- The text of a string. -/
def render (s : JsonString) : List UInt8 := '"'.toUInt8 :: (s.content ++ ['"'.toUInt8])

end JsonString

/-- Whether a text may stand between quotes. -/
def isContent : List UInt8 → Bool
  | [] => true
  | c :: s =>
    if c = '\\'.toUInt8 then
      match s with
      | [] => false
      | e :: s =>
        if isEscape e then isContent s
        else if e = 'u'.toUInt8 then
          match s with
          | a :: b :: c :: d :: s =>
            isHexDigit a && isHexDigit b && isHexDigit c && isHexDigit d && isContent s
          | _ => false
        else false
    else isPlain c && isContent s

/-! ### Values of strings -/

/-- The number of a hexadecimal digit. -/
def hexDigitValue (c : UInt8) : Nat :=
  if isdigit c then c.toNat - 48 else if 97 ≤ c then c.toNat - 87 else c.toNat - 55

/-- The number of four hexadecimal digits. -/
def codeUnit (a b c d : UInt8) : Nat :=
  ((hexDigitValue a * 16 + hexDigitValue b) * 16 + hexDigitValue c) * 16 + hexDigitValue d

/-- The byte that an escape with a letter stands for. -/
def escapeValue (c : UInt8) : UInt8 :=
  if c = 'b'.toUInt8 then 8
  else if c = 'f'.toUInt8 then 12
  else if c = 'n'.toUInt8 then 10
  else if c = 'r'.toUInt8 then 13
  else if c = 't'.toUInt8 then 9
  else c

/-- Whether a code unit is the first one of a surrogate pair. -/
def isHighSurrogate (u : Nat) : Bool := 0xD800 ≤ u && u ≤ 0xDBFF

/-- Whether a code unit is the second one of a surrogate pair. -/
def isLowSurrogate (u : Nat) : Bool := 0xDC00 ≤ u && u ≤ 0xDFFF

/-- The character of a surrogate pair. -/
def pairValue (u u' : Nat) : Nat := 0x10000 + (u - 0xD800) * 1024 + (u' - 0xDC00)

/-- The value of a string, as bytes in UTF-8; there is none when a surrogate is not in a pair. -/
def JsonString.decode : JsonString → Option (List UInt8)
  | [] => some []
  | .plain c _ :: s => (decode s).map (c :: ·)
  | .escape c _ :: s => (decode s).map (escapeValue c :: ·)
  | .unicode a b c d _ :: s =>
    if isLowSurrogate (codeUnit a b c d) then none
    else if isHighSurrogate (codeUnit a b c d) then
      match s with
      | .unicode a' b' c' d' _ :: s' =>
        if isLowSurrogate (codeUnit a' b' c' d') then
          (decode s').map (String.utf8EncodeChar
            (Char.ofNat (pairValue (codeUnit a b c d) (codeUnit a' b' c' d'))) ++ ·)
        else none
      | _ => none
    else (decode s).map (String.utf8EncodeChar (Char.ofNat (codeUnit a b c d)) ++ ·)

/-- Whether a character is an escape with a given number. -/
def JsonChar.isUnicode (u : Nat) : JsonChar → Bool
  | .unicode a b c d _ => codeUnit a b c d = u
  | _ => false

/-- Whether a character is an escape. -/
def JsonChar.isEscaped : JsonChar → Bool
  | .plain _ _ => false
  | _ => true

/-! ### Numbers and literals -/

/-- A number: its sign, the digits before and behind the point, and the exponent with its mark and
its sign. -/
structure JsonNumber where
  neg : Bool
  int : List UInt8
  frac : Option (List UInt8)
  exp : Option (UInt8 × List UInt8 × List UInt8)
  int_digits : int ≠ [] ∧ ∀ c ∈ int, isdigit c = true
  no_leading_zero : int.head? = some '0'.toUInt8 → int.length = 1
  frac_digits : ∀ ds ∈ frac, ds ≠ [] ∧ ∀ c ∈ ds, isdigit c = true
  exp_digits : ∀ e ∈ exp, (e.1 = 'e'.toUInt8 ∨ e.1 = 'E'.toUInt8)
    ∧ (e.2.1 = [] ∨ e.2.1 = ['+'.toUInt8] ∨ e.2.1 = ['-'.toUInt8])
    ∧ e.2.2 ≠ [] ∧ ∀ c ∈ e.2.2, isdigit c = true

namespace JsonNumber

/-- The text of a fraction. -/
def fractionText : Option (List UInt8) → List UInt8
  | none => []
  | some ds => '.'.toUInt8 :: ds

/-- The text of an exponent. -/
def exponentText : Option (UInt8 × List UInt8 × List UInt8) → List UInt8
  | none => []
  | some (e, sign, ds) => e :: (sign ++ ds)

/-- The text of a number. -/
def render (n : JsonNumber) : List UInt8 :=
  (if n.neg then ['-'.toUInt8] else []) ++ n.int ++ fractionText n.frac ++ exponentText n.exp

/-- Whether a number has a fraction or an exponent. -/
def isReal (n : JsonNumber) : Bool := n.frac.isSome || n.exp.isSome

end JsonNumber

/-- A literal. -/
inductive JsonLiteral where
  | true
  | false
  | null

/-- The text of a literal. -/
def JsonLiteral.render : JsonLiteral → List UInt8
  | .true => ascii "true"
  | .false => ascii "false"
  | .null => ascii "null"

/-- A value that holds no others. -/
inductive JsonScalar where
  | literal (l : JsonLiteral)
  | number (n : JsonNumber)
  | string (s : JsonString)

/-- The text of a scalar. -/
def JsonScalar.render : JsonScalar → List UInt8
  | .literal l => l.render
  | .number n => n.render
  | .string s => s.render

/-! ### Documents -/

/-- What a part of a document is: a value, the elements of an array or the members of an object. -/
inductive JsonPart where
  | value
  | elements
  | members

/-- A part of a document, with the white space around its parts. -/
inductive Json : JsonPart → Type where
  | scalar (s : JsonScalar) : Json .value
  | emptyArray (w : Blank) : Json .value
  | array (es : Json .elements) : Json .value
  | emptyObject (w : Blank) : Json .value
  | object (ms : Json .members) : Json .value
  | element (w₁ : Blank) (v : Json .value) (w₂ : Blank) : Json .elements
  | elements (w₁ : Blank) (v : Json .value) (w₂ : Blank) (es : Json .elements) : Json .elements
  | member (w₁ : Blank) (name : JsonString) (w₂ w₃ : Blank) (v : Json .value) (w₄ : Blank) :
      Json .members
  | members (w₁ : Blank) (name : JsonString) (w₂ w₃ : Blank) (v : Json .value) (w₄ : Blank)
      (ms : Json .members) : Json .members

namespace Json

/-- The text of a part. -/
def render : {k : JsonPart} → Json k → List UInt8
  | _, .scalar s => s.render
  | _, .emptyArray w => '['.toUInt8 :: (w.bytes ++ [']'.toUInt8])
  | _, .array es => '['.toUInt8 :: (es.render ++ [']'.toUInt8])
  | _, .emptyObject w => '{'.toUInt8 :: (w.bytes ++ ['}'.toUInt8])
  | _, .object ms => '{'.toUInt8 :: (ms.render ++ ['}'.toUInt8])
  | _, .element w₁ v w₂ => w₁.bytes ++ v.render ++ w₂.bytes
  | _, .elements w₁ v w₂ es => w₁.bytes ++ v.render ++ w₂.bytes ++ ','.toUInt8 :: es.render
  | _, .member w₁ name w₂ w₃ v w₄ =>
    w₁.bytes ++ name.render ++ w₂.bytes ++ ':'.toUInt8 :: (w₃.bytes ++ v.render ++ w₄.bytes)
  | _, .members w₁ name w₂ w₃ v w₄ ms =>
    w₁.bytes ++ name.render ++ w₂.bytes
      ++ ':'.toUInt8 :: (w₃.bytes ++ v.render ++ w₄.bytes ++ ','.toUInt8 :: ms.render)

/-- How deep arrays and objects are nested. -/
def nesting : {k : JsonPart} → Json k → Nat
  | _, .scalar _ => 0
  | _, .emptyArray _ => 1
  | _, .array es => es.nesting + 1
  | _, .emptyObject _ => 1
  | _, .object ms => ms.nesting + 1
  | _, .element _ v _ => v.nesting
  | _, .elements _ v _ es => max v.nesting es.nesting
  | _, .member _ _ _ _ v _ => v.nesting
  | _, .members _ _ _ _ v _ ms => max v.nesting ms.nesting

end Json

/-- A text: a value with white space around it. -/
structure JsonDocument where
  before : Blank
  value : Json .value
  after : Blank

/-- The text of a document. -/
def JsonDocument.render (d : JsonDocument) : List UInt8 :=
  d.before.bytes ++ d.value.render ++ d.after.bytes

/-! ### Texts of strings -/

theorem isContent_plain {c : UInt8} {s : List UInt8} (hc : isPlain c = true) :
  isContent (c :: s) = isContent s
  := by
  have hne : c ≠ '\\'.toUInt8 := by
    rintro rfl
    revert hc
    decide
  rw [isContent.eq_def]
  simp [hne, hc]

theorem isContent_escape {c : UInt8} {s : List UInt8} (hc : isEscape c = true) :
  isContent ('\\'.toUInt8 :: c :: s) = isContent s
  := by
  rw [isContent.eq_def]
  simp [hc]

theorem isContent_unicode {a b c d : UInt8} {s : List UInt8} :
  isContent ('\\'.toUInt8 :: 'u'.toUInt8 :: a :: b :: c :: d :: s)
    = (isHexDigit a && isHexDigit b && isHexDigit c && isHexDigit d && isContent s)
  := by
  have hu : isEscape 'u'.toUInt8 = false := by decide
  rw [isContent.eq_def]
  simp [hu]

/-- The texts that may stand between quotes are those of characters. -/
theorem isContent_iff {s : List UInt8} :
  isContent s = true ↔ ∃ cs : JsonString, cs.content = s
  := by
  constructor
  · intro h
    induction s using isContent.induct with
    | case1 => exact ⟨[], rfl⟩
    | case2 => simp [isContent] at h
    | case3 e s he ih =>
      rw [isContent_escape he] at h
      obtain ⟨cs, rfl⟩ := ih h
      exact ⟨.escape e he :: cs, rfl⟩
    | case4 a b c d s _ ih =>
      rw [isContent_unicode] at h
      simp only [Bool.and_eq_true] at h
      obtain ⟨cs, rfl⟩ := ih h.2
      exact ⟨.unicode a b c d ⟨h.1.1.1.1, h.1.1.1.2, h.1.1.2, h.1.2⟩ :: cs, rfl⟩
    | case5 s hs hu =>
      rw [isContent.eq_def] at h
      simp [hu] at h
    | case6 e s he hu =>
      rw [isContent.eq_def] at h
      simp [he, hu] at h
    | case7 c s hc ih =>
      rw [isContent.eq_def] at h
      simp only [hc, if_false, Bool.and_eq_true] at h
      obtain ⟨cs, rfl⟩ := ih h.2
      exact ⟨.plain c h.1 :: cs, rfl⟩
  · rintro ⟨cs, rfl⟩
    induction cs with
    | nil => rfl
    | cons c cs ih =>
      rw [JsonString.content, List.flatMap_cons, ← JsonString.content]
      cases c with
      | plain c ok => rw [JsonChar.render, List.singleton_append, isContent_plain ok, ih]
      | escape c ok => exact (isContent_escape ok).trans ih
      | unicode a b c d ok =>
        apply isContent_unicode.trans
        simp [ok, ih]

end Vely
