import Vely.Encode.RoundTrip
import Vely.Lib.JsonGrammar

/-!
# URL encoding

A `char` is signed, so a byte above 127 has a negative number, and so have its digits: what is
written for it is no escape.
-/

namespace Vely

/-- The text of a component of a URL: bytes that need no escape, and escapes. -/
inductive UrlText : List UInt8 → Prop where
  | nil : UrlText []
  | unreserved {c : UInt8} {text : List UInt8} (hc : isUnreserved c = true) (h : UrlText text) :
      UrlText (c :: text)
  | escape {a b : UInt8} {text : List UInt8} (ha : isHexDigit a = true) (hb : isHexDigit b = true)
      (h : UrlText text) : UrlText ('%'.toUInt8 :: a :: b :: text)

/-- The string is encoded to the text of a component, and decoding it, with the length of the text
or without, gives the string back. -/
def UrlRoundTrip (s : CString) : Prop :=
  ∃ res n text, velyEncode .url s.bytes = .ok (res, n) ∧ res.string 0 = .ok text
    ∧ text.length = n ∧ UrlText text.bytes
    ∧ ∀ inlen : Int, inlen < 0 ∨ inlen = n →
      ∃ v m, velyDecode .url res inlen = .ok (v, m) ∧ v.string 0 = .ok s ∧ m = s.length

section UrlText

variable {text : List UInt8} {c : UInt8}

/-- What follows a percent sign are two digits. -/
theorem UrlText.escape_inv {a b : UInt8} (h : UrlText ('%'.toUInt8 :: a :: b :: text)) :
  isHexDigit a = true ∧ isHexDigit b = true ∧ UrlText text
  := by
  cases h with
  | unreserved hc h => exact absurd rfl (ne_of_isUnreserved hc).1
  | escape ha hb h => exact ⟨ha, hb, h⟩

theorem UrlText.unreserved_inv (hc : isUnreserved c = true) (h : UrlText (c :: text)) :
  UrlText text
  := by
  cases h with
  | unreserved hc h => exact h
  | escape ha hb h => exact absurd rfl (ne_of_isUnreserved hc).1

theorem lt_of_isUnreserved (hc : isUnreserved c = true) :
  c < 128
  := by
  have h : ∀ n < 256, isUnreserved (UInt8.ofNat n) = true → UInt8.ofNat n < 128 := by
    decide +kernel
  rw [← UInt8.ofNat_toNat (x := c)]
  apply h c.toNat c.toNat_lt
  rw [UInt8.ofNat_toNat]
  exact hc

/-- The digits of a byte that is escaped: those of a byte above 127 are no digits. -/
theorem isHexDigit_encodeDigit :
  isHexDigit (encodeDigit ((signed c).tdiv 16)) = true
      ∧ isHexDigit (encodeDigit ((signed c).tmod 16)) = true
    ↔ c < 128
  := by
  have h : ∀ n < 256, isHexDigit (encodeDigit ((signed (UInt8.ofNat n)).tdiv 16)) = true
      ∧ isHexDigit (encodeDigit ((signed (UInt8.ofNat n)).tmod 16)) = true
    ↔ UInt8.ofNat n < 128 := by
    decide +kernel
  rw [← UInt8.ofNat_toNat (x := c)]
  apply h c.toNat c.toNat_lt

/-- What is written for one byte in front of a text. -/
theorem urlText_encodeByte_append :
  UrlText (encodeByte c ++ text) ↔ c < 128 ∧ UrlText text
  := by
  by_cases hc : isUnreserved c = true
  · have hbyte : encodeByte c = [c] := by
      rw [encodeByte, if_pos]
      exact hc
    have hlt : c < 128 := lt_of_isUnreserved hc
    rw [hbyte, List.singleton_append]
    constructor
    · intro h
      exact ⟨hlt, h.unreserved_inv hc⟩
    · rintro ⟨-, h⟩
      apply UrlText.unreserved hc h
  · have hbyte : encodeByte c = ['%'.toUInt8, encodeDigit ((signed c).tdiv 16),
        encodeDigit ((signed c).tmod 16)] := by
      rw [encodeByte, if_neg]
      exact hc
    rw [← isHexDigit_encodeDigit, hbyte]
    constructor
    · intro h
      obtain ⟨ha, hb, h⟩ := UrlText.escape_inv h
      exact ⟨⟨ha, hb⟩, h⟩
    · rintro ⟨⟨ha, hb⟩, h⟩
      apply UrlText.escape ha hb h

/-- The text for a string is that of a component when the string is ASCII. -/
theorem urlText_iff {s : List UInt8} :
  UrlText (s.flatMap encodeByte) ↔ ∀ c ∈ s, c < 128
  := by
  induction s with
  | nil => simp [UrlText.nil]
  | cons c s ih =>
    rw [List.flatMap_cons, urlText_encodeByte_append, ih]
    simp

end UrlText

/-- URL encoding and decoding are inverse, and the text is that of a component, for the strings of
ASCII characters. -/
theorem urlRoundTrip_iff (s : CString) :
  UrlRoundTrip s ↔ ∀ c ∈ s.bytes, c < 128
  := by
  obtain ⟨rest, hencode⟩ := velyEncode_eq .url s
  have hstring : (Block.mk ((EncType.url.text s).bytes.map some ++ some 0 :: rest)).string 0
      = .ok (EncType.url.text s) :=
    Block.string_of_cells (l := []) (r := rest) (EncType.url.text s) rfl rfl
  constructor
  · rintro ⟨res, n, text, hres, htext, -, hurl, -⟩
    rw [hencode] at hres
    cases hres
    rw [hstring] at htext
    cases htext
    exact urlText_iff.mp hurl
  · intro hs
    refine ⟨_, _, _, hencode, hstring, rfl, urlText_iff.mpr hs, ?_⟩
    intro inlen hinlen
    obtain ⟨v, hdecode, hv⟩ :=
      velyDecode_text (t := .url) (s := s) (fun c hc => decodes_url (hs c hc)) rfl hinlen
    exact ⟨v, s.length, hdecode, hv, rfl⟩

/-- A letter of two bytes is encoded to something that is no escape, which is decoded to nothing. -/
theorem not_urlRoundTrip_letter :
  ∃ s res n text v, s.bytes = [0xC3, 0xA9] ∧ ¬ UrlRoundTrip s
    ∧ velyEncode .url s.bytes = .ok (res, n) ∧ res.string 0 = .ok text
    ∧ text.bytes = ascii "%-#%+)" ∧ velyDecode .url res n = .ok (v, 0)
    ∧ v.string 0 = .ok CString.empty
  := by
  refine ⟨⟨[0xC3, 0xA9], by decide⟩, _, _, ⟨ascii "%-#%+)", by decide⟩, _, rfl, ?_, rfl, rfl, rfl,
    rfl, rfl⟩
  rintro ⟨res, n, text, hres, htext, -, hurl, -⟩
  cases hres
  cases htext
  cases hurl with
  | unreserved hc h => exact absurd hc (by decide)
  | escape ha hb h => exact absurd ha (by decide)

end Vely
