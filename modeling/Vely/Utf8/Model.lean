import Vely.Lib.Ctype

/-!
# UTF-8 (`utf8.c`)

Characters are numbers, of type `num32`.  A string is read from a pointer on; behind its end stands
its terminator.  An error is the text of the message.
-/

namespace Vely

/-- The byte that a number is stored to. -/
def byte (n : Int) : UInt8 := UInt8.ofInt n

/-- The byte `k` of the string at `r`. -/
def byteAt (r : List UInt8) (k : Nat) : UInt8 := r.getD k 0

@[simp]
theorem byteAt_cons_zero (c : UInt8) (s : List UInt8) :
  byteAt (c :: s) 0 = c
  := rfl

@[simp]
theorem byteAt_cons_succ (c : UInt8) (s : List UInt8) (k : Nat) :
  byteAt (c :: s) (k + 1) = byteAt s k
  := rfl

@[simp]
theorem byteAt_nil (k : Nat) :
  byteAt [] k = 0
  := rfl

/-- The number of the bits `mask` of a byte. -/
def bits (c mask : UInt8) : Int := (c &&& mask).toNat

/-- `vely_make_from_utf8_surrogate` -/
def velyMakeFromUtf8Surrogate (u0 u1 : Int) : Int :=
  u0 * 2 ^ 10 + u1 + (0x10000 - 0xD800 * 2 ^ 10 - 0xDC00)

/-- `vely_encode_utf8`: the character at `r`, and the number of its bytes. -/
def velyEncodeUtf8 (r : List UInt8) : Except String (Int × Nat) :=
  if byteAt r 0 &&& 128 = 0 then .ok ((byteAt r 0).toNat, 1)
  else if byteAt r 0 &&& 240 = 240 then
    if byteAt r 1 &&& 128 ≠ 128 then .error "Second UTF8 byte invalid"
    else if byteAt r 2 &&& 128 ≠ 128 then .error "Third UTF8 byte invalid"
    else if byteAt r 3 &&& 128 ≠ 128 then .error "Fourth UTF8 byte invalid"
    else .ok (bits (byteAt r 0) 7 * 2 ^ 18 + bits (byteAt r 1) 63 * 2 ^ 12 + bits (byteAt r 2) 63 * 2 ^ 6
      + bits (byteAt r 3) 63, 4)
  else if byteAt r 0 &&& 224 = 224 then
    if byteAt r 1 &&& 128 ≠ 128 then .error "Second UTF8 byte invalid"
    else if byteAt r 2 &&& 128 ≠ 128 then .error "Third UTF8 byte invalid"
    else .ok (bits (byteAt r 0) 15 * 2 ^ 12 + bits (byteAt r 1) 63 * 2 ^ 6 + bits (byteAt r 2) 63, 3)
  else if byteAt r 0 &&& 192 = 192 then
    if byteAt r 1 &&& 128 ≠ 128 then .error "Second UTF8 byte invalid"
    else .ok (bits (byteAt r 0) 31 * 2 ^ 6 + bits (byteAt r 1) 63, 2)
  else .error "Invalid UTF8 value"

/-- `vely_get_utf8_surrogate` -/
def velyGetUtf8Surrogate (u : Int) : Int × Int :=
  (0xD800 - 0x10000 / 2 ^ 10 + u / 2 ^ 10, 0xDC00 + u % 2 ^ 10)

/-- `vely_decode_utf8`: the bytes of a character. -/
def velyDecodeUtf8 (u : Int) : Except String (List UInt8) :=
  if u ≤ 0x7F then .ok [byte u]
  else if u ≤ 0x7FF then .ok [byte (192 + u / 2 ^ 6), byte (128 + u % 2 ^ 6)]
  else if u ≤ 0xFFFF then
    if u = 0xFEFF then .error "Illegal character code 0xFEFF"
    else
      .ok [byte (224 + u / 2 ^ 12), byte (128 + u / 2 ^ 6 % 2 ^ 6), byte (128 + u % 2 ^ 6)]
  else if u ≤ 0x10FFFF then
    .ok [byte (240 + u / 2 ^ 18), byte (128 + u / 2 ^ 12 % 2 ^ 6), byte (128 + u / 2 ^ 6 % 2 ^ 6),
      byte (128 + u % 2 ^ 6)]
  else .error "UTF8 character out of range"

/-- `VV_TO_HEX` -/
def toHex (x : Int) : UInt8 :=
  if x ≤ 9 then byte ('0'.toNat + x) else byte ('a'.toNat - 10 + x)

/-- `VV_HEX_FROM_BYTE` -/
def hexFromByte (x : Int) : List UInt8 := [toHex (x / 16 % 16), toHex (x % 16)]

/-- `VV_HEX_FROM_INT16` -/
def hexFromInt16 (x : Int) : List UInt8 :=
  hexFromByte (x / 256 % 256) ++ hexFromByte (x % 256)

end Vely
