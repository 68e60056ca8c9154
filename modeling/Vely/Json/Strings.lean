import Vely.Lib.Memory
import Vely.Utf8.Model

/-!
# The strings of JSON (`json.c`)

`vely_json_to_utf8` replaces the escapes of a string in place: the bytes behind an escape are pulled
back over it.  A string is read from a pointer on, and what is behind the pointer in the
buffer is changed.  `vely_utf8_to_json` writes a new string.
-/

namespace Vely

/-! ### From JSON -/

/-- A digit of a hexadecimal number. -/
def hexValue (c : UInt8) : Option Nat :=
  if '0'.toUInt8 ≤ c ∧ c ≤ '9'.toUInt8 then some (c - '0'.toUInt8).toNat
  else if 'a'.toUInt8 ≤ c ∧ c ≤ 'f'.toUInt8 then some ((c - 'a'.toUInt8).toNat + 10)
  else if 'A'.toUInt8 ≤ c ∧ c ≤ 'F'.toUInt8 then some ((c - 'A'.toUInt8).toNat + 10)
  else none

/-- `vely_get_hex` -/
def velyGetHex (v : List UInt8) : Except String Int :=
  (List.range 4).foldlM
    (fun r k =>
      match hexValue (byteAt v k) with
      | some d => .ok (r + d * 16 ^ (3 - k))
      | none => .error "Bad UTF character")
    0

/-- The byte that a letter behind a backslash stands for. -/
def escapedByte (c : UInt8) : Option UInt8 :=
  if c = '"'.toUInt8 ∨ c = '\\'.toUInt8 ∨ c = '/'.toUInt8 then some c
  else if c = 'b'.toUInt8 then some 8
  else if c = 'f'.toUInt8 then some 12
  else if c = 'n'.toUInt8 then some 10
  else if c = 'r'.toUInt8 then some 13
  else if c = 't'.toUInt8 then some 9
  else none

/-- The character of an escape with `u`, and the length of the escape; `v` starts behind the `u`. -/
def unicodeEscape (v : List UInt8) : Except String (Int × Nat) := do
  let r ← velyGetHex v
  if 0xD800 ≤ r ∧ r ≤ 0xDFFF then
    if byteAt v 4 ≠ '\\'.toUInt8 ∨ byteAt v 5 ≠ 'u'.toUInt8 then
      .error "Surrogate UTF-8 value missing"
    else do
      let r1 ← velyGetHex (v.drop 6)
      return (velyMakeFromUtf8Surrogate r r1, 12)
  else return (r, 6)

/-- The string with the bytes `bs` at `p`. -/
def writeBytes (val : List UInt8) (p : Nat) (bs : List UInt8) : List UInt8 :=
  val.take p ++ bs ++ val.drop (p + bs.length)

/-- An escape is replaced; `i` is behind its backslash, and the bytes are pulled back by `pull`.
The string, and `i` and `pull` behind the escape. -/
def replaceEscape (val : List UInt8) (i pull : Nat) : Except String (List UInt8 × Nat × Nat) :=
  match escapedByte (byteAt val i) with
  | some c => .ok (val.set (i - 1 - pull) c, i + 1, pull + 1)
  | none =>
    if byteAt val i = 'u'.toUInt8 then do
      let (rtot, totjv) ← unicodeEscape (val.drop (i + 1))
      let bytes ← velyDecodeUtf8 rtot
      return (writeBytes val (i - 1 - pull) bytes, i + totjv - 1, pull + totjv - bytes.length)
    else .error "Unknown escape sequence"

/-- What `vely_json_to_utf8` leaves: the string, where it ends (none for NULL), and the error. -/
structure Utf8Result where
  val : List UInt8
  stop : Option Nat
  errm : String

/-- The end of `vely_json_to_utf8`. -/
def finishString (val : List UInt8) (quoted : Bool) (i pull : Nat) : Utf8Result :=
  let val := if pull ≠ 0 then val.set (i - pull) 0 else val
  if byteAt val i = 0 ∧ quoted then ⟨val, none, "Double quote is missing"⟩ else ⟨val, some i, ""⟩

/-- The loop of `vely_json_to_utf8` that replaces the escapes. -/
def encodeLoop (quoted : Bool) : Nat → List UInt8 → Nat → Nat → Except Stop Utf8Result
  | 0, _, _, _ => .error .fault
  | bound + 1, val, i, pull =>
    let c := byteAt val i
    if c = '"'.toUInt8 ∨ c = 0 then .ok (finishString val quoted i pull)
    else if c = '\\'.toUInt8 then
      match replaceEscape val (i + 1) pull with
      | .error e => .ok ⟨val, none, e⟩
      | .ok (val, i, pull) => encodeLoop quoted bound val i pull
    else
      let val := if pull ≠ 0 then val.set (i - pull) c else val
      encodeLoop quoted bound val (i + 1) pull

/-- The loop of `vely_json_to_utf8` that looks for the end only. -/
def noencodeLoop (quoted : Bool) : Nat → List UInt8 → Nat → Except Stop Utf8Result
  | 0, _, _ => .error .fault
  | bound + 1, val, i =>
    let c := byteAt val i
    if c = 0 then .ok (finishString val quoted i 0)
    else if c = '\\'.toUInt8 ∧ byteAt val (i + 1) ≠ 0 then noencodeLoop quoted bound val (i + 2)
    else if c = '"'.toUInt8 then
      if quoted then .ok (finishString val quoted i 0) else noencodeLoop quoted bound val i
    else noencodeLoop quoted bound val (i + 1)

/-- `vely_json_to_utf8` -/
def velyJsonToUtf8 (val : List UInt8) (quoted enc : Bool) : Except Stop Utf8Result :=
  let i := if quoted then 1 else 0
  if enc then encodeLoop quoted (val.length + 1) val i 0
  else noencodeLoop quoted (val.length + 1) val i

/-! ### To JSON -/

/-- The escape of a byte that is not written as it is. -/
def escapeLetter (c : UInt8) : Option UInt8 :=
  if c = '"'.toUInt8 then some '"'.toUInt8
  else if c = '\\'.toUInt8 then some '\\'.toUInt8
  else if c = 8 then some 'b'.toUInt8
  else if c = 12 then some 'f'.toUInt8
  else if c = 10 then some 'n'.toUInt8
  else if c = 13 then some 'r'.toUInt8
  else if c = 9 then some 't'.toUInt8
  else none

/-- Behind the bytes `res` of a block of `size` bytes, `bs` are written. -/
def putBytes (size : Nat) (res bs : List UInt8) : Except Stop (List UInt8) :=
  if res.length + bs.length ≤ size then .ok (res ++ bs) else .error .fault

/-- An escape with `u`, and the terminator behind it, are written. -/
def putUnicode (size : Nat) (res : List UInt8) (u : Int) : Except Stop (List UInt8) := do
  let res ← putBytes size res (['\\'.toUInt8, 'u'.toUInt8] ++ hexFromInt16 u)
  let _ ← putBytes size res [0]
  return res

/-- The loop of `vely_utf8_to_json`; `val` is what is left of the string, and `res` is what is
written to the block of `size` bytes. -/
def toJsonLoop (size : Nat) :
    Nat → List UInt8 → List UInt8 → Except Stop (Except String (List UInt8))
  | _, [], res => do
    let _ ← putBytes size res [0]
    return .ok res
  | 0, _ :: _, _ => .error .fault
  | bound + 1, c :: val, res =>
    if c &&& 192 = 192 then
      match velyEncodeUtf8 (c :: val) with
      | .error e => return .error e
      | .ok (u, bytes) => do
        if 0x10000 ≤ u then
          let (u0, u1) := velyGetUtf8Surrogate u
          let res ← putBytes size res (['\\'.toUInt8, 'u'.toUInt8] ++ hexFromInt16 u0)
          let res ← putUnicode size res u1
          toJsonLoop size bound ((c :: val).drop bytes) res
        else
          let res ← putUnicode size res u
          toJsonLoop size bound ((c :: val).drop bytes) res
    else
      match escapeLetter c with
      | some l => do
        let res ← putBytes size res ['\\'.toUInt8, l]
        toJsonLoop size bound val res
      | none => do
        let res ← putBytes size res [c]
        toJsonLoop size bound val res

/-- `vely_utf8_to_json`: the string that is written to the block, or the error. -/
def velyUtf8ToJson (val : List UInt8) : Except Stop (Except String (List UInt8)) :=
  toJsonLoop (3 * val.length + 1) val.length val []

end Vely
