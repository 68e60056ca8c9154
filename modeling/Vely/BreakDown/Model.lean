import Vely.Lib.Block
import Vely.V1.Keyword

/-!
# Breaking down a string

`vely_break_down` cuts a string at a delimiter, except within double quotes, and trims the pieces,
all in the memory of the string.  The quotes around a piece are removed each for itself, and a quote
right behind a delimiter is counted even when the delimiter ends with a backslash.
-/

namespace Vely

namespace BreakDown

open V1

/-! ### The program -/

/-- `vely_split_str`, with the memory that its pieces are in. -/
structure Broken where
  block : Block
  numPieces : Nat
  pieces : List Nat

/-- The loop that looks for the delimiter, from `currValue` on: the memory with a terminator where
each piece ends, and the places where the pieces start. -/
def cutFrom (delim : List UInt8) :
    Nat → Block → Nat → Except Stop (Except TextError (Block × List Nat))
  | 0, _, _ => .error .fault
  | n + 1, b, currValue => do
    let s ← b.string currValue
    match velyFindKeyword0 s.bytes delim false false with
    | .error e => return .error e
    | .ok none => return .ok (b, [currValue])
    | .ok (some kwd) =>
      let b ← b.put (currValue + kwd) 0
      match ← cutFrom delim n b (currValue + kwd + delim.length) with
      | .error e => return .error e
      | .ok (b, pieces) => return .ok (b, currValue :: pieces)

/-- The loop `while (isspace(*p)) p++`. -/
def skipSpaces (b : Block) : Nat → Nat → Except Stop Nat
  | 0, _ => .error .fault
  | n + 1, p => do
    let c ← b.get p
    if isspace c then skipSpaces b n (p + 1) else return p

/-- The loop `while (isspace(*ep)) ep--`. -/
def backSpaces (b : Block) : Nat → Except Stop Nat
  | 0 => do
    let c ← b.get 0
    if isspace c then .error .fault else return 0
  | ep + 1 => do
    let c ← b.get (ep + 1)
    if isspace c then backSpaces b ep else return (ep + 1)

/-- A piece is trimmed on both sides, where `next` is the piece after it: the memory, and the place
where the piece starts. -/
def trimPiece (dlen : Nat) (b : Block) (piece : Nat) (next : Option Nat) :
    Except Stop (Block × Nat) := do
  let p ← skipSpaces b b.cells.length piece
  let c ← b.get p
  let p := if c = 34 then p + 1 else p
  let ep ←
    match next with
    | none => do
      let s ← b.string p
      pure (p + s.length)
    | some next => pure (next - dlen)
  if ep ≠ p then do
    let ep ← backSpaces b (ep - 1)
    let c ← b.get ep
    let b ← b.put (if c = 34 then ep else ep + 1) 0
    return (b, p)
  else return (b, p)

/-- The pieces are trimmed one after the other. -/
def trimPieces (dlen : Nat) : List Nat → Block → Except Stop (Block × List Nat)
  | [], b => return (b, [])
  | piece :: pieces, b => do
    let (b, p) ← trimPiece dlen b piece pieces.head?
    let (b, ps) ← trimPieces dlen pieces b
    return (b, p :: ps)

/-- `vely_break_down` -/
def velyBreakDown (value delim : CString) : Except Stop (Except TextError Broken) := do
  match ← cutFrom delim.bytes (value.length + 1) ⟨value.block.map some⟩ 0 with
  | .error e => return .error e
  | .ok (b, pieces) => do
    let (b, ps) ← trimPieces delim.length pieces b
    return .ok ⟨b, pieces.length, ps⟩

/-! ### What is asked for -/

/-- Whether a text ends within double quotes, where `before` is the byte before the text.  A quote
that is escaped by a backslash does not open or close. -/
def quoted : Option UInt8 → List UInt8 → Bool
  | _, [] => false
  | before, c :: s => (c = 34 && before ≠ some 92) ^^ quoted (some c) s

/-- The delimiter is at `i`, outside of double quotes. -/
def delimitsAt (value delim : List UInt8) (i : Nat) : Bool :=
  delim.isPrefixOf (value.drop i) && !quoted none (value.take i)

/-- The delimiters at some places, from `next` on, none of them within the one before. -/
def delimitersFrom (value delim : List UInt8) : Nat → List Nat → List Nat
  | _, [] => []
  | next, i :: is =>
    if next ≤ i ∧ delimitsAt value delim i = true then
      i :: delimitersFrom value delim (i + delim.length) is
    else delimitersFrom value delim next is

/-- The delimiters that a string is to be cut at. -/
def delimiters (value delim : List UInt8) : List Nat :=
  delimitersFrom value delim 0 (List.range value.length)

/-- What is between delimiters of `dlen` bytes, from `i` on. -/
def between (value : List UInt8) (dlen : Nat) : Nat → List Nat → List (List UInt8)
  | i, [] => [value.drop i]
  | i, f :: fs => (value.take f).drop i :: between value dlen (f + dlen) fs

/-- A piece without the whitespace around it. -/
def trimmed (w : List UInt8) : List UInt8 := (w.dropWhile isspace).rdropWhile isspace

/-- A pair of quotes that encloses a text is removed. -/
def unquoted (s : List UInt8) : List UInt8 :=
  if 2 ≤ s.length ∧ s.head? = some 34 ∧ s.getLast? = some 34 then s.tail.dropLast else s

/-- The pieces are these texts. -/
def Broken.Reads (broken : Broken) (ws : List (List UInt8)) : Prop :=
  List.Forall₂ (fun p w => ∃ s, broken.block.string p = .ok s ∧ s.bytes = w) broken.pieces ws

/-- The pieces are what is between the delimiters outside of double quotes, trimmed, and without the
pair of quotes that encloses it; they are one more than the delimiters. -/
def BreakDownOk (value delim : CString) : Prop :=
  let ds := delimiters value.bytes delim.bytes
  ∃ broken, velyBreakDown value delim = .ok (.ok broken)
    ∧ broken.numPieces = ds.length + 1
    ∧ broken.Reads ((between value.bytes delim.length 0 ds).map fun w => unquoted (trimmed w))

/-- A text has a quote on both sides or on none. -/
def Paired (s : List UInt8) : Prop :=
  s ≠ [34] ∧ (s.head? = some 34 ↔ s.getLast? = some 34)

/-- Where the delimiter ends with a backslash, a piece that starts with a quote has no delimiter
behind it, outside of quotes or not. -/
def LastIfQuoted (value delim : List UInt8) : Prop :=
  delim.getLast? = some 92 → ∀ f ∈ delimiters value delim,
    value[f + delim.length]? = some 34 → ¬ delim <:+: value.drop (f + delim.length)

end BreakDown

end Vely
