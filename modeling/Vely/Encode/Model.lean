import Vely.Input.Multipart

/-!
# Web and URL encoding (`vely_encode_base`, `vely_decode`)

A string is encoded into memory of its caller: memory allocated for it, or the string of a
`write-string` behind what was written before.  It is decoded in place.
-/

namespace Vely

/-- `VV_WEB`, `VV_URL` -/
inductive EncType where
  | web
  | url
  deriving DecidableEq

/-- `VV_MAX_ENC_BLOWUP` -/
def maxEncBlowup (n : Nat) : Nat := n * 6 + 1

/-! ### Encoding -/

/-- What web encoding writes for one byte. -/
def webByte (c : UInt8) : List UInt8 :=
  if c = '&'.toUInt8 then ascii "&amp;"
  else if c = '"'.toUInt8 then ascii "&quot;"
  else if c = '\''.toUInt8 then ascii "&apos;"
  else if c = '<'.toUInt8 then ascii "&lt;"
  else if c = '>'.toUInt8 then ascii "&gt;"
  else if c = 0 then []
  else [c]

/-- What is written for one byte. -/
def EncType.bytes : EncType → UInt8 → List UInt8
  | .web => webByte
  | .url => encodeByte

/-- The loop of `vely_encode_base`, written up to `j`, and the terminator. -/
def encodeBaseLoop (t : EncType) (res : Block) (j : Nat) : List UInt8 → Except Stop (Block × Nat)
  | [] => do
    let res ← res.put j 0
    return (res, j)
  | c :: v => do
    let res ← res.putAll j (t.bytes c)
    encodeBaseLoop t res (j + (t.bytes c).length) v

/-- `vely_encode_base` into the memory from `start` on, and the length of what is written. -/
def velyEncodeBase (t : EncType) (v : List UInt8) (res : Block) (start : Nat) :
    Except Stop (Block × Nat) := do
  let (res, j) ← encodeBaseLoop t res start v
  return (res, j - start)

/-- `vely_encode`, which allocates -/
def velyEncode (t : EncType) (v : List UInt8) : Except Stop (Block × Nat) :=
  velyEncodeBase t v (Block.alloc (maxEncBlowup v.length)) 0

/-! ### Writing to a string -/

/-- `vely_write_string`: the memory, the position in it, and how much is added to it at least. -/
structure WriteString where
  string : Block
  bufPos : Nat
  wlen : Nat

/-- `VV_WRSTR_ADJMEM` -/
def adjMem (x : Nat) : Nat := if x < 8192 then 2 * x else x

/-- The loop of `vely_puts` that makes room in the string and then encodes into it. -/
def putsLoop (t : EncType) (s : List UInt8) : Nat → WriteString → Except Stop WriteString
  | 0, _ => .error .fault
  | bound + 1, w =>
    let bup := int32 (maxEncBlowup s.length)
    if bup > (w.string.cells.length : Int) - 1 - w.bufPos then
      let len := (w.string.cells.length : Int) + bup + w.wlen
      putsLoop t s bound
        { w with string := w.string.realloc len.toNat, wlen := adjMem w.wlen }
    else do
      let (string, res) ← velyEncodeBase t s w.string w.bufPos
      return { w with string := string, bufPos := w.bufPos + res }

/-- `vely_puts` to a string, with encoding; the loop is passed twice at most. -/
def velyPuts (t : EncType) (s : List UInt8) (w : WriteString) : Except Stop WriteString :=
  putsLoop t s 2 w

/-! ### Decoding -/

/-- `strncmp` of the string at `p` with a text, as long as the text: whether it is 0. -/
def strncmp (v : Block) (p : Nat) : List UInt8 → Except Stop Bool
  | [] => .ok true
  | c :: text => do
    let d ← v.get p
    if d = c then strncmp v (p + 1) text else return false

/-- The entities that are decoded, without the `&`, and what they stand for. -/
def entities : List (List UInt8 × UInt8) :=
  [(ascii "amp;", '&'.toUInt8), (ascii "quot;", '"'.toUInt8), (ascii "apos;", '\''.toUInt8),
    (ascii "lt;", '<'.toUInt8), (ascii "gt;", '>'.toUInt8)]

/-- The first one of some entities that stands at `p`. -/
def entityAt (v : Block) (p : Nat) :
    List (List UInt8 × UInt8) → Except Stop (Option (List UInt8 × UInt8))
  | [] => .ok none
  | e :: es => do
    if ← strncmp v p e.1 then return some e else entityAt v p es

/-- The loop that decodes entities, up to `inlen`; `bound` is a bound on what is left. -/
def decodeWebLoop (inlen : Nat) : Nat → Block → Nat → Nat → Except Stop (Block × Nat)
  | 0, v, _, j => .ok (v, j)
  | bound + 1, v, i, j =>
    if i < inlen then do
      let c ← v.get i
      if c = '&'.toUInt8 then
        match ← entityAt v (i + 1) entities with
        | some e => do
          let v ← v.put j e.2
          decodeWebLoop inlen bound v (i + 1 + e.1.length) (j + 1)
        | none => do
          let v ← v.put j c
          decodeWebLoop inlen bound v (i + 1) (j + 1)
      else do
        let v ← v.put j c
        decodeWebLoop inlen bound v (i + 1) (j + 1)
    else .ok (v, j)

/-- `URLDIG` -/
def urlDig (x : UInt8) : Option Int :=
  if signed x ≥ signed 'A'.toUInt8 ∧ signed x ≤ signed 'F'.toUInt8 then
    some (signed x - signed 'A'.toUInt8 + 10)
  else if signed x ≥ signed 'a'.toUInt8 ∧ signed x ≤ signed 'f'.toUInt8 then
    some (signed x - signed 'a'.toUInt8 + 10)
  else if signed x ≥ signed '0'.toUInt8 ∧ signed x ≤ signed '9'.toUInt8 then
    some (signed x - signed '0'.toUInt8)
  else none

/-- The loop that decodes percent signs, up to `inlen`; it ends at a sign without two digits. -/
def decodeUrlLoop (inlen : Nat) : Nat → Block → Nat → Nat → Except Stop (Block × Nat)
  | 0, v, _, j => .ok (v, j)
  | bound + 1, v, i, j =>
    if i < inlen then do
      let c ← v.get i
      if c = '%'.toUInt8 then
        match urlDig (← v.get (i + 1)) with
        | none => return (v, j)
        | some h => do
          match urlDig (← v.get (i + 2)) with
          | none => return (v, j)
          | some l => do
            let v ← v.put j (byte (h * 16 + l))
            decodeUrlLoop inlen bound v (i + 3) (j + 1)
      else do
        let v ← v.put j (plusToSpace c)
        decodeUrlLoop inlen bound v (i + 1) (j + 1)
    else .ok (v, j)

/-- The loop of `vely_decode`. -/
def EncType.decodeLoop : EncType → Nat → Nat → Block → Nat → Nat → Except Stop (Block × Nat)
  | .web => decodeWebLoop
  | .url => decodeUrlLoop

/-- `vely_decode` of a string in memory, and the length of what is decoded; the whole string when
`inlen` is negative. -/
def velyDecode (t : EncType) (v : Block) (inlen : Int) : Except Stop (Block × Nat) := do
  let inlen ← if inlen < 0 then (·.length) <$> v.string 0 else .ok inlen.toNat
  let (v, j) ← t.decodeLoop inlen inlen v 0 0
  let v ← v.put j 0
  return (v, j)

/-! ### What is written -/

section Written

variable {t : EncType} {v : List UInt8}

/-- A string is encoded into the cells for it. -/
theorem encodeBaseLoop_cells {b : Block} {l xs r : List (Option UInt8)} {x : Option UInt8}
    (h : b.cells = l ++ xs ++ x :: r) (hlen : xs.length = (v.flatMap t.bytes).length) :
  encodeBaseLoop t b l.length v
    = .ok (⟨l ++ (v.flatMap t.bytes).map some ++ some 0 :: r⟩,
      l.length + (v.flatMap t.bytes).length)
  := by
  induction v generalizing b l xs with
  | nil =>
    obtain rfl : xs = [] := List.length_eq_zero_iff.mp hlen
    rw [List.append_nil] at h
    rw [encodeBaseLoop, Block.put_of_cells 0 h rfl]
    simp
  | cons c v ih =>
    rw [List.flatMap_cons, List.length_append] at hlen
    have hxs : xs = xs.take (t.bytes c).length ++ xs.drop (t.bytes c).length :=
      (List.take_append_drop _ xs).symm
    have hcells : b.cells = l ++ xs.take (t.bytes c).length
        ++ (xs.drop (t.bytes c).length ++ x :: r) := by
      rw [h, List.append_assoc, List.append_assoc, ← List.append_assoc (xs.take _), ← hxs]
    rw [encodeBaseLoop, Block.putAll_of_cells hcells rfl (by rw [List.length_take]; omega), ok_bind]
    have hlength : l.length + (t.bytes c).length = (l ++ (t.bytes c).map some).length := by simp
    rw [hlength, @ih _ (l ++ (t.bytes c).map some) (xs.drop (t.bytes c).length)
      (by simp) (by rw [List.length_drop]; omega)]
    simp [Nat.add_assoc]

/-- An encoding that does not fit is written outside of the memory. -/
theorem encodeBaseLoop_fault {b : Block} {j : Nat} (hj : j ≤ b.cells.length)
    (h : b.cells.length ≤ j + (v.flatMap t.bytes).length) :
  encodeBaseLoop t b j v = .error .fault
  := by
  induction v generalizing b j with
  | nil =>
    rw [List.flatMap_nil, List.length_nil, Nat.add_zero] at h
    rw [encodeBaseLoop, Block.put, if_neg (by omega)]
    rfl
  | cons c v ih =>
    rw [List.flatMap_cons, List.length_append] at h
    rw [encodeBaseLoop]
    rcases Nat.lt_or_ge b.cells.length (j + (t.bytes c).length) with hlt | hle
    · rw [Block.putAll_of_lt hlt hj]
      rfl
    · obtain ⟨b', hput, hlen⟩ := Block.putAll_of_le hle
      rw [hput, ok_bind]
      apply ih <;> omega

end Written

end Vely
