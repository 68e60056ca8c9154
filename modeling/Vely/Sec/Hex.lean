import Vely.Encode.Model
import Vely.Input.Build
import Vely.Input.Bounds
import Vely.Input.RoundTrip

/-!
# Hexadecimal text (`vely_bin2hex`, `vely_hex2bin`)

Bytes are written as two digits each, and read back.  The digits are written by a macro that
is given the byte as an unsigned number of 32 bits: a `char` is extended with its sign, an
`unsigned char` with zeros.  They are read by a parser that ends at a byte that is no digit,
or by a macro that does not check (`vely_decrypt`).
-/

namespace Vely

/-! ### The macros -/

/-- `(unsigned int)c` of a `char`. -/
def charToUnsigned (c : UInt8) : BitVec 32 := c.toBitVec.signExtend 32

/-- `(unsigned int)c` of an `unsigned char`. -/
def ucharToUnsigned (c : UInt8) : BitVec 32 := c.toBitVec.zeroExtend 32

/-- `VV_TO_HEX` -/
def vvToHex (x : BitVec 32) : UInt8 :=
  if x ≤ 9 then byte (48 + x.toNat) else byte (97 - 10 + x.toNat)

/-- The digits that `VV_HEX_FROM_BYTE` writes. -/
def hexPair (x : BitVec 32) : List UInt8 :=
  [vvToHex ((x &&& 0xF0) >>> 4), vvToHex (x &&& 0x0F)]

/-- `VV_HEX_FROM_BYTE` -/
def vvHexFromByte (p : Block) (i : Nat) (x : BitVec 32) : Except Stop Block :=
  p.putAll i (hexPair x)

/-- `VV_CHAR_FROM_HEX` of a number. -/
def vvCharFromHex (x : Int) : Int :=
  if x > 57 then if x ≥ 97 then x - 97 + 10 else x - 65 + 10 else x - 48

/-! ### The converters -/

/-- The loop that writes bytes in hexadecimal, from `i` to `i + n`. -/
def hexLoop (toUnsigned : UInt8 → BitVec 32) (src : Block) :
    Nat → Nat → Block → Nat → Except Stop (Block × Nat)
  | 0, _, dst, j => .ok (dst, j)
  | n + 1, i, dst, j => do
    let c ← src.get i
    let dst ← vvHexFromByte dst j (toUnsigned c)
    hexLoop toUnsigned src n (i + 1) dst (j + 2)

/-- A length that is given, or that of the string when it is -1. -/
def givenLength (src : Block) (ilen : Int) : Except Stop Int :=
  if ilen = -1 then do return ((← src.string 0).length : Int) else .ok ilen

/-- `vely_bin2hex`: the text, and its length. -/
def velyBin2hex (src : Block) (ilen : Int) (pref : Option CString) :
    Except Stop (Block × Nat) := do
  let ilen ← givenLength src ilen
  let pref := match pref with
    | some p => p.bytes
    | none => []
  let l : Nat := pref.length
  let dst ← velyMalloc (l + ilen * 2 + 1)
  let dst ← dst.putAll 0 pref
  let (dst, j) ← hexLoop charToUnsigned src ilen.toNat 0 dst l
  let dst ← dst.put j 0
  return (dst, j)

/-- The loop of `vely_hex2bin`; it ends at a byte that is no digit. -/
def hex2binLoop (src : Block) (ilen : Int) : Nat → Nat → Block → Nat → Except Stop (Block × Nat)
  | 0, _, dst, j => .ok (dst, j)
  | bound + 1, i, dst, j =>
    if (i : Int) < ilen then do
      match urlDig (← src.get i) with
      | none => return (dst, j)
      | some h => do
        match urlDig (← src.get (i + 1)) with
        | none => return (dst, j)
        | some l => do
          let dst ← dst.put j (byte (h * 16 + l))
          hex2binLoop src ilen bound (i + 2) dst (j + 1)
    else .ok (dst, j)

/-- `vely_hex2bin`: the bytes, and how many they are. -/
def velyHex2bin (src : Block) (ilen : Int) : Except Stop (Block × Nat) := do
  let ilen ← givenLength src ilen
  let dst ← velyMalloc (ilen.tdiv 2 + 2)
  let (dst, j) ← hex2binLoop src ilen ilen.toNat 0 dst 0
  let dst ← dst.put j 0
  return (dst, j)

/-! ### The digits of a byte -/

/-- The digits of a byte. -/
def hexDigits (c : UInt8) : List UInt8 :=
  [hexDigit false (c.toNat / 16), hexDigit false (c.toNat % 16)]

/-- The text of bytes. -/
def hexText (b : List UInt8) : List UInt8 := b.flatMap hexDigits

/-- The extension of a byte does not matter: its own bits are used. -/
theorem hexPair_char (c : UInt8) :
  hexPair (charToUnsigned c) = hexDigits c
  := by
  have h : ∀ n : Fin 256, hexPair (charToUnsigned (UInt8.ofFin n)) = hexDigits (UInt8.ofFin n) := by
    decide +kernel
  exact h c.toFin

theorem hexPair_uchar (c : UInt8) :
  hexPair (ucharToUnsigned c) = hexDigits c
  := by
  have h : ∀ n : Fin 256, hexPair (ucharToUnsigned (UInt8.ofFin n)) = hexDigits (UInt8.ofFin n) := by
    decide +kernel
  exact h c.toFin

theorem urlDig_hexDigit {d : Nat} (hd : d < 16) :
  urlDig (hexDigit false d) = some (d : Int)
  := by
  have h : ∀ d : Fin 16, urlDig (hexDigit false d) = some ((d : Nat) : Int) := by decide
  exact h ⟨d, hd⟩

theorem vvCharFromHex_hexDigit {d : Nat} (hd : d < 16) :
  vvCharFromHex (hexDigit false d).toNat = d
  := by
  have h : ∀ d : Fin 16, vvCharFromHex (hexDigit false d).toNat = (d : Nat) := by decide
  exact h ⟨d, hd⟩

theorem hexDigit_ne_zero {d : Nat} (hd : d < 16) :
  hexDigit false d ≠ 0
  := by
  have h : ∀ d : Fin 16, hexDigit false d ≠ 0 := by decide
  exact h ⟨d, hd⟩

@[simp]
theorem hexText_cons (c : UInt8) (b : List UInt8) :
  hexText (c :: b) = hexDigit false (c.toNat / 16) :: hexDigit false (c.toNat % 16) :: hexText b
  := rfl

@[simp]
theorem length_hexText (b : List UInt8) :
  (hexText b).length = 2 * b.length
  := by
  induction b with
  | nil => rfl
  | cons c b ih =>
    simp only [hexText_cons, List.length_cons, ih]
    omega

theorem zero_notMem_hexText (b : List UInt8) :
  0 ∉ hexText b
  := by
  induction b with
  | nil => simp [hexText]
  | cons c b ih =>
    have hc := c.toNat_lt
    have hhigh := hexDigit_ne_zero (d := c.toNat / 16) (by omega)
    have hlow := hexDigit_ne_zero (d := c.toNat % 16) (by omega)
    simp [ih, Ne.symm hhigh, Ne.symm hlow]

/-! ### What the converters write -/

/-- The loop writes the text of the bytes, whichever way they are extended. -/
theorem hexLoop_cells {toUnsigned : UInt8 → BitVec 32}
    (hpair : ∀ c, hexPair (toUnsigned c) = hexDigits c) {src dst : Block}
    {l r l' xs r' : List (Option UInt8)} {b : List UInt8} {i j : Nat}
    (hsrc : src.cells = l ++ b.map some ++ r) (hi : i = l.length)
    (hdst : dst.cells = l' ++ xs ++ r') (hj : j = l'.length) (hxs : xs.length = 2 * b.length) :
  hexLoop toUnsigned src b.length i dst j
    = .ok (⟨l' ++ (hexText b).map some ++ r'⟩, j + 2 * b.length)
  := by
  induction b generalizing l l' xs dst i j with
  | nil =>
    obtain rfl : xs = [] := List.length_eq_zero_iff.mp hxs
    rw [List.append_nil] at hdst
    simp [hexLoop, hexText, ← hdst]
  | cons c b ih =>
    obtain ⟨x, y, xs, rfl⟩ : ∃ x y ys, xs = x :: y :: ys := by
      match xs, hxs with
      | [], h => simp at h
      | [_], h =>
        simp only [List.length_cons, List.length_nil] at h
        omega
      | x :: y :: ys, _ => exact ⟨x, y, ys, rfl⟩
    have hput := @Block.putAll_of_cells dst l' [x, y] (xs ++ r') (hexDigits c) j
      (by simp [hdst]) hj rfl
    have hget : src.get i = .ok c :=
      Block.get_of_cells (l := l) (r := b.map some ++ r) (by simp [hsrc]) hi
    rw [List.length_cons, hexLoop, hget, ok_bind, vvHexFromByte, hpair, hput, ok_bind,
      @ih _ (l ++ [some c]) (l' ++ (hexDigits c).map some) xs _ _
        (by simp [hsrc]) (by simp [hi]) (by simp) (by simp [hj, hexDigits])
        (by simp only [List.length_cons] at hxs; omega)]
    simp [hexDigits]
    omega

/-- The digits are read back to the bytes. -/
theorem hex2binLoop_cells {src dst : Block} {l r l' xs r' : List (Option UInt8)} {b : List UInt8}
    {ilen : Int} {bound i j : Nat} (hsrc : src.cells = l ++ (hexText b).map some ++ r)
    (hi : i = l.length) (hilen : ilen = i + 2 * b.length) (hbound : b.length ≤ bound)
    (hdst : dst.cells = l' ++ xs ++ r') (hj : j = l'.length) (hxs : xs.length = b.length) :
  hex2binLoop src ilen bound i dst j = .ok (⟨l' ++ b.map some ++ r'⟩, j + b.length)
  := by
  induction b generalizing l l' xs dst i j bound with
  | nil =>
    obtain rfl : xs = [] := List.length_eq_zero_iff.mp hxs
    rw [List.append_nil] at hdst
    have hstop : ¬ (i : Int) < ilen := by
      simp only [List.length_nil] at hilen
      omega
    cases bound with
    | zero => simp [hex2binLoop, ← hdst]
    | succ bound =>
      rw [hex2binLoop, if_neg hstop]
      simp [← hdst]
  | cons c b ih =>
    have hc := c.toNat_lt
    obtain ⟨x, xs, rfl⟩ := List.exists_cons_of_length_eq_add_one hxs
    cases bound with
    | zero => simp at hbound
    | succ bound =>
      simp only [List.length_cons] at hilen hbound hxs
      have hhigh : src.get i = .ok (hexDigit false (c.toNat / 16)) :=
        Block.get_of_cells (l := l)
          (r := some (hexDigit false (c.toNat % 16)) :: ((hexText b).map some ++ r))
          (by simp [hsrc]) hi
      have hlow : src.get (i + 1) = .ok (hexDigit false (c.toNat % 16)) :=
        Block.get_of_cells (l := l ++ [some (hexDigit false (c.toNat / 16))])
          (r := (hexText b).map some ++ r) (by simp [hsrc]) (by simp [hi])
      have hput : dst.put j c = .ok ⟨l' ++ some c :: (xs ++ r')⟩ :=
        Block.put_of_cells (x := x) c (by simp [hdst]) hj
      have hrest := @ih ⟨l' ++ some c :: (xs ++ r')⟩ (l ++ [some (hexDigit false (c.toNat / 16)),
          some (hexDigit false (c.toNat % 16))]) (l' ++ [some c]) xs bound (i + 2) (j + 1)
        (by simp [hsrc]) (by simp [hi]) (by push_cast; omega) (by omega) (by simp) (by simp [hj])
        (by omega)
      rw [hex2binLoop, if_pos (by omega), hhigh, ok_bind, urlDig_hexDigit (by omega)]
      simp only
      rw [hlow, ok_bind, urlDig_hexDigit (by omega)]
      simp only
      rw [byte_halves, hput, ok_bind, hrest]
      simp
      omega

/-! ### The round trip -/

theorem velyMalloc_natCast {size : Int} {n : Nat} (h : size = n) :
  velyMalloc size = .ok (Block.alloc n)
  := by
  rw [velyMalloc, if_neg]
  · congr
    omega
  · rw [alignment]
    omega

/-- Bytes are written as their text, which fills the memory that is allocated for it. -/
theorem velyBin2hex_cells {src : Block} {b : List UInt8} {r : List (Option UInt8)}
    (hsrc : src.cells = b.map some ++ r) :
  velyBin2hex src b.length none = .ok (⟨(hexText b).map some ++ [some 0]⟩, 2 * b.length)
  := by
  have hlength : givenLength src b.length = .ok (b.length : Int) := if_neg (by omega)
  have hmalloc : velyMalloc (((0 : Nat) : Int) + (b.length : Int) * 2 + 1)
      = .ok (Block.alloc (2 * b.length + 1)) := velyMalloc_natCast (by push_cast; omega)
  have hloop := @hexLoop_cells _ hexPair_char src (Block.alloc (2 * b.length + 1)) [] r []
    (List.replicate (2 * b.length) none) [none] b 0 0 hsrc rfl
    (by rw [Block.alloc, List.replicate_succ']; rfl) rfl (by simp)
  simp only [velyBin2hex, hlength, ok_bind, List.length_nil, hmalloc, Block.putAll]
  simp only [Int.toNat_natCast, hloop, ok_bind, List.nil_append, Nat.zero_add]
  rw [Block.put_of_cells (l := (hexText b).map some) (x := none) (r := []) 0 rfl (by simp)]
  rfl

/-- The length of a text with a terminator, given or found. -/
theorem givenLength_text {src : Block} {text : List UInt8} {ilen : Int} {r : List (Option UInt8)}
    (hsrc : src.cells = text.map some ++ some 0 :: r)
    (hilen : ilen = text.length ∨ ilen = -1 ∧ 0 ∉ text) :
  givenLength src ilen = .ok (text.length : Int)
  := by
  rcases hilen with rfl | ⟨rfl, hzero⟩
  · exact if_neg (by omega)
  · have hstring := @Block.string_of_cells src [] r ⟨text, hzero⟩ 0 hsrc rfl
    rw [givenLength, if_pos rfl, hstring]
    rfl

/-- The text of bytes is read back to them, when its length is given and when it is found. -/
theorem velyHex2bin_cells {src : Block} {b : List UInt8} {ilen : Int} {r : List (Option UInt8)}
    (hsrc : src.cells = (hexText b).map some ++ some 0 :: r)
    (hilen : ilen = 2 * b.length ∨ ilen = -1) :
  velyHex2bin src ilen = .ok (⟨b.map some ++ [some 0, none]⟩, b.length)
  := by
  have hlength : givenLength src ilen = .ok (2 * b.length : Int) := by
    rw [givenLength_text hsrc (by simpa [zero_notMem_hexText] using hilen), length_hexText]
    rfl
  have hmalloc : velyMalloc ((2 * b.length : Int).tdiv 2 + 2)
      = .ok (Block.alloc (b.length + 2)) := by
    rw [Int.mul_tdiv_cancel_left _ (by decide)]
    exact velyMalloc_natCast (by push_cast; rfl)
  have hloop := @hex2binLoop_cells src (Block.alloc (b.length + 2)) [] (some 0 :: r) []
    (List.replicate b.length none) [none, none] b (2 * b.length) (2 * b.length : Int).toNat 0 0
    hsrc rfl (by simp) (by omega)
    (by rw [Block.alloc, List.replicate_add]; rfl) rfl (by simp)
  simp only [velyHex2bin, hlength, ok_bind, hmalloc, hloop, List.nil_append, Nat.zero_add]
  rw [Block.put_of_cells (l := b.map some) (x := none) (r := [none]) 0 rfl (by simp)]
  rfl

end Vely
