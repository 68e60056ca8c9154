import Vely.Lib.Ctype
import Mathlib.Data.Nat.Digits.Lemmas

/-!
# Numerals of the bases up to 36

`numeral b n` is the text of the number `n` in base `b`.  The text of a number that is negative has
a minus sign in front.  A text is the one of a number when it has no leading zeros.
-/

namespace Vely

namespace Radix

/-- The digits of the bases up to 36. -/
def digits : List UInt8 := ascii "0123456789abcdefghijklmnopqrstuvwxyz"

/-- The digit of a number below 36. -/
def digit (d : Nat) : UInt8 := digits.getD d 0

/-- The number of a digit. -/
def digitValue (c : UInt8) : Nat := digits.idxOf c

/-- The text of a number. -/
def numeral (b n : Nat) : List UInt8 :=
  if n = 0 then [digit 0] else (Nat.digits b n).reverse.map digit

/-- The number that digits stand for. -/
def value (b : Nat) (ds : List UInt8) : Nat := ds.foldl (fun n c => b * n + digitValue c) 0

/-- Digits of a base, without leading zeros. -/
structure IsNumeral (b : Nat) (ds : List UInt8) : Prop where
  ne_nil : ds ≠ []
  mem : ∀ c ∈ ds, c ∈ digits.take b
  leading : ds.head? = some (digit 0) → ds = [digit 0]

/-- A text of digits, or a minus sign and one that is not zero. -/
def IsIntNumeral (b : Nat) (s : List UInt8) : Prop :=
  IsNumeral b s ∨ ∃ ds, s = 45 :: ds ∧ IsNumeral b ds ∧ ds ≠ [digit 0]

/-- The number that a text stands for. -/
def intValue (b : Nat) : List UInt8 → Int
  | [] => 0
  | c :: ds => if c = 45 then -(value b ds : Int) else (value b (c :: ds) : Int)

/-! ### Digits -/

theorem digit_mem {b d : Nat} (hb : b ≤ 36) (hd : d < b) :
  digit d ∈ digits.take b
  := by
  have hlength : d < digits.length := lt_of_lt_of_le hd hb
  have hget : digit d = digits[d] := by
    rw [digit, List.getD_eq_getElem?_getD, List.getElem?_eq_getElem hlength, Option.getD_some]
  rw [hget, List.mem_take_iff_getElem]
  use d, by omega

theorem digitValue_digit {d : Nat} (hd : d < 36) :
  digitValue (digit d) = d
  := by
  have hall : ∀ d : Fin 36, digitValue (digit d) = d := by decide +kernel
  exact hall ⟨d, hd⟩

theorem digit_eq_zero {d : Nat} (hd : d < 36) :
  digit d = digit 0 ↔ d = 0
  := by
  constructor
  · intro h
    rw [← digitValue_digit hd, h]
    exact digitValue_digit (by omega)
  · rintro rfl
    rfl

/-! ### Numerals -/

theorem value_map_digit {b : Nat} {ds : List Nat} (hds : ∀ d ∈ ds, d < 36) :
  value b (ds.reverse.map digit) = Nat.ofDigits b ds
  := by
  induction ds with
  | nil => rfl
  | cons d ds ih =>
    have hrest := ih fun e he => hds e (List.mem_cons_of_mem d he)
    rw [value] at hrest ⊢
    have hd := digitValue_digit (hds d List.mem_cons_self)
    rw [List.reverse_cons, List.map_append, List.foldl_append, hrest, Nat.ofDigits_cons,
      List.map_singleton, List.foldl_cons, List.foldl_nil, hd]
    exact Nat.add_comm _ _

variable {b n : Nat}

theorem digits_lt (hb : 2 ≤ b) (hle : b ≤ 36) {d : Nat} (hd : d ∈ Nat.digits b n) :
  d < 36
  := lt_of_lt_of_le (Nat.digits_lt_base hb hd) hle

/-- The text of a number stands for it. -/
theorem value_numeral (hb : 2 ≤ b) (hle : b ≤ 36) :
  value b (numeral b n) = n
  := by
  rw [numeral]
  split
  · next h =>
    rw [h]
    simp [value, digitValue_digit]
  · rw [value_map_digit fun d hd => digits_lt hb hle hd, Nat.ofDigits_digits]

/-- The first digit of a number that is not zero. -/
theorem head_digits (hb : 2 ≤ b) (hn : n ≠ 0) :
  ∃ d ds, (Nat.digits b n).reverse = d :: ds ∧ d ≠ 0 ∧ d < b
  := by
  have hnil : Nat.digits b n ≠ [] := Nat.digits_ne_nil_iff_ne_zero.mpr hn
  use (Nat.digits b n).getLast hnil, (Nat.digits b n).dropLast.reverse
  refine ⟨?_, Nat.getLast_digit_ne_zero b hn, ?_⟩
  · rw [← List.reverse_concat, List.dropLast_concat_getLast]
  · exact Nat.digits_lt_base hb (List.getLast_mem hnil)

/-- The text of a number has no leading zeros. -/
theorem isNumeral_numeral (hb : 2 ≤ b) (hle : b ≤ 36) :
  IsNumeral b (numeral b n)
  := by
  by_cases hn : n = 0
  · rw [numeral, if_pos hn]
    constructor
    · exact List.cons_ne_nil _ _
    · intro c hc
      rw [List.mem_singleton.mp hc]
      exact digit_mem hle (by omega)
    · intro _
      rfl
  · rw [numeral, if_neg hn]
    obtain ⟨d, ds, hdigits, hd, hlt⟩ := head_digits hb hn
    constructor
    · rw [hdigits]
      exact List.cons_ne_nil _ _
    · intro c hc
      obtain ⟨e, he, rfl⟩ := List.mem_map.mp hc
      exact digit_mem hle (Nat.digits_lt_base hb (List.mem_reverse.mp he))
    · intro hhead
      rw [hdigits, List.map_cons, List.head?_cons, Option.some_inj,
        digit_eq_zero (by omega)] at hhead
      exact absurd hhead hd

theorem numeral_ne_zero (hb : 2 ≤ b) (hle : b ≤ 36) (hn : n ≠ 0) :
  numeral b n ≠ [digit 0]
  := by
  intro h
  have hvalue : value b (numeral b n) = n := value_numeral hb hle
  rw [h] at hvalue
  apply hn
  rw [← hvalue]
  simp [value, digitValue_digit]

/-- The text of a number starts with a digit. -/
theorem intValue_numeral (hb : 2 ≤ b) (hle : b ≤ 36) :
  intValue b (numeral b n) = n
  := by
  have hvalue : value b (numeral b n) = n := value_numeral hb hle
  have hmem := (isNumeral_numeral (n := n) hb hle).mem
  cases h : numeral b n with
  | nil => exact absurd h (isNumeral_numeral hb hle).ne_nil
  | cons c ds =>
    have hc : c ≠ 45 := by
      rintro rfl
      rw [h] at hmem
      have hdigits := List.mem_of_mem_take (hmem 45 List.mem_cons_self)
      revert hdigits
      decide +kernel
    rw [intValue, if_neg hc, ← h, hvalue]

/-- Digits, without the sign. -/
theorem numeral_of_ne_zero (hn : n ≠ 0) :
  numeral b n = (Nat.digits b n).reverse.map digit
  := if_neg hn

theorem length_numeral (hn : n ≠ 0) :
  (numeral b n).length = (Nat.digits b n).length
  := by
  rw [numeral_of_ne_zero hn, List.length_map, List.length_reverse]

end Radix

end Vely
