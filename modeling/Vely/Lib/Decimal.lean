import Vely.Lib.Ctype
import Mathlib.Data.Nat.Digits.Lemmas

/-!
# Decimal numerals

`decimal n` is the text of the number `n`, without leading zeros, and `decimalValue` the number a
text of digits stands for.
-/

namespace Vely

/-- The digit of a number below ten. -/
def digitChar (d : Nat) : UInt8 := UInt8.ofNat (48 + d)

/-- The text of a number. -/
def decimal (n : Nat) : List UInt8 :=
  if n = 0 then [digitChar 0] else (Nat.digits 10 n).reverse.map digitChar

/-- The number that digits stand for. -/
def decimalValue (ds : List UInt8) : Nat := ds.foldl (fun n d => 10 * n + (d.toNat - 48)) 0

theorem toNat_digitChar {d : Nat} (hd : d < 10) :
  (digitChar d).toNat = 48 + d
  := by
  rw [digitChar, UInt8.toNat_ofNat']
  omega

theorem isdigit_digitChar {d : Nat} (hd : d < 10) :
  isdigit (digitChar d) = true
  := by
  have hd' := toNat_digitChar hd
  simp only [isdigit, UInt8.le_iff_toNat_le, Bool.and_eq_true, decide_eq_true_eq, hd']
  constructor
  · simp
  · simp
    omega

theorem decimal_ne_nil (n : Nat) :
  decimal n ≠ []
  := by
  rw [decimal]
  split
  · simp
  · simpa [Nat.digits_ne_nil_iff_ne_zero]

/-- A number below `10 ^ k` has at most `k` digits. -/
theorem length_decimal_le {n k : Nat} (hk : 0 < k) (hn : n < 10 ^ k) :
  (decimal n).length ≤ k
  := by
  rw [decimal]
  split
  · apply hk
  · rw [List.length_map, List.length_reverse, Nat.digits_length_le_iff (by decide)]
    apply hn

/-- A numeral is made of digits. -/
theorem isdigit_of_mem_decimal {n : Nat} {c : UInt8} (hc : c ∈ decimal n) :
  isdigit c = true
  := by
  rw [decimal] at hc
  split at hc
  · rw [List.mem_singleton.mp hc]
    apply isdigit_digitChar (by omega)
  · obtain ⟨d, hd, rfl⟩ := List.mem_map.mp hc
    apply isdigit_digitChar
    apply Nat.digits_lt_base (by omega) (List.mem_reverse.mp hd)

theorem decimalValue_map_digitChar {ds : List Nat} (hds : ∀ d ∈ ds, d < 10) :
  decimalValue (ds.reverse.map digitChar) = Nat.ofDigits 10 ds
  := by
  induction ds with
  | nil => rfl
  | cons d ds ih =>
    have hd : (digitChar d).toNat - 48 = d := by
      rw [toNat_digitChar (hds d (by simp))]
      omega
    have ih' := ih (fun e he => hds e (by simp [he]))
    rw [decimalValue] at ih' ⊢
    rw [List.reverse_cons, List.map_append, List.foldl_append, ih', Nat.ofDigits_cons]
    simp only [List.map_cons, List.map_nil, List.foldl_cons, List.foldl_nil, hd]
    rw [Nat.add_comm]

/-- The number of a numeral. -/
@[simp]
theorem decimalValue_decimal (n : Nat) :
  decimalValue (decimal n) = n
  := by
  rw [decimal]
  split
  · next hn => rw [hn]; rfl
  · rw [decimalValue_map_digitChar (fun d hd => Nat.digits_lt_base (by omega) hd),
      Nat.ofDigits_digits]

/-- Different numbers have different numerals. -/
theorem decimal_injective :
  Function.Injective decimal
  := Function.LeftInverse.injective decimalValue_decimal

end Vely
