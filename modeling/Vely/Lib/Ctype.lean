import Mathlib.Algebra.GroupWithZero.Nat
import Mathlib.Algebra.Ring.Int.Defs
import Mathlib.Data.List.Basic
import Mathlib.Data.List.DropRight

/-!
# Characters and numbers of C

The classes of characters (`ctype.h`) in the C locale, the bytes of a text, and numbers of 32 bits.
-/

namespace Vely

/-- The bytes of a text of ASCII characters. -/
def ascii (s : String) : List UInt8 := s.toList.map Char.toUInt8

/-- A number as an `int`. -/
def int32 (x : Int) : Int := x.bmod (2 ^ 32)

/-- `isspace` -/
def isspace (c : UInt8) : Bool := c = 32 || (9 ≤ c && c ≤ 13)

/-- `isdigit` -/
def isdigit (c : UInt8) : Bool := 48 ≤ c && c ≤ 57

/-- `isalpha` -/
def isalpha (c : UInt8) : Bool := (65 ≤ c && c ≤ 90) || (97 ≤ c && c ≤ 122)

/-- `isalnum` -/
def isalnum (c : UInt8) : Bool := isalpha c || isdigit c

/-- `tolower` -/
def tolower (c : UInt8) : UInt8 := if 65 ≤ c && c ≤ 90 then c + 32 else c

theorem isspace_of_isdigit {c : UInt8} (h : isdigit c = true) :
  isspace c = false
  := by
  simp only [isdigit, isspace] at *
  grind

theorem isspace_of_isalnum {c : UInt8} (h : isalnum c = true) :
  isspace c = false
  := by
  simp only [isalnum, isalpha, isdigit, isspace] at *
  grind

/-- A number below `2 ^ 31` is an `int`. -/
theorem int32_of_lt {n : Nat} (h : n < 2 ^ 31) :
  int32 n = n
  := by
  apply Int.bmod_eq_of_le
  · omega
  · omega

theorem isspace_zero :
  isspace 0 = false
  := by decide

end Vely
