import Mathlib.Data.List.TakeWhile
import Vely.Lib.Memory

/-!
# Strings of C

A string is the bytes up to its terminator, none of which is zero.  Its block holds the
terminator too, and a comparison of raw memory may not reach beyond the block.
-/

namespace Vely

/-- The bytes of a string, up to its terminator. -/
structure CString where
  bytes : List UInt8
  nonzero : 0 ∉ bytes
  deriving DecidableEq

namespace CString

@[ext]
theorem ext {s t : CString} (h : s.bytes = t.bytes) :
  s = t
  := by
  cases s
  cases t
  congr

theorem zero_notMem_takeWhile (bs : List UInt8) :
  0 ∉ bs.takeWhile (· ≠ 0)
  := by
  intro h
  simpa using List.mem_takeWhile_imp h

/-- `strlen` -/
def length (s : CString) : Nat := s.bytes.length

/-- The bytes of the block of a string. -/
def block (s : CString) : List UInt8 := s.bytes ++ [0]

/-- The empty string. -/
def empty : CString := ⟨[], by simp⟩

/-- One string after the other. -/
def append (s t : CString) : CString :=
  ⟨s.bytes ++ t.bytes, by simp [s.nonzero, t.nonzero]⟩

/-- The strings of a list, one after the other. -/
def concat (ss : List CString) : CString := ss.foldr append empty

@[simp]
theorem concat_nil :
  (concat []).bytes = []
  := rfl

@[simp]
theorem concat_cons (s : CString) (ss : List CString) :
  (concat (s :: ss)).bytes = s.bytes ++ (concat ss).bytes
  := rfl

/-- Whether the `n` bytes from `s + at` on are those `t` starts with (`memcmp` gives 0). -/
def memcmp (s : CString) (offset : Nat) (t : CString) (n : Nat) : Except Stop Bool :=
  if offset + n ≤ s.block.length ∧ n ≤ t.block.length then
    .ok ((s.block.drop offset).take n = t.block.take n)
  else .error .fault

end CString

end Vely
