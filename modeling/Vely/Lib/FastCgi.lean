import Mathlib.Algebra.Order.Group.Nat
import Mathlib.Tactic.IntervalCases
import Vely.Lib.PrefixCode

/-!
# FastCGI

A record is a header of eight bytes, with the lengths of the content and of the padding, and then
these. A parameter is a name and a value, after their lengths: one byte for a length under 128, four
for others, the first of which has its high bit set.
-/

namespace FastCgi

/-- A record of protocol version 1. -/
structure Record where
  kind : UInt8
  id : Nat
  content : List UInt8
  padding : List UInt8
  reserved : UInt8
  id_lt : id < 65536
  content_lt : content.length < 65536
  padding_lt : padding.length < 256
  deriving DecidableEq

/-- A number of 16 bits. -/
def word (n : Nat) : List UInt8 := [UInt8.ofNat (n / 256), UInt8.ofNat n]

/-- The number of two bytes. -/
def ofWord (high low : UInt8) : Nat := low.toNat + 256 * high.toNat

theorem ofWord_lt (high low : UInt8) :
  ofWord high low < 65536
  := by
  have h₁ := high.toNat_lt
  have h₂ := low.toNat_lt
  unfold ofWord
  omega

theorem ofWord_word {n : Nat} (h : n < 65536) :
  ofWord (UInt8.ofNat (n / 256)) (UInt8.ofNat n) = n
  := by
  unfold ofWord
  rw [UInt8.toNat_ofNat', UInt8.toNat_ofNat']
  omega

namespace Record

/-- The header of a record. -/
def header (r : Record) : List UInt8 :=
  [1, r.kind] ++ word r.id ++ word r.content.length ++ [UInt8.ofNat r.padding.length, r.reserved]

/-- The bytes of a record. -/
def encode (r : Record) : List UInt8 := r.header ++ (r.content ++ r.padding)

/-- A record from the front of a list of bytes. -/
def decode : List UInt8 → Option (Record × List UInt8)
  | version :: kind :: id₁ :: id₀ :: length₁ :: length₀ :: padLength :: reserved :: s =>
    let n := ofWord length₁ length₀
    let m := padLength.toNat
    if version = 1 ∧ n + m ≤ s.length then
      some
        (⟨kind, ofWord id₁ id₀, s.take n, (s.drop n).take m, reserved, ofWord_lt _ _,
          (List.length_take_le n s).trans_lt (ofWord_lt _ _),
          (List.length_take_le m _).trans_lt padLength.toNat_lt⟩,
        s.drop (n + m))
    else none
  | _ => none

theorem decode_encode (r : Record) (s : List UInt8) :
  decode (r.encode ++ s) = some (r, s)
  := by
  have hn := ofWord_word r.content_lt
  have hm : (UInt8.ofNat r.padding.length).toNat = r.padding.length := by
    rw [UInt8.toNat_ofNat']
    exact Nat.mod_eq_of_lt r.padding_lt
  have hshape : r.encode ++ s = 1 :: r.kind :: UInt8.ofNat (r.id / 256) :: UInt8.ofNat r.id
      :: UInt8.ofNat (r.content.length / 256) :: UInt8.ofNat r.content.length
      :: UInt8.ofNat r.padding.length :: r.reserved :: (r.content ++ (r.padding ++ s)) := by
    simp [encode, header, word]
  have hlength : r.content.length + r.padding.length ≤ (r.content ++ (r.padding ++ s)).length := by
    simp only [List.length_append]
    omega
  have hdrop : (r.content ++ (r.padding ++ s)).drop (r.content.length + r.padding.length) = s := by
    rw [List.drop_length_add_append, List.drop_left]
  rw [hshape]
  simp only [decode, hn, hm]
  rw [if_pos ⟨trivial, hlength⟩]
  simp only [List.take_left, List.drop_left, ofWord_word r.id_lt, hdrop]

/-- Records are read from the front. -/
def code : PrefixCode Record UInt8 := ⟨encode, decode, decode_encode, rfl⟩

end Record

/-- A parameter: a name and a value. -/
structure Param where
  name : List UInt8
  value : List UInt8
  name_lt : name.length < 2 ^ 31
  value_lt : value.length < 2 ^ 31
  deriving DecidableEq

/-- A length, in one byte or in four. -/
def lengthBytes (n : Nat) : List UInt8 :=
  if n < 128 then [UInt8.ofNat n]
  else [UInt8.ofNat (128 + n / 2 ^ 24), UInt8.ofNat (n / 2 ^ 16), UInt8.ofNat (n / 2 ^ 8), UInt8.ofNat n]

/-- The rest of a length of four bytes. -/
def readLong (b : UInt8) : List UInt8 → Option (Nat × List UInt8)
  | b₂ :: b₁ :: b₀ :: s =>
    some ((b.toNat - 128) * 2 ^ 24 + b₂.toNat * 2 ^ 16 + b₁.toNat * 2 ^ 8 + b₀.toNat, s)
  | _ => none

/-- A length from the front of a list of bytes. -/
def readLength : List UInt8 → Option (Nat × List UInt8)
  | b :: s => if b.toNat < 128 then some (b.toNat, s) else readLong b s
  | [] => none

theorem readLength_lengthBytes {n : Nat} (h : n < 2 ^ 31) (s : List UInt8) :
  readLength (lengthBytes n ++ s) = some (n, s)
  := by
  unfold lengthBytes
  split
  · next hlt =>
    have hn : (UInt8.ofNat n).toNat = n := by
      rw [UInt8.toNat_ofNat']
      omega
    rw [List.singleton_append, readLength, hn, if_pos hlt]
  · next hlt =>
    have hhigh : (UInt8.ofNat (128 + n / 2 ^ 24)).toNat = 128 + n / 2 ^ 24 := by
      rw [UInt8.toNat_ofNat']
      omega
    simp only [List.cons_append, List.nil_append, readLength, readLong, hhigh]
    rw [if_neg (by omega)]
    simp only [UInt8.toNat_ofNat', Option.some.injEq, Prod.mk.injEq, and_true]
    omega

theorem readLength_lt {s r : List UInt8} {n : Nat} (h : readLength s = some (n, r)) :
  n < 2 ^ 31
  := by
  unfold readLength at h
  split at h
  · next b s =>
    have hb := b.toNat_lt
    split at h
    · cases h
      omega
    · unfold readLong at h
      split at h
      · next b₂ b₁ b₀ s =>
        have h₂ := b₂.toNat_lt
        have h₁ := b₁.toNat_lt
        have h₀ := b₀.toNat_lt
        cases h
        omega
      · cases h
  · cases h

namespace Param

/-- The bytes of a parameter. -/
def encode (p : Param) : List UInt8 :=
  lengthBytes p.name.length ++ (lengthBytes p.value.length ++ (p.name ++ p.value))

/-- A parameter from the front of a list of bytes. -/
def decode (s : List UInt8) : Option (Param × List UInt8) :=
  match hname : readLength s with
  | none => none
  | some (n, s₁) =>
    match hvalue : readLength s₁ with
    | none => none
    | some (m, s₂) =>
      if n + m ≤ s₂.length then
        some
          (⟨s₂.take n, (s₂.drop n).take m, (List.length_take_le n s₂).trans_lt (readLength_lt hname),
            (List.length_take_le m _).trans_lt (readLength_lt hvalue)⟩,
          s₂.drop (n + m))
      else none

theorem decode_encode (p : Param) (s : List UInt8) :
  decode (p.encode ++ s) = some (p, s)
  := by
  have hname : readLength (p.encode ++ s) =
      some (p.name.length, lengthBytes p.value.length ++ (p.name ++ (p.value ++ s))) := by
    rw [encode, List.append_assoc, List.append_assoc, List.append_assoc]
    exact readLength_lengthBytes p.name_lt _
  have hvalue := readLength_lengthBytes p.value_lt (p.name ++ (p.value ++ s))
  have hlength : p.name.length + p.value.length ≤ (p.name ++ (p.value ++ s)).length := by
    simp only [List.length_append]
    omega
  have hdrop : (p.name ++ (p.value ++ s)).drop (p.name.length + p.value.length) = s := by
    rw [List.drop_length_add_append, List.drop_left]
  unfold decode
  split
  · next h => simp [hname] at h
  · next n s₁ h =>
    rw [hname] at h
    cases h
    split
    · next h => simp [hvalue] at h
    · next m s₂ h =>
      rw [hvalue] at h
      cases h
      rw [if_pos hlength]
      simp only [List.take_left, List.drop_left, hdrop]

/-- Parameters are read from the front. -/
def code : PrefixCode Param UInt8 := ⟨encode, decode, decode_encode, rfl⟩

end Param

end FastCgi
