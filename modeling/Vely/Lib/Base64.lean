import Vely.Lib.Ctype

/-!
# Base64

Three bytes are written as four characters of six bits each; one or two bytes left over are
written as if zeros followed, with an equal sign for each character that only has these.
Reading takes equal signs for zeros, so that it gives three bytes for every four characters.
-/

namespace Vely

namespace Base64

/-- The characters, by their bits. -/
def alphabet : List UInt8 :=
  ascii "ABCDEFGHIJKLMNOPQRSTUVWXYZabcdefghijklmnopqrstuvwxyz0123456789+/"

/-- The equal sign. -/
def padding : UInt8 := 61

/-- The character of the lowest six bits of a number. -/
def char (n : Nat) : UInt8 := alphabet.getD (n % 64) 0

/-- The bits of a character. -/
def bits (c : UInt8) : Nat := if c = padding then 0 else alphabet.idxOf c

/-- The number of three bytes. -/
def group (a b c : UInt8) : Nat := a.toNat * 65536 + b.toNat * 256 + c.toNat

/-- The text of bytes. -/
def encode : List UInt8 → List UInt8
  | a :: b :: c :: r =>
    char (group a b c / 262144) :: char (group a b c / 4096) :: char (group a b c / 64)
      :: char (group a b c) :: encode r
  | [a, b] =>
    [char (group a b 0 / 262144), char (group a b 0 / 4096), char (group a b 0 / 64), padding]
  | [a] => [char (group a 0 0 / 262144), char (group a 0 0 / 4096), padding, padding]
  | [] => []

/-- The bytes of a text. -/
def decode : List UInt8 → List UInt8
  | a :: b :: c :: d :: r =>
    let n := bits a * 262144 + bits b * 4096 + bits c * 64 + bits d
    UInt8.ofNat (n / 65536) :: UInt8.ofNat (n / 256) :: UInt8.ofNat n :: decode r
  | _ => []

/-- A text of groups of four characters, the last one with up to two equal signs. -/
inductive Valid : List UInt8 → Prop where
  | nil : Valid []
  | whole {a b c d : UInt8} {r : List UInt8} (h : ∀ x ∈ [a, b, c, d], x ∈ alphabet)
      (hr : Valid r) : Valid (a :: b :: c :: d :: r)
  | one {a b c : UInt8} (h : ∀ x ∈ [a, b, c], x ∈ alphabet) : Valid [a, b, c, padding]
  | two {a b : UInt8} (h : ∀ x ∈ [a, b], x ∈ alphabet) : Valid [a, b, padding, padding]

/-- The zeros that are read after `n` bytes. -/
def padLength (n : Nat) : Nat := (3 - n % 3) % 3

theorem char_mem (n : Nat) :
  char n ∈ alphabet
  := by
  have h : ∀ k : Fin 64, alphabet.getD k 0 ∈ alphabet := by decide +kernel
  exact h ⟨n % 64, Nat.mod_lt _ (by decide)⟩

theorem bits_char (n : Nat) :
  bits (char n) = n % 64
  := by
  have h : ∀ k : Fin 64, bits (alphabet.getD k 0) = k := by decide +kernel
  exact h ⟨n % 64, Nat.mod_lt _ (by decide)⟩

theorem bits_padding :
  bits padding = 0
  := rfl

theorem char_ne_padding (n : Nat) :
  char n ≠ padding
  := by
  have h : padding ∉ alphabet := by decide +kernel
  intro hc
  exact h (hc ▸ char_mem n)

/-- The bits of a number of three bytes make it. -/
theorem bits_sum {n : Nat} (h : n < 16777216) :
  n / 262144 % 64 * 262144 + n / 4096 % 64 * 4096 + n / 64 % 64 * 64 + n % 64 = n
  := by
  omega

theorem group_lt (a b c : UInt8) :
  group a b c < 16777216
  := by
  have ha := a.toNat_lt
  have hb := b.toNat_lt
  have hc := c.toNat_lt
  rw [group]
  omega

/-- The bytes of their number. -/
theorem bytes_group (a b c : UInt8) :
  UInt8.ofNat (group a b c / 65536) = a ∧ UInt8.ofNat (group a b c / 256) = b
    ∧ UInt8.ofNat (group a b c) = c
  := by
  have ha := a.toNat_lt
  have hb := b.toNat_lt
  have hc := c.toNat_lt
  refine ⟨?_, ?_, ?_⟩
  · apply UInt8.toNat_inj.mp
    rw [UInt8.toNat_ofNat', group]
    omega
  · apply UInt8.toNat_inj.mp
    rw [UInt8.toNat_ofNat', group]
    omega
  · apply UInt8.toNat_inj.mp
    rw [UInt8.toNat_ofNat', group]
    omega

theorem valid_encode (b : List UInt8) :
  Valid (encode b)
  := by
  induction b using encode.induct with
  | case1 a b c r ih => exact .whole (by simp [char_mem]) ih
  | case2 a b => exact .one (by simp [char_mem])
  | case3 a => exact .two (by simp [char_mem])
  | case4 => exact .nil

theorem length_encode (b : List UInt8) :
  (encode b).length = 4 * ((b.length + 2) / 3)
  := by
  induction b using encode.induct with
  | case1 a b c r ih =>
    simp only [encode, List.length_cons, ih]
    omega
  | case2 a b => simp [encode]
  | case3 a => simp [encode]
  | case4 => rfl

theorem length_decode (t : List UInt8) :
  (decode t).length = 3 * (t.length / 4)
  := by
  induction t using decode.induct with
  | case1 a b c d r ih =>
    simp only [decode, List.length_cons, ih]
    omega
  | case2 t h =>
    have hshort : t.length < 4 := by
      by_contra hle
      match t with
      | [] | [_] | [_, _] | [_, _, _] => simp at hle
      | a :: b :: c :: d :: r => exact h a b c d r rfl
    rw [decode, Nat.div_eq_of_lt hshort]
    · rfl
    · exact h

/-- A valid text has groups of four characters, of the alphabet or equal signs. -/
theorem Valid.mem {t : List UInt8} (h : Valid t) :
  t.length % 4 = 0 ∧ ∀ c ∈ t, c ∈ alphabet ∨ c = padding
  := by
  induction h with
  | nil => simp
  | whole hmem _ ih =>
    refine ⟨by simp only [List.length_cons]; omega, ?_⟩
    simp only [List.forall_mem_cons] at hmem ⊢
    exact ⟨.inl hmem.1, .inl hmem.2.1, .inl hmem.2.2.1, .inl hmem.2.2.2.1, ih.2⟩
  | one hmem =>
    refine ⟨by simp, ?_⟩
    simp only [List.forall_mem_cons] at hmem ⊢
    exact ⟨.inl hmem.1, .inl hmem.2.1, .inl hmem.2.2.1, by simp⟩
  | two hmem =>
    refine ⟨by simp, ?_⟩
    simp only [List.forall_mem_cons] at hmem ⊢
    exact ⟨.inl hmem.1, .inl hmem.2.1, by simp⟩

/-- A text is read to the bytes it was made of, and to zeros up to the third byte. -/
theorem decode_encode (b : List UInt8) :
  decode (encode b) = b ++ List.replicate (padLength b.length) 0
  := by
  induction b using encode.induct with
  | case1 a b c r ih =>
    obtain ⟨ha, hb, hc⟩ := bytes_group a b c
    have hpad : padLength (a :: b :: c :: r).length = padLength r.length := by
      simp only [padLength, List.length_cons]
      omega
    simp only [encode, decode, bits_char, bits_sum (group_lt a b c), ha, hb, hc, ih, hpad,
      List.cons_append]
  | case2 a b =>
    obtain ⟨ha, hb, hc⟩ := bytes_group a b 0
    have hsum := bits_sum (group_lt a b 0)
    have hlow : group a b 0 % 64 = 0 := by
      simp only [group, UInt8.toNat_zero]
      omega
    rw [hlow] at hsum
    simp only [encode, decode, bits_char, bits_padding, hsum, ha, hb, hc]
    rfl
  | case3 a =>
    obtain ⟨ha, hb, hc⟩ := bytes_group a 0 0
    have hsum := bits_sum (group_lt a 0 0)
    have hlow : group a 0 0 % 64 = 0 ∧ group a 0 0 / 64 % 64 = 0 := by
      simp only [group, UInt8.toNat_zero]
      omega
    simp only [hlow.1, hlow.2, Nat.zero_mul, Nat.add_zero] at hsum
    simp only [encode, decode, bits_char, bits_padding, Nat.zero_mul, Nat.add_zero, hsum, ha, hb,
      hc]
    rfl
  | case4 => rfl

/-- The text ends with as many equal signs as there are zeros. -/
theorem encode_split {b : List UInt8} (h : b ≠ []) :
  ∃ s c, c ≠ padding ∧ encode b = s ++ c :: List.replicate (padLength b.length) padding
  := by
  induction b using encode.induct with
  | case1 a b c r ih =>
    by_cases hr : r = []
    · subst hr
      exact ⟨[char (group a b c / 262144), char (group a b c / 4096), char (group a b c / 64)],
        char (group a b c), char_ne_padding _, by simp [encode, padLength]⟩
    · obtain ⟨s, x, hx, hs⟩ := ih hr
      have hpad : padLength (a :: b :: c :: r).length = padLength r.length := by
        simp only [padLength, List.length_cons]
        omega
      rw [encode, hs, hpad]
      exact ⟨_ :: _ :: _ :: _ :: s, x, hx, rfl⟩
  | case2 a b => exact ⟨[_, _], _, char_ne_padding _, rfl⟩
  | case3 a => exact ⟨[_], _, char_ne_padding _, rfl⟩
  | case4 => exact absurd rfl h

end Base64

end Vely
