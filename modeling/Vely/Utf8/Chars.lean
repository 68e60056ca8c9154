import Vely.Utf8.Model

/-!
# Characters and their bytes

A character that is read of its UTF-8 bytes, and written as them.
-/

namespace Vely

/-- The bytes of characters. -/
def utf8 (cs : List Char) : List UInt8 := cs.flatMap String.utf8EncodeChar

@[simp]
theorem utf8_nil :
  utf8 [] = []
  := rfl

@[simp]
theorem utf8_cons (c : Char) (cs : List Char) :
  utf8 (c :: cs) = String.utf8EncodeChar c ++ utf8 cs
  := List.flatMap_cons

/-! ### Bits -/

/-- A byte behind the first one of a character. -/
theorem continuation {n : Nat} (h : n < 64) :
  UInt8.ofNat (n + 128) &&& 128 = 128 ∧ bits (UInt8.ofNat (n + 128)) 63 = n
  := by
  have hall : ∀ n < 64, UInt8.ofNat (n + 128) &&& 128 = 128
      ∧ bits (UInt8.ofNat (n + 128)) 63 = (n : Nat) := by decide
  apply hall n h

/-- The first of two bytes. -/
theorem lead_two {n : Nat} (h : n < 32) :
  UInt8.ofNat (n + 192) &&& 128 ≠ 0 ∧ UInt8.ofNat (n + 192) &&& 240 ≠ 240
    ∧ UInt8.ofNat (n + 192) &&& 224 ≠ 224 ∧ UInt8.ofNat (n + 192) &&& 192 = 192
    ∧ bits (UInt8.ofNat (n + 192)) 31 = n
  := by
  have hall : ∀ n < 32, UInt8.ofNat (n + 192) &&& 128 ≠ 0 ∧ UInt8.ofNat (n + 192) &&& 240 ≠ 240
      ∧ UInt8.ofNat (n + 192) &&& 224 ≠ 224 ∧ UInt8.ofNat (n + 192) &&& 192 = 192
      ∧ bits (UInt8.ofNat (n + 192)) 31 = (n : Nat) := by decide
  apply hall n h

/-- The first of three bytes. -/
theorem lead_three {n : Nat} (h : n < 16) :
  UInt8.ofNat (n + 224) &&& 128 ≠ 0 ∧ UInt8.ofNat (n + 224) &&& 240 ≠ 240
    ∧ UInt8.ofNat (n + 224) &&& 224 = 224 ∧ UInt8.ofNat (n + 224) &&& 192 = 192
    ∧ bits (UInt8.ofNat (n + 224)) 15 = n
  := by
  have hall : ∀ n < 16, UInt8.ofNat (n + 224) &&& 128 ≠ 0 ∧ UInt8.ofNat (n + 224) &&& 240 ≠ 240
      ∧ UInt8.ofNat (n + 224) &&& 224 = 224 ∧ UInt8.ofNat (n + 224) &&& 192 = 192
      ∧ bits (UInt8.ofNat (n + 224)) 15 = (n : Nat) := by decide
  apply hall n h

/-- The first of four bytes. -/
theorem lead_four {n : Nat} (h : n < 8) :
  UInt8.ofNat (n + 240) &&& 128 ≠ 0 ∧ UInt8.ofNat (n + 240) &&& 240 = 240
    ∧ UInt8.ofNat (n + 240) &&& 192 = 192 ∧ bits (UInt8.ofNat (n + 240)) 7 = n
  := by
  have hall : ∀ n < 8, UInt8.ofNat (n + 240) &&& 128 ≠ 0 ∧ UInt8.ofNat (n + 240) &&& 240 = 240
      ∧ UInt8.ofNat (n + 240) &&& 192 = 192 ∧ bits (UInt8.ofNat (n + 240)) 7 = (n : Nat) := by
    decide
  apply hall n h

theorem byte_natCast (n : Nat) :
  byte n = UInt8.ofNat n
  := by
  apply UInt8.toNat_inj.mp
  rw [byte, UInt8.ofInt, UInt8.toNat_ofNat', UInt8.toNat_ofNat']
  omega

/-! ### Characters -/

section Char

variable (c : Char)

/-- A character is a number below the limit of Unicode, and no surrogate. -/
theorem toNat_lt :
  c.toNat < 0x110000 ∧ ¬ (0xD800 ≤ c.toNat ∧ c.toNat ≤ 0xDFFF)
  := by
  have h := c.valid
  rw [UInt32.isValidChar, Nat.isValidChar] at h
  rw [Char.toNat]
  omega

/-- The four ways to write a character. -/
theorem utf8EncodeChar_cases :
  (c.toNat < 0x80 ∧ String.utf8EncodeChar c = [UInt8.ofNat c.toNat])
  ∨ (0x80 ≤ c.toNat ∧ c.toNat < 0x800 ∧ String.utf8EncodeChar c
      = [UInt8.ofNat (c.toNat / 64 + 192), UInt8.ofNat (c.toNat % 64 + 128)])
  ∨ (0x800 ≤ c.toNat ∧ c.toNat < 0x10000 ∧ String.utf8EncodeChar c
      = [UInt8.ofNat (c.toNat / 4096 + 224), UInt8.ofNat (c.toNat / 64 % 64 + 128),
        UInt8.ofNat (c.toNat % 64 + 128)])
  ∨ (0x10000 ≤ c.toNat ∧ String.utf8EncodeChar c
      = [UInt8.ofNat (c.toNat / 262144 + 240), UInt8.ofNat (c.toNat / 4096 % 64 + 128),
        UInt8.ofNat (c.toNat / 64 % 64 + 128), UInt8.ofNat (c.toNat % 64 + 128)])
  := by
  obtain ⟨hlt, -⟩ := toNat_lt c
  have hval : c.val.toNat = c.toNat := rfl
  simp only [String.utf8EncodeChar, hval]
  split
  · exact .inl ⟨by omega, rfl⟩
  · split
    · refine .inr (.inl ⟨by omega, by omega, ?_⟩)
      rw [Nat.mod_eq_of_lt (a := c.toNat / 64) (by omega)]
    · split
      · refine .inr (.inr (.inl ⟨by omega, by omega, ?_⟩))
        rw [Nat.mod_eq_of_lt (a := c.toNat / 4096) (by omega)]
      · refine .inr (.inr (.inr ⟨by omega, ?_⟩))
        rw [Nat.mod_eq_of_lt (a := c.toNat / 262144) (by omega)]

/-- A character above ASCII is read of its bytes. -/
theorem velyEncodeUtf8_char (rest : List UInt8) (h : 0x80 ≤ c.toNat) :
  velyEncodeUtf8 (String.utf8EncodeChar c ++ rest)
    = .ok (c.toNat, (String.utf8EncodeChar c).length)
  := by
  obtain ⟨hlt, -⟩ := toNat_lt c
  rcases utf8EncodeChar_cases c with ⟨h', hc⟩ | ⟨-, h', hc⟩ | ⟨-, h', hc⟩ | ⟨h', hc⟩
  · omega
  · obtain ⟨hb, h4, h3, h2, hn⟩ := @lead_two (c.toNat / 64) (by omega)
    obtain ⟨ht, htn⟩ := @continuation (c.toNat % 64) (by omega)
    rw [hc]
    simp only [velyEncodeUtf8, List.cons_append, byteAt_cons_zero, byteAt_cons_succ, if_neg hb,
      if_neg h4, if_neg h3, if_pos h2, ht, ne_eq, not_true_eq_false, if_false, hn, htn,
      List.length_cons, List.length_nil]
    congr 2
    omega
  · obtain ⟨hb, h4, h3, -, hn⟩ := @lead_three (c.toNat / 4096) (by omega)
    obtain ⟨hs, hsn⟩ := @continuation (c.toNat / 64 % 64) (by omega)
    obtain ⟨ht, htn⟩ := @continuation (c.toNat % 64) (by omega)
    rw [hc]
    simp only [velyEncodeUtf8, List.cons_append, byteAt_cons_zero, byteAt_cons_succ, if_neg hb,
      if_neg h4, if_pos h3, hs, ht, ne_eq, not_true_eq_false, if_false, hn, hsn, htn,
      List.length_cons, List.length_nil]
    congr 2
    omega
  · obtain ⟨hb, h4, -, hn⟩ := @lead_four (c.toNat / 262144) (by omega)
    obtain ⟨hs, hsn⟩ := @continuation (c.toNat / 4096 % 64) (by omega)
    obtain ⟨ht, htn⟩ := @continuation (c.toNat / 64 % 64) (by omega)
    obtain ⟨hf, hfn⟩ := @continuation (c.toNat % 64) (by omega)
    rw [hc]
    simp only [velyEncodeUtf8, List.cons_append, byteAt_cons_zero, byteAt_cons_succ, if_neg hb,
      if_pos h4, hs, ht, hf, ne_eq, not_true_eq_false, if_false, hn, hsn, htn, hfn,
      List.length_cons, List.length_nil]
    congr 2
    omega

/-- The first byte of a character above ASCII has its two highest bits set. -/
theorem exists_lead (h : 0x80 ≤ c.toNat) :
  ∃ b bs, String.utf8EncodeChar c = b :: bs ∧ b &&& 192 = 192
  := by
  obtain ⟨hlt, -⟩ := toNat_lt c
  rcases utf8EncodeChar_cases c with ⟨h', hc⟩ | ⟨-, h', hc⟩ | ⟨-, h', hc⟩ | ⟨h', hc⟩
  · omega
  · exact ⟨_, _, hc, (lead_two (by omega)).2.2.2.1⟩
  · exact ⟨_, _, hc, (lead_three (by omega)).2.2.2.1⟩
  · exact ⟨_, _, hc, (lead_four (by omega)).2.2.1⟩

/-- A character is written as its bytes, but for U+FEFF. -/
theorem velyDecodeUtf8_char (h : c.toNat ≠ 0xFEFF) :
  velyDecodeUtf8 c.toNat = .ok (String.utf8EncodeChar c)
  := by
  obtain ⟨hlt, -⟩ := toNat_lt c
  have hbyte : ∀ (x : Int) (n : Nat), x = n → byte x = UInt8.ofNat n := by
    rintro x n rfl
    apply byte_natCast
  rw [velyDecodeUtf8]
  rcases utf8EncodeChar_cases c with ⟨h', hc⟩ | ⟨hle, h', hc⟩ | ⟨hle, h', hc⟩ | ⟨h', hc⟩
  · rw [if_pos (by omega), hc, hbyte _ c.toNat rfl]
  · rw [if_neg (by omega), if_pos (by omega), hc, hbyte _ (c.toNat / 64 + 192) (by omega),
      hbyte _ (c.toNat % 64 + 128) (by omega)]
  · rw [if_neg (by omega), if_neg (by omega), if_pos (by omega), if_neg (by omega), hc,
      hbyte _ (c.toNat / 4096 + 224) (by omega), hbyte _ (c.toNat / 64 % 64 + 128) (by omega),
      hbyte _ (c.toNat % 64 + 128) (by omega)]
  · rw [if_neg (by omega), if_neg (by omega), if_neg (by omega), if_pos (by omega), hc,
      hbyte _ (c.toNat / 262144 + 240) (by omega), hbyte _ (c.toNat / 4096 % 64 + 128) (by omega),
      hbyte _ (c.toNat / 64 % 64 + 128) (by omega), hbyte _ (c.toNat % 64 + 128) (by omega)]

end Char

/-! ### Where characters end -/

/-- A byte of ASCII is a character of its own. -/
theorem utf8EncodeChar_of_mem {c : Char} {a : UInt8} (h : a ∈ String.utf8EncodeChar c)
    (ha : a < 128) :
  String.utf8EncodeChar c = [a]
  := by
  have hbig : ∀ n : Nat, 128 ≤ n → n < 256 → ¬ UInt8.ofNat n < 128 := by
    intro n hle hlt hn
    have hn := UInt8.lt_iff_toNat_lt.mp hn
    rw [UInt8.toNat_ofNat', Nat.mod_eq_of_lt (by omega)] at hn
    have h128 : (128 : UInt8).toNat = 128 := rfl
    omega
  obtain ⟨hlt, -⟩ := toNat_lt c
  rcases utf8EncodeChar_cases c with ⟨h', hc⟩ | ⟨-, h', hc⟩ | ⟨-, h', hc⟩ | ⟨h', hc⟩
  · rw [hc, List.mem_singleton] at h
    rw [hc, h]
  all_goals
    rw [hc] at h
    simp only [List.mem_cons, List.not_mem_nil, or_false] at h
  · obtain rfl | rfl := h
    · exact absurd ha (hbig _ (by omega) (by omega))
    · exact absurd ha (hbig _ (by omega) (by omega))
  · obtain rfl | rfl | rfl := h
    · exact absurd ha (hbig _ (by omega) (by omega))
    · exact absurd ha (hbig _ (by omega) (by omega))
    · exact absurd ha (hbig _ (by omega) (by omega))
  · obtain rfl | rfl | rfl | rfl := h
    · exact absurd ha (hbig _ (by omega) (by omega))
    · exact absurd ha (hbig _ (by omega) (by omega))
    · exact absurd ha (hbig _ (by omega) (by omega))
    · exact absurd ha (hbig _ (by omega) (by omega))

@[simp]
theorem utf8_append (xs ys : List Char) :
  utf8 (xs ++ ys) = utf8 xs ++ utf8 ys
  := List.flatMap_append

/-- The first character is told by its bytes. -/
theorem utf8EncodeChar_append_inj {c d : Char} {x y : List UInt8}
    (h : String.utf8EncodeChar c ++ x = String.utf8EncodeChar d ++ y) :
  c = d
  := by
  have hascii : ∀ {c d : Char} {x y : List UInt8}, c.toNat < 0x80 →
      String.utf8EncodeChar c ++ x = String.utf8EncodeChar d ++ y → d.toNat = c.toNat := by
    intro c d x y hc h
    have hbytes : String.utf8EncodeChar c = [UInt8.ofNat c.toNat] := by
      obtain ⟨-, h⟩ | h := utf8EncodeChar_cases c
      · exact h
      · omega
    have hlt : UInt8.ofNat c.toNat < 128 := by
      rw [UInt8.lt_iff_toNat_lt, UInt8.toNat_ofNat', Nat.mod_eq_of_lt (by omega)]
      exact hc
    obtain ⟨b, bs, hd⟩ := List.exists_cons_of_ne_nil (@String.utf8EncodeChar_ne_nil d)
    rw [hbytes, hd, List.cons_append, List.cons_append, List.cons.injEq] at h
    have hsingle := @utf8EncodeChar_of_mem d b (by rw [hd]; simp) (by rw [← h.1]; exact hlt)
    obtain ⟨hd', hdbytes⟩ | h' := utf8EncodeChar_cases d
    · rw [hdbytes, List.cons.injEq] at hsingle
      have heq := congrArg UInt8.toNat (h.1.trans hsingle.1.symm)
      rw [UInt8.toNat_ofNat', UInt8.toNat_ofNat', Nat.mod_eq_of_lt (by omega),
        Nat.mod_eq_of_lt (by omega)] at heq
      exact heq.symm
    · have hlen := congrArg List.length hsingle
      rcases h' with ⟨-, -, hd'⟩ | ⟨-, -, hd'⟩ | ⟨-, hd'⟩
      all_goals
        rw [hd'] at hlen
        simp at hlen
  apply Char.toNat_inj.mp
  by_cases hc : c.toNat < 0x80
  · exact (hascii hc h).symm
  · by_cases hd : d.toNat < 0x80
    · exact hascii hd h.symm
    · have hread := velyEncodeUtf8_char c x (by omega)
      rw [h, velyEncodeUtf8_char d y (by omega)] at hread
      simp only [Except.ok.injEq, Prod.mk.injEq] at hread
      omega

/-- What is behind characters, in front of others, is characters. -/
theorem utf8_cancel {ts zs : List Char} {x : List UInt8} (h : utf8 ts ++ x = utf8 zs) :
  ∃ xs, x = utf8 xs
  := by
  induction ts generalizing zs with
  | nil => exact ⟨zs, h⟩
  | cons t ts ih =>
    cases zs with
    | nil =>
      rw [utf8_cons, utf8_nil, List.append_assoc, List.append_eq_nil_iff] at h
      exact absurd h.1 String.utf8EncodeChar_ne_nil
    | cons z zs =>
      rw [utf8_cons, utf8_cons, List.append_assoc] at h
      obtain rfl := utf8EncodeChar_append_inj h
      exact ih (List.append_cancel_left h)

/-- Bytes of ASCII are characters. -/
theorem exists_utf8_ascii {x : List UInt8} (h : ∀ a ∈ x, a < 128) :
  ∃ xs, x = utf8 xs
  := by
  induction x with
  | nil => exact ⟨[], rfl⟩
  | cons a x ih =>
    obtain ⟨xs, rfl⟩ := ih (fun b hb => h b (List.mem_cons_of_mem _ hb))
    have ha := UInt8.lt_iff_toNat_lt.mp (h a List.mem_cons_self)
    have h128 : (128 : UInt8).toNat = 128 := rfl
    have hvalid : a.toNat.isValidChar := by
      rw [Nat.isValidChar]
      omega
    have htoNat : (Char.ofNat a.toNat).toNat = a.toNat := by
      rw [Char.ofNat, dif_pos hvalid]
      rfl
    use Char.ofNat a.toNat :: xs
    rw [utf8_cons]
    rcases utf8EncodeChar_cases (Char.ofNat a.toNat) with ⟨-, hc⟩ | h'
    · rw [hc, htoNat, UInt8.ofNat_toNat]
      rfl
    · omega

end Vely
