import Mathlib.Data.List.Lex
import Mathlib.Data.Nat.Digits.Lemmas
import Mathlib.Order.Compare
import Mathlib.Order.RelIso.Basic
import Vely.Lib.CString
import Vely.Lib.Ctype

/-!
# The order of the keys (`vv_tree_compare`)

Without an evaluation function of its own a tree compares the key searched for, whose
length is known, with the key of a node, a string.  The comparison of strings stops at the
length of the key searched for and then looks at the next byte of the other; the comparison
of numbers compares lengths first.  Both are strict total orders: that of `strcmp`, and
that of the numbers the keys stand for.
-/

namespace Vely

open Std (TransCmp)

/-! ### The comparison -/

/-- The types of keys (`VV_TREE_TYPE_STR`, `VV_TREE_TYPE_NUM`). -/
inductive KeyType where
  | str
  | num
  deriving DecidableEq

/-- The fields `key`, the memory from it on, and `key_len` of a cursor. -/
structure SearchKey where
  key : List UInt8
  keyLen : Nat

/-- `strncmp`: the difference of the first bytes that differ, as unsigned numbers. -/
def TreeKey.strncmp : Nat → List UInt8 → List UInt8 → Except Stop Int
  | 0, _, _ => .ok 0
  | n + 1, c :: s, d :: t =>
    if c ≠ d then .ok ((c.toNat : Int) - d.toNat)
    else if c = 0 then .ok 0
    else TreeKey.strncmp n s t
  | _ + 1, _, _ => .error .fault

/-- `strcmp` -/
def TreeKey.strcmp : List UInt8 → List UInt8 → Except Stop Int
  | c :: s, d :: t =>
    if c ≠ d then .ok ((c.toNat : Int) - d.toNat)
    else if c = 0 then .ok 0
    else TreeKey.strcmp s t
  | _, _ => .error .fault

open TreeKey

/-- `vv_tree_compare`: the key of the cursor with the key `k2` of a node. -/
def vvTreeCompare (keyType : KeyType) (cursor : SearchKey) (k2 : CString) : Except Stop Int :=
  match keyType with
  | .num =>
    let l1 := cursor.keyLen
    let l2 := k2.length
    if l1 < l2 then .ok (-1)
    else if l1 > l2 then .ok 1
    else strncmp l1 cursor.key k2.block
  | .str => do
    let res ← strncmp cursor.keyLen cursor.key k2.block
    if res < 0 then return -1
    else if res = 0 then
      match k2.block[cursor.keyLen]? with
      | some c => if c ≠ 0 then return -1 else return 0
      | none => .error .fault
    else return 1

/-- The bytes of a string as numbers. -/
def CString.codes (s : CString) : List Nat := s.bytes.map UInt8.toNat

/-- A string as the key searched for, in memory that goes on with `rest`. -/
def CString.searchKey (s : CString) (rest : List UInt8) : SearchKey :=
  ⟨s.bytes ++ rest, s.length⟩

/-! ### Numerals -/

/-- The way numbers are written: the base, and whether the letters are capitals. -/
structure NumeralForm where
  base : Nat
  capitals : Bool
  two_le : 2 ≤ base
  le_thirtySix : base ≤ 36

/-- The digits of a form, in order. -/
def NumeralForm.digits (f : NumeralForm) : List UInt8 :=
  (ascii (if f.capitals then "0123456789ABCDEFGHIJKLMNOPQRSTUVWXYZ"
    else "0123456789abcdefghijklmnopqrstuvwxyz")).take f.base

/-- The number that digits stand for. -/
def NumeralForm.value (f : NumeralForm) (ds : List UInt8) : Nat :=
  Nat.ofDigits f.base (ds.reverse.map f.digits.idxOf)

/-- A number of a form, written without leading zeros. -/
structure Numeral (f : NumeralForm) where
  text : CString
  ne_nil : text.bytes ≠ []
  mem : ∀ c ∈ text.bytes, c ∈ f.digits
  leading : text.bytes.head? = some 48 → text.length = 1

/-- The number a numeral stands for. -/
def Numeral.value {f : NumeralForm} (a : Numeral f) : Nat := f.value a.text.bytes

/-! ### The comparison of strings -/

theorem toNat_pos {c : UInt8} (h : 0 ≠ c) :
  0 < c.toNat
  := by
  apply Nat.pos_of_ne_zero
  intro h'
  exact h (UInt8.toNat_inj.mp h').symm

/-- What the comparison of a key with a string gives, as long as the key: it tells the
first difference, or the string starts with the key. -/
theorem strncmp_key {key : List UInt8} (h0 : 0 ∉ key) (rest t : List UInt8) :
  ∃ r, strncmp key.length (key ++ rest) (t ++ [0]) = .ok r
    ∧ (r < 0 ∧ key.map UInt8.toNat < t.map UInt8.toNat
      ∨ 0 < r ∧ t.map UInt8.toNat < key.map UInt8.toNat
      ∨ r = 0 ∧ ∃ u, t = key ++ u)
  := by
  induction key generalizing t with
  | nil =>
    use 0
    exact ⟨rfl, .inr (.inr ⟨rfl, t, rfl⟩)⟩
  | cons c key ih =>
    obtain ⟨hc, hkey⟩ : 0 ≠ c ∧ 0 ∉ key := by simpa using h0
    cases t with
    | nil =>
      use c.toNat
      have hpos := toNat_pos hc
      constructor
      · simp [strncmp, Ne.symm hc]
      · right
        left
        constructor
        · exact_mod_cast hpos
        · simp
    | cons d t =>
      by_cases hcd : c = d
      · subst hcd
        obtain ⟨r, hr, h⟩ := ih hkey t
        use r
        constructor
        · simp [strncmp, Ne.symm hc, hr]
        · simpa [List.cons_lt_cons_iff] using h
      · use (c.toNat : Int) - d.toNat
        have hne : c.toNat ≠ d.toNat := fun h => hcd (UInt8.toNat_inj.mp h)
        constructor
        · simp [strncmp, hcd]
        · simp only [List.map_cons, List.cons_lt_cons_iff]
          omega

/-- What the comparison of two texts gives. -/
theorem strcmp_text {s t : List UInt8} (hs : 0 ∉ s) (ht : 0 ∉ t) :
  ∃ r, strcmp (s ++ [0]) (t ++ [0]) = .ok r
    ∧ (r < 0 ∧ s.map UInt8.toNat < t.map UInt8.toNat
      ∨ 0 < r ∧ t.map UInt8.toNat < s.map UInt8.toNat
      ∨ r = 0 ∧ s = t)
  := by
  induction s generalizing t with
  | nil =>
    cases t with
    | nil => exact ⟨0, rfl, .inr (.inr ⟨rfl, rfl⟩)⟩
    | cons d t =>
      obtain ⟨hd, -⟩ : 0 ≠ d ∧ 0 ∉ t := by simpa using ht
      use (0 : Int) - d.toNat
      have := toNat_pos hd
      constructor
      · simp [strcmp, hd]
      · left
        constructor
        · omega
        · simp
  | cons c s ih =>
    obtain ⟨hc, hs'⟩ : 0 ≠ c ∧ 0 ∉ s := by simpa using hs
    cases t with
    | nil =>
      use c.toNat
      have := toNat_pos hc
      constructor
      · simp [strcmp, Ne.symm hc]
      · right
        left
        constructor
        · exact_mod_cast this
        · simp
    | cons d t =>
      obtain ⟨-, ht'⟩ : 0 ≠ d ∧ 0 ∉ t := by simpa using ht
      by_cases hcd : c = d
      · subst hcd
        obtain ⟨r, hr, h⟩ := ih hs' ht'
        use r
        constructor
        · simp [strcmp, Ne.symm hc, hr]
        · simpa [List.cons_lt_cons_iff] using h
      · use (c.toNat : Int) - d.toNat
        have hne : c.toNat ≠ d.toNat := fun h => hcd (UInt8.toNat_inj.mp h)
        constructor
        · simp [strcmp, hcd]
        · simp only [List.map_cons, List.cons_lt_cons_iff]
          omega

/-- Equal numbers are equal bytes. -/
theorem CString.codes_inj {s t : CString} :
  s.codes = t.codes ↔ s = t
  := by
  constructor
  · intro h
    apply CString.ext
    exact List.map_injective_iff.mpr (fun _ _ => UInt8.toNat_inj.mp) h
  · intro h
    rw [h]

/-- What the comparison of a key with the key of a node gives: the order of the bytes. -/
theorem vvTreeCompare_str (key : CString) (rest : List UInt8) (t : CString) :
  ∃ r, vvTreeCompare .str (key.searchKey rest) t = .ok r
    ∧ (r < 0 ∧ key.codes < t.codes ∨ 0 < r ∧ t.codes < key.codes ∨ r = 0 ∧ key = t)
  := by
  obtain ⟨r, hr, h⟩ := strncmp_key key.nonzero rest t.bytes
  have hread : vvTreeCompare .str (key.searchKey rest) t
      = if r < 0 then .ok (-1)
        else if r = 0 then
          match t.block[key.length]? with
          | some c => if c ≠ 0 then .ok (-1) else .ok 0
          | none => .error .fault
        else .ok 1 := by
    simp only [vvTreeCompare, CString.searchKey, CString.length, CString.block, hr, ok_bind]
    rfl
  rw [hread]
  rcases h with ⟨hneg, hlt⟩ | ⟨hpos, hlt⟩ | ⟨hzero, u, hu⟩
  · rw [if_pos hneg]
    exact ⟨-1, rfl, .inl ⟨by decide, hlt⟩⟩
  · rw [if_neg (by omega), if_neg (by omega)]
    exact ⟨1, rfl, .inr (.inl ⟨by decide, hlt⟩)⟩
  · -- The node's key starts with the key: the next byte tells whether it is longer.
    rw [if_neg (by omega), if_pos hzero, CString.block, hu, CString.length]
    cases u with
    | nil =>
      use 0
      constructor
      · simp
      · right
        right
        exact ⟨rfl, CString.ext (by simp [hu])⟩
    | cons d u =>
      have hd : d ≠ 0 := by
        rintro rfl
        apply t.nonzero
        simp [hu]
      use -1
      constructor
      · simp [hd]
      · left
        constructor
        · decide
        · have hlonger := List.Lex.append_left (· < ·)
            (List.Lex.nil : List.Lex (· < ·) [] (d.toNat :: u.map UInt8.toNat)) key.codes
          rw [List.append_nil] at hlonger
          rw [CString.codes, CString.codes, hu, List.map_append]
          exact hlonger

/-! ### The comparison of numbers -/

section Values

variable (f : NumeralForm)

theorem NumeralForm.pairwise_digits :
  f.digits.Pairwise (fun c d => c.toNat < d.toNat)
  := by
  rw [NumeralForm.digits]
  apply List.Pairwise.take
  cases f.capitals
  · decide +kernel
  · decide +kernel

theorem NumeralForm.length_digits :
  f.digits.length = f.base
  := by
  have hle := f.le_thirtySix
  rw [NumeralForm.digits, List.length_take]
  cases f.capitals
  · exact min_eq_left hle
  · exact min_eq_left hle

variable {f}

/-- A digit stands for a number below the base. -/
theorem NumeralForm.idxOf_lt {c : UInt8} (hc : c ∈ f.digits) :
  f.digits.idxOf c < f.base
  := by
  rw [← f.length_digits]
  exact List.idxOf_lt_length_of_mem hc

/-- The digits are in the order of their bytes. -/
theorem NumeralForm.idxOf_lt_idxOf {c d : UInt8} (hc : c ∈ f.digits) (hd : d ∈ f.digits)
    (hlt : c.toNat < d.toNat) :
  f.digits.idxOf c < f.digits.idxOf d
  := by
  by_contra hle
  have hpair := List.pairwise_iff_getElem.mp f.pairwise_digits
  have hci := List.idxOf_lt_length_of_mem hc
  have hdi := List.idxOf_lt_length_of_mem hd
  have hc' := List.getElem_idxOf hci
  have hd' := List.getElem_idxOf hdi
  rcases Nat.lt_or_eq_of_le (Nat.le_of_not_lt hle) with h | h
  · have := hpair _ _ hdi hci h
    rw [hc', hd'] at this
    omega
  · have : c = d := by
      rw [← hc', ← hd']
      simp only [h]
    subst this
    omega

theorem NumeralForm.value_cons (c : UInt8) (ds : List UInt8) :
  f.value (c :: ds) = f.digits.idxOf c * f.base ^ ds.length + f.value ds
  := by
  simp [NumeralForm.value, Nat.ofDigits_append]
  ring

/-- Digits stand for a number below the power of the base of as many places. -/
theorem NumeralForm.value_lt {ds : List UInt8} (h : ∀ c ∈ ds, c ∈ f.digits) :
  f.value ds < f.base ^ ds.length
  := by
  have hlt := @Nat.ofDigits_lt_base_pow_length f.base (ds.reverse.map f.digits.idxOf)
    (lt_of_lt_of_le one_lt_two f.two_le) (by
      intro x hx
      obtain ⟨c, hc, rfl⟩ := List.mem_map.mp hx
      exact NumeralForm.idxOf_lt (h c (List.mem_reverse.mp hc)))
  simpa [NumeralForm.value] using hlt

/-- Among digits as many, the order of the bytes is that of the numbers. -/
theorem NumeralForm.value_lt_value {ds es : List UInt8} (hd : ∀ c ∈ ds, c ∈ f.digits)
    (he : ∀ c ∈ es, c ∈ f.digits) (hlength : ds.length = es.length)
    (hlt : ds.map UInt8.toNat < es.map UInt8.toNat) :
  f.value ds < f.value es
  := by
  induction ds generalizing es with
  | nil =>
    cases es with
    | nil => simp at hlt
    | cons e es => simp at hlength
  | cons c ds ih =>
    cases es with
    | nil => simp at hlength
    | cons e es =>
      simp only [List.length_cons, Nat.add_right_cancel_iff] at hlength
      simp only [List.forall_mem_cons] at hd he
      have hrest := NumeralForm.value_lt hd.2
      rw [List.map_cons, List.map_cons, List.cons_lt_cons_iff] at hlt
      rw [NumeralForm.value_cons, NumeralForm.value_cons, ← hlength]
      rcases hlt with hlt | ⟨heq, hlt⟩
      · have hdigit := NumeralForm.idxOf_lt_idxOf hd.1 he.1 hlt
        calc f.digits.idxOf c * f.base ^ ds.length + f.value ds
            < f.digits.idxOf c * f.base ^ ds.length + f.base ^ ds.length := by omega
          _ = (f.digits.idxOf c + 1) * f.base ^ ds.length := by ring
          _ ≤ f.digits.idxOf e * f.base ^ ds.length := Nat.mul_le_mul_right _ hdigit
          _ ≤ f.digits.idxOf e * f.base ^ ds.length + f.value es := Nat.le_add_right _ _
      · have hsame : c = e := UInt8.toNat_inj.mp heq
        subst hsame
        have := ih hd.2 he.2 hlength hlt
        omega

theorem NumeralForm.idxOf_zero :
  f.digits.idxOf 48 = 0
  := by
  have htwo := f.two_le
  obtain ⟨n, hn⟩ : ∃ n, f.base = n + 1 := ⟨f.base - 1, by omega⟩
  rw [NumeralForm.digits, hn]
  cases f.capitals
  · rfl
  · rfl

/-- A number of more than one place has a first digit that counts. -/
theorem Numeral.le_value (a : Numeral f) (h : 1 < a.text.length) :
  f.base ^ (a.text.length - 1) ≤ a.value
  := by
  have hmem := a.mem
  have hleading := a.leading
  rw [Numeral.value, CString.length] at *
  cases hb : a.text.bytes with
  | nil => simp [hb] at h
  | cons c ds =>
    rw [hb] at h hmem hleading
    have hne : c ≠ 48 := by
      rintro rfl
      have := hleading rfl
      omega
    have hpos : 0 < f.digits.idxOf c := by
      apply Nat.pos_of_ne_zero
      intro hzero
      apply hne
      have hc : c ∈ f.digits := hmem c (by simp)
      have hzero' : f.digits.idxOf 48 = 0 := NumeralForm.idxOf_zero
      have h48 : (48 : UInt8) ∈ f.digits := by
        apply List.idxOf_lt_length_iff.mp
        rw [hzero', f.length_digits]
        exact lt_of_lt_of_le two_pos f.two_le
      exact (List.idxOf_inj hc).mp (hzero.trans hzero'.symm)
    rw [NumeralForm.value_cons]
    calc f.base ^ ((c :: ds).length - 1)
        = 1 * f.base ^ ds.length := by simp
      _ ≤ f.digits.idxOf c * f.base ^ ds.length := Nat.mul_le_mul_right _ hpos
      _ ≤ f.digits.idxOf c * f.base ^ ds.length + f.value ds := Nat.le_add_right _ _

/-- A number of fewer places is smaller. -/
theorem Numeral.value_lt_of_length_lt {a b : Numeral f} (h : a.text.length < b.text.length) :
  a.value < b.value
  := by
  have hpos : 0 < a.text.length := List.length_pos_iff.mpr a.ne_nil
  have hpow : f.base ^ a.text.length ≤ f.base ^ (b.text.length - 1) := by
    apply Nat.pow_le_pow_right
    · have := f.two_le
      omega
    · omega
  calc a.value < f.base ^ a.text.length := NumeralForm.value_lt a.mem
    _ ≤ f.base ^ (b.text.length - 1) := hpow
    _ ≤ b.value := b.le_value (by omega)

/-- What the comparison of two numerals gives: the order of the numbers. -/
theorem vvTreeCompare_num (a : Numeral f) (rest : List UInt8) (b : Numeral f) :
  ∃ r, vvTreeCompare .num (a.text.searchKey rest) b.text = .ok r
    ∧ (r < 0 ∧ a.value < b.value ∨ 0 < r ∧ b.value < a.value ∨ r = 0 ∧ a.text = b.text)
  := by
  have hread : vvTreeCompare .num (a.text.searchKey rest) b.text
      = if a.text.length < b.text.length then .ok (-1)
        else if a.text.length > b.text.length then .ok 1
        else strncmp a.text.length (a.text.bytes ++ rest) b.text.block := rfl
  rw [hread]
  rcases lt_trichotomy a.text.length b.text.length with h | h | h
  · rw [if_pos h]
    exact ⟨-1, rfl, .inl ⟨by decide, Numeral.value_lt_of_length_lt h⟩⟩
  · rw [if_neg (by omega), if_neg (by omega)]
    obtain ⟨r, hr, horder⟩ := strncmp_key a.text.nonzero rest b.text.bytes
    use r, hr
    rcases horder with ⟨hneg, hlt⟩ | ⟨hpos, hlt⟩ | ⟨hzero, u, hu⟩
    · exact .inl ⟨hneg, NumeralForm.value_lt_value a.mem b.mem h hlt⟩
    · exact .inr (.inl ⟨hpos, NumeralForm.value_lt_value b.mem a.mem h.symm hlt⟩)
    · have hnil : u = [] := by
        rw [CString.length, CString.length, hu, List.length_append] at h
        exact List.eq_nil_of_length_eq_zero (by omega)
      exact .inr (.inr ⟨hzero, CString.ext (by simp [hu, hnil])⟩)
  · rw [if_neg (by omega), if_pos h]
    exact ⟨1, rfl, .inr (.inl ⟨by decide, Numeral.value_lt_of_length_lt h⟩)⟩

end Values

/-! ### The orders -/

/-- The key `s`, searched for, is lesser than the key `t` of a node. -/
def KeyLess (keyType : KeyType) (s t : CString) : Prop :=
  ∃ r, vvTreeCompare keyType (s.searchKey [0]) t = .ok r ∧ r < 0

theorem keyLess_str {s t : CString} :
  KeyLess .str s t ↔ s.codes < t.codes
  := by
  obtain ⟨r, hr, h⟩ := vvTreeCompare_str s [0] t
  rw [KeyLess, hr]
  constructor
  · rintro ⟨_, ⟨⟩, hneg⟩
    rcases h with h | h | h
    · exact h.2
    · omega
    · omega
  · intro hlt
    rcases h with h | h | ⟨-, rfl⟩
    · exact ⟨r, rfl, h.1⟩
    · exact absurd hlt (lt_asymm h.2)
    · exact absurd hlt (lt_irrefl _)

theorem keyLess_num {f : NumeralForm} {a b : Numeral f} :
  KeyLess .num a.text b.text ↔ a.value < b.value
  := by
  obtain ⟨r, hr, h⟩ := vvTreeCompare_num a [0] b
  rw [KeyLess, hr]
  constructor
  · rintro ⟨_, ⟨⟩, hneg⟩
    rcases h with h | h | h
    · exact h.2
    · omega
    · omega
  · intro hlt
    rcases h with h | h | ⟨-, heq⟩
    · exact ⟨r, rfl, h.1⟩
    · omega
    · rw [Numeral.value, Numeral.value, heq] at hlt
      exact absurd hlt (lt_irrefl _)

theorem Numeral.text_injective {f : NumeralForm} :
  Function.Injective (Numeral.text (f := f))
  := by
  intro a b h
  cases a
  cases b
  congr

theorem Numeral.value_injective {f : NumeralForm} :
  Function.Injective (Numeral.value (f := f))
  := by
  intro a b hab
  obtain ⟨r, -, h⟩ := vvTreeCompare_num a [0] b
  apply Numeral.text_injective
  rcases h with h | h | h
  · omega
  · omega
  · exact h.2

/-- The order of the strings is that of lists of numbers. -/
def strEmbedding : KeyLess .str ↪r (fun l m : List Nat => l < m) :=
  ⟨⟨CString.codes, fun _ _ => CString.codes_inj.mp⟩, keyLess_str.symm⟩

/-- The order of the numerals is that of the numbers. -/
def numEmbedding (f : NumeralForm) :
    (fun a b : Numeral f => KeyLess .num a.text b.text) ↪r (fun m n : Nat => m < n) :=
  ⟨⟨Numeral.value, Numeral.value_injective⟩, keyLess_num.symm⟩

/-! ### The comparator of a tree -/

/-- The answer of a comparison: the sign of its result. -/
def keyCmp (keyType : KeyType) (s t : CString) : Ordering :=
  match vvTreeCompare keyType (s.searchKey [0]) t with
  | .ok r => cmp r 0
  | .error _ => .eq

/-- The answer of a comparison that has a result. -/
theorem keyCmp_of_ok {keyType : KeyType} {s t : CString} {r : Int}
    (h : vvTreeCompare keyType (s.searchKey [0]) t = .ok r) :
  keyCmp keyType s t = cmp r 0
  := by
  rw [keyCmp, h]

theorem keyCmp_str (s t : CString) :
  keyCmp .str s t = .lt ∧ s.codes < t.codes
    ∨ keyCmp .str s t = .gt ∧ t.codes < s.codes
    ∨ keyCmp .str s t = .eq ∧ s.codes = t.codes
  := by
  obtain ⟨r, hr, h⟩ := vvTreeCompare_str s [0] t
  rw [keyCmp_of_ok hr, cmp_eq_lt_iff, cmp_eq_gt_iff, cmp_eq_eq_iff]
  rw [CString.codes_inj]
  exact h

theorem keyCmp_num {f : NumeralForm} (a b : Numeral f) :
  keyCmp .num a.text b.text = .lt ∧ a.value < b.value
    ∨ keyCmp .num a.text b.text = .gt ∧ b.value < a.value
    ∨ keyCmp .num a.text b.text = .eq ∧ a.value = b.value
  := by
  obtain ⟨r, hr, h⟩ := vvTreeCompare_num a [0] b
  rw [keyCmp_of_ok hr, cmp_eq_lt_iff, cmp_eq_gt_iff, cmp_eq_eq_iff]
  rw [Numeral.value_injective.eq_iff]
  rcases h with h | h | h
  · exact .inl h
  · exact .inr (.inl h)
  · exact .inr (.inr ⟨h.1, Numeral.text_injective h.2⟩)

/-- A comparison that tells the order of a linear order is one a tree may use. -/
theorem transCmp_of_order {α β : Type} [LinearOrder β] {c : α → α → Ordering} (v : α → β)
    (h : ∀ a b, c a b = .lt ∧ v a < v b ∨ c a b = .gt ∧ v b < v a ∨ c a b = .eq ∧ v a = v b) :
  TransCmp c
  := by
  have hle (a b : α) : (c a b).isLE ↔ v a ≤ v b := by
    rcases h a b with ⟨hc, hv⟩ | ⟨hc, hv⟩ | ⟨hc, hv⟩
    · simp [hc, le_of_lt hv]
    · simp [hc, hv]
    · simp [hc, hv]
  have horiented : Std.OrientedCmp c := by
    constructor
    intro a b
    rcases h a b with ⟨hc, hv⟩ | ⟨hc, hv⟩ | ⟨hc, hv⟩
    · rcases h b a with ⟨hc', hv'⟩ | ⟨hc', hv'⟩ | ⟨hc', hv'⟩
      · exact absurd hv' (lt_asymm hv)
      · rw [hc, hc', Ordering.swap]
      · exact absurd hv'.symm (ne_of_lt hv)
    · rcases h b a with ⟨hc', hv'⟩ | ⟨hc', hv'⟩ | ⟨hc', hv'⟩
      · rw [hc, hc', Ordering.swap]
      · exact absurd hv' (lt_asymm hv)
      · exact absurd hv' (ne_of_lt hv)
    · rcases h b a with ⟨hc', hv'⟩ | ⟨hc', hv'⟩ | ⟨hc', hv'⟩
      · exact absurd hv.symm (ne_of_lt hv')
      · exact absurd hv (ne_of_lt hv')
      · rw [hc, hc', Ordering.swap]
  constructor
  intro a b d hab hbd
  rw [hle] at *
  exact le_trans hab hbd

/-- The keys of a tree of strings. -/
instance instTransCmpStr : TransCmp (keyCmp .str) := transCmp_of_order CString.codes keyCmp_str

/-- The keys of a tree of numbers. -/
instance instTransCmpNum (f : NumeralForm) :
    TransCmp (fun a b : Numeral f => keyCmp .num a.text b.text) :=
  transCmp_of_order Numeral.value keyCmp_num

/-- The comparison of a key with a string has the sign of `strcmp`, whatever the memory
after the key holds, and that of two numerals of one form has the sign of their
difference; both make a strict total order of the keys. -/
theorem vvTreeCompare_orders :
  (∀ (key : CString) (rest : List UInt8) (t : CString), ∃ r s,
      vvTreeCompare .str (key.searchKey rest) t = .ok r
      ∧ strcmp key.block t.block = .ok s
      ∧ r.sign = s.sign
      ∧ (r = 0 ↔ key = t))
    ∧ (∀ (f : NumeralForm) (a : Numeral f) (rest : List UInt8) (b : Numeral f), ∃ r,
      vvTreeCompare .num (a.text.searchKey rest) b.text = .ok r
      ∧ r.sign = ((a.value : Int) - b.value).sign
      ∧ (r = 0 ↔ a.text = b.text))
    ∧ IsStrictTotalOrder CString (KeyLess .str)
    ∧ ∀ f : NumeralForm,
      IsStrictTotalOrder (Numeral f) (fun a b => KeyLess .num a.text b.text)
  := by
  refine ⟨?_, ?_, ?_, ?_⟩
  · intro key rest t
    obtain ⟨r, hr, h⟩ := vvTreeCompare_str key rest t
    obtain ⟨s, hs, h'⟩ := strcmp_text key.nonzero t.nonzero
    use r, s, hr, hs
    rcases h with ⟨hneg, hlt⟩ | ⟨hpos, hlt⟩ | ⟨rfl, rfl⟩
    · have hne : key ≠ t := by
        rintro rfl
        exact absurd hlt (lt_irrefl _)
      rcases h' with h' | h' | h'
      · rw [Int.sign_eq_neg_one_of_neg hneg, Int.sign_eq_neg_one_of_neg h'.1]
        exact ⟨rfl, by omega, fun h => absurd h hne⟩
      · exact absurd h'.2 (lt_asymm hlt)
      · exact absurd (CString.ext h'.2) hne
    · have hne : key ≠ t := by
        rintro rfl
        exact absurd hlt (lt_irrefl _)
      rcases h' with h' | h' | h'
      · exact absurd h'.2 (lt_asymm hlt)
      · rw [Int.sign_eq_one_of_pos hpos, Int.sign_eq_one_of_pos h'.1]
        exact ⟨rfl, by omega, fun h => absurd h hne⟩
      · exact absurd (CString.ext h'.2) hne
    · rcases h' with h' | h' | h'
      · exact absurd h'.2 (lt_irrefl _)
      · exact absurd h'.2 (lt_irrefl _)
      · rw [h'.1]
        exact ⟨rfl, by simp⟩
  · intro f a rest b
    obtain ⟨r, hr, h⟩ := vvTreeCompare_num a rest b
    use r, hr
    rw [Numeral.text_injective.eq_iff, ← Numeral.value_injective.eq_iff]
    rcases h with ⟨hneg, hlt⟩ | ⟨hpos, hlt⟩ | ⟨rfl, heq⟩
    · rw [Int.sign_eq_neg_one_of_neg hneg, Int.sign_eq_neg_one_of_neg (by omega)]
      exact ⟨rfl, by omega⟩
    · rw [Int.sign_eq_one_of_pos hpos, Int.sign_eq_one_of_pos (by omega)]
      exact ⟨rfl, by omega⟩
    · have hvalue : a.value = b.value := by rw [Numeral.text_injective heq]
      rw [hvalue, Int.sub_self]
      exact ⟨rfl, by simp⟩
  · exact strEmbedding.isStrictTotalOrder
  · intro f
    exact (numEmbedding f).isStrictTotalOrder

end Vely
