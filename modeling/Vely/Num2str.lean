import Vely.Lib.Block
import Vely.Lib.Radix
import Vely.Lib.Run

/-!
# Numbers to text (`vely_num2str`)

The digits of a number are computed from the last to the first, and are written from the end of the
text.  A number that is negative is negated first, which leaves the smallest one as it is: its
digits are then negative, and one of them is no position of the table of digits.
-/

namespace Vely

namespace Num2str

open Radix

/-- `VV_NUMBER_LENGTH` -/
def numberLength : Nat := 70

/-- A number of 64 bits. -/
def int64 (x : Int) : Int := x.bmod (2 ^ 64)

/-- The loop that derives `mods`, which has that many places left. -/
def modsLoop (base : Int) : Nat → Int → Except Stop (List Int)
  | 0, a => if a = 0 then .ok [] else .error .fault
  | places + 1, a =>
    if a = 0 then .ok []
    else do
      let mods ← modsLoop base places (a.tdiv base)
      return a.tmod base :: mods

/-- The character at `i` of the table of digits, which ends in a zero. -/
def digitAt (i : Int) : Except Stop UInt8 :=
  if 0 ≤ i ∧ i.toNat < digits.length + 1 then .ok ((digits ++ [0]).getD i.toNat 0)
  else .error .fault

/-- `*p = c` -/
def putAt (res : Block) (p : Int) (c : UInt8) : Except Stop Block :=
  if 0 ≤ p then res.put p.toNat c else .error .fault

/-- The loop that fills in the last `wlen` characters up to `p`. -/
def fillLoop (res : Block) (p : Int) : Nat → List Int → Except Stop Block
  | 0, _ => .ok res
  | _ + 1, [] => .error .fault
  | wlen + 1, m :: mods => do
    let c ← digitAt m
    let res ← putAt res p c
    fillLoop res (p - 1) wlen mods

/-- `vely_num2str`: the result, if any, and `res_len`. -/
def velyNum2str (al base : Int) : Except Stop (Option Block × Nat) :=
  if base < 2 ∨ base > 36 then .ok (none, 0)
  else do
    let a := if al < 0 then int64 (-al) else al
    let mods ← if al = 0 then .ok [] else modsLoop base numberLength a
    let len := if al = 0 then 1 else (if al < 0 then 1 else 0) + mods.length
    let res ← (Block.alloc (len + 1)).put len 0
    if al = 0 then do
      let res ← res.put 0 48
      return (some res, 1)
    else do
      let res ← if al < 0 then res.put 0 45 else .ok res
      let wlen := if al < 0 then len - 1 else len
      let res ← fillLoop res (len - 1) wlen mods
      return (some res, len)

/-- The result is the text of the number: all positions are in bounds, it is made of digits of the
base without leading zeros, and it stands for the number. -/
def TextOk (al base : Int) : Prop :=
  ∃ s : List UInt8, velyNum2str al base = .ok (some ⟨s.map some ++ [some 0]⟩, s.length)
    ∧ IsIntNumeral base.toNat s ∧ intValue base.toNat s = al

/-! ### Digits -/

section

variable {b n places : Nat}

/-- One digit for each place. -/
theorem modsLoop_nonneg (hb : 2 ≤ b) (hn : n < b ^ places) :
  modsLoop b places n = .ok ((Nat.digits b n).map fun d : Nat => (d : Int))
  := by
  induction places generalizing n with
  | zero =>
    obtain rfl : n = 0 := by simpa using hn
    rw [Nat.digits_zero]
    rfl
  | succ places ih =>
    rw [modsLoop]
    split
    · next h =>
      rw [Int.natCast_eq_zero.mp h, Nat.digits_zero]
      rfl
    · next h =>
      have hpos : 0 < n := Nat.pos_of_ne_zero fun hzero => h (by simp [hzero])
      have hdiv : n / b < b ^ places := by
        apply Nat.div_lt_of_lt_mul
        rwa [← Nat.pow_succ']
      have htdiv : (n : Int).tdiv b = ((n / b : Nat) : Int) := rfl
      have htmod : (n : Int).tmod b = ((n % b : Nat) : Int) := rfl
      rw [htdiv, htmod, ih hdiv, Nat.digits_def' hb hpos]
      rfl

/-- The digits of a number that is negative are negative. -/
theorem modsLoop_neg (hb : 2 ≤ b) (hn : n < b ^ places) :
  modsLoop b places (-n) = .ok ((Nat.digits b n).map fun d : Nat => -(d : Int))
  := by
  induction places generalizing n with
  | zero =>
    obtain rfl : n = 0 := by simpa using hn
    rw [Nat.digits_zero]
    rfl
  | succ places ih =>
    rw [modsLoop]
    split
    · next h =>
      rw [Int.natCast_eq_zero.mp (Int.neg_eq_zero.mp h), Nat.digits_zero]
      rfl
    · next h =>
      have hpos : 0 < n := Nat.pos_of_ne_zero fun hzero => h (by simp [hzero])
      have hdiv : n / b < b ^ places := by
        apply Nat.div_lt_of_lt_mul
        rwa [← Nat.pow_succ']
      have htdiv : (-(n : Int)).tdiv b = -((n / b : Nat) : Int) := by
        rw [Int.neg_tdiv]
        rfl
      have htmod : (-(n : Int)).tmod b = -((n % b : Nat) : Int) := by
        rw [Int.neg_tmod]
        rfl
      rw [htdiv, htmod, ih hdiv, Nat.digits_def' hb hpos]
      rfl

theorem digitAt_digit {d : Nat} (hd : d < 36) :
  digitAt d = .ok (digit d)
  := by
  have hall : ∀ d : Fin 36, digitAt (d : Nat) = .ok (digit d) := by decide +kernel
  exact hall ⟨d, hd⟩

/-! ### The text -/

/-- The digits are written over the cells before `p`, the first of them last. -/
theorem fillLoop_digits {ds : List Nat} {res : Block} {l xs r : List (Option UInt8)} {p : Int}
    (hds : ∀ d ∈ ds, d < 36) (hres : res.cells = l ++ xs ++ r) (hxs : xs.length = ds.length)
    (hp : p = (l.length + ds.length : Int) - 1) :
  fillLoop res p ds.length (ds.map fun d : Nat => (d : Int))
    = .ok ⟨l ++ (ds.reverse.map digit).map some ++ r⟩
  := by
  induction ds generalizing res xs r p with
  | nil =>
    obtain rfl : xs = [] := List.length_eq_zero_iff.mp hxs
    have hcells : res = ⟨l ++ [] ++ r⟩ := by
      rw [← hres]
    rw [hcells]
    rfl
  | cons d ds ih =>
    have hnil : xs ≠ [] := by
      rintro rfl
      simp at hxs
    have hlast := List.dropLast_concat_getLast hnil
    have hcells : res.cells = (l ++ xs.dropLast) ++ xs.getLast hnil :: r := by
      rw [hres]
      nth_rewrite 1 [← hlast]
      simp
    have hput : putAt res p (digit d) = .ok ⟨(l ++ xs.dropLast) ++ some (digit d) :: r⟩ := by
      rw [List.length_cons] at hxs hp
      rw [putAt, if_pos (by omega)]
      apply Block.put_of_cells _ hcells
      rw [List.length_append, List.length_dropLast]
      omega
    have hrest : ∀ e ∈ ds, e < 36 := fun e he => hds e (List.mem_cons_of_mem d he)
    rw [List.map_cons, List.length_cons, fillLoop, digitAt_digit (hds d List.mem_cons_self),
      ok_bind, hput, ok_bind, @ih _ xs.dropLast (some (digit d) :: r) _ hrest rfl]
    · simp
    · rw [List.length_dropLast, hxs]
      rfl
    · rw [hp, List.length_cons]
      omega

theorem digitAt_nonneg {i : Int} {c : UInt8} (h : digitAt i = .ok c) :
  0 ≤ i
  := by
  rw [digitAt] at h
  split at h
  · next hi => exact hi.1
  · cases h

/-- All digits that are written are positions of the table. -/
theorem fillLoop_nonneg {mods : List Int} {res res' : Block} {p : Int}
    (h : fillLoop res p mods.length mods = .ok res') :
  ∀ m ∈ mods, 0 ≤ m
  := by
  induction mods generalizing res p with
  | nil =>
    intro m hm
    cases hm
  | cons m mods ih =>
    rw [List.length_cons, fillLoop] at h
    obtain ⟨c, hdigit, h⟩ := exists_of_bind h
    obtain ⟨res₁, -, h⟩ := exists_of_bind h
    intro x hx
    obtain rfl | hx := List.mem_cons.mp hx
    · exact digitAt_nonneg hdigit
    · exact ih h x hx

theorem alloc_succ (n : Nat) :
  (Block.alloc (n + 1)).cells = List.replicate n none ++ [none]
  := List.replicate_succ'

/-- The block for a text of `n` characters, with its terminator. -/
theorem put_alloc (n : Nat) :
  (Block.alloc (n + 1)).put n 0 = .ok ⟨List.replicate n none ++ [some 0]⟩
  := Block.put_of_cells 0 (alloc_succ n) List.length_replicate.symm

theorem put_minus (n : Nat) :
  Block.put ⟨List.replicate (1 + n) none ++ [some 0]⟩ 0 45
    = .ok ⟨[some 45] ++ List.replicate n none ++ [some 0]⟩
  := by
  rw [Nat.add_comm, List.replicate_succ]
  exact @Block.put_of_cells _ [] _ none 0 45 rfl rfl

/-- The digits of a number fill what is left for them. -/
theorem fillLoop_numeral {l : List (Option UInt8)} {p : Int} (hb : 2 ≤ b) (hle : b ≤ 36)
    (hn : n ≠ 0) (hp : p = (l.length + (Nat.digits b n).length : Int) - 1) :
  fillLoop ⟨l ++ List.replicate (Nat.digits b n).length none ++ [some 0]⟩ p (Nat.digits b n).length
      ((Nat.digits b n).map fun d : Nat => (d : Int))
    = .ok ⟨l ++ (numeral b n).map some ++ [some 0]⟩
  := by
  rw [numeral_of_ne_zero hn]
  apply fillLoop_digits
  · intro d hd
    exact digits_lt hb hle hd
  · rfl
  · exact List.length_replicate
  · exact hp

theorem velyNum2str_zero {base : Int} (hbase : 2 ≤ base) (hle : base ≤ 36) :
  velyNum2str 0 base = .ok (some ⟨[some 48, some 0]⟩, 1)
  := by
  rw [velyNum2str, if_neg (by omega)]
  rfl

theorem velyNum2str_pos (hb : 2 ≤ b) (hle : b ≤ 36) (hpos : 0 < n) (hn : n < 2 ^ 63) :
  velyNum2str n b = .ok (some ⟨(numeral b n).map some ++ [some 0]⟩, (numeral b n).length)
  := by
  have hplaces : n < b ^ numberLength := by
    calc n < 2 ^ 70 := by omega
      _ ≤ b ^ numberLength := Nat.pow_le_pow_left hb _
  rw [velyNum2str, if_neg (by omega)]
  have hzero : ¬ (n : Int) = 0 := by omega
  have hneg : ¬ (n : Int) < 0 := by omega
  simp only [if_neg hzero, if_neg hneg, Nat.zero_add]
  have hfill := @fillLoop_numeral b n [] _ hb hle (by omega) rfl
  rw [List.nil_append, List.nil_append, List.length_nil, Int.natCast_zero, Int.zero_add] at hfill
  rw [modsLoop_nonneg hb hplaces, ok_bind, List.length_map, put_alloc, ok_bind, ok_bind, hfill,
    ok_bind, length_numeral (by omega)]
  rfl

theorem velyNum2str_neg (hb : 2 ≤ b) (hle : b ≤ 36) (hpos : 0 < n) (hn : n < 2 ^ 63) :
  velyNum2str (-n) b
    = .ok (some ⟨(45 :: numeral b n).map some ++ [some 0]⟩, (45 :: numeral b n).length)
  := by
  have hplaces : n < b ^ numberLength := by
    calc n < 2 ^ 70 := by omega
      _ ≤ b ^ numberLength := Nat.pow_le_pow_left hb _
  have hint : int64 (- -(n : Int)) = n := by
    rw [int64, Int.neg_neg]
    apply Int.bmod_eq_of_le
    · omega
    · omega
  rw [velyNum2str, if_neg (by omega)]
  have hzero : ¬ -(n : Int) = 0 := by omega
  have hneg : -(n : Int) < 0 := by omega
  simp only [if_neg hzero, if_pos hneg]
  have hfill := @fillLoop_numeral b n [some 45] _ hb hle (by omega) rfl
  rw [hint, modsLoop_nonneg hb hplaces, ok_bind, List.length_map, put_alloc, ok_bind, put_minus,
    ok_bind, Nat.add_sub_cancel_left, Int.natCast_add]
  rw [List.length_singleton] at hfill
  rw [hfill, ok_bind, List.length_cons, length_numeral (by omega), Nat.add_comm 1]
  rfl

/-- The smallest number has no text. -/
theorem velyNum2str_min (hb : 2 ≤ b) (hle : b ≤ 36) (res : Option Block × Nat) :
  velyNum2str (-2 ^ 63) b ≠ .ok res
  := by
  have hplaces : 2 ^ 63 < b ^ numberLength := by
    calc 2 ^ 63 < 2 ^ 70 := by omega
      _ ≤ b ^ numberLength := Nat.pow_le_pow_left hb _
  have hint : int64 (- -2 ^ 63) = -((2 ^ 63 : Nat) : Int) := by decide +kernel
  obtain ⟨d, ds, hdigits, hd, -⟩ := @head_digits b (2 ^ 63) hb (by omega)
  rw [velyNum2str, if_neg (by omega)]
  have hzero : ¬ (-2 ^ 63 : Int) = 0 := by omega
  have hneg : (-2 ^ 63 : Int) < 0 := by omega
  simp only [if_neg hzero, if_pos hneg]
  rw [hint, modsLoop_neg hb hplaces, ok_bind, List.length_map, put_alloc, ok_bind, put_minus,
    ok_bind, Nat.add_sub_cancel_left]
  intro h
  generalize hmods : ((Nat.digits b (2 ^ 63)).map fun d : Nat => -(d : Int)) = mods at h
  have hlength : (Nat.digits b (2 ^ 63)).length = mods.length := by rw [← hmods, List.length_map]
  rw [hlength] at h
  obtain ⟨res₁, hfill, -⟩ := exists_of_bind h
  have hmem : -(d : Int) ∈ mods := by
    rw [← hmods]
    apply List.mem_map_of_mem (f := fun d : Nat => -(d : Int))
    rw [← List.mem_reverse, hdigits]
    exact List.mem_cons_self
  have hnonneg := fillLoop_nonneg hfill _ hmem
  omega

end

/-- The result of a number of 64 bits is its text in the base, except for the smallest number. -/
theorem textOk_iff {al base : Int} (hmin : -2 ^ 63 ≤ al) (hmax : al < 2 ^ 63) (hbase : 2 ≤ base)
    (hle : base ≤ 36) :
  TextOk al base ↔ al ≠ -2 ^ 63
  := by
  obtain ⟨b, rfl⟩ := Int.eq_ofNat_of_zero_le (show 0 ≤ base by omega)
  have hb : 2 ≤ b := by omega
  have hb36 : b ≤ 36 := by omega
  rw [TextOk, Int.toNat_natCast]
  constructor
  · rintro ⟨s, hs, -⟩ rfl
    exact velyNum2str_min hb hb36 _ hs
  · intro hne
    obtain hneg | hnonneg := lt_or_ge al 0
    · obtain ⟨n, hn⟩ := Int.eq_ofNat_of_zero_le (show 0 ≤ -al by omega)
      obtain rfl : al = -n := by omega
      have hpos : 0 < n := by omega
      use 45 :: numeral b n, velyNum2str_neg hb hb36 hpos (by omega)
      constructor
      · right
        use numeral b n, rfl, isNumeral_numeral hb hb36
        exact numeral_ne_zero hb hb36 (by omega)
      · rw [intValue, if_pos rfl, value_numeral hb hb36]
    · obtain ⟨n, rfl⟩ := Int.eq_ofNat_of_zero_le hnonneg
      use numeral b n
      refine ⟨?_, Or.inl (isNumeral_numeral hb hb36), intValue_numeral hb hb36⟩
      by_cases hzero : n = 0
      · subst hzero
        exact velyNum2str_zero hbase hle
      · exact velyNum2str_pos hb hb36 (by omega) (by omega)

/-- The number -255 in base 16. -/
theorem textOk_witness :
  TextOk (-255) 16 ↔ (-255 : Int) ≠ -2 ^ 63
  := textOk_iff (by omega) (by omega) (by omega) (by omega)

/-- The smallest number has no text in base 10. -/
theorem not_textOk_min :
  ¬ TextOk (-2 ^ 63) 10
  := by
  rintro ⟨s, hs, -⟩
  exact @velyNum2str_min 10 (by decide) (by decide) _ hs

end Num2str

end Vely
