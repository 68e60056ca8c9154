import Vely.Lib.Ctype
import Vely.Lib.Decimal
import Vely.Lib.Memory

/-!
# The lengths of literals (`convert_puts`)

A call that writes a literal is generated with a placeholder for its length.  From each
placeholder the line is read backwards, over the literal, and the placeholder is replaced by the
number of characters found, where a character after a backslash is counted with it.
-/

namespace Vely

namespace V1

/-! ## The conversion -/

/-- `VV_EMPTY_LONG_PLAIN_ZERO`, as it stands in the line. -/
def placeholder : List UInt8 := ascii "VV_EMPTY_LONG_PLAIN_ZERO"

/-- What is written over the placeholder: a number, to the right (`"%*lld"`). -/
def sprintfNumber (n : Nat) : List UInt8 :=
  List.replicate (placeholder.length - (decimal n).length) 32 ++ decimal n

/-- The loop over a literal. The text is that before the pointer `i`, with the byte at it, from
right to left; it is given from the first quote on that is not escaped, less the quote. -/
def literalLoop : List UInt8 → Nat → Except Stop (List UInt8 × Nat)
  | c :: d :: before, totstr =>
    if d = '\\'.toUInt8 then literalLoop before (totstr + 1)
    else if c = '"'.toUInt8 then .ok (d :: before, totstr)
    else literalLoop (d :: before) (totstr + 1)
  | _, _ => .error .fault

/-- What is done with a placeholder: it is left, or the function returns, or it is replaced by a
length. -/
inductive Conversion where
  | leave
  | return
  | number (totstr : Nat)
  deriving DecidableEq

/-- The byte before a pointer, spaces left out, and the text before that, from right to left. -/
def nonspaceBefore (before : List UInt8) : Except Stop (UInt8 × List UInt8) :=
  match before.dropWhile isspace with
  | c :: before => .ok (c, before)
  | [] => .error .fault

/-- What is done with a placeholder after a text, given from right to left. -/
def conversion (before : List UInt8) : Except Stop Conversion := do
  let (c, before) ← nonspaceBefore before
  if c ≠ ','.toUInt8 then return .leave
  else if before = [] then return .return
  else
    let (c, before) ← nonspaceBefore before
    if c ≠ '"'.toUInt8 then return .leave
    else if before = [] then return .return
    else
      let (before, totstr) ← literalLoop before 0
      let (c, _) ← nonspaceBefore before
      if c ≠ ','.toUInt8 then return .leave else return .number totstr

/-- The loop of `convert_puts`, over the text from `search` on: what it becomes. -/
def convertLoop : Nat → List UInt8 → List UInt8 → Except Stop (List UInt8)
  | 0, _, _ => .error .fault
  | _ + 1, _, [] => .ok []
  | bound + 1, before, c :: text =>
    if placeholder.isPrefixOf (c :: text) then do
      let rest := (c :: text).drop placeholder.length
      match ← conversion before with
      | .leave => return placeholder ++ (← convertLoop bound (placeholder.reverse ++ before) rest)
      | .return => return c :: text
      | .number totstr =>
        let number := sprintfNumber totstr
        return number ++ (← convertLoop bound (number.reverse ++ before) rest)
    else return c :: (← convertLoop bound (c :: before) text)

/-- `convert_puts` -/
def convertPuts (oline : List UInt8) : Except Stop (List UInt8) :=
  convertLoop (oline.length + 1) [] oline

/-! ## Literals -/

/-- What a literal is made of: characters, and escapes of a character, of octal and of hexadecimal
digits. -/
inductive LitItem where
  | plain (c : UInt8)
  | simple (e : UInt8)
  | octal (ds : List UInt8)
  | hex (ds : List UInt8)

namespace LitItem

/-- The text of an item. -/
def text : LitItem → List UInt8
  | plain c => [c]
  | simple e => ['\\'.toUInt8, e]
  | octal ds => '\\'.toUInt8 :: ds
  | hex ds => '\\'.toUInt8 :: 'x'.toUInt8 :: ds

/-- An octal digit. -/
def isOctal (c : UInt8) : Bool := 48 ≤ c && c ≤ 55

/-- A hexadecimal digit. -/
def isHex (c : UInt8) : Bool := isdigit c || (65 ≤ c && c ≤ 70) || (97 ≤ c && c ≤ 102)

/-- The number of a hexadecimal digit. -/
def hexValue (c : UInt8) : Nat :=
  if c ≤ 57 then c.toNat - 48 else if c ≤ 70 then c.toNat - 55 else c.toNat - 87

/-- The number of octal digits. -/
def octalNumber (ds : List UInt8) : Nat := ds.foldl (fun n d => n * 8 + hexValue d) 0

/-- The number of hexadecimal digits. -/
def hexNumber (ds : List UInt8) : Nat := ds.foldl (fun n d => n * 16 + hexValue d) 0

/-- The byte of an escape of a character. -/
def escapeByte (e : UInt8) : UInt8 :=
  if e = 'n'.toUInt8 then 10
  else if e = 't'.toUInt8 then 9
  else if e = 'r'.toUInt8 then 13
  else if e = 'a'.toUInt8 then 7
  else if e = 'b'.toUInt8 then 8
  else if e = 'f'.toUInt8 then 12
  else if e = 'v'.toUInt8 then 11
  else e

/-- The byte that an item stands for. -/
def byte : LitItem → UInt8
  | plain c => c
  | simple e => escapeByte e
  | octal ds => UInt8.ofNat (octalNumber ds)
  | hex ds => UInt8.ofNat (hexNumber ds)

/-- An item as the language has it. -/
def Valid : LitItem → Prop
  | plain c => c ∉ [0, 10, '"'.toUInt8, '\\'.toUInt8]
  | simple e => e ∈ ascii "'\"?\\abfnrtv"
  | octal ds =>
    1 ≤ ds.length ∧ ds.length ≤ 3 ∧ (∀ d ∈ ds, isOctal d = true) ∧ octalNumber ds < 256
  | hex ds => ds ≠ [] ∧ (∀ d ∈ ds, isHex d = true) ∧ hexNumber ds < 256

instance : DecidablePred Valid
  | plain c => inferInstanceAs (Decidable (c ∉ _))
  | simple e => inferInstanceAs (Decidable (e ∈ _))
  | octal _ => inferInstanceAs (Decidable (_ ∧ _))
  | hex _ => inferInstanceAs (Decidable (_ ∧ _))

/-- An escape takes all the digits there are for it. -/
def Separate : LitItem → LitItem → Prop
  | octal ds, plain c => ds.length < 3 → isOctal c = false
  | hex _, plain c => isHex c = false
  | _, _ => True

instance : DecidableRel Separate
  | octal _, plain _ => inferInstanceAs (Decidable (_ → _))
  | hex _, plain _ => inferInstanceAs (Decidable (_ = _))
  | plain _, _ => inferInstanceAs (Decidable True)
  | simple _, _ => inferInstanceAs (Decidable True)
  | octal _, simple _ => inferInstanceAs (Decidable True)
  | octal _, octal _ => inferInstanceAs (Decidable True)
  | octal _, hex _ => inferInstanceAs (Decidable True)
  | hex _, simple _ => inferInstanceAs (Decidable True)
  | hex _, octal _ => inferInstanceAs (Decidable True)
  | hex _, hex _ => inferInstanceAs (Decidable True)

/-- An item that is a character, or an escape of a character or of one octal digit. -/
def Short : LitItem → Prop
  | octal ds => ds.length = 1
  | hex _ => False
  | _ => True

/-- How many characters an item is counted for. -/
def size : LitItem → Nat
  | plain _ => 1
  | simple _ => 1
  | octal ds => ds.length
  | hex ds => ds.length + 1

end LitItem

/-- A string literal, without its quotes. -/
structure Literal where
  items : List LitItem
  valid : ∀ it ∈ items, it.Valid
  separate : items.IsChain LitItem.Separate

namespace Literal

/-- The text between the quotes. -/
def text (lit : Literal) : List UInt8 := lit.items.flatMap LitItem.text

/-- The number of bytes of the string that a literal denotes, up to its first zero. -/
def strlen (lit : Literal) : Nat := ((lit.items.map LitItem.byte).takeWhile (· ≠ 0)).length

/-- Octal escapes have one digit, there are no hexadecimal ones, and no zeros. -/
def Countable (lit : Literal) : Prop :=
  ∀ it ∈ lit.items, it.byte ≠ 0 ∧ it.Short

end Literal

/-! ## The loop over a literal -/

/-- The text of items from right to left. -/
def revText (items : List LitItem) : List UInt8 := items.flatMap (fun it => it.text.reverse)

/-- How many characters items are counted for. -/
def sizes (items : List LitItem) : Nat := (items.map LitItem.size).sum

/-- Characters of an escape, from right to left, up to the backslash. -/
theorem literalLoop_digits {ds before : List UInt8} {totstr : Nat} (hne : ds ≠ [])
    (h : ∀ d ∈ ds, d ≠ '\\'.toUInt8 ∧ d ≠ '"'.toUInt8) :
  literalLoop (ds ++ '\\'.toUInt8 :: before) totstr = literalLoop before (totstr + ds.length)
  := by
  induction ds generalizing totstr with
  | nil => exact absurd rfl hne
  | cons d ds ih =>
    cases ds with
    | nil =>
      rw [List.cons_append, List.nil_append, literalLoop, if_pos rfl]
      rfl
    | cons e ds =>
      obtain ⟨hd, he⟩ := List.forall_mem_cons.mp h
      rw [List.cons_append, List.cons_append, literalLoop, if_neg (he e (by simp)).1, if_neg hd.2]
      rw [← List.cons_append, ih (by simp) he]
      congr 1
      simp only [List.length_cons]
      omega

/-- A character that is escaped is passed with its backslash. -/
theorem literalLoop_escape (c : UInt8) (before : List UInt8) (totstr : Nat) :
  literalLoop (c :: '\\'.toUInt8 :: before) totstr = literalLoop before (totstr + 1)
  := by
  rw [literalLoop, if_pos rfl]

/-- A character that is not escaped is passed. -/
theorem literalLoop_pass {c d : UInt8} (before : List UInt8) (totstr : Nat)
    (hc : c ≠ '"'.toUInt8) (hd : d ≠ '\\'.toUInt8) :
  literalLoop (c :: d :: before) totstr = literalLoop (d :: before) (totstr + 1)
  := by
  rw [literalLoop, if_neg hd, if_neg hc]

theorem ne_of_isHex {c : UInt8} (h : LitItem.isHex c = true) :
  c ≠ '\\'.toUInt8 ∧ c ≠ '"'.toUInt8
  := by
  constructor
  · rintro rfl
    exact absurd h (by decide)
  · rintro rfl
    exact absurd h (by decide)

theorem ne_of_isOctal {c : UInt8} (h : LitItem.isOctal c = true) :
  c ≠ '\\'.toUInt8 ∧ c ≠ '"'.toUInt8
  := by
  constructor
  · rintro rfl
    exact absurd h (by decide)
  · rintro rfl
    exact absurd h (by decide)

/-- What an item is from right to left: a character, or those of an escape, up to the backslash. -/
theorem LitItem.Valid.reverse_cases {it : LitItem} (h : it.Valid) :
  (∃ c, it.text.reverse = [c] ∧ c ≠ '\\'.toUInt8 ∧ c ≠ '"'.toUInt8 ∧ it.size = 1)
    ∨ (∃ e, it.text.reverse = [e, '\\'.toUInt8] ∧ it.size = 1)
    ∨ ∃ d ds, it.text.reverse = d :: ds ++ ['\\'.toUInt8]
      ∧ (∀ x ∈ d :: ds, x ≠ '\\'.toUInt8 ∧ x ≠ '"'.toUInt8) ∧ it.size = (d :: ds).length
  := by
  cases it with
  | plain c =>
    left
    refine ⟨c, rfl, ?_, ?_, rfl⟩
    · rintro rfl
      exact h (by simp)
    · rintro rfl
      exact h (by simp)
  | simple e => exact .inr (.inl ⟨e, rfl, rfl⟩)
  | octal ds =>
    obtain ⟨hpos, -, hdigits, -⟩ := h
    obtain ⟨d, ds', hds⟩ : ∃ d ds', ds.reverse = d :: ds' :=
      List.exists_cons_of_length_pos (by rw [List.length_reverse]; omega)
    refine .inr (.inr ⟨d, ds', by simp [LitItem.text, hds], ?_, ?_⟩)
    · intro x hx
      rw [← hds, List.mem_reverse] at hx
      exact ne_of_isOctal (hdigits x hx)
    · rw [← hds, List.length_reverse]
      rfl
  | hex ds =>
    obtain ⟨hne, hdigits, -⟩ := h
    obtain ⟨d, ds', hds⟩ : ∃ d ds', ds.reverse = d :: ds' :=
      List.exists_cons_of_ne_nil (by simpa using hne)
    refine .inr (.inr ⟨d, ds' ++ ['x'.toUInt8], by simp [LitItem.text, hds], ?_, ?_⟩)
    · intro x hx
      rw [← List.cons_append, ← hds, List.mem_append, List.mem_reverse] at hx
      rcases hx with hx | hx
      · exact ne_of_isHex (hdigits x hx)
      · rw [List.mem_singleton.mp hx]
        decide
    · rw [← List.cons_append, ← hds, List.length_append, List.length_reverse]
      rfl

/-- The loop over a literal comes to its first quote, also when the last character of an item was
taken for one that is escaped by it: what is left of it then is counted as one. -/
theorem literalLoop_items {items : List LitItem} (hvalid : ∀ it ∈ items, it.Valid) {x : UInt8}
    {before : List UInt8} (hx : x ≠ '\\'.toUInt8) (totstr : Nat) :
  literalLoop (revText items ++ '"'.toUInt8 :: x :: before) totstr
      = .ok (x :: before, totstr + sizes items)
    ∧ ∀ c, c ≠ '"'.toUInt8 →
      literalLoop (c :: (revText items ++ '"'.toUInt8 :: x :: before)) totstr
        = .ok (x :: before, totstr + 1 + sizes items)
  := by
  induction items generalizing totstr with
  | nil =>
    have hstop (n : Nat) : literalLoop ('"'.toUInt8 :: x :: before) n = .ok (x :: before, n) := by
      rw [literalLoop, if_neg hx, if_pos rfl]
    constructor
    · exact hstop totstr
    · intro c hc
      rw [revText, List.flatMap_nil, List.nil_append, literalLoop_pass _ _ hc (by decide)]
      exact hstop (totstr + 1)
  | cons it items ih =>
    obtain ⟨hit, hitems⟩ := List.forall_mem_cons.mp hvalid
    have hrev : revText (it :: items) = it.text.reverse ++ revText items := rfl
    have hsizes : sizes (it :: items) = it.size + sizes items := rfl
    rw [hrev, hsizes]
    rcases hit.reverse_cases with ⟨d, hd, hslash, hquote, hsize⟩ | ⟨e, he, hsize⟩
        | ⟨d, ds, hds, hne, hsize⟩
    · have hfrom (n : Nat) := (ih hitems n).2 d hquote
      rw [hd, hsize]
      constructor
      · rw [List.singleton_append, List.cons_append, hfrom]
        simp only [Nat.add_assoc]
      · intro c hc
        rw [List.singleton_append, List.cons_append, literalLoop_pass _ _ hc hslash, hfrom]
        simp only [Nat.add_assoc]
    · have hall (n : Nat) : literalLoop ([e, '\\'.toUInt8] ++ revText items
          ++ '"'.toUInt8 :: x :: before) n = .ok (x :: before, n + (1 + sizes items)) := by
        rw [List.append_assoc, List.cons_append, List.singleton_append, literalLoop_escape,
          (ih hitems (n + 1)).1, Nat.add_assoc]
      rw [he, hsize]
      constructor
      · exact hall totstr
      · intro c hc
        by_cases hslash : e = '\\'.toUInt8
        · -- The escaped backslash is taken for the one that escapes `c`.
          rw [List.append_assoc, List.cons_append, List.singleton_append, hslash,
            literalLoop_escape, (ih hitems (totstr + 1)).2 _ (by decide)]
          simp only [Nat.add_assoc]
        · rw [← hall (totstr + 1), List.append_assoc, List.cons_append,
            literalLoop_pass _ _ hc hslash]
    · have hall (n : Nat) : literalLoop (d :: ds ++ ['\\'.toUInt8] ++ revText items
          ++ '"'.toUInt8 :: x :: before) n
          = .ok (x :: before, n + ((d :: ds).length + sizes items)) := by
        rw [List.append_assoc, List.append_assoc, List.singleton_append,
          literalLoop_digits (by simp) hne, (ih hitems _).1, Nat.add_assoc]
      rw [hds, hsize]
      constructor
      · exact hall totstr
      · intro c hc
        have hslash := (hne d (by simp)).1
        rw [← hall (totstr + 1), List.cons_append, List.cons_append, List.cons_append,
          literalLoop_pass _ _ hc hslash]

/-! ## One placeholder -/

theorem nonspaceBefore_spaces {ws before : List UInt8} {c : UInt8}
    (hws : ∀ w ∈ ws, isspace w = true) (hc : isspace c = false) :
  nonspaceBefore (ws ++ c :: before) = .ok (c, before)
  := by
  rw [nonspaceBefore, List.dropWhile_append_of_pos hws, List.dropWhile_cons_of_neg (by simp [hc])]

theorem reverse_text (lit : Literal) :
  lit.text.reverse = revText lit.items.reverse
  := by
  rw [Literal.text, List.reverse_flatMap]
  rfl

theorem sizes_reverse (items : List LitItem) :
  sizes items.reverse = sizes items
  := by
  rw [sizes, List.map_reverse, List.sum_reverse]
  rfl

/-- The text in front of a placeholder whose call writes a literal. -/
def beforePlaceholder (pre ws₁ ws₂ ws₃ : List UInt8) (lit : Literal) : List UInt8 :=
  pre ++ ','.toUInt8 :: ws₁ ++ '"'.toUInt8 :: lit.text ++ '"'.toUInt8 :: ws₂ ++ ','.toUInt8 :: ws₃

/-- After a literal, the placeholder is replaced by what its items are counted for. -/
theorem conversion_literal {pre ws₁ ws₂ ws₃ : List UInt8} (lit : Literal)
    (h₁ : ∀ w ∈ ws₁, isspace w = true) (h₂ : ∀ w ∈ ws₂, isspace w = true)
    (h₃ : ∀ w ∈ ws₃, isspace w = true) :
  conversion (beforePlaceholder pre ws₁ ws₂ ws₃ lit).reverse = .ok (.number (sizes lit.items))
  := by
  have hr {ws : List UInt8} (h : ∀ w ∈ ws, isspace w = true) :
      ∀ w ∈ ws.reverse, isspace w = true := by
    intro w hw
    exact h w (List.mem_reverse.mp hw)
  obtain ⟨x, before, hx, hslash⟩ : ∃ x before,
      ws₁.reverse ++ ','.toUInt8 :: pre.reverse = x :: before ∧ x ≠ '\\'.toUInt8 := by
    cases hws : ws₁.reverse with
    | nil => exact ⟨_, _, rfl, by decide⟩
    | cons w ws =>
      refine ⟨w, ws ++ ','.toUInt8 :: pre.reverse, rfl, ?_⟩
      rintro rfl
      have hspace := hr h₁ '\\'.toUInt8 (by rw [hws]; simp)
      exact absurd hspace (by decide)
  have hreverse : (beforePlaceholder pre ws₁ ws₂ ws₃ lit).reverse
      = ws₃.reverse ++ ','.toUInt8 :: (ws₂.reverse ++ '"'.toUInt8
        :: (lit.text.reverse ++ '"'.toUInt8 :: x :: before)) := by
    rw [← hx, beforePlaceholder]
    simp
  have hloop : literalLoop (lit.text.reverse ++ '"'.toUInt8 :: x :: before) 0
      = .ok (x :: before, sizes lit.items) := by
    rw [reverse_text, (literalLoop_items (fun it hit => lit.valid it (List.mem_reverse.mp hit))
      hslash 0).1, sizes_reverse, Nat.zero_add]
  rw [hreverse, conversion, nonspaceBefore_spaces (hr h₃) (by decide), ok_bind]
  simp only
  rw [if_neg (by simp), if_neg (by simp), nonspaceBefore_spaces (hr h₂) (by decide), ok_bind]
  simp only
  rw [if_neg (by simp), if_neg (by simp), hloop, ok_bind]
  simp only
  rw [← hx, nonspaceBefore_spaces (hr h₁) (by decide), ok_bind]
  simp only
  rw [if_neg (by simp)]
  rfl

/-- No more is counted than there are characters. -/
theorem literalLoop_le {before rest : List UInt8} {n m : Nat}
    (h : literalLoop before n = .ok (rest, m)) :
  m ≤ n + before.length
  := by
  induction before, n using literalLoop.induct with
  | case1 c before n ih =>
    rw [literalLoop_escape] at h
    have := ih h
    simp only [List.length_cons]
    omega
  | case2 d before n hd =>
    rw [literalLoop, if_neg hd, if_pos rfl] at h
    cases h
    omega
  | case3 c d before n hd hc ih =>
    rw [literalLoop, if_neg hd, if_neg hc] at h
    have := ih h
    simp only [List.length_cons] at this ⊢
    omega
  | case4 before n hshort =>
    rw [literalLoop] at h
    · cases h
    · exact hshort

theorem nonspaceBefore_le {before rest : List UInt8} {c : UInt8}
    (h : nonspaceBefore before = .ok (c, rest)) :
  rest.length < before.length
  := by
  have hle := (List.dropWhile_suffix isspace (l := before)).length_le
  rw [nonspaceBefore] at h
  split at h
  next d r hd =>
    obtain ⟨-, rfl⟩ := Prod.mk.inj (Except.ok.inj h)
    rw [hd, List.length_cons] at hle
    omega
  next => cases h

theorem conversion_le {before : List UInt8} {n : Nat} (h : conversion before = .ok (.number n)) :
  n ≤ before.length
  := by
  rw [conversion] at h
  cases hcomma : nonspaceBefore before with
  | error e => simp [hcomma] at h
  | ok r₁ =>
    simp only [hcomma, ok_bind] at h
    split at h
    · cases h
    · split at h
      · cases h
      · cases hquote : nonspaceBefore r₁.2 with
        | error e => simp [hquote] at h
        | ok r₂ =>
          simp only [hquote, ok_bind] at h
          split at h
          · cases h
          · split at h
            · cases h
            · cases hloop : literalLoop r₂.2 0 with
              | error e => simp [hloop] at h
              | ok r₃ =>
                have hle := @literalLoop_le _ r₃.1 _ r₃.2 hloop
                have hle₁ := nonspaceBefore_le (c := r₁.1) hcomma
                have hle₂ := nonspaceBefore_le (c := r₂.1) hquote
                simp only [hloop, ok_bind] at h
                cases hlast : nonspaceBefore r₃.1 with
                | error e => simp [hlast] at h
                | ok r₄ =>
                  simp only [hlast, ok_bind] at h
                  split at h
                  · cases h
                  · cases h
                    omega

/-! ## The whole line -/

theorem length_sprintfNumber {n : Nat} (h : n < 2 ^ 63) :
  (sprintfNumber n).length = placeholder.length
  := by
  have hle := length_decimal_le (k := placeholder.length) (n := n) (by decide)
    (lt_trans h (by decide))
  rw [sprintfNumber, List.length_append, List.length_replicate]
  omega

theorem dropWhile_sprintfNumber (n : Nat) :
  (sprintfNumber n).dropWhile (· = 32) = decimal n
  := by
  rw [sprintfNumber, List.dropWhile_append_of_pos (by
    intro c hc
    rw [List.eq_of_mem_replicate hc]
    rfl)]
  cases hd : decimal n with
  | nil => rfl
  | cons c ds =>
    have hc : c ≠ 32 := by
      rintro rfl
      have hdigit : isdigit 32 = true := isdigit_of_mem_decimal (n := n) (by rw [hd]; simp)
      exact absurd hdigit (by decide)
    rw [List.dropWhile_cons_of_neg (by simpa using hc)]

theorem sprintfNumber_injective :
  Function.Injective sprintfNumber
  := by
  intro m n h
  apply decimal_injective
  rw [← dropWhile_sprintfNumber, ← dropWhile_sprintfNumber, h]

/-- Two placeholders do not overlap. -/
theorem placeholder_apart {text : List UInt8} {p : Nat} (h : placeholder <+: text)
    (hp : placeholder <+: text.drop p) (hpos : 0 < p) :
  placeholder.length ≤ p
  := by
  by_contra hlt
  obtain ⟨r, rfl⟩ := h
  have hapart : ∀ k : Fin placeholder.length, (k : Nat) ≠ 0 →
      placeholder.take (placeholder.length - k) ≠ placeholder.drop k := by
    decide
  apply hapart ⟨p, by omega⟩ (by simp only; omega)
  obtain ⟨r', hr'⟩ := hp
  have htake := congrArg (List.take (placeholder.length - p)) hr'
  rw [List.drop_append_of_le_length (by omega), List.take_append_of_le_length (by omega),
    List.take_append_of_le_length (by rw [List.length_drop])] at htake
  rw [htake, List.take_of_length_le (by rw [List.length_drop])]

/-- A placeholder that does not remain is replaced by the number found in front of it. -/
theorem convertLoop_number {bound p : Nat} {before text out : List UInt8}
    (h : convertLoop bound before text = .ok out) (hsmall : before.length + text.length < 2 ^ 63)
    (hp : placeholder <+: text.drop p) (hout : ¬ placeholder <+: out.drop p) :
  ∃ n, conversion ((out.take p).reverse ++ before) = .ok (.number n)
    ∧ (out.drop p).take placeholder.length = sprintfNumber n
    ∧ n < 2 ^ 63
  := by
  induction bound generalizing before text out p with
  | zero => cases h
  | succ bound ih =>
    cases text with
    | nil => exact absurd hp (by simp [placeholder, ascii])
    | cons c text =>
      rw [convertLoop] at h
      split at h
      next hprefix =>
        obtain ⟨rest, hrest⟩ := List.isPrefixOf_iff_prefix.mp hprefix
        have hdrop : (c :: text).drop placeholder.length = rest := by
          rw [← hrest, List.drop_left]
        have hlength : placeholder.length + rest.length = (c :: text).length := by
          rw [← hrest, List.length_append]
        -- What is written over the placeholder is as long, so that the text after it is in place.
        have hafter {new out' : List UInt8} (hnew : new.length = placeholder.length)
            (hle : placeholder.length ≤ p) (hloop : convertLoop bound (new.reverse ++ before) rest
              = .ok out') (heq : out = new ++ out') :
            ∃ n, conversion ((out.take p).reverse ++ before) = .ok (.number n)
              ∧ (out.drop p).take placeholder.length = sprintfNumber n ∧ n < 2 ^ 63 := by
          have hdropOut : out.drop p = out'.drop (p - placeholder.length) := by
            rw [heq, List.drop_append, hnew, List.drop_of_length_le (by omega), List.nil_append]
          have htakeOut : (out.take p).reverse ++ before
              = (out'.take (p - placeholder.length)).reverse ++ (new.reverse ++ before) := by
            rw [heq, List.take_append, hnew, List.take_of_length_le (by omega), List.reverse_append,
              List.append_assoc]
          have hdropText : (c :: text).drop p = rest.drop (p - placeholder.length) := by
            rw [← hdrop, List.drop_drop]
            congr 1
            omega
          rw [hdropText] at hp
          rw [hdropOut] at hout ⊢
          rw [htakeOut]
          exact ih hloop (by simp only [List.length_append, List.length_reverse]; omega) hp hout
        have hzero (hne : p ≠ 0) : placeholder.length ≤ p :=
          placeholder_apart ⟨rest, hrest⟩ hp (Nat.pos_of_ne_zero hne)
        cases hconv : conversion before with
        | error e => simp [hconv] at h
        | ok conv =>
          simp only [hconv, ok_bind, hdrop] at h
          cases conv with
          | leave =>
            cases hloop : convertLoop bound (placeholder.reverse ++ before) rest with
            | error e => simp [hloop] at h
            | ok out' =>
              simp only [hloop, ok_bind] at h
              obtain rfl := Except.ok.inj h
              by_cases hp0 : p = 0
              · subst hp0
                exact absurd (List.prefix_append _ _) hout
              · exact hafter rfl (hzero hp0) hloop rfl
          | «return» =>
            obtain rfl := Except.ok.inj h
            exact absurd hp hout
          | number n =>
            have hn : n < 2 ^ 63 := by
              have hle := conversion_le hconv
              omega
            have hwidth := length_sprintfNumber hn
            cases hloop : convertLoop bound ((sprintfNumber n).reverse ++ before) rest with
            | error e => simp [hloop] at h
            | ok out' =>
              simp only [hloop, ok_bind] at h
              obtain rfl := Except.ok.inj h
              by_cases hp0 : p = 0
              · subst hp0
                refine ⟨n, hconv, ?_, hn⟩
                rw [List.drop_zero, ← hwidth, List.take_left]
              · exact hafter hwidth (hzero hp0) hloop rfl
      next hprefix =>
        cases hloop : convertLoop bound (c :: before) text with
        | error e => simp [hloop] at h
        | ok out' =>
          simp only [hloop, ok_bind] at h
          obtain rfl := Except.ok.inj h
          cases p with
          | zero => exact absurd (List.isPrefixOf_iff_prefix.mpr hp) hprefix
          | succ p =>
            rw [List.drop_succ_cons] at hp hout ⊢
            rw [List.take_succ_cons, List.reverse_cons, List.append_assoc, List.singleton_append]
            exact ih hloop (by simp only [List.length_cons] at hsmall ⊢; omega) hp hout

/-! ## Main results -/

theorem LitItem.Valid.one_le_size {it : LitItem} (h : it.Valid) :
  1 ≤ it.size
  := by
  cases it with
  | plain c => exact le_rfl
  | simple e => exact le_rfl
  | octal ds => exact h.1
  | hex ds => exact Nat.le_add_left 1 ds.length

theorem LitItem.Valid.size_eq_one_iff {it : LitItem} (h : it.Valid) :
  it.size = 1 ↔ it.Short
  := by
  cases it with
  | plain c => simp [LitItem.size, LitItem.Short]
  | simple e => simp [LitItem.size, LitItem.Short]
  | octal ds => simp [LitItem.size, LitItem.Short]
  | hex ds => simp [LitItem.size, LitItem.Short, h.1]

/-- Items are counted for their number exactly when each is counted for one. -/
theorem length_le_sizes {items : List LitItem} (h : ∀ it ∈ items, it.Valid) :
  items.length ≤ sizes items ∧ (sizes items = items.length ↔ ∀ it ∈ items, it.size = 1)
  := by
  induction items with
  | nil => simp [sizes]
  | cons it items ih =>
    obtain ⟨hit, hitems⟩ := List.forall_mem_cons.mp h
    obtain ⟨hle, hiff⟩ := ih hitems
    have hone := hit.one_le_size
    have hsizes : sizes (it :: items) = it.size + sizes items := rfl
    rw [hsizes, List.forall_mem_cons, ← hiff, List.length_cons]
    constructor
    · omega
    · omega

/-- The characters counted are as many as the bytes of the string exactly when every item is
counted for one, and stands for a byte that does not end the string. -/
theorem sizes_eq_strlen_iff (lit : Literal) :
  sizes lit.items = lit.strlen ↔ lit.Countable
  := by
  obtain ⟨hle, hiff⟩ := length_le_sizes lit.valid
  have hprefix : (lit.items.map LitItem.byte).takeWhile (· ≠ 0) <+: lit.items.map LitItem.byte :=
    List.takeWhile_prefix _
  have hstrlen : lit.strlen ≤ lit.items.length := by
    simpa [Literal.strlen] using hprefix.length_le
  have hall : lit.strlen = lit.items.length ↔ ∀ it ∈ lit.items, it.byte ≠ 0 := by
    have hself : lit.strlen = lit.items.length
        ↔ (lit.items.map LitItem.byte).takeWhile (· ≠ 0) = lit.items.map LitItem.byte := by
      constructor
      · intro heq
        exact hprefix.eq_of_length (by rw [List.length_map]; exact heq)
      · intro heq
        rw [Literal.strlen, heq, List.length_map]
    rw [hself, List.takeWhile_eq_self_iff]
    simp
  have hcount : lit.Countable
      ↔ (∀ it ∈ lit.items, it.byte ≠ 0) ∧ ∀ it ∈ lit.items, it.size = 1 := by
    rw [Literal.Countable, ← forall₂_and]
    apply forall₂_congr
    intro it hit
    rw [(lit.valid it hit).size_eq_one_iff]
  rw [hcount, ← hiff, ← hall]
  omega

/-- Where a placeholder behind a literal was replaced, the number written is the length of the
string exactly when the literal is countable. -/
theorem convertPuts_iff {oline out : List UInt8} {p : Nat} (h : convertPuts oline = .ok out)
    (hsmall : oline.length < 2 ^ 63) (hp : placeholder <+: oline.drop p)
    (hout : ¬ placeholder <+: out.drop p) {pre ws₁ ws₂ ws₃ : List UInt8} {lit : Literal}
    (hlit : out.take p = beforePlaceholder pre ws₁ ws₂ ws₃ lit)
    (h₁ : ∀ w ∈ ws₁, isspace w = true) (h₂ : ∀ w ∈ ws₂, isspace w = true)
    (h₃ : ∀ w ∈ ws₃, isspace w = true) :
  (out.drop p).take placeholder.length = sprintfNumber lit.strlen ↔ lit.Countable
  := by
  obtain ⟨n, hconv, hnumber, -⟩ := convertLoop_number h (by simpa using hsmall) hp hout
  rw [hlit, List.append_nil, conversion_literal lit h₁ h₂ h₃] at hconv
  obtain rfl := Conversion.number.inj (Except.ok.inj hconv)
  rw [hnumber, sprintfNumber_injective.eq_iff, sizes_eq_strlen_iff]

/-- A literal of one character. -/
theorem convertPuts_plain :
  ((ascii "vely_puts (VV_NOENC, \"a\",                        1);").drop 26).take
      placeholder.length = sprintfNumber (Literal.mk [.plain 97] (by decide) (by decide)).strlen
    ↔ (Literal.mk [.plain 97] (by decide) (by decide)).Countable
  := @convertPuts_iff (ascii "vely_puts (VV_NOENC, \"a\", VV_EMPTY_LONG_PLAIN_ZERO);") _ 26
    (by decide +kernel) (by decide +kernel) (by decide +kernel) (by decide +kernel)
    (ascii "vely_puts (VV_NOENC") [32] [] [32] ⟨[.plain 97], by decide, by decide⟩
    (by decide +kernel) (by decide +kernel) (by decide +kernel) (by decide +kernel)

/-- A hexadecimal escape is counted for its digits: the string is of one byte, and a length of
three is generated. -/
theorem not_convertPuts_hex :
  ¬ ∀ {oline out : List UInt8} {p : Nat}, convertPuts oline = .ok out → oline.length < 2 ^ 63 →
      placeholder <+: oline.drop p → ¬ placeholder <+: out.drop p →
      ∀ {pre ws₁ ws₂ ws₃ : List UInt8} {lit : Literal},
        out.take p = beforePlaceholder pre ws₁ ws₂ ws₃ lit →
        (∀ w ∈ ws₁, isspace w = true) → (∀ w ∈ ws₂, isspace w = true) →
        (∀ w ∈ ws₃, isspace w = true) →
        (out.drop p).take placeholder.length = sprintfNumber lit.strlen
  := by
  intro h
  have hline : convertPuts (ascii "vely_puts (VV_NOENC, \"\\x41\", VV_EMPTY_LONG_PLAIN_ZERO);")
      = .ok (ascii "vely_puts (VV_NOENC, \"\\x41\",                        3);") := by
    decide +kernel
  have hnumber := @h _ _ 29 hline (by decide +kernel) (by decide +kernel) (by decide +kernel)
    (ascii "vely_puts (VV_NOENC") [32] [] [32] ⟨[.hex (ascii "41")], by decide +kernel, by decide⟩
    (by decide +kernel) (by decide +kernel) (by decide +kernel) (by decide +kernel)
  exact absurd hnumber (by decide +kernel)

end V1

end Vely
