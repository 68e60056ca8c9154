import Vely.Lib.CString
import Vely.Lib.Ctype
import Vely.Lib.Substring

/-!
# The text of SQL statements

A statement that is not prepared is made at run time: the values are escaped and are put in the text
of its format in the place of `%s`.  A statement that is prepared has parameters in the place of
`'%s'`. The texts are the bytes of C strings.
-/

namespace Vely

/-- `vely_count_substring` -/
def velyCountSubstring (str find : List UInt8) (caseSensitive : Bool) : Nat :=
  if find = [] then 0
  else if caseSensitive then Substr.count find str
  else Substr.count (find.map tolower) (str.map tolower)

/-- A string in which replacing goes on: whether there was room, whether anything was replaced, what
is before the place from which it is searched next, and what is after. -/
structure Replaced where
  ok : Bool
  found : Bool
  done : List UInt8
  rest : List UInt8

/-- The string as it is. -/
def Replaced.text (r : Replaced) : List UInt8 := r.done ++ r.rest

/-- The loop of `vely_replace_string`. -/
def replaceFrom (strsize : Int) (find subst : List UInt8) (all : Bool) : Nat → Replaced → Replaced
  | 0, r => r
  | n + 1, r =>
    match Substr.search find r.rest with
    | none => r
    | some (x, y) =>
      if strsize < r.text.length + 1 - find.length + subst.length then { r with ok := false }
      else if all then
        replaceFrom strsize find subst all n ⟨true, true, r.done ++ x ++ subst, y⟩
      else ⟨true, true, r.done ++ x ++ subst, y⟩

/-- `vely_replace_string`, where the case of letters matters. -/
def velyReplaceString (str : List UInt8) (strsize : Int) (find subst : List UInt8) (all : Bool) :
    Replaced :=
  replaceFrom strsize find subst all str.length ⟨true, false, [], str⟩

/-- `vely_lite_escape`: the text in the place of a value, or nothing when there is no room. -/
def velyLiteEscape (str : List UInt8) : Option (List UInt8) :=
  let r := velyReplaceString str (2 * str.length + 1) [92] [92, 92] true
  if r.ok then
    let r := velyReplaceString r.text (2 * str.length + 1) [39] [39, 39] true
    if r.ok then some r.text else none
  else none

/-- The text `%s`. -/
def percentS : List UInt8 := [37, 115]

/-- The text `'%s'`. -/
def quotedS : List UInt8 := 39 :: percentS ++ [39]

/-- The loop of `vely_db_prep_text` for SQLite, with the number of parameters that it still makes;
after the last of them the text ends. -/
def prepFrom : Nat → List UInt8 → List UInt8
  | 0, _ => []
  | n + 1, t =>
    match Substr.search quotedS t with
    | some (x, y) => x ++ 63 :: prepFrom n y
    | none => t

/-- `vely_db_prep_text` for SQLite -/
def velyDbPrepText (t : List UInt8) : List UInt8 :=
  if velyCountSubstring t quotedS false = 0 then t else prepFrom 65535 t

/-- What is wrong with a statement: the number of single quotes is odd, a placeholder is without
quotes, there are too many or too few values, a value cannot be escaped, or the text is too large.
With `nowhere` there is no place left for a value. -/
inductive SqlError where
  | oddQuotes
  | notQuoted
  | tooMany
  | cannotEscape
  | tooLarge
  | nowhere
  | tooFew
  deriving DecidableEq

/-- A statement that is made: the number of placeholders still without a value, the memory for the
text, and the text before the place from which the next one is searched, and after it. -/
structure Making where
  numOfPercents : Int
  destSize : Int
  done : List UInt8
  rest : List UInt8

/-- A value without the spaces at its ends, first on the right. -/
def trimValue (val : List UInt8) : List UInt8 := (val.rdropWhile isspace).dropWhile isspace

/-- A value is put in the place of the next placeholder; one that is `NULL` is passed over. -/
def putArg (escape : List UInt8 → Option (List UInt8)) (m : Making) :
    Option CString → Except SqlError Making
  | none => .ok m
  | some currInput =>
    if m.numOfPercents - 1 < 0 then .error .tooMany
    else
      match escape currInput.bytes with
      | none => .error .cannotEscape
      | some val =>
        let destSize := m.destSize + ((val.rdropWhile isspace).length + 1)
        let r := velyReplaceString m.rest (destSize - 1 - (m.done.length + 1)) percentS
          (trimValue val) false
        if !r.ok then .error .tooLarge
        else if !r.found then .error .nowhere
        else .ok ⟨m.numOfPercents - 1, destSize, m.done ++ r.done, r.rest⟩

/-- The values are put in one after the other. -/
def putArgs (escape : List UInt8 → Option (List UInt8)) :
    List (Option CString) → Making → Except SqlError Making
  | [], m => .ok m
  | arg :: args, m => do
    let m ← putArg escape m arg
    putArgs escape args m

/-- The format is copied, and is searched from its start. -/
def Making.start (format : CString) : Making :=
  ⟨velyCountSubstring format.bytes percentS true, format.length + 1, [], format.bytes⟩

/-- `vely_make_SQL`, with what escapes the values. -/
def velyMakeSQL (escape : List UInt8 → Option (List UInt8)) (args : List (Option CString))
    (format : CString) : Except SqlError (List UInt8) := do
  if velyCountSubstring format.bytes [39] true % 2 ≠ 0 then .error .oddQuotes
  else if velyCountSubstring format.bytes quotedS true
      ≠ velyCountSubstring format.bytes percentS true then
    .error .notQuoted
  else
    let m ← putArgs escape args (.start format)
    if m.numOfPercents ≠ 0 then .error .tooFew
    else .ok (m.done ++ m.rest)

/-- The formats that are accepted. -/
def Accepted (format : CString) : Prop :=
  velyCountSubstring format.bytes [39] true % 2 = 0 ∧
    velyCountSubstring format.bytes quotedS true = velyCountSubstring format.bytes percentS true

instance (format : CString) : Decidable (Accepted format) := inferInstanceAs (Decidable (_ ∧ _))

/-- The parts of a format between its placeholders, their quotes left out. -/
def parts (format : CString) : List (List UInt8) := Substr.pieces quotedS format.bytes

/-- The text with the values in the first placeholders between its parts. -/
def fill : List (List UInt8) → List (List UInt8) → List UInt8
  | [], _ => []
  | [a], _ => a
  | a :: b :: as, [] => a ++ 39 :: percentS ++ 39 :: fill (b :: as) []
  | a :: b :: as, v :: vs => a ++ 39 :: v ++ 39 :: fill (b :: as) vs

/-- The texts that are put in the place of the values that are not `NULL`. -/
def texts (escape : List UInt8 → Option (List UInt8)) : List (Option CString) → Option (List (List UInt8))
  | [] => some []
  | none :: args => texts escape args
  | some arg :: args =>
    match escape arg.bytes, texts escape args with
    | some val, some vals => some (trimValue val :: vals)
    | _, _ => none

section Escape

/-- A byte of a value as it is escaped. -/
def escapeByte (b : UInt8) : List UInt8 :=
  if b = 92 then [92, 92] else if b = 39 then [39, 39] else [b]

/-- A byte that is written twice. -/
def twice (c b : UInt8) : List UInt8 := if b = c then [c, c] else [b]

/-- What is searched for is one byte, and its first occurrence ends what has none. -/
theorem search_singleton (c : UInt8) (s : List UInt8) :
  match Substr.search [c] s with
  | some (x, y) => s = x ++ c :: y ∧ x.flatMap (twice c) = x
  | none => s.flatMap (twice c) = s
  := by
  induction s with
  | nil => rfl
  | cons b s ih =>
    rw [Substr.search]
    by_cases hb : b = c
    · subst hb
      rw [if_pos (by simp)]
      constructor
      · rfl
      · rfl
    · have hbc : twice c b = [b] := if_neg hb
      rw [if_neg (by rw [List.cons_prefix_cons]; simp [Ne.symm hb])]
      cases hs : Substr.search [c] s with
      | none =>
        rw [hs] at ih
        simp only [Option.map_none, List.flatMap_cons, hbc, ih]
        rfl
      | some p =>
        rw [hs] at ih
        simp only [Option.map_some, List.flatMap_cons, hbc, ih.2]
        constructor
        · rw [ih.1]
          rfl
        · rfl

theorem length_le_flatMap_twice (c : UInt8) (s : List UInt8) :
  s.length ≤ (s.flatMap (twice c)).length
  := by
  induction s with
  | nil => exact le_rfl
  | cons b s ih =>
    have hpos : 1 ≤ (twice c b).length := by
      rw [twice]
      split
      · simp
      · simp
    rw [List.flatMap_cons, List.length_append, List.length_cons]
    omega

/-- With room for it, each of the bytes is written twice. -/
theorem replaceFrom_twice {strsize : Int} {c : UInt8} {n : Nat} {r : Replaced} (hok : r.ok = true)
    (hn : r.rest.length ≤ n)
    (hsize : (r.done.length + (r.rest.flatMap (twice c)).length + 1 : Int) ≤ strsize) :
  (replaceFrom strsize [c] [c, c] true n r).ok = true ∧
    (replaceFrom strsize [c] [c, c] true n r).text = r.done ++ r.rest.flatMap (twice c)
  := by
  induction n generalizing r with
  | zero =>
    rw [replaceFrom, Replaced.text, List.length_eq_zero_iff.mp (Nat.le_zero.mp hn)]
    exact ⟨hok, rfl⟩
  | succ n ih =>
    have hspec := search_singleton c r.rest
    rw [replaceFrom]
    cases hs : Substr.search [c] r.rest with
    | none =>
      rw [hs] at hspec
      constructor
      · exact hok
      · rw [hspec]
        rfl
    | some p =>
      obtain ⟨x, y⟩ := p
      rw [hs] at hspec
      obtain ⟨hrest, hx⟩ := hspec
      have hflat : r.rest.flatMap (twice c) = x ++ [c, c] ++ y.flatMap (twice c) := by
        rw [hrest, List.flatMap_append, hx, List.flatMap_cons, twice, if_pos rfl, List.append_assoc]
      have hy := length_le_flatMap_twice c y
      have hlength := congrArg List.length hrest
      rw [hflat] at hsize ⊢
      simp only [List.length_append, List.length_cons, List.length_nil] at hsize hlength
      have hroom : ¬ strsize < r.text.length + 1 - [c].length + [c, c].length := by
        simp only [Replaced.text, List.length_append, List.length_cons, List.length_nil]
        omega
      simp only [if_neg hroom, if_true]
      obtain ⟨hok', htext⟩ := @ih ⟨true, true, r.done ++ x ++ [c, c], y⟩ rfl
        (by simp only; omega)
        (by
          simp only [List.length_append, List.length_cons, List.length_nil]
          omega)
      constructor
      · exact hok'
      · rw [htext]
        simp

theorem flatMap_twice (s : List UInt8) :
  (s.flatMap (twice 92)).flatMap (twice 39) = s.flatMap escapeByte
  := by
  rw [List.flatMap_assoc]
  apply List.flatMap_congr
  intro b _
  rw [twice, escapeByte]
  split
  · rfl
  · rw [List.flatMap_singleton]
    rfl

/-- Escaping at most doubles the length. -/
theorem length_flatMap_escapeByte_le (s : List UInt8) :
  (s.flatMap escapeByte).length ≤ 2 * s.length
  := by
  induction s with
  | nil => exact le_rfl
  | cons b s ih =>
    have hb : (escapeByte b).length ≤ 2 := by
      rw [escapeByte]
      split
      · exact le_rfl
      · split
        · exact le_rfl
        · simp
    rw [List.flatMap_cons, List.length_append, List.length_cons]
    omega

/-- Escaping always succeeds, and writes backslashes and quotes twice. -/
theorem velyLiteEscape_eq (str : List UInt8) :
  velyLiteEscape str = some (str.flatMap escapeByte)
  := by
  have hle := length_flatMap_escapeByte_le str
  rw [← flatMap_twice] at hle ⊢
  have hmiddle := length_le_flatMap_twice 39 (str.flatMap (twice 92))
  obtain ⟨hok, htext⟩ := @replaceFrom_twice (2 * str.length + 1) 92 str.length
    ⟨true, false, [], str⟩ rfl le_rfl (by simp only [List.length_nil]; omega)
  rw [List.nil_append] at htext
  obtain ⟨hok', htext'⟩ := @replaceFrom_twice (2 * str.length + 1) 39
    (str.flatMap (twice 92)).length ⟨true, false, [], str.flatMap (twice 92)⟩ rfl le_rfl
    (by simp only [List.length_nil]; omega)
  simp only [velyLiteEscape, velyReplaceString, hok, if_true, htext, hok', htext', List.nil_append]

end Escape

section Make

variable {escape : List UInt8 → Option (List UInt8)} {format : CString}

theorem velyCountSubstring_of_ne_nil {str find : List UInt8} (h : find ≠ []) :
  velyCountSubstring str find true = Substr.count find str
  := by
  rw [velyCountSubstring, if_neg h, if_pos rfl]

/-- The text is the parts of the format with the placeholders between them. -/
theorem fill_pieces (s : List UInt8) :
  fill (Substr.pieces quotedS s) [] = s
  := by
  induction hn : s.length using Nat.strong_induction_on generalizing s with
  | _ n ih =>
    cases h : Substr.search quotedS s with
    | none =>
      rw [Substr.pieces_of_none (by decide) h]
      rfl
    | some p =>
      obtain ⟨x, y⟩ := p
      have hlt := Substr.length_of_search (by decide) h
      have hs := Substr.eq_of_search h
      rw [Substr.pieces_of_some (by decide) h]
      cases hy : Substr.pieces quotedS y with
      | nil => exact absurd hy Substr.pieces_ne_nil
      | cons b as =>
        rw [fill, ← hy, ih y.length (by omega) y rfl, hs]
        simp [quotedS]

/-- The placeholders in a text are those between its parts and those in them. -/
theorem count_fill {b : List UInt8} {as : List (List UInt8)} :
  Substr.count percentS (fill (b :: as) [])
    = ((b :: as).map (Substr.count percentS)).sum + as.length
  := by
  induction as generalizing b with
  | nil => simp [fill]
  | cons a as ih =>
    have hp : Substr.count percentS percentS = 1 := by decide
    rw [fill, List.append_assoc, List.cons_append, Substr.count_append_cons (by decide) (by decide),
      Substr.count_append_cons (by decide) (by decide), ih, hp]
    simp only [List.map_cons, List.sum_cons, List.length_cons]
    omega

/-- Where all placeholders are in quotes, none is in a part. -/
theorem Accepted.search_part (h : Accepted format) :
  ∀ a ∈ parts format, Substr.search percentS a = none
  := by
  have hcount := h.2
  rw [velyCountSubstring_of_ne_nil (by decide), velyCountSubstring_of_ne_nil (by decide)] at hcount
  cases hparts : parts format with
  | nil => exact absurd hparts Substr.pieces_ne_nil
  | cons b as =>
    have hsum := @count_fill b as
    rw [← hparts, parts, fill_pieces, ← hcount, Substr.count, ← parts, hparts, List.length_cons,
      Nat.add_sub_cancel] at hsum
    have hzero : ((b :: as).map (Substr.count percentS)).sum = 0 := by omega
    intro a ha
    rw [Substr.search_eq_none_iff_count (by decide)]
    rw [List.sum_eq_zero_iff_forall_eq_nat] at hzero
    apply hzero
    apply List.mem_map_of_mem ha

/-- The next placeholder is after a part and a quote. -/
theorem search_part {a z : List UInt8} (ha : Substr.search percentS a = none) :
  Substr.search percentS (a ++ 39 :: percentS ++ 39 :: z) = some (a ++ [39], 39 :: z)
  := by
  have hp : Substr.search percentS percentS = some ([], []) := by decide
  rw [List.append_assoc, List.cons_append, Substr.search_append_cons (by decide) (by decide), ha]
  simp only
  rw [Substr.search_append_cons (by decide) (by decide), hp]
  rfl

/-- With room for it, the first occurrence is replaced. -/
theorem velyReplaceString_once {str find subst x y : List UInt8} {strsize : Int}
    (h : Substr.search find str = some (x, y))
    (hroom : (str.length + 1 - find.length + subst.length : Int) ≤ strsize) :
  velyReplaceString str strsize find subst false = ⟨true, true, x ++ subst, y⟩
  := by
  cases str with
  | nil => cases h
  | cons a s =>
    simp only [velyReplaceString, List.length_cons, replaceFrom, h, Replaced.text, List.nil_append]
    simp only [List.length_cons] at hroom
    rw [if_neg (by omega), if_neg (by simp)]

/-- What is to be read in while the values are put in: `lead` is the quote that closes the
placeholder before, if there is one, `as` are the parts that are left, and the text fits in its
memory. -/
structure Filling (as : List (List UInt8)) (lead : List UInt8) (m : Making) : Prop where
  ne_nil : as ≠ []
  search_lead : ∀ a ∈ as.head?, Substr.search percentS (lead ++ a) = none
  search : ∀ a ∈ as, Substr.search percentS a = none
  rest : m.rest = lead ++ fill as []
  numOfPercents : m.numOfPercents = as.length - 1
  size : (m.done.length + m.rest.length + 1 : Int) ≤ m.destSize

/-- A value that is trimmed is no longer than what is trimmed only on the right. -/
theorem length_trimValue_le (val : List UInt8) :
  (trimValue val).length ≤ (val.rdropWhile isspace).length
  := (List.dropWhile_sublist isspace).length_le

/-- A value is put in the next placeholder, if there is one. -/
theorem Filling.putArg {a : List UInt8} {as : List (List UInt8)} {lead val : List UInt8} {m : Making}
    {arg : CString} (h : Filling (a :: as) lead m) (hval : escape arg.bytes = some val) :
  match as with
  | [] => putArg escape m (some arg) = .error .tooMany
  | b :: as => ∃ m', putArg escape m (some arg) = .ok m' ∧ Filling (b :: as) [39] m' ∧
      m'.done = m.done ++ lead ++ a ++ 39 :: trimValue val
  := by
  cases as with
  | nil =>
    have hnum := h.numOfPercents
    simp only [List.length_cons, List.length_nil] at hnum
    simp only [Vely.putArg]
    rw [if_pos (by omega)]
  | cons b as =>
    have hnum := h.numOfPercents
    have hsize := h.size
    have htrim := length_trimValue_le val
    have hrest : m.rest = (lead ++ a) ++ 39 :: percentS ++ 39 :: fill (b :: as) [] := by
      rw [h.rest, fill]
      simp
    have hsearch : Substr.search percentS m.rest
        = some (lead ++ a ++ [39], 39 :: fill (b :: as) []) := by
      rw [hrest]
      apply search_part (h.search_lead a rfl)
    simp only [List.length_cons] at hnum
    simp only [Vely.putArg, hval]
    have hroom : (m.rest.length + 1 - percentS.length + (trimValue val).length : Int)
        ≤ m.destSize + ((val.rdropWhile isspace).length + 1) - 1 - (m.done.length + 1) := by
      simp only [percentS, List.length_cons, List.length_nil]
      omega
    rw [if_neg (by omega), velyReplaceString_once hsearch hroom]
    refine ⟨_, rfl, ⟨by simp, ?_, ?_, rfl, ?_, ?_⟩, ?_⟩
    · intro c hc
      cases hc
      have hnil : Substr.search percentS [] = none := rfl
      rw [List.singleton_append, ← List.nil_append (39 :: _),
        Substr.search_append_cons (by decide) (by decide), hnil, h.search _ (by simp)]
      rfl
    · intro c hc
      apply h.search c (List.mem_cons_of_mem a hc)
    · simp only [List.length_cons]
      omega
    · rw [hrest] at hsize
      simp only [List.length_append, List.length_cons, List.length_nil, percentS] at hsize ⊢
      omega
    · simp

/-- The values are put in the first placeholders, as long as there are placeholders. -/
theorem Filling.putArgs_iff {as : List (List UInt8)} {lead t : List UInt8} {m : Making} {n : Int}
    {args : List (Option CString)} (h : Filling as lead m) :
  (∃ m', putArgs escape args m = .ok m' ∧ m'.numOfPercents = n ∧ m'.done ++ m'.rest = t)
    ↔ ∃ vals, texts escape args = some vals ∧ vals.length + n + 1 = as.length ∧ 0 ≤ n ∧
        t = m.done ++ lead ++ fill as vals
  := by
  induction args generalizing as lead m with
  | nil =>
    have hnum := h.numOfPercents
    have hpos := List.length_pos_of_ne_nil h.ne_nil
    simp only [putArgs, texts, Except.ok.injEq, exists_eq_left', Option.some.injEq, h.rest,
      List.length_nil]
    constructor
    · rintro ⟨rfl, rfl⟩
      refine ⟨by omega, by omega, by simp⟩
    · rintro ⟨hn, -, rfl⟩
      exact ⟨by omega, by simp⟩
  | cons arg args ih =>
    cases arg with
    | none =>
      have hput : putArgs escape (none :: args) m = putArgs escape args m := rfl
      rw [hput, texts, ih h]
    | some arg =>
      cases hval : escape arg.bytes with
      | none =>
        simp only [texts, hval]
        constructor
        · rintro ⟨m', hm', -⟩
          have hfails : ∃ e, Vely.putArg escape m (some arg) = .error e := by
            simp only [Vely.putArg, hval]
            split
            · exact ⟨_, rfl⟩
            · exact ⟨_, rfl⟩
          obtain ⟨e, he⟩ := hfails
          rw [putArgs, he] at hm'
          cases hm'
        · rintro ⟨vals, hvals, -⟩
          cases hvals
      | some val =>
        cases as with
        | nil => exact absurd rfl h.ne_nil
        | cons a as =>
          have hput := h.putArg hval
          cases as with
          | nil =>
            simp only at hput
            constructor
            · rintro ⟨m', hm', -⟩
              rw [putArgs, hput] at hm'
              cases hm'
            · rintro ⟨vals, hvals, hlength, hn, -⟩
              simp only [texts, hval] at hvals
              split at hvals
              · cases hvals
                simp only [List.length_cons, List.length_nil] at hlength
                omega
              · cases hvals
          | cons b as =>
            obtain ⟨m', hm', hfilling, hdone⟩ := hput
            have hrec : putArgs escape (some arg :: args) m = putArgs escape args m' := by
              rw [putArgs, hm']
              rfl
            rw [hrec, ih hfilling, texts, hval]
            cases hvals : texts escape args with
            | none => simp
            | some vals =>
              simp only [Option.some.injEq, exists_eq_left', List.length_cons, hdone]
              constructor
              · rintro ⟨hlength, hn, rfl⟩
                refine ⟨by omega, hn, ?_⟩
                simp [fill]
              · rintro ⟨hlength, hn, rfl⟩
                refine ⟨by omega, hn, ?_⟩
                simp [fill]

/-- An accepted format starts with its first part. -/
theorem Accepted.filling (h : Accepted format) :
  Filling (parts format) [] (.start format)
  := by
  have hpos := List.length_pos_of_ne_nil (@Substr.pieces_ne_nil _ _ quotedS format.bytes)
  have hcount := h.2
  rw [velyCountSubstring_of_ne_nil (by decide)] at hcount
  constructor
  · apply Substr.pieces_ne_nil
  · intro a ha
    apply h.search_part a (List.mem_of_mem_head? ha)
  · apply h.search_part
  · exact (fill_pieces _).symm
  · simp only [Making.start, ← hcount, Substr.count, parts]
    omega
  · simp [Making.start, CString.length]

/-- The text that is made is the format with the values, escaped and trimmed, in the place of its
placeholders; it is made for accepted formats and as many values as there are placeholders. -/
theorem velyMakeSQL_eq_ok_iff {args : List (Option CString)} {sql : List UInt8} :
  velyMakeSQL escape args format = .ok sql ↔
    Accepted format ∧ ∃ vals, texts escape args = some vals ∧
      vals.length + 1 = (parts format).length ∧ sql = fill (parts format) vals
  := by
  rw [velyMakeSQL]
  by_cases hodd : velyCountSubstring format.bytes [39] true % 2 = 0
  · by_cases hcount : velyCountSubstring format.bytes quotedS true
        = velyCountSubstring format.bytes percentS true
    · have haccepted : Accepted format := ⟨hodd, hcount⟩
      have hiff := @Filling.putArgs_iff escape _ _ sql _ 0 args haccepted.filling
      rw [if_neg (not_not.mpr hodd), if_neg (not_not.mpr hcount)]
      simp only [haccepted, true_and]
      simp only [le_refl, true_and, List.append_nil, Making.start, List.nil_append] at hiff
      have hcast : ∀ vals : List (List UInt8), (vals.length + 0 + 1 : Int) = (parts format).length
          ↔ vals.length + 1 = (parts format).length := by
        intro vals
        omega
      simp only [hcast] at hiff
      rw [← hiff]
      rw [← Making.start]
      cases hargs : putArgs escape args (.start format) with
      | error e =>
        simp only [reduceCtorEq, false_and, exists_false, iff_false]
        intro h
        cases h
      | ok m =>
        simp only [Except.ok.injEq, exists_eq_left']
        by_cases hleft : m.numOfPercents = 0
        · simp [hleft, bind, Except.bind]
        · simp [hleft, bind, Except.bind]
    · rw [if_neg (not_not.mpr hodd), if_pos hcount]
      simp [Accepted, hcount]
  · rw [if_pos hodd]
    simp [Accepted, hodd]

end Make

end Vely
