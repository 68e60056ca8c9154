import Vely.Db.Text
import Vely.Lib.Block
import Vely.Lib.Run

/-!
# The memory of SQL statements

The text of a statement is made in one block, which is moved to a larger one for every value.  The
end of the text is moved, and the value is copied in the place of its placeholder.
-/

namespace Vely

/-! ### Replacing in a block -/

/-- A block in which replacing went on: whether there was room, and the place from which it is
searched next, if anything was replaced. -/
structure ReplacedIn where
  ok : Bool
  block : Block
  last : Option Nat

/-- The loop of `vely_replace_string` for the string at `str` of a block, which has `len` bytes and
needs `currsize` with its terminator; it is searched from `curr` on. -/
def replaceInFrom (strsize : Int) (find subst : List UInt8) (all : Bool) (str : Nat) :
    Nat → Block → Nat → Nat → Int → Option Nat → Except Stop ReplacedIn
  | 0, _, _, _, _, _ => .error .fault
  | n + 1, b, curr, len, currsize, last => do
    let s ← b.string curr
    match Substr.search find s.bytes with
    | none => return ⟨true, b, last⟩
    | some (x, _) =>
      let f := curr + x.length
      let currsize := currsize - find.length + subst.length
      if strsize < currsize then return ⟨false, b, last⟩
      else do
        let b ← b.move (f + subst.length) (f + find.length) (len - (f - str + find.length) + 1)
        let b ← b.putAll f subst
        let curr := f + subst.length
        if all then
          replaceInFrom strsize find subst all str n b curr (len - find.length + subst.length)
            currsize (some curr)
        else return ⟨true, b, some curr⟩

/-- `vely_replace_string` for the string at `str` of a block, where the case of letters matters. -/
def velyReplaceStringIn (b : Block) (str : Nat) (strsize : Int) (find subst : List UInt8)
    (all : Bool) : Except Stop ReplacedIn := do
  let s ← b.string str
  replaceInFrom strsize find subst all str (s.length + 1) b str s.length (s.length + 1) none

/-! ### Making a statement in a block -/

/-- A statement that is made: the number of placeholders still without a value, the block and its
size, and the place from which the next placeholder is searched. -/
structure MakingIn where
  numOfPercents : Int
  destSize : Nat
  dest : Block
  curr : Nat

/-- A value is put in the place of the next placeholder.  It is escaped in a block that has room for
twice its bytes and a terminator. -/
def putArgIn (escape : List UInt8 → Option (List UInt8)) (m : MakingIn) :
    Option CString → Except Stop (Except SqlError MakingIn)
  | none => .ok (.ok m)
  | some currInput =>
    if m.numOfPercents - 1 < 0 then .ok (.error .tooMany)
    else
      match escape currInput.bytes with
      | none => .ok (.error .cannotEscape)
      | some val =>
        if 2 * currInput.length + 1 < val.length + 1 then .error .fault
        else do
          let destSize := m.destSize + ((val.rdropWhile isspace).length + 1)
          let dest := m.dest.realloc destSize
          let r ← velyReplaceStringIn dest m.curr (destSize - 1 - (m.curr + 1)) percentS
            (trimValue val) false
          if !r.ok then return .error .tooLarge
          else
            match r.last with
            | none => return .error .nowhere
            | some curr => return .ok ⟨m.numOfPercents - 1, destSize, r.block, curr⟩

/-- The values are put in one after the other. -/
def putArgsIn (escape : List UInt8 → Option (List UInt8)) :
    List (Option CString) → MakingIn → Except Stop (Except SqlError MakingIn)
  | [], m => .ok (.ok m)
  | arg :: args, m => do
    match ← putArgIn escape m arg with
    | .error e => return .error e
    | .ok m => putArgsIn escape args m

/-- The format is copied to a block. -/
def MakingIn.start (format : CString) : MakingIn :=
  ⟨velyCountSubstring format.bytes percentS true, format.length + 1,
    ⟨format.block.map some⟩, 0⟩

/-- `vely_make_SQL`, in its memory. -/
def velyMakeSQLIn (escape : List UInt8 → Option (List UInt8)) (args : List (Option CString))
    (format : CString) : Except Stop (Except SqlError Block) :=
  if velyCountSubstring format.bytes [39] true % 2 ≠ 0 then .ok (.error .oddQuotes)
  else if velyCountSubstring format.bytes quotedS true
      ≠ velyCountSubstring format.bytes percentS true then
    .ok (.error .notQuoted)
  else do
    match ← putArgsIn escape args (.start format) with
    | .error e => return .error e
    | .ok m => if m.numOfPercents ≠ 0 then return .error .tooFew else return .ok m.dest

/-! ### One replacement -/

/-- What is found in the string of a block is replaced there, when there are cells for it. -/
theorem velyReplaceStringIn_once {b : Block} {l r : List (Option UInt8)} {s : CString}
    {find subst x y : List UInt8} {strsize : Int}
    (hcells : b.cells = l ++ (s.bytes.map some ++ some 0 :: r))
    (hsearch : Substr.search find s.bytes = some (x, y))
    (hroom : (s.length + 1 - find.length + subst.length : Int) ≤ strsize)
    (hfit : l.length + s.length + subst.length + 1 ≤ b.cells.length + find.length) :
  ∃ b' r', velyReplaceStringIn b l.length strsize find subst false
      = .ok ⟨true, b', some (l.length + x.length + subst.length)⟩
    ∧ b'.cells = l ++ ((x ++ subst ++ y).map some ++ some 0 :: r')
    ∧ b'.cells.length = b.cells.length
  := by
  have hs := Substr.eq_of_search hsearch
  have hlength : s.length = x.length + find.length + y.length := by
    rw [CString.length, hs, List.length_append, List.length_append]
  have hparts : b.cells = l ++ ((x ++ find ++ y).map some ++ some 0 :: r) := by
    rw [hcells, hs]
  obtain ⟨b₁, b₂, r', hmove, hput, hcells', hlen⟩ :=
    @Block.splice b l r x find y subst hparts (by omega)
  have hlast : s.length - (l.length + x.length - l.length + find.length) + 1 = y.length + 1 := by
    omega
  refine ⟨b₂, r', ?_, hcells', hlen⟩
  rw [velyReplaceStringIn, Block.string_of_cells s hcells rfl, ok_bind, replaceInFrom,
    Block.string_of_cells s hcells rfl, ok_bind, hsearch]
  simp only
  rw [if_neg (by omega), hlast, hmove, ok_bind, hput, ok_bind, if_neg (by simp)]
  rfl

/-- Nothing is replaced where nothing is found. -/
theorem velyReplaceStringIn_none {b : Block} {l r : List (Option UInt8)} {s : CString}
    {find subst : List UInt8} {strsize : Int}
    (hcells : b.cells = l ++ (s.bytes.map some ++ some 0 :: r))
    (hsearch : Substr.search find s.bytes = none) :
  velyReplaceStringIn b l.length strsize find subst false = .ok ⟨true, b, none⟩
  := by
  rw [velyReplaceStringIn, Block.string_of_cells s hcells rfl, ok_bind, replaceInFrom,
    Block.string_of_cells s hcells rfl, ok_bind, hsearch]
  rfl

/-- Nothing is replaced where there is no room. -/
theorem velyReplaceStringIn_full {b : Block} {l r : List (Option UInt8)} {s : CString}
    {find subst x y : List UInt8} {strsize : Int}
    (hcells : b.cells = l ++ (s.bytes.map some ++ some 0 :: r))
    (hsearch : Substr.search find s.bytes = some (x, y))
    (hroom : strsize < (s.length + 1 - find.length + subst.length : Int)) :
  velyReplaceStringIn b l.length strsize find subst false = .ok ⟨false, b, none⟩
  := by
  rw [velyReplaceStringIn, Block.string_of_cells s hcells rfl, ok_bind, replaceInFrom,
    Block.string_of_cells s hcells rfl, ok_bind, hsearch]
  simp only
  rw [if_pos hroom]
  rfl

theorem velyReplaceString_none {str find subst : List UInt8} {strsize : Int}
    (h : Substr.search find str = none) :
  velyReplaceString str strsize find subst false = ⟨true, false, [], str⟩
  := by
  cases str with
  | nil => rfl
  | cons a s => simp only [velyReplaceString, List.length_cons, replaceFrom, h]

theorem velyReplaceString_full {str find subst x y : List UInt8} {strsize : Int}
    (h : Substr.search find str = some (x, y))
    (hroom : strsize < (str.length + 1 - find.length + subst.length : Int)) :
  velyReplaceString str strsize find subst false = ⟨false, false, [], str⟩
  := by
  cases str with
  | nil => cases h
  | cons a s =>
    simp only [velyReplaceString, List.length_cons, replaceFrom, h, Replaced.text, List.nil_append]
    simp only [List.length_cons] at hroom
    rw [if_pos hroom]

/-! ### The block holds the text -/

/-- A block holds the text of a statement with a terminator, and goes on behind it. -/
structure HoldsText (m : Making) (b : MakingIn) : Prop where
  numOfPercents : b.numOfPercents = m.numOfPercents
  destSize : (b.destSize : Int) = m.destSize
  size : b.dest.cells.length = b.destSize
  curr : b.curr = m.done.length
  cells : ∃ r, b.dest.cells = m.done.map some ++ (m.rest.map some ++ some 0 :: r)
  nonzero : 0 ∉ m.done ++ m.rest

/-- An escaped value has at most two bytes for every byte of the value, and no terminator. -/
def EscapesTwice (escape : List UInt8 → Option (List UInt8)) : Prop :=
  ∀ (s : CString) (val : List UInt8), escape s.bytes = some val →
    val.length ≤ 2 * s.length ∧ 0 ∉ val

section HoldsText

variable {escape : List UInt8 → Option (List UInt8)} {m m' : Making} {b : MakingIn}

theorem holds_start (format : CString) :
  HoldsText (.start format) (.start format)
  := by
  constructor
  · rfl
  · simp [Making.start, MakingIn.start]
  · simp [MakingIn.start, CString.block, CString.length]
  · rfl
  · exact ⟨[], by simp [Making.start, MakingIn.start, CString.block]⟩
  · exact format.nonzero

theorem mem_of_mem_trimValue {val : List UInt8} {c : UInt8} (h : c ∈ trimValue val) :
  c ∈ val
  := by
  have hdrop : trimValue val <:+ val.rdropWhile isspace := List.dropWhile_suffix _
  exact (List.rdropWhile_prefix isspace val).subset (hdrop.subset h)

/-- A value is put in the block as it is put in the text. -/
theorem HoldsText.putArg (h : HoldsText m b) (hescape : EscapesTwice escape) (arg : Option CString) :
  match putArg escape m arg with
  | .error e => putArgIn escape b arg = .ok (.error e)
  | .ok m' => ∃ b', putArgIn escape b arg = .ok (.ok b') ∧ HoldsText m' b'
  := by
  cases arg with
  | none => exact ⟨b, rfl, h⟩
  | some currInput =>
    simp only [Vely.putArg, putArgIn, h.numOfPercents]
    by_cases hnum : m.numOfPercents - 1 < 0
    · rw [if_pos hnum, if_pos hnum]
    · rw [if_neg hnum, if_neg hnum]
      cases hval : escape currInput.bytes with
      | none => rfl
      | some val =>
        obtain ⟨hle, hzero⟩ := hescape currInput val hval
        have hroom : ¬ 2 * currInput.length + 1 < val.length + 1 := by omega
        simp only
        rw [if_neg hroom]
        obtain ⟨r, hcells⟩ := h.cells
        have hrest : 0 ∉ m.rest := fun hmem => h.nonzero (List.mem_append_right _ hmem)
        -- the block with room for the value
        have hsize := h.size
        have hdest := h.destSize
        obtain ⟨n, hn⟩ : ∃ n, n = b.destSize + ((val.rdropWhile isspace).length + 1) := ⟨_, rfl⟩
        obtain ⟨strsize, hstrsize⟩ : ∃ k : Int, k = (n : Int) - 1 - (m.done.length + 1) := ⟨_, rfl⟩
        have hrealloc : (b.dest.realloc n).cells = m.done.map some
            ++ (m.rest.map some ++ some 0 :: (r ++ List.replicate (n - b.destSize) none)) := by
          rw [Block.realloc, List.take_of_length_le (by omega), hsize, hcells]
          simp
        have hlength : (b.dest.realloc n).cells.length = n := by
          simp only [Block.realloc, List.length_append, List.length_take, List.length_replicate]
          omega
        have hstr : m.destSize + ((val.rdropWhile isspace).length + 1) - 1 - (m.done.length + 1)
            = strsize := by
          omega
        have hcurr : b.curr = (m.done.map some).length := by
          rw [h.curr, List.length_map]
        rw [hstr, ← hn, h.curr, ← hstrsize]
        cases hsearch : Substr.search percentS m.rest with
        | none =>
          have hblock := @velyReplaceStringIn_none (b.dest.realloc n) _ _ ⟨m.rest, hrest⟩ percentS
            (trimValue val) strsize hrealloc hsearch
          rw [List.length_map] at hblock
          rw [velyReplaceString_none hsearch, hblock]
          rfl
        | some p =>
          obtain ⟨x, y⟩ := p
          by_cases hfull : strsize < (m.rest.length + 1 - percentS.length + (trimValue val).length : Int)
          · have hblock := @velyReplaceStringIn_full (b.dest.realloc n) _ _ ⟨m.rest, hrest⟩ percentS
              (trimValue val) x y strsize hrealloc hsearch hfull
            rw [List.length_map] at hblock
            rw [velyReplaceString_full hsearch hfull, hblock]
            rfl
          · have hpercent : percentS.length = 2 := rfl
            have hx := Substr.eq_of_search hsearch
            obtain ⟨b', r', hblock, hcells', hlength'⟩ :=
              @velyReplaceStringIn_once (b.dest.realloc n) _ _ ⟨m.rest, hrest⟩ percentS
                (trimValue val) x y strsize hrealloc hsearch (not_lt.mp hfull)
                (by
                  rw [List.length_map, hlength]
                  change m.done.length + m.rest.length + (trimValue val).length + 1 ≤ n + 2
                  omega)
            rw [List.length_map] at hblock
            rw [velyReplaceString_once hsearch (not_lt.mp hfull), hblock]
            refine ⟨⟨m.numOfPercents - 1, n, b', m.done.length + x.length + (trimValue val).length⟩,
              rfl, ?_⟩
            constructor
            · rfl
            · change (n : Int) = m.destSize + ((val.rdropWhile isspace).length + 1)
              omega
            · rw [hlength', hlength]
            · simp only [List.length_append]
              omega
            · use r'
              rw [hcells']
              simp
            · intro hmem
              simp only [List.mem_append] at hmem
              rcases hmem with (hmem | hmem | hmem) | hmem
              · exact h.nonzero (List.mem_append_left _ hmem)
              · apply hrest
                rw [hx]
                simp [hmem]
              · exact hzero (mem_of_mem_trimValue hmem)
              · apply hrest
                rw [hx]
                simp [hmem]

/-- The values are put in the block as they are put in the text. -/
theorem HoldsText.putArgs (h : HoldsText m b) (hescape : EscapesTwice escape) (args : List (Option CString)) :
  match putArgs escape args m with
  | .error e => putArgsIn escape args b = .ok (.error e)
  | .ok m' => ∃ b', putArgsIn escape args b = .ok (.ok b') ∧ HoldsText m' b'
  := by
  induction args generalizing m b with
  | nil => exact ⟨b, rfl, h⟩
  | cons arg args ih =>
    have hstep := h.putArg hescape arg
    rw [Vely.putArgs, putArgsIn]
    cases harg : Vely.putArg escape m arg with
    | error e =>
      rw [harg] at hstep
      simp only at hstep
      rw [hstep]
      rfl
    | ok m₁ =>
      rw [harg] at hstep
      obtain ⟨b₁, hb₁, h₁⟩ := hstep
      rw [hb₁]
      exact ih h₁

/-- What is in front of the text that is searched next stays as it is, and ends with the value that
was put in. -/
theorem done_putArg {arg : CString} (h : Vely.putArg escape m (some arg) = .ok m') :
  ∃ val x, escape arg.bytes = some val ∧ m'.done = m.done ++ x ++ trimValue val
  := by
  simp only [Vely.putArg] at h
  split at h
  · cases h
  · cases hval : escape arg.bytes with
    | none =>
      rw [hval] at h
      cases h
    | some val =>
      rw [hval] at h
      simp only at h
      cases hsearch : Substr.search percentS m.rest with
      | none =>
        rw [velyReplaceString_none hsearch] at h
        cases h
      | some p =>
        obtain ⟨x, y⟩ := p
        refine ⟨val, x, rfl, ?_⟩
        obtain ⟨strsize, hstrsize⟩ : ∃ k : Int, k = m.destSize
            + ((val.rdropWhile isspace).length + 1) - 1 - (m.done.length + 1) := ⟨_, rfl⟩
        rw [← hstrsize] at h
        by_cases hfull : strsize
            < (m.rest.length + 1 - percentS.length + (trimValue val).length : Int)
        · rw [velyReplaceString_full hsearch hfull] at h
          cases h
        · rw [velyReplaceString_once hsearch (not_lt.mp hfull)] at h
          obtain rfl := Except.ok.inj h
          simp

/-- What is in front of the text that is searched next is never changed. -/
theorem done_putArgs {args : List (Option CString)} (h : Vely.putArgs escape args m = .ok m') :
  m.done <+: m'.done
  := by
  induction args generalizing m with
  | nil =>
    obtain rfl := Except.ok.inj h
    exact List.prefix_rfl
  | cons arg args ih =>
    obtain ⟨m₁, hm₁, h⟩ := exists_of_bind h
    apply List.IsPrefix.trans _ (ih h)
    cases arg with
    | none =>
      obtain rfl := Except.ok.inj hm₁
      exact List.prefix_rfl
    | some arg =>
      obtain ⟨val, x, -, hdone⟩ := done_putArg hm₁
      rw [hdone, List.append_assoc]
      exact List.prefix_append _ _

theorem putArgs_append (as bs : List (Option CString)) :
  Vely.putArgs escape (as ++ bs) m = Vely.putArgs escape as m >>= Vely.putArgs escape bs
  := by
  induction as generalizing m with
  | nil => rfl
  | cons a as ih =>
    rw [List.cons_append, Vely.putArgs, Vely.putArgs]
    cases Vely.putArg escape m a with
    | error e => rfl
    | ok m₁ => exact ih

end HoldsText

/-- The values that are not `NULL` are all escaped. -/
theorem texts_some (escape : List UInt8 → List UInt8) (args : List (Option CString)) :
  texts (fun s => some (escape s)) args
    = some (args.reduceOption.map (fun arg => trimValue (escape arg.bytes)))
  := by
  induction args with
  | nil => rfl
  | cons arg args ih =>
    cases arg with
    | none =>
      rw [texts, ih]
      rfl
    | some arg =>
      rw [texts, ih]
      rfl

/-- A format that is accepted, with as many values as placeholders, is made to the text with the
values in the place of the placeholders, in the memory that there is; and what was put in for a
value stays in front of what is searched for the next ones. -/
theorem velyMakeSQLIn_eq {escape : List UInt8 → List UInt8} {format : CString}
    {args : List (Option CString)}
    (hescape : ∀ s : CString, (escape s.bytes).length ≤ 2 * s.length ∧ 0 ∉ escape s.bytes)
    (hformat : Accepted format)
    (hargs : args.reduceOption.length = velyCountSubstring format.bytes percentS true) :
  ∃ dest, velyMakeSQLIn (fun s => some (escape s)) args format = .ok (.ok dest)
    ∧ ∃ sql : CString, dest.string 0 = .ok sql
      ∧ sql.bytes = fill (parts format)
        (args.reduceOption.map (fun arg => trimValue (escape arg.bytes)))
      ∧ ∀ before arg after, args = before ++ some arg :: after →
        ∃ m s, putArgsIn (fun s => some (escape s)) (before ++ [some arg]) (.start format)
            = .ok (.ok m)
          ∧ m.dest.cells.take m.curr = s.map some ∧ trimValue (escape arg.bytes) <:+ s
          ∧ s <+: sql.bytes
  := by
  have htwice : EscapesTwice (fun s => some (escape s)) := by
    intro s val hval
    obtain rfl := Option.some.inj hval
    exact hescape s
  have hparts : args.reduceOption.length + 1 = (parts format).length := by
    have hpos := List.length_pos_of_ne_nil (@Substr.pieces_ne_nil _ _ quotedS format.bytes)
    rw [hargs, ← hformat.2, velyCountSubstring_of_ne_nil (by decide), Substr.count, parts]
    omega
  have hmade := (@velyMakeSQL_eq_ok_iff (fun s => some (escape s)) format args _).mpr
    ⟨hformat, _, texts_some escape args, by rwa [List.length_map], rfl⟩
  rw [velyMakeSQL, if_neg (not_not.mpr hformat.1), if_neg (not_not.mpr hformat.2)] at hmade
  obtain ⟨m, hm, hmade⟩ := exists_of_bind hmade
  have hblock := (holds_start format).putArgs htwice args
  rw [hm] at hblock
  obtain ⟨b, hb, hholds⟩ := hblock
  split at hmade
  · cases hmade
  · next hzero =>
    have hsql := Except.ok.inj hmade
    have hnumber : b.numOfPercents = 0 := by
      rw [hholds.numOfPercents]
      exact not_not.mp hzero
    refine ⟨b.dest, ?_, ⟨m.done ++ m.rest, hholds.nonzero⟩, ?_, hsql, ?_⟩
    · rw [velyMakeSQLIn, if_neg (not_not.mpr hformat.1), if_neg (not_not.mpr hformat.2), hb, ok_bind]
      simp only
      rw [if_neg (not_not.mpr hnumber)]
      rfl
    · obtain ⟨r, hcells⟩ := hholds.cells
      exact @Block.string_of_cells b.dest [] r ⟨m.done ++ m.rest, hholds.nonzero⟩ 0
        (by rw [hcells]; simp) rfl
    · rintro before arg after rfl
      rw [List.append_cons, putArgs_append] at hm
      obtain ⟨m₁, hm₁, hafter⟩ := exists_of_bind hm
      have hblock₁ := (holds_start format).putArgs htwice (before ++ [some arg])
      rw [hm₁] at hblock₁
      obtain ⟨b₁, hb₁, hholds₁⟩ := hblock₁
      refine ⟨b₁, m₁.done, hb₁, ?_, ?_, ?_⟩
      · obtain ⟨r, hcells⟩ := hholds₁.cells
        rw [hcells, hholds₁.curr]
        exact List.take_left' (by rw [List.length_map])
      · rw [putArgs_append] at hm₁
        obtain ⟨m₀, -, hlast⟩ := exists_of_bind hm₁
        obtain ⟨m', hm', hlast⟩ := exists_of_bind hlast
        obtain rfl := Except.ok.inj hlast
        obtain ⟨val, x, hval, hdone⟩ := done_putArg hm'
        obtain rfl := Option.some.inj hval
        rw [hdone]
        exact List.suffix_append _ _
      · exact (done_putArgs hafter).trans (List.prefix_append _ _)

/-- A format with two placeholders. -/
def pairFormat : CString := ⟨ascii "select '%s','%s'", by decide⟩

/-- Two values, one of them with a placeholder and a quote in it, and a `NULL` between them. -/
def pairValues : List (Option CString) :=
  [some ⟨ascii "a%s' ", by decide⟩, none, some ⟨ascii "c", by decide⟩]

/-- The two values, escaped as for SQLite. -/
theorem velyMakeSQLIn_two :
  ∃ dest, velyMakeSQLIn (fun s => some (s.flatMap escapeByte)) pairValues pairFormat
      = .ok (.ok dest)
    ∧ ∃ sql : CString, dest.string 0 = .ok sql ∧ sql.bytes = ascii "select 'a%s''','c'"
  := by
  have hescape : ∀ s : CString, (s.bytes.flatMap escapeByte).length ≤ 2 * s.length
      ∧ 0 ∉ s.bytes.flatMap escapeByte := by
    intro s
    refine ⟨length_flatMap_escapeByte_le s.bytes, ?_⟩
    intro hmem
    obtain ⟨b, hb, hzero⟩ := List.mem_flatMap.mp hmem
    have hne : b ≠ 0 := fun h => s.nonzero (h ▸ hb)
    rw [escapeByte] at hzero
    split at hzero
    · simp at hzero
    · split at hzero
      · simp at hzero
      · exact hne (List.mem_singleton.mp hzero).symm
  have hformat : Accepted pairFormat := by decide +kernel
  have hargs : pairValues.reduceOption.length
      = velyCountSubstring pairFormat.bytes percentS true := by decide +kernel
  obtain ⟨dest, hdest, sql, hsql, hbytes, -⟩ := velyMakeSQLIn_eq hescape hformat hargs
  refine ⟨dest, hdest, sql, hsql, ?_⟩
  rw [hbytes]
  decide +kernel

end Vely
