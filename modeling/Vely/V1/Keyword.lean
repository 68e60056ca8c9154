import Vely.Lib.Ctype
import Vely.Lib.Substring

/-!
# The clauses of a statement

A statement is its name, its object and its clauses.  The preprocessor looks for the keyword of each
clause (`vely_find_keyword0`), and only then cuts the text of the statement at the places found
(`carve_statement`), with zeros written over the keywords.
-/

namespace Vely

namespace V1

/-- An error that is reported about the text of a statement. -/
inductive TextError where
  | unterminated
  | unbalanced
  | noInline
  | semicolon
  | noArguments
  | noTrailingSpace
  | missing
  deriving DecidableEq

/-- The byte at `i`, counting the terminator. -/
def charAt (s : List UInt8) (i : Nat) : UInt8 := s[i]?.getD 0

/-- The quotes and the parentheses that were counted. -/
structure Count where
  quotes : Nat
  left : Nat
  right : Nat
  deriving DecidableEq

/-- Nothing was counted. -/
def Count.zero : Count := ⟨0, 0, 0⟩

/-- `within_string` -/
def Count.within (n : Count) : Bool := n.quotes % 2 = 1

/-- All strings are closed and the parentheses are balanced. -/
def Count.outside (n : Count) : Bool := !n.within && n.left = n.right

/-- The byte `c` is counted, where `before` is the byte before it, if there is one. -/
def Count.next (paren : Bool) (n : Count) (before : Option UInt8) (c : UInt8) : Count :=
  let n := if c = 34 && before != some 92 then { n with quotes := n.quotes + 1 } else n
  if paren && !n.within then
    if c = 40 then { n with left := n.left + 1 }
    else if c = 41 then { n with right := n.right + 1 }
    else n
  else n

/-- The bytes of a text are counted. -/
def Count.all (paren : Bool) : Count → Option UInt8 → List UInt8 → Count
  | n, _, [] => n
  | n, before, c :: s => Count.all paren (n.next paren before c) (some c) s

/-- What is counted in a text from its beginning. -/
def count (paren : Bool) (s : List UInt8) : Count := Count.zero.all paren none s

/-- `strstr`, with the place of what is found. -/
def strstr (s find : List UInt8) : Option Nat := (Substr.search find s).map fun x => x.1.length

/-- The loop of `vely_find_keyword0`, which goes on from `beg`. -/
def findLoop (str find : List UInt8) (hasSpaces paren : Bool) : Nat → Nat → Option Nat
  | 0, _ => none
  | fuel + 1, beg =>
    match strstr (str.drop beg) find with
    | none => none
    | some i =>
      let f := beg + i
      let l := find.length
      if f ≠ beg ∧ hasSpaces ∧ charAt str (f - 1) ≠ 0 ∧ charAt str (f - 1) ≠ 32 then
        findLoop str find hasSpaces paren fuel (f + 1)
      else if hasSpaces ∧ charAt str (f + l - 1) ≠ 32 ∧ charAt str (f + l) ≠ 0
          ∧ charAt str (f + l) ≠ 32 then
        findLoop str find hasSpaces paren fuel (f + 1)
      else if (count paren (str.take f)).outside then some f
      else findLoop str find hasSpaces paren fuel (f + 1)

/-- `vely_find_keyword0`.  The empty `find` stands for the end of the text. -/
def velyFindKeyword0 (str find : List UInt8) (hasSpaces paren : Bool) :
    Except TextError (Option Nat) :=
  if find = [] then
    let n := count paren str
    if n.within then .error .unterminated
    else if n.left ≠ n.right then .error .unbalanced
    else .ok (some str.length)
  else .ok (findLoop str find hasSpaces paren (str.length + 1) 0)

/-- `find_keyword` -/
def findKeyword (str find : List UInt8) (hasSpaces : Bool) : Except TextError (Option Nat) :=
  velyFindKeyword0 str find hasSpaces true

/-- Whether data comes after a keyword: none, always (1) or sometimes (2). -/
inductive HasData where
  | no
  | always
  | sometimes
  deriving DecidableEq

/-- `carve_statement`, where `mem` is the text with its terminator and `statement` is the place
found. -/
def carveStatement (keyword : List UInt8) (isMandatory : Bool) (hasData : HasData)
    (mem : List UInt8) : Option Nat → Except TextError (List UInt8 × Option Nat)
  | some endOfUrl =>
    let ksize := keyword.length
    if hasData ≠ .no ∧ keyword.getLast? ≠ some 32 ∧ keyword.head?.any isalpha ∧ hasData ≠ .sometimes then
      .error .noTrailingSpace
    else
      let mem := mem.set (endOfUrl + ksize - 1) 0
      let statement := endOfUrl + ksize
      let statement :=
        if hasData = .sometimes then statement + ((mem.drop statement).takeWhile isspace).length
        else statement
      let mem := mem.set endOfUrl 0
      .ok (if hasData = .no then mem.set statement 0 else mem, some statement)
  | none => if isMandatory then .error .missing else .ok (mem, none)

/-- The string at a place of the memory. -/
def stringAt (mem : List UInt8) (i : Nat) : List UInt8 := (mem.drop i).takeWhile (· ≠ 0)

/-- What `recog_statement` gives of a statement: `mtext`, `is_inline` and the position after it. -/
structure Recog where
  mtext : List UInt8
  isInline : Bool
  next : Nat
  deriving DecidableEq

/-- The characters `>>`. -/
def inlineEnd : List UInt8 := [62, 62]

/-- The part of `recog_statement` for a statement that is followed by nothing.  The text `cinp` is
the one from `pos` on; `within_inline` comes with the result. -/
def recogLast (withinInline : Bool) (cinp opt : List UInt8) :
    Except TextError (Bool × Option Recog) :=
  let pos := opt.length + ((cinp.drop opt.length).takeWhile isspace).length
  let isEndOfInline := inlineEnd.isPrefixOf (cinp.drop pos)
  if isEndOfInline ∧ !withinInline then .error .noInline
  else
    .ok (withinInline && !isEndOfInline,
      if charAt cinp pos = 0 ∨ isEndOfInline then
        some ⟨(cinp.take pos).drop opt.length, isEndOfInline, pos + 1⟩
      else none)

/-- The place where the text after the name of a statement ends, and whether it ends with `>>`. -/
def endOfText (withinInline : Bool) (s : List UInt8) : Except TextError (Nat × Bool) := do
  match ← findKeyword s inlineEnd false with
  | some eofc => if withinInline then pure (eofc, true) else throw .noInline
  | none =>
    match ← findKeyword s [] false with
    | some eofc => pure (eofc, false)
    | none => pure (s.length, false)

/-- The part of `recog_statement` for a statement that is followed by a text. -/
def recogText (withinInline : Bool) (cinp opt : List UInt8) :
    Except TextError (Bool × Option Recog) := do
  let (eofc, isInline) ← endOfText withinInline (cinp.drop opt.length)
  let mtext := (cinp.drop opt.length).take eofc
  if opt ≠ [46] ∧ mtext.getLast? = some 59 then throw .semicolon
  else if charAt cinp opt.length ≠ 32 ∧ opt ≠ [46] then
    if eofc = 0 then throw .noArguments else pure (withinInline && !isInline, none)
  else pure (withinInline && !isInline, some ⟨mtext, isInline, opt.length + eofc + 1⟩)

/-- `recog_statement` -/
def recogStatement (withinInline : Bool) (cinp opt : List UInt8) (isLast : Bool) :
    Except TextError (Bool × Option Recog) :=
  if opt.isPrefixOf cinp then
    if isLast then recogLast withinInline cinp opt else recogText withinInline cinp opt
  else .ok (withinInline, none)

/-- A keyword as it is looked for and carved in a statement. -/
structure Keyword where
  bytes : List UInt8
  hasSpaces : Bool
  isMandatory : Bool
  hasData : HasData
  deriving DecidableEq

/-- The places of the clauses, all found before the first is carved. -/
def findAll (mtext : List UInt8) : List Keyword → Except TextError (List (Option Nat))
  | [] => .ok []
  | k :: ks => do
    let f ← findKeyword mtext k.bytes k.hasSpaces
    let fs ← findAll mtext ks
    pure (f :: fs)

/-- The clauses are carved one after the other. -/
def carveAll (mem : List UInt8) :
    List (Keyword × Option Nat) → Except TextError (List UInt8 × List (Option Nat))
  | [] => .ok (mem, [])
  | (k, f) :: ks => do
    let (mem, q) ← carveStatement k.bytes k.isMandatory k.hasData mem f
    let (mem, qs) ← carveAll mem ks
    pure (mem, q :: qs)

end V1

end Vely
