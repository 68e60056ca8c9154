import Vely.Dispatch.Model
import Vely.V1.Lexical

/-!
# Comments (`vely_gen_c_code`)

A source file is read line by line, and in each line the comments are looked for, with the keyword
finder that counts quotes.  A comment on one line is blanked out, and one that goes on is kept in
mind until its end is found.  Beside this stands how C reads the same lines.
-/

namespace Vely

namespace V1

/-- What a source file is refused for. -/
inductive LineError where
  | tooLong
  | closing
  | unclosed
  | text (e : TextError)
  | unbounded
  deriving DecidableEq

/-! ## The lines of a file -/

/-- `sizeof (line)`, where `VV_FILE_LINE_LEN` is 8096. -/
def sizeofLine : Nat := 8096 + 1

/-- A line with what continues it, which is trimmed if it starts with a space. -/
def continueLine (line res : List UInt8) : List UInt8 :=
  if line ≠ [] ∧ 1 < res.length ∧ res.head?.any isspace then line ++ trimSpaces res else line ++ res

/-- A line of a file is read after what is `line` already. A backslash at its end continues it. -/
def readLine : Nat → List UInt8 → List UInt8 →
    Except LineError (Option (List UInt8 × List UInt8))
  | 0, _, _ => .error .unbounded
  | bound + 1, line, f =>
    match fgets (sizeofLine - line.length - 1) f with
    | none => .ok none
    | some (res, f) =>
      let line := continueLine line (bufferString res).bytes
      if sizeofLine - 2 ≤ line.length then .error .tooLong
      else
        let line := trimSpaces line
        if line.getLast? = some '\\'.toUInt8 then readLine bound line.dropLast f
        else .ok (some (line, f))

/-- The lines of a file, as they are read. -/
def sourceLines : Nat → List UInt8 → Except LineError (List (List UInt8))
  | 0, _ => .error .unbounded
  | bound + 1, f => do
    match ← readLine (f.length + 1) [] f with
    | none => return []
    | some (line, f) => return line :: (← sourceLines bound f)

/-! ## The comments of a line -/

/-- The characters `/*`. -/
def openMark : List UInt8 := [47, 42]

/-- The characters `*/`. -/
def closeMark : List UInt8 := [42, 47]

/-- The characters `//`. -/
def lineMark : List UInt8 := [47, 47]

/-- A marker as `vely_find_keyword0` finds it, without blanks around it or parentheses. -/
def findMark (line mark : List UInt8) : Except LineError (Option Nat) :=
  (velyFindKeyword0 line mark false false).mapError .text

/-- What is known of the comments of a line. -/
structure Comments where
  line : List UInt8
  lcheck : Nat
  ccommOpen : Bool
  ccommPos : Option Nat
  closingCcommPos : Option Nat
  skipLine : Bool
  deriving DecidableEq

/-- The first place of a marker in `line + lcheck`. -/
def Comments.find (s : Comments) (mark : List UInt8) : Except LineError (Option Nat) := do
  return (← findMark (s.line.drop s.lcheck) mark).map (s.lcheck + ·)

/-- Blanks are written from `l` to before `r`. -/
def blankOut (line : List UInt8) (l r : Nat) : List UInt8 :=
  line.take l ++ List.replicate (r - l) 32 ++ line.drop r

/-- The loop over the comments of a line that have an end marker. -/
def commentLoop : Nat → Comments → Except LineError Comments
  | 0, _ => .error .unbounded
  | bound + 1, s => do
    let lPos ← s.find openMark
    let rPos ← s.find closeMark
    if s.ccommOpen then
      match rPos with
      | none => return { s with skipLine := true }
      | some r =>
        commentLoop bound { s with line := s.line.drop (r + 2), lcheck := 0, ccommOpen := false }
    else
      match lPos, rPos with
      | none, none => return s
      | some l, none =>
        return { s with line := s.line.take l, ccommOpen := true, ccommPos := some l }
      | some l, some r =>
        if l < r then
          commentLoop bound { s with line := blankOut s.line l (r + 2), lcheck := r + 2 }
        else return { s with closingCcommPos := some r }
      | none, some r => return { s with closingCcommPos := some r }

/-- The part after the loop: a comment up to the end of the line. What is left of the line, if it
is not skipped, comes with whether a comment is open. -/
def lineComment (s : Comments) : Except LineError (Option (List UInt8) × Bool) := do
  match ← findMark s.line lineMark with
  | none => return (if s.skipLine then none else some s.line, s.ccommOpen)
  | some len =>
    let ccommOpen := if s.ccommPos.any (len < ·) then false else s.ccommOpen
    if s.closingCcommPos.any (· < len) then throw .closing
    else return (if s.skipLine then none else some (s.line.take len), ccommOpen)

/-- A line of output, that starts with `@` or `!`. -/
def isOutput (line : List UInt8) : Bool :=
  (line.dropWhile isspace).head?.any fun c => c = '@'.toUInt8 || c = '!'.toUInt8

/-- The comments of a line: what is left of it, if it is not skipped, and whether a comment is
open. -/
def commentLine (ccommOpen : Bool) (line : List UInt8) :
    Except LineError (Option (List UInt8) × Bool) :=
  if ccommOpen || !isOutput line then do
    lineComment (← commentLoop (line.length + 2) ⟨line, 0, ccommOpen, none, none, false⟩)
  else return (some line, ccommOpen)

/-- The loop over the lines of a file: what is left of them, and whether a comment is open at its
end. -/
def linesLoop : Nat → Bool → List UInt8 → Except LineError (List (List UInt8) × Bool)
  | 0, _, _ => .error .unbounded
  | bound + 1, ccommOpen, f => do
    match ← readLine (f.length + 1) [] f with
    | none => return ([], ccommOpen)
    | some (line, f) =>
      let (kept, ccommOpen) ← commentLine ccommOpen line
      let (lines, ccommOpen) ← linesLoop bound ccommOpen f
      return (kept.toList ++ lines, ccommOpen)

/-- The lines of a file that `vely_gen_c_code` goes on with. -/
def velyGenCCodeLines (f : List UInt8) : Except LineError (List (List UInt8)) := do
  let (lines, ccommOpen) ← linesLoop (f.length + 1) false f
  if ccommOpen then throw .unclosed
  return lines

/-! ## How C reads the lines -/

/-- The state of the reader after a byte, without the parentheses. -/
def Lex.after (l : Lex) (c : UInt8) : Lex := (Lex.next (l, 0) c).1

/-- How long the code is up to a comment. A comment starts outside of strings and of character
constants. -/
def codeLength : Lex → List UInt8 → Nat
  | _, [] => 0
  | l, c :: s =>
    if l = .code ∧ (openMark <+: c :: s ∨ lineMark <+: c :: s) then 0
    else codeLength (l.after c) s + 1

theorem codeLength_le (l : Lex) (s : List UInt8) :
  codeLength l s ≤ s.length
  := by
  induction s generalizing l with
  | nil => exact le_rfl
  | cons c s ih =>
    rw [codeLength]
    split
    · exact Nat.zero_le _
    · exact Nat.succ_le_succ (ih _)

/-- A line of code: what is left of it, with blanks for the comments that end on it, and whether a
comment is open after it. A block comment ends at the first end marker after its start marker. -/
def cLine (s : List UInt8) : List UInt8 × Bool :=
  let n := codeLength .code s
  if openMark <+: s.drop n then
    match strstr (s.drop (n + 2)) closeMark with
    | none => (s.take n, true)
    | some q =>
      let (t, ccommOpen) := cLine (s.drop (n + 2 + q + 2))
      (s.take n ++ List.replicate (q + 4) 32 ++ t, ccommOpen)
  else (s.take n, false)
termination_by s.length
decreasing_by
  have hlen := ‹openMark <+: s.drop n›.length_le
  rw [List.length_drop] at hlen
  have htwo : openMark.length = 2 := rfl
  rw [List.length_drop]
  omega

/-- A line that starts in a comment: it is dropped, up to the first end marker. -/
def cComment (s : List UInt8) : Option (List UInt8) × Bool :=
  match strstr s closeMark with
  | none => (none, true)
  | some q => ((cLine (s.drop (q + 2))).map some id)

/-- A line, where a comment is open before it or not. A line of output is one literal. -/
def cReadLine (ccommOpen : Bool) (line : List UInt8) : Option (List UInt8) × Bool :=
  if ccommOpen then cComment line
  else if isOutput line then (some line, false)
  else (cLine line).map some id

/-- Lines one after the other. -/
def cReadLines : Bool → List (List UInt8) → List (List UInt8) × Bool
  | ccommOpen, [] => ([], ccommOpen)
  | ccommOpen, line :: lines =>
    let (kept, ccommOpen) := cReadLine ccommOpen line
    let (rest, ccommOpen) := cReadLines ccommOpen lines
    (kept.toList ++ rest, ccommOpen)

/-- The lines of a text without its comments. One that is not closed is an error. -/
def cRead (lines : List (List UInt8)) : Except LineError (List (List UInt8)) :=
  if (cReadLines false lines).2 then .error .unclosed else .ok (cReadLines false lines).1

/-! ## Lines that are read alike -/

/-- No quote is open before `p`, as they are counted. -/
def Shown (s : List UInt8) (p : Nat) : Prop := (count false (s.take p)).outside = true

instance (s : List UInt8) (p : Nat) : Decidable (Shown s p) := inferInstanceAs (Decidable (_ = _))

/-- Where a marker stands before `n`, a quote is open, as they are counted. -/
def Hidden (mark s : List UInt8) (n : Nat) : Prop :=
  ∀ p < n, mark <+: s.drop p → ¬ Shown s p

instance (mark s : List UInt8) (n : Nat) : Decidable (Hidden mark s n) :=
  inferInstanceAs (Decidable (∀ p < n, _ → _))

/-- The code before a comment: markers in it stand in what is counted as a string. -/
structure CodeAgrees (s : List UInt8) : Prop where
  noOpen : Hidden openMark s (codeLength .code s)
  noLine : Hidden lineMark s (codeLength .code s)

/-- A comment with the code before it. -/
structure CommentAgrees (mark s : List UInt8) : Prop extends CodeAgrees s where
  starts : mark <+: s.drop (codeLength .code s)
  shown : Shown s (codeLength .code s)
  noClose : Hidden closeMark s (codeLength .code s)

/-- A line that is read alike: quotes are counted as C reads them where a marker stands, those in a
comment that ends on the line are even in number, no end marker stands in code before a comment,
and neither `*` nor `/` is shared by two markers. -/
inductive Agrees : List UInt8 → Prop
  | code {s : List UInt8} (ends : codeLength .code s = s.length) (code : CodeAgrees s) : Agrees s
  | line {s : List UInt8} (comment : CommentAgrees lineMark s)
      (apart : ¬ openMark <+: s.drop (codeLength .code s + 1)) : Agrees s
  | unclosed {s : List UInt8} (comment : CommentAgrees openMark s)
      (apart : ¬ closeMark <+: s.drop (codeLength .code s + 1))
      (ends : strstr (s.drop (codeLength .code s + 2)) closeMark = none) : Agrees s
  | closed {s : List UInt8} {q : Nat} (comment : CommentAgrees openMark s)
      (apart : ¬ closeMark <+: s.drop (codeLength .code s + 1))
      (ends : strstr (s.drop (codeLength .code s + 2)) closeMark = some q)
      (even : Shown s (codeLength .code s + 2 + q))
      (rest : Agrees (s.drop (codeLength .code s + 2 + q + 2))) : Agrees s

/-- A line that is read alike, where a comment is open before it or not. -/
def LineAgrees (ccommOpen : Bool) (line : List UInt8) : Prop :=
  if ccommOpen then
    ∀ q, strstr line closeMark = some q → Shown line q ∧ Agrees (line.drop (q + 2))
  else isOutput line = true ∨ Agrees line

/-- Every line is read alike, where comments are open as C has them. -/
def LinesAgree : Bool → List (List UInt8) → Prop
  | _, [] => True
  | ccommOpen, line :: lines =>
    LineAgrees ccommOpen line ∧ LinesAgree (cReadLine ccommOpen line).2 lines

end V1

end Vely
