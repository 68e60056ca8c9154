import Mathlib.Logic.Function.Basic
import Vely.Encode.Web
import Vely.Lib.Run

/-!
# Output (`vely_puts`, `vely_printf`, `vely_write_to_string`)

What a program outputs goes to the response body, or to the string that was begun last and is not
ended: strings are written at levels, one inside the other.  Left out are the output that is
disabled, the response header, and what goes to the error stream.
-/

namespace Vely.Output

/-- `VV_MAX_NESTED_WRITE_STRING` -/
def maxNestedWriteString : Nat := 5

/-! ### What is output -/

/-- A string in memory, up to the terminator at its end, and the length of what is output of it,
where one is given. -/
structure Source where
  bytes : List UInt8
  length : Option Nat
  length_le : ∀ n ∈ length, n ≤ bytes.length

namespace Source

variable (s : Source)

/-- The memory with the terminator. -/
def block : Block := ⟨(s.bytes ++ [0]).map some⟩

/-- The length that is passed on: 0 where none is given (`VV_EMPTY_LONG_PLAIN_ZERO`). -/
def len : Nat := s.length.getD 0

/-- The bytes in front of the first null (`strlen`). -/
def cstr : List UInt8 := s.bytes.takeWhile (· ≠ 0)

/-- `vLen` -/
def vLen : Nat := if s.len ≠ 0 then s.len else s.cstr.length

end Source

/-- An output: of a string, or of a formatted text; `none` is `VV_NOENC`. -/
inductive Write where
  | puts (encType : Option EncType) (s : Source)
  | printf (encType : Option EncType) (text : List UInt8)

/-! ### Writing to a string -/

/-- `memcpy` of the first `n` cells of some memory. -/
def memcpy (b : Block) (i : Nat) (src : Block) (n : Nat) : Except Stop Block :=
  if n ≤ src.cells.length ∧ i + n ≤ b.cells.length then
    .ok ⟨b.cells.take i ++ src.cells.take n ++ b.cells.drop (i + n)⟩
  else .error .fault

/-- The loop of `vely_puts_to_string`; it is passed twice at most. -/
def putsToStringLoop (finalOut : Block) (finalLen : Nat) :
    Nat → WriteString → Except Stop WriteString
  | 0, _ => .error .fault
  | bound + 1, w =>
    if (finalLen : Int) > (w.string.cells.length : Int) - 1 - w.bufPos then
      let len := w.string.cells.length + finalLen + w.wlen
      putsToStringLoop finalOut finalLen bound
        { w with string := w.string.realloc len, wlen := adjMem w.wlen }
    else do
      let string ← memcpy w.string w.bufPos finalOut (finalLen + 1)
      return { w with string := string, bufPos := w.bufPos + finalLen }

/-- `vely_puts_to_string` -/
def putsToString (finalOut : Block) (finalLen : Nat) (w : WriteString) : Except Stop WriteString :=
  putsToStringLoop finalOut finalLen 2 w

/-- What `vsnprintf` returns: the length of the text, where that is an `int`. -/
def vsnprintfLength (text : List UInt8) : Int := if text.length < 2 ^ 31 then text.length else -1

/-- `vsnprintf` to the `size` bytes at `i`: as much of the text as there is room for, and a
terminator. -/
def vsnprintf (b : Block) (i size : Nat) (text : List UInt8) : Except Stop Block :=
  if size = 0 then .ok b else b.putAll i (text.take (size - 1) ++ [0])

/-- The loop of `vely_printf` that prints to a string, and the length of what it prints; it is
passed twice at most. -/
def printfLoop (text : List UInt8) : Nat → WriteString → Except Stop (WriteString × Int)
  | 0, _ => .error .fault
  | bound + 1, w => do
    let bytesLeft := w.string.cells.length - w.bufPos
    let string ← vsnprintf w.string w.bufPos bytesLeft text
    let totWritten := vsnprintfLength text
    if totWritten ≥ bytesLeft then
      let len := string.cells.length + totWritten.toNat + w.wlen
      printfLoop text bound { w with string := string.realloc len, wlen := adjMem w.wlen }
    else if w.bufPos + totWritten < 0 then .error .fault
    else return ({ w with string := string, bufPos := (w.bufPos + totWritten).toNat }, totWritten)

/-- An output to a string. -/
def Write.toString (w : WriteString) : Write → Except Stop WriteString
  | .puts none s => putsToString s.block s.vLen w
  | .puts (some t) s => velyPuts t (s.bytes.take s.vLen) w
  | .printf none text => Prod.fst <$> printfLoop text 2 w
  | .printf (some t) text => do
    let (w, totWritten) ← printfLoop text 2 w
    let w := { w with bufPos := (w.bufPos - totWritten).toNat }
    let printed ← w.string.string w.bufPos
    let (finalOut, finalLen) ← velyEncode t printed.bytes
    putsToString finalOut finalLen w

/-! ### Writing to the response -/

/-- The loop of `vely_printf` that prints to memory of its own, `ebuf`. -/
def ebufLoop (text : List UInt8) : Nat → Block → Except Stop (Block × Int)
  | 0, _ => .error .fault
  | bound + 1, ebuf => do
    let ebuf' ← vsnprintf ebuf 0 ebuf.cells.length text
    let totWritten := vsnprintfLength text
    if totWritten ≥ ebuf.cells.length then
      ebufLoop text bound (ebuf'.realloc (ebuf.cells.length + totWritten.toNat))
    else return (ebuf', totWritten)

/-- An output to the response: what is added to its body. -/
def Write.toWeb : Write → Except Stop (List UInt8)
  | .puts none s => firstBytes s.block s.vLen
  | .puts (some t) s => do
    let (writeTo, totalWritten) ← velyEncode t (s.bytes.take s.vLen)
    firstBytes writeTo totalWritten
  | .printf none text => do
    let (ebuf, totWritten) ← ebufLoop text 2 (Block.alloc 256)
    if totWritten < 0 then .error .fault else firstBytes ebuf totWritten.toNat
  | .printf (some t) text => do
    let (ebuf, _) ← ebufLoop text 2 (Block.alloc 256)
    let printed ← ebuf.string 0
    let (finalOut, finalLen) ← velyEncode t printed.bytes
    firstBytes finalOut finalLen

/-! ### Levels -/

/-- A level: the string that is written, whether it is left as it is at its end, and the number of
the variable that it is for.  Memory without cells is no memory (`NULL`). -/
structure Level where
  w : WriteString
  notrim : Bool
  userString : Nat

/-- The output of a request: the levels (`write_string_arr`), how many of them are begun
(`curr_write_to_string + 1`), the memory of the variables, and the response body. -/
structure Out where
  arr : Nat → Level
  depth : Nat
  vars : Nat → Block
  body : List UInt8

/-- `vely_init_input_req` -/
def Out.init : Out where
  arr _ := ⟨⟨⟨[]⟩, 0, wrstrAddMin⟩, false, 0⟩
  depth := 0
  vars _ := ⟨[some 0]⟩
  body := []

namespace Out

variable (o : Out)

/-- `vely_write_to_string` of a variable: a level is begun. -/
def begin (x : Nat) : Option Out :=
  if o.depth ≥ maxNestedWriteString then none
  else some
    { o with
      arr := Function.update o.arr o.depth
        { o.arr o.depth with w := WriteString.start, userString := x }
      depth := o.depth + 1
      vars := Function.update o.vars x ⟨[some 0]⟩ }

/-- `vely_puts` and `vely_printf` -/
def write (out : Write) : Except Stop Out :=
  match o.depth with
  | 0 => do
    let bytes ← out.toWeb
    return { o with body := o.body ++ bytes }
  | d + 1 => do
    let w ← out.toString (o.arr d).w
    return { o with arr := Function.update o.arr d { o.arr d with w := w } }

/-- `vely_write_to_string_notrim` -/
def writeToStringNotrim : Except Stop Out :=
  match o.depth with
  | 0 => .error .fault
  | d + 1 => .ok { o with arr := Function.update o.arr d { o.arr d with notrim := true } }

/-- The loop that moves the position back over white space. -/
def trimLoop (string : Block) : Nat → Except Stop Nat
  | 0 => .error .fault
  | pos + 1 => do
    let c ← string.get pos
    if isspace c then trimLoop string pos else return pos + 1

/-- What is done to a string at its end. -/
def trim (notrim : Bool) (w : WriteString) : Except Stop WriteString :=
  if notrim then .ok w
  else do
    let pos ← trimLoop w.string w.bufPos
    let string ← w.string.put pos 0
    return { w with string := string, bufPos := pos }

/-- `vely_write_to_string` of `NULL`: the last level is ended, and its string is given to the
variable. -/
def stop : Except Stop (Option Out) :=
  match o.depth with
  | 0 => .ok none
  | d + 1 =>
    let level := o.arr d
    if level.w.string.cells = [] then .ok none
    else do
      let w ← trim level.notrim level.w
      return some
        { o with
          arr := Function.update o.arr d ⟨{ w with string := ⟨[]⟩ }, false, level.userString⟩
          depth := d
          vars := Function.update o.vars level.userString (w.string.realloc (w.bufPos + 1)) }

/-- `vely_write_to_string_length` -/
def writeToStringLength : Nat := (o.arr o.depth).w.bufPos

end Out

/-! ### Programs -/

/-- What a program does with its output: `write-string`, an output, and `end-write-string`, with or
without `notrim`. -/
inductive Op where
  | writeString (x : Nat)
  | output (out : Write)
  | endWriteString (notrim : Bool)

/-- A step; without a result the program ended with a report (`vely_report_error`). -/
def step (o : Out) : Op → Except Stop (Option Out)
  | .writeString x => .ok (o.begin x)
  | .output out => some <$> o.write out
  | .endWriteString notrim => (if notrim then o.writeToStringNotrim else .ok o) >>= Out.stop

/-- A program. -/
def run : List Op → Out → Except Stop (Option Out)
  | [], o => .ok (some o)
  | op :: ops, o => do
    match ← step o op with
    | none => return none
    | some o => run ops o

/-- What follows a program starts from its result. -/
theorem run_append {ops : List Op} (ops' : List Op) {o o' : Out} (h : run ops o = .ok (some o')) :
  run (ops ++ ops') o = run ops' o'
  := by
  induction ops generalizing o with
  | nil =>
    cases h
    rfl
  | cons op ops ih =>
    rw [run] at h
    obtain ⟨r, hr, h⟩ := exists_of_bind h
    cases r with
    | none => cases h
    | some o₁ =>
      rw [List.cons_append, run, hr, ok_bind]
      apply ih h

end Vely.Output
