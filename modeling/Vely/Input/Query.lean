import Vely.Lib.Block
import Vely.Rtc
import Vely.Utf8.Model

/-!
# The parameters of a query (`vely_get_input`)

The text of the query is decoded in place: names and values end up behind one another, each with a
terminator.  Then they are taken in pairs, as many as there were signs `=`.
-/

namespace Vely

/-- A report of an error by `vely_get_input`, which ends the request. -/
inductive InputError where
  | noRequestMethod
  | uploadTooLarge (length : Int)
  | queryTooLarge
  | unreadBody
  | missingContentLength
  | zeroContentLength
  | noBoundary (contentType : CString)
  | webInputTooLarge (place : Nat)
  | unwrittenFile (dir : CString)
  | lengthWithoutType
  | malformedUrl
  | invalidName (name : CString)
  | missingRequestName (path : CString)
  | incorrectPath (path : CString)
  | unclosedPath (path : CString)
  | wrongApplicationPath (path : CString)
  deriving DecidableEq

/-- The format of the text of a report. -/
def InputError.format : InputError → String
  | .noRequestMethod => "REQUEST_METHOD environment variable is not found"
  | .uploadTooLarge _ => "Upload file size too large [%lld]"
  | .queryTooLarge => "Query string larger than the limit of [%d] bytes (1)"
  | .unreadBody => "Error reading request body"
  | .missingContentLength => "Missing content length"
  | .zeroContentLength => "Content length is zero"
  | .noBoundary _ => "Cannot find boundary in content type header [%s]"
  | .webInputTooLarge _ => "Web input larger than the limit of [%d] bytes (%d)"
  | .unwrittenFile _ => "Cannot write file [%s], error [%s]"
  | .lengthWithoutType => "Content-length found without Content-Type"
  | .malformedUrl => "Malformed URL request, encountered ampersand without prior name=value"
  | .invalidName _ =>
    "Invalid input parameter name [%s], can contain alphanumeric characters or underscores only"
  | .missingRequestName _ => "URL path [%s] is missing a request name"
  | .incorrectPath _ => "URL path [%s] is incorrect"
  | .unclosedPath _ =>
    "URL path [%s] has opened hierarchical request path with /_ but has not closed with _/"
  | .wrongApplicationPath _ => "URL path [%s] must begin with application path [%s]"

/-- Why there is no input: the program stops, the request is rejected, or it was answered
(a request for the options). -/
inductive Abort where
  | stop (s : Stop)
  | rejected (e : InputError)
  | answered
  deriving DecidableEq

instance : MonadLift (Except Stop) (Except Abort) where
  monadLift x := x.mapError Abort.stop

@[simp]
theorem liftM_ok {α : Type} (a : α) :
  (liftM (Except.ok a : Except Stop α) : Except Abort α) = .ok a
  := rfl

@[simp]
theorem liftM_error {α : Type} (s : Stop) :
  (liftM (Except.error s : Except Stop α) : Except Abort α) = .error (.stop s)
  := rfl

/-- A byte as a number of type `char`. -/
def signed (c : UInt8) : Int := c.toInt8.toInt

/-- `VV_CHAR_FROM_HEX` -/
def charFromHex (x : UInt8) : Int :=
  if signed x > signed '9'.toUInt8 then
    if signed x ≥ signed 'a'.toUInt8 then signed x - signed 'a'.toUInt8 + 10
    else signed x - signed 'A'.toUInt8 + 10
  else signed x - signed '0'.toUInt8

/-- The byte that `%` followed by `h` and `l` stands for. -/
def escaped (h l : UInt8) : UInt8 := byte (charFromHex h * 16 + charFromHex l)

/-- The variables of the loop that decodes; `params` is `num_of_input_params`. -/
structure DecodeState where
  content : Block
  i : Nat
  j : Nat
  hadEqual : Bool
  isname : Bool
  params : Nat

/-- A byte is written at `j`, and the read position moves by `n`. -/
def DecodeState.write (s : DecodeState) (c : UInt8) (n : Nat) : Except Abort DecodeState := do
  let content ← s.content.put s.j c
  return { s with content := content, j := s.j + 1, i := s.i + n }

/-- The body of the loop that decodes, for the byte `c` at `i`. -/
def decodeStep (c : UInt8) (s : DecodeState) : Except Abort DecodeState :=
  if s.isname ∧ c = '-'.toUInt8 then s.write '_'.toUInt8 1
  else if c = '%'.toUInt8 then do
    let h ← s.content.get (s.i + 1)
    let l ← s.content.get (s.i + 2)
    s.write (escaped h l) 3
  else if c = '&'.toUInt8 then
    if s.hadEqual then DecodeState.write { s with hadEqual := false, isname := true } 0 1
    else throw (.rejected .malformedUrl)
  else if c = '='.toUInt8 then
    DecodeState.write { s with hadEqual := true, params := s.params + 1, isname := false } 0 1
  else s.write c 1

/-- A plus sign stands for a space. -/
def plusToSpace (c : UInt8) : UInt8 := if c = '+'.toUInt8 then ' '.toUInt8 else c

/-- The loop that decodes. -/
def decodeLoop : Nat → DecodeState → Except Abort DecodeState
  | 0, _ => throw (.stop .fault)
  | bound + 1, s => do
    let c ← s.content.get s.i
    if c = 0 then return s
    else
      let content ← s.content.put s.i (plusToSpace c)
      let s ← decodeStep (plusToSpace c) { s with content := content }
      decodeLoop bound s

/-- The text in the block is decoded, from its start. -/
def decodeContent (content : Block) : Except Abort DecodeState :=
  decodeLoop (content.cells.length + 1)
    { content := content, i := 0, j := 0, hadEqual := false, isname := true, params := 0 }

/-- Two terminators are written behind what was decoded. -/
def terminate (s : DecodeState) : Except Abort DecodeState := do
  let content ← s.content.put s.j 0
  let content ← content.put (s.j + 1) 0
  return { s with content := content, j := s.j + 1 }

/-- A parameter (`vely_ipar`). -/
@[ext]
structure InputParam where
  name : CString
  value : CString
  deriving DecidableEq

/-- `vely_trim_ptr` -/
def velyTrimPtr (str : CString) : CString := velyTrim str

/-- The loop that takes `n` pairs of strings from the cells from `j` on. -/
def splitLoop (content : Block) : Nat → Nat → Except Abort (List InputParam)
  | 0, _ => return []
  | n + 1, j => do
    let name ← content.string j
    if velyIsValidParamName name false then
      let value ← content.string (j + name.length + 1)
      let params ← splitLoop content n (j + name.length + 1 + value.length + 1)
      return ⟨name, velyTrimPtr value⟩ :: params
    else throw (.rejected (.invalidName name))

/-- The parameters in a block that holds the text of a query. -/
def parseParams (content : Block) : Except Abort (List InputParam) := do
  let s ← decodeContent content
  let s ← terminate s
  splitLoop s.content s.params 0

end Vely
