import Vely.Json.Strings
import Vely.Lib.Decimal

/-!
# The parser of JSON (`json.c`)

`vely_json_new` calls itself where a value is expected.  A call goes over the text in a loop, and
keeps in flags what it expects next.  The static variables are shared by all calls: the stack of
names leading to the current value, and the byte that was overwritten to end a number or a literal.
The parser ends strings in place, and the nodes it finds point into the text.
-/

namespace Vely

/-- `VV_JSON_MAX_NESTED` -/
def jsonMaxNested : Nat := 32

/-- `VV_JSON_TYPE_...` -/
inductive JsonType where
  | string
  | number
  | real
  | bool
  | null
  deriving DecidableEq

/-- `json_node`: the name points into the text, or is NULL; the index is none for -1, which is no
array. -/
structure JsonNode where
  name : Option Nat
  nameLen : Nat
  index : Option Nat
  deriving DecidableEq

/-- `vely_jsonn`: the name is allocated, the value points into the text. -/
structure Jsonn where
  name : List UInt8
  type : JsonType
  str : Nat
  deriving DecidableEq

/-- The text (`val`), the position in it (`*i`), and the static variables. -/
structure JsonState where
  val : List UInt8
  i : Nat
  list : List JsonNode
  listC : Int
  nodes : List Jsonn
  nulled : UInt8
  errm : String
  ec : Int
  depth : Nat
  deriving DecidableEq

/-- What a parse is set up with (`vely_set_json`, and the arguments of `vely_json_new`): whether
there is a hash, the node handler, which says whether to go on, whether strings are decoded, and
the length of the text. -/
structure JsonConfig where
  usehash : Bool
  nodeHandler : Option (JsonState → Nat → JsonType → Bool)
  dec : Bool
  len : Nat

/-- The flags of a call. -/
structure JsonFlags where
  expectedCommaOrEndArray : Bool := false
  expectedCommaOrEndObject : Bool := false
  expectedColon : Bool := false
  expectedName : Bool := false
  isarr : Bool := false
  isobj : Bool := false
  deriving DecidableEq

/-! ### Errors -/

/-- What may be expected when something else is found. -/
inductive Expected where
  | colon
  | name
  | commaOrEndArray
  | commaOrEndObject

/-- The error when this is not found. -/
def Expected.error : Expected → String
  | .colon => "Colon is expected here"
  | .name => "Name is expected here"
  | .commaOrEndArray => "Comma or end of array is expected here"
  | .commaOrEndObject => "Comma or end of object is expected here"

namespace JsonFlags

/-- The flag of what is expected. -/
def expects (fl : JsonFlags) : Expected → Bool
  | .colon => fl.expectedColon
  | .name => fl.expectedName
  | .commaOrEndArray => fl.expectedCommaOrEndArray
  | .commaOrEndObject => fl.expectedCommaOrEndObject

/-- The error of the first flag of a list that is set. -/
def unmet (fl : JsonFlags) (es : List Expected) : Option String :=
  (es.find? fl.expects).map Expected.error

end JsonFlags

namespace JsonState

/-- Set the error and its position. -/
def fail (st : JsonState) (errm : String) : JsonState := { st with ec := st.i, errm }

/-- Go on by `n` bytes. -/
def skip (st : JsonState) (n : Nat) : JsonState := { st with i := st.i + n }

/-- Change `list[k]`. -/
def modifyNode (st : JsonState) (k : Int) (f : JsonNode → JsonNode) : Except Stop JsonState :=
  if 0 ≤ k ∧ k.toNat < st.list.length then
    .ok { st with list := st.list.modify k.toNat f }
  else .error .fault

/-- The byte that is read: the one that was overwritten last, if it is not zero. -/
def nchar (st : JsonState) : UInt8 × JsonState :=
  if st.nulled ≠ 0 then (st.nulled, { st with nulled := 0 }) else (byteAt st.val st.i, st)

end JsonState

/-! ### Numbers -/

/-- What is left behind an exponent, and whether there is one. -/
def skipExponent (s : List UInt8) : Option (Bool × List UInt8) :=
  if byteAt s 0 = 'e'.toUInt8 ∨ byteAt s 0 = 'E'.toUInt8 then
    let s := s.drop 1
    let s := if byteAt s 0 = '+'.toUInt8 ∨ byteAt s 0 = '-'.toUInt8 then s.drop 1 else s
    if isdigit (byteAt s 0) then some (true, s.dropWhile isdigit) else none
  else some (false, s)

/-- What is left behind a fraction, and whether there is one. -/
def skipFraction (s : List UInt8) : Option (Bool × List UInt8) :=
  if byteAt s 0 = '.'.toUInt8 then
    if isdigit (byteAt s 1) then some (true, (s.drop 1).dropWhile isdigit) else none
  else some (false, s)

/-- `vely_json_num`: whether the number is a real one, and its length. -/
def velyJsonNum (val : List UInt8) : Option (Bool × Nat) := do
  let s := if byteAt val 0 = '-'.toUInt8 then val.drop 1 else val
  if ¬ isdigit (byteAt s 0) then none
  else if byteAt s 0 = '0'.toUInt8 ∧ isdigit (byteAt s 1) then none
  else
    let (frac, s) ← skipFraction (s.dropWhile isdigit)
    let (exp, s) ← skipExponent s
    return (frac || exp, val.length - s.length)

/-! ### Nodes -/

/-- The bytes of a name. -/
def nameBytes (val : List UInt8) (node : JsonNode) : Except Stop (List UInt8) :=
  match node.name with
  | some name =>
    if name + node.nameLen ≤ val.length then .ok ((val.drop name).take node.nameLen)
    else .error .fault
  | none => if node.nameLen = 0 then .ok [] else .error .fault

/-- The index behind a name. -/
def indexText : Option Nat → List UInt8
  | none => []
  | some a => ['['.toUInt8] ++ decimal a ++ [']'.toUInt8]

/-- The part of a normalized name for one level. -/
def levelText (first : Bool) (name : List UInt8) (index : Option Nat) : List UInt8 :=
  (if first then [] else ['.'.toUInt8]) ++ ['"'.toUInt8] ++ name ++ ['"'.toUInt8] ++ indexText index

/-- The loop of `vely_json_fullname` over the first levels of the stack. -/
def nameParts (val : List UInt8) (list : List JsonNode) : Nat → Except Stop (List UInt8)
  | 0 => .ok []
  | n + 1 => do
    let fulln ← nameParts val list n
    let node ← deref list[n]?
    let name ← nameBytes val node
    return fulln ++ levelText (n = 0) name node.index

/-- `vely_json_fullname` -/
def velyJsonFullname (val : List UInt8) (list : List JsonNode) (listC : Int) :
    Except Stop (List UInt8) :=
  if listC = 0 then .ok ['"'.toUInt8, '"'.toUInt8] else nameParts val list listC.toNat

/-- `VV_ADD_JSON`, the node in the hash. -/
def addNode (cfg : JsonConfig) (st : JsonState) (type : JsonType) (str : Nat) :
    Except Stop JsonState :=
  if cfg.usehash then do
    let name ← velyJsonFullname st.val st.list st.listC
    return { st with nodes := st.nodes ++ [⟨name, type, str⟩] }
  else .ok st

/-- `VV_ADD_JSON`: whether to go on, and not to `endj`. -/
def addJson (cfg : JsonConfig) (st : JsonState) (type : JsonType) (str : Nat) :
    Except Stop (Bool × JsonState) := do
  let st ← addNode cfg st type str
  match cfg.nodeHandler with
  | none => return (true, st)
  | some handler =>
    let st ← st.modifyNode st.listC (fun node => { node with name := none })
    if handler st str type then return (true, st)
    else return (false, st.fail "JSON parsing interrupted by a request handler")

/-! ### The tokens -/

/-- How a call goes on: with its loop, with a call for a value, after which it has the flags
`after`, or to its end (`endj`). -/
inductive JsonNext where
  | loop (fl : JsonFlags) (st : JsonState)
  | call (st : JsonState) (after : JsonFlags)
  | endj (st : JsonState)

/-- The end of a value: its level is left. -/
def endValue (st : JsonState) : JsonNext := .endj { st with listC := st.listC - 1 }

/-- A `{`. -/
def beginObject (fl : JsonFlags) (st : JsonState) : JsonNext :=
  match fl.unmet [.colon, .name, .commaOrEndArray, .commaOrEndObject] with
  | some errm => .endj (st.fail errm)
  | none => .loop { fl with expectedName := true, isobj := true } (st.skip 1)

/-- A `}`. -/
def endObject (fl : JsonFlags) (st : JsonState) : JsonNext :=
  match fl.unmet [.colon, .commaOrEndArray, .name] with
  | some errm => .endj (st.fail errm)
  | none => endValue (st.skip 1)

/-- The index one higher. -/
def succIndex : Option Nat → Nat
  | none => 0
  | some a => a + 1

/-- The next index. -/
def nextIndex (node : JsonNode) : JsonNode := { node with index := some (succIndex node.index) }

/-- A `[`. -/
def beginArray (fl : JsonFlags) (st : JsonState) : Except Stop JsonNext :=
  match fl.unmet [.colon, .commaOrEndArray, .commaOrEndObject, .name] with
  | some errm => return .endj (st.fail errm)
  | none => do
    let st := { st.skip 1 with listC := st.listC - 1 }
    let st ← st.modifyNode st.listC nextIndex
    return .call st { fl with isarr := true, expectedCommaOrEndArray := true }

/-- A `]`. -/
def endArray (fl : JsonFlags) (st : JsonState) : Except Stop JsonNext :=
  match fl.unmet [.colon, .commaOrEndObject, .name] with
  | some errm => return .endj (st.fail errm)
  | none => do
    let st ← (st.skip 1).modifyNode st.listC (fun node => { node with index := none })
    return .endj st

/-- A `:`. -/
def nameSeparator (fl : JsonFlags) (st : JsonState) : JsonNext :=
  let fl := { fl with expectedColon := false }
  match fl.unmet [.commaOrEndArray, .commaOrEndObject, .name] with
  | some errm => .endj (st.fail errm)
  | none => .call (st.skip 1) { fl with expectedCommaOrEndObject := true }

/-- A `,`. -/
def valueSeparator (fl : JsonFlags) (st : JsonState) : Except Stop JsonNext :=
  match fl.unmet [.colon, .name] with
  | some errm => return .endj (st.fail errm)
  | none => do
    let fl := { fl with expectedCommaOrEndArray := false, expectedCommaOrEndObject := false }
    let st := st.skip 1
    if fl.isobj then return .loop { fl with expectedName := true } st
    else if fl.isarr then
      let st ← st.modifyNode st.listC nextIndex
      return .call st
        { fl with expectedCommaOrEndObject := fl.isobj, expectedCommaOrEndArray := fl.isarr }
    else return .endj (st.fail "Unrecognized token")

/-- A string. -/
def stringToken (cfg : JsonConfig) (fl : JsonFlags) (st : JsonState) : Except Stop JsonNext :=
  match fl.unmet [.colon, .commaOrEndArray, .commaOrEndObject] with
  | some errm => return .endj (st.fail errm)
  | none => do
    let r ← velyJsonToUtf8 (st.val.drop st.i) true cfg.dec
    let st := { st with val := st.val.take st.i ++ r.val, errm := r.errm }
    match r.stop with
    | none => return .endj st
    | some lstr =>
      let str := st.i + 1
      let st := { st with val := st.val.set (st.i + lstr) 0, i := st.i + lstr }
      if fl.expectedName then do
        let st ← st.modifyNode st.listC
          (fun node => { node with name := some str, nameLen := lstr - 1 })
        return .loop { fl with expectedName := false, expectedColon := true } (st.skip 1)
      else do
        let (more, st) ← addJson cfg st .string str
        return if more then endValue (st.skip 1) else .endj st

/-- A number or a literal of `n` bytes: the byte behind it is overwritten. -/
def scalarToken (cfg : JsonConfig) (st : JsonState) (type : JsonType) (n : Nat) :
    Except Stop JsonNext := do
  let str := st.i
  let st := { st with nulled := byteAt st.val (st.i + n), val := st.val.set (st.i + n) 0 }
  let (more, st) ← addJson cfg st type str
  return if more then endValue (st.skip n) else .endj st

/-- A number. -/
def numberToken (cfg : JsonConfig) (fl : JsonFlags) (st : JsonState) : Except Stop JsonNext :=
  match fl.unmet [.colon, .commaOrEndArray, .commaOrEndObject, .name] with
  | some errm => return .endj (st.fail errm)
  | none =>
    match velyJsonNum (st.val.drop st.i) with
    | none => return .endj (st.fail "Cannot parse a number")
    | some (real, n) => scalarToken cfg st (if real then .real else .number) n

/-- A literal: `true`, `false` or `null`. -/
def literalToken (cfg : JsonConfig) (fl : JsonFlags) (st : JsonState) (type : JsonType)
    (word : List UInt8) : Except Stop JsonNext :=
  match fl.unmet [.colon, .commaOrEndArray, .commaOrEndObject, .name] with
  | some errm => return .endj (st.fail errm)
  | none =>
    if (st.val.drop st.i).take word.length = word then scalarToken cfg st type word.length
    else return .endj (st.fail "Unknown entity (true, false or null)")

/-- What the loop does about the byte it reads. -/
def parseToken (cfg : JsonConfig) (fl : JsonFlags) (st : JsonState) (nchar : UInt8) :
    Except Stop JsonNext :=
  if nchar = '{'.toUInt8 then return beginObject fl st
  else if nchar = '}'.toUInt8 then return endObject fl st
  else if nchar = '['.toUInt8 then beginArray fl st
  else if nchar = ']'.toUInt8 then endArray fl st
  else if nchar = ':'.toUInt8 then return nameSeparator fl st
  else if nchar = ','.toUInt8 then valueSeparator fl st
  else if nchar = 32 ∨ nchar = 9 ∨ nchar = 10 ∨ nchar = 13 then return .loop fl (st.skip 1)
  else if nchar = '"'.toUInt8 then stringToken cfg fl st
  else if nchar = '-'.toUInt8 ∨ isdigit nchar then numberToken cfg fl st
  else if nchar = 't'.toUInt8 then literalToken cfg fl st .bool (ascii "true")
  else if nchar = 'f'.toUInt8 then literalToken cfg fl st .bool (ascii "false")
  else if nchar = 'n'.toUInt8 then literalToken cfg fl st .null (ascii "null")
  else return .endj (st.fail "Unrecognized token")

/-! ### The calls -/

/-- The beginning of a call: one level more, unless there are too many. -/
def enterValue (st : JsonState) : JsonState × Bool :=
  let st := { st with depth := st.depth + 1 }
  if jsonMaxNested ≤ st.depth then (st.fail "Depth of leaf node too great", false)
  else
    let st := { st with listC := st.listC + 1 }
    if (jsonMaxNested : Int) - 1 ≤ st.listC then (st.fail "Depth of leaf node too great", false)
    else (st, true)

/-- The end of a call (`endj`). -/
def leaveValue (st : JsonState) : JsonState := { st with depth := st.depth - 1 }

/-- A call, with `loop` as its loop. -/
def callValue (loop : JsonState → Except Stop JsonState) (st : JsonState) :
    Except Stop JsonState :=
  let (st, more) := enterValue st
  if more then loop st else .ok (leaveValue st)

/-- The loop of `vely_json_new`, and what it calls; `bound` is a bound on both. -/
def parseLoop (cfg : JsonConfig) : Nat → JsonFlags → JsonState → Except Stop JsonState
  | 0, _, _ => .error .fault
  | bound + 1, fl, st =>
    if st.i < cfg.len then do
      let (nchar, st) := st.nchar
      match ← parseToken cfg fl st nchar with
      | .endj st => return leaveValue st
      | .loop fl st => parseLoop cfg bound fl st
      | .call st after => do
        let st ← callValue (parseLoop cfg bound {}) st
        if st.ec ≠ -1 then return leaveValue st else parseLoop cfg bound after st
    else return leaveValue { st with listC := st.listC - 1 }

/-- The state at the beginning of the first call: the static variables, and the text. -/
def startParse (statics : JsonState) (text : List UInt8) : JsonState :=
  { statics with
    val := text ++ [0], i := 0, errm := "", ec := -1, depth := 0, listC := -1, nodes := []
    list := statics.list.map (fun node => { node with index := none, name := none }) }

/-- The end of the first call: behind the value there may be spaces only. -/
def finishParse (cfg : JsonConfig) (st : JsonState) : JsonState :=
  let st := st.skip ((st.val.drop st.i).takeWhile isspace).length
  if st.ec = -1 ∧ st.i < cfg.len then st.fail "Extra characters remaining unparsed" else st

/-- `vely_json_new` on a text, which is not called by itself.  What it returns is `ec`. -/
def velyJsonNew (usehash : Bool) (nodeHandler : Option (JsonState → Nat → JsonType → Bool))
    (dec : Bool) (statics : JsonState) (text : List UInt8) : Except Stop JsonState := do
  let cfg := { usehash, nodeHandler, dec, len := text.length : JsonConfig }
  let st ← callValue (parseLoop cfg (text.length + 1) {}) (startParse statics text)
  return finishParse cfg st

/-- The static variables when the process starts. -/
def JsonState.initial : JsonState where
  val := []
  i := 0
  list := List.replicate jsonMaxNested ⟨none, 0, some 0⟩
  listC := -1
  nodes := []
  nulled := 0
  errm := ""
  ec := -1
  depth := 0

end Vely
