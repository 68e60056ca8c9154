import Vely.Json.Model
import Vely.Lib.JsonGrammar

/-!
# Reading JSON without memory

The reader does what the parser does, with values in the place of memory: it has what is left of the
text, the names and the indices that lead to the current value, and the leaves found so far.
What a call expects is its mode.  Besides, the reader notes whether the text was read by the rules
of the grammar only, or also by what the parser lets pass: the end of the text inside an array or
an object, a closing bracket or a colon with a value in the place of a value, and strings with
characters that may not stand in them.
-/

namespace Vely

/-- A level of the stack of names. -/
structure JsonLevel where
  name : List UInt8
  index : Option Nat

/-- A leaf: its normalized name, its type and its value. -/
structure JsonLeaf where
  name : List UInt8
  type : JsonType
  value : List UInt8
  deriving DecidableEq

/-- What a call expects: a value, or in an object a name, a colon or the end of a member, or in an
array the end of an element.  After a value that stands behind a colon in the place of
a value, it is `loose`. -/
inductive JsonMode where
  | value
  | name
  | colon
  | member
  | element
  | loose

/-- The state of the reader: what is left of the text, the levels and their number, the leaves,
whether the next byte is behind a number or a literal, and whether the grammar was kept to. -/
structure JsonReader where
  rest : List UInt8
  levels : Nat → JsonLevel
  top : Nat
  leaves : List JsonLeaf
  held : Bool
  sound : Bool

/-- The tokens, by their first byte. -/
inductive JsonToken where
  | beginObject
  | endObject
  | beginArray
  | endArray
  | nameSeparator
  | valueSeparator
  | blank
  | quote
  | digit
  | word (type : JsonType) (word : List UInt8)
  | other

/-- The token that starts with a byte. -/
def jsonToken (c : UInt8) : JsonToken :=
  if c = '{'.toUInt8 then .beginObject
  else if c = '}'.toUInt8 then .endObject
  else if c = '['.toUInt8 then .beginArray
  else if c = ']'.toUInt8 then .endArray
  else if c = ':'.toUInt8 then .nameSeparator
  else if c = ','.toUInt8 then .valueSeparator
  else if isBlank c then .blank
  else if c = '"'.toUInt8 then .quote
  else if c = '-'.toUInt8 ∨ isdigit c then .digit
  else if c = 't'.toUInt8 then .word .bool (ascii "true")
  else if c = 'f'.toUInt8 then .word .bool (ascii "false")
  else if c = 'n'.toUInt8 then .word .null (ascii "null")
  else .other

namespace JsonReader

/-- Set a level. -/
def setLevel (r : JsonReader) (k : Nat) (l : JsonLevel) : JsonReader :=
  { r with levels := Function.update r.levels k l }

/-- A level gets the next index. -/
def bump (r : JsonReader) (k : Nat) : JsonReader :=
  r.setLevel k ⟨(r.levels k).name, some (succIndex (r.levels k).index)⟩

/-- A level gets no index. -/
def unindex (r : JsonReader) (k : Nat) : JsonReader := r.setLevel k ⟨(r.levels k).name, none⟩

/-- A level gets a name. -/
def rename (r : JsonReader) (k : Nat) (name : List UInt8) : JsonReader :=
  r.setLevel k ⟨name, (r.levels k).index⟩

/-- The grammar is left, unless `ok` holds. -/
def check (r : JsonReader) (ok : Bool) : JsonReader := { r with sound := r.sound && ok }

/-- The level of the value is left. -/
def pop (r : JsonReader) : JsonReader := { r with top := r.top - 1 }

/-- The normalized name of the first `n` levels. -/
def nameOf (levels : Nat → JsonLevel) : Nat → List UInt8
  | 0 => []
  | n + 1 => nameOf levels n ++ levelText (n = 0) (levels n).name (levels n).index

/-- The normalized name of a leaf on level `n`. -/
def leafName (levels : Nat → JsonLevel) (n : Nat) : List UInt8 :=
  if n = 0 then ['"'.toUInt8, '"'.toUInt8] else nameOf levels n

/-- A leaf is found, and its level is left. -/
def add (r : JsonReader) (type : JsonType) (value : List UInt8) : JsonReader :=
  { r with
    leaves := r.leaves ++ [⟨leafName r.levels (r.top - 1), type, value⟩]
    top := r.top - 1 }

end JsonReader

/-- A string that was read: its bytes up to the first zero, the bytes of the name it gives, what is
left of the text, and whether the characters may stand in a string. -/
structure JsonStringRead where
  value : List UInt8
  name : List UInt8
  rest : List UInt8
  sound : Bool

/-- Read a string. -/
def readString (dec : Bool) (text : List UInt8) : Option JsonStringRead :=
  match velyJsonToUtf8 (text ++ [0]) true dec with
  | .ok ⟨val, some stop, _⟩ => some
    { value := ((val.set stop 0).drop 1).takeWhile (· ≠ 0)
      name := (val.drop 1).take (stop - 1)
      rest := text.drop (stop + 1)
      sound := isContent ((text.drop 1).take (stop - 1)) }
  | _ => none

/-- A call for a value, unless there are too many levels. -/
def JsonReader.enter (depth : Nat) (r : JsonReader)
    (call : Nat → JsonReader → Option JsonReader) : Option JsonReader :=
  if jsonMaxNested ≤ depth + 1 ∨ jsonMaxNested ≤ r.top + 1 then none
  else call (depth + 1) { r with top := r.top + 1 }

/-- A number or a literal of `n` bytes is read. -/
def JsonReader.scalar (r : JsonReader) (type : JsonType) (n : Nat) : JsonReader :=
  { r.add type (r.rest.take n) with rest := r.rest.drop n, held := true }

/-- Read on in a call at the given depth. -/
def readJson (dec : Bool) : Nat → Nat → JsonMode → JsonReader → Option JsonReader
  | 0, _, _, _ => none
  | bound + 1, depth, mode, r =>
    match r.rest with
    | [] => some (r.pop.check false)
    | c :: rest =>
      let next := { r with rest, held := false }
      match jsonToken c, mode with
      | .blank, mode => readJson dec bound depth mode next
      | .beginObject, .value => readJson dec bound depth .name next
      | .endObject, .value => some (next.pop.check false)
      | .endObject, .member => some next.pop
      | .endObject, .loose => some next.pop
      | .beginArray, .value =>
        if r.top ≤ 1 then none
        else
          ((next.pop.bump (r.top - 2)).enter depth (fun d r => readJson dec bound d .value r)).bind
            (fun r => readJson dec bound depth .element r)
      | .endArray, .value => some ((next.unindex (r.top - 1)).check false)
      | .endArray, .element => some (next.unindex (r.top - 1))
      | .nameSeparator, .colon =>
        (next.enter depth (fun d r => readJson dec bound d .value r)).bind
          (fun r => readJson dec bound depth .member r)
      | .nameSeparator, .value =>
        ((next.check false).enter depth (fun d r => readJson dec bound d .value r)).bind
          (fun r => readJson dec bound depth .loose r)
      | .valueSeparator, .member => readJson dec bound depth .name next
      | .valueSeparator, .element =>
        ((next.bump (r.top - 1)).enter depth (fun d r => readJson dec bound d .value r)).bind
          (fun r => readJson dec bound depth .element r)
      | .quote, .name =>
        (readString dec r.rest).bind (fun s =>
          readJson dec bound depth .colon
            ({ next with rest := s.rest }.rename (r.top - 1) s.name |>.check s.sound))
      | .quote, .value =>
        (readString dec r.rest).bind (fun s =>
          some ({ next with rest := s.rest }.add .string s.value |>.check s.sound))
      | .digit, .value =>
        (velyJsonNum (r.rest ++ [0])).bind (fun (real, n) =>
          some (r.scalar (if real then .real else .number) n))
      | .word type word, .value =>
        if r.rest.take word.length = word then some (r.scalar type word.length) else none
      | _, _ => none

/-- What a reader starts with. -/
def startReader (text : List UInt8) : JsonReader where
  rest := text
  levels := fun _ => ⟨[], none⟩
  top := 0
  leaves := []
  held := false
  sound := true

/-- What may be left of the text behind the value: spaces, but nothing behind a number or a
literal. -/
def finishReader (r : JsonReader) : Option JsonReader :=
  if r.held then if r.rest = [] then some r else none
  else if r.rest.all isspace then some (r.check (r.rest.all isBlank)) else none

/-- Read a text. -/
def readText (dec : Bool) (text : List UInt8) : Option JsonReader :=
  ((startReader text).enter 0 (fun d r => readJson dec (text.length + 1) d .value r)).bind finishReader

end Vely
