import Vely.Input.Query
import Vely.Lib.Decimal

/-!
# The parts of a form (`vely_get_input`)

The body of a form is cut in place at its boundaries, and what it holds is written as a query: for
each part its name and its value, and for an uploaded file where it is saved.  The body lies
in memory with two terminators behind it.
-/

namespace Vely

/-- `VV_MAX_SIZE_OF_URL` -/
def maxSizeOfUrl : Nat := 32000

/-! ### Strings in memory -/

/-- The bytes that are the same but for the case of letters (`strcasecmp` gives 0). -/
def strcasecmp (s t : List UInt8) : Bool := s.map tolower = t.map tolower

/-- The place where a text starts, the bytes of both compared by `f`. -/
def find (f : UInt8 → UInt8) (text : List UInt8) : List UInt8 → Option Nat
  | [] => if text = [] then some 0 else none
  | c :: r =>
    if (text.map f).isPrefixOf ((c :: r).map f) then some 0 else (find f text r).map (· + 1)

/-- The string at `p`. -/
def cstringAt (content : List UInt8) (p : Nat) : List UInt8 :=
  (content.drop p).takeWhile (· ≠ 0)

/-- `memmem`, from `p` on, in content that ends at `pastEnd` -/
def memmem (content : List UInt8) (p pastEnd : Nat) (text : List UInt8) : Option Nat :=
  (find id text ((content.drop p).take (pastEnd - p))).map (p + ·)

/-- `strcasestr` -/
def strcasestr (content : List UInt8) (p : Nat) (text : List UInt8) : Option Nat :=
  (find tolower text (cstringAt content p)).map (p + ·)

/-- `strchr` -/
def strchr (content : List UInt8) (p : Nat) (c : UInt8) : Option Nat :=
  ((cstringAt content p).findIdx? (· = c)).map (p + ·)

/-- `memmove` -/
def memmove (content : List UInt8) (dest src n : Nat) : List UInt8 :=
  content.take dest ++ (content.drop src).take n ++ content.drop (dest + n)

/-- `vely_trim` of the string of length `len` at `p`.  The content, and the new length. -/
def velyTrimAt (content : List UInt8) (p : Nat) (len : Int) :
    Except Stop (List UInt8 × Int) :=
  let i := ((content.drop p).takeWhile isspace).length
  if i ≠ 0 ∧ len - i + 1 < 0 then .error .fault
  else
    let content :=
      if i ≠ 0 then memmove content p (p + i) (len - i + 1).toNat else content
    let len := len - i
    let len := len - (((content.drop p).take len.toNat).rtakeWhile isspace).length
    .ok (content.set (p + len).toNat 0, len)

/-! ### Encoding -/

/-- A digit as `vely_encode_base` writes it; that of a byte above 127 is negative. -/
def encodeDigit (d : Int) : UInt8 :=
  if d ≥ 10 then byte ('A'.toNat + d - 10) else byte ('0'.toNat + d)

/-- The bytes for one byte of a string. -/
def encodeByte (c : UInt8) : List UInt8 :=
  if isalnum c || c = '-'.toUInt8 || c = '.'.toUInt8 || c = '_'.toUInt8 || c = '~'.toUInt8 then [c]
  else ['%'.toUInt8, encodeDigit ((signed c).tdiv 16), encodeDigit ((signed c).tmod 16)]

/-- `vely_encode_base` for `VV_URL` -/
def velyEncodeUrl (v : List UInt8) : List UInt8 := v.flatMap encodeByte

/-! ### One part -/

/-- A part of the form.  The file of a part with more headers starts at `file`, and has the
length with it. -/
structure FormPart where
  name : List UInt8
  fileName : List UInt8
  value : List UInt8
  file : Option (Nat × Int)

/-- A text that was found from `from` on is at the start, or behind a space or a semicolon. -/
def isSeparate (content : List UInt8) (start p : Nat) : Bool :=
  p = start || isspace (byteAt content (p - 1)) || byteAt content (p - 1) = ';'.toUInt8

/-- A value without the quotes around it. -/
def unquote (s : List UInt8) : List UInt8 :=
  if s.head? = some '"'.toUInt8 then s.dropLast.drop 1 else s

/-- The value at `el`, up to a semicolon; it is trimmed in place. -/
def attributeValue (content : List UInt8) (el : Nat) : Except Stop (List UInt8 × List UInt8) := do
  let n := ((cstringAt content el).takeWhile (· ≠ ';'.toUInt8)).length
  let charEnd := byteAt content (el + n)
  let content := content.set (el + n) 0
  let (content, _) ← velyTrimAt content el n
  return (unquote (cstringAt content el), content.set (el + n) charEnd)

/-- What the line of a part with its names leaves: the content, both names, and where the next line
starts. -/
structure PartHeader where
  content : List UInt8
  name : List UInt8
  fileName : List UInt8
  cval : Nat

/-- The name of the file of a part; none ends the loop. -/
def partFileName (content : List UInt8) (beg : Nat) :
    Except Stop (Option (List UInt8 × List UInt8)) :=
  match strcasestr content beg (ascii "filename=") with
  | none => return some ([], content)
  | some el =>
    if isSeparate content beg el then do
      let r ← attributeValue content (el + 9)
      return some r
    else return none

/-- The line of a part that starts at `el` (`Content-Disposition`); none ends the loop. -/
def partHeader (content : List UInt8) (el : Nat) : Except Stop (Option PartHeader) :=
  let endOfElement := strchr content el '\n'.toUInt8
  let content := match endOfElement with
    | some e => content.set e 0
    | none => content
  let beg := el + 20
  match strcasestr content beg (ascii "name=") with
  | none => return none
  | some p =>
    if isSeparate content beg p then do
      let (name, content) ← attributeValue content (p + 5)
      match ← partFileName content beg with
      | none => return none
      | some (fileName, content) =>
        match endOfElement with
        | none => throw .fault
        | some e => return some ⟨content, name, fileName, e + 1⟩
    else return none

/-- What follows the line with the names: the content, the place to go on from, and the part; none
ends the loop. -/
def partBody (boundary : List UInt8) (pastEnd : Nat) (h : PartHeader) :
    Except Stop (Option (List UInt8 × Nat × FormPart)) :=
  match strchr h.content h.cval '\n'.toUInt8 with
  | none => return none
  | some endOfVal => do
    let (content, _) ← velyTrimAt (h.content.set endOfVal 0) h.cval (endOfVal - h.cval)
    if byteAt content h.cval = 0 then
      let nameVal := endOfVal + 1
      match memmem content nameVal pastEnd boundary with
      | none => return none
      | some endName =>
        let (content, _) ← velyTrimAt (content.set (endName - 4) 0) nameVal (endName - 4 - nameVal)
        return some (content, endName - 3, ⟨h.name, h.fileName, cstringAt content nameVal, none⟩)
    else
      match strchr content (endOfVal + 1) '\n'.toUInt8 with
      | none => return none
      | some nlBeforeCont =>
        let file := nlBeforeCont + 1
        match memmem content file pastEnd boundary with
        | none => return none
        | some endFile =>
          return some (content.set (endFile - 4) 0, endFile - 3,
            ⟨h.name, h.fileName, [], some (file, endFile - 4 - file)⟩)

/-- The next part from `c` on: the content, the place to go on from, and the part; none ends the
loop. -/
def nextPart (boundary : List UInt8) (pastEnd : Nat) (content : List UInt8) (c : Nat) :
    Except Stop (Option (List UInt8 × Nat × FormPart)) :=
  match memmem content c pastEnd boundary with
  | none => return none
  | some p =>
    let el := p + boundary.length
    if byteAt content (el + 1) = '-'.toUInt8 ∧ byteAt content (el + 2) = '-'.toUInt8 then return none
    else
      match strcasestr content el (ascii "Content-Disposition:") with
      | none => return none
      | some d =>
        if isSeparate content el d then do
          match ← partHeader content d with
          | none => return none
          | some h => partBody boundary pastEnd h
        else return none

/-! ### The query made of the parts -/

/-- A file that was saved, and where. -/
structure SavedFile where
  location : CString
  bytes : List UInt8
  deriving DecidableEq

/-- `snprintf` of `text` behind `newCont`, with the check of the space that is left -/
def printInput (place : Nat) (newCont text : List UInt8) : Except Abort (List UInt8) :=
  if text.length ≥ maxSizeOfUrl - newCont.length - 2 then
    throw (.rejected (.webInputTooLarge place))
  else return newCont ++ text

/-- The text for a parameter. -/
def inputText (name suffix value : List UInt8) : List UInt8 :=
  name ++ suffix ++ ['='.toUInt8] ++ value ++ ['&'.toUInt8]

/-- The extension of the name of a file, from its last dot on. -/
def fileExtension (fileName : List UInt8) : List UInt8 :=
  let back := fileName.reverse.takeWhile (· ≠ '.'.toUInt8)
  let ext :=
    if back.length < fileName.length then fileName.drop (fileName.length - back.length - 1) else []
  let ext := if strcasecmp ext (ascii ".jpeg") then ascii ".jpg" else ext
  let ext := if strcasecmp ext (ascii ".jpg") then ascii ".jpg" else ext
  let ext := if strcasecmp ext (ascii ".pdf") then ascii ".pdf" else ext
  ext.map tolower

/-- `fwrite` of `len` bytes of the content from `p` on -/
def writeFile (content : List UInt8) (p : Nat) (len : Int) (location : CString) :
    Except Abort SavedFile :=
  if len < 0 then throw (.stop .fault)
  else if len = 0 then throw (.rejected (.unwrittenFile location))
  else return ⟨location, (content.drop p).take len.toNat⟩

/-- What a part is written as; `makeDocument` is the place `vely_make_document` gives. -/
def printPart (makeDocument : CString) (content : List UInt8) (part : FormPart)
    (newCont : List UInt8) : Except Abort (List UInt8 × Option SavedFile) := do
  let newCont ← printInput 2 newCont (inputText part.name [] (velyEncodeUrl part.value))
  if part.fileName ≠ [] then
    let newCont ← printInput 3 newCont
      (inputText part.name (ascii "_filename") (velyEncodeUrl part.fileName))
    match part.file with
    | none => return (newCont, none)
    | some (p, len) =>
      let file ← writeFile content p len makeDocument
      let newCont ← printInput 4 newCont
        (inputText part.name (ascii "_location") (velyEncodeUrl makeDocument.bytes))
      let newCont ← printInput 5 newCont
        (inputText part.name (ascii "_ext") (fileExtension part.fileName))
      let newCont ← printInput 6 newCont
        (inputText part.name (ascii "_size") (decimal len.toNat))
      return (newCont, some file)
  else
    match part.file with
    | none => return (newCont, none)
    | some _ =>
      let newCont ← printInput 8 newCont (inputText part.name (ascii "_filename") [])
      return (newCont, none)

/-- The loop over the parts; `documents` are the places for the files that are still to be saved. -/
def partsLoop (boundary : List UInt8) (pastEnd : Nat) (documents : Nat → CString) :
    Nat → List UInt8 → Nat → List UInt8 → List SavedFile →
      Except Abort (List UInt8 × List SavedFile)
  | 0, _, _, _, _ => throw (.stop .fault)
  | bound + 1, content, c, newCont, files => do
    match ← (liftM (nextPart boundary pastEnd content c) :
        Except Abort (Option (List UInt8 × Nat × FormPart))) with
    | none => return (newCont, files)
    | some (content, c, part) =>
      let (newCont, file) ← printPart (documents files.length) content part newCont
      partsLoop boundary pastEnd documents bound content c newCont (files ++ file.toList)

/-- The boundary in a content type. -/
def multipartBoundary (contentType : CString) : Except Abort (List UInt8) :=
  match strcasestr contentType.bytes 0 (ascii "boundary=") with
  | none => throw (.rejected (.noBoundary contentType))
  | some bnd =>
    if isSeparate contentType.bytes 0 bnd then
      let b := contentType.bytes.drop (bnd + 9)
      return trimSpaces (b.takeWhile (fun c => c ≠ '\n'.toUInt8 && c ≠ ';'.toUInt8))
    else throw (.rejected (.noBoundary contentType))

/-- The query made of a form, and the files that are saved. -/
def parseMultipart (contentType : CString) (body : List UInt8) (documents : Nat → CString) :
    Except Abort (List UInt8 × List SavedFile) := do
  let boundary ← multipartBoundary contentType
  partsLoop boundary body.length documents (body.length + 1) (body ++ [0, 0]) 0 [] []

end Vely
