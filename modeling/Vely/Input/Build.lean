import Vely.Input.Multipart

/-!
# The text of the input (`vely_get_input`)

The text that is decoded comes from the body, when that is a query or a form, and from the query of
the address.
-/

namespace Vely

/-- `VV_ALIGN` -/
def alignment : Nat := 16

/-- What a request comes with: the variables of its environment, the bytes of its body, what the
application is set up with, and the places for the files that are saved. -/
structure InputEnv where
  method : CString
  contentType : CString
  contentLength : CString
  body : List UInt8
  query : CString
  scriptName : CString
  pathInfo : CString
  maxUploadSize : Nat
  applicationPath : CString
  documents : Nat → CString

/-- The method of a request. -/
inductive RequestMethod where
  | post
  | get
  | patch
  | put
  | delete
  | other
  deriving DecidableEq

/-- The method with a name. -/
def requestMethod (name : CString) : RequestMethod :=
  if strcasecmp name.bytes (ascii "POST") then .post
  else if strcasecmp name.bytes (ascii "GET") then .get
  else if strcasecmp name.bytes (ascii "PATCH") then .patch
  else if strcasecmp name.bytes (ascii "PUT") then .put
  else if strcasecmp name.bytes (ascii "DELETE") then .delete
  else .other

/-- The number that a text starts with; it is read as a `long` and stored to an `int`. -/
def atoi (s : List UInt8) : Int :=
  let s := s.dropWhile isspace
  let negative := s.head? = some '-'.toUInt8
  let digits := if negative ∨ s.head? = some '+'.toUInt8 then s.drop 1 else s
  let n : Int := decimalValue (digits.takeWhile isdigit)
  let n := if negative then max (-n) (-2 ^ 63) else min n (2 ^ 63 - 1)
  (n + 2 ^ 31) % 2 ^ 32 - 2 ^ 31

namespace InputEnv

/-- `is_multipart` -/
def isMultipart (env : InputEnv) : Bool :=
  match strcasestr env.contentType.bytes 0 (ascii "multipart/form-data;") with
  | none => false
  | some mform => isSeparate env.contentType.bytes 0 mform

/-- `is_query_string` -/
def isQueryString (env : InputEnv) : Bool :=
  strcasecmp env.contentType.bytes (ascii "application/x-www-form-urlencoded")

/-- The number in `CONTENT_LENGTH`. -/
def length (env : InputEnv) : Int := atoi env.contentLength.bytes

end InputEnv

/-- The content, and its length without the terminators (`content`, `cont_len_byte`); none for
NULL. -/
structure Content where
  block : Option Block
  length : Int

/-- A block of `size` cells, a number of type `num`: more memory is asked for by `alignment`, and a
number below zero then is too much. -/
def velyMalloc (size : Int) : Except Stop Block :=
  if size + alignment < 0 then .error .outOfMemory else .ok (.alloc size.toNat)

/-- `content[i] = c` -/
def storeByte (b : Block) (i : Int) (c : UInt8) : Except Stop Block :=
  if i < 0 then .error .fault else b.put i.toNat c

/-- Content without text. -/
def emptyContent : Except Stop Content := do
  let block ← velyMalloc 2
  let block ← storeByte block 0 0
  return ⟨some block, 0⟩

/-- `vely_gen_util_read`: the first `len` bytes of the body, and a terminator -/
def velyGenUtilRead (body : List UInt8) (block : Block) (len : Int) : Except Abort Block := do
  if (body.length : Int) < len then throw (.rejected .unreadBody)
  else
    let block ← block.putAll 0 (body.take len.toNat)
    storeByte block len 0

/-- The body is read, if there is a content type and a length. -/
def receiveBody (env : InputEnv) : Except Abort Content :=
  if env.contentType.bytes ≠ [] then
    if env.contentLength.bytes ≠ [] ∧ env.length ≠ 0 then do
      if env.isQueryString = false ∧ env.length ≥ env.maxUploadSize then
        throw (.rejected (.uploadTooLarge env.length))
      else if env.isQueryString = true ∧ env.length ≥ maxSizeOfUrl then
        throw (.rejected .queryTooLarge)
      else
        let block ← velyMalloc (env.length + 2)
        let block ← velyGenUtilRead env.body block env.length
        let block ← storeByte block (env.length + 1) 0
        let block ← storeByte block env.length 0
        return ⟨some block, env.length⟩
    else return ⟨none, 0⟩
  else liftM emptyContent

/-- The block that holds the query made of a form; nothing is written to it without a part. -/
def formBlock (newCont : List UInt8) : Block :=
  if newCont = [] then .alloc (maxSizeOfUrl + 1)
  else ⟨newCont.dropLast.map some ++ some 0 :: some 0
    :: List.replicate (maxSizeOfUrl - newCont.length) none⟩

/-- The content that depends on the method. -/
def methodContent (env : InputEnv) (content : Content) :
    Except Abort (Content × List SavedFile) :=
  if strcasecmp env.method.bytes (ascii "OPTIONS") then throw .answered
  else
    match requestMethod env.method with
    | .get | .delete | .other =>
      if env.isQueryString then return (content, [])
      else do
        let content ← emptyContent
        return (content, [])
    | .post | .put | .patch =>
      if env.contentType.bytes ≠ [] then
        if env.contentLength.bytes = [] then throw (.rejected .missingContentLength)
        else if content.length = 0 then throw (.rejected .zeroContentLength)
        else if env.isMultipart then do
          let (newCont, files) ←
            parseMultipart env.contentType (env.body.take content.length.toNat) env.documents
          return (⟨some (formBlock newCont), (newCont.length - 1 : Nat)⟩, files)
        else if env.isQueryString then return (content, [])
        else do
          let content ← emptyContent
          return (content, [])
      else if content.length ≠ 0 then throw (.rejected .lengthWithoutType)
      else return (content, [])

/-- The query of the address is joined to the content. -/
def joinQuery (query : CString) (content : Content) : Except Stop Content :=
  if query.bytes ≠ [] then do
    let size := (content.length + query.length + 3).toNat
    let block := match content.block with
      | some block => block.realloc size
      | none => .alloc size
    let (block, length) ←
      if content.length > 0 then do
        let block ← storeByte block content.length '&'.toUInt8
        .ok (block, content.length + 1)
      else .ok (block, content.length)
    let block ← block.putAll length.toNat query.block
    return ⟨some block, length + query.length + 1⟩
  else return content

/-- The content that is decoded, and the files that were saved. -/
def buildContent (env : InputEnv) : Except Abort (Content × List SavedFile) := do
  if env.method.bytes = [] then throw (.rejected .noRequestMethod)
  else
    let content ← receiveBody env
    let (content, files) ← methodContent env content
    let content ← joinQuery env.query content
    return (content, files)

/-- The parameters of the body and the query, and the files that were saved. -/
def bodyParams (env : InputEnv) : Except Abort (List InputParam × List SavedFile) := do
  let (content, files) ← buildContent env
  match content.block with
  | none => throw (.stop .fault)
  | some block =>
    let params ← parseParams block
    return (params, files)

end Vely
