import Vely.Lib.Block
import Vely.Lib.Decimal
import Vely.Lib.Ctype

/-!
# Sending a request to a FastCGI server (`fcli.c`)

A request is sent as records: the begin of the request, one record with the parameters, and the body
in as many records as it takes.  The size of the parameters is computed first, and they are then
written to memory of that size.
-/

namespace Vely

namespace Fcgi

/-- Why a request is not sent.  `waiting` is not an error: `write` has not returned yet. -/
inductive FcError where
  | envOdd
  | envTooLong
  | sockWrite
  | fault
  | waiting
  deriving DecidableEq

/-- What a call of `write` comes to: a number of bytes, not more than there are, after which the
time may be up; an interruption by a signal; or an error. -/
inductive WriteResult where
  | written (n : Nat) (timeUp : Bool)
  | interrupted
  | failed

/-- The socket, when it is written to: what the next calls of `write` come to, and what was sent. -/
structure Wire where
  results : List WriteResult
  sent : List UInt8

/-- The loop of `vv_write_socket`, with the bytes that remain to be written. -/
def writeFrom (buf : List UInt8) (sent : List UInt8) : List WriteResult → Except FcError Wire
  | [] => .error .waiting
  | .written n timeUp :: results =>
    if buf.length ≤ n then .ok ⟨results, sent ++ buf⟩
    else if timeUp then .error .sockWrite
    else writeFrom (buf.drop n) (sent ++ buf.take n) results
  | .interrupted :: results => writeFrom buf sent results
  | .failed :: _ => .error .sockWrite

/-- `vv_write_socket` -/
def vvWriteSocket (buf : List UInt8) (w : Wire) : Except FcError Wire := writeFrom buf w.sent w.results

/-- `VV_FC_BEG_REQ` -/
def begReq : Nat := 1

/-- `VV_FC_PARAM` -/
def param : Nat := 4

/-- `VV_FC_STDIN` -/
def stdin : Nat := 5

/-- `VV_FC_MAX_LEN` -/
def maxLen : Nat := 0xffff

/-- The size of a header, `sizeof(fc_header)`. -/
def headerSize : Nat := 8

/-- `req_id`, which is always one. -/
def reqId : Nat := 1

/-- `build_hdr` -/
def buildHdr (contentLen type : Nat) : List UInt8 :=
  [1, UInt8.ofNat type, 0, UInt8.ofNat reqId, UInt8.ofNat ((contentLen >>> 8) &&& 0xff),
    UInt8.ofNat (contentLen &&& 0xff), 0, 0]

/-- `begin_request`, for the role of a responder. -/
def beginRequest : List UInt8 := [0, 1, 0, 0, 0, 0, 0, 0]

/-- The request in a handle (`vv_fc`): `contentLen` is the length of the body if there is one, and
`env` is the environment up to its `NULL`, with names and values by turns. -/
structure Request where
  reqMethod : CString
  appPath : CString
  req : CString
  urlPayload : Option CString
  contentType : Option CString
  contentLen : Int
  reqBody : Option (List UInt8)
  env : Option (List CString)
  bodyLength : ∀ b ∈ reqBody, contentLen = b.length

/-- The body that is sent: there is none without a length or a content type. -/
def Request.body (r : Request) : Option (List UInt8 × CString) :=
  match r.reqBody, r.contentType with
  | some b, some t => if r.contentLen = 0 ∨ t.bytes = [] then none else some (b, t)
  | _, _ => none

/-- The text of `content_len`. -/
def clen (r : Request) : CString where
  bytes := decimal r.contentLen.toNat
  nonzero := by
    intro h
    exact absurd (isdigit_of_mem_decimal h) (by decide)

/-! ## The URL payload -/

/-- The query string and the path, with their lengths. -/
structure Payload where
  queryString : Option CString
  queryStringL : Nat
  pathInfo : CString
  pathInfoL : Nat

/-- The end of the path in a payload: the first `?` after the last `/`, or the end of the payload.
It is looked for backwards from `l`; zero if there is no `/`. -/
def pathEnd (s : List UInt8) : Nat → Nat
  | 0 => 0
  | l + 1 =>
    if s[l]? = some 47 then l + 1 + ((s.drop (l + 1)).takeWhile (· ≠ 63)).length
    else pathEnd s l

/-- The part of a string from `i` on. -/
def dropString (s : CString) (i : Nat) : CString :=
  ⟨s.bytes.drop i, fun h => s.nonzero (List.mem_of_mem_drop h)⟩

/-- The first `i` bytes of a string. -/
def takeString (s : CString) (i : Nat) : CString :=
  ⟨s.bytes.take i, fun h => s.nonzero (List.mem_of_mem_take h)⟩

/-- `parse_payload` -/
def parsePayload (r : Request) : Payload :=
  match r.urlPayload with
  | none => ⟨none, 0, r.req, r.req.length⟩
  | some s =>
    if s.bytes = [] then ⟨some s, 0, r.req, r.req.length⟩
    else
      let queryStringL := s.length
      let l := pathEnd s.bytes queryStringL
      if 0 < l then
        let path := r.req.append (takeString s l)
        if l < s.length then ⟨some (dropString s (l + 1)), queryStringL - (l + 1), path, r.req.length + l⟩
        else ⟨some CString.empty, 0, path, r.req.length + l⟩
      else ⟨some s, queryStringL, r.req, r.req.length⟩

/-! ## The parameters -/

/-- `vv_size_env` -/
def vvSizeEnv (nameLen valLen paramLen : Nat) : Nat :=
  let paramLen := if nameLen < 0x80 then paramLen + 1 else paramLen + 4
  let paramLen := if valLen < 0x80 then paramLen + 1 else paramLen + 4
  paramLen + nameLen + valLen

/-- The header of `vv_send_env` for one length. -/
def lengthHdr (n : Nat) : List UInt8 :=
  if n < 0x80 then [UInt8.ofNat n]
  else
    [UInt8.ofNat ((n >>> 24) ||| 0x80), UInt8.ofNat (n >>> 16), UInt8.ofNat (n >>> 8), UInt8.ofNat n]

/-- The memory for the parameters, and the position in it. -/
abbrev Env := Block × Nat

/-- Bytes are copied to the position in the memory. -/
def copyEnv (bytes : List UInt8) (env : Env) : Except FcError Env :=
  match env.1.putAll env.2 bytes with
  | .ok b => .ok (b, env.2 + bytes.length)
  | .error _ => .error .fault

/-- `vv_send_env`, with the lengths that were computed before. -/
def vvSendEnv (name : CString) (nameLen : Nat) (val : CString) (valLen : Nat) (env : Env) :
    Except FcError Env := do
  let env ← copyEnv (lengthHdr nameLen ++ lengthHdr valLen) env
  let env ← copyEnv (name.block.take nameLen) env
  copyEnv (val.block.take valLen) env

/-- A string that is not `NULL` or empty. -/
def given (s : Option CString) : Option CString := s.filter fun s => s.bytes ≠ []

/-- The sizes of an environment are added, and its lengths are kept. -/
def sizeEnvs : List CString → Nat → Nat × List (Nat × Nat)
  | name :: val :: env, paramLen =>
    let (paramLen, lens) := sizeEnvs env (vvSizeEnv name.length val.length paramLen)
    (paramLen, (name.length, val.length) :: lens)
  | _, paramLen => (paramLen, [])

/-- An environment is written, with the lengths that were kept. -/
def sendEnvs : List CString → List (Nat × Nat) → Env → Except FcError Env
  | name :: val :: env, (nlen, vlen) :: lens, e => do
    let e ← vvSendEnv name nlen val vlen e
    sendEnvs env lens e
  | _, _, e => .ok e

/-- The size of the query string is added, if there is one. -/
def sizeQuery (p : Payload) (n : Nat) : Nat :=
  match given p.queryString with
  | some _ => vvSizeEnv (ascii "QUERY_STRING").length p.queryStringL n
  | none => n

/-- The sizes of the length and the type of the body are added, if there is one. -/
def sizeContent (r : Request) (n : Nat) : Nat :=
  match r.body with
  | some (_, contentType) =>
    let n := vvSizeEnv (ascii "CONTENT_LENGTH").length (clen r).length n
    vvSizeEnv (ascii "CONTENT_TYPE").length contentType.length n
  | none => n

/-- The sizing pass of `vv_fc_request`. -/
def sizePass (r : Request) (p : Payload) : Nat × List (Nat × Nat) :=
  let n := vvSizeEnv (ascii "REQUEST_METHOD").length r.reqMethod.length 0
  let n := vvSizeEnv (ascii "SCRIPT_NAME").length r.appPath.length n
  let n := vvSizeEnv (ascii "PATH_INFO").length p.pathInfoL n
  let n := sizeQuery p n
  let n := sizeContent r n
  match r.env with
  | some env => sizeEnvs env n
  | none => (n, [])

/-- The name of a parameter. -/
def literal (s : String) (h : 0 ∉ ascii s) : CString := ⟨ascii s, h⟩

theorem zero_notMem_requestMethod :
  0 ∉ ascii "REQUEST_METHOD"
  := by decide

theorem zero_notMem_scriptName :
  0 ∉ ascii "SCRIPT_NAME"
  := by decide

theorem zero_notMem_pathInfo :
  0 ∉ ascii "PATH_INFO"
  := by decide

theorem zero_notMem_queryString :
  0 ∉ ascii "QUERY_STRING"
  := by decide

theorem zero_notMem_contentLength :
  0 ∉ ascii "CONTENT_LENGTH"
  := by decide

theorem zero_notMem_contentType :
  0 ∉ ascii "CONTENT_TYPE"
  := by decide

/-- The query string is written, if there is one. -/
def sendQuery (p : Payload) (e : Env) : Except FcError Env :=
  match given p.queryString with
  | some q =>
    vvSendEnv (literal "QUERY_STRING" zero_notMem_queryString) (ascii "QUERY_STRING").length q
      p.queryStringL e
  | none => .ok e

/-- The length and the type of the body are written, if there is one. -/
def sendContent (r : Request) (e : Env) : Except FcError Env :=
  match r.body with
  | some (_, contentType) => do
    let e ← vvSendEnv (literal "CONTENT_LENGTH" zero_notMem_contentLength)
      (ascii "CONTENT_LENGTH").length (clen r) (clen r).length e
    vvSendEnv (literal "CONTENT_TYPE" zero_notMem_contentType) (ascii "CONTENT_TYPE").length contentType
      contentType.length e
  | none => .ok e

/-- The sending pass of `vv_fc_request`. -/
def sendPass (r : Request) (p : Payload) (lens : List (Nat × Nat)) (e : Env) : Except FcError Env := do
  let e ← vvSendEnv (literal "REQUEST_METHOD" zero_notMem_requestMethod)
    (ascii "REQUEST_METHOD").length r.reqMethod r.reqMethod.length e
  let e ← vvSendEnv (literal "SCRIPT_NAME" zero_notMem_scriptName) (ascii "SCRIPT_NAME").length
    r.appPath r.appPath.length e
  let e ← vvSendEnv (literal "PATH_INFO" zero_notMem_pathInfo) (ascii "PATH_INFO").length p.pathInfo
    p.pathInfoL e
  let e ← sendQuery p e
  let e ← sendContent r e
  match r.env with
  | some env => sendEnvs env lens e
  | none => .ok e

/-! ## The request -/

/-- The bytes in the first `n` cells of a block. -/
def bytesOf (b : Block) (n : Nat) : Except FcError (List UInt8) :=
  match (b.cells.take n).mapM id with
  | some s => if s.length = n then .ok s else .error .fault
  | none => .error .fault

/-- The loop that sends the body, `ibody` and `reqBodyLen` being what is left of it. -/
def sendBody : Nat → List UInt8 → Nat → Wire → Except FcError Wire
  | 0, _, _, w => .ok w
  | fuel + 1, ibody, reqBodyLen, w =>
    if 0 < reqBodyLen then do
      let currPacketLen := if maxLen - headerSize < reqBodyLen then maxLen - headerSize else reqBodyLen
      let w ← vvWriteSocket (buildHdr currPacketLen stdin) w
      let w ← vvWriteSocket (ibody.take currPacketLen) w
      sendBody fuel (ibody.drop currPacketLen) (reqBodyLen - currPacketLen) w
    else .ok w

/-- The parameters are sent, and the empty record that ends them. -/
def sendParams (r : Request) (p : Payload) (w : Wire) : Except FcError Wire := do
  let (paramLen, lens) := sizePass r p
  if maxLen - headerSize ≤ paramLen then throw .envTooLong
  else do
    let w ← vvWriteSocket (buildHdr paramLen param) w
    let (env, envP) ← sendPass r p lens (Block.alloc paramLen, 0)
    let bytes ← bytesOf env envP
    let w ← vvWriteSocket bytes w
    vvWriteSocket (buildHdr 0 param) w

/-- The body is sent, and the empty record that ends it. -/
def sendStdin (r : Request) (w : Wire) : Except FcError Wire :=
  match r.body with
  | some (ibody, _) => do
    let w ← sendBody ibody.length ibody r.contentLen.toNat w
    vvWriteSocket (buildHdr 0 stdin) w
  | none => .ok w

/-- Whether a name or a value is missing in the environment. -/
def envOdd (r : Request) : Bool := r.env.any fun env => env.length % 2 ≠ 0

/-- `vv_fc_request`, from the connection to the server up to the reading of its response, when there
is memory for it. -/
def vvFcSend (r : Request) (w : Wire) : Except FcError Wire := do
  let w ← vvWriteSocket (buildHdr beginRequest.length begReq ++ beginRequest) w
  let p := parsePayload r
  if envOdd r then throw .envOdd
  else do
    let w ← sendParams r p w
    sendStdin r w

end Fcgi

end Vely
