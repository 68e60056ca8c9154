import Vely.Lib.FastCgi

/-!
# Reading the response of a FastCGI server (`fcli.c`)

The response is read from the socket, header by header, each followed by its content and its
padding.  The contents are gathered in three streams, those of the data, of the errors, and of all
other records.
-/

namespace Vely

namespace Fcgi

/-- What is after a call of `read` that got some bytes: there is time to go on, the time is up, or
it cannot be set anew. -/
inductive AfterRead where
  | goOn
  | timeUp
  | cannotSet
  deriving DecidableEq

/-- What a call of `read` comes to: `n + 1` bytes, or fewer if fewer were asked for or are there; an
interruption by a signal; or an error, with the time up or not. -/
inductive ReadResult where
  | got (n : Nat) (after : AfterRead)
  | interrupted
  | failed (timeUp : Bool)

/-- The socket, when it is read: the bytes the server sends before it closes the connection, and
what the next calls of `read` come to. -/
structure Socket where
  bytes : List UInt8
  results : List ReadResult

/-- `VV_FC_ERR_SOCK_READ` -/
def errSockRead : Int := -1

/-- `VV_FC_ERR_PROT_ERR` -/
def errProtErr : Int := -2

/-- `VV_FC_ERR_BAD_VER` -/
def errBadVer : Int := -3

/-- `VV_FC_ERR_SRV` -/
def errSrv : Int := -4

/-- `VV_FC_ERR_UNK` -/
def errUnk : Int := -5

/-- `VV_FC_ERR_TIMEOUT` -/
def errTimeout : Int := -10

/-- `VV_FC_END_REQ` -/
def endReq : UInt8 := 3

/-- `VV_FC_STDOUT` -/
def stdoutType : UInt8 := 6

/-- `VV_FC_STDERR` -/
def stderrType : UInt8 := 7

/-- `VV_FC_UNK_TYPE` -/
def unkType : UInt8 := 11

/-- The state of a request that reads its response (`fc_local`, with what of `vv_fc` it sets).  The
streams are as long as there is memory for them. -/
structure Reading where
  data : List UInt8
  error : List UInt8
  other : List UInt8
  doneHeader : Bool
  type : UInt8
  msgRemain : Nat
  paddingLen : Nat
  readDone : Bool
  readStatus : Int
  interrupted : Bool
  reqStatus : Int

/-- The state when the response begins to be read, `reqStatus` being what is in the handle. -/
def Reading.init (reqStatus : Int) : Reading :=
  ⟨[], [], [], false, 0, 0, 0, false, 0, false, reqStatus⟩

/-- The reading stops with an error. -/
def Reading.fail (c : Reading) (status : Int) : Reading := { c with readStatus := status }

/-- `check_read` -/
def checkRead (readLen : Int) (c : Reading) : Reading :=
  if readLen < 0 then c.fail errSockRead
  else if readLen = 0 then
    if c.doneHeader || 0 < c.msgRemain || 0 < c.paddingLen then c.fail errProtErr
    else if !c.readDone then c.fail errProtErr
    else c
  else c

/-- What `vv_read_socket` comes to: all bytes that were asked for, or none, in which case the
reading is over. -/
structure Gotten where
  buf : Option (List UInt8)
  reading : Reading
  socket : Socket

/-- The loop of `vv_read_socket` for `len` bytes, `gotten` being those it has already.  There is no
value as long as `read` has not returned.  When the connection is closed, `errno` is not `EINTR`. -/
def readFrom (len : Nat) (c : Reading) (bytes gotten : List UInt8) : List ReadResult → Option Gotten
  | [] => none
  | .interrupted :: results => readFrom len c bytes gotten results
  | .failed timeUp :: results =>
    some ⟨none, if timeUp then { c with interrupted := true } else checkRead (-1) c, bytes, results⟩
  | .got n after :: results =>
    if bytes = [] then
      some ⟨none, if after = .timeUp then { c with interrupted := true } else checkRead 0 c, bytes, results⟩
    else
      let res := min (n + 1) (len - gotten.length)
      let buf := gotten ++ bytes.take res
      let rest := bytes.drop res
      if len ≤ buf.length then some ⟨some buf, c, rest, results⟩
      else
        match after with
        | .goOn => readFrom len c rest buf results
        | .timeUp => some ⟨none, { c with interrupted := true }, rest, results⟩
        | .cannotSet => some ⟨none, checkRead (-1) c, rest, results⟩

/-- `vv_read_socket` -/
def vvReadSocket (len : Nat) (c : Reading) (s : Socket) : Option Gotten :=
  readFrom len c s.bytes [] s.results

/-- A state, and whether the loop of `fc_server_read` goes on. -/
structure Step where
  reading : Reading
  socket : Socket
  goOn : Bool

/-- The application status in the body of an end request, as an `int`. -/
def appStatus (body : List UInt8) : Int :=
  Int.bmod (body[0]?.getD 0).toNat 256 * 2 ^ 24 + (body[1]?.getD 0).toNat * 2 ^ 16
    + (body[2]?.getD 0).toNat * 2 ^ 8 + (body[3]?.getD 0).toNat

/-- The protocol status in the body of an end request. -/
def protocolStatus (body : List UInt8) : UInt8 := body[4]?.getD 0

/-- The size of the body of an end request, `sizeof(fc_end_req_body)`. -/
def endReqSize : Nat := 8

/-- The content of a record is added to its stream; for an end request, its body is looked at.  The
value says whether the reading goes on. -/
def takeContent (buf : List UInt8) (c : Reading) : Reading × Bool :=
  if c.type = stdoutType then ({ c with data := c.data ++ buf }, true)
  else if c.type = stderrType then ({ c with error := c.error ++ buf }, true)
  else if c.type = endReq then
    if buf.length ≠ endReqSize then (c.fail errProtErr, false)
    else if protocolStatus buf ≠ 0 then ({ c with readDone := true }.fail errSrv, false)
    else ({ c with readDone := true, reqStatus := appStatus buf }, true)
  else ({ c with other := c.other ++ buf }, true)

/-- The content of a record is read, if it has one. -/
def readContent (c : Reading) (s : Socket) : Option Step :=
  if 0 < c.msgRemain then
    match vvReadSocket c.msgRemain c s with
    | none => none
    | some ⟨none, c, s⟩ => some ⟨c, s, false⟩
    | some ⟨some buf, c, s⟩ =>
      let x := takeContent buf c
      some ⟨if x.2 then { x.1 with msgRemain := 0 } else x.1, s, x.2⟩
  else some ⟨c, s, true⟩

/-- The padding of a record is read, if it has one, and the next header is to be read. -/
def readPadding (c : Reading) (s : Socket) : Option Step :=
  if c.type = unkType then some ⟨c.fail errUnk, s, false⟩
  else if 0 < c.paddingLen then
    match vvReadSocket c.paddingLen c s with
    | none => none
    | some ⟨none, c, s⟩ => some ⟨c, s, false⟩
    | some ⟨some _, c, s⟩ => some ⟨{ c with paddingLen := 0, doneHeader := false }, s, true⟩
  else some ⟨{ c with doneHeader := false }, s, true⟩

/-- The message after a header. -/
def readMessage (c : Reading) (s : Socket) : Option Step :=
  (readContent c s).bind fun x => if x.goOn then readPadding x.reading x.socket else some x

/-- A header that was read. -/
def takeHeader (header : List UInt8) (c : Reading) : Reading × Bool :=
  let byte := fun i => header[i]?.getD 0
  if byte 0 ≠ 1 then (c.fail errBadVer, false)
  else if (byte 3).toNat + (byte 2).toNat * 2 ^ 8 ≠ 1 then (c.fail errProtErr, false)
  else
    ({ c with
      type := byte 1
      msgRemain := (byte 5).toNat + (byte 4).toNat * 2 ^ 8
      paddingLen := (byte 6).toNat
      doneHeader := true }, true)

/-- A header is read. -/
def readHeader (c : Reading) (s : Socket) : Option Step :=
  match vvReadSocket 8 c s with
  | none => none
  | some ⟨none, c, s⟩ => some ⟨c, s, false⟩
  | some ⟨some header, c, s⟩ =>
    let x := takeHeader header c
    some ⟨x.1, s, x.2⟩

/-- The loop of `fc_server_read`. -/
def serverReadLoop : Nat → Reading → Socket → Option Reading
  | 0, _, _ => none
  | fuel + 1, c, s =>
    match if c.doneHeader then readMessage c s else readHeader c s with
    | none => none
    | some x =>
      if !x.goOn || x.reading.readDone then some x.reading
      else serverReadLoop fuel x.reading x.socket

/-- `fc_server_read`.  Each header takes bytes of the socket, so that the fuel is enough. -/
def fcServerRead (c : Reading) (s : Socket) : Option Reading :=
  serverReadLoop (2 * s.bytes.length + 2) c s

/-- What a request returns: the return code, and in the handle the data, the errors and the status.
-/
structure Response where
  returnCode : Int
  data : List UInt8
  error : List UInt8
  reqStatus : Int
  deriving DecidableEq

/-- The end of `vv_fc_request`, when the request was sent. -/
def vvFcReceive (reqStatus : Int) (s : Socket) : Option Response :=
  (fcServerRead (Reading.init reqStatus) s).map fun c =>
    ⟨if c.interrupted then errTimeout else c.readStatus, c.data, c.error, c.reqStatus⟩

end Fcgi

end Vely
