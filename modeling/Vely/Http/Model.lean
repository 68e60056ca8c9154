import Vely.Cookie.Model
import Vely.Dispatch.Model
import Vely.Output.Model

/-!
# The response of a request (`vely_out_file`, `vely_write_web`, `vely_report_error`)

Header lines, the line that ends them and the data are written to the client as they come.  Two
flags of the request tell what was written, `sent_header` when header lines were, and
`data_was_output` when their end was; a third one, `silent`, keeps all of the header from being
written.  An error that is reported ends the request.
-/

namespace Vely

namespace Http

/-- What is written to the client: a line of the header, the line that ends the header, or data. -/
inductive Item where
  | header (name value : List UInt8)
  | terminator
  | body (data : List UInt8)
  deriving DecidableEq

/-- `vely_header`: the header of a page or a file; its content type is always set.  The `custom`
headers are those of `control` and `value` up to the first that is `NULL`. -/
structure Header where
  ctype : List UInt8
  disp : Option (List UInt8)
  fileName : Option (List UInt8)
  cacheControl : Option (List UInt8)
  etag : Bool
  statusId : Int
  statusText : Option (List UInt8)
  custom : List (List UInt8 × List UInt8)

/-- The status of a header, if it is set in full. -/
def Header.status (header : Header) : Option (Int × List UInt8) :=
  if header.statusId ≠ 0 then header.statusText.map fun text => (header.statusId, text) else none

/-- `VV_MAX_HTTP_HEADER` -/
def maxHttpHeader : Nat := 32

/-- `INT_MAX` -/
def intMax : Nat := 2 ^ 31 - 1

/-- What the output of a request depends on (`vely_input_req`), and what was written so far.  There
are `writeStrings` strings that are being written (`curr_write_to_string` is one less). -/
structure State extends Cookies.Req where
  sentHeader : Bool
  disableOutput : Bool
  writeStrings : Nat
  header : Option Header
  ifNoneMatch : Option CString
  out : List Item

/-- A request before its first output (`vely_init_input_req`), with the cookies that came in. -/
def State.start (silent : Bool) (cookies : List (List UInt8)) (ifNoneMatch : Option CString) :
    State where
  toReq := Cookies.Req.start silent cookies
  sentHeader := false
  disableOutput := false
  writeStrings := 0
  header := none
  ifNoneMatch := ifNoneMatch
  out := []

namespace State

/-! ### Header lines -/

/-- `vely_gen_add_header` -/
def genAddHeader (name value : List UInt8) (s : State) : State :=
  if s.silent then s else { s with out := s.out ++ [.header name value] }

/-- A number as `%ld` prints it. -/
def decimalInt (n : Int) : List UInt8 := if n < 0 then 45 :: decimal n.natAbs else decimal n.natAbs

/-- `vely_gen_set_status` -/
def genSetStatus (st : Int) (line : List UInt8) : State → State :=
  genAddHeader (ascii "Status") (decimalInt st ++ 32 :: line)

/-- `vely_gen_set_content_type` -/
def genSetContentType : List UInt8 → State → State := genAddHeader (ascii "Content-Type")

/-- `vely_gen_set_content_length` -/
def genSetContentLength : List UInt8 → State → State := genAddHeader (ascii "Content-length")

/-- The loop over the headers that the caller set. -/
def genAddCustom : List (List UInt8 × List UInt8) → State → State
  | [], s => s
  | (control, value) :: custom, s => genAddCustom custom (s.genAddHeader control value)

/-- The lines for the cache: those that are set, or none at all is kept. -/
def genCacheControl (cacheControl : Option (List UInt8)) (s : State) : State :=
  match cacheControl with
  | some cacheControl => s.genAddHeader (ascii "Cache-Control") cacheControl
  | none =>
    (s.genAddHeader (ascii "Cache-Control") (ascii "max-age=0, no-cache")).genAddHeader
      (ascii "Pragma") (ascii "no-cache")

/-- `vely_gen_header_end`: the cookies that were set, and the end of the header. -/
def genHeaderEnd (s : State) : State :=
  if s.dataWasOutput then s
  else if s.silent then { s with dataWasOutput := true }
  else
    let lines := ((s.cookies.filter Cookies.Cookie.isSetByProgram).map Cookies.Cookie.data).map
      (Item.header (ascii "Set-Cookie"))
    { s with dataWasOutput := true, out := s.out ++ lines ++ [.terminator] }

/-- The content type of pages. -/
def htmlType : List UInt8 := ascii "text/html;charset=utf-8"

/-- The status of a page: the one that is set, or `200`. -/
def genPageStatus (header : Option Header) (s : State) : State :=
  match header.bind Header.status with
  | some (statusId, statusText) => s.genSetStatus statusId statusText
  | none => s.genSetStatus 200 (ascii "OK")

/-- `vely_send_header` -/
def velySendHeader (s : State) : State :=
  let ctype := match s.header with
    | some header => header.ctype
    | none => htmlType
  let custom := match s.header with
    | some header => header.custom.take maxHttpHeader
    | none => []
  (((s.genSetContentType ctype).genCacheControl (s.header.bind Header.cacheControl)).genPageStatus
    s.header).genAddCustom custom

/-- `vely_output_http_header` -/
def velyOutputHttpHeader (s : State) : State :=
  if s.sentHeader then s
  else if s.disableOutput then s
  else velySendHeader { s with sentHeader := true }

/-! ### Pages for errors -/

/-- `vely_header_err`: whether no header was sent yet. -/
def velyHeaderErr (s : State) : State × Bool :=
  if s.sentHeader then (if s.dataWasOutput then s else s.genHeaderEnd, false)
  else ({ s with sentHeader := true }, true)

/-- What `vely_server_error`, `vely_cant_find_file` and `vely_bad_request` do, each with its status.
-/
def errorPage (st : Int) (line : List UInt8) (s : State) : State :=
  if s.velyHeaderErr.2 then
    ((s.velyHeaderErr.1.genSetStatus st line).genSetContentType htmlType).genHeaderEnd
  else s.velyHeaderErr.1

/-- `vely_server_error` -/
def velyServerError : State → State := errorPage 500 (ascii "Internal Server Error")

/-- `vely_cant_find_file` -/
def velyCantFindFile : State → State := errorPage 404 (ascii "Not Found")

/-- `vely_bad_request` -/
def velyBadRequest : State → State := errorPage 400 (ascii "Bad Request")

/-- `vely_report_error`: the request goes no further. -/
def velyReportError (s : State) : Except State State := .error s.velyServerError

/-! ### Data -/

/-- `vely_gen_write`: data for the client, or an error for the server. -/
def genWrite (iserr : Bool) (data : List UInt8) (s : State) : State :=
  if iserr then s else { s with out := s.out ++ [.body data] }

/-- `vely_write_web`, when no error is being reported. -/
def velyWriteWeb (iserr : Bool) (data : List UInt8) (s : State) : Except State State :=
  if s.sentHeader then .ok ((if s.dataWasOutput then s else s.genHeaderEnd).genWrite iserr data)
  else s.velyReportError

/-- `vely_validate_output` -/
def velyValidateOutput (s : State) : Bool := ¬ (s.disableOutput ∧ s.writeStrings = 0)

/-- `vely_puts` and `vely_printf`, where `data` is what is to be written once it is encoded. -/
def velyPuts (iserr : Bool) (data : List UInt8) (s : State) : Except State State :=
  if s.velyValidateOutput then
    if s.writeStrings = 0 then s.velyWriteWeb iserr data else .ok s
  else s.velyReportError

/-! ### Files -/

/-- A file that is there: its time of modification, whether it can be opened, what it has, and
whether that can be read. -/
structure File where
  mtime : Int
  opens : Bool
  bytes : List UInt8
  readable : Bool

/-- The answer to a client that has the file already. -/
def notModified (header : Header) (s : State) : State :=
  ((s.genAddHeader (ascii "Status") (ascii "304 Not Modified")).genCacheControl
    header.cacheControl).genHeaderEnd

/-- The line of the time stamp of a file, if it is asked for. -/
def genEtag (header : Header) (file : File) (s : State) : State :=
  if header.etag then s.genAddHeader (ascii "Etag") (decimalInt file.mtime) else s

/-- The text that tells how a file is to be taken, cut to its buffer. -/
def dispName (header : Header) (disp : List UInt8) : List UInt8 :=
  Cookies.snprintf 500 (match header.fileName with
    | some fileName => disp ++ ascii "; filename*=UTF8''" ++ fileName.flatMap EncType.url.bytes
    | none => disp)

/-- The line that tells how a file is to be taken. -/
def genDisp (header : Header) (s : State) : State :=
  match header.disp with
  | some disp => s.genAddHeader (ascii "Content-Disposition") (dispName header disp)
  | none => s

/-- The header of a file without a content type: that of a page, for which output is allowed. -/
def pageHeader (header : Header) (file : File) (s : State) : State :=
  { velyOutputHttpHeader { s.genEtag header file with disableOutput := false } with
    disableOutput := s.disableOutput }

/-- The header of a file with a content type. -/
def fileHeader (header : Header) (file : File) (s : State) : State :=
  { (((((s.genSetContentType header.ctype).genSetContentLength (decimal file.bytes.length)).genDisp
      header).genCacheControl header.cacheControl).genEtag header file).genAddCustom
        (header.custom.take maxHttpHeader) with sentHeader := true }

/-- A file was not modified since the client got it. -/
def isMatch (file : File) (s : State) : Bool := s.ifNoneMatch.any fun tag => file.mtime = atol tag

/-- `vely_out_file` for a file that is there and was opened. -/
def sendOpened (file : File) (header : Header) (s : State) : Except State State :=
  if intMax ≤ file.bytes.length then .ok s.velyCantFindFile
  else if s.isMatch file then .ok (s.notModified header)
  else if ¬ file.readable ∨ file.bytes = [] then .ok s.velyCantFindFile
  else if header.ctype = [] then (s.pageHeader header file).velyWriteWeb false file.bytes
  else (s.fileHeader header file).velyWriteWeb false file.bytes

/-- `vely_out_file` once output is disabled, where `file` is what has the name. -/
def sendNamed (fname : List UInt8) (file : Option File) (header : Header) (s : State) :
    Except State State :=
  if ascii ".." <:+: fname then .ok s.velyCantFindFile
  else
    match file with
    | none => .ok s.velyCantFindFile
    | some file => if file.opens then s.sendOpened file header else .ok s.velyCantFindFile

/-- `vely_out_file` -/
def velyOutFile (fname : List UInt8) (file : Option File) (header : Header) (s : State) :
    Except State State :=
  if s.velyValidateOutput then
    if s.sentHeader then s.velyReportError
    else sendNamed fname file header { s with disableOutput := true }
  else s.velyReportError

/-! ### Strings and cookies -/

/-- `vely_write_to_string` with a string. -/
def startWriteString (s : State) : Except State State :=
  let s := { s with writeStrings := s.writeStrings + 1 }
  if Output.maxNestedWriteString < s.writeStrings then s.velyReportError else .ok s

/-- `vely_write_to_string` without a string. -/
def stopWriteString (s : State) : Except State State :=
  if s.writeStrings = 0 then s.velyReportError
  else .ok { s with writeStrings := s.writeStrings - 1 }

/-- A call for cookies, an error of which is reported. -/
def withCookies (s : State) : Except Cookies.CookieError Cookies.Req → Except State State
  | .ok req => .ok { s with toReq := req }
  | .error _ => s.velyReportError

/-- `vely_shut`: the header is ended if it was not. -/
def velyShut (s : State) : State := if s.sentHeader ∧ ¬ s.dataWasOutput then s.genHeaderEnd else s

end State

/-! ### Requests -/

/-- What a request does. -/
inductive Op where
  | output (iserr : Bool) (data : List UInt8)
  | startWriteString
  | stopWriteString
  | silentHeader
  | outHeader (use : Option Header)
  | setCookie (name value : List UInt8) (path expires : Option (List UInt8))
    (samesite httponly secure : List UInt8)
  | deleteCookie (name : List UInt8) (path : Option (List UInt8)) (secure : List UInt8)
  | sendFile (fname : List UInt8) (file : Option State.File) (header : Header)
  | badRequest
  | reportError

/-- What one of them does; with an error, the request is at its end. -/
def Op.exec (s : State) : Op → Except State State
  | .output iserr data => s.velyPuts iserr data
  | .startWriteString => s.startWriteString
  | .stopWriteString => s.stopWriteString
  | .silentHeader => .ok { s with silent := true }
  | .outHeader (some header) => .ok ({ s with header := some header }).velyOutputHttpHeader
  | .outHeader none => .ok s.velyOutputHttpHeader
  | .setCookie name value path expires samesite httponly secure =>
    s.withCookies (Cookies.velySetCookie s.toReq name value path expires samesite httponly secure)
  | .deleteCookie name path secure =>
    s.withCookies ((Cookies.velyDeleteCookie s.toReq name path secure).map Prod.fst)
  | .sendFile fname file header => s.velyOutFile fname file header
  | .badRequest => .ok s.velyBadRequest
  | .reportError => s.velyReportError

/-- A request: what it does, until it is at its end, and `vely_shut`. -/
def run : List Op → State → State
  | [], s => s.velyShut
  | op :: ops, s =>
    match op.exec s with
    | .ok s => run ops s
    | .error s => s.velyShut

end Http

end Vely
