import Vely.Lib.Ctype
import Vely.Lib.Substring

/-!
# Cookies

The cookies of a request are kept as the texts `name=value` that came in, and those that are set or
deleted as the text of their `Set-Cookie` line, in one list.  A cookie is found by its name at the
start of the text.  Texts are the bytes of C strings.
-/

namespace Vely

namespace Cookies

/-- `vely_cookies`: a cookie of the request, or one that was set or deleted. -/
structure Cookie where
  data : List UInt8
  isSetByProgram : Bool
  deriving DecidableEq

/-- What a request has of cookies, whether data was output for it, and whether it has no header. -/
structure Req where
  cookies : List Cookie
  dataWasOutput : Bool
  silent : Bool

/-- What `vely_report_error` is called for. -/
inductive CookieError where
  | tooManyInRequest
  | afterOutput
  | nameInvalid
  | nameEmpty
  | valueInvalid
  | valueEmpty
  | secureInvalid
  | httpOnlyInvalid
  | sameSiteInvalid
  | tooMany
  deriving DecidableEq

/-- `VV_MAX_COOKIES` -/
def maxCookies : Nat := 256

/-- `VV_MAX_COOKIE_SIZE` -/
def maxCookieSize : Nat := 2048

/-- `snprintf` to a buffer of a size: what does not fit is left out. -/
def snprintf (size : Nat) (s : List UInt8) : List UInt8 := s.take (size - 1)

/-- What is after the first occurrence of a text, if it is there but for the case of letters. -/
def afterStrcasestr (s find : List UInt8) : Option (List UInt8) :=
  (Substr.search (find.map tolower) (s.map tolower)).map fun p => s.drop (p.1.length + find.length)

/-- The loop of `vely_get_input` over the cookies of a request, with room for `n` of them. -/
def requestCookies : Nat → List UInt8 → Except CookieError (List (List UInt8))
  | 0, _ => .error .tooManyInRequest
  | n + 1, cookie =>
    match cookie.dropWhile (· ≠ 59) with
    | [] => .ok [cookie]
    | _ :: ew => do
      let rest ← requestCookies n (ew.dropWhile isspace)
      .ok (cookie.takeWhile (· ≠ 59) :: rest)

/-- The cookies of `HTTP_COOKIE`, as `vely_get_input` takes them. -/
def velyGetInput (cookie : List UInt8) : Except CookieError (List (List UInt8)) :=
  if cookie = [] then .ok [] else requestCookies maxCookies cookie

/-- A request with the given cookies. -/
def Req.start (silent : Bool) (cookies : List (List UInt8)) : Req :=
  ⟨cookies.map fun data => ⟨data, false⟩, false, silent⟩

/-- A character that no name has; a `char` is signed. -/
def invalidInName (c : UInt8) : Bool :=
  c < 33 || 127 ≤ c || c ∈ ascii "()@,;:\\\"/[]?=\x7b\x7d"

/-- A character that no value has, where `first` and `last` tell where in the value it is. -/
def invalidInValue (first last : Bool) (c : UInt8) : Bool :=
  c < 33 || 127 ≤ c || c ∈ ascii ",;\\" || (c = 34 && !first && !last)

/-- A value from some character on has a character that is not valid there. -/
def invalidValue : Bool → List UInt8 → Bool
  | _, [] => false
  | first, c :: cs => invalidInValue first cs.isEmpty c || invalidValue false cs

/-- `vely_check_set_cookie`: the safety clause. -/
def velyCheckSetCookie (name val secure samesite httponly : List UInt8) :
    Except CookieError (List UInt8) :=
  if name.any invalidInName then .error .nameInvalid
  else if name = [] then .error .nameEmpty
  else if invalidValue true val then .error .valueInvalid
  else if val = [] then .error .valueEmpty
  else if secure ≠ ascii "Secure; " ∧ secure ≠ [] then .error .secureInvalid
  else if httponly ≠ ascii "HttpOnly; " ∧ httponly ≠ [] then .error .httpOnlyInvalid
  else if samesite ≠ [] ∧ samesite ≠ ascii "Strict" ∧ samesite ≠ ascii "Lax"
      ∧ samesite ≠ ascii "None" then
    .error .sameSiteInvalid
  else if samesite ≠ [] then
    .ok (snprintf 200 (ascii "; " ++ secure ++ httponly ++ ascii "SameSite=" ++ samesite))
  else .ok (snprintf 200 (ascii "; " ++ secure ++ httponly))

/-- What `vely_find_cookie` finds: where the cookie is, its value, its path and its expiration. -/
structure Found where
  ind : Nat
  value : List UInt8
  path : Option (List UInt8)
  exp : Option (List UInt8)

/-- The text of a cookie starts with a name and the sign `=`. -/
def named (cookieName : List UInt8) (c : Cookie) : Bool := cookieName ++ [61] <+: c.data

/-- `vely_find_cookie` -/
def velyFindCookie (cookies : List Cookie) (cookieName : List UInt8) : Option Found :=
  match cookies.findIdx? (named cookieName) with
  | none => none
  | some ind =>
    let val := ((cookies[ind]?.map Cookie.data).getD []).drop (cookieName.length + 1)
    some ⟨ind, val.takeWhile (· ≠ 59),
      (afterStrcasestr val (ascii "; Path=")).map (List.takeWhile (· ≠ 59)),
      (afterStrcasestr val (ascii "; Expires=")).map (List.takeWhile (· ≠ 59))⟩

/-- `get-cookie`: the value of a cookie, or an empty text. -/
def getCookie (req : Req) (cookieName : List UInt8) : List UInt8 :=
  ((velyFindCookie req.cookies cookieName).map Found.value).getD []

/-- A text that is given and is not empty. -/
def given (s : Option (List UInt8)) : Option (List UInt8) := s.filter (· ≠ [])

/-- The line of a cookie that is set, before it is cut. -/
def setLine (cookieName cookieValue : List UInt8) (path expires : Option (List UInt8))
    (safetyClause : List UInt8) : List UInt8 :=
  match given expires, given path with
  | none, none => cookieName ++ ascii "=" ++ cookieValue ++ safetyClause
  | none, some path => cookieName ++ ascii "=" ++ cookieValue ++ ascii "; Path=" ++ path ++ safetyClause
  | some expires, none =>
    cookieName ++ ascii "=" ++ cookieValue ++ ascii "; Expires=" ++ expires ++ safetyClause
  | some expires, some path =>
    cookieName ++ ascii "=" ++ cookieValue ++ ascii "; Path=" ++ path ++ ascii "; Expires=" ++ expires
      ++ safetyClause

/-- `vely_set_cookie` -/
def velySetCookie (req : Req) (cookieName cookieValue : List UInt8)
    (path expires : Option (List UInt8)) (samesite httponly secure : List UInt8) :
    Except CookieError Req :=
  if req.dataWasOutput then .error .afterOutput
  else do
    let safetyClause ← velyCheckSetCookie cookieName cookieValue secure samesite httponly
    let cookieTemp := snprintf (maxCookieSize + 1)
      (setLine cookieName cookieValue path expires safetyClause)
    match velyFindCookie req.cookies cookieName with
    | none =>
      if maxCookies ≤ req.cookies.length + 1 then .error .tooMany
      else .ok { req with cookies := req.cookies ++ [⟨cookieTemp, true⟩] }
    | some found => .ok { req with cookies := req.cookies.set found.ind ⟨cookieTemp, true⟩ }

/-- The line of a cookie that is deleted, before it is cut. -/
def deleteLine (cookieName : List UInt8) (rpath : Option (List UInt8)) (safetyClause : List UInt8) :
    List UInt8 :=
  match rpath with
  | some rpath =>
    cookieName ++ ascii "=deleted; Path=" ++ rpath
      ++ ascii "; Max-Age=0; Expires=Thu, 01 Jan 1970 01:01:01 GMT" ++ safetyClause
  | none =>
    cookieName ++ ascii "=deleted; Max-Age=0; Expires=Thu, 01 Jan 1970 01:01:01 GMT" ++ safetyClause

/-- `vely_delete_cookie`: the request, and the index of the cookie if it is there. -/
def velyDeleteCookie (req : Req) (cookieName : List UInt8) (path : Option (List UInt8))
    (secure : List UInt8) : Except CookieError (Req × Option Nat) :=
  match velyFindCookie req.cookies cookieName with
  | none => .ok (req, none)
  | some found => do
    let safetyClause ← velyCheckSetCookie cookieName (ascii "deleted") secure [] []
    let rpath := path.or found.path
    let delCookie := snprintf 300 (deleteLine cookieName rpath safetyClause)
    .ok ({ req with cookies := req.cookies.set found.ind ⟨delCookie, true⟩ }, some found.ind)

/-- `vely_gen_header_end`: the `Set-Cookie` lines that are sent. -/
def velyGenHeaderEnd (req : Req) : List (List UInt8) × Req :=
  if req.dataWasOutput then ([], req)
  else
    (if req.silent then [] else (req.cookies.filter Cookie.isSetByProgram).map Cookie.data,
      { req with dataWasOutput := true })

/-- What a program does with cookies; the header ends with the first output. -/
inductive Call where
  | setCookie (name value : List UInt8) (path expires : Option (List UInt8))
    (samesite httponly secure : List UInt8)
  | deleteCookie (name : List UInt8) (path : Option (List UInt8)) (secure : List UInt8)
  | headerEnd

/-- What a call leaves, if it is accepted. -/
def Call.exec (req : Req) : Call → Except CookieError Req
  | .setCookie name value path expires samesite httponly secure =>
    velySetCookie req name value path expires samesite httponly secure
  | .deleteCookie name path secure => (velyDeleteCookie req name path secure).map Prod.fst
  | .headerEnd => .ok (velyGenHeaderEnd req).2

/-- A run of calls that are all accepted. -/
def run : List Call → Req → Except CookieError Req
  | [], req => .ok req
  | c :: calls, req => do
    let req ← c.exec req
    run calls req

end Cookies

end Vely
