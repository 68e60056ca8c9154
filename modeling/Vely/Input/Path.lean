import Vely.Dispatch.Model
import Vely.Input.Build

/-!
# The parameters of a path (`vely_get_input`)

The path of a request is the path of the application, the name of the request, and its parameters.
It is written to memory that is there for the whole process, so that behind its terminator stands
what earlier paths have left.
-/

namespace Vely

/-- `VV_MAX_PATH` -/
def maxPath : Nat := 2512

/-- A byte of a name; a hyphen stands for an underscore. -/
def hyphenToUnderscore (c : UInt8) : UInt8 := if c = '-'.toUInt8 then '_'.toUInt8 else c

/-- The string of the bytes of a list up to its first zero. -/
def toCString (bs : List UInt8) : CString :=
  ⟨bs.takeWhile (· ≠ 0), CString.zero_notMem_takeWhile bs⟩

/-- The name of a script without a slash at its end. -/
def removeSlash (s : List UInt8) : List UInt8 :=
  if s.getLast? = some '/'.toUInt8 then s.dropLast else s

/-- `snprintf` of a path to the memory at `full_path` -/
def writePath (fullPath path : List UInt8) : List UInt8 :=
  path.take (maxPath - 1) ++ 0 :: fullPath.drop ((path.take (maxPath - 1)).length + 1)

/-- What `vely_decorate_path` finds: no hierarchical path (0), one that is not closed (2), or one,
with the name of the request and where the path goes on (1). -/
inductive DecoratedPath where
  | notFound
  | unclosed
  | found (fullPath name : List UInt8) (p : Nat)

/-- The loop that writes the name of a request; `res` is what is written. -/
def decorateLoop : List UInt8 → List UInt8 → List UInt8
  | [], res => res
  | c :: r, res =>
    if res.length ≤ maxReqNameLen - 3 then
      if c = '/'.toUInt8 then decorateLoop r (res ++ ['_'.toUInt8, '_'.toUInt8])
      else decorateLoop r (res ++ [hyphenToUnderscore c])
    else res

/-- The name of a request whose path is hierarchical; it does not end with two underscores. -/
def decoratedName (path : List UInt8) : List UInt8 :=
  let res := decorateLoop path []
  if ['_'.toUInt8, '_'.toUInt8].isSuffixOf res then res.take (res.length - 2) else res

/-- `vely_decorate_path` where both underscores are asked for -/
def velyDecoratePath (fullPath : List UInt8) (p : Nat) (pLen : Int) :
    Except Stop DecoratedPath :=
  if byteAt fullPath p ≠ '/'.toUInt8 ∨ byteAt fullPath (p + 1) ≠ '_'.toUInt8 then
    .ok .notFound
  else
    let off := if byteAt fullPath (p + 2) = '/'.toUInt8 then 3 else 2
    match find id (ascii "_/") (cstringAt fullPath (p + off)) with
    | some k =>
      let ereq := p + off + k
      let fullPath := fullPath.set ereq 0
      .ok (.found fullPath (decoratedName (cstringAt fullPath (p + off))) (ereq + 1))
    | none =>
      let last := (p + pLen - 1).toNat
      if fullPath.length ≤ last then .error .fault
      else if byteAt fullPath last = '_'.toUInt8 then
        let fullPath := fullPath.set last 0
        .ok (.found fullPath (decoratedName (cstringAt fullPath (p + off))) last)
      else .ok .unclosed

/-- The segment at `p`, up to a slash. -/
def pathSegment (fullPath : List UInt8) (p : Nat) : List UInt8 :=
  (cstringAt fullPath p).takeWhile (· ≠ '/'.toUInt8)

/-- The slash that the segment at `p` ends at, if it is not the last one. -/
def nextSlash (fullPath : List UInt8) (p : Nat) : Option Nat :=
  let nextPar := p + (pathSegment fullPath p).length
  if byteAt fullPath nextPar ≠ 0 then some nextPar else none

/-- The parameter at `ipar`, and the slash behind it. -/
def pathParam (fullPath : List UInt8) (ipar : Nat) : InputParam × Option Nat :=
  let name := pathSegment fullPath ipar
  if '='.toUInt8 ∈ name then
    (⟨toCString ((name.takeWhile (· ≠ '='.toUInt8)).map hyphenToUnderscore),
      toCString (name.dropWhile (· ≠ '='.toUInt8)).tail⟩, nextSlash fullPath ipar)
  else
    let name := toCString (name.map hyphenToUnderscore)
    match nextSlash fullPath ipar with
    | none => (⟨name, toCString (ascii "true")⟩, none)
    | some nextPar =>
      (⟨name, toCString (pathSegment fullPath (nextPar + 1))⟩, nextSlash fullPath (nextPar + 1))

/-- The loop over the parameters of a path; `p` is the slash before the next one. -/
def pathLoop (fullPath : List UInt8) : Nat → Option Nat → Except Abort (List InputParam)
  | _, none => return []
  | 0, some _ => throw (.stop .fault)
  | bound + 1, some p =>
    if fullPath.length ≤ p + 1 then throw (.stop .fault)
    else do
      let (param, p) := pathParam fullPath (p + 1)
      let params ← pathLoop fullPath bound p
      return param :: params

/-- The name of a request and the parameters in its path; `name` is the name that the query gives.
-/
def pathInput (env : InputEnv) (fullPath name : List UInt8) :
    Except Abort (List InputParam × List UInt8) :=
  let path := removeSlash env.scriptName.bytes ++ env.pathInfo.bytes
  let fullPath := writePath fullPath path
  let p := env.applicationPath.bytes.length
  if strcasecmp (fullPath.take p) env.applicationPath.bytes then
    if byteAt fullPath p ≠ '/'.toUInt8 ∨ byteAt fullPath (p + 1) = 0
        ∨ byteAt fullPath (p + 1) = '?'.toUInt8 then
      if name ≠ [] then return ([], name)
      else throw (.rejected (.missingRequestName (toCString fullPath)))
    else do
      match ← (liftM (velyDecoratePath fullPath p (path.length - p)) :
          Except Abort DecoratedPath) with
      | .unclosed => throw (.rejected (.unclosedPath (toCString fullPath)))
      | .found fullPath name p =>
        let params ← pathLoop fullPath (fullPath.length + 1) (some p)
        return (params, name)
      | .notFound =>
        let name := (pathSegment fullPath (p + 1)).map hyphenToUnderscore
        let params ← pathLoop fullPath (fullPath.length + 1) (nextSlash fullPath (p + 1))
        return (params, name)
  else throw (.rejected (.wrongApplicationPath (toCString fullPath)))

/-- What `vely_get_input` leaves in the request. -/
structure InputRequest where
  params : List InputParam
  name : List UInt8
  files : List SavedFile
  deriving DecidableEq

/-- The name of the request that the query gives, as the last parameter `req`. -/
def queryRequestName (params : List InputParam) : List UInt8 :=
  match (params.filter (fun p => p.name.bytes = ascii "req")).getLast? with
  | some p => p.value.bytes
  | none => []

/-- `vely_get_input`; `fullPath` is what the memory for the path holds before. -/
def velyGetInput (env : InputEnv) (fullPath : List UInt8) : Except Abort InputRequest := do
  let (params, files) ← bodyParams env
  let (pathParams, name) ← pathInput env fullPath (queryRequestName params)
  return ⟨params ++ pathParams, name, files⟩

end Vely
