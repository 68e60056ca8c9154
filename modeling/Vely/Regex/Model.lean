import Vely.Lib.Block
import Vely.Lib.Ctype

/-!
# Replacing by regular expressions

A text is searched for the matches of a compiled regular expression, each one in what is left of the
text after the one before, and they are replaced by what the replacement pattern makes of them.  The
text that comes out is in memory that grows before each write.
-/

namespace Vely

/-- What `regexec` fills in: where the match starts and ends, and where each group does, unless it
took no part in the match and its offsets are `-1`. -/
structure Match where
  so : Nat
  eo : Nat
  group : Nat → Option (Nat × Nat)

/-- A compiled regular expression with `re_nsub` groups: the first match in a text, which is not
empty, and is in the text as its groups are. -/
structure Regex (reNsub : Nat) where
  regexec : List UInt8 → Option Match
  not_empty : ∀ s m, regexec s = some m → m.so < m.eo
  eo_le : ∀ s m, regexec s = some m → m.eo ≤ s.length
  group_le : ∀ s m i so eo, regexec s = some m → m.group i = some (so, eo) → so ≤ eo ∧ eo ≤ s.length

/-- The replacement that is built: its bytes, its length as it is counted, the memory for it and how
much of that is needed. -/
structure Res where
  bytes : List UInt8
  replaceResLen : Nat
  resAllocated : Nat
  resNeeded : Nat

/-- The replacement that is built first. -/
def Res.empty : Res := ⟨[], 0, 1, 1⟩

/-- `VV_ALLOC_REPLACE`, then `addlen` bytes are copied to the end, with a byte 0 after them. -/
def Res.copy (r : Res) (from_ : List UInt8) (addlen : Nat) : Except Stop Res :=
  let resNeeded := r.resNeeded + (addlen + 1)
  let resAllocated := if r.resAllocated ≤ resNeeded then resNeeded + 512 else r.resAllocated
  if r.replaceResLen + addlen < resAllocated then
    .ok ⟨r.bytes ++ from_.take addlen, r.replaceResLen + addlen, resAllocated, resNeeded⟩
  else .error .fault

/-- The group that a backslash and the digit `d` with the byte `next` after them refer to, 0 for
none, and what `sdig` is then. -/
def actsub (subNum : Nat) (sdig : Bool) (d : UInt8) (next : Option UInt8) : Nat × Bool :=
  let two := (d.toNat - 48) * 10 + ((next.getD 0).toNat - 48)
  let sdig :=
    if 9 < subNum then
      if (next.map isdigit).getD false then (if subNum < two then true else sdig) else true
    else true
  if sdig then (if subNum < d.toNat - 48 then 0 else d.toNat - 48, true) else (two, false)

/-- The loop over the replacement for one match: `run` is the text from `current_replace` to
`head_replace`, and the text from there is read. -/
def copyReplace (subNum : Nat) (look : List UInt8) (m : Match) :
    Bool → List UInt8 → List UInt8 → Res → Except Stop Res
  | _, run, [], r => r.copy run run.length
  | _, run, [c], r => r.copy (run ++ [c]) (run ++ [c]).length
  | sdig, run, c :: d :: rest, r =>
    if c = 92 ∧ isdigit d then
      match actsub subNum sdig d rest.head? with
      | (0, sdig) => copyReplace subNum look m sdig (run ++ [c, d]) rest r
      | (i + 1, sdig) => do
        let r ← r.copy run run.length
        let (so, eo) := (m.group (i + 1)).getD (0, 0)
        let r ← r.copy (look.drop so) (eo - so)
        match sdig, rest with
        | true, rest => copyReplace subNum look m false [] rest r
        | false, _ :: rest => copyReplace subNum look m false [] rest r
        | false, [] => .error .fault
    else copyReplace subNum look m sdig (run ++ [c]) (d :: rest) r

/-- What the search has: the text that is left, the replacement that is built, and the number of
matches. -/
structure Search where
  lastLookHere : List UInt8
  res : Res
  totMatch : Nat

/-- The loop over the matches, at most as many as there is fuel. -/
def regexLoop {subNum : Nat} (reg : Regex subNum) (replace : Option CString) (singleMatch : Bool) :
    Nat → Search → Except Stop Search
  | 0, s => .ok s
  | n + 1, s =>
    if s.lastLookHere = [] then .ok s
    else
      match reg.regexec s.lastLookHere with
      | none => .ok s
      | some m => do
        let res ←
          match replace with
          | none => pure s.res
          | some replace => do
            let r ← s.res.copy s.lastLookHere m.so
            copyReplace subNum s.lastLookHere m false [] replace.bytes r
        let s := ⟨s.lastLookHere.drop m.eo, res, s.totMatch + 1⟩
        if singleMatch then .ok s else regexLoop reg replace singleMatch n s

/-- What `vely_regex` gives back: the result and its length if there is a replacement, and the
number of matches. -/
structure RegexResult where
  res : Option (List UInt8)
  reslen : Nat
  totMatch : Nat
  deriving DecidableEq

/-- `vely_regex`, with a regular expression that is compiled. -/
def velyRegex {subNum : Nat} (lookHere : CString) (reg : Regex subNum) (replace : Option CString)
    (singleMatch : Bool) : Except Stop RegexResult := do
  let s ← regexLoop reg replace singleMatch lookHere.length ⟨lookHere.bytes, .empty, 0⟩
  match replace with
  | none => .ok ⟨none, 0, s.totMatch⟩
  | some _ => do
    let r ← s.res.copy s.lastLookHere s.lastLookHere.length
    .ok ⟨some r.bytes, r.replaceResLen, s.totMatch⟩

end Vely
