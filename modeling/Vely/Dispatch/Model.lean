import Vely.Hash.Model
import Vely.Lib.Decimal
import Vely.Rtc

/-!
# The table of requests (`setup_reqhash` of `v1.c`)

`gen_src` writes the names of the requests to a file, the count first.  `setup_reqhash` builds a
hash from it, and prints the elements of this hash as the initialisers of a static array, and the
first elements of its chains as the initialisers of an array of pointers.  The program that is
generated wraps the second array with `vely_create_hash`.
-/

namespace Vely

/-- `VV_MAX_REQ_NAME_LEN` -/
def maxReqNameLen : Nat := 256

def newline : UInt8 := '\n'.toUInt8

def space : UInt8 := ' '.toUInt8

/-- The file of requests (`.reqlist`) that `gen_src` writes: the count, then the names. -/
def genReqlist (names : List CString) : List UInt8 :=
  decimal names.length ++ [newline] ++ names.flatMap (fun n => n.bytes ++ [space, newline])

/-! ### Reading the file -/

/-- The bytes `fgets` reads when it may read at most `n`, and the rest of the file. -/
def takeLine : Nat → List UInt8 → List UInt8 × List UInt8
  | 0, f => ([], f)
  | _, [] => ([], [])
  | n + 1, c :: f =>
    if c = newline then ([c], f)
    else ((c :: (takeLine n f).1), (takeLine n f).2)

/-- `fgets` with a buffer of `size` bytes. -/
def fgets (size : Nat) (f : List UInt8) : Option (List UInt8 × List UInt8) :=
  if f = [] then none else some (takeLine (size - 1) f)

/-- The string in a buffer: the bytes before the first zero. -/
def bufferString (line : List UInt8) : CString :=
  ⟨line.takeWhile (· ≠ 0), CString.zero_notMem_takeWhile line⟩

/-- `trimit` -/
def trimit (var : CString) : CString := velyTrim var

/-- `atol` -/
def atol (s : CString) : Int :=
  match s.bytes.dropWhile isspace with
  | [] => 0
  | c :: cs =>
    if c = '-'.toUInt8 then - decimalValue (cs.takeWhile isdigit)
    else if c = '+'.toUInt8 then decimalValue (cs.takeWhile isdigit)
    else decimalValue ((c :: cs).takeWhile isdigit)

/-- The loop of `setup_reqhash` over the lines of the file.  The hash is created at the first of
them; `strdup` says where `vely_strdup` puts the copy of a name. -/
def readReqlist (al : Allocator (HashTable CString)) (strdup : CString → Addr) :
    Nat → List UInt8 → Option Hash → Mem (HashTable CString) →
    Except Stop (Option Hash × Mem (HashTable CString))
  | 0, _, _, _ => .error .fault
  | bound + 1, f, vvDispatch, m =>
    match fgets maxReqNameLen f with
    | none => .ok (vvDispatch, m)
    | some (line, f) =>
      let req := trimit (bufferString line)
      match vvDispatch with
      | none => do
        let h ← velyCreateHash (atol req) none false
        readReqlist al strdup bound f (some h) m
      | some h => do
        let (_, h, m) ← velyAddHash al h m ⟨strdup req, req⟩ none CString.empty
        readReqlist al strdup bound f (some h) m

/-! ### Printing the declarations -/

/-- An initialiser of an element of `_vv_req_hash`: the index, the key, the name that the data is
initialised to, and the index of the next element; without a name or an index it is NULL. -/
structure Initializer where
  index : Nat
  key : CString
  data : Option CString
  next : Option Nat

/-- What `setup_reqhash` prints: the length of `_vv_req_hash` and its initialisers, those of
`_vv_req_hash_ptr`, and the size `vely_create_hash` is called with. -/
structure ReqTable where
  harr : Nat
  inits : List Initializer
  ptrs : List (Option Nat)
  size : Int

/-- The number of the first `n` buckets that are empty. -/
def countEmpty (h : Hash) : Nat → Except Stop Nat
  | 0 => .ok 0
  | n + 1 => do
    let empty ← countEmpty h n
    return if (← h.bucket n) = none then empty + 1 else empty

/-- The loop over a chain: the first element is printed at `currI`, the others at the end of what
is printed, from `bottom` on. -/
def emitChain (m : Mem (HashTable CString)) :
    Nat → Option Addr → Nat → Nat → Except Stop (List Initializer × Nat)
  | _, none, _, bottom => .ok ([], bottom)
  | 0, some _, _, _ => .error .fault
  | bound + 1, some t, currI, bottom => do
    let e ← m.read t
    match e.next with
    | none => return ([⟨currI, e.key.text, some e.key.text, none⟩], bottom)
    | some _ => do
      let (inits, bottom') ← emitChain m bound e.next bottom (bottom + 1)
      return (⟨currI, e.key.text, some e.key.text, some bottom⟩ :: inits, bottom')

/-- The loop over the first `n` buckets: the initialisers, and where the next overflow element
goes. -/
def emitBuckets (h : Hash) (m : Mem (HashTable CString)) :
    Nat → Except Stop (List Initializer × Nat)
  | 0 => .ok ([], h.numBuckets)
  | n + 1 => do
    let (inits, bottom) ← emitBuckets h m n
    let (more, bottom) ← emitChain m loopBound (← h.bucket n) n bottom
    return (inits ++ more, bottom)

/-- The initialisers of the pointers to the first `n` buckets. -/
def emitPointers (h : Hash) : Nat → Except Stop (List (Option Nat))
  | 0 => .ok []
  | n + 1 => do
    let ptrs ← emitPointers h n
    return ptrs ++ [if (← h.bucket n) = none then none else some n]

/-- `setup_reqhash`: what is printed, and the hash it is printed from. -/
def setupReqhash (al : Allocator (HashTable CString)) (strdup : CString → Addr)
    (f : List UInt8) : Except Stop (ReqTable × Hash × Mem (HashTable CString)) := do
  let (vvDispatch, m) ← readReqlist al strdup (f.length + 1) f none Mem.empty
  let vvDispatch ← deref vvDispatch
  let empty ← countEmpty vvDispatch vvDispatch.numBuckets
  let harr := (vvDispatch.tot + 1 + empty).toNat
  let (inits, _) ← emitBuckets vvDispatch m vvDispatch.numBuckets
  let inits := inits ++ [⟨harr - 1, CString.empty, none, none⟩]
  let ptrs ← emitPointers vvDispatch vvDispatch.numBuckets
  return (⟨harr, inits, ptrs, vvDispatch.tot⟩, vvDispatch, m)

/-! ### The generated program -/

namespace ReqTable

variable {H : Type}

/-- The array `_vv_req_hash` in memory when the program starts: element `i` is at `place i`, the
text of a key is at `literal`, and a name stands for the function `handler` gives.  An element
without an initialiser has no key, so it may not be read as an element of a chain. -/
def load (t : ReqTable) (place : Nat → Addr) (literal : CString → Addr)
    (handler : CString → H) : Mem (HashTable (Option H)) :=
  Mem.empty.setAll (t.inits.map (fun i =>
    (place i.index, ⟨⟨literal i.key, i.key⟩, i.data.map handler, i.next.map place⟩)))

/-- The array `_vv_req_hash_ptr`. -/
def pointers (t : ReqTable) (place : Nat → Addr) : List (Option Addr) :=
  t.ptrs.map (·.map place) ++ List.replicate (t.harr - 1 - t.ptrs.length) none

/-- The call of `vely_create_hash` that is generated. -/
def wrap (t : ReqTable) (place : Nat → Addr) : Except Stop Hash :=
  velyCreateHash t.size (some (t.pointers place)) false

end ReqTable

end Vely
