import Vely.Header

/-!
# The hash table (`hash.c`)

The elements of a hash live in memory, linked in chains, one for each bucket.  A key is
kept as the pointer the caller gives, and the string it points to does not change while the
hash is used.  The header and the array of buckets are values that are handed on.  Loops
that follow chains take a bound, and run into a fault when it is exceeded; it is one more than
the number of addresses, so that only a chain that runs in a circle exceeds it.
-/

namespace Vely

/-- `vely_hash_table`: an element of a chain. -/
structure HashTable (D : Type) where
  key : StringPtr
  data : D
  next : Option Addr

/-- `vely_hash` -/
structure Hash where
  numBuckets : Nat
  table : List (Option Addr)
  dnext : Nat
  dcurr : Option Addr
  tot : Int
  hits : Int
  reads : Int
  process : Bool

/-- What `vely_find_hash` and `vely_add_hash` hand back: the status, the data and the old key. -/
structure HashAnswer (D : Type) where
  status : Status
  data : Option D
  oldkey : Option StringPtr

variable {D : Type}

/-! ### Hash codes -/

/-- `VV_FNVOFFSETBASIS` -/
def fnvOffsetBasis : UInt32 := 2166136261

/-- `VV_FNVPRIME` -/
def fnvPrime : UInt32 := 16777619

/-- `VV_FNVCOMP`: a character is signed, and its sign is extended. -/
def fnvComp (h : UInt32) (c : UInt8) : UInt32 :=
  (h ^^^ c.toInt8.toInt32.toUInt32) * fnvPrime

/-- `vely_compute_hash` -/
def velyComputeHash (d : CString) (dlist : Option (List CString)) (size : Nat) : Nat :=
  let h := match dlist with
    | none => d.bytes.foldl fnvComp fnvOffsetBasis
    | some ins => ins.foldl (fun h (i : CString) => i.bytes.foldl fnvComp h) fnvOffsetBasis
  h.toNat % size

/-! ### The array of buckets -/

namespace Hash

/-- The first element of the chain of a bucket. -/
def bucket (h : Hash) (i : Nat) : Except Stop (Option Addr) := deref h.table[i]?

/-- Set the first element of the chain of a bucket. -/
def setBucket (h : Hash) (i : Nat) (p : Option Addr) : Except Stop Hash :=
  if i < h.table.length then .ok { h with table := h.table.set i p } else .error .fault

end Hash

/-- The bound on the loops over chains. -/
def loopBound : Nat := addrSpace + 1

/-- `vely_rewind_hash` -/
def velyRewindHash (h : Hash) : Except Stop Hash := do
  let h := { h with dnext := 0 }
  return { h with dcurr := ← h.bucket 0 }

/-- `vely_create_hash`; `inH` is the array of buckets when it is not to be allocated. -/
def velyCreateHash (size : Int) (inH : Option (List (Option Addr))) (process : Bool) :
    Except Stop Hash :=
  let size := if size < 10 then 10 else size
  let table := inH.getD (List.replicate size.toNat none)
  velyRewindHash
    { numBuckets := size.toNat, table, dnext := 0, dcurr := none, tot := 0, hits := 0,
      reads := 0, process }

/-! ### Deletion and search -/

/-- Link the element before the deleted one to `next`, or the bucket when there is none. -/
def unlink (h : Hash) (m : Mem (HashTable D)) (prev : Option Addr) (hashind : Nat)
    (next : Option Addr) : Except Stop (Hash × Mem (HashTable D)) :=
  match prev with
  | none => do return (← h.setBucket hashind next, m)
  | some prev => do return (h, ← m.modify prev (fun p => { p with next }))

/-- `vely_del_hash_entry`; `hashind` is the bucket, or `none` (-1) when it is not known. -/
def velyDelHashEntry (h : Hash) (m : Mem (HashTable D)) (todel : Addr) (prev : Option Addr)
    (hashind : Option Nat) : Except Stop (Hash × Mem (HashTable D)) := do
  let e ← m.read todel
  let hashind := hashind.getD (velyComputeHash e.key.text none h.numBuckets)
  let (h, m) ← unlink h m prev hashind e.next
  let m ← m.free todel
  let dcurr := if h.dcurr = some todel then e.next else h.dcurr
  return ({ h with dcurr, tot := h.tot - 1 }, m)

/-- The loop of `vely_find_hash` over the parts of a key: the parts compared so far are
`totLen` bytes long. -/
def matchParts (key : CString) : Nat → List CString → Except Stop Bool
  | _, [] => .ok true
  | totLen, el :: els => do
    if ← key.memcmp totLen el el.length then matchParts key (totLen + el.length) els
    else return false

/-- Whether `vely_find_hash` takes the element with the key `stored`. -/
def isMatch (key : CString) (keylist : Option (List CString)) (stored : CString) :
    Except Stop Bool :=
  match keylist with
  | none => .ok (key = stored)
  | some [] => .ok false
  | some (el :: els) => matchParts stored 0 (el :: els)

/-- The loop over a chain: the first element that is taken, the one before it, and the number
of reads. -/
def searchChain (m : Mem (HashTable D)) (takes : CString → Except Stop Bool) :
    Nat → Option Addr → Option Addr → Int → Except Stop (Option Addr × Option Addr × Int)
  | _, prev, none, reads => .ok (none, prev, reads)
  | 0, _, some _, _ => .error .fault
  | bound + 1, prev, some curr, reads => do
    let e ← m.read curr
    if ← takes e.key.text then return (some curr, prev, reads + 1)
    else searchChain m takes bound (some curr) e.next (reads + 1)

/-- The end of `vely_find_hash`, after the loop: the element found is handed back, and deleted
if this is asked for. -/
def handBack (h : Hash) (m : Mem (HashTable D)) (hresult prev : Option Addr) (hashind : Nat)
    (del : Bool) : Except Stop (HashAnswer D × Hash × Mem (HashTable D)) :=
  match hresult with
  | none => .ok (⟨.errExist, none, none⟩, h, m)
  | some hresult => do
    let e ← m.read hresult
    let (h, m) ← if del then velyDelHashEntry h m hresult prev (some hashind) else .ok (h, m)
    return (⟨.okay, some e.data, some e.key⟩, h, m)

/-- `vely_find_hash` -/
def velyFindHash (h : Hash) (m : Mem (HashTable D)) (key : CString)
    (keylist : Option (List CString)) (del : Bool) :
    Except Stop (HashAnswer D × Hash × Mem (HashTable D)) := do
  let hashind := velyComputeHash key keylist h.numBuckets
  let (hresult, prev, reads) ←
    searchChain m (isMatch key keylist) loopBound none (← h.bucket hashind) h.reads
  handBack { h with hits := h.hits + 1, reads } m hresult prev hashind del

/-! ### Addition -/

/-- `vely_add_hash` -/
def velyAddHash (al : Allocator (HashTable D)) (h : Hash) (m : Mem (HashTable D))
    (key : StringPtr) (keylist : Option (List CString)) (data : D) :
    Except Stop (HashAnswer D × Hash × Mem (HashTable D)) := do
  let hashind := velyComputeHash key.text keylist h.numBuckets
  match ← h.bucket hashind with
  | none => do
    let (new, m) ← al.alloc m ⟨key, data, none⟩
    let h ← h.setBucket hashind (some new)
    return (⟨.okay, none, none⟩, { h with tot := h.tot + 1 }, m)
  | some el => do
    let (bucket, _, _) ←
      searchChain m (fun stored => .ok (key.text = stored)) loopBound none (some el) 0
    match bucket with
    | some bucket => do
      let e ← m.read bucket
      let m ← m.modify bucket (fun e => { e with key, data })
      return (⟨.errExist, some e.data, some e.key⟩, h, m)
    | none => do
      let (new, m) ← al.alloc m ⟨key, data, some el⟩
      let h ← h.setBucket hashind (some new)
      return (⟨.okay, none, none⟩, { h with tot := h.tot + 1 }, m)

/-! ### Traversal -/

/-- The loop of `vely_next_hash` over empty buckets and the ends of chains. -/
def skipBuckets : Nat → Hash → Except Stop Hash
  | 0, h => if h.dcurr = none then .error .fault else .ok h
  | bound + 1, h =>
    if h.dcurr = none then
      let h := { h with dnext := h.dnext + 1 }
      if h.dnext = h.numBuckets then .ok h
      else do skipBuckets bound { h with dcurr := ← h.bucket h.dnext }
    else .ok h

/-- `vely_next_hash` -/
def velyNextHash (h : Hash) (m : Mem (HashTable D)) :
    Except Stop (Option (StringPtr × D) × Hash) :=
  if h.dnext = h.numBuckets then .ok (none, h)
  else do
    let h ← skipBuckets h.numBuckets h
    match h.dcurr with
    | none => return (none, h)
    | some dcurr => do
      let e ← m.read dcurr
      return (some (e.key, e.data), { h with dcurr := e.next })

/-! ### Purging and resizing -/

/-- The loop of `vely_delete_hash` over a chain. -/
def freeChain : Nat → Mem (HashTable D) → Option Addr → Except Stop (Mem (HashTable D))
  | _, m, none => .ok m
  | 0, _, some _ => .error .fault
  | bound + 1, m, some tmp => do
    let hnext := (← m.read tmp).next
    freeChain bound (← m.free tmp) hnext

/-- The loop of `vely_delete_hash` over the first `n` buckets. -/
def freeBuckets (h : Hash) (m : Mem (HashTable D)) : Nat → Except Stop (Mem (HashTable D))
  | 0 => .ok m
  | n + 1 => do freeChain loopBound (← freeBuckets h m n) (← h.bucket n)

/-- `vely_delete_hash`: the hash that takes its place, if any. -/
def velyDeleteHash (h : Hash) (m : Mem (HashTable D)) (recreate : Bool) :
    Except Stop (Option Hash × Mem (HashTable D)) := do
  let m ← freeBuckets h m h.numBuckets
  if recreate then
    let new ← velyCreateHash h.numBuckets none h.process
    return (some { new with hits := h.hits, reads := h.reads }, m)
  else return (none, m)

/-- The loop of `vely_resize_hash`: the elements not traversed yet are added to `nh`. -/
def moveElements (al : Allocator (HashTable D)) : Nat → Hash → Hash → Mem (HashTable D) →
    Except Stop (Hash × Hash × Mem (HashTable D))
  | 0, _, _, _ => .error .fault
  | bound + 1, h, nh, m => do
    let (item, h) ← velyNextHash h m
    match item with
    | none => return (h, nh, m)
    | some (key, data) => do
      let (_, nh, m) ← velyAddHash al nh m key none data
      moveElements al bound h nh m

/-- `vely_resize_hash` -/
def velyResizeHash (al : Allocator (HashTable D)) (h : Hash) (m : Mem (HashTable D))
    (newsize : Int) : Except Stop (Hash × Mem (HashTable D)) := do
  let nh ← velyCreateHash newsize none h.process
  let (h, nh, m) ← moveElements al loopBound (← velyRewindHash h) nh m
  let (h, m) ← velyDeleteHash h m true
  let h ← deref h
  let h :=
    { h with
      table := nh.table, tot := nh.tot, hits := nh.hits, reads := nh.reads
      numBuckets := nh.numBuckets, process := nh.process }
  return (h, m)

end Vely
