import Vely.Lib.Memory

/-!
# The table of memory (`velymem.c`)

Every block of managed memory has a slot in a table, and the index of the slot is stored in front of
the block.  The slots of freed blocks are taken again.  At the end of a request the blocks that are
not of the process are freed, and the table is discarded when there are no others.  File variables
are registered in the same table, so that their files are closed then.

Memory that is not managed (`malloc` of the system) is in the same address space and has no slot.
-/

namespace Vely

/-- `VELYMSIZE` -/
def velymsize : Nat := 512

/-- What a slot points to: a block (where its index is stored), or a file variable of the program.
-/
inductive Ptr where
  | block (a : Addr)
  | file (f : Nat)
  deriving DecidableEq

/-- `vml`, with the bits of its status. -/
structure Vml where
  ptr : Option Ptr
  free : Bool
  file : Bool
  process : Bool
  nextFree : Option Nat

/-- The variables of `velymem.c`, the memory, and the file variables of the program.  `heap` has
what is stored in front of each managed block, and `unmanaged` the first word of other memory;
`opened` are the files that are open, and `closed` those that were closed at the end of a request.
-/
structure Velymem where
  vm : Nat → Vml
  vmTot : Nat
  vmCurr : Nat
  vmFirstFree : Option Nat
  memProcess : Bool
  heap : Mem Int
  unmanaged : Mem Int
  files : Nat → Option Nat
  opened : List Nat
  closed : List Nat

namespace Velymem

/-- The slot `r`. -/
def slot (m : Velymem) (r : Nat) : Except Stop Vml :=
  if r < m.vmTot then .ok (m.vm r) else .error .fault

/-- The table with the slot `r` set. -/
def setSlot (m : Velymem) (r : Nat) (v : Vml) : Velymem := { m with vm := Function.update m.vm r v }

/-- There is memory at the address. -/
def inUse (m : Velymem) (a : Addr) : Bool := (m.heap a).isSome || (m.unmanaged a).isSome

/-- The next slot behind the others; the table is enlarged when it is the last one, and the new
slots have no status. -/
def nextSlot (m : Velymem) : Velymem :=
  if m.vmCurr + 1 ≥ m.vmTot then
    { m with
      vmCurr := m.vmCurr + 1
      vmTot := m.vmTot + velymsize
      vm := fun i =>
        if m.vmTot ≤ i ∧ i < m.vmTot + velymsize then
          { m.vm i with free := false, file := false, process := false }
        else m.vm i }
  else { m with vmCurr := m.vmCurr + 1 }

/-- A slot that is taken; the bits for files and for the process stay. -/
def takenSlot (v : Vml) (p : Ptr) (process : Bool) : Vml :=
  { v with ptr := some p, free := false, process := v.process || process }

/-- `vely_add_mem` -/
def velyAddMem (p : Ptr) (m : Velymem) : Except Stop (Nat × Velymem) :=
  match m.vmFirstFree with
  | some r => do
    let v ← m.slot r
    let m := { m with vmFirstFree := v.nextFree }
    return (r, m.setSlot r (takenSlot v p m.memProcess))
  | none => do
    let r := m.vmCurr
    let m := m.nextSlot
    let v ← m.slot r
    return (r, m.setSlot r (takenSlot v p m.memProcess))

/-- `vely_vmset` for the memory at `a`, which is managed then. -/
def velyVmset (a : Addr) (r : Nat) (m : Velymem) : Velymem :=
  { m with heap := m.heap.set a r, unmanaged := m.unmanaged.erase a }

/-- `_vely_malloc`; the memory is at `a`. -/
def velyMalloc (a : Addr) (m : Velymem) : Except Stop Velymem :=
  if m.inUse a then .error .outOfMemory
  else do
    let (r, m) ← velyAddMem (.block a) m
    return velyVmset a r m

/-- `_vely_calloc`, which differs in what is in the memory. -/
def velyCalloc (a : Addr) (m : Velymem) : Except Stop Velymem := velyMalloc a m

/-- `_vely_set_free` -/
def velySetFree (r : Nat) (m : Velymem) : Except Stop Velymem := do
  let v ← m.slot r
  let m := m.setSlot r { v with ptr := none, free := true, nextFree := m.vmFirstFree }
  return { m with vmFirstFree := some r }

/-- `vely_get_memory`; `word` is what is read in front of an address without memory, if that can be
read. -/
def velyGetMemory (a : Addr) (word : Option Int) (m : Velymem) : Except Stop Int :=
  deref (((m.heap a).or (m.unmanaged a)).or word)

/-- The index is that of a slot that points back to the block. -/
def pointsBack (m : Velymem) (a : Addr) (r : Int) : Bool :=
  0 ≤ r && r < m.vmCurr && (m.vm r.toNat).ptr = some (.block a)

/-- The slot of an index that is stored in front of a block. -/
def slotAt (m : Velymem) (r : Int) : Except Stop Vml :=
  if r < 0 then .error .fault else m.slot r.toNat

/-- `free` -/
def osFree (a : Addr) (m : Velymem) : Except Stop Velymem :=
  match m.heap a with
  | some _ => .ok { m with heap := m.heap.erase a }
  | none => do
    let unmanaged ← m.unmanaged.free a
    return { m with unmanaged := unmanaged }

/-- `_vely_free`; `none` is NULL or `VV_EMPTY_STRING`. -/
def velyFree (p : Option Addr) (check : Bool) (word : Option Int) (m : Velymem) :
    Except Stop (Bool × Velymem) :=
  match p with
  | none => .ok (true, m)
  | some a => do
    let r ← m.velyGetMemory a word
    if check && !m.pointsBack a r then .ok (false, m)
    else do
      let v ← m.slotAt r
      if v.free then return (false, m)
      else do
        let m ← velySetFree r.toNat m
        let m ← m.osFree a
        return (true, m)

/-- `_vely_realloc`; the memory is at `b` afterwards.  There is no result when the memory is
reported to be invalid. -/
def velyRealloc (p : Option Addr) (b : Addr) (safe : Bool) (m : Velymem) :
    Except Stop (Option Velymem) :=
  match p with
  | none => some <$> velyMalloc b m
  | some a => do
    let r ← m.velyGetMemory a none
    if safe && !m.pointsBack a r then return none
    else if r < 0 then .error .fault
    else do
      let m ← velySetFree r.toNat m
      let m ← m.osFree a
      if m.inUse b then .error .outOfMemory
      else do
        let (r, m) ← velyAddMem (.block b) m
        return some (velyVmset b r m)

/-- `_vely_mem_set_process`; there is no result when the memory is reported to be invalid. -/
def velyMemSetProcess (a : Addr) (m : Velymem) : Except Stop (Option Velymem) :=
  if m.memProcess then do
    let r ← m.velyGetMemory a none
    if m.pointsBack a r then do
      let v ← m.slotAt r
      return some (m.setSlot r.toNat { v with process := true })
    else return none
  else return some m

/-! ### Files -/

/-- `vely_reg_file` -/
def velyRegFile (f : Nat) (m : Velymem) : Except Stop (Nat × Velymem) := do
  let (mind, m) ← velyAddMem (.file f) m
  let v ← m.slot mind
  return (mind, m.setSlot mind { v with file := true })

/-- `vely_clear_mem` -/
def velyClearMem (ind : Nat) (m : Velymem) : Except Stop Velymem := do
  let v ← m.slot ind
  return m.setSlot ind { v with ptr := none }

/-- The statement `open-file`: the file `h`, or NULL, is in the variable `f`, and the variable of an
open file is registered. -/
def openFile (f : Nat) (h : Option Nat) (m : Velymem) : Except Stop Velymem :=
  match h with
  | none => .ok { m with files := Function.update m.files f none }
  | some h => do
    let m := { m with files := Function.update m.files f (some h), opened := h :: m.opened }
    let (_, m) ← velyRegFile f m
    return m

/-- `fclose` of the file in a variable, which is NULL afterwards. -/
def closeVariable (f : Nat) (m : Velymem) : Except Stop Velymem :=
  match m.files f with
  | none => .ok m
  | some h =>
    if h ∈ m.opened then
      .ok { m with files := Function.update m.files f none, opened := m.opened.erase h }
    else .error .fault

/-- The statement `close-file` for the variable `f`, registered as `mind`. -/
def closeFile (f mind : Nat) (m : Velymem) : Except Stop Velymem := do
  let m ← closeVariable f m
  velyClearMem mind m

/-! ### The end of a request -/

/-- What `vely_done` does with the slot `i`, and whether the table is to be kept. -/
def doneSlot (i : Nat) (m : Velymem) (keepMem : Bool) : Except Stop (Velymem × Bool) := do
  let v ← m.slot i
  if v.free then return (m, keepMem)
  else
    match v.ptr with
    | none => return (m, keepMem)
    | some (.file f) =>
      if v.file then do
        let closing := (m.files f).toList
        let m ← closeVariable f m
        return ({ m with closed := m.closed ++ closing }, keepMem)
      else if v.process then return (m, true)
      else .error .fault
    | some (.block a) =>
      if v.file then .error .fault
      else if v.process then return (m, true)
      else do
        let (_, m) ← velyFree (some a) false none m
        return (m, keepMem)

/-- The loop of `vely_done` over the slots of a list. -/
def doneLoop : List Nat → Velymem → Bool → Except Stop (Velymem × Bool)
  | [], m, keepMem => .ok (m, keepMem)
  | i :: is, m, keepMem => do
    let (m, keepMem) ← doneSlot i m keepMem
    doneLoop is m keepMem

/-- A slot of a new table. -/
def newSlot : Vml := ⟨none, false, false, false, none⟩

/-- A new table. -/
def newTable (m : Velymem) : Velymem :=
  { m with vm := fun _ => newSlot, vmTot := velymsize, vmCurr := 0, vmFirstFree := none }

/-- `vely_done` -/
def velyDone (m : Velymem) : Except Stop Velymem := do
  let (m, keepMem) ← doneLoop (List.range m.vmCurr) m false
  if keepMem then return m else return m.newTable

/-- The memory after `vely_memory_init`. -/
def start : Velymem :=
  newTable ⟨fun _ => newSlot, 0, 0, none, false, Mem.empty, Mem.empty, fun _ => none, [], []⟩

end Velymem

end Vely
