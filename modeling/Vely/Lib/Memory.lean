import Mathlib.Algebra.GroupWithZero.Nat
import Mathlib.Algebra.Ring.Int.Defs
import Mathlib.Data.Fintype.Card
import Mathlib.Logic.Function.Basic

/-!
# Memory

A memory `Mem α` is a partial map from addresses to cells of type `α`; the addresses
it is defined at are the live ones.  Reading, writing or freeing at an address that is
not live is a fault, and so is following a NULL pointer.  An `Allocator` names the
address of the next block; it may reuse a freed address but never a live one, and it
may have no address to give.
-/

namespace Vely

/-- Why an execution stops before its end. -/
inductive Stop where
  /-- An access the language leaves undefined, or a recursion past its bound. -/
  | fault
  /-- The allocator has no address to give. -/
  | outOfMemory
  deriving DecidableEq

/-- The number of addresses of a 64-bit machine. -/
def addrSpace : Nat := 2 ^ 64

theorem addrSpace_pos :
  0 < addrSpace
  := by decide

/-- The address of a block. A pointer is an `Option Addr`, with `none` for NULL. -/
abbrev Addr := Fin addrSpace

/-- The live cells, by address. -/
abbrev Mem (α : Type) := Addr → Option α

@[simp]
theorem ok_bind {ε α β : Type} (a : α) (f : α → Except ε β) :
  (Except.ok a >>= f) = f a
  := rfl

@[simp]
theorem error_bind {ε α β : Type} (e : ε) (f : α → Except ε β) :
  ((Except.error e : Except ε α) >>= f) = .error e
  := rfl

@[simp]
theorem pure_eq_ok {ε α : Type} (a : α) :
  (pure a : Except ε α) = .ok a
  := rfl

/-- Follow a pointer. -/
def deref {α : Type} : Option α → Except Stop α
  | some a => .ok a
  | none => .error .fault

@[simp]
theorem deref_some {α : Type} (a : α) :
  deref (some a) = .ok a
  := rfl

namespace Mem

variable {α : Type}

/-- The memory with no live cell. -/
def empty : Mem α := fun _ => none

/-- The cell at `a`. -/
def read (m : Mem α) (a : Addr) : Except Stop α := deref (m a)

/-- The memory with the cell at `a` set to `v`. -/
def set (m : Mem α) (a : Addr) (v : α) : Mem α := Function.update m a (some v)

/-- The memory with `a` no longer live. -/
def erase (m : Mem α) (a : Addr) : Mem α := Function.update m a none

/-- The memory with the cells of a list set, one after the other. -/
def setAll (m : Mem α) (xs : List (Addr × α)) : Mem α := xs.foldl (fun m x => m.set x.1 x.2) m

/-- Change the cell at `a` by `f`. -/
def modify (m : Mem α) (a : Addr) (f : α → α) : Except Stop (Mem α) :=
  match m a with
  | some v => .ok (m.set a (f v))
  | none => .error .fault

/-- Give the block at `a` back. -/
def free (m : Mem α) (a : Addr) : Except Stop (Mem α) :=
  match m a with
  | some _ => .ok (m.erase a)
  | none => .error .fault

/-- The memory with none of the addresses `as` live. -/
def without (m : Mem α) (as : List Addr) : Mem α := fun a => if a ∈ as then none else m a

@[simp]
theorem set_self (m : Mem α) (a : Addr) (v : α) :
  m.set a v a = some v
  := Function.update_self ..

theorem set_of_ne (m : Mem α) {a b : Addr} (v : α) (h : b ≠ a) :
  m.set a v b = m b
  := Function.update_of_ne h ..

@[simp]
theorem erase_self (m : Mem α) (a : Addr) :
  m.erase a a = none
  := Function.update_self ..

theorem erase_of_ne (m : Mem α) {a b : Addr} (h : b ≠ a) :
  m.erase a b = m b
  := Function.update_of_ne h ..

@[simp]
theorem set_set (m : Mem α) (a : Addr) (v w : α) :
  (m.set a v).set a w = m.set a w
  := Function.update_idem ..

/-- Setting a cell to what it holds changes nothing. -/
theorem set_eq_self {m : Mem α} {a : Addr} {v : α} (h : m a = some v) :
  m.set a v = m
  := by
  rw [set, ← h]
  apply Function.update_eq_self

theorem setAll_of_not_mem (m : Mem α) {xs : List (Addr × α)} {a : Addr}
    (h : a ∉ xs.map Prod.fst) :
  m.setAll xs a = m a
  := by
  induction xs generalizing m with
  | nil => rfl
  | cons x xs ih =>
    rw [List.map_cons, List.mem_cons, not_or] at h
    rw [setAll, List.foldl_cons, ← setAll, ih _ h.2, set_of_ne _ _ h.1]

/-- Cells set at distinct addresses hold what they were set to. -/
theorem setAll_of_mem (m : Mem α) {xs : List (Addr × α)} {a : Addr} {v : α}
    (hxs : (xs.map Prod.fst).Nodup) (h : (a, v) ∈ xs) :
  m.setAll xs a = some v
  := by
  induction xs generalizing m with
  | nil => cases h
  | cons x xs ih =>
    rw [List.map_cons, List.nodup_cons] at hxs
    rw [setAll, List.foldl_cons, ← setAll]
    rcases List.mem_cons.mp h with rfl | h
    · rw [setAll_of_not_mem _ hxs.1, set_self]
    · apply ih _ hxs.2 h

/-- Writes at distinct addresses commute. -/
theorem set_comm (m : Mem α) {a b : Addr} (v w : α) (h : a ≠ b) :
  (m.set a v).set b w = (m.set b w).set a v
  := by
  symm
  apply Function.update_comm h.symm

theorem without_of_mem (m : Mem α) {as : List Addr} {a : Addr} (h : a ∈ as) :
  m.without as a = none
  := if_pos h

theorem without_of_not_mem (m : Mem α) {as : List Addr} {a : Addr} (h : a ∉ as) :
  m.without as a = m a
  := if_neg h

@[simp]
theorem without_nil (m : Mem α) :
  m.without [] = m
  := by
  funext a
  apply without_of_not_mem _ List.not_mem_nil

theorem without_append (m : Mem α) (as bs : List Addr) :
  m.without (as ++ bs) = (m.without as).without bs
  := by
  funext a
  simp only [without, List.mem_append]
  grind

theorem without_cons (m : Mem α) (a : Addr) (as : List Addr) :
  m.without (a :: as) = (m.erase a).without as
  := by
  funext b
  simp only [without, List.mem_cons, erase, Function.update_apply]
  grind

/-- Reading a live cell gives its content. -/
theorem read_of {m : Mem α} {a : Addr} {v : α} (h : m a = some v) :
  m.read a = .ok v
  := by
  rw [read, h]
  rfl

/-- Changing a live cell sets it. -/
theorem modify_of {m : Mem α} {a : Addr} {v : α} (h : m a = some v) (f : α → α) :
  m.modify a f = .ok (m.set a (f v))
  := by
  simp only [modify, h]

/-- A live block can be freed. -/
theorem free_of {m : Mem α} {a : Addr} {v : α} (h : m a = some v) :
  m.free a = .ok (m.erase a)
  := by
  simp only [free, h]

end Mem

/-- The choice of the address of the next block: an address that is not live, or none
when there is no memory left. -/
structure Allocator (α : Type) where
  choose : Mem α → Option Addr
  fresh : ∀ {m : Mem α} {a : Addr}, choose m = some a → m a = none

/-- Allocate a block holding `v`. -/
def Allocator.alloc {α : Type} (al : Allocator α) (m : Mem α) (v : α) :
    Except Stop (Addr × Mem α) :=
  match al.choose m with
  | some a => .ok (a, m.set a v)
  | none => .error .outOfMemory

/-- The allocator that gives the first address below `n` that is not live. -/
def Allocator.firstFit (α : Type) (n : Nat) : Allocator α where
  choose m := (List.range n).findSome? (fun i =>
    if h : i < addrSpace then if m ⟨i, h⟩ = none then some ⟨i, h⟩ else none else none)
  fresh := by
    intro m a h
    obtain ⟨i, -, hi⟩ := List.exists_of_findSome?_eq_some h
    split at hi
    · split at hi
      · next hm => rw [← Option.some.inj hi, hm]
      · cases hi
    · cases hi

/-- No more blocks are live at once than there are addresses. -/
theorem length_le_addrSpace {xs : List Addr} (h : xs.Nodup) :
  xs.length ≤ addrSpace
  := by
  have hcard := List.Nodup.length_le_card h
  rwa [Fintype.card_fin] at hcard

end Vely
