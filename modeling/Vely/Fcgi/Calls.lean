import Mathlib.Data.List.Forall2
import Vely.Velymem.Run

/-!
# Calls of FastCGI servers (`fcli.c`)

A handle describes a request to a server, and receives its response.  One call is made directly, and
several are made in threads of their own.  The response is in memory of the system, which threads
can allocate; it is to be managed memory when the calls are over.
-/

namespace Vely

open Velymem

/-- `VV_FC_ERR_BAD_TIMEOUT` -/
def vvFcErrBadTimeout : Int := -14

/-- What an exchange with a server comes to: where the data and the errors of the response are, how
long they are, the status of the request when the server sends one, and how the exchange ended. -/
structure Reply where
  data : Addr
  error : Addr
  dataLen : Int
  errorLen : Int
  reqStatus : Option Int
  returnCode : Int
  errm : String

/-- `vv_fc`, in the memory at `block`, as far as it is set by the calls; `hooks` is whether it has
hooks. -/
structure VvFc where
  block : Addr
  timeout : Int
  data : Option Addr
  error : Option Addr
  dataLen : Int
  errorLen : Int
  reqStatus : Int
  returnCode : Int
  errm : Option String
  done : Bool
  hooks : Bool
  invalidThread : Bool

/-- A timeout that is out of range. -/
def badTimeout (timeout : Int) : Bool := timeout ≠ 0 && (timeout < 1 || timeout > 86400)

/-- What `vv_fc_request` returns. -/
def VvFc.result (h : VvFc) (reply : Reply) : Int :=
  if badTimeout h.timeout then vvFcErrBadTimeout else reply.returnCode

/-- The handle after `vv_fc_request`. -/
def VvFc.answered (h : VvFc) (reply : Reply) : VvFc :=
  let h := { h with data := some reply.data, error := some reply.error, done := false,
                    dataLen := 0, errorLen := 0, returnCode := 0 }
  if badTimeout h.timeout then h
  else
    { h with
      dataLen := reply.dataLen
      errorLen := reply.errorLen
      reqStatus := reply.reqStatus.getD h.reqStatus
      returnCode := reply.returnCode
      errm := some reply.errm
      done := true }

/-- `vv_fc_request`: the data and the errors are in memory of the system that was cleared. -/
def vvFcRequest (reply : Reply) (h : VvFc) (m : Velymem) : Except Stop (VvFc × Velymem) :=
  if m.inUse reply.data || m.inUse reply.error || reply.data = reply.error then
    .error .outOfMemory
  else
    .ok (h.answered reply,
      { m with unmanaged := (m.unmanaged.set reply.data 0).set reply.error 0 })

/-- What becomes of a call: its exchange with the server, and whether its thread can be started and
joined. -/
structure Exchange where
  reply : Reply
  started : Bool
  joined : Bool

/-- The status of `vv_call_fcgi`. -/
inductive CallStatus where
  | okay
  | failed
  | tooMany
  deriving DecidableEq

/-- The results of `vv_call_fcgi`, with the handles as they are then. -/
structure CallResult where
  status : CallStatus
  started : Option Nat
  finokay : Option Nat
  handles : List VvFc

/-- The threads are started, and make their requests; the threads that run are counted. -/
def startThreads : List (VvFc × Exchange) → Velymem →
    Except Stop (List (VvFc × Exchange) × Nat × Velymem)
  | [], m => .ok ([], 0, m)
  | (h, e) :: req, m => do
    let h := { h with hooks := false }
    if e.started then do
      let (h, m) ← vvFcRequest e.reply h m
      let (req, totrun, m) ← startThreads req m
      return ((h, e) :: req, totrun + 1, m)
    else do
      let (req, totrun, m) ← startThreads req m
      return (({ h with invalidThread := true }, e) :: req, totrun, m)

/-- The memory at `p` is managed from now on. -/
def adopt (p : Option Addr) (m : Velymem) : Except Stop Velymem := do
  let a ← deref p
  let (mm, m) ← velyAddMem (.block a) m
  return velyVmset a mm m

section Empty

variable (emptyString : Addr)

/-- The threads are joined; those that finished okay are counted. -/
def joinThreads : List (VvFc × Exchange) → Velymem → Except Stop (List VvFc × Nat × Velymem)
  | [], m => .ok ([], 0, m)
  | (h, e) :: req, m =>
    if !h.invalidThread && e.joined then do
      let m ← adopt h.data m
      let m ← adopt h.error m
      let (hs, totok, m) ← joinThreads req m
      return (h :: hs, if h.result e.reply = 0 then totok + 1 else totok, m)
    else do
      let h := { h with data := some emptyString, error := some emptyString }
      let (hs, totok, m) ← joinThreads req m
      return (h :: hs, totok, m)

/-- `vv_call_fcgi` -/
def vvCallFcgi (req : List (VvFc × Exchange)) (m : Velymem) : Except Stop (CallResult × Velymem) :=
  match req with
  | [(h, e)] => do
    let (h', m) ← vvFcRequest e.reply h m
    let okay := h.result e.reply = 0
    return (⟨if okay then .okay else .failed, some 1, some (if okay then 1 else 0), [h']⟩, m)
  | req =>
    if req.length > 1000000 then
      .ok (⟨.tooMany, none, none, req.map Prod.fst⟩, m)
    else do
      let (req', totrun, m) ← startThreads req m
      let (hs, totok, m) ← joinThreads emptyString req' m
      let okay := totrun = req.length ∧ totok = req.length
      return (⟨if okay then .okay else .failed, some totrun, some totok, hs⟩, m)

end Empty

/-- `vv_fc_delete` -/
def vvFcDelete (h : VvFc) (m : Velymem) : Except Stop Velymem := do
  let a ← deref h.data
  let (_, m) ← velyFree (some a) false none m
  let b ← deref h.error
  let (_, m) ← velyFree (some b) false none m
  let (_, m) ← velyFree (some h.block) false none m
  return m

/-! ### What the calls should come to -/

/-- A call that leaves some blocks alone: it does not free or resize them, and is not the end of the
request. -/
def Spares (as : List Addr) (c : Call) : Prop :=
  match c with
  | .realloc (some a) _ _ => a ∉ as
  | .free (some a) => a ∉ as
  | .safeFree (some a) _ => a ∉ as
  | .done => False
  | _ => True

/-- The blocks that are deleted with a handle. -/
def VvFc.blocks (h : VvFc) : List Addr := h.data.toList ++ h.error.toList ++ [h.block]

/-- The thread of a call makes its request and is joined. -/
def Finishes (x : VvFc × Exchange) : Prop :=
  x.2.started = true ∧ x.2.joined = true ∧ x.1.invalidThread = false

/-- The handle is that of an exchange with the server, namely that of its call, and the data and the
errors are live blocks of managed memory. -/
def CallSettled (x : VvFc × Exchange) (h : VvFc) (m : Velymem) : Prop :=
  ∃ reply : Reply, (x.2.started = true → reply = x.2.reply)
    ∧ h = { x.1.answered reply with hooks := h.hooks, invalidThread := h.invalidThread }
    ∧ reply.data ≠ reply.error ∧ (m.heap reply.data).isSome = true
    ∧ (m.heap reply.error).isSome = true

/-- When a handle is deleted after other calls, its blocks are freed and no others, and the table
stays as it should be. -/
def DeletesAlone (h : VvFc) (m : Velymem) : Prop :=
  ∀ m₁, Reach (fun c _ => Spares h.blocks c) m m₁ →
    ∃ m₂, vvFcDelete h m₁ = .ok m₂ ∧ m₂.TableOk ∧ m₂.heap = m₁.heap.without h.blocks
      ∧ m₂.unmanaged = m₁.unmanaged

/-- Every handle is settled, and can be deleted. -/
def CallsAgree (req : List (VvFc × Exchange)) (hs : List VvFc) (m : Velymem) : Prop :=
  List.Forall₂ (fun x h => CallSettled x h m ∧ DeletesAlone h m) req hs

end Vely
