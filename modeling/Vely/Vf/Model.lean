import Mathlib.Data.List.Basic

/-!
# The manager of FastCGI processes

The manager has a slot for each worker it may have.  In every turn of its loop it looks at the
listening socket, starts a worker or stops one, starts those that are missing, and obeys a command
of a client.

A slot holds the number of a worker, in the order they are forked.  Time is counted by the questions
that are asked with `waitpid`, so that a worker may exit between any two of them.  With `SIGCHLD`
ignored, and without `WUNTRACED`, the answer is that the worker runs or that it is gone.
-/

namespace Vely

namespace Vf

/-- How a call of `start_child` ends: the program is not there or may not be run, it is started, or
the manager cannot fork and exits. -/
inductive Start where
  | missing
  | started
  | noFork
  deriving DecidableEq

/-- When each worker exits by itself, and what comes of each attempt to start one. -/
structure Env where
  exits : Nat → Option Nat
  start : Nat → Start

/-- `whatisprocess`: whether a worker runs. -/
def whatisprocess (env : Env) (pid now : Nat) : Bool :=
  match env.exits pid with
  | none => true
  | some e => now < e

/-- The options of the manager that are accepted. -/
structure Options where
  adapt : Bool
  numToStartMin : Nat
  maxproc : Nat
  tspike : Nat
  mslp : Nat
  modreload : Bool
  dnr : Bool
  mslp_bounds : 100 ≤ mslp ∧ mslp ≤ 5000
  tspike_bounds : 5 ≤ tspike ∧ tspike < 86400
  min_le_max : numToStartMin ≤ maxproc
  adaptive : adapt = true → numToStartMin < maxproc ∧ dnr = false

/-- What has happened: the questions asked with `waitpid`, the workers forked, the calls of
`start_child`, and whether the time stamp of the program is known. -/
structure World where
  now : Nat
  forks : Nat
  attempts : Nat
  commtime : Bool

/-- The slots, and the variables of the loop.  For each running worker that was stopped because
there was no load it is recorded how many ran then. -/
structure State where
  plist : List (Option Nat)
  world : World
  nspike : Nat
  tempNoRestart : Bool
  stopped : List Nat

/-- A command of a client. -/
inductive Command where
  | restart
  | start
  | status
  | stop
  | quit
  | other

/-- What a turn of the loop finds: whether there is a connection when `connwait` is called for the
first, second and third time, whether the program has changed, and a command. -/
structure Tick where
  first : Bool
  second : Bool
  third : Bool
  changed : Bool
  command : Option Command

/-- `start_child`, with what is in the slot after it; nothing if the manager exits. -/
def startChild (env : Env) (w : World) : Option (Option Nat × World) :=
  match env.start w.attempts with
  | .missing => some (none, { w with attempts := w.attempts + 1 })
  | .started =>
    some (some w.forks,
      { w with forks := w.forks + 1, attempts := w.attempts + 1, commtime := true })
  | .noFork => none

/-- The loop of `totprocess`. -/
def totSlots (env : Env) : List (Option Nat) → Nat → Nat × List (Option Nat) × Nat
  | [], now => (0, [], now)
  | none :: plist, now =>
    let (tot, plist, now) := totSlots env plist now
    (tot, none :: plist, now)
  | some pid :: plist, now =>
    let (tot, plist, now') := totSlots env plist (now + 1)
    if whatisprocess env pid now then (tot + 1, some pid :: plist, now')
    else (tot, none :: plist, now')

/-- `totprocess` -/
def totprocess (env : Env) (s : State) : Nat × State :=
  let (tot, plist, now) := totSlots env s.plist s.world.now
  (tot, { s with plist := plist, world := { s.world with now := now } })

/-- Whether a worker that is missing is to be started. -/
def Options.needs (opts : Options) (addone : Bool) (tot : Nat) : Bool :=
  !opts.adapt || (opts.numToStartMin > tot || addone)

/-- The loop of `processup`. -/
def upSlots (opts : Options) (env : Env) (addone : Bool) :
    List (Option Nat) → Nat → World → Option (List (Option Nat) × World)
  | [], _, w => some ([], w)
  | none :: plist, tot, w =>
    if opts.needs addone tot then do
      let (slot, w) ← startChild env w
      if addone then pure (slot :: plist, w)
      else do
        let (plist, w) ← upSlots opts env addone plist (tot + 1) w
        pure (slot :: plist, w)
    else do
      let (plist, w) ← upSlots opts env addone plist tot w
      pure (none :: plist, w)
  | some pid :: plist, tot, w =>
    let running := whatisprocess env pid w.now
    let w := { w with now := w.now + 1 }
    if running then do
      let (plist, w) ← upSlots opts env addone plist tot w
      pure (some pid :: plist, w)
    else if opts.needs addone tot then do
      let (slot, w) ← startChild env w
      if addone then pure (slot :: plist, w)
      else do
        let (plist, w) ← upSlots opts env addone plist (tot + 1) w
        pure (slot :: plist, w)
    else do
      let (plist, w) ← upSlots opts env addone plist tot w
      pure (none :: plist, w)

/-- `processup` -/
def processup (opts : Options) (env : Env) (addone : Bool) (s : State) : Option State := do
  let (tot, s) := if opts.adapt then totprocess env s else (0, s)
  let (plist, world) ← upSlots opts env addone s.plist tot s.world
  pure { s with plist := plist, world := world }

/-- The loop of `handlestop`.  A worker that runs is sent `SIGTERM`; one that is gone is not, and
the slot is empty after either. -/
def stopSlots (one : Bool) : List (Option Nat) → Nat → List (Option Nat) × Nat
  | [], now => ([], now)
  | none :: plist, now =>
    let (plist, now) := stopSlots one plist now
    (none :: plist, now)
  | some _ :: plist, now =>
    if one then (none :: plist, now + 1)
    else
      let (plist, now) := stopSlots one plist (now + 1)
      (none :: plist, now)

/-- How many of the workers in the slots run. -/
def live (env : Env) (s : State) : Nat :=
  s.plist.countP fun slot => slot.any (whatisprocess env · s.world.now)

/-- The worker that is the first in the slots. -/
def firstWorker (s : State) : Option Nat := s.plist.findSome? id

/-- What is recorded when one worker is stopped. -/
def stopRecord (env : Env) (s : State) : List Nat :=
  if (firstWorker s).any (whatisprocess env · s.world.now) then [live env s] else []

/-- `handlestop (VV_STOP)`, or `handlestop (VV_STOPONE)` -/
def handlestop (env : Env) (one : Bool) (s : State) : State :=
  let (plist, now) := stopSlots one s.plist s.world.now
  { s with
    plist := plist
    world := { s.world with now := now }
    stopped := if one then stopRecord env s ++ s.stopped else s.stopped }

/-- For how many turns without load a worker more than needed is kept. -/
def Options.spikes (opts : Options) : Nat := opts.tspike * 1000 / (opts.mslp / 2)

/-- What is done in a turn of adaptive mode before missing workers are started. -/
def adaptive (opts : Options) (env : Env) (t : Tick) (s : State) : Option State :=
  if t.first then
    let s := { s with nspike := 0 }
    if t.second && t.third then
      let (tot, s) := totprocess env s
      if tot < opts.maxproc - 1 then processup opts env true s else some s
    else some s
  else if !t.second && !t.third then
    let s := { s with nspike := s.nspike + 1 }
    if opts.spikes ≤ s.nspike then
      let (tot, s) := totprocess env s
      let s := if opts.numToStartMin < tot then handlestop env true s else s
      some { s with nspike := 0 }
    else some s
  else some s

/-- The workers are stopped if the program has changed, and those that are missing are started. -/
def restart (opts : Options) (env : Env) (t : Tick) (s : State) : Option State :=
  let s := if opts.modreload && (s.world.commtime && t.changed) then handlestop env false s else s
  processup opts env false s

/-- `checkshm`; nothing if the manager exits. -/
def checkshm (opts : Options) (env : Env) (command : Option Command) (s : State) : Option State :=
  match command with
  | some .restart => processup opts env false (handlestop env false { s with tempNoRestart := false })
  | some .start => processup opts env false { s with tempNoRestart := false }
  | some .stop => some { handlestop env false s with tempNoRestart := true }
  | some .quit => none
  | _ => some s

/-- What is done in a turn in adaptive mode, unless a client has stopped the workers. -/
def manage (opts : Options) (env : Env) (t : Tick) (s : State) : Option State :=
  if opts.adapt && !s.tempNoRestart then adaptive opts env t s >>= processup opts env false
  else some s

/-- What is done in a turn where workers are restarted. -/
def revive (opts : Options) (env : Env) (t : Tick) (s : State) : Option State :=
  if s.tempNoRestart || opts.dnr then some s else restart opts env t s

/-- A turn of the loop of `main`. -/
def tick (opts : Options) (env : Env) (t : Tick) (s : State) : Option State := do
  let s ← manage opts env t s
  let s ← revive opts env t s
  checkshm opts env t.command s

/-- The workers that are started before the loop. -/
def initSlots (env : Env) : Nat → World → Option (List (Option Nat) × World)
  | 0, w => some ([], w)
  | n + 1, w => do
    let (slot, w) ← startChild env w
    let (plist, w) ← initSlots env n w
    pure (slot :: plist, w)

/-- The state in which the loop starts. -/
def start (opts : Options) (env : Env) : Option State := do
  let (plist, world) ← initSlots env opts.numToStartMin ⟨0, 0, 0, false⟩
  pure ⟨plist ++ List.replicate (opts.maxproc - opts.numToStartMin) none, world, 0, false, []⟩

/-- A property holds of every turn that is taken, with the state it starts from. -/
def EachTick (opts : Options) (env : Env) (P : Tick → State → Prop) : List Tick → State → Prop
  | [], _ => True
  | t :: ts, s => P t s ∧ ∀ s', tick opts env t s = some s' → EachTick opts env P ts s'

end Vf

end Vely
