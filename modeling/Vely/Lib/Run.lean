import Vely.Lib.Memory

/-!
# Runs and simulation

A machine takes a call in a state to an answer and a new state, or stops.  An abstract machine
does the same without stopping.  A relation between the states of the two is a simulation when
from related states every call gets the answer of the abstract machine and leads to related
states, unless it runs out of memory; then so does every run of calls.
-/

namespace Vely

/-- The execution ends with a result satisfying `P`, unless it runs out of memory; it never
faults. -/
def Ends {α : Type} (x : Except Stop α) (P : α → Prop) : Prop :=
  match x with
  | .ok a => P a
  | .error e => e = .outOfMemory

section Ends

variable {α β : Type} {x : Except Stop α} {f : α → Except Stop β} {P : α → Prop} {Q : β → Prop}

@[simp]
theorem ends_ok {a : α} :
  Ends (.ok a) P ↔ P a
  := Iff.rfl

/-- What follows an execution starts from its result. -/
theorem Ends.bind (h : Ends x P) (hf : ∀ a, P a → Ends (f a) Q) :
  Ends (x >>= f) Q
  := by
  cases x with
  | ok a => apply hf a h
  | error e => apply h

theorem Ends.mono {P' : α → Prop} (h : Ends x P) (hp : ∀ a, P a → P' a) :
  Ends x P'
  := by
  cases x with
  | ok a => apply hp a h
  | error e => apply h

/-- An execution that does not stop ends with a result. -/
theorem Ends.exists_ok (h : Ends x P) (hok : x.isOk = true) :
  ∃ a, x = .ok a ∧ P a
  := by
  cases x with
  | ok a => exact ⟨a, rfl, h⟩
  | error e => cases hok

/-- Two facts about the result of one execution. -/
theorem Ends.and {P' : α → Prop} (h : Ends x P) (h' : Ends x P') :
  Ends x (fun a => P a ∧ P' a)
  := by
  cases x with
  | ok a => exact ⟨h, h'⟩
  | error e => apply h

end Ends

/-- What an execution that ends does first. -/
theorem exists_of_bind {ε α β : Type} {x : Except ε α} {f : α → Except ε β} {b : β}
    (h : x >>= f = .ok b) :
  ∃ a, x = .ok a ∧ f a = .ok b
  := by
  cases x with
  | ok a => exact ⟨a, rfl, h⟩
  | error e => cases h

/-- Two executions end with related results, or stop for the same reason. -/
def EndsAlike {α β : Type} (R : α → β → Prop) : Except Stop α → Except Stop β → Prop
  | .ok a, .ok b => R a b
  | .error e, .error e' => e = e'
  | _, _ => False

section EndsAlike

variable {α β γ δ : Type} {R : α → β → Prop} {S : γ → δ → Prop} {x : Except Stop α}
  {y : Except Stop β} {f : α → Except Stop γ} {g : β → Except Stop δ}

/-- What follows two executions that end alike starts from related results. -/
theorem EndsAlike.bind (h : EndsAlike R x y)
    (hf : ∀ a b, x = .ok a → R a b → EndsAlike S (f a) (g b)) :
  EndsAlike S (x >>= f) (y >>= g)
  := by
  cases x with
  | ok a =>
    cases y with
    | ok b => exact hf a b rfl h
    | error e => exact h.elim
  | error e =>
    cases y with
    | ok b => exact h.elim
    | error e' => exact h

end EndsAlike

section Run

variable {C A S M : Type}

/-- The answers to a list of calls, one after the other, and the state after them. -/
def run (step : C → S → Except Stop (A × S)) : List C → S → Except Stop (List A × S)
  | [], s => .ok ([], s)
  | c :: cs, s => do
    let (a, s) ← step c s
    let (as, s) ← run step cs s
    return (a :: as, s)

/-- The answers of an abstract machine and its last state. -/
def specRun (spec : C → M → A × M) : List C → M → List A × M
  | [], m => ([], m)
  | c :: cs, m =>
    let (a, m) := spec c m
    let (as, m) := specRun spec cs m
    (a :: as, m)

/-- From related states, a call is answered as the abstract machine answers it, and leads to
related states. -/
def Simulates (R : S → M → Prop) (step : C → S → Except Stop (A × S)) (spec : C → M → A × M) :
    Prop :=
  ∀ c s m, R s m → Ends (step c s) (fun r => r.1 = (spec c m).1 ∧ R r.2 (spec c m).2)

variable {step : C → S → Except Stop (A × S)} {spec : C → M → A × M} {R : S → M → Prop}

/-- A simulation answers every run of calls as the abstract machine does. -/
theorem Simulates.run (h : Simulates R step spec) (cs : List C) {s : S} {m : M} (hr : R s m) :
  Ends (run step cs s)
    (fun r => r.1 = (specRun spec cs m).1 ∧ R r.2 (specRun spec cs m).2)
  := by
  induction cs generalizing s m with
  | nil => exact ⟨rfl, hr⟩
  | cons c cs ih =>
    apply (h c s m hr).bind
    rintro ⟨a, s'⟩ ⟨ha, hr'⟩
    apply (ih hr').bind
    rintro ⟨as, s''⟩ ⟨has, hr''⟩
    refine ⟨?_, hr''⟩
    simp only at ha has
    rw [ha, has]
    rfl

end Run

end Vely
