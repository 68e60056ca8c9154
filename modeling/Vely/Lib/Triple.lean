import Mathlib.Data.List.Basic

/-!
# Computations that may give up

A computation reads and changes a state and returns an answer, or gives up in the state it has
reached. A triple says what holds of the states it ends in: `Q` of those in which it returns, `R` of
those in which it gives up.
-/

namespace Vely

universe u

/-- From a state with `P`, the computation returns with `Q` or gives up with `R`. -/
def Triple {ε σ α : Type u} (P : σ → Prop) (x : EStateM ε σ α) (Q : α → σ → Prop) (R : σ → Prop) :
    Prop :=
  ∀ s, P s →
    match x s with
    | .ok a s' => Q a s'
    | .error _ s' => R s'

namespace Triple

variable {ε σ α β : Type u} {P P' : σ → Prop} {x : EStateM ε σ α} {f : α → EStateM ε σ β}
  {Q Q' : α → σ → Prop} {R R' : σ → Prop} {T : β → σ → Prop}

/-- An answer that is there. -/
theorem pure {a : α} (h : ∀ s, P s → Q a s) :
  Triple P (Pure.pure a : EStateM ε σ α) Q R
  := fun s hs => h s hs

/-- What is done next starts where the computation returns. -/
theorem bind (hx : Triple P x Q R) (hf : ∀ a, Triple (Q a) (f a) T R) :
  Triple P (x >>= f) T R
  := by
  intro s hs
  have hxs := hx s hs
  simp only [Bind.bind, EStateM.bind]
  cases hrun : x s with
  | ok a s' =>
    rw [hrun] at hxs
    apply hf a s' hxs
  | error e s' =>
    rw [hrun] at hxs
    exact hxs

/-- More is assumed and less is promised. -/
theorem mono (h : Triple P x Q R) (hp : ∀ s, P' s → P s) (hq : ∀ a s, Q a s → Q' a s)
    (hr : ∀ s, R s → R' s) :
  Triple P' x Q' R'
  := by
  intro s hs
  have hxs := h s (hp s hs)
  cases hrun : x s with
  | ok a s' =>
    rw [hrun] at hxs
    apply hq _ _ hxs
  | error e s' =>
    rw [hrun] at hxs
    apply hr _ hxs

/-- More is assumed. -/
theorem pre (h : Triple P x Q R) (hp : ∀ s, P' s → P s) :
  Triple P' x Q R
  := h.mono hp (fun _ _ hq => hq) (fun _ hr => hr)

/-- The state is changed. -/
theorem modify {f : σ → σ} {Q : PUnit → σ → Prop} (h : ∀ s, P s → Q PUnit.unit (f s)) :
  Triple P (MonadStateOf.modifyGet (fun s => (PUnit.unit, f s)) : EStateM ε σ PUnit) Q R
  := fun s hs => h s hs

/-- The state is read, and what is done next starts from it. -/
theorem get_bind {f : σ → EStateM ε σ β} (h : ∀ s, P s → Triple (· = s) (f s) T R) :
  Triple P (MonadState.get >>= f) T R
  := fun s hs => h s hs s rfl

/-- The computation gives up. -/
theorem throw {e : ε} (h : ∀ s, P s → R s) :
  Triple P (MonadExcept.throw e : EStateM ε σ α) Q R
  := fun s hs => h s hs

/-- One of two computations. -/
theorem ite {c : Prop} [Decidable c] {y : EStateM ε σ α} (hx : c → Triple P x Q R)
    (hy : ¬ c → Triple P y Q R) :
  Triple P (if c then x else y) Q R
  := by
  split
  · rename_i hc
    apply hx hc
  · rename_i hc
    apply hy hc

end Triple

end Vely
