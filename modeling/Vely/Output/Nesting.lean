import Vely.Output.Model

/-!
# Nested outputs

A program whose `write-string` and `end-write-string` match makes outputs at its own level and
inside of the strings that it writes.  What it means is told by a stack: of every string that is
begun, the outputs that were made for it.
-/

namespace Vely.Output

/-! ### What is asked for -/

/-- The text of an output with an encoding. -/
def encoded : Option EncType → List UInt8 → List UInt8
  | none, v => v
  | some t, v => v.flatMap t.bytes

/-- The bytes of a string that are to be output: as many as are given, or the whole string. -/
def Source.text (s : Source) : List UInt8 :=
  match s.length with
  | none => s.cstr
  | some n => s.bytes.take n

/-- The bytes of an output. -/
def Write.text : Write → List UInt8
  | .puts encType s => encoded encType s.text
  | .printf encType text => encoded encType text

/-- The bytes of some outputs. -/
def textOf (ws : List Write) : List UInt8 := ws.flatMap Write.text

/-- A text without the white space at its end, unless it is left as it is. -/
def trimmed (notrim : Bool) (v : List UInt8) : List UInt8 :=
  if notrim then v else v.rdropWhile isspace

@[simp]
theorem textOf_nil :
  textOf [] = []
  := rfl

@[simp]
theorem textOf_append (ws ws' : List Write) :
  textOf (ws ++ ws') = textOf ws ++ textOf ws'
  := List.flatMap_append

@[simp]
theorem textOf_singleton (w : Write) :
  textOf [w] = w.text
  := List.flatMap_singleton _ _

/-- A program whose strings are ended in the order in which they are begun, with at most `n` of them
one inside the other, and the outputs that it makes at its own level. -/
inductive Nested : Nat → List Op → List Write → Prop where
  | nil {n : Nat} : Nested n [] []
  | output {n : Nat} {w : Write} {ops : List Op} {ws : List Write} (h : Nested n ops ws) :
      Nested n (.output w :: ops) (w :: ws)
  | string {n x : Nat} {notrim : Bool} {inner ops : List Op} {us ws : List Write}
      (hinner : Nested n inner us) (h : Nested (n + 1) ops ws) :
      Nested (n + 1) (.writeString x :: (inner ++ .endWriteString notrim :: ops)) ws

/-! ### The stack -/

/-- A string that is written: its variable, and the outputs that were made for it. -/
structure Frame where
  userString : Nat
  writes : List Write

/-- The strings that are written, the last one first, and the outputs to the response. -/
structure Stack where
  frames : List Frame
  body : List Write

namespace Stack

/-- Outputs are made at the level that was begun last. -/
def output (ws : List Write) : Stack → Stack
  | ⟨[], body⟩ => ⟨[], body ++ ws⟩
  | ⟨f :: fs, body⟩ => ⟨{ f with writes := f.writes ++ ws } :: fs, body⟩

/-- A step. -/
def step (s : Stack) : Op → Option Stack
  | .writeString x =>
    if s.frames.length < maxNestedWriteString then some { s with frames := ⟨x, []⟩ :: s.frames }
    else none
  | .output w => some (s.output [w])
  | .endWriteString _ =>
    match s.frames with
    | [] => none
    | _ :: fs => some { s with frames := fs }

/-- A program. -/
def run : List Op → Stack → Option Stack
  | [], s => some s
  | op :: ops, s => (s.step op).bind (run ops)

@[simp]
theorem output_nil (s : Stack) :
  s.output [] = s
  := by
  obtain ⟨frames, body⟩ := s
  cases frames <;> simp [output]

@[simp]
theorem output_output (s : Stack) (ws ws' : List Write) :
  (s.output ws).output ws' = s.output (ws ++ ws')
  := by
  obtain ⟨frames, body⟩ := s
  cases frames <;> simp [output]

@[simp]
theorem length_output (s : Stack) (ws : List Write) :
  (s.output ws).frames.length = s.frames.length
  := by
  obtain ⟨frames, body⟩ := s
  cases frames <;> simp [output]

theorem run_append (ops ops' : List Op) (s : Stack) :
  run (ops ++ ops') s = (run ops s).bind (run ops')
  := by
  induction ops generalizing s with
  | nil => rfl
  | cons op ops ih =>
    rw [List.cons_append, run, run, Option.bind_assoc]
    congr 1
    funext s'
    apply ih

end Stack

section Nested

variable {n : Nat} {ops : List Op} {ws : List Write}

/-- A nested program makes the outputs of its own level, and leaves the levels outside as they
are. -/
theorem Nested.run_eq (h : Nested n ops ws) {s s' : Stack} (hrun : s.run ops = some s') :
  s' = s.output ws
  := by
  induction h generalizing s s' with
  | nil =>
    cases hrun
    rw [Stack.output_nil]
  | output h ih =>
    rw [Stack.run, Stack.step, Option.bind_some] at hrun
    rw [ih hrun, Stack.output_output]
    rfl
  | string hinner h ihinner ih =>
    rw [Stack.run, Option.bind_eq_some_iff] at hrun
    obtain ⟨s₁, hstep, hrun⟩ := hrun
    rw [Stack.run_append, Option.bind_eq_some_iff] at hrun
    obtain ⟨s₂, hrun₁, hrun⟩ := hrun
    rw [Stack.step] at hstep
    split at hstep
    · cases hstep
      obtain rfl := ihinner hrun₁
      apply ih hrun
    · cases hstep

/-- There are levels enough for a nested program. -/
theorem Nested.exists_run (h : Nested n ops ws) {s : Stack}
    (hs : s.frames.length + n ≤ maxNestedWriteString) :
  s.run ops = some (s.output ws)
  := by
  induction h generalizing s with
  | nil => rw [Stack.output_nil, Stack.run]
  | @output n w ops ws h ih =>
    rw [Stack.run, Stack.step, Option.bind_some, ih (by simpa using hs), Stack.output_output]
    rfl
  | @string n x notrim inner ops us ws hinner h ihinner ih =>
    have hlen : s.frames.length < maxNestedWriteString := by omega
    rw [Stack.run, Stack.step, if_pos hlen, Option.bind_some, Stack.run_append,
      ihinner (by simp only [List.length_cons]; omega), Option.bind_some]
    apply ih hs

end Nested

end Vely.Output
