import Vely.Output.Capture

/-!
# Runs of nested programs

A program that meets the condition runs to its end; every string that it writes is captured, and
nothing else is changed by that.
-/

namespace Vely.Output

/-! ### What a step leaves alone -/

section Steps

variable {o o' : Out}

/-- A string is begun behind the levels. -/
theorem Out.begin_outer {x : Nat} (h : o.begin x = some o') :
  o'.depth = o.depth + 1 ∧ (∀ i < o.depth, o'.arr i = o.arr i) ∧ o'.body = o.body
  := by
  rw [Out.begin] at h
  split at h
  · cases h
  · cases h
    refine ⟨rfl, ?_, rfl⟩
    intro i hi
    apply Function.update_of_ne hi.ne

/-- An output is made at the last level. -/
theorem Out.write_outer {w : Write} (h : o.write w = .ok o') :
  o'.depth = o.depth ∧ (∀ i, i + 1 < o.depth → o'.arr i = o.arr i)
    ∧ (0 < o.depth → o'.body = o.body)
  := by
  rw [Out.write] at h
  split at h
  case h_1 hdepth =>
    obtain ⟨bytes, -, h⟩ := exists_of_bind h
    cases h
    refine ⟨rfl, ?_, ?_⟩
    · intro i hi
      rfl
    · intro hpos
      omega
  case h_2 d hdepth =>
    obtain ⟨w', -, h⟩ := exists_of_bind h
    cases h
    refine ⟨rfl, ?_, ?_⟩
    · intro i hi
      apply Function.update_of_ne
      omega
    · intro hpos
      rfl

/-- The last level is ended. -/
theorem endWriteString_outer {notrim : Bool}
    (h : step o (.endWriteString notrim) = .ok (some o')) :
  o.depth = o'.depth + 1 ∧ (∀ i < o'.depth, o'.arr i = o.arr i) ∧ o'.body = o.body
  := by
  obtain ⟨o₁, hstart, hstop⟩ := exists_of_bind h
  -- `notrim` is set at the last level.
  have h₁ : o₁.depth = o.depth ∧ (∀ i, i + 1 < o.depth → o₁.arr i = o.arr i)
      ∧ o₁.body = o.body := by
    split at hstart
    · rw [Out.writeToStringNotrim] at hstart
      split at hstart
      · cases hstart
      · cases hstart
        refine ⟨rfl, ?_, rfl⟩
        intro i hi
        apply Function.update_of_ne
        omega
    · cases hstart
      exact ⟨rfl, fun _ _ => rfl, rfl⟩
  obtain ⟨hdepth, harr, hbody⟩ := h₁
  rw [Out.stop] at hstop
  split at hstop
  · cases hstop
  case h_2 d hd =>
    simp only at hstop
    split at hstop
    · cases hstop
    · obtain ⟨w', -, hstop⟩ := exists_of_bind hstop
      cases hstop
      refine ⟨?_, ?_, hbody⟩
      · rw [← hdepth, hd]
      · intro i hi
        change i < d at hi
        simp only
        rw [Function.update_of_ne hi.ne, harr i (by omega)]

/-- The steps of a program, from the first one. -/
theorem exists_of_run {op : Op} {ops : List Op} (h : run (op :: ops) o = .ok (some o')) :
  ∃ o₁, step o op = .ok (some o₁) ∧ run ops o₁ = .ok (some o')
  := by
  rw [run] at h
  obtain ⟨r, hr, h⟩ := exists_of_bind h
  cases r with
  | none => cases h
  | some o₁ => exact ⟨o₁, hr, h⟩

theorem exists_of_run_append {ops ops' : List Op} (h : run (ops ++ ops') o = .ok (some o')) :
  ∃ o₁, run ops o = .ok (some o₁) ∧ run ops' o₁ = .ok (some o')
  := by
  induction ops generalizing o with
  | nil => exact ⟨o, rfl, h⟩
  | cons op ops ih =>
    obtain ⟨o₁, hstep, hrun⟩ := exists_of_run h
    obtain ⟨o₂, hrun₁, hrun₂⟩ := ih hrun
    refine ⟨o₂, ?_, hrun₂⟩
    rw [run, hstep, ok_bind]
    exact hrun₁

/-- From `o` to `o'` a string was begun and ended: the levels and the response body are as they
were. -/
structure SameOuter (o o' : Out) : Prop where
  depth : o'.depth = o.depth
  arr : ∀ i < o.depth, o'.arr i = o.arr i
  body : o'.body = o.body

/-- A nested program changes nothing in front of the last level. -/
theorem Nested.outer {n : Nat} {ops : List Op} {ws : List Write} (h : Nested n ops ws)
    (hrun : run ops o = .ok (some o')) :
  o'.depth = o.depth ∧ (∀ i, i + 1 < o.depth → o'.arr i = o.arr i)
    ∧ (0 < o.depth → o'.body = o.body)
  := by
  induction h generalizing o o' with
  | nil =>
    cases hrun
    exact ⟨rfl, fun _ _ => rfl, fun _ => rfl⟩
  | output h ih =>
    obtain ⟨o₁, hstep, hrun⟩ := exists_of_run hrun
    obtain ⟨hdepth, harr, hbody⟩ := ih hrun
    rw [step] at hstep
    cases hwrite : o.write _ with
    | error e =>
      rw [hwrite] at hstep
      cases hstep
    | ok o₂ =>
      rw [hwrite] at hstep
      cases hstep
      obtain ⟨hdepth₁, harr₁, hbody₁⟩ := Out.write_outer hwrite
      refine ⟨?_, ?_, ?_⟩
      · rw [hdepth, hdepth₁]
      · intro i hi
        rw [harr i (by omega), harr₁ i hi]
      · intro hpos
        rw [hbody (by omega), hbody₁ hpos]
  | string hinner h ihinner ih =>
    obtain ⟨o₁, hstep, hrun⟩ := exists_of_run hrun
    obtain ⟨o₂, hrun₂, hrun⟩ := exists_of_run_append hrun
    obtain ⟨o₃, hstep₃, hrun⟩ := exists_of_run hrun
    rw [step] at hstep
    obtain ⟨hdepth₁, harr₁, hbody₁⟩ := Out.begin_outer (Except.ok.inj hstep)
    obtain ⟨hdepth₂, harr₂, hbody₂⟩ := ihinner hrun₂
    obtain ⟨hdepth₃, harr₃, hbody₃⟩ := endWriteString_outer hstep₃
    obtain ⟨hdepth, harr, hbody⟩ := ih hrun
    refine ⟨?_, ?_, ?_⟩
    · omega
    · intro i hi
      rw [harr i (by omega), harr₃ i (by omega), harr₂ i (by omega), harr₁ i (by omega)]
    · intro hpos
      rw [hbody (by omega), hbody₃, hbody₂ (by omega), hbody₁]

/-- A string that is begun and ended changes nothing outside. -/
theorem Nested.sameOuter {n x : Nat} {notrim : Bool} {inner : List Op} {us : List Write}
    (h : Nested n inner us)
    (hrun : run (.writeString x :: (inner ++ [.endWriteString notrim])) o = .ok (some o')) :
  SameOuter o o'
  := by
  obtain ⟨o₁, hstep, hrun⟩ := exists_of_run hrun
  obtain ⟨o₂, hrun₂, hrun⟩ := exists_of_run_append hrun
  obtain ⟨o₃, hstep₃, hrun⟩ := exists_of_run hrun
  cases hrun
  rw [step] at hstep
  obtain ⟨hdepth₁, harr₁, hbody₁⟩ := Out.begin_outer (Except.ok.inj hstep)
  obtain ⟨hdepth₂, harr₂, hbody₂⟩ := h.outer hrun₂
  obtain ⟨hdepth₃, harr₃, hbody₃⟩ := endWriteString_outer hstep₃
  constructor
  · omega
  · intro i hi
    rw [harr₃ i (by omega), harr₂ i (by omega), harr₁ i (by omega)]
  · rw [hbody₃, hbody₂ (by omega), hbody₁]

end Steps

/-! ### Runs -/

/-- A step that meets the condition does what the stack says. -/
theorem Shows.step {o : Out} {s s' : Stack} {op : Op} (h : Shows o s) (hstep : s.step op = some s')
    (hfine : op.Fine s) :
  ∃ o', step o op = .ok (some o') ∧ Shows o' s'
  := by
  cases op with
  | writeString x =>
    rw [Stack.step] at hstep
    split at hstep
    case isTrue hlen =>
      cases hstep
      obtain ⟨o', hbegin, hshows⟩ := @Shows.begin o s x h hlen
      refine ⟨o', ?_, hshows⟩
      rw [Output.step, hbegin]
    case isFalse => cases hstep
  | output w =>
    cases hstep
    obtain ⟨o', hwrite, hshows⟩ := h.write hfine.1 hfine.2
    refine ⟨o', ?_, hshows⟩
    rw [Output.step, hwrite]
    rfl
  | endWriteString notrim =>
    obtain ⟨frames, body⟩ := s
    cases frames with
    | nil => cases hstep
    | cons f fs =>
      cases hstep
      obtain ⟨o', hend, hshows, -, -⟩ := h.endWriteString (hfine f rfl)
      exact ⟨o', hend, hshows⟩

/-- A run whose steps meet the condition does what the stack says. -/
theorem Shows.run {o : Out} {s s' : Stack} {ops : List Op} (h : Shows o s)
    (hrun : s.run ops = some s') (hfine : s.Fine ops) :
  ∃ o', run ops o = .ok (some o') ∧ Shows o' s'
  := by
  induction ops generalizing o s with
  | nil =>
    cases hrun
    exact ⟨o, rfl, h⟩
  | cons op ops ih =>
    rw [Stack.run, Option.bind_eq_some_iff] at hrun
    obtain ⟨s₁, hstep, hrun⟩ := hrun
    obtain ⟨o₁, hstep₁, hshows₁⟩ := h.step hstep hfine.1
    obtain ⟨o', hrun₁, hshows⟩ := ih hshows₁ hrun (hfine.2 s₁ hstep)
    refine ⟨o', ?_, hshows⟩
    rw [Output.run, hstep₁, ok_bind]
    exact hrun₁

/-- From `o` to `o'` the string `v` was written for the variable `x`: it has a terminator, its
length is reported, and the levels outside and the response body are as they were. -/
structure Captured (o o' : Out) (x : Nat) (v : List UInt8) : Prop extends SameOuter o o' where
  string : o'.vars x = ⟨v.map some ++ [some 0]⟩
  length : o'.writeToStringLength = v.length

/-- The program runs to its end, with its own outputs in the response body, and every string that
it writes is captured, with the outputs made at its own level. -/
def NestedOk (ops : List Op) (ws : List Write) : Prop :=
  (∃ o, run ops Out.init = .ok (some o) ∧ o.depth = 0 ∧ o.body = textOf ws)
  ∧ ∀ pre x n inner us notrim post,
    ops = pre ++ .writeString x :: (inner ++ .endWriteString notrim :: post) → Nested n inner us →
    ∃ o o', run pre Out.init = .ok (some o)
      ∧ run (.writeString x :: (inner ++ [.endWriteString notrim])) o = .ok (some o')
      ∧ Captured o o' x (trimmed notrim (textOf us))

/-- In every nested program whose steps meet the condition the strings are captured. -/
theorem nestedOk_of_fine {ops : List Op} {ws : List Write}
    (h : Nested maxNestedWriteString ops ws) (hfine : Stack.Fine ops ⟨[], []⟩) :
  NestedOk ops ws
  := by
  have hrun : Stack.run ops ⟨[], []⟩ = some ⟨[], ws⟩ := h.exists_run (Nat.le_of_eq (Nat.zero_add _))
  constructor
  · obtain ⟨o, hok, hshows⟩ := shows_init.run hrun hfine
    exact ⟨o, hok, hshows.depth, hshows.body⟩
  · intro pre x n inner us notrim post heq hinner
    subst heq
    -- The stack in front of the string, inside of it, and behind its outputs.
    rw [Stack.run_append, Option.bind_eq_some_iff] at hrun
    obtain ⟨s, hpre, hrun⟩ := hrun
    rw [Stack.fine_append hpre] at hfine
    obtain ⟨hfinePre, hfineBegin, hfineRest⟩ := hfine
    rw [Stack.run, Option.bind_eq_some_iff] at hrun
    obtain ⟨s₁, hbegin, hrun⟩ := hrun
    rw [Stack.run_append, Option.bind_eq_some_iff] at hrun
    obtain ⟨s₂, hin, hrun⟩ := hrun
    have hfineRest := hfineRest s₁ hbegin
    rw [Stack.fine_append hin] at hfineRest
    obtain ⟨hfineInner, hfineEnd, -⟩ := hfineRest
    have hs₂ := hinner.run_eq hin
    have hs₁ : s₁ = { s with frames := ⟨x, []⟩ :: s.frames } := by
      rw [Stack.step] at hbegin
      split at hbegin
      · exact (Option.some.inj hbegin).symm
      · cases hbegin
    subst hs₁
    rw [Stack.output, List.nil_append] at hs₂
    subst hs₂
    -- The same for the levels.
    obtain ⟨o, hrunPre, hshows⟩ := shows_init.run hpre hfinePre
    obtain ⟨o₁, hstep₁, hshows₁⟩ := hshows.step hbegin hfineBegin
    obtain ⟨o₂, hrun₂, hshows₂⟩ := hshows₁.run hin hfineInner
    obtain ⟨o', hend, -, hvars, hlength⟩ := hshows₂.endWriteString (hfineEnd _ rfl)
    have hcapture : run (.writeString x :: (inner ++ [.endWriteString notrim])) o
        = .ok (some o') := by
      rw [run, hstep₁, ok_bind]
      simp only
      rw [run_append _ hrun₂, run, hend]
      rfl
    refine ⟨o, o', hrunPre, hcapture, hinner.sameOuter hcapture, hvars, hlength⟩

/-- A string within a string: `x <` with a blank, around `&lt;` in another one. -/
theorem nestedOk_of_fine_two :
  NestedOk
    [.writeString 0, .output (.puts none ⟨ascii "x <  ", some 4, by decide⟩), .writeString 1,
      .output (.printf (some .web) (ascii "<")), .endWriteString true, .endWriteString false] []
  := by
  have h : Nested maxNestedWriteString
      (.writeString 0 :: ([.output (.puts none ⟨ascii "x <  ", some 4, by decide⟩),
        .writeString 1, .output (.printf (some .web) (ascii "<")), .endWriteString true]
        ++ .endWriteString false :: [])) [] :=
    .string (.output (@Nested.string 3 1 true [.output (.printf (some .web) (ascii "<"))] [] _ []
      (.output .nil) .nil)) .nil
  apply nestedOk_of_fine h
  simp [Stack.Fine, Op.Fine, Stack.step, Stack.output, Write.Exact, Write.Fits, CanEnd,
    maxNestedWriteString]
  decide

/-- A string without output is read in front of its first byte. -/
theorem not_nestedOk_empty :
  Nested maxNestedWriteString [.writeString 0, .endWriteString false] []
    ∧ run [.writeString 0, .endWriteString false] Out.init = .error .fault
    ∧ ¬ NestedOk [.writeString 0, .endWriteString false] []
  := by
  have hrun : run [.writeString 0, .endWriteString false] Out.init = .error .fault := rfl
  refine ⟨@Nested.string 4 0 false [] [] [] [] .nil .nil, hrun, ?_⟩
  rintro ⟨⟨o, hok, -⟩, -⟩
  rw [hrun] at hok
  cases hok

end Vely.Output
