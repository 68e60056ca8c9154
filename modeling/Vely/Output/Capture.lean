import Mathlib.Data.List.DropRight
import Vely.Output.Writers

/-!
# Captured strings

In a program that is nested every string that is written gets the outputs that were made at its own
level, and what is written inside of it changes nothing outside.  It fails at the end of a string
with only white space in it, which is read in front of its first byte, at the end of one that is
left as it is and has no terminator yet, and for an output that is not what was asked for.
-/

namespace Vely.Output

/-! ### The condition -/

/-- Whether the last output left a terminator. -/
def lastTerminates (us : List Write) : Bool := (us.getLast?.map Write.terminates).getD false

/-- A string can be ended: there is a byte at which trimming ends, or, without trimming, a
terminator. -/
def CanEnd (notrim : Bool) (us : List Write) : Prop :=
  if notrim then lastTerminates us = true else ∃ c ∈ textOf us, isspace c = false

/-- The condition for a step. -/
def Op.Fine (s : Stack) : Op → Prop
  | .writeString _ => True
  | .output w => w.Exact ∧ (s.frames ≠ [] → w.Fits)
  | .endWriteString notrim => ∀ f ∈ s.frames.head?, CanEnd notrim f.writes

/-- The condition for all steps of a program. -/
def Stack.Fine : List Op → Stack → Prop
  | [], _ => True
  | op :: ops, s => op.Fine s ∧ ∀ s' ∈ s.step op, Stack.Fine ops s'

theorem Stack.fine_append {ops ops' : List Op} {s s' : Stack} (hrun : s.run ops = some s') :
  s.Fine (ops ++ ops') ↔ s.Fine ops ∧ s'.Fine ops'
  := by
  induction ops generalizing s with
  | nil =>
    cases hrun
    simp [Stack.Fine]
  | cons op ops ih =>
    rw [Stack.run, Option.bind_eq_some_iff] at hrun
    obtain ⟨s₁, hstep, hrun⟩ := hrun
    have hall : ∀ P : Stack → Prop, (∀ s' ∈ s.step op, P s') ↔ P s₁ := by
      intro P
      rw [hstep]
      simp
    rw [List.cons_append, Stack.Fine, Stack.Fine, hall, hall, ih hrun, and_assoc]

/-! ### The levels and the stack -/

/-- A level has the outputs that were made for its string. -/
structure LevelHolds (l : Level) (f : Frame) : Prop where
  string : Holds l.w (textOf f.writes) (lastTerminates f.writes)
  notrim : l.notrim = false
  userString : l.userString = f.userString

/-- The levels of some strings, the last one first. -/
def Stands (arr : Nat → Level) : List Frame → Prop
  | [] => True
  | f :: fs => LevelHolds (arr fs.length) f ∧ Stands arr fs

/-- The output of a request has what is on the stack. -/
structure Shows (o : Out) (s : Stack) : Prop where
  depth : o.depth = s.frames.length
  levels : Stands o.arr s.frames
  notrim : ∀ i, s.frames.length ≤ i → (o.arr i).notrim = false
  body : o.body = textOf s.body

theorem Stands.congr {arr arr' : Nat → Level} {fs : List Frame} (h : Stands arr fs)
    (harr : ∀ i < fs.length, arr' i = arr i) :
  Stands arr' fs
  := by
  induction fs with
  | nil => trivial
  | cons f fs ih =>
    constructor
    · rw [harr _ (Nat.lt_succ_self _)]
      apply h.1
    · apply ih h.2
      intro i hi
      apply harr
      apply Nat.lt_succ_of_lt hi

theorem shows_init :
  Shows Out.init ⟨[], []⟩
  := by
  constructor
  · rfl
  · trivial
  · intro i hi
    rfl
  · rfl

section Shows

variable {o : Out} {s : Stack}

/-- A string is begun at a new level. -/
theorem Shows.begin {x : Nat} (h : Shows o s) (hlen : s.frames.length < maxNestedWriteString) :
  ∃ o', o.begin x = some o' ∧ Shows o' { s with frames := ⟨x, []⟩ :: s.frames }
  := by
  have hdepth := h.depth
  refine ⟨_, if_neg (by omega), ?_, ⟨?_, ?_⟩, ?_, h.body⟩
  · simp [hdepth]
  · simp only [hdepth, Function.update_self]
    constructor
    · apply holds_start
    · apply h.notrim _ (Nat.le_refl _)
    · rfl
  · apply h.levels.congr
    intro i hi
    apply Function.update_of_ne
    omega
  · intro i hi
    simp only [List.length_cons] at hi
    simp only
    rw [Function.update_of_ne (by omega)]
    apply h.notrim
    omega

/-- An output is added to the string that was begun last, or to the response body. -/
theorem Shows.write {w : Write} (h : Shows o s) (hexact : w.Exact)
    (hfits : s.frames ≠ [] → w.Fits) :
  ∃ o', o.write w = .ok o' ∧ Shows o' (s.output [w])
  := by
  obtain ⟨frames, body⟩ := s
  obtain ⟨hdepth, hlevels, hnotrim, hbody⟩ := h
  cases frames with
  | nil =>
    use { o with body := o.body ++ w.text }
    constructor
    · rw [Out.write, hdepth]
      simp only [List.length_nil]
      rw [Write.toWeb_eq hexact]
      rfl
    · constructor
      · exact hdepth
      · trivial
      · exact hnotrim
      · simp only [Stack.output, textOf_append, textOf_singleton, hbody]
  | cons f fs =>
    obtain ⟨hlevel, hlevels⟩ := hlevels
    obtain ⟨w', hwrite, hholds⟩ := hlevel.string.write hexact (hfits (by simp))
    use { o with arr := Function.update o.arr fs.length { o.arr fs.length with w := w' } }
    constructor
    · rw [Out.write, hdepth]
      simp only [List.length_cons]
      rw [hwrite]
      rfl
    · constructor
      · exact hdepth
      · constructor
        · simp only [Function.update_self]
          constructor
          · simpa [lastTerminates] using hholds
          · exact hlevel.notrim
          · exact hlevel.userString
        · apply hlevels.congr
          intro i hi
          apply Function.update_of_ne hi.ne
      · intro i hi
        simp only [Stack.output, List.length_cons] at hi
        simp only
        rw [Function.update_of_ne (by omega)]
        apply hnotrim
        simpa using hi
      · exact hbody

end Shows

/-! ### The end of a string -/

/-- White space at the end is passed over, up to another byte. -/
theorem trimLoop_eq {b : Block} {v : List UInt8} {r : List (Option UInt8)}
    (h : b.cells = v.map some ++ r) (hv : ∃ c ∈ v, isspace c = false) :
  Out.trimLoop b v.length = .ok (v.rdropWhile isspace).length
  := by
  induction v using List.reverseRecOn generalizing r with
  | nil =>
    obtain ⟨c, hc, -⟩ := hv
    cases hc
  | append_singleton v c ih =>
    have hcells : b.cells = v.map some ++ some c :: r := by
      rw [h, List.map_append, List.append_assoc]
      rfl
    rw [List.length_append, List.length_singleton, Out.trimLoop,
      Block.get_of_cells hcells (List.length_map some).symm, ok_bind]
    by_cases hc : isspace c = true
    · rw [if_pos hc, List.rdropWhile_concat_pos isspace v c hc]
      apply ih hcells
      obtain ⟨d, hd, hspace⟩ := hv
      rw [List.mem_append, List.mem_singleton] at hd
      obtain hd | rfl := hd
      · exact ⟨d, hd, hspace⟩
      · rw [hc] at hspace
        cases hspace
    · rw [if_neg hc, List.rdropWhile_concat_neg isspace v c hc]
      simp

/-- At its end a string is trimmed, or left as it is, and has a terminator. -/
theorem Holds.trim {w : WriteString} {us : List Write} {notrim : Bool}
    (h : Holds w (textOf us) (lastTerminates us)) (hend : CanEnd notrim us) :
  ∃ w', Out.trim notrim w = .ok w' ∧ Holds w' (trimmed notrim (textOf us)) true
  := by
  cases notrim with
  | true =>
    use w
    constructor
    · rfl
    · rw [CanEnd, if_pos rfl] at hend
      rwa [hend] at h
  | false =>
    obtain ⟨x, r, hcells, hpos, -⟩ := h
    have hloop := trimLoop_eq hcells hend
    obtain ⟨sp, hsp⟩ := List.rdropWhile_prefix isspace (l := textOf us)
    obtain ⟨y, r', hr'⟩ : ∃ y r', sp.map some ++ x :: r = y :: r' := by
      apply List.exists_cons_of_ne_nil
      simp
    have hsplit : w.string.cells = ((textOf us).rdropWhile isspace).map some ++ y :: r' := by
      rw [hcells, ← hr', ← List.append_assoc, ← List.map_append, hsp]
    have hput := Block.put_of_cells 0 hsplit (List.length_map some).symm
    use ⟨⟨((textOf us).rdropWhile isspace).map some ++ some 0 :: r'⟩,
      ((textOf us).rdropWhile isspace).length, w.wlen⟩
    constructor
    · rw [Out.trim, if_neg (by simp), hpos, hloop, ok_bind, hput]
      rfl
    · exact ⟨some 0, r', rfl, rfl, fun _ => rfl⟩

theorem Holds.realloc_end {w : WriteString} {v : List UInt8} (h : Holds w v true) :
  w.string.realloc (w.bufPos + 1) = ⟨v.map some ++ [some 0]⟩
  := by
  obtain ⟨x, r, hcells, hpos, hx⟩ := h
  obtain rfl := hx rfl
  rw [Block.realloc, hcells, hpos]
  simp [List.take_append]

/-- A string that can be ended is given to its variable. -/
theorem Shows.endWriteString {o : Out} {f : Frame} {fs : List Frame} {body : List Write}
    {notrim : Bool} (h : Shows o ⟨f :: fs, body⟩) (hend : CanEnd notrim f.writes) :
  ∃ o', step o (.endWriteString notrim) = .ok (some o') ∧ Shows o' ⟨fs, body⟩
    ∧ o'.vars f.userString = ⟨(trimmed notrim (textOf f.writes)).map some ++ [some 0]⟩
    ∧ o'.writeToStringLength = (trimmed notrim (textOf f.writes)).length
  := by
  obtain ⟨hdepth, ⟨hlevel, hlevels⟩, hnotrim, hbody⟩ := h
  obtain ⟨w', htrim, hholds⟩ := hlevel.string.trim hend
  obtain ⟨o₁, ho₁, hstart⟩ : ∃ o₁ : Out, o₁ = { o with
      arr := Function.update o.arr fs.length { o.arr fs.length with notrim := notrim } }
      ∧ (if notrim then o.writeToStringNotrim else .ok o) = .ok o₁ := by
    refine ⟨_, rfl, ?_⟩
    cases notrim with
    | true =>
      rw [if_pos rfl, Out.writeToStringNotrim, hdepth]
      rfl
    | false =>
      rw [if_neg (by simp)]
      congr 2
      have heq : ({ o.arr fs.length with notrim := false } : Level) = o.arr fs.length := by
        rw [← hlevel.notrim]
      rw [heq, Function.update_eq_self]
  have hne : (o.arr fs.length).w.string.cells ≠ [] := by
    apply List.length_pos_iff.mp
    have hlt := hlevel.string.lt
    omega
  obtain ⟨o', ho'⟩ : ∃ o' : Out, o' = { o₁ with
      arr := Function.update o₁.arr fs.length ⟨{ w' with string := ⟨[]⟩ }, false, f.userString⟩
      depth := fs.length
      vars := Function.update o.vars f.userString
        ⟨(trimmed notrim (textOf f.writes)).map some ++ [some 0]⟩ } := ⟨_, rfl⟩
  have hstop : o₁.stop = .ok (some o') := by
    subst ho' ho₁
    rw [Out.stop]
    simp only [hdepth, List.length_cons, Function.update_self, if_neg hne, htrim, ok_bind,
      hlevel.userString, hholds.realloc_end]
    rfl
  use o'
  refine ⟨?_, ⟨?_, ?_, ?_, ?_⟩, ?_, ?_⟩
  · rw [step, hstart, ok_bind, hstop]
  · rw [ho']
  · apply hlevels.congr
    intro i hi
    simp only [ho', ho₁]
    rw [Function.update_of_ne hi.ne, Function.update_of_ne hi.ne]
  · intro i hi
    change fs.length ≤ i at hi
    simp only [ho', ho₁]
    by_cases hi' : i = fs.length
    · rw [hi', Function.update_self]
    · rw [Function.update_of_ne hi', Function.update_of_ne hi']
      apply hnotrim
      simp only [List.length_cons]
      omega
  · rw [ho', ho₁]
    exact hbody
  · simp only [ho', Function.update_self]
  · obtain ⟨x, r, -, hpos, -⟩ := hholds
    rw [Out.writeToStringLength]
    simp only [ho', Function.update_self, hpos]

end Vely.Output
