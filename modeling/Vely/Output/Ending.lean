import Vely.Output.Capture
import Vely.Output.Room

/-!
# The end of a captured string

At the end of a string white space is passed over from its end.  Nothing stops the search at the
beginning of the string: one that is empty, or is made of white space only, is read in front of its
first byte.
-/

namespace Vely.Output

/-! ### What is asked for -/

/-- The bytes of a string that is written. -/
def captured (w : WriteString) : List UInt8 := (w.string.cells.take w.bufPos).map (·.getD 0)

/-- The positions that are read to pass over white space: the last one is in front of the string
when there is nothing else in it. -/
def trimReads (string : Block) : Nat → List Int
  | 0 => [-1]
  | pos + 1 =>
    (pos : Int) :: match string.get pos with
      | .ok c => if isspace c then trimReads string pos else []
      | .error _ => []

/-- The first positions, up to one. -/
def upTo (pos : Nat) : List Int := (List.range (pos + 1)).map Int.ofNat

/-- The positions that are read and written at the end of a string: those for trimming, that of the
terminator, and those of the bytes that are kept. -/
def endPositions (notrim : Bool) (w : WriteString) : List Int :=
  if notrim then upTo w.bufPos
  else
    trimReads w.string w.bufPos ++ match Out.trimLoop w.string w.bufPos with
      | .ok pos => (pos : Int) :: upTo pos
      | .error _ => []

/-- The positions of `end-write-string`, in the string that was begun last. -/
def Out.endPositions (o : Out) (notrim : Bool) : List Int :=
  match o.depth with
  | 0 => []
  | d + 1 => Output.endPositions ((o.arr d).notrim || notrim) (o.arr d).w

/-- The string that was begun last. -/
def Out.content (o : Out) : List UInt8 :=
  match o.depth with
  | 0 => []
  | d + 1 => captured (o.arr d).w

/-- All of the positions are between zero and the length of the string. -/
def Out.EndsInside (o : Out) (notrim : Bool) : Prop :=
  ∀ p ∈ o.endPositions notrim, 0 ≤ p ∧ p ≤ o.content.length

/-! ### White space at the end -/

section

variable {b : Block} {v : List UInt8} {r : List (Option UInt8)}

/-- The search looks at the last byte, and goes on in front of it over white space. -/
theorem trimReads_append_singleton {c : UInt8} (h : b.cells = (v ++ [c]).map some ++ r) :
  b.cells = v.map some ++ some c :: r
    ∧ trimReads b (v.length + 1)
      = (v.length : Int) :: if isspace c = true then trimReads b v.length else []
  := by
  have hcells : b.cells = v.map some ++ some c :: r := by
    rw [h, List.map_append, List.append_assoc]
    rfl
  use hcells
  rw [trimReads, Block.get_of_cells hcells (List.length_map some).symm]

/-- The search ends inside of a string with other bytes. -/
theorem trimReads_inside (h : b.cells = v.map some ++ r) (hv : ∃ c ∈ v, isspace c = false) :
  ∀ p ∈ trimReads b v.length, 0 ≤ p ∧ p < v.length
  := by
  induction v using List.reverseRecOn generalizing r with
  | nil =>
    obtain ⟨c, hc, -⟩ := hv
    cases hc
  | append_singleton v c ih =>
    obtain ⟨hcells, hreads⟩ := trimReads_append_singleton h
    rw [List.length_append, List.length_singleton, hreads]
    intro p hp
    obtain rfl | hp := List.mem_cons.mp hp
    · omega
    · by_cases hc : isspace c = true
      · rw [if_pos hc] at hp
        have hrest : ∃ d ∈ v, isspace d = false := by
          obtain ⟨d, hd, hspace⟩ := hv
          obtain hd | hd := List.mem_append.mp hd
          · exact ⟨d, hd, hspace⟩
          · rw [List.mem_singleton.mp hd, hc] at hspace
            cases hspace
        have hinside := ih hcells hrest p hp
        omega
      · rw [if_neg hc] at hp
        cases hp

/-- The search leaves a string of white space. -/
theorem trimReads_outside (h : b.cells = v.map some ++ r) (hv : ∀ c ∈ v, isspace c = true) :
  -1 ∈ trimReads b v.length
  := by
  induction v using List.reverseRecOn generalizing r with
  | nil => exact List.mem_singleton_self _
  | append_singleton v c ih =>
    obtain ⟨hcells, hreads⟩ := trimReads_append_singleton h
    rw [List.length_append, List.length_singleton, hreads, if_pos (hv c (by simp))]
    apply List.mem_cons_of_mem
    exact ih hcells fun d hd => hv d (List.mem_append_left _ hd)

theorem mem_upTo {p : Int} {pos : Nat} (h : p ∈ upTo pos) :
  0 ≤ p ∧ p ≤ pos
  := by
  obtain ⟨i, hi, rfl⟩ := List.mem_map.mp h
  rw [List.mem_range] at hi
  have hcast : Int.ofNat i = (i : Int) := rfl
  omega

theorem Holds.captured {w : WriteString} {t : Bool} (h : Holds w v t) :
  captured w = v
  := by
  obtain ⟨x, r, hcells, hpos, -⟩ := h
  rw [Output.captured, hcells, hpos, List.take_left' (List.length_map some), List.map_map]
  exact List.map_id v

/-- The positions are inside of the string when it is left as it is, or has other bytes than white
space, and only then. -/
theorem Holds.endPositions_iff {w : WriteString} {t notrim : Bool} (h : Holds w v t) :
  (∀ p ∈ endPositions notrim w, 0 ≤ p ∧ p ≤ v.length)
    ↔ notrim = true ∨ ∃ c ∈ v, isspace c = false
  := by
  obtain ⟨x, r, hcells, hpos, -⟩ := h
  cases notrim with
  | true =>
    constructor
    · intro _
      exact Or.inl rfl
    · intro _ p hp
      rw [endPositions, if_pos rfl, hpos] at hp
      exact mem_upTo hp
  | false =>
    rw [endPositions, if_neg Bool.false_ne_true, hpos]
    constructor
    · intro hall
      right
      by_contra hnone
      have hspace : ∀ c ∈ v, isspace c = true := by
        intro c hc
        by_contra hno
        exact hnone ⟨c, hc, Bool.eq_false_of_not_eq_true hno⟩
      have hin := hall (-1) (List.mem_append_left _ (trimReads_outside hcells hspace))
      omega
    · rintro (hfalse | hv)
      · cases hfalse
      · have hle := (List.rdropWhile_prefix isspace (l := v)).length_le
        intro p hp
        rw [trimLoop_eq hcells hv] at hp
        obtain hp | hp := List.mem_append.mp hp
        · have hinside := trimReads_inside hcells hv p hp
          omega
        · obtain rfl | hp := List.mem_cons.mp hp
          · omega
          · have hup := mem_upTo hp
            omega

theorem trimLoop_space (h : b.cells = v.map some ++ r) (hv : ∀ c ∈ v, isspace c = true) :
  Out.trimLoop b v.length = .error .fault
  := by
  induction v using List.reverseRecOn generalizing r with
  | nil => rfl
  | append_singleton v c ih =>
    have hcells : b.cells = v.map some ++ some c :: r := by
      rw [h, List.map_append, List.append_assoc]
      rfl
    rw [List.length_append, List.length_singleton, Out.trimLoop,
      Block.get_of_cells hcells (List.length_map some).symm, ok_bind, if_pos (hv c (by simp))]
    exact ih hcells fun d hd => hv d (List.mem_append_left _ hd)

/-- A string is ended without a fault exactly where the positions are inside of it. -/
theorem Holds.endPositions_iff_trim {w : WriteString} {t notrim : Bool} (h : Holds w v t) :
  (∀ p ∈ endPositions notrim w, 0 ≤ p ∧ p ≤ v.length) ↔ ∃ w', Out.trim notrim w = .ok w'
  := by
  rw [h.endPositions_iff]
  obtain ⟨x, r, hcells, hpos, -⟩ := h
  constructor
  · rintro (rfl | hv)
    · exact ⟨w, rfl⟩
    · cases notrim with
      | true => exact ⟨w, rfl⟩
      | false =>
        have hle := (List.rdropWhile_prefix isspace (l := v)).length_le
        have hlt : (v.rdropWhile isspace).length < w.string.cells.length := by
          rw [hcells]
          simp only [List.length_append, List.length_map, List.length_cons]
          omega
        rw [Out.trim, if_neg Bool.false_ne_true, hpos, trimLoop_eq hcells hv, ok_bind,
          Block.put_of_lt 0 hlt]
        exact ⟨_, rfl⟩
  · rintro ⟨w', hw'⟩
    cases notrim with
    | true => exact Or.inl rfl
    | false =>
      right
      by_contra hnone
      have hspace : ∀ c ∈ v, isspace c = true := by
        intro c hc
        by_contra hno
        exact hnone ⟨c, hc, Bool.eq_false_of_not_eq_true hno⟩
      rw [Out.trim, if_neg Bool.false_ne_true, hpos, trimLoop_space hcells hspace] at hw'
      cases hw'

end

/-! ### Runs -/

/-- The strings that are begun hold some bytes, and are not yet left as they are. -/
structure Out.Levels (o : Out) : Prop where
  holds : ∀ i < o.depth, ∃ v t, Holds (o.arr i).w v t
  notrim : ∀ i, (o.arr i).notrim = false

section

variable {o o' : Out}

theorem Out.levels_init :
  Out.init.Levels
  := by
  constructor
  · intro i hi
    cases hi
  · intro i
    rfl

theorem Out.Levels.begin (h : o.Levels) {x : Nat} (hbegin : o.begin x = some o') :
  o'.Levels
  := by
  rw [Out.begin] at hbegin
  split at hbegin
  · cases hbegin
  · cases hbegin
    constructor
    · intro i hi
      dsimp only at hi ⊢
      by_cases hnew : i = o.depth
      · rw [hnew, Function.update_self]
        exact ⟨[], false, holds_start⟩
      · rw [Function.update_of_ne hnew]
        apply h.holds
        omega
    · intro i
      dsimp only
      by_cases hnew : i = o.depth
      · rw [hnew, Function.update_self]
        exact h.notrim o.depth
      · rw [Function.update_of_ne hnew]
        exact h.notrim i

theorem Out.Levels.write (h : o.Levels) {out : Write} (hwrite : o.write out = .ok o') :
  o'.Levels
  := by
  rw [Out.write] at hwrite
  split at hwrite
  · obtain ⟨bytes, -, hwrite⟩ := exists_of_bind hwrite
    cases hwrite
    exact ⟨h.holds, h.notrim⟩
  · next d hdepth =>
    obtain ⟨w, hw, hwrite⟩ := exists_of_bind hwrite
    cases hwrite
    constructor
    · intro i hi
      dsimp only at hi ⊢
      by_cases hlast : i = d
      · obtain ⟨v, t, hholds⟩ := h.holds d (by omega)
        rw [hlast, Function.update_self]
        exact Write.holds hholds hw
      · rw [Function.update_of_ne hlast]
        exact h.holds i hi
    · intro i
      dsimp only
      by_cases hlast : i = d
      · rw [hlast, Function.update_self]
        exact h.notrim d
      · rw [Function.update_of_ne hlast]
        exact h.notrim i

/-- The flag of the string that is ended is taken back. -/
theorem Out.Levels.stop {o₁ : Out} (h : o.Levels) (hstop : o₁.stop = .ok (some o'))
    (hdepth : o₁.depth = o.depth) (harr : ∀ i, i + 1 ≠ o.depth → o₁.arr i = o.arr i) :
  o'.Levels
  := by
  rw [Out.stop] at hstop
  split at hstop
  · cases hstop
  · next d hd =>
    dsimp only at hstop
    split at hstop
    · cases hstop
    · obtain ⟨w, -, hstop⟩ := exists_of_bind hstop
      cases hstop
      constructor
      · intro i hi
        dsimp only at hi ⊢
        rw [Function.update_of_ne (by omega), harr i (by omega)]
        apply h.holds
        omega
      · intro i
        dsimp only
        by_cases hlast : i = d
        · rw [hlast, Function.update_self]
        · rw [Function.update_of_ne hlast, harr i (by omega)]
          exact h.notrim i

theorem Out.Levels.step (h : o.Levels) {op : Op} (hstep : step o op = .ok (some o')) :
  o'.Levels
  := by
  cases op with
  | writeString x =>
    rw [Output.step, Except.ok.injEq] at hstep
    exact h.begin hstep
  | output out =>
    obtain ⟨o₁, hwrite, ho₁⟩ := exists_of_map hstep
    cases ho₁
    exact h.write hwrite
  | endWriteString notrim =>
    obtain ⟨o₁, hstart, hstop⟩ := exists_of_bind hstep
    cases notrim with
    | false =>
      cases hstart
      exact h.stop hstop rfl fun i _ => rfl
    | true =>
      rw [if_pos rfl, Out.writeToStringNotrim] at hstart
      split at hstart
      · cases hstart
      · next d hd =>
        cases hstart
        apply h.stop hstop rfl
        intro i hi
        exact Function.update_of_ne (by omega) _ _

theorem Out.Levels.run {ops : List Op} (h : o.Levels) (hrun : run ops o = .ok (some o')) :
  o'.Levels
  := by
  induction ops generalizing o with
  | nil =>
    cases hrun
    exact h
  | cons op ops ih =>
    rw [Output.run] at hrun
    obtain ⟨r, hstep, hrun⟩ := exists_of_bind hrun
    cases r with
    | none => cases hrun
    | some o₁ => exact ih (h.step hstep) hrun

end

/-- In every program, at the end of a string only positions inside of it are read and written
exactly when it is left as it is, or has other bytes than white space. -/
theorem endsInside_iff {ops : List Op} {o : Out} (hrun : run ops Out.init = .ok (some o))
    (hdepth : 0 < o.depth) (notrim : Bool) :
  o.EndsInside notrim ↔ notrim = true ∨ ∃ c ∈ o.content, isspace c = false
  := by
  obtain ⟨hholds, hnotrim⟩ := Out.levels_init.run hrun
  obtain ⟨d, hd⟩ := Nat.exists_eq_succ_of_ne_zero hdepth.ne'
  obtain ⟨v, t, h⟩ := hholds d (by omega)
  have hpositions : o.endPositions notrim = endPositions notrim (o.arr d).w := by
    rw [Out.endPositions, hd]
    dsimp only
    rw [hnotrim, Bool.false_or]
  have hcontent : o.content = v := by
    rw [Out.content, hd]
    exact h.captured
  rw [Out.EndsInside, hpositions, hcontent]
  exact h.endPositions_iff

set_option maxRecDepth 4000 in
/-- A string with one byte is ended. -/
theorem endsInside_byte :
  ∃ o, run [.writeString 0, .output (.puts none ⟨[97], none, by simp⟩)] Out.init = .ok (some o)
    ∧ 0 < o.depth
    ∧ (o.EndsInside false ↔ false = true ∨ ∃ c ∈ o.content, isspace c = false)
  := ⟨_, rfl, Nat.succ_pos 0,
    @endsInside_iff [.writeString 0, .output (.puts none ⟨[97], none, by simp⟩)] _ rfl
      (Nat.succ_pos 0) false⟩

/-- A string that is empty is read in front of its first byte. -/
theorem not_endsInside_empty :
  ∃ o, run [.writeString 0] Out.init = .ok (some o) ∧ ¬ o.EndsInside false
  := by
  refine ⟨_, rfl, ?_⟩
  intro h
  have hin := h (-1) (List.mem_cons_self)
  omega

end Vely.Output
