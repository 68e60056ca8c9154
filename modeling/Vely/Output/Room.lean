import Vely.Output.Writers

/-!
# Room in a captured string

Before an output is written to a string, the memory of the string is made larger when what is
computed for the output is more than what is left.  The room for an encoding is computed as an
`int`, and the length of a formatted text is one: outputs that are too long for that are written
over the end of the memory, or are cut.
-/

namespace Vely.Output

/-! ### What is asked for -/

/-- What is written at once: the number that is computed for its room, the number that is meant, and
how many bytes are written. -/
structure Demand where
  computed : Int
  needed : Nat
  written : Nat

/-- A formatted text that is printed. -/
def printDemand (text : List UInt8) : Demand :=
  ⟨vsnprintfLength text, text.length, text.length⟩

/-- A string that is copied. -/
def copyDemand (n : Nat) : Demand := ⟨n, n, n⟩

/-- A string that is encoded to where it is written. -/
def encodeDemand (t : EncType) (v : List UInt8) : Demand :=
  ⟨int32 (maxEncBlowup v.length), maxEncBlowup v.length, (v.flatMap t.bytes).length⟩

/-- A formatted text as it is read again, up to the first null. -/
def printed (text : List UInt8) : List UInt8 := text.takeWhile (· ≠ 0)

/-- What an output writes, one after the other: a text that is encoded is printed first. -/
def Write.demands : Write → List Demand
  | .puts none s => [copyDemand s.vLen]
  | .puts (some t) s => [encodeDemand t (s.bytes.take s.vLen)]
  | .printf none text => [printDemand text]
  | .printf (some t) text =>
    [printDemand text, copyDemand ((printed text).flatMap t.bytes).length]

/-- The length of an output. -/
def Write.length : Write → Nat
  | .puts _ s => s.vLen
  | .printf _ text => text.length

namespace Demand

variable (d : Demand)

/-- What is computed is more than what is left. -/
def Grows (w : WriteString) : Prop :=
  d.computed > (w.string.cells.length : Int) - 1 - w.bufPos

instance (w : WriteString) : Decidable (d.Grows w) := inferInstanceAs (Decidable (_ > _))

/-- The string, with the memory that it is written to. -/
def grow (w : WriteString) : WriteString :=
  if d.Grows w then
    { w with
      string := w.string.realloc ((w.string.cells.length : Int) + d.computed + w.wlen).toNat
      wlen := adjMem w.wlen }
  else w

/-- The number for the memory is one of 64 bits. -/
def SumFits (w : WriteString) : Prop :=
  d.Grows w → (w.string.cells.length : Int) + d.computed + w.wlen < 2 ^ 63

/-- The room is computed without overflow, and there is enough of it, with the terminator. -/
structure Room (w : WriteString) : Prop where
  exact : d.computed = d.needed
  sum : d.SumFits w
  room : w.bufPos + d.written + 1 ≤ (d.grow w).string.cells.length

end Demand

/-- The string with the memory after some writes. -/
def growAll (ds : List Demand) (w : WriteString) : WriteString := ds.foldl (fun w d => d.grow w) w

/-- There is room for all that an output writes. -/
def RoomFor : List Demand → WriteString → Prop
  | [], _ => True
  | d :: ds, w => d.Room w ∧ RoomFor ds (d.grow w)

/-- The numbers for the memory are of 64 bits. -/
def SumsFit : List Demand → WriteString → Prop
  | [], _ => True
  | d :: ds, w => d.SumFits w ∧ SumsFit ds (d.grow w)

/-- What is so of each output before it is written. -/
def EachWrite (P : Write → WriteString → Prop) : List Write → WriteString → Prop
  | [], _ => True
  | out :: us, w => P out w ∧ ∀ w', out.toString w = .ok w' → EachWrite P us w'

/-- Each output has its room. -/
def RoomAlways : List Write → WriteString → Prop := EachWrite fun out w => RoomFor out.demands w

/-- The numbers for the memory are always of 64 bits. -/
def SumsAlways : List Write → WriteString → Prop := EachWrite fun out w => SumsFit out.demands w

/-- The room for an encoding is an `int`, and so is the length of a formatted text. -/
def Write.Small : Write → Prop
  | .puts none _ => True
  | .puts (some _) s => maxEncBlowup s.vLen < 2 ^ 31
  | .printf _ text => text.length < 2 ^ 31

/-- The length of all outputs. -/
def totalLength (us : List Write) : Nat := (us.map Write.length).sum

/-! ### The memory of the writers -/

theorem exists_of_map {ε α β : Type} {x : Except ε α} {f : α → β} {b : β} (h : f <$> x = .ok b) :
  ∃ a, x = .ok a ∧ f a = b
  := by
  cases x with
  | error e => cases h
  | ok a =>
    cases h
    exact ⟨a, rfl, rfl⟩

theorem length_put {b b' : Block} {i : Nat} {c : UInt8} (h : b.put i c = .ok b') :
  b'.cells.length = b.cells.length
  := by
  rw [Block.put] at h
  split at h
  · cases h
    exact List.length_set
  · cases h

theorem length_putAll {b b' : Block} {i : Nat} {bs : List UInt8} (h : b.putAll i bs = .ok b') :
  b'.cells.length = b.cells.length
  := by
  induction bs generalizing b i with
  | nil =>
    cases h
    rfl
  | cons c bs ih =>
    rw [Block.putAll] at h
    obtain ⟨b₁, hput, h⟩ := exists_of_bind h
    rw [ih h, length_put hput]

theorem length_vsnprintf {b b' : Block} {i size : Nat} {text : List UInt8}
    (h : vsnprintf b i size text = .ok b') :
  b'.cells.length = b.cells.length
  := by
  rw [vsnprintf] at h
  split at h
  · cases h
    rfl
  · exact length_putAll h

theorem length_memcpy {b b' src : Block} {i n : Nat} (h : memcpy b i src n = .ok b') :
  b'.cells.length = b.cells.length
  := by
  rw [memcpy] at h
  split at h
  · next hle =>
    cases h
    simp only [List.length_append, List.length_take, List.length_drop]
    omega
  · cases h

theorem length_realloc (b : Block) (n : Nat) :
  (b.realloc n).cells.length = n
  := by
  rw [Block.realloc, List.length_append, List.length_take, List.length_replicate]
  omega

section

variable {w w' : WriteString} {d : Demand}

theorem Demand.grow_of_grows (h : d.Grows w) :
  d.grow w = { w with
    string := w.string.realloc ((w.string.cells.length : Int) + d.computed + w.wlen).toNat
    wlen := adjMem w.wlen }
  := if_pos h

theorem Demand.grow_of_not (h : ¬ d.Grows w) :
  d.grow w = w
  := if_neg h

@[simp]
theorem Demand.grow_bufPos :
  (d.grow w).bufPos = w.bufPos
  := by
  rw [grow]
  split
  · rfl
  · rfl

/-- The contents of the string do not matter. -/
theorem Demand.grow_congr (d : Demand) {v : WriteString}
    (hlength : w.string.cells.length = v.string.cells.length) (hwlen : w.wlen = v.wlen)
    (hpos : w.bufPos = v.bufPos) :
  (d.grow w).string.cells.length = (d.grow v).string.cells.length
    ∧ (d.grow w).wlen = (d.grow v).wlen
  := by
  have hgrows : d.Grows w ↔ d.Grows v := by rw [Grows, Grows, hlength, hpos]
  by_cases h : d.Grows w
  · rw [grow_of_grows h, grow_of_grows (hgrows.mp h), length_realloc, length_realloc, hlength,
      hwlen]
    exact ⟨rfl, rfl⟩
  · rw [grow_of_not h, grow_of_not fun hv => h (hgrows.mpr hv)]
    exact ⟨hlength, hwlen⟩

/-- There is never less memory. -/
theorem Demand.le_grow (hw : w.bufPos < w.string.cells.length) :
  w.string.cells.length ≤ (d.grow w).string.cells.length
  := by
  rw [grow]
  split
  · next h =>
    rw [Grows] at h
    rw [length_realloc]
    omega
  · exact Nat.le_refl _

/-- With what is computed there is room, when it is enough. -/
theorem Demand.lt_grow (hw : w.bufPos < w.string.cells.length)
    (h : (d.written : Int) ≤ d.computed) :
  w.bufPos + d.written + 1 ≤ (d.grow w).string.cells.length
  := by
  rw [grow]
  split
  · next hgrows =>
    rw [Grows] at hgrows
    rw [length_realloc]
    omega
  · next hgrows =>
    rw [Grows] at hgrows
    omega

/-- What a writer leaves: the memory that was asked for, and the position behind what is written. -/
structure Grown (w : WriteString) (ds : List Demand) (n : Int) (w' : WriteString) : Prop where
  length : w'.string.cells.length = (growAll ds w).string.cells.length
  wlen : w'.wlen = (growAll ds w).wlen
  bufPos : (w'.bufPos : Int) = w.bufPos + n

/-- A single write. -/
theorem grown_singleton (hlength : w'.string.cells.length = (d.grow w).string.cells.length)
    (hwlen : w'.wlen = (d.grow w).wlen) {n : Int} (hpos : (w'.bufPos : Int) = w.bufPos + n) :
  Grown w [d] n w'
  := ⟨hlength, hwlen, hpos⟩

/-- With the memory that was asked for no more is. -/
theorem Demand.not_grows (hw : w.bufPos < w.string.cells.length) :
  ¬ d.Grows (d.grow w)
  := by
  rw [grow]
  split
  · next h =>
    rw [Grows] at h ⊢
    rw [length_realloc]
    change ¬ d.computed > _ - (w.bufPos : Int)
    omega
  · next h => exact h

theorem copyDemand_grows {n : Nat} :
  (copyDemand n).Grows w ↔ (n : Int) > (w.string.cells.length : Int) - 1 - w.bufPos
  := Iff.rfl

theorem encodeDemand_computed {t : EncType} {s : List UInt8} :
  (encodeDemand t s).computed = int32 (maxEncBlowup s.length)
  := by rw [encodeDemand]

theorem printDemand_computed {text : List UInt8} :
  (printDemand text).computed = vsnprintfLength text
  := by rw [printDemand]

theorem encodeDemand_grows {t : EncType} {s : List UInt8} :
  (encodeDemand t s).Grows w
    ↔ int32 (maxEncBlowup s.length) > (w.string.cells.length : Int) - 1 - w.bufPos
  := by rw [Demand.Grows, encodeDemand_computed]

theorem printDemand_grows {text : List UInt8} :
  (printDemand text).Grows w
    ↔ vsnprintfLength text > (w.string.cells.length : Int) - 1 - w.bufPos
  := by rw [Demand.Grows, printDemand_computed]

/-- `vely_puts_to_string` copies to the memory that was asked for. -/
theorem putsToString_eq {finalOut : Block} {n : Nat} (hw : w.bufPos < w.string.cells.length) :
  putsToString finalOut n w
    = (fun string => { (copyDemand n).grow w with string := string, bufPos := w.bufPos + n })
      <$> memcpy ((copyDemand n).grow w).string w.bufPos finalOut (n + 1)
  := by
  have hnot := @Demand.not_grows w (copyDemand n) hw
  rw [putsToString, putsToStringLoop]
  by_cases hgrows : (copyDemand n).Grows w
  · rw [Demand.grow_of_grows hgrows] at hnot ⊢
    rw [if_pos (copyDemand_grows.mp hgrows)]
    simp only
    rw [putsToStringLoop]
    exact if_neg hnot
  · rw [Demand.grow_of_not hgrows, if_neg fun h => hgrows (copyDemand_grows.mpr h)]
    rfl

/-- `vely_puts` encodes to the memory that was asked for. -/
theorem velyPuts_eq {t : EncType} {s : List UInt8} (hw : w.bufPos < w.string.cells.length) :
  velyPuts t s w
    = (fun x : Block × Nat =>
        { (encodeDemand t s).grow w with string := x.1, bufPos := w.bufPos + x.2 })
      <$> velyEncodeBase t s ((encodeDemand t s).grow w).string w.bufPos
  := by
  have hnot := @Demand.not_grows w (encodeDemand t s) hw
  rw [velyPuts]
  rw [encodeDemand_grows] at hnot
  by_cases hgrows : (encodeDemand t s).Grows w
  · rw [Demand.grow_of_grows hgrows, encodeDemand_computed] at hnot ⊢
    rw [putsLoop]
    simp only
    rw [if_pos (encodeDemand_grows.mp hgrows)]
    exact putsLoop_of_le 0 (not_lt.mp hnot)
  · rw [Demand.grow_of_not hgrows]
    rw [encodeDemand_grows] at hgrows
    exact putsLoop_of_le 1 (not_lt.mp hgrows)

theorem putsToString_grown {finalOut : Block} {n : Nat} (hw : w.bufPos < w.string.cells.length)
    (h : putsToString finalOut n w = .ok w') :
  Grown w [copyDemand n] n w'
  := by
  rw [putsToString_eq hw] at h
  obtain ⟨string, hcopy, hw'⟩ := exists_of_map h
  subst hw'
  apply grown_singleton (length_memcpy hcopy)
  · exact Eq.refl ((copyDemand n).grow w).wlen
  · exact Int.natCast_add _ _

/-- What is encoded without a fault had room. -/
theorem encode_grown {t : EncType} {s : List UInt8} (hw : w.bufPos < w.string.cells.length)
    (h : (fun x : Block × Nat => { d.grow w with string := x.1, bufPos := w.bufPos + x.2 })
      <$> velyEncodeBase t s (d.grow w).string w.bufPos = .ok w') :
  Grown w [d] (s.flatMap t.bytes).length w'
    ∧ w.bufPos + (s.flatMap t.bytes).length < (d.grow w).string.cells.length
  := by
  have hle := @Demand.le_grow w d hw
  obtain ⟨⟨string, n⟩, hencode, hw'⟩ := exists_of_map h
  subst hw'
  have hroom : w.bufPos + (s.flatMap t.bytes).length < (d.grow w).string.cells.length := by
    by_contra hno
    rw [velyEncodeBase_of_le (by omega) (by omega)] at hencode
    cases hencode
  obtain ⟨b, hb, hlength⟩ := velyEncodeBase_of_lt hroom
  rw [hb] at hencode
  cases hencode
  refine ⟨grown_singleton hlength ?_ ?_, hroom⟩
  · rfl
  · exact Int.natCast_add _ _

theorem velyPuts_grown {t : EncType} {s : List UInt8} (hw : w.bufPos < w.string.cells.length)
    (h : velyPuts t s w = .ok w') :
  Grown w [encodeDemand t s] (s.flatMap t.bytes).length w'
  := by
  rw [velyPuts_eq hw] at h
  exact (encode_grown hw h).1

/-- `vely_printf` -/
theorem printfLoop_grown {text : List UInt8} {tot : Int} (hw : w.bufPos < w.string.cells.length)
    (h : printfLoop text 2 w = .ok (w', tot)) :
  Grown w [printDemand text] tot w' ∧ tot = vsnprintfLength text
  := by
  rw [printfLoop] at h
  obtain ⟨string, hprint, h⟩ := exists_of_bind h
  have hlength := length_vsnprintf hprint
  dsimp only at h
  split at h
  · next hlarge =>
    have hgrows : (printDemand text).Grows w := by
      rw [printDemand_grows]
      omega
    rw [printfLoop] at h
    obtain ⟨string', hprint', h⟩ := exists_of_bind h
    have hlength' := length_vsnprintf hprint'
    dsimp only at h hlength'
    split at h
    · cases h
    · split at h
      · cases h
      · next hpos =>
        cases h
        refine ⟨grown_singleton ?_ ?_ ?_, rfl⟩
        · rw [Demand.grow_of_grows hgrows, hlength', length_realloc, length_realloc, hlength,
            printDemand_computed]
          omega
        · rw [Demand.grow_of_grows hgrows]
        · change ((w.bufPos + vsnprintfLength text).toNat : Int) = _
          omega
  · next hsmall =>
    have hgrows : ¬ (printDemand text).Grows w := by
      rw [printDemand_grows]
      omega
    split at h
    · cases h
    · next hpos =>
      cases h
      refine ⟨grown_singleton ?_ ?_ ?_, rfl⟩
      · rw [Demand.grow_of_not hgrows, hlength]
      · rw [Demand.grow_of_not hgrows]
      · change ((w.bufPos + vsnprintfLength text).toNat : Int) = _
        omega

/-! ### One output -/

theorem vsnprintfLength_of_lt {text : List UInt8} (h : text.length < 2 ^ 31) :
  vsnprintfLength text = text.length
  := if_pos h

theorem lt_of_int32 {n : Nat} (h : int32 n = n) :
  n < 2 ^ 31
  := by
  have hlt := @Int.bmod_lt n (2 ^ 32) (by omega)
  rw [int32] at h
  omega

theorem length_printed (text : List UInt8) :
  (printed text).length ≤ text.length
  := (List.takeWhile_sublist _).length_le

/-- Where the numbers are those that are meant, and are of 64 bits, there is room. -/
theorem Demand.room_of_le (hw : w.bufPos < w.string.cells.length) (hexact : d.computed = d.needed)
    (hle : d.written ≤ d.needed) (hsum : d.SumFits w) :
  d.Room w
  := by
  use hexact, hsum
  apply d.lt_grow hw
  omega

theorem copyDemand_room {n : Nat} (hw : w.bufPos < w.string.cells.length)
    (hsum : (copyDemand n).SumFits w) :
  (copyDemand n).Room w
  := Demand.room_of_le hw rfl (Nat.le_refl n) hsum

theorem printDemand_exact {text : List UInt8} :
  (printDemand text).computed = (printDemand text).needed ↔ text.length < 2 ^ 31
  := by
  rw [printDemand_computed]
  constructor
  · intro h
    by_contra hlarge
    rw [vsnprintfLength, if_neg hlarge] at h
    cases h
  · intro h
    exact vsnprintfLength_of_lt h

theorem encodeDemand_exact {t : EncType} {v : List UInt8} :
  (encodeDemand t v).computed = (encodeDemand t v).needed ↔ maxEncBlowup v.length < 2 ^ 31
  := by
  rw [encodeDemand_computed]
  constructor
  · intro h
    exact lt_of_int32 h
  · intro h
    exact int32_of_lt h

theorem encodeDemand_le {t : EncType} {v : List UInt8} :
  (encodeDemand t v).written ≤ (encodeDemand t v).needed
  := Nat.le_succ_of_le (EncType.length_flatMap_le v)

theorem length_take_vLen (s : Source) :
  (s.bytes.take s.vLen).length = s.vLen
  := by
  rw [List.length_take, Nat.min_eq_left s.vLen_le]

/-- There is room for an output exactly when it is not too long, and the numbers are of 64 bits. -/
theorem roomFor_iff {out : Write} (hw : w.bufPos < w.string.cells.length) :
  RoomFor out.demands w ↔ out.Small ∧ SumsFit out.demands w
  := by
  have hgrow : ∀ d : Demand, (d.grow w).bufPos < (d.grow w).string.cells.length := by
    intro d
    have hle := @Demand.le_grow w d hw
    rw [Demand.grow_bufPos]
    omega
  cases out with
  | puts encType s =>
    cases encType with
    | none =>
      constructor
      · rintro ⟨hroom, -⟩
        exact ⟨trivial, hroom.sum, trivial⟩
      · rintro ⟨-, hsum, -⟩
        exact ⟨copyDemand_room hw hsum, trivial⟩
    | some t =>
      have hsmall : maxEncBlowup (s.bytes.take s.vLen).length = maxEncBlowup s.vLen := by
        rw [length_take_vLen]
      constructor
      · rintro ⟨hroom, -⟩
        have hexact := encodeDemand_exact.mp hroom.exact
        rw [hsmall] at hexact
        exact ⟨hexact, hroom.sum, trivial⟩
      · rintro ⟨hexact, hsum, -⟩
        rw [Write.Small, ← hsmall] at hexact
        exact ⟨Demand.room_of_le hw (encodeDemand_exact.mpr hexact) encodeDemand_le hsum, trivial⟩
  | printf encType text =>
    have hprint : (printDemand text).SumFits w → text.length < 2 ^ 31
        → (printDemand text).Room w := by
      intro hsum hsmall
      exact Demand.room_of_le hw (printDemand_exact.mpr hsmall) (Nat.le_refl text.length) hsum
    cases encType with
    | none =>
      constructor
      · rintro ⟨hroom, -⟩
        exact ⟨printDemand_exact.mp hroom.exact, hroom.sum, trivial⟩
      · rintro ⟨hsmall, hsum, -⟩
        exact ⟨hprint hsum hsmall, trivial⟩
    | some t =>
      constructor
      · rintro ⟨hroom, hroom', -⟩
        exact ⟨printDemand_exact.mp hroom.exact, hroom.sum, hroom'.sum, trivial⟩
      · rintro ⟨hsmall, hsum, hsum', -⟩
        exact ⟨hprint hsum hsmall, copyDemand_room (hgrow _) hsum', trivial⟩

/-! ### What a string holds -/

variable {v : List UInt8} {b : Bool}

/-- A printed text is read up to the first null. -/
theorem string_printed {m : Block} {l r : List (Option UInt8)} {u : List UInt8} {i : Nat}
    (h : m.cells = l ++ (u.map some ++ some 0 :: r)) (hi : i = l.length) :
  ∃ s, m.string i = .ok s ∧ s.bytes = printed u
  := by
  have hnonzero : 0 ∉ printed u := by
    intro hmem
    exact absurd (List.mem_takeWhile_imp hmem) (by simp)
  have hsplit : ∃ r', u.map some ++ some 0 :: r = (printed u).map some ++ some 0 :: r' := by
    have hu := List.takeWhile_append_dropWhile (p := fun c : UInt8 => decide (c ≠ 0)) (l := u)
    cases hrest : u.dropWhile (fun c : UInt8 => decide (c ≠ 0)) with
    | nil =>
      rw [hrest, List.append_nil] at hu
      rw [printed, hu]
      exact ⟨r, rfl⟩
    | cons c rest =>
      have hc : c = 0 := by
        have hhead := List.head?_dropWhile_not (fun c : UInt8 => decide (c ≠ 0)) u
        rw [hrest] at hhead
        simpa using hhead
      subst hc
      use rest.map some ++ some 0 :: r
      rw [printed]
      conv_lhs => rw [← hu, hrest]
      simp
  obtain ⟨r', hr'⟩ := hsplit
  rw [hr'] at h
  exact ⟨⟨printed u, hnonzero⟩, Block.string_of_cells ⟨printed u, hnonzero⟩ h hi, rfl⟩

/-- A printed text is encoded and written again where it was printed. -/
theorem encodePrinted_ok {t : EncType} {u : List UInt8} {r : List (Option UInt8)}
    (hcells : w.string.cells = v.map some ++ (u.map some ++ some 0 :: r))
    (hpos : w.bufPos = v.length) :
  ∃ w', (do
      let printed ← w.string.string w.bufPos
      let (finalOut, finalLen) ← velyEncode t printed.bytes
      putsToString finalOut finalLen w) = .ok w'
    ∧ Holds w' (v ++ (printed u).flatMap t.bytes) true
    ∧ Grown w [copyDemand ((printed u).flatMap t.bytes).length]
      ((printed u).flatMap t.bytes).length w'
  := by
  obtain ⟨s, hstring, hs⟩ := string_printed hcells (hpos.trans (List.length_map some).symm)
  obtain ⟨rest, hencode⟩ := velyEncode_cells t (printed u)
  have hholds : Holds w v false := by
    cases u with
    | nil => exact ⟨some 0, r, hcells, hpos, by simp⟩
    | cons c u => exact ⟨some c, _, hcells, hpos, by simp⟩
  obtain ⟨w', hputs, hholds'⟩ := @Holds.putsToString _ v false hholds ((printed u).flatMap t.bytes)
    ⟨_⟩ 0 rest rfl
  use w'
  refine ⟨?_, hholds', putsToString_grown hholds.lt hputs⟩
  rw [hstring, ok_bind, hs, hencode]
  exact hputs

/-- What is printed stands behind the string, with a terminator. -/
theorem printfLoop_cells {text : List UInt8} {tot : Int} (h : Holds w v b)
    (hprint : printfLoop text 2 w = .ok (w', tot)) :
  ∃ u r, w'.string.cells = v.map some ++ (u.map some ++ some 0 :: r)
    ∧ (text.length < 2 ^ 31 → u = text)
  := by
  by_cases hsmall : text.length < 2 ^ 31
  · obtain ⟨w₁, hw₁, x, r, hcells, -, hx⟩ := h.printfLoop hsmall
    rw [hw₁] at hprint
    cases hprint
    use text, r
    obtain rfl := hx rfl
    rw [hcells, List.map_append, List.append_assoc]
    exact ⟨rfl, fun _ => rfl⟩
  · obtain ⟨x, r, hcells, hpos, -⟩ := h
    have hlength : w.string.cells.length - w.bufPos = (x :: r).length := by
      rw [hcells, hpos, List.length_append, List.length_map, Nat.add_sub_cancel_left]
    obtain ⟨s₁, r₁, hput, hs₁, -⟩ := vsnprintf_cells hcells (List.cons_ne_nil x r) text
    rw [List.length_map, ← hpos, ← hlength] at hput
    rw [printfLoop, hput, ok_bind] at hprint
    simp only [vsnprintfLength, if_neg hsmall] at hprint
    rw [if_neg (by omega)] at hprint
    split at hprint
    · cases hprint
    · cases hprint
      use text.take ((x :: r).length - 1), r₁
      rw [List.append_assoc] at hs₁
      exact ⟨hs₁, fun hlt => absurd hlt hsmall⟩

theorem Holds.grow (h : Holds w v b) (d : Demand) :
  Holds (d.grow w) v b
  := by
  have hlt := h.lt
  rw [Demand.grow]
  split
  · next hgrows =>
    rw [Demand.Grows] at hgrows
    apply h.realloc
    omega
  · exact h

/-- A text that is printed and then encoded, from the string as it is after it was printed. -/
theorem printfEncoded_ok {t : EncType} {text : List UInt8} {tot : Int} (h : Holds w v b)
    (hprint : printfLoop text 2 w = .ok (w', tot)) :
  ∃ u w₁, Write.toString w (.printf (some t) text) = .ok w₁
    ∧ Holds w₁ (v ++ (printed u).flatMap t.bytes) true
    ∧ Grown { w' with bufPos := w.bufPos } [copyDemand ((printed u).flatMap t.bytes).length]
      ((printed u).flatMap t.bytes).length w₁
    ∧ (text.length < 2 ^ 31 → u = text)
  := by
  obtain ⟨hgrown, -⟩ := printfLoop_grown h.lt hprint
  obtain ⟨u, r, hcells, hu⟩ := printfLoop_cells h hprint
  have hback : ((w'.bufPos : Int) - tot).toNat = w.bufPos := by
    have hpos := hgrown.bufPos
    omega
  have hpos : w.bufPos = v.length := by
    obtain ⟨x, r, -, hpos, -⟩ := h
    exact hpos
  obtain ⟨w₁, hw₁, hholds, hgrown₁⟩ :=
    @encodePrinted_ok { w' with bufPos := w.bufPos } v t u r hcells hpos
  use u, w₁
  refine ⟨?_, hholds, hgrown₁, hu⟩
  rw [Write.toString, hprint, ok_bind]
  simp only [hback]
  exact hw₁

/-- A string that was written to holds some bytes again, with at least one behind them. -/
theorem Write.holds {out : Write} (h : Holds w v b) (hout : out.toString w = .ok w') :
  ∃ v' b', Holds w' v' b'
  := by
  cases out with
  | puts encType s =>
    cases encType with
    | none =>
      obtain ⟨x, r, hblock, -⟩ := s.block_cells
      obtain ⟨w₁, hw₁, hholds⟩ := h.putsToString hblock
      rw [length_take_vLen] at hw₁
      rw [Write.toString, hw₁] at hout
      cases hout
      exact ⟨_, _, hholds⟩
    | some t =>
      rw [Write.toString, velyPuts_eq h.lt] at hout
      obtain ⟨-, hroom⟩ := encode_grown h.lt hout
      have hgrow := h.grow (encodeDemand t (s.bytes.take s.vLen))
      rw [← @Demand.grow_bufPos w (encodeDemand t (s.bytes.take s.vLen))] at hroom hout
      obtain ⟨string, hencode, hholds⟩ :=
        @Holds.velyEncodeBase _ v b hgrow t (s.bytes.take s.vLen) (by omega)
      rw [hencode] at hout
      cases hout
      exact ⟨_, _, hholds⟩
  | printf encType text =>
    cases encType with
    | none =>
      obtain ⟨⟨w₁, tot⟩, hprint, rfl⟩ := exists_of_map hout
      by_cases hsmall : text.length < 2 ^ 31
      · obtain ⟨w₂, hw₂, hholds⟩ := h.printfLoop hsmall
        rw [hw₂] at hprint
        cases hprint
        exact ⟨_, _, hholds⟩
      · -- The position is moved back by one, over the last byte.
        obtain ⟨hgrown, htot⟩ := printfLoop_grown h.lt hprint
        obtain ⟨u, r, hcells, -⟩ := printfLoop_cells h hprint
        obtain ⟨x, r', -, hpos, -⟩ := h
        have hback := hgrown.bufPos
        rw [htot, vsnprintfLength, if_neg hsmall, hpos] at hback
        cases v using List.reverseRecOn with
        | nil =>
          rw [List.length_nil] at hback
          omega
        | append_singleton v c =>
          rw [List.length_append, List.length_singleton] at hback
          use v, false, some c, u.map some ++ some 0 :: r
          refine ⟨?_, by dsimp only; omega, by simp⟩
          rw [hcells]
          simp
    | some t =>
      rw [Write.toString] at hout
      obtain ⟨⟨w₁, tot⟩, hprint, hrest⟩ := exists_of_bind hout
      obtain ⟨u, w₂, hw₂, hholds, -, -⟩ := @printfEncoded_ok _ _ _ _ t _ _ h hprint
      rw [Write.toString, hprint, ok_bind] at hw₂
      rw [hrest] at hw₂
      cases hw₂
      exact ⟨_, _, hholds⟩

/-- Where there is room, an output is written. -/
theorem Write.ok_of_small {out : Write} (h : Holds w v b) (hsmall : out.Small) :
  ∃ w', out.toString w = .ok w'
  := by
  cases out with
  | puts encType s =>
    cases encType with
    | none =>
      obtain ⟨x, r, hblock, -⟩ := s.block_cells
      obtain ⟨w₁, hw₁, -⟩ := h.putsToString hblock
      rw [length_take_vLen] at hw₁
      exact ⟨w₁, hw₁⟩
    | some t =>
      have hle := EncType.length_flatMap_le (t := t) (s.bytes.take s.vLen)
      obtain ⟨w₁, hw₁, -⟩ := @Holds.velyPuts w v b h t (s.bytes.take s.vLen) (by
        rw [length_take_vLen] at hle ⊢
        rw [int32_of_lt hsmall, maxEncBlowup]
        omega)
      exact ⟨w₁, hw₁⟩
  | printf encType text =>
    obtain ⟨w₁, hw₁, -⟩ := h.printfLoop hsmall
    cases encType with
    | none =>
      use w₁
      rw [Write.toString, hw₁]
      rfl
    | some t =>
      obtain ⟨u, w₂, hw₂, -⟩ := @printfEncoded_ok _ _ _ _ t _ _ h hw₁
      exact ⟨w₂, hw₂⟩

/-- An output that is not too long takes at most six bytes for each of its own. -/
theorem Write.grown {out : Write} (h : Holds w v b) (hsmall : out.Small)
    (hout : out.toString w = .ok w') :
  ∃ n : Nat, Grown w out.demands n w' ∧ n ≤ 6 * out.length
  := by
  cases out with
  | puts encType s =>
    cases encType with
    | none =>
      use s.vLen, putsToString_grown h.lt hout
      change s.vLen ≤ 6 * s.vLen
      omega
    | some t =>
      have hle := EncType.length_flatMap_le (t := t) (s.bytes.take s.vLen)
      rw [length_take_vLen] at hle
      use ((s.bytes.take s.vLen).flatMap t.bytes).length, velyPuts_grown h.lt hout
      change _ ≤ 6 * s.vLen
      omega
  | printf encType text =>
    cases encType with
    | none =>
      obtain ⟨⟨w₁, tot⟩, hprint, rfl⟩ := exists_of_map hout
      obtain ⟨hgrown, rfl⟩ := printfLoop_grown h.lt hprint
      rw [vsnprintfLength_of_lt hsmall] at hgrown
      use text.length, hgrown
      change text.length ≤ 6 * text.length
      omega
    | some t =>
      rw [Write.toString] at hout
      obtain ⟨⟨w₁, tot⟩, hprint, hrest⟩ := exists_of_bind hout
      obtain ⟨u, w₂, hw₂, hholds, hgrown₂, hu⟩ := @printfEncoded_ok _ _ _ _ t _ _ h hprint
      rw [Write.toString, hprint, ok_bind] at hw₂
      rw [hrest] at hw₂
      cases hw₂
      obtain rfl := hu hsmall
      obtain ⟨hgrown, -⟩ := printfLoop_grown h.lt hprint
      have hlength : ({ w₁ with bufPos := w.bufPos } : WriteString).string.cells.length
          = ((printDemand u).grow w).string.cells.length := hgrown.length
      have hwlen : ({ w₁ with bufPos := w.bufPos } : WriteString).wlen
          = ((printDemand u).grow w).wlen := hgrown.wlen
      obtain ⟨hlength₂, hwlen₂⟩ := (copyDemand ((printed u).flatMap t.bytes).length).grow_congr
        hlength hwlen (by rw [Demand.grow_bufPos])
      use ((printed u).flatMap t.bytes).length
      constructor
      · exact ⟨hgrown₂.length.trans hlength₂, hgrown₂.wlen.trans hwlen₂, hgrown₂.bufPos⟩
      · have hle := EncType.length_flatMap_le (t := t) (printed u)
        have hprinted := length_printed u
        change _ ≤ 6 * u.length
        omega

/-! ### All outputs -/

/-- Each output of a string has its room exactly when none of them is too long, as long as the
numbers for the memory are of 64 bits. -/
theorem roomAlways_iff_of_holds {us : List Write} (h : Holds w v b) :
  RoomAlways us w ↔ (∀ out ∈ us, out.Small) ∧ SumsAlways us w
  := by
  induction us generalizing w v b with
  | nil => exact ⟨fun _ => ⟨by simp, trivial⟩, fun _ => trivial⟩
  | cons out us ih =>
    constructor
    · rintro ⟨hroom, hrest⟩
      obtain ⟨hsmall, hsum⟩ := (roomFor_iff h.lt).mp hroom
      constructor
      · intro out' hout'
        obtain rfl | hout' := List.mem_cons.mp hout'
        · exact hsmall
        · obtain ⟨w₁, hw₁⟩ := Write.ok_of_small h hsmall
          obtain ⟨v₁, b₁, h₁⟩ := Write.holds h hw₁
          exact ((ih h₁).mp (hrest w₁ hw₁)).1 out' hout'
      · use hsum
        intro w₁ hw₁
        obtain ⟨v₁, b₁, h₁⟩ := Write.holds h hw₁
        exact ((ih h₁).mp (hrest w₁ hw₁)).2
    · rintro ⟨hsmall, hsum, hrest⟩
      constructor
      · exact (roomFor_iff h.lt).mpr ⟨hsmall out List.mem_cons_self, hsum⟩
      · intro w₁ hw₁
        obtain ⟨v₁, b₁, h₁⟩ := Write.holds h hw₁
        apply (ih h₁).mpr
        exact ⟨fun out' hout' => hsmall out' (List.mem_cons_of_mem out hout'), hrest w₁ hw₁⟩

/-- What the memory is made larger by. -/
theorem wlen_grow (hwlen : w.wlen ≤ 16384) :
  (d.grow w).wlen ≤ 16384
  := by
  rw [Demand.grow]
  split
  · change adjMem w.wlen ≤ 16384
    rw [adjMem]
    split
    · omega
    · omega
  · exact hwlen

/-- The number for the memory is of 64 bits when it is for much less. -/
theorem Demand.sumFits_of_le (hwlen : w.wlen ≤ 16384)
    (hsum : (w.bufPos : Int) + 2 * d.computed + 16384 < 2 ^ 63) :
  d.SumFits w
  := by
  intro hgrows
  rw [Grows] at hgrows
  omega

theorem sumsFit_of_le {out : Write} (hsmall : out.Small) (hwlen : w.wlen ≤ 16384)
    (hsum : w.bufPos + 6 * out.length + 2 ^ 34 ≤ 2 ^ 63) :
  SumsFit out.demands w
  := by
  cases out with
  | puts encType s =>
    cases encType with
    | none =>
      refine ⟨Demand.sumFits_of_le hwlen ?_, trivial⟩
      change (w.bufPos : Int) + 2 * (s.vLen : Int) + 16384 < 2 ^ 63
      change w.bufPos + 6 * s.vLen + 2 ^ 34 ≤ 2 ^ 63 at hsum
      omega
    | some t =>
      refine ⟨Demand.sumFits_of_le hwlen ?_, trivial⟩
      rw [encodeDemand_computed, length_take_vLen, int32_of_lt hsmall]
      change maxEncBlowup s.vLen < 2 ^ 31 at hsmall
      omega
  | printf encType text =>
    have hprint : (printDemand text).SumFits w := by
      apply Demand.sumFits_of_le hwlen
      rw [printDemand_computed, vsnprintfLength_of_lt hsmall]
      change w.bufPos + 6 * text.length + 2 ^ 34 ≤ 2 ^ 63 at hsum
      omega
    cases encType with
    | none => exact ⟨hprint, trivial⟩
    | some t =>
      refine ⟨hprint, Demand.sumFits_of_le (wlen_grow hwlen) ?_, trivial⟩
      have hle := EncType.length_flatMap_le (t := t) (printed text)
      have hprinted := length_printed text
      change text.length < 2 ^ 31 at hsmall
      change w.bufPos + 6 * text.length + 2 ^ 34 ≤ 2 ^ 63 at hsum
      rw [Demand.grow_bufPos]
      change (w.bufPos : Int) + 2 * (((printed text).flatMap t.bytes).length : Int) + 16384 < 2 ^ 63
      omega

theorem wlen_growAll {ds : List Demand} (hwlen : w.wlen ≤ 16384) :
  (growAll ds w).wlen ≤ 16384
  := by
  induction ds generalizing w with
  | nil => exact hwlen
  | cons d ds ih => exact ih (wlen_grow hwlen)

/-- Outputs that are not too long, all of them together as well, need no more than 64 bits. -/
theorem sumsAlways_of_le {us : List Write} (h : Holds w v b) (hsmall : ∀ out ∈ us, out.Small)
    (hwlen : w.wlen ≤ 16384) (hsum : w.bufPos + 6 * totalLength us + 2 ^ 34 ≤ 2 ^ 63) :
  SumsAlways us w
  := by
  induction us generalizing w v b with
  | nil => trivial
  | cons out us ih =>
    have hout := hsmall out List.mem_cons_self
    have htotal : totalLength (out :: us) = out.length + totalLength us := rfl
    constructor
    · apply sumsFit_of_le hout hwlen
      omega
    · intro w₁ hw₁
      obtain ⟨v₁, b₁, h₁⟩ := Write.holds h hw₁
      obtain ⟨n, hgrown, hn⟩ := Write.grown h hout hw₁
      have hpos := hgrown.bufPos
      apply ih h₁ fun out' hout' => hsmall out' (List.mem_cons_of_mem out hout')
      · rw [hgrown.wlen]
        exact wlen_growAll hwlen
      · omega

end

/-- In a string that is begun each output has its room exactly when no output is too long for an
`int` and the numbers for the memory are of 64 bits, as they are when all outputs together are not
longer than that allows. -/
theorem roomAlways_iff (us : List Write) :
  (RoomAlways us WriteString.start
      ↔ (∀ out ∈ us, out.Small) ∧ SumsAlways us WriteString.start)
    ∧ ((∀ out ∈ us, out.Small) → 6 * totalLength us + 2 ^ 34 ≤ 2 ^ 63
      → SumsAlways us WriteString.start)
  := by
  constructor
  · exact roomAlways_iff_of_holds holds_start
  · intro hsmall hsum
    apply sumsAlways_of_le holds_start hsmall
    · decide
    · change 0 + 6 * totalLength us + 2 ^ 34 ≤ 2 ^ 63
      omega

/-- Three hundred and fifty-eight million bytes have no room when they are encoded. -/
theorem not_roomAlways_long :
  ∃ s : Source, s.bytes = List.replicate 357913942 '<'.toUInt8
    ∧ ¬ RoomAlways [.puts (some .web) s] WriteString.start
  := by
  obtain ⟨s, hs, hlength⟩ : ∃ s : Source, s.bytes = List.replicate 357913942 '<'.toUInt8
      ∧ s.length = some 357913942 := by
    refine ⟨⟨List.replicate 357913942 '<'.toUInt8, some 357913942, ?_⟩, rfl, rfl⟩
    intro n hn
    cases hn
    rw [List.length_replicate]
  have hvLen : s.vLen = 357913942 := by
    rw [Source.vLen, Source.len, hlength]
    rfl
  use s, hs
  rintro ⟨hroom, -⟩
  have hsmall := ((roomFor_iff holds_start.lt).mp hroom).1
  change maxEncBlowup s.vLen < 2 ^ 31 at hsmall
  rw [hvLen, maxEncBlowup] at hsmall
  omega

end Vely.Output
