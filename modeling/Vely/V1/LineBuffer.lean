import Vely.Lib.Decimal
import Vely.Output.Model

/-!
# The line of generated code (`oprintf`)

Generated code is put together in memory that grows, and that is given away when it is
flushed.  A text is formatted into what is left of the memory, but is refused only when it is
as long as all of it: between the two it is cut, and counted whole.  What a flush writes is left
out here.
-/

namespace Vely

namespace V1

open Output (vsnprintf vsnprintfLength)

/-! ## The buffer -/

/-- `VV_MAX_CODE_LINE` -/
def maxCodeLine : Nat := 4096

/-- The pointer `oline`: NULL, to memory, or to memory that was freed. -/
inductive OLine where
  | null
  | memory (b : Vely.Block)
  | freed

/-- The static variables of `oprintf`. -/
structure LineState where
  oline : OLine
  olineLen : Int
  olineSize : Int
  olinePrevLine : Bool
  oldLnum : Int
  inLnum : Nat

/-- The variables before the first call. -/
def LineState.first : LineState := ⟨.null, 0, 0, false, -1, 0⟩

/-- The variables of the preprocessor that a line number is written with; `noVelyLine` and
`plainDiag` say whether the flags are set. -/
structure LineInfo where
  noVelyLine : Bool
  plainDiag : Bool
  lnum : Nat
  srcFileName : CString

/-- `VV_EMIT_LINE` -/
def LineInfo.emitLine (i : LineInfo) : Bool := !i.noVelyLine && decide (i.lnum > 1)

/-- The text of a line number. -/
def LineInfo.directive (i : LineInfo) (inLnum : Nat) : List UInt8 :=
  ascii "#line " ++ decimal (if i.plainDiag then i.lnum else i.lnum * 10000 + inLnum) ++ ascii " \""
    ++ i.srcFileName.bytes ++ ascii "\"\n"

/-- A call: with a text, as it is formatted, or to flush. -/
inductive LineCall where
  | text (i : LineInfo) (text : CString)
  | flush

/-- How a call may end the program: with an error that is reported, or with an access that is not
defined. -/
inductive LineStop where
  | reported
  | fault
  deriving DecidableEq

/-- Some access that is not defined is that of the call. -/
def liftFault {α : Type} : Except Stop α → Except LineStop α
  | .ok a => .ok a
  | .error _ => .error .fault

/-- A formatted text is written at `offset`, to `room` bytes; a number below zero is a very large
one of type `size_t`. -/
def snprintfAt (b : Vely.Block) (offset room : Int) (text : List UInt8) : Except Stop Vely.Block :=
  if offset < 0 then .error .fault
  else if room < 0 then b.putAll offset.toNat (text ++ [0])
  else vsnprintf b offset.toNat room.toNat text

/-- A text is formatted at the end of the line: the memory, and the length the text is taken
for. -/
def formatPart (s : LineState) (text : List UInt8) : Except LineStop (Vely.Block × Int) :=
  match s.oline with
  | .memory b => do
    let b ← liftFault (snprintfAt b s.olineLen (s.olineSize - s.olineLen - 1) text)
    let totWritten := vsnprintfLength text
    if totWritten ≥ s.olineSize - 1 then .error .reported else return (b, totWritten)
  | _ => .error .fault

/-- Memory for the line, when there was none yet. -/
def LineState.withMemory (s : LineState) : LineState :=
  match s.oline with
  | .null =>
    let size := s.olineSize + 2 * maxCodeLine + 1
    { s with oline := .memory (Vely.Block.alloc size.toNat), olineSize := size }
  | _ => s

/-- The number of the code generated for the line so far. -/
def LineState.nextInLnum (s : LineState) (i : LineInfo) : Nat :=
  if s.oldLnum ≠ i.lnum then 0 else s.inLnum + 1

/-- Whether a line number is written before the text. -/
def LineState.needsLine (s : LineState) (i : LineInfo) : Bool := s.olinePrevLine && i.emitLine

/-- The line number, when it is needed. -/
def putLine (s : LineState) (i : LineInfo) : Except LineStop LineState :=
  if s.needsLine i then do
    let s := { s with oldLnum := i.lnum, inLnum := s.nextInLnum i }
    let (b, totWritten) ← formatPart s (i.directive s.inLnum)
    return { s with
      oline := .memory b, olineLen := s.olineLen + totWritten, olinePrevLine := false }
  else .ok s

/-- `strchr (oline + oline_len, '\n') != NULL` -/
def hasNewline (b : Vely.Block) (olineLen : Int) : Except LineStop Bool :=
  if olineLen < 0 then .error .fault
  else do
    let text ← liftFault (b.string olineLen.toNat)
    return text.bytes.contains 10

/-- The text, after which the length is made to count it. -/
def putText (s : LineState) (text : CString) : Except LineStop LineState := do
  let (b, totWritten) ← formatPart s text.bytes
  let newline ← hasNewline b s.olineLen
  return { s with
    oline := .memory b
    olineLen := s.olineLen + totWritten
    olinePrevLine := s.olinePrevLine || newline }

/-- More memory, when little is left. -/
def LineState.expand (s : LineState) : LineState :=
  match s.oline with
  | .memory b =>
    if s.olineSize - s.olineLen ≤ maxCodeLine then
      let size := s.olineSize + 2 * maxCodeLine + 1
      { s with oline := .memory (b.realloc size.toNat), olineSize := size }
    else s
  | _ => s

/-- `oprintf` -/
def oprintf (s : LineState) : LineCall → Except LineStop LineState
  | .text i text => do
    let s ← putLine s.withMemory i
    let s ← putText s text
    return s.expand
  | .flush =>
    match s.oline with
    | .null => .ok s
    | .memory _ =>
      .ok { s with oline := .freed, olineLen := 0, olineSize := 0, olinePrevLine := false }
    | .freed => .error .fault

/-! ## What is in the buffer -/

/-- The texts that a call formats. -/
def LineState.parts (s : LineState) (i : LineInfo) (text : CString) : List (List UInt8) :=
  if s.needsLine i then [i.directive (s.nextInLnum i), text.bytes] else [text.bytes]

/-- The texts formatted since the last flush, after a call. -/
def LineState.formatted (s : LineState) (g : List UInt8) : LineCall → List UInt8
  | .text i text => g ++ (s.parts i text).flatten
  | .flush => []

/-- The line is the texts `g` formatted since the last flush, and its length is recorded and
smaller than the memory; without memory there is no text. -/
def Accumulated (s : LineState) (g : List UInt8) : Prop :=
  match s.oline with
  | .memory b =>
    (∃ line, b.string 0 = .ok line ∧ line.bytes = g ∧ s.olineLen = line.length)
      ∧ s.olineSize = b.cells.length
      ∧ s.olineLen < s.olineSize
  | _ => g = [] ∧ s.olineLen = 0

/-- In every state of a run the line is right, unless an error is reported. -/
def LineGood (s : LineState) (g : List UInt8) : List LineCall → Prop
  | [] => Accumulated s g
  | c :: calls =>
    Accumulated s g
      ∧ match oprintf s c with
        | .ok s' => LineGood s' (s.formatted g c) calls
        | .error e => e = .reported

/-! ## The condition -/

/-- Texts that are written one after the other from `len` on: each of them fits, with a byte to
spare, or is refused, as long as the memory. -/
def PartsFit (size : Int) : Int → List (List UInt8) → Prop
  | _, [] => True
  | len, p :: ps =>
    p.length < 2 ^ 31
      ∧ (size - 1 ≤ p.length ∨ len + p.length + 1 < size ∧ PartsFit size (len + p.length) ps)

/-- The condition on a call, in the state before it. -/
def LineCall.Fits (s : LineState) : LineCall → Prop
  | .text i t =>
    s.oline ≠ .freed ∧ PartsFit s.withMemory.olineSize s.olineLen (s.parts i t)
  | .flush => s.oline ≠ .freed

/-- All calls of a run meet the condition. -/
def RunFits (s : LineState) : List LineCall → Prop
  | [] => True
  | c :: calls => c.Fits s ∧ ∀ s', oprintf s c = .ok s' → RunFits s' calls

/-! ## One text -/

/-- The memory starts with a text, and has room for its terminator. -/
structure LineHolds (s : LineState) (g : List UInt8) : Prop where
  mem : ∃ b r, s.oline = .memory b ∧ b.cells = g.map some ++ r ∧ s.olineSize = b.cells.length
  len : s.olineLen = g.length
  room : (g.length : Int) < s.olineSize
  zero : 0 ∉ g

/-- A text is refused, or it is written after what is there. -/
theorem formatPart_of_holds {s : LineState} {g p : List UInt8} (h : LineHolds s g)
    (hlt : p.length < 2 ^ 31)
    (hfit : s.olineSize - 1 ≤ p.length ∨ s.olineLen + p.length + 1 < s.olineSize) :
  (formatPart s p = .error .reported ∧ s.olineSize - 1 ≤ p.length)
    ∨ ∃ b r, formatPart s p = .ok (b, p.length)
      ∧ b.cells = (g ++ p).map some ++ some 0 :: r
      ∧ s.olineSize = b.cells.length
      ∧ ((g ++ p).length : Int) + 1 < s.olineSize
  := by
  obtain ⟨b, r, holine, hcells, hsize⟩ := h.mem
  have hlen := h.len
  have hroom := h.room
  have hcount : b.cells.length = g.length + r.length := by simp [hcells]
  have htot : vsnprintfLength p = p.length := if_pos hlt
  have hwrite : snprintfAt b s.olineLen (s.olineSize - s.olineLen - 1) p
      = vsnprintf b g.length (r.length - 1) p := by
    rw [snprintfAt, if_neg (by omega), if_neg (by omega), hlen]
    congr
    omega
  by_cases hrefuse : s.olineSize - 1 ≤ p.length
  · left
    constructor
    · have hok : ∃ b', vsnprintf b g.length (r.length - 1) p = .ok b' := by
        rw [vsnprintf]
        split
        · exact ⟨b, rfl⟩
        · obtain ⟨b', hb', -⟩ := @Vely.Block.putAll_of_le b g.length (p.take (r.length - 1 - 1) ++ [0]) (by
            simp only [List.length_append, List.length_take, List.length_singleton]
            omega)
          exact ⟨b', hb'⟩
      obtain ⟨b', hb'⟩ := hok
      simp only [formatPart, holine, hwrite, hb', liftFault, ok_bind, htot]
      rw [if_pos hrefuse]
    · exact hrefuse
  · right
    have hfits : s.olineLen + p.length + 1 < s.olineSize := by
      rcases hfit with h | h
      · exact absurd h hrefuse
      · exact h
    have hput := @Vely.Block.putAll_of_cells b (g.map some) (r.take (p.length + 1))
      (r.drop (p.length + 1)) (p ++ [0]) g.length
      (by rw [hcells, List.append_assoc, List.take_append_drop]) (by simp)
      (by
        simp only [List.length_take, List.length_append, List.length_singleton]
        omega)
    have hall : vsnprintf b g.length (r.length - 1) p
        = .ok ⟨g.map some ++ (p ++ [0]).map some ++ r.drop (p.length + 1)⟩ := by
      rw [vsnprintf, if_neg (by omega), List.take_of_length_le (by omega), hput]
    refine ⟨⟨g.map some ++ (p ++ [0]).map some ++ r.drop (p.length + 1)⟩,
      r.drop (p.length + 1), ?_, ?_, ?_, ?_⟩
    · simp only [formatPart, holine, hwrite, hall, liftFault, ok_bind, htot]
      rw [if_neg hrefuse]
      rfl
    · simp
    · simp only [List.length_append, List.length_map, List.length_drop, List.length_singleton]
      omega
    · simp only [List.length_append]
      omega

theorem zero_notMem_directive (i : LineInfo) (inLnum : Nat) :
  0 ∉ i.directive inLnum
  := by
  have hdigits (n : Nat) : 0 ∉ decimal n := by
    intro h
    exact absurd (isdigit_of_mem_decimal h) (by decide)
  have hzero := i.srcFileName.nonzero
  have htext : 0 ∉ ascii "#line " ∧ 0 ∉ ascii " \"" ∧ 0 ∉ ascii "\"\n" := by
    refine ⟨by decide, by decide, by decide⟩
  rw [LineInfo.directive]
  simp only [List.mem_append, not_or]
  exact ⟨⟨⟨⟨htext.1, hdigits _⟩, htext.2.1⟩, hzero⟩, htext.2.2⟩

/-! ## One call -/

/-- What is in the memory after a text: it has a terminator. -/
structure LineEnded (s : LineState) (g : List UInt8) : Prop where
  mem : ∃ b r, s.oline = .memory b ∧ b.cells = g.map some ++ some 0 :: r
    ∧ s.olineSize = b.cells.length
  len : s.olineLen = g.length
  zero : 0 ∉ g

theorem LineEnded.holds {s : LineState} {g : List UInt8} (h : LineEnded s g) :
  LineHolds s g
  := by
  obtain ⟨b, r, holine, hcells, hsize⟩ := h.mem
  refine ⟨⟨b, some 0 :: r, holine, hcells, hsize⟩, h.len, ?_, h.zero⟩
  rw [hsize, hcells]
  simp

theorem LineEnded.accumulated {s : LineState} {g : List UInt8} (h : LineEnded s g) :
  Accumulated s g
  := by
  obtain ⟨b, r, holine, hcells, hsize⟩ := h.mem
  have hroom := h.holds.room
  simp only [Accumulated, holine]
  refine ⟨⟨⟨g, h.zero⟩, ?_, rfl, h.len⟩, hsize, ?_⟩
  · exact @Vely.Block.string_of_cells b [] r ⟨g, h.zero⟩ 0 hcells rfl
  · rw [h.len]
    exact hroom

/-- The line number is refused, or it is written after what is there. -/
theorem putLine_of_holds {s : LineState} {g : List UInt8} {i : LineInfo} (h : LineHolds s g)
    (hneeds : s.needsLine i = true) (hlt : (i.directive (s.nextInLnum i)).length < 2 ^ 31)
    (hfit : s.olineSize - 1 ≤ (i.directive (s.nextInLnum i)).length
      ∨ s.olineLen + (i.directive (s.nextInLnum i)).length + 1 < s.olineSize) :
  (putLine s i = .error .reported ∧ s.olineSize - 1 ≤ (i.directive (s.nextInLnum i)).length)
    ∨ ∃ s', putLine s i = .ok s' ∧ LineHolds s' (g ++ i.directive (s.nextInLnum i))
      ∧ s'.olineSize = s.olineSize
      ∧ s'.olineLen = s.olineLen + (i.directive (s.nextInLnum i)).length
      ∧ s.olineLen + (i.directive (s.nextInLnum i)).length + 1 < s.olineSize
  := by
  have hsame : LineHolds { s with oldLnum := i.lnum, inLnum := s.nextInLnum i } g :=
    ⟨h.mem, h.len, h.room, h.zero⟩
  rw [putLine, if_pos hneeds]
  rcases formatPart_of_holds hsame hlt hfit with ⟨herr, hbig⟩ | ⟨b, r, hok, hcells, hsize, hroom⟩
  · left
    simp only [herr, error_bind]
    exact ⟨trivial, hbig⟩
  · right
    simp only [hok, ok_bind]
    have hlen := h.len
    have hroom' : (g.length : Int) + (i.directive (s.nextInLnum i)).length + 1 < s.olineSize := by
      simpa using hroom
    refine ⟨_, rfl, ⟨⟨b, some 0 :: r, rfl, hcells, hsize⟩, ?_, ?_, ?_⟩, rfl, rfl, by omega⟩
    · simp [hlen]
    · simp only [List.length_append]
      omega
    · simp [h.zero, zero_notMem_directive]

/-- The text is refused, or it is written after what is there. -/
theorem putText_of_holds {s : LineState} {g : List UInt8} {t : CString} (h : LineHolds s g)
    (hlt : t.bytes.length < 2 ^ 31)
    (hfit : s.olineSize - 1 ≤ t.bytes.length ∨ s.olineLen + t.bytes.length + 1 < s.olineSize) :
  (putText s t = .error .reported ∧ s.olineSize - 1 ≤ t.bytes.length)
    ∨ ∃ s', putText s t = .ok s' ∧ LineEnded s' (g ++ t.bytes) ∧ s'.olineSize = s.olineSize
  := by
  rw [putText]
  rcases formatPart_of_holds h hlt hfit with ⟨herr, hbig⟩ | ⟨b, r, hok, hcells, hsize, -⟩
  · left
    simp only [herr, error_bind]
    exact ⟨trivial, hbig⟩
  · right
    have hstring : b.string s.olineLen.toNat = .ok t := by
      apply @Vely.Block.string_of_cells b (g.map some) r t
      · rw [hcells, List.map_append, List.append_assoc]
      · rw [h.len, Int.toNat_natCast, List.length_map]
    have hnewline : hasNewline b s.olineLen = .ok (t.bytes.contains 10) := by
      have hlen := h.len
      rw [hasNewline, if_neg (by omega), hstring]
      rfl
    simp only [hok, ok_bind, hnewline]
    refine ⟨_, rfl, ⟨⟨b, r, rfl, hcells, hsize⟩, ?_, ?_⟩, rfl⟩
    · simp [h.len]
    · simp [h.zero, t.nonzero]

/-- More memory holds the same text. -/
theorem LineEnded.expand {s : LineState} {g : List UInt8} (h : LineEnded s g) :
  LineEnded s.expand g
  := by
  obtain ⟨b, r, holine, hcells, hsize⟩ := h.mem
  simp only [LineState.expand, holine]
  split
  · obtain ⟨k, hk⟩ : ∃ k : Nat, (s.olineSize + 2 * maxCodeLine + 1).toNat = b.cells.length + k :=
      ⟨2 * maxCodeLine + 1, by omega⟩
    refine ⟨⟨_, r ++ List.replicate k none, rfl, ?_, ?_⟩, h.len, h.zero⟩
    · rw [hk, Vely.Block.realloc, List.take_of_length_le (by omega), hcells]
      simp
    · simp only [hk, Vely.Block.realloc, List.length_append, List.length_take, List.length_replicate]
      omega
  · exact ⟨⟨b, r, holine, hcells, hsize⟩, h.len, h.zero⟩

/-- What holds between calls. -/
def LineInv (s : LineState) (g : List UInt8) : Prop :=
  match s.oline with
  | .null => g = [] ∧ s.olineLen = 0 ∧ s.olineSize = 0
  | .memory _ => LineEnded s g
  | .freed => g = [] ∧ s.olineLen = 0

theorem LineInv.accumulated {s : LineState} {g : List UInt8} (h : LineInv s g) :
  Accumulated s g
  := by
  cases holine : s.oline with
  | null =>
    simp only [LineInv, holine] at h
    simp only [Accumulated, holine]
    exact ⟨h.1, h.2.1⟩
  | memory b =>
    simp only [LineInv, holine] at h
    exact h.accumulated
  | freed =>
    simp only [LineInv, holine] at h
    simp only [Accumulated, holine]
    exact h

theorem LineInv.withMemory {s : LineState} {g : List UInt8} (h : LineInv s g)
    (hfreed : s.oline ≠ .freed) :
  LineHolds s.withMemory g ∧ s.withMemory.olineLen = s.olineLen
  := by
  cases holine : s.oline with
  | null =>
    simp only [LineInv, holine] at h
    obtain ⟨rfl, hlen, hsize⟩ := h
    obtain ⟨n, hn, hpos⟩ : ∃ n : Nat, s.olineSize + 2 * maxCodeLine + 1 = n ∧ 0 < n :=
      ⟨2 * maxCodeLine + 1, by omega, by omega⟩
    simp only [LineState.withMemory, holine, hn, Int.toNat_natCast]
    refine ⟨⟨⟨_, List.replicate n none, rfl, rfl, ?_⟩, hlen, ?_, ?_⟩, trivial⟩
    · simp [Vely.Block.alloc]
    · simpa using hpos
    · simp
  | memory b =>
    simp only [LineInv, holine] at h
    simp only [LineState.withMemory, holine]
    exact ⟨h.holds, trivial⟩
  | freed => exact absurd holine hfreed

/-- A call that meets the condition reports an error, or keeps the line right. -/
theorem oprintf_of_fits {s : LineState} {g : List UInt8} {c : LineCall} (h : LineInv s g)
    (hfits : c.Fits s) :
  oprintf s c = .error .reported ∨ ∃ s', oprintf s c = .ok s' ∧ LineInv s' (s.formatted g c)
  := by
  cases c with
  | flush =>
    right
    cases holine : s.oline with
    | null =>
      simp only [LineInv, holine] at h
      exact ⟨s, by simp [oprintf, holine], by simp [LineInv, holine, LineState.formatted, h]⟩
    | memory b =>
      refine ⟨_, by simp only [oprintf, holine]; rfl, ?_⟩
      exact ⟨rfl, rfl⟩
    | freed => exact absurd holine hfits
  | text i t =>
    obtain ⟨hfreed, hparts⟩ := hfits
    obtain ⟨hholds, hlen⟩ := h.withMemory hfreed
    have hneeds : s.withMemory.needsLine i = s.needsLine i := by
      cases holine : s.oline <;> simp [LineState.needsLine, LineState.withMemory, holine]
    have hnext : s.withMemory.nextInLnum i = s.nextInLnum i := by
      cases holine : s.oline <;> simp [LineState.nextInLnum, LineState.withMemory, holine]
    have hended {s' : LineState} {g' : List UInt8} (h' : LineEnded s' g') : LineInv s'.expand g' := by
      have hexpand := h'.expand
      obtain ⟨b, r, holine, -⟩ := hexpand.mem
      simp only [LineInv, holine]
      exact hexpand
    rw [oprintf]
    by_cases hline : s.needsLine i = true
    · -- A line number is written first.
      have hformatted : s.formatted g (.text i t)
          = g ++ i.directive (s.nextInLnum i) ++ t.bytes := by
        simp [LineState.formatted, LineState.parts, hline]
      rw [LineState.parts, if_pos hline, PartsFit, ← hnext, ← hlen] at hparts
      obtain ⟨hlt, hfit⟩ := hparts
      rcases putLine_of_holds hholds (hneeds.trans hline) hlt (hfit.imp_right And.left) with
        ⟨herr, -⟩ | ⟨s₁, hs₁, hholds₁, hsize₁, hlen₁, hroom⟩
      · left
        rw [herr, error_bind]
      · rw [hs₁, ok_bind]
        rcases hfit with hbig | ⟨-, hlt₂, hfit₂⟩
        · -- It would have been refused.
          have hzero := hholds.len
          omega
        · have hfit₂' : s₁.olineSize - 1 ≤ t.bytes.length
              ∨ s₁.olineLen + t.bytes.length + 1 < s₁.olineSize := by
            rw [hsize₁, hlen₁]
            exact hfit₂.imp_right And.left
          rcases putText_of_holds hholds₁ hlt₂ hfit₂' with ⟨herr, -⟩ | ⟨s₂, hs₂, hended₂, -⟩
          · left
            rw [herr, error_bind]
          · right
            rw [hs₂, hformatted, ← hnext]
            exact ⟨s₂.expand, rfl, hended hended₂⟩
    · have hformatted : s.formatted g (.text i t) = g ++ t.bytes := by
        simp [LineState.formatted, LineState.parts, hline]
      rw [LineState.parts, if_neg hline, PartsFit, ← hlen] at hparts
      obtain ⟨hlt, hfit⟩ := hparts
      have hput : putLine s.withMemory i = .ok s.withMemory := by
        rw [putLine, hneeds, if_neg hline]
      rw [hput, ok_bind]
      rcases putText_of_holds hholds hlt (hfit.imp_right And.left) with
        ⟨herr, -⟩ | ⟨s₂, hs₂, hended₂, -⟩
      · left
        rw [herr, error_bind]
      · right
        rw [hs₂, hformatted]
        exact ⟨s₂.expand, rfl, hended hended₂⟩

/-! ## Runs -/

/-- In a run of calls that all meet the condition, every call reports an error or leaves a line
that is exactly the texts formatted since the last flush, its length recorded and smaller than
the memory. -/
theorem lineGood_of_runFits {s : LineState} {g : List UInt8} {calls : List LineCall}
    (h : LineInv s g) (hfits : RunFits s calls) :
  LineGood s g calls
  := by
  induction calls generalizing s g with
  | nil => exact h.accumulated
  | cons c calls ih =>
    refine ⟨h.accumulated, ?_⟩
    rcases oprintf_of_fits h hfits.1 with herr | ⟨s', hs', hinv⟩
    · rw [herr]
    · rw [hs']
      exact ih hinv (hfits.2 s' hs')

theorem lineInv_first :
  LineInv .first []
  := ⟨rfl, rfl, rfl⟩

theorem oprintf_good {calls : List LineCall} (h : RunFits .first calls) :
  LineGood .first [] calls
  := lineGood_of_runFits lineInv_first h

theorem oprintf_good_text :
  LineGood .first [] [.text ⟨false, false, 2, CString.empty⟩ ⟨[120], by decide⟩]
  := by
  apply oprintf_good
  refine ⟨⟨by simp [LineState.first], ?_⟩, fun _ _ => trivial⟩
  have hsize : LineState.first.withMemory.olineSize = 8193 := rfl
  have hlen : LineState.first.olineLen = 0 := rfl
  rw [hsize, hlen]
  exact ⟨by simp, .inr ⟨by simp, trivial⟩⟩

/-- A text that is too long for what is left, but not for all of the memory, is cut, and counted
whole. -/
theorem putText_cut {s : LineState} {g : List UInt8} {t : CString} {n : Nat} (h : LineHolds s g)
    (hleft : s.olineSize - s.olineLen - 1 = n + 1) (hlong : n + 1 ≤ t.bytes.length)
    (hshort : (t.bytes.length : Int) < s.olineSize - 1) (hlt : t.bytes.length < 2 ^ 31) :
  ∃ b r newline, putText s t = .ok { s with
      oline := .memory b
      olineLen := s.olineLen + t.bytes.length
      olinePrevLine := newline }
    ∧ b.cells = (g ++ t.bytes.take n).map some ++ some 0 :: r
    ∧ s.olineSize = b.cells.length
  := by
  obtain ⟨b, r, holine, hcells, hsize⟩ := h.mem
  have hlen := h.len
  have hcount : b.cells.length = g.length + r.length := by simp [hcells]
  have htot : vsnprintfLength t.bytes = t.bytes.length := if_pos hlt
  have hput := @Vely.Block.putAll_of_cells b (g.map some) (r.take (n + 1)) (r.drop (n + 1))
    (t.bytes.take n ++ [0]) g.length
    (by rw [hcells, List.append_assoc, List.take_append_drop]) (by simp)
    (by
      simp only [List.length_take, List.length_append, List.length_singleton]
      omega)
  have hwrite : snprintfAt b s.olineLen (s.olineSize - s.olineLen - 1) t.bytes
      = .ok ⟨(g ++ t.bytes.take n).map some ++ some 0 :: r.drop (n + 1)⟩ := by
    rw [snprintfAt, if_neg (by omega), if_neg (by omega), hleft, hlen, vsnprintf, if_neg (by omega)]
    have hroom : (((n : Int) + 1).toNat - 1) = n := by omega
    rw [hroom, Int.toNat_natCast, hput]
    simp
  have hzero : 0 ∉ t.bytes.take n := fun hmem => t.nonzero (List.mem_of_mem_take hmem)
  have hstring : (⟨(g ++ t.bytes.take n).map some ++ some 0 :: r.drop (n + 1)⟩ : Vely.Block).string
      s.olineLen.toNat = .ok ⟨t.bytes.take n, hzero⟩ := by
    apply @Vely.Block.string_of_cells _ (g.map some) (r.drop (n + 1)) ⟨t.bytes.take n, hzero⟩
    · rw [List.map_append, List.append_assoc]
    · rw [hlen, Int.toNat_natCast, List.length_map]
  refine ⟨_, r.drop (n + 1), s.olinePrevLine || (t.bytes.take n).contains 10, ?_, rfl, ?_⟩
  · have hformat : formatPart s t.bytes
        = .ok (⟨(g ++ t.bytes.take n).map some ++ some 0 :: r.drop (n + 1)⟩, t.bytes.length) := by
      simp only [formatPart, holine, hwrite, liftFault, ok_bind, htot]
      rw [if_neg (by omega)]
      rfl
    have hnewline : hasNewline ⟨(g ++ t.bytes.take n).map some ++ some 0 :: r.drop (n + 1)⟩
        s.olineLen = .ok ((t.bytes.take n).contains 10) := by
      rw [hasNewline, if_neg (by omega), hstring]
      rfl
    rw [putText, hformat, ok_bind]
    simp only [hnewline, ok_bind]
    rfl
  · simp only [List.length_append, List.length_map, List.length_cons, List.length_drop,
      List.length_take]
    omega

/-- Code for which no line numbers are written. -/
def plainInfo : LineInfo := ⟨true, false, 1, CString.empty⟩

/-- After a text of one byte there is room for one byte less than 8191, and no error is reported
for a text as long as that. -/
theorem not_lineGood_of_length {t u : CString} (ht : t.bytes.length = 1)
    (hu : u.bytes.length = 8191) :
  ¬ LineGood .first [] [.text plainInfo t, .text plainInfo u]
  := by
  have hplain (s : LineState) : putLine s plainInfo = .ok s := by
    rw [putLine, LineState.needsLine, LineInfo.emitLine, if_neg (by simp [plainInfo])]
  have hparts (s : LineState) (t : CString) : s.parts plainInfo t = [t.bytes] := by
    rw [LineState.parts, LineState.needsLine, LineInfo.emitLine, if_neg (by simp [plainInfo])]
  obtain ⟨hholds, -⟩ := lineInv_first.withMemory (by simp [LineState.first])
  have hmax : maxCodeLine = 4096 := rfl
  have hsize : LineState.first.withMemory.olineSize = 8193 := rfl
  have hlen : LineState.first.withMemory.olineLen = 0 := rfl
  rintro ⟨-, hgood⟩
  rcases putText_of_holds (t := t) hholds (by omega) (.inr (by omega)) with
    ⟨-, hbig⟩ | ⟨s₁, hs₁, hended, hsize₁⟩
  · omega
  · have hlen₁ := hended.len
    rw [List.nil_append] at hlen₁
    obtain ⟨b, r, holine, -⟩ := hended.mem
    have hsame : s₁.expand = s₁ := by
      simp only [LineState.expand, holine]
      rw [if_neg (by omega)]
    have hmemory : s₁.withMemory = s₁ := by
      simp only [LineState.withMemory, holine]
    rw [oprintf, hplain, ok_bind, hs₁, ok_bind, hsame] at hgood
    obtain ⟨-, hgood⟩ := hgood
    obtain ⟨b', r', newline, hcut, hcells, hcount⟩ := putText_cut (t := u) (n := 8190) hended.holds
      (by push_cast; omega) (by omega) (by omega) (by omega)
    rw [oprintf, hmemory, hplain, ok_bind, hcut, ok_bind] at hgood
    -- The memory holds one byte less than what was formatted, also after it has grown.
    have hzero : 0 ∉ t.bytes ++ u.bytes.take 8190 := by
      intro hmem
      rcases List.mem_append.mp hmem with h | h
      · exact t.nonzero h
      · exact u.nonzero (List.mem_of_mem_take h)
    have hstring (k : Nat) (hk : b'.cells.length ≤ k) :
        (b'.realloc k).string 0 = .ok ⟨t.bytes ++ u.bytes.take 8190, hzero⟩ := by
      apply @Vely.Block.string_of_cells _ [] (r' ++ List.replicate (k - b'.cells.length) none)
        ⟨t.bytes ++ u.bytes.take 8190, hzero⟩ 0 _ rfl
      rw [Vely.Block.realloc, List.take_of_length_le hk, hcells]
      simp
    simp only [LineState.expand] at hgood
    rw [if_pos (by omega)] at hgood
    obtain ⟨⟨line, hline, hbytes, -⟩, -⟩ := hgood
    rw [hstring _ (by omega)] at hline
    rw [← Except.ok.inj hline] at hbytes
    have hlengths := congrArg List.length hbytes
    simp only [LineState.formatted, hparts, List.length_append, List.length_take, hu,
      List.flatten_cons, List.flatten_nil, List.append_nil, List.nil_append] at hlengths
    omega

/-- A text of one byte, and then one of 8191. -/
def cutCalls : List LineCall :=
  [.text plainInfo ⟨[120], by decide⟩, .text plainInfo ⟨List.replicate 8191 121, by
    intro h
    exact absurd (List.eq_of_mem_replicate h) (by decide)⟩]

/-- The second text is cut. -/
theorem not_lineGood_cut :
  ¬ LineGood .first [] cutCalls
  := not_lineGood_of_length rfl List.length_replicate

end V1

end Vely
