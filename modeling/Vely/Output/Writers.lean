import Vely.Output.Nesting

/-!
# The writers

A string that is written holds what was output for it, and behind it at least one more byte: a
terminator, when the last writer left one.  Every writer adds the bytes of its output.
-/

namespace Vely.Output

/-! ### When an output is written as it is asked for -/

/-- The byte behind what is output: a terminator is left, except where part of a string is copied
with the byte that comes next in it. -/
def Write.terminates : Write → Bool
  | .puts none s => (s.bytes ++ [0])[s.vLen]? = some 0
  | _ => true

/-- An output that is what was asked for: the length 0 is given only for the empty string, a
formatted text is shorter than 2 GB, and one that is encoded has no null. -/
def Write.Exact : Write → Prop
  | .puts _ s => s.length = some 0 → s.cstr = []
  | .printf encType text => text.length < 2 ^ 31 ∧ (encType ≠ none → 0 ∉ text)

/-- An output for which there is room in a string: the `int` that is computed for the room of an
encoding is not too small. -/
def Write.Fits : Write → Prop
  | .puts (some t) s => ((s.text.flatMap t.bytes).length : Int) ≤ int32 (maxEncBlowup s.vLen)
  | _ => True

namespace Source

variable (s : Source)

theorem cstr_length_le :
  s.cstr.length ≤ s.bytes.length
  := (List.takeWhile_sublist _).length_le

theorem vLen_le :
  s.vLen ≤ s.bytes.length
  := by
  rw [vLen, len]
  split
  · cases h : s.length with
    | none => exact Nat.zero_le _
    | some n => apply s.length_le n h
  · apply s.cstr_length_le

/-- What is output of a string is what was asked for. -/
theorem take_vLen (h : s.length = some 0 → s.cstr = []) :
  s.bytes.take s.vLen = s.text
  := by
  have hcstr : s.bytes.take s.cstr.length = s.cstr := by
    conv_lhs => rw [← List.takeWhile_append_dropWhile (p := (· ≠ 0)) (l := s.bytes)]
    rw [cstr, List.take_left]
  rw [vLen, len, text]
  cases hlength : s.length with
  | none => rwa [Option.getD_none, if_neg (by simp)]
  | some n =>
    rw [Option.getD_some]
    by_cases hn : n = 0
    · subst hn
      rw [if_neg (by simp), hcstr, h hlength]
      rfl
    · rw [if_pos hn]

theorem block_cells :
  ∃ x r, s.block.cells = (s.bytes.take s.vLen).map some ++ some x :: r
    ∧ (s.bytes ++ [0])[s.vLen]? = some x
  := by
  have hle := s.vLen_le
  obtain ⟨mem, hmem⟩ : ∃ mem, mem = s.bytes ++ [0] := ⟨_, rfl⟩
  have hlt : s.vLen < mem.length := by
    rw [hmem, List.length_append, List.length_singleton]
    omega
  have htake : mem.take s.vLen = s.bytes.take s.vLen := by
    rw [hmem]
    apply List.take_append_of_le_length hle
  use mem[s.vLen], (mem.drop (s.vLen + 1)).map some
  rw [block, ← hmem]
  constructor
  · conv_lhs => rw [← List.take_append_drop s.vLen mem, List.drop_eq_getElem_cons hlt, htake]
    rw [List.map_append, List.map_cons]
  · apply List.getElem?_eq_getElem

end Source

/-! ### Writing to a string -/

/-- A string that is written: what was output for it, whether a terminator stands behind it, and
memory that is left. -/
def Holds (w : WriteString) (v : List UInt8) (terminated : Bool) : Prop :=
  ∃ x r, w.string.cells = v.map some ++ x :: r ∧ w.bufPos = v.length
    ∧ (terminated = true → x = some 0)

theorem holds_start :
  Holds WriteString.start [] false
  := by
  refine ⟨none, List.replicate 127 none, ?_, rfl, ?_⟩
  · rfl
  · simp

section Writers

variable {w : WriteString} {v : List UInt8} {b : Bool}

theorem Holds.lt (h : Holds w v b) :
  w.bufPos < w.string.cells.length
  := by
  obtain ⟨x, r, hcells, hpos, -⟩ := h
  rw [hcells, hpos]
  simp

/-- More memory. -/
theorem Holds.realloc (h : Holds w v b) {len wlen : Nat} (hlen : w.string.cells.length ≤ len) :
  Holds { w with string := w.string.realloc len, wlen := wlen } v b
  := by
  obtain ⟨x, r, hcells, hpos, hx⟩ := h
  refine ⟨x, r ++ List.replicate (len - w.string.cells.length) none, ?_, hpos, hx⟩
  rw [Block.realloc, List.take_of_length_le hlen, hcells]
  simp

/-- Bytes that fit are copied to the end, with the one behind them. -/
theorem Holds.memcpy (h : Holds w v b) {bytes : List UInt8} {src : Block} {x : UInt8}
    {r : List (Option UInt8)} (hsrc : src.cells = bytes.map some ++ some x :: r)
    (hroom : bytes.length < w.string.cells.length - w.bufPos) :
  ∃ string, memcpy w.string w.bufPos src (bytes.length + 1) = .ok string
    ∧ Holds { w with string := string, bufPos := w.bufPos + bytes.length } (v ++ bytes) (x = 0)
  := by
  have hlt := h.lt
  obtain ⟨x', r', hcells, hpos, -⟩ := h
  have hsrclen : bytes.length + 1 ≤ src.cells.length := by
    rw [hsrc]
    simp
  refine ⟨_, if_pos ⟨hsrclen, by omega⟩, some x, ?_, ?_, ?_, ?_⟩
  · exact w.string.cells.drop (w.bufPos + (bytes.length + 1))
  · have htake : w.string.cells.take w.bufPos = v.map some := by
      rw [hcells, hpos, List.take_left' (by simp)]
    have hcopy : src.cells.take (bytes.length + 1) = bytes.map some ++ [some x] := by
      rw [hsrc, List.take_append, List.take_of_length_le (by simp)]
      simp
    rw [htake, hcopy]
    simp
  · rw [hpos, List.length_append]
  · simp

/-- `vely_puts_to_string` adds what it is given. -/
theorem Holds.putsToString (h : Holds w v b) {bytes : List UInt8} {src : Block} {x : UInt8}
    {r : List (Option UInt8)} (hsrc : src.cells = bytes.map some ++ some x :: r) :
  ∃ w', putsToString src bytes.length w = .ok w' ∧ Holds w' (v ++ bytes) (x = 0)
  := by
  have hlt := h.lt
  rw [Output.putsToString, putsToStringLoop]
  split
  case isFalse hroom =>
    obtain ⟨string, hcopy, hholds⟩ := h.memcpy hsrc (by omega)
    rw [hcopy]
    exact ⟨_, rfl, hholds⟩
  case isTrue hroom =>
    -- The string is made larger, and the loop is passed once more.
    have hlarge := @Holds.realloc w v b h (w.string.cells.length + bytes.length + w.wlen)
      (adjMem w.wlen) (by omega)
    have hlen : (w.string.realloc (w.string.cells.length + bytes.length + w.wlen)).cells.length
        = w.string.cells.length + bytes.length + w.wlen := by
      rw [Block.realloc, List.length_append, List.length_take, List.length_replicate]
      omega
    obtain ⟨string, hcopy, hholds⟩ := hlarge.memcpy hsrc (by simp only [hlen]; omega)
    simp only
    rw [putsToStringLoop, if_neg (by simp only [hlen]; omega), hcopy]
    exact ⟨_, rfl, hholds⟩

/-- An encoding is written behind what was output. -/
theorem Holds.velyEncodeBase (h : Holds w v b) {t : EncType} {bytes : List UInt8}
    (hroom : (bytes.flatMap t.bytes).length < w.string.cells.length - w.bufPos) :
  ∃ string, velyEncodeBase t bytes w.string w.bufPos
      = .ok (string, (bytes.flatMap t.bytes).length)
    ∧ Holds { w with string := string, bufPos := w.bufPos + (bytes.flatMap t.bytes).length }
      (v ++ bytes.flatMap t.bytes) true
  := by
  obtain ⟨x, r, hcells, hpos, -⟩ := h
  have hr : (bytes.flatMap t.bytes).length < (x :: r).length := by
    rw [hcells, hpos] at hroom
    simp only [List.length_append, List.length_map] at hroom
    omega
  obtain ⟨x', r', hr'⟩ : ∃ x' r', (x :: r).drop (bytes.flatMap t.bytes).length = x' :: r' := by
    apply List.exists_cons_of_ne_nil
    rw [ne_eq, List.drop_eq_nil_iff]
    omega
  have hsplit : w.string.cells = v.map some ++ (x :: r).take (bytes.flatMap t.bytes).length
      ++ x' :: r' := by
    rw [hcells, List.append_assoc, ← hr', List.take_append_drop]
  have hloop := encodeBaseLoop_cells hsplit
    (by rw [List.length_take]; omega : _ = (bytes.flatMap t.bytes).length)
  rw [List.length_map] at hloop
  refine ⟨⟨v.map some ++ (bytes.flatMap t.bytes).map some ++ some 0 :: r'⟩, ?_, some 0, r', ?_⟩
  · rw [Vely.velyEncodeBase, hpos, hloop, ok_bind]
    simp only
    rw [Nat.add_sub_cancel_left]
    rfl
  · simp [hpos]

/-- `vely_puts` adds an encoding, when the number for its room is not too small. -/
theorem Holds.velyPuts (h : Holds w v b) {t : EncType} {bytes : List UInt8}
    (hfits : ((bytes.flatMap t.bytes).length : Int) ≤ int32 (maxEncBlowup bytes.length)) :
  ∃ w', velyPuts t bytes w = .ok w' ∧ Holds w' (v ++ bytes.flatMap t.bytes) true
  := by
  have hlt := h.lt
  by_cases hle : int32 (maxEncBlowup bytes.length) ≤ (w.string.cells.length : Int) - 1 - w.bufPos
  · obtain ⟨string, hencode, hholds⟩ := @Holds.velyEncodeBase w v b h t bytes (by omega)
    rw [Vely.velyPuts, putsLoop_of_le 1 hle, hencode]
    exact ⟨_, rfl, hholds⟩
  · obtain ⟨len, hlen⟩ : ∃ len, len
        = ((w.string.cells.length : Int) + int32 (maxEncBlowup bytes.length) + w.wlen).toNat :=
      ⟨_, rfl⟩
    have hcells : (w.string.realloc len).cells.length = len := by
      rw [Block.realloc, List.length_append, List.length_take, List.length_replicate]
      omega
    have hlarge := @Holds.realloc w v b h len (adjMem w.wlen) (by omega)
    obtain ⟨string, hencode, hholds⟩ := @Holds.velyEncodeBase _ v b hlarge t bytes
      (by simp only [hcells]; omega)
    rw [Vely.velyPuts, putsLoop]
    simp only
    rw [if_pos (by omega), ← hlen, putsLoop_of_le 0 (by simp only [hcells]; omega), hencode]
    exact ⟨_, rfl, hholds⟩

/-- A text is printed behind the first cells, as far as there is room. -/
theorem vsnprintf_cells {s : Block} {l rest : List (Option UInt8)} (h : s.cells = l ++ rest)
    (hrest : rest ≠ []) (text : List UInt8) :
  ∃ s' r, vsnprintf s l.length rest.length text = .ok s'
    ∧ s'.cells = l ++ (text.take (rest.length - 1)).map some ++ some 0 :: r
    ∧ s'.cells.length = s.cells.length
  := by
  have hpos := List.length_pos_iff.mpr hrest
  obtain ⟨bytes, hbytes⟩ : ∃ bytes, bytes = text.take (rest.length - 1) ++ [0] := ⟨_, rfl⟩
  have hlen : bytes.length ≤ rest.length := by
    rw [hbytes, List.length_append, List.length_take, List.length_singleton]
    omega
  have hsplit : s.cells = l ++ rest.take bytes.length ++ rest.drop bytes.length := by
    rw [h, List.append_assoc, List.take_append_drop]
  have htake : (rest.take bytes.length).length = bytes.length := by
    rw [List.length_take]
    omega
  have hput := Block.putAll_of_cells hsplit rfl htake
  refine ⟨⟨l ++ bytes.map some ++ rest.drop bytes.length⟩, rest.drop bytes.length, ?_, ?_, ?_⟩
  · rw [vsnprintf, if_neg (by omega), ← hbytes, hput]
  · rw [hbytes]
    simp
  · rw [h]
    simp only [List.length_append, List.length_map, List.length_drop]
    omega

/-- `vely_printf` adds a text that is shorter than 2 GB. -/
theorem Holds.printfLoop (h : Holds w v b) {text : List UInt8} (htext : text.length < 2 ^ 31) :
  ∃ w', printfLoop text 2 w = .ok (w', text.length) ∧ Holds w' (v ++ text) true
  := by
  have hend := h.lt
  obtain ⟨x, r, hcells, hpos, -⟩ := h
  have hlength : w.string.cells.length - w.bufPos = (x :: r).length := by
    rw [hcells, hpos, List.length_append, List.length_map, Nat.add_sub_cancel_left]
  obtain ⟨s₁, r₁, hprint, hs₁, hlen₁⟩ := vsnprintf_cells hcells (List.cons_ne_nil x r) text
  rw [List.length_map, ← hpos, ← hlength] at hprint
  rw [← hlength] at hs₁
  rw [Output.printfLoop, hprint, ok_bind, vsnprintfLength, if_pos htext]
  simp only
  by_cases hroom : text.length < w.string.cells.length - w.bufPos
  · rw [if_neg (by omega), if_neg (by omega)]
    refine ⟨_, rfl, some 0, r₁, ?_, ?_, ?_⟩
    · simp only
      rw [hs₁, List.take_of_length_le (by omega), List.map_append]
    · simp only [List.length_append]
      omega
    · simp
  · -- The string is made larger, and the text is printed once more.
    obtain ⟨len, hlen⟩ : ∃ len, len = s₁.cells.length + (text.length : Int).toNat + w.wlen :=
      ⟨_, rfl⟩
    obtain ⟨rest, hrest⟩ : ∃ rest, rest = (text.take (w.string.cells.length - w.bufPos - 1)).map some
        ++ some 0 :: r₁ ++ List.replicate (len - s₁.cells.length) none := ⟨_, rfl⟩
    have hrealloc : (s₁.realloc len).cells = v.map some ++ rest := by
      rw [Block.realloc, List.take_of_length_le (by omega), hrest, ← List.append_assoc,
        ← List.append_assoc, ← hs₁]
    have hlength₂ : (s₁.realloc len).cells.length - w.bufPos = rest.length := by
      rw [hrealloc, hpos, List.length_append, List.length_map, Nat.add_sub_cancel_left]
    have hreallocLen : (s₁.realloc len).cells.length = len := by
      rw [Block.realloc, List.length_append, List.length_take, List.length_replicate]
      omega
    have hlt : text.length < rest.length := by
      rw [← hlength₂, hreallocLen]
      omega
    obtain ⟨s₂, r₂, hprint₂, hs₂, -⟩ := vsnprintf_cells hrealloc
      (List.length_pos_iff.mp (by omega)) text
    rw [List.length_map, ← hpos] at hprint₂
    rw [if_pos (by omega), ← hlen, Output.printfLoop]
    simp only [hlength₂, hprint₂, ok_bind, vsnprintfLength, if_pos htext]
    rw [if_neg (by omega), if_neg (by omega)]
    refine ⟨_, rfl, some 0, r₂, ?_, ?_, ?_⟩
    · simp only
      rw [hs₂, List.take_of_length_le (by omega), List.map_append]
    · simp only [List.length_append]
      omega
    · simp

/-- Every output adds its bytes to a string. -/
theorem Holds.write (h : Holds w v b) {out : Write} (hexact : out.Exact) (hfits : out.Fits) :
  ∃ w', out.toString w = .ok w' ∧ Holds w' (v ++ out.text) out.terminates
  := by
  cases out with
  | puts encType s =>
    have htake := s.take_vLen hexact
    have hvLen : s.text.length = s.vLen := by
      rw [← htake, List.length_take, Nat.min_eq_left s.vLen_le]
    cases encType with
    | none =>
      obtain ⟨x, r, hblock, hx⟩ := s.block_cells
      rw [htake] at hblock
      have hputs := h.putsToString hblock
      rw [hvLen] at hputs
      rw [Write.toString, Write.text, encoded, Write.terminates, hx]
      simpa using hputs
    | some t =>
      rw [Write.Fits, ← hvLen] at hfits
      rw [Write.toString, htake]
      apply h.velyPuts hfits
  | printf encType text =>
    obtain ⟨htext, hzero⟩ := hexact
    obtain ⟨w₁, hprint, hholds⟩ := h.printfLoop htext
    cases encType with
    | none =>
      rw [Write.toString, hprint]
      exact ⟨w₁, rfl, hholds⟩
    | some t =>
      obtain ⟨x, r, hcells, hpos, hx⟩ := hholds
      obtain rfl := hx rfl
      rw [List.map_append, List.append_assoc] at hcells
      rw [List.length_append] at hpos
      have hback : ((w₁.bufPos : Int) - text.length).toNat = v.length := by
        rw [hpos]
        omega
      have hstring := Block.string_of_cells ⟨text, hzero (by simp)⟩ hcells
        (List.length_map some).symm
      obtain ⟨rest, hencode⟩ := velyEncode_cells t text
      have hv : Holds { w₁ with bufPos := v.length } v false := by
        cases text with
        | nil => exact ⟨some 0, r, hcells, rfl, by simp⟩
        | cons c text => exact ⟨some c, _, hcells, rfl, by simp⟩
      obtain ⟨w', hputs, hholds⟩ := @Holds.putsToString _ v false hv
        (text.flatMap t.bytes) ⟨_⟩ 0 rest rfl
      rw [Write.toString, hprint, ok_bind]
      simp only [hback, hstring, ok_bind, hencode]
      exact ⟨w', hputs, hholds⟩

end Writers

/-! ### Writing to the response -/

/-- A text that is shorter than 2 GB is printed whole. -/
theorem ebufLoop_ok {text : List UInt8} (htext : text.length < 2 ^ 31) :
  ∃ ebuf r, ebufLoop text 2 (Block.alloc 256) = .ok (ebuf, text.length)
    ∧ ebuf.cells = text.map some ++ some 0 :: r
  := by
  have hprint : ∀ b : Block, b.cells ≠ [] → ∃ b' r, vsnprintf b 0 b.cells.length text = .ok b'
      ∧ b'.cells = (text.take (b.cells.length - 1)).map some ++ some 0 :: r
      ∧ b'.cells.length = b.cells.length := by
    intro b hb
    exact vsnprintf_cells (l := []) rfl hb text
  have halloc : (Block.alloc 256).cells.length = 256 := List.length_replicate
  obtain ⟨s₁, r₁, hprint₁, hs₁, hlen₁⟩ := hprint (Block.alloc 256)
    (List.length_pos_iff.mp (by omega))
  rw [halloc] at hs₁ hlen₁ hprint₁
  rw [ebufLoop, halloc, hprint₁, ok_bind, vsnprintfLength, if_pos htext]
  simp only
  by_cases hroom : text.length < 256
  · refine ⟨s₁, r₁, ?_, ?_⟩
    · rw [if_neg (by omega)]
      rfl
    · rw [hs₁, List.take_of_length_le (by omega)]
  · obtain ⟨b, hb⟩ : ∃ b, b = s₁.realloc (256 + (text.length : Int).toNat) := ⟨_, rfl⟩
    have hlen : b.cells.length = 256 + text.length := by
      rw [hb, Block.realloc, List.length_append, List.length_take, List.length_replicate]
      omega
    obtain ⟨s₂, r₂, hprint₂, hs₂, -⟩ := hprint b (List.length_pos_iff.mp (by omega))
    rw [hlen] at hs₂ hprint₂
    refine ⟨s₂, r₂, ?_, ?_⟩
    · rw [if_pos (by omega), ← hb, ebufLoop, hlen, hprint₂, ok_bind, vsnprintfLength,
        if_pos htext]
      simp only
      rw [if_neg (by omega)]
      rfl
    · rw [hs₂, List.take_of_length_le (by omega)]

/-- Every output adds its bytes to the response body. -/
theorem Write.toWeb_eq {out : Write} (hexact : out.Exact) :
  out.toWeb = .ok out.text
  := by
  cases out with
  | puts encType s =>
    have htake := s.take_vLen hexact
    have hvLen : s.text.length = s.vLen := by
      rw [← htake, List.length_take, Nat.min_eq_left s.vLen_le]
    cases encType with
    | none =>
      obtain ⟨x, r, hblock, -⟩ := s.block_cells
      rw [htake] at hblock
      rw [toWeb, ← hvLen, firstBytes_of_cells hblock]
      rfl
    | some t =>
      obtain ⟨rest, hencode⟩ := velyEncode_cells t s.text
      rw [toWeb, htake, hencode, ok_bind]
      apply firstBytes_of_cells rfl
  | printf encType text =>
    obtain ⟨htext, hzero⟩ := hexact
    obtain ⟨ebuf, r, hprint, hcells⟩ := ebufLoop_ok htext
    cases encType with
    | none =>
      rw [toWeb, hprint, ok_bind]
      simp only
      rw [if_neg (by omega), Int.toNat_natCast, firstBytes_of_cells hcells]
      rfl
    | some t =>
      have hstring := Block.string_of_cells (l := []) ⟨text, hzero (by simp)⟩ hcells rfl
      obtain ⟨rest, hencode⟩ := velyEncode_cells t text
      rw [List.length_nil] at hstring
      rw [toWeb, hprint, ok_bind]
      simp only [hstring, ok_bind, hencode]
      apply firstBytes_of_cells rfl

end Vely.Output
