import Vely.Encode.RoundTrip

/-!
# Web encoding

The room for an encoding in a `write-string` is computed as an `int`: a string for which the
number is too large is written over the end of the memory.
-/

namespace Vely

/-- The text of a page: bytes that need no entity, and entities. -/
inductive WebText : List UInt8 → Prop where
  | nil : WebText []
  | plain {c : UInt8} {text : List UInt8} (hc : c ≠ '&'.toUInt8 ∧ c ≠ '"'.toUInt8
      ∧ c ≠ '\''.toUInt8 ∧ c ≠ '<'.toUInt8 ∧ c ≠ '>'.toUInt8) (h : WebText text) :
      WebText (c :: text)
  | entity {e : List UInt8 × UInt8} {text : List UInt8} (he : e ∈ entities) (h : WebText text) :
      WebText ('&'.toUInt8 :: e.1 ++ text)

/-- The text for a string is that of a page. -/
theorem webText_flatMap {s : List UInt8} (hs : 0 ∉ s) :
  WebText (s.flatMap webByte)
  := by
  induction s with
  | nil => apply WebText.nil
  | cons c s ih =>
    simp only [List.mem_cons, not_or] at hs
    rw [List.flatMap_cons]
    obtain ⟨e, he, -, hbyte⟩ | ⟨hc, hbyte⟩ := webByte_cases (Ne.symm hs.1)
    · rw [hbyte]
      apply WebText.entity he (ih hs.2)
    · rw [hbyte]
      apply WebText.plain hc (ih hs.2)

/-- The length of the text: entities have four to six bytes. -/
def webLength (s : List UInt8) : Nat :=
  s.length + 4 * s.count '&'.toUInt8 + 5 * (s.count '"'.toUInt8 + s.count '\''.toUInt8)
    + 3 * (s.count '<'.toUInt8 + s.count '>'.toUInt8)

theorem length_flatMap_webByte {s : List UInt8} (hs : 0 ∉ s) :
  (s.flatMap webByte).length = webLength s
  := by
  induction s with
  | nil => rfl
  | cons c s ih =>
    simp only [List.mem_cons, not_or] at hs
    have hlen : (webByte c).length = webLength [c] := by
      have h : ∀ n < 256, n ≠ 0 →
          (webByte (UInt8.ofNat n)).length = webLength [UInt8.ofNat n] := by
        decide +kernel
      rw [← UInt8.ofNat_toNat (x := c)]
      apply h c.toNat c.toNat_lt
      intro hc
      apply hs.1
      exact UInt8.toNat_inj.mp hc.symm
    have hcons : webLength (c :: s) = webLength [c] + webLength s := by
      simp only [webLength, List.count_cons, List.count_nil, List.length_cons, List.length_nil]
      omega
    rw [List.flatMap_cons, List.length_append, ih hs.2, hlen, hcons]

/-- The room for a string of less than 342 MB is enough. -/
theorem webLength_le_int32 {s : CString} (h : s.bytes.length < 357913941) :
  (webLength s.bytes : Int) ≤ int32 (maxEncBlowup s.length)
  := by
  have hle := @EncType.length_flatMap_le .web s.bytes
  have hweb := length_flatMap_webByte s.nonzero
  rw [EncType.bytes, hweb] at hle
  have hint : int32 (maxEncBlowup s.length) = maxEncBlowup s.length := by
    apply int32_of_lt
    rw [CString.length, maxEncBlowup]
    omega
  rw [hint, CString.length, maxEncBlowup]
  omega

/-! ### Writing to a string -/

/-- `VV_WRSTR_ADD_MIN` -/
def wrstrAddMin : Nat := 128

/-- A string that is being written: there is room for a terminator. -/
structure WriteString.Open (w : WriteString) : Prop where
  room : w.bufPos < w.string.cells.length
  wlen : wrstrAddMin ≤ w.wlen

/-- A new string that is written (`vely_write_to_string`). -/
def WriteString.start : WriteString := ⟨Block.alloc wrstrAddMin, 0, wrstrAddMin⟩

theorem WriteString.start_open :
  WriteString.start.Open
  := by
  constructor
  · rw [WriteString.start, Block.alloc, List.length_replicate]
    decide
  · decide

section Puts

variable {t : EncType} {s : List UInt8} {w : WriteString}

/-- What fits is encoded, and the memory is as large as before. -/
theorem velyEncodeBase_of_lt {b : Block} {j : Nat}
    (h : j + (s.flatMap t.bytes).length < b.cells.length) :
  ∃ b', velyEncodeBase t s b j = .ok (b', (s.flatMap t.bytes).length)
    ∧ b'.cells.length = b.cells.length
  := by
  obtain ⟨l, r, hl, hcells⟩ : ∃ l r, l.length = j ∧ b.cells = l ++ r := by
    use b.cells.take j, b.cells.drop j
    constructor
    · rw [List.length_take]
      omega
    · rw [List.take_append_drop]
  have hr : (s.flatMap t.bytes).length < r.length := by
    rw [hcells, List.length_append] at h
    omega
  obtain ⟨x, r', hr'⟩ : ∃ x r', r.drop (s.flatMap t.bytes).length = x :: r' := by
    apply List.exists_cons_of_ne_nil
    rw [ne_eq, List.drop_eq_nil_iff]
    omega
  have hsplit : b.cells = l ++ r.take (s.flatMap t.bytes).length ++ x :: r' := by
    rw [hcells, List.append_assoc, ← hr', List.take_append_drop]
  have hlen : (r.take (s.flatMap t.bytes).length).length = (s.flatMap t.bytes).length := by
    rw [List.length_take]
    omega
  use ⟨l ++ (s.flatMap t.bytes).map some ++ some 0 :: r'⟩
  constructor
  · rw [velyEncodeBase, ← hl, encodeBaseLoop_cells hsplit hlen, ok_bind]
    simp only
    rw [Nat.add_sub_cancel_left]
    rfl
  · rw [hsplit]
    simp only [List.length_append, List.length_map, List.length_cons, hlen]

/-- What does not fit is written outside of the memory. -/
theorem velyEncodeBase_of_le {b : Block} {j : Nat} (hj : j ≤ b.cells.length)
    (h : b.cells.length ≤ j + (s.flatMap t.bytes).length) :
  velyEncodeBase t s b j = .error .fault
  := by
  rw [velyEncodeBase, encodeBaseLoop_fault hj h]
  rfl

/-- When there is room for a string, it is written. -/
theorem putsLoop_of_le (bound : Nat)
    (h : int32 (maxEncBlowup s.length) ≤ (w.string.cells.length : Int) - 1 - w.bufPos) :
  putsLoop t s (bound + 1) w
    = (fun x : Block × Nat => { w with string := x.1, bufPos := w.bufPos + x.2 })
        <$> velyEncodeBase t s w.string w.bufPos
  := by
  rw [putsLoop]
  simp only
  rw [if_neg (by omega)]
  rfl

/-- A string that fits is written, and there is room for a terminator behind it. -/
theorem putsLoop_ok (bound : Nat) (hw : wrstrAddMin ≤ w.wlen)
    (h : int32 (maxEncBlowup s.length) ≤ (w.string.cells.length : Int) - 1 - w.bufPos)
    (hroom : w.bufPos + (s.flatMap t.bytes).length < w.string.cells.length) :
  ∃ w', putsLoop t s (bound + 1) w = .ok w' ∧ w'.Open
  := by
  obtain ⟨string, hencode, hlen⟩ := velyEncodeBase_of_lt hroom
  use { w with string := string, bufPos := w.bufPos + (s.flatMap t.bytes).length }
  constructor
  · rw [putsLoop_of_le bound h, hencode]
    rfl
  · constructor
    · change _ < string.cells.length
      rwa [hlen]
    · exact hw

/-- A string is written when the number for its room is not too small. -/
theorem velyPuts_ok (hw : w.Open)
    (h : ((s.flatMap t.bytes).length : Int) ≤ int32 (maxEncBlowup s.length)) :
  ∃ w', velyPuts t s w = .ok w' ∧ w'.Open
  := by
  have hpos := hw.room
  have hwlen := hw.wlen
  by_cases hle : int32 (maxEncBlowup s.length) ≤ (w.string.cells.length : Int) - 1 - w.bufPos
  · apply putsLoop_ok 1 hwlen hle
    omega
  · -- The string is enlarged by the number, and then there is room.
    have hlen : (w.string.realloc
        ((w.string.cells.length : Int) + int32 (maxEncBlowup s.length) + w.wlen).toNat).cells.length
        = w.string.cells.length + (int32 (maxEncBlowup s.length)).toNat + w.wlen := by
      rw [Block.realloc, List.length_append, List.length_take, List.length_replicate]
      omega
    rw [velyPuts, putsLoop]
    simp only
    rw [if_pos (by omega)]
    apply putsLoop_ok 0
    · change wrstrAddMin ≤ adjMem w.wlen
      rw [adjMem]
      split <;> omega
    · change _ ≤ (Block.cells _).length - 1 - (w.bufPos : Int)
      rw [hlen]
      omega
    · change w.bufPos + _ < (Block.cells _).length
      rw [hlen]
      omega

/-- A string is written over the end of the memory when the number for its room is too small. -/
theorem velyPuts_fault (hs : 0 ∉ s)
    (h : int32 (maxEncBlowup s.length) < (s.flatMap t.bytes).length) :
  ∃ w : WriteString, w.Open ∧ velyPuts t s w = .error .fault
  := by
  have hpos : 0 < (s.flatMap t.bytes).length := by
    cases s with
    | nil =>
      rw [List.flatMap_nil] at h
      exact absurd h (by decide)
    | cons c s =>
      apply Nat.lt_of_lt_of_le (Nat.succ_pos s.length)
      apply EncType.le_length_flatMap hs
  obtain ⟨b, hlen⟩ : ∃ b : Block,
      b.cells.length = wrstrAddMin + (int32 (maxEncBlowup s.length)).toNat + 1 := by
    use Block.alloc (wrstrAddMin + (int32 (maxEncBlowup s.length)).toNat + 1)
    rw [Block.alloc, List.length_replicate]
  have hle : int32 (maxEncBlowup s.length) ≤ (b.cells.length : Int) - 1 - wrstrAddMin := by
    rw [hlen]
    omega
  use ⟨b, wrstrAddMin, wrstrAddMin⟩
  constructor
  · constructor
    · change wrstrAddMin < b.cells.length
      omega
    · exact Nat.le_refl _
  · rw [velyPuts, @putsLoop_of_le t s ⟨b, wrstrAddMin, wrstrAddMin⟩ 1 hle]
    simp only
    rw [velyEncodeBase_of_le (by omega) (by omega)]
    rfl

end Puts

/-- The string is encoded to the text of a page, decoding it gives the string back, and it can be
written to every string that is being written. -/
def WebRoundTrip (s : CString) : Prop :=
  (∃ res n text, velyEncode .web s.bytes = .ok (res, n) ∧ res.string 0 = .ok text
    ∧ text.length = n ∧ WebText text.bytes
    ∧ ∀ inlen : Int, inlen < 0 ∨ inlen = n →
      ∃ v m, velyDecode .web res inlen = .ok (v, m) ∧ v.string 0 = .ok s ∧ m = s.length)
  ∧ ∀ w : WriteString, w.Open → ∃ w', velyPuts .web s.bytes w = .ok w' ∧ w'.Open

/-- Web encoding and decoding are inverse, and safe, for the strings whose text is not longer than
the room that is computed for it. -/
theorem webRoundTrip_iff (s : CString) :
  WebRoundTrip s ↔ (webLength s.bytes : Int) ≤ int32 (maxEncBlowup s.length)
  := by
  obtain ⟨rest, hencode⟩ := velyEncode_eq .web s
  have hstring : (Block.mk ((EncType.web.text s).bytes.map some ++ some 0 :: rest)).string 0
      = .ok (EncType.web.text s) :=
    Block.string_of_cells (l := []) (r := rest) (EncType.web.text s) rfl rfl
  rw [← length_flatMap_webByte s.nonzero, CString.length]
  constructor
  · rintro ⟨-, hputs⟩
    by_contra h
    obtain ⟨w, hw, hfault⟩ := @velyPuts_fault .web s.bytes s.nonzero (not_le.mp h)
    obtain ⟨w', hok, -⟩ := hputs w hw
    rw [hfault] at hok
    cases hok
  · intro h
    constructor
    · refine ⟨_, _, _, hencode, hstring, rfl, webText_flatMap s.nonzero, ?_⟩
      intro inlen hinlen
      have hs : ∀ c ∈ s.bytes, EncType.web.Decodes c := by
        intro c hc
        apply decodes_web
        rintro rfl
        exact s.nonzero hc
      obtain ⟨v, hdecode, hv⟩ := velyDecode_text hs rfl hinlen
      exact ⟨v, s.length, hdecode, hv, rfl⟩
    · intro w hw
      exact @velyPuts_ok .web s.bytes w hw h

/-- Four hundred million signs cannot be written to a new string. -/
theorem not_webRoundTrip_signs :
  ∃ s : CString, s.bytes = List.replicate 400000000 '<'.toUInt8 ∧ ¬ WebRoundTrip s
    ∧ velyPuts .web s.bytes WriteString.start = .error .fault
  := by
  obtain ⟨s, hs⟩ : ∃ s : CString, s.bytes = List.replicate 400000000 '<'.toUInt8 := by
    refine ⟨⟨List.replicate 400000000 '<'.toUInt8, ?_⟩, rfl⟩
    intro h
    exact absurd (List.eq_of_mem_replicate h) (by decide)
  have hlen : s.bytes.length = 400000000 := by
    rw [hs, List.length_replicate]
  have hint : int32 (maxEncBlowup s.bytes.length) = -1894967295 := by
    rw [hlen]
    decide
  have htext : 400000000 ≤ (s.bytes.flatMap EncType.web.bytes).length := by
    rw [← hlen]
    apply EncType.le_length_flatMap s.nonzero
  have hstart : WriteString.start.string.cells.length = 128 := by
    rw [WriteString.start, Block.alloc, List.length_replicate]
    rfl
  have hfault : velyPuts .web s.bytes WriteString.start = .error .fault := by
    rw [velyPuts, @putsLoop_of_le .web s.bytes WriteString.start 1, velyEncodeBase_of_le]
    · rfl
    · exact Nat.zero_le _
    · rw [hstart]
      omega
    · rw [hint, hstart]
      decide
  refine ⟨s, hs, ?_, hfault⟩
  rintro ⟨-, hputs⟩
  obtain ⟨w', hok, -⟩ := hputs WriteString.start WriteString.start_open
  rw [hfault] at hok
  cases hok

end Vely
