import Vely.Encode.Model
import Vely.Input.RoundTrip

/-!
# Decoding what was encoded

The decoder reads in front of what it writes: between the two is what was read already.  Each step
reads what was written for one byte, and writes the byte.
-/

namespace Vely

/-! ### Memory that is decoded -/

/-- Memory that is being decoded: what is decoded, `n` cells that were read, and what is left. -/
def Decoding (v : Block) (out : List UInt8) (n : Nat) (rem : List UInt8) : Prop :=
  ∃ junk rest, junk.length = n ∧ v.cells = out.map some ++ junk ++ (rem.map some ++ some 0 :: rest)

section Decoding

variable {v : Block} {out rem : List UInt8} {n : Nat}

/-- The next byte. -/
theorem Decoding.get {c : UInt8} (h : Decoding v out n (c :: rem)) :
  v.get (out.length + n) = .ok c
  := by
  obtain ⟨junk, rest, rfl, hcells⟩ := h
  apply Block.get_of_cells (l := out.map some ++ junk) (r := rem.map some ++ some 0 :: rest)
  · rw [hcells]
    rfl
  · simp

/-- A byte behind the next one. -/
theorem Decoding.get_at {p : List UInt8} {c : UInt8} (h : Decoding v out n (p ++ c :: rem)) :
  v.get (out.length + n + p.length) = .ok c
  := by
  obtain ⟨junk, rest, rfl, hcells⟩ := h
  apply Block.get_of_cells (l := out.map some ++ junk ++ p.map some)
    (r := rem.map some ++ some 0 :: rest)
  · rw [hcells]
    simp
  · simp [Nat.add_assoc]

/-- A byte is written for what was read. -/
theorem Decoding.put {p : List UInt8} (h : Decoding v out n (p ++ rem)) (hp : p ≠ []) (c : UInt8) :
  ∃ v', v.put out.length c = .ok v' ∧ Decoding v' (out ++ [c]) (n + p.length - 1) rem
  := by
  obtain ⟨junk, rest, rfl, hcells⟩ := h
  obtain ⟨x, xs, hx⟩ : ∃ x xs, junk ++ p.map some = x :: xs := by
    apply List.exists_cons_of_ne_nil
    simp [hp]
  have hsplit : v.cells = out.map some ++ x :: (xs ++ (rem.map some ++ some 0 :: rest)) := by
    rw [hcells, List.map_append, List.append_assoc, ← List.cons_append, ← hx]
    simp
  refine ⟨_, Block.put_of_cells c hsplit (by simp), xs, rest, ?_, ?_⟩
  · have hlen := congrArg List.length hx
    simp only [List.length_append, List.length_map, List.length_cons] at hlen
    omega
  · simp

/-- The text at the next byte is compared. -/
theorem strncmp_of_cells {l : List (Option UInt8)} {rest : List (Option UInt8)} {text : List UInt8}
    {p : Nat} (h : v.cells = l ++ (rem.map some ++ some 0 :: rest)) (hp : p = l.length)
    (hz : 0 ∉ text) :
  strncmp v p text = .ok (text.isPrefixOf rem)
  := by
  induction text generalizing l rem p with
  | nil => rfl
  | cons c text ih =>
    simp only [List.mem_cons, not_or] at hz
    cases rem with
    | nil =>
      rw [strncmp, Block.get_of_cells (l := l) (r := rest) (by rw [h]; rfl) hp, ok_bind,
        if_neg hz.1]
      rfl
    | cons d rem =>
      rw [strncmp, Block.get_of_cells (l := l) (r := rem.map some ++ some 0 :: rest)
        (by rw [h]; rfl) hp, ok_bind]
      by_cases hdc : d = c
      · rw [if_pos hdc, @ih rem (l ++ [some d]) (p + 1) (by rw [h]; simp) (by simp [hp]) hz.2, hdc]
        simp
      · rw [if_neg hdc, List.isPrefixOf, beq_eq_false_iff_ne.mpr (Ne.symm hdc)]
        rfl

/-- The entity behind the next byte is found. -/
theorem Decoding.entityAt {a : UInt8} (h : Decoding v out n (a :: rem))
    {es : List (List UInt8 × UInt8)} (hes : ∀ e ∈ es, 0 ∉ e.1) :
  entityAt v (out.length + n + 1) es = .ok (es.find? (fun e => e.1.isPrefixOf rem))
  := by
  obtain ⟨junk, rest, rfl, hcells⟩ := h
  induction es with
  | nil => rfl
  | cons e es ih =>
    rw [Vely.entityAt, @strncmp_of_cells v rem (out.map some ++ junk ++ [some a]) rest e.1 _
      (by rw [hcells]; simp) (by simp [Nat.add_assoc]) (hes e (by simp)), ok_bind, List.find?_cons]
    cases e.1.isPrefixOf rem with
    | true => rfl
    | false => exact ih (fun e he => hes e (by simp [he]))

/-- At the end the terminator is written, and the memory holds what was decoded. -/
theorem Decoding.finish (h : Decoding v out n []) {s : CString} (hs : s.bytes = out) :
  ∃ v', v.put out.length 0 = .ok v' ∧ v'.string 0 = .ok s
  := by
  obtain ⟨junk, rest, rfl, hcells⟩ := h
  obtain ⟨x, xs, hx⟩ : ∃ x xs, junk ++ some 0 :: rest = x :: xs := by
    apply List.exists_cons_of_ne_nil
    simp
  have hsplit : v.cells = out.map some ++ x :: xs := by
    rw [hcells, ← hx]
    simp
  refine ⟨_, Block.put_of_cells 0 hsplit (by simp), ?_⟩
  apply Block.string_of_cells (l := []) (r := xs) s _ rfl
  rw [hs]
  rfl

end Decoding

/-! ### Entities -/

/-- An entity is decoded to its byte. -/
theorem find_entity (rem : List UInt8) {e : List UInt8 × UInt8} (he : e ∈ entities) :
  entities.find? (fun x => x.1.isPrefixOf (e.1 ++ rem)) = some e
  := by
  simp only [entities, List.mem_cons, List.not_mem_nil, or_false] at he
  rcases he with rfl | rfl | rfl | rfl | rfl <;> rfl

/-- What web encoding writes for a byte: an entity, or the byte itself. -/
theorem webByte_cases {c : UInt8} (hc : c ≠ 0) :
  (∃ e ∈ entities, e.2 = c ∧ webByte c = '&'.toUInt8 :: e.1)
    ∨ (c ≠ '&'.toUInt8 ∧ c ≠ '"'.toUInt8 ∧ c ≠ '\''.toUInt8 ∧ c ≠ '<'.toUInt8 ∧ c ≠ '>'.toUInt8)
      ∧ webByte c = [c]
  := by
  by_cases hamp : c = '&'.toUInt8
  · subst hamp
    exact Or.inl ⟨(ascii "amp;", '&'.toUInt8), by simp [entities], rfl, rfl⟩
  by_cases hquot : c = '"'.toUInt8
  · subst hquot
    exact Or.inl ⟨(ascii "quot;", '"'.toUInt8), by simp [entities], rfl, rfl⟩
  by_cases hapos : c = '\''.toUInt8
  · subst hapos
    exact Or.inl ⟨(ascii "apos;", '\''.toUInt8), by simp [entities], rfl, rfl⟩
  by_cases hlt : c = '<'.toUInt8
  · subst hlt
    exact Or.inl ⟨(ascii "lt;", '<'.toUInt8), by simp [entities], rfl, rfl⟩
  by_cases hgt : c = '>'.toUInt8
  · subst hgt
    exact Or.inl ⟨(ascii "gt;", '>'.toUInt8), by simp [entities], rfl, rfl⟩
  · right
    constructor
    · exact ⟨hamp, hquot, hapos, hlt, hgt⟩
    · rw [webByte, if_neg hamp, if_neg hquot, if_neg hapos, if_neg hlt, if_neg hgt, if_neg hc]

/-! ### One step of the decoder -/

/-- The decoder turns what was written for a byte into the byte. -/
def EncType.Decodes (t : EncType) (c : UInt8) : Prop :=
  ∀ {v : Block} {out rem : List UInt8} {n : Nat} (inlen bound : Nat),
    Decoding v out n (t.bytes c ++ rem) → out.length + n < inlen →
    ∃ v', t.decodeLoop inlen (bound + 1) v (out.length + n) out.length
        = t.decodeLoop inlen bound v' (out.length + n + (t.bytes c).length) (out.length + 1)
      ∧ Decoding v' (out ++ [c]) (n + (t.bytes c).length - 1) rem

/-- Entities are decoded. -/
theorem decodes_web {c : UInt8} (hc : c ≠ 0) :
  EncType.web.Decodes c
  := by
  intro v out rem n inlen bound h hlt
  obtain ⟨e, he, rfl, hbyte⟩ | ⟨⟨hamp, -⟩, hbyte⟩ := webByte_cases hc
  · change Decoding v out n (webByte e.2 ++ rem) at h
    rw [hbyte] at h
    obtain ⟨v', hput, hv'⟩ := h.put (by simp) e.2
    have hes : ∀ e ∈ entities, 0 ∉ e.1 := by decide
    rw [List.cons_append] at h
    refine ⟨v', ?_, ?_⟩
    · rw [EncType.decodeLoop, decodeWebLoop, if_pos hlt, h.get, ok_bind, if_pos rfl,
        h.entityAt hes, find_entity rem he, ok_bind]
      simp only
      rw [hput, ok_bind, EncType.bytes, hbyte, List.length_cons]
      congr 1
      omega
    · rwa [EncType.bytes, hbyte]
  · change Decoding v out n (webByte c ++ rem) at h
    rw [hbyte] at h
    obtain ⟨v', hput, hv'⟩ := h.put (by simp) c
    rw [List.singleton_append] at h
    refine ⟨v', ?_, ?_⟩
    · rw [EncType.decodeLoop, decodeWebLoop, if_pos hlt, h.get, ok_bind, if_neg hamp, hput, ok_bind,
        EncType.bytes, hbyte]
      rfl
    · rwa [EncType.bytes, hbyte]

/-- What URL encoding writes for a byte of ASCII: an escape, or the byte itself. -/
theorem encodeByte_cases {c : UInt8} (hc : c < 128) :
  (∃ a b h l, encodeByte c = ['%'.toUInt8, a, b] ∧ urlDig a = some h ∧ urlDig b = some l
      ∧ byte (h * 16 + l) = c)
    ∨ isUnreserved c = true ∧ encodeByte c = [c]
  := by
  by_cases h : isUnreserved c = true
  · right
    constructor
    · exact h
    · rw [encodeByte, if_pos]
      exact h
  · left
    have hdig : ∀ n < 128,
        urlDig (encodeDigit ((signed (UInt8.ofNat n)).tdiv 16)) = some ((n / 16 : Nat) : Int)
          ∧ urlDig (encodeDigit ((signed (UInt8.ofNat n)).tmod 16)) = some ((n % 16 : Nat) : Int)
          ∧ byte ((n / 16 : Nat) * 16 + (n % 16 : Nat)) = UInt8.ofNat n := by
      decide +kernel
    obtain ⟨hh, hl, hb⟩ := hdig c.toNat (by simpa using UInt8.lt_iff_toNat_lt.mp hc)
    rw [UInt8.ofNat_toNat] at hh hl hb
    refine ⟨_, _, _, _, ?_, hh, hl, hb⟩
    rw [encodeByte, if_neg]
    exact h

/-- Escapes are decoded. -/
theorem decodes_url {c : UInt8} (hc : c < 128) :
  EncType.url.Decodes c
  := by
  intro v out rem n inlen bound h hlt
  obtain ⟨a, b, x, y, hbyte, ha, hb, hxy⟩ | ⟨hunres, hbyte⟩ := encodeByte_cases hc
  · change Decoding v out n (encodeByte c ++ rem) at h
    rw [hbyte] at h
    obtain ⟨v', hput, hv'⟩ := h.put (by simp) c
    have hgeta : v.get (out.length + n + 1) = .ok a :=
      @Decoding.get_at _ _ (b :: rem) _ ['%'.toUInt8] _ h
    have hgetb : v.get (out.length + n + 2) = .ok b :=
      @Decoding.get_at _ _ rem _ ['%'.toUInt8, a] _ h
    refine ⟨v', ?_, ?_⟩
    · have hget : v.get (out.length + n) = .ok '%'.toUInt8 := h.get
      rw [EncType.decodeLoop, decodeUrlLoop, if_pos hlt, hget, ok_bind, if_pos rfl, hgeta, ok_bind,
        ha]
      simp only
      rw [hgetb, ok_bind, hb]
      simp only
      rw [hxy, hput, ok_bind, EncType.bytes, hbyte]
      rfl
    · rwa [EncType.bytes, hbyte]
  · change Decoding v out n (encodeByte c ++ rem) at h
    rw [hbyte] at h
    obtain ⟨v', hput, hv'⟩ := h.put (by simp) c
    rw [List.singleton_append] at h
    obtain ⟨hpercent, -, -, hplus⟩ := ne_of_isUnreserved hunres
    refine ⟨v', ?_, ?_⟩
    · rw [EncType.decodeLoop, decodeUrlLoop, if_pos hlt, h.get, ok_bind, if_neg hpercent,
        plusToSpace_of_ne hplus, hput, ok_bind, EncType.bytes, hbyte]
      rfl
    · rwa [EncType.bytes, hbyte]

/-! ### The whole text -/

section

variable {t : EncType}

/-- Something is written for each byte that is decoded again. -/
theorem EncType.bytes_ne_nil {c : UInt8} (hc : c ≠ 0) :
  t.bytes c ≠ []
  := by
  cases t with
  | web =>
    obtain ⟨e, -, -, hbyte⟩ | ⟨-, hbyte⟩ := webByte_cases hc
    · simp [EncType.bytes, hbyte]
    · simp [EncType.bytes, hbyte]
  | url =>
    rw [EncType.bytes, encodeByte]
    split <;> simp

/-- What was written for a string is decoded to the string. -/
theorem decodeLoop_flatMap {v : Block} {out s : List UInt8} {n inlen bound : Nat}
    (hs : ∀ c ∈ s, t.Decodes c) (hnz : 0 ∉ s) (h : Decoding v out n (s.flatMap t.bytes))
    (hinlen : inlen = out.length + n + (s.flatMap t.bytes).length) (hbound : s.length ≤ bound) :
  ∃ v' m, t.decodeLoop inlen bound v (out.length + n) out.length = .ok (v', (out ++ s).length)
    ∧ Decoding v' (out ++ s) m []
  := by
  induction s generalizing v out n bound with
  | nil =>
    refine ⟨v, n, ?_, by simpa using h⟩
    have hend : ¬ out.length + n < inlen := by simp [hinlen]
    cases t <;> cases bound <;> simp [EncType.decodeLoop, decodeWebLoop, decodeUrlLoop, hend]
  | cons c s ih =>
    obtain _ | bound := bound
    · simp at hbound
    simp only [List.mem_cons, not_or] at hnz
    have hne : 0 < (t.bytes c).length :=
      List.length_pos_iff.mpr (EncType.bytes_ne_nil (Ne.symm hnz.1))
    rw [List.flatMap_cons] at h hinlen
    rw [List.length_append] at hinlen
    obtain ⟨v', hstep, hv'⟩ := hs c (by simp) inlen bound h (by omega)
    have hlength : (out ++ [c]).length = out.length + 1 := by simp
    obtain ⟨v'', m, hrun, hv''⟩ := ih (fun d hd => hs d (by simp [hd])) hnz.2 hv'
      (by rw [hlength]; omega) (by simpa using hbound)
    refine ⟨v'', m, ?_, by simpa using hv''⟩
    have hpos : (out ++ [c]).length + (n + (t.bytes c).length - 1)
        = out.length + n + (t.bytes c).length := by
      rw [hlength]
      omega
    rw [hstep, ← hpos, ← hlength, hrun]
    simp

/-- What is written for a byte is not empty, and has no terminator. -/
theorem EncType.zero_notMem_bytes {c : UInt8} (hc : c ≠ 0) :
  0 ∉ t.bytes c
  := by
  cases t with
  | web =>
    obtain ⟨e, he, -, hbyte⟩ | ⟨-, hbyte⟩ := webByte_cases hc
    · have hes : ∀ e ∈ entities, 0 ∉ '&'.toUInt8 :: e.1 := by decide
      rw [EncType.bytes, hbyte]
      apply hes e he
    · rw [EncType.bytes, hbyte]
      simpa using hc.symm
  | url =>
    have h : ∀ n < 256, 0 ∈ encodeByte (UInt8.ofNat n) → n = 0 := by decide +kernel
    intro hmem
    rw [EncType.bytes, ← UInt8.ofNat_toNat (x := c)] at hmem
    apply hc
    apply UInt8.toNat_inj.mp
    apply h c.toNat c.toNat_lt hmem

/-- At most six bytes are written for a byte. -/
theorem EncType.length_bytes_le (c : UInt8) :
  (t.bytes c).length ≤ 6
  := by
  cases t with
  | web =>
    have h : ∀ n < 256, (webByte (UInt8.ofNat n)).length ≤ 6 := by decide +kernel
    rw [← UInt8.ofNat_toNat (x := c)]
    apply h c.toNat c.toNat_lt
  | url =>
    rw [EncType.bytes, encodeByte]
    split <;> simp

theorem EncType.length_flatMap_le (s : List UInt8) :
  (s.flatMap t.bytes).length ≤ s.length * 6
  := by
  induction s with
  | nil => simp
  | cons c s ih =>
    have h := EncType.length_bytes_le (t := t) c
    rw [List.flatMap_cons, List.length_append, List.length_cons]
    omega

theorem EncType.le_length_flatMap {s : List UInt8} (hs : 0 ∉ s) :
  s.length ≤ (s.flatMap t.bytes).length
  := by
  induction s with
  | nil => simp
  | cons c s ih =>
    simp only [List.mem_cons, not_or] at hs
    have hpos : 0 < (t.bytes c).length :=
      List.length_pos_iff.mpr (EncType.bytes_ne_nil (Ne.symm hs.1))
    have h := ih hs.2
    rw [List.flatMap_cons, List.length_append, List.length_cons]
    omega

/-- What is written for a string. -/
def EncType.text (t : EncType) (s : CString) : CString where
  bytes := s.bytes.flatMap t.bytes
  nonzero h := by
    obtain ⟨c, hc, hmem⟩ := List.mem_flatMap.mp h
    apply EncType.zero_notMem_bytes _ hmem
    rintro rfl
    apply s.nonzero hc

/-- The memory that is allocated has room for what is written. -/
theorem velyEncode_cells (t : EncType) (v : List UInt8) :
  ∃ rest, velyEncode t v
    = .ok (⟨(v.flatMap t.bytes).map some ++ some 0 :: rest⟩, (v.flatMap t.bytes).length)
  := by
  have hle := EncType.length_flatMap_le (t := t) v
  have hcells : (Block.alloc (maxEncBlowup v.length)).cells
      = [] ++ List.replicate (v.flatMap t.bytes).length none
        ++ none :: List.replicate (v.length * 6 - (v.flatMap t.bytes).length) none := by
    have hsize : maxEncBlowup v.length = (v.flatMap t.bytes).length
        + (v.length * 6 - (v.flatMap t.bytes).length + 1) := by
      rw [maxEncBlowup]
      omega
    rw [Block.alloc, hsize, ← List.replicate_append_replicate, List.replicate_succ, List.nil_append]
  use List.replicate (v.length * 6 - (v.flatMap t.bytes).length) none
  rw [velyEncode, velyEncodeBase]
  have hloop := encodeBaseLoop_cells hcells (List.length_replicate ..)
  rw [List.length_nil] at hloop
  rw [hloop, ok_bind]
  simp only [List.nil_append, Nat.zero_add, Nat.sub_zero]
  rfl

theorem velyEncode_eq (t : EncType) (s : CString) :
  ∃ rest, velyEncode t s.bytes
    = .ok (⟨(t.text s).bytes.map some ++ some 0 :: rest⟩, (t.text s).length)
  := velyEncode_cells t s.bytes

/-- What was written for a string is decoded to the string. -/
theorem velyDecode_text {s : CString} {v : Block} {rest : List (Option UInt8)} {inlen : Int}
    (hs : ∀ c ∈ s.bytes, t.Decodes c) (h : v.cells = (t.text s).bytes.map some ++ some 0 :: rest)
    (hinlen : inlen < 0 ∨ inlen = (t.text s).length) :
  ∃ v', velyDecode t v inlen = .ok (v', s.length) ∧ v'.string 0 = .ok s
  := by
  have hdecode : velyDecode t v inlen = velyDecode t v (t.text s).length := by
    obtain hneg | rfl := hinlen
    · have hstring : v.string 0 = .ok (t.text s) := Block.string_of_cells (l := []) (t.text s) h rfl
      rw [velyDecode, if_pos hneg, hstring, velyDecode, if_neg (by omega)]
      rfl
    · rfl
  have hdecoding : Decoding v [] 0 (s.bytes.flatMap t.bytes) := ⟨[], rest, rfl, h⟩
  have hbound : s.bytes.length ≤ (t.text s).length := EncType.le_length_flatMap s.nonzero
  have hlength : (t.text s).length = ([] : List UInt8).length + 0 + (s.bytes.flatMap t.bytes).length := by
    simp [EncType.text, CString.length]
  obtain ⟨v', m, hrun, hv'⟩ := decodeLoop_flatMap hs s.nonzero hdecoding hlength hbound
  obtain ⟨v'', hput, hstring⟩ := hv'.finish (s := s) rfl
  refine ⟨v'', ?_, hstring⟩
  simp only [List.length_nil, Nat.add_zero, List.nil_append] at hrun hput
  rw [hdecode, velyDecode, if_neg (by omega), ok_bind, Int.toNat_natCast]
  simp only
  rw [hrun, ok_bind]
  simp only
  rw [hput]
  rfl

end

end Vely
