import Vely.Input.Fields

/-!
# The segments of a query

The signs `&` cut the text of a query into segments.  When the escapes of every segment are whole,
the fields of the query are the fields of its segments, one behind the other.
-/

namespace Vely

/-- Segments with an ampersand between them. -/
def joinSegments (ss : List (List UInt8)) : List UInt8 := ['&'.toUInt8].intercalate ss

section Join

variable {ss : List (List UInt8)}

theorem whole_joinSegments (h : ∀ s ∈ ss, whole s = true) :
  whole (joinSegments ss) = true
  := by
  induction ss with
  | nil => rfl
  | cons s ss ih =>
    have hs := h s (by simp)
    cases ss with
    | nil => simpa [joinSegments] using hs
    | cons t ts =>
      rw [joinSegments, List.intercalate_cons_cons, List.append_assoc, whole_append hs]
      rw [List.singleton_append, whole_of_ne (by decide)]
      apply ih
      intro t' ht'
      apply h t' (by simp only [List.mem_cons] at ht' ⊢; tauto)

theorem tokens_joinSegments (h : ∀ s ∈ ss, whole s = true) :
  tokens true (joinSegments ss) = [Token.ampersand].intercalate (ss.map (tokens true))
  := by
  induction ss with
  | nil => rfl
  | cons s ss ih =>
    have hs := h s (by simp)
    cases ss with
    | nil => simp [joinSegments]
    | cons t ts =>
      have ht : ∀ t' ∈ t :: ts, whole t' = true := by
        intro t' ht'
        apply h t' (by simp only [List.mem_cons] at ht' ⊢; tauto)
      rw [joinSegments, List.intercalate_cons_cons, List.append_assoc, tokens_append hs,
        List.singleton_append, tokens_ampersand]
      rw [List.map_cons, List.map_cons, List.intercalate_cons_cons, ← List.map_cons, ← ih ht]
      simp [joinSegments]

/-- The signs `=` of the segments are those of the query. -/
theorem queryParams_joinSegments (h : ∀ s ∈ ss, whole s = true) :
  queryParams (joinSegments ss) = (ss.map (fun s => (tokens true s).count .equal)).sum
  := by
  rw [queryParams, tokens_joinSegments h]
  clear h
  induction ss with
  | nil => rfl
  | cons s ss ih =>
    cases ss with
    | nil => simp
    | cons t ts =>
      rw [List.map_cons] at ih
      rw [List.map_cons, List.map_cons, List.intercalate_cons_cons, List.count_append,
        List.count_append, ih]
      simp

/-- The fields of a segment. -/
def segmentFields (s : List UInt8) : List CString := fields ((tokens true s).map Token.byte)

/-- The fields of the segments are those of the query, which has one more at its end. -/
theorem queryFields_joinSegments (h : ∀ s ∈ ss, whole s = true) (hss : ss ≠ []) :
  queryFields (joinSegments ss) = ss.flatMap segmentFields ++ [CString.empty]
  := by
  rw [queryFields, tokens_joinSegments h, fields_append]
  clear h
  congr 1
  induction ss with
  | nil => exact absurd rfl hss
  | cons s ss ih =>
    cases ss with
    | nil => simp [segmentFields]
    | cons t ts =>
      have ih := ih (by simp)
      rw [List.map_cons] at ih
      rw [List.map_cons, List.map_cons, List.intercalate_cons_cons, List.map_append,
        List.map_append, List.map_singleton, Token.byte, List.append_assoc, List.singleton_append,
        fields_append, ih]
      simp [segmentFields]

end Join

/-! ### Segments with a name and a value -/

/-- The segment is a name, a sign `=` and a value, as they are decoded. -/
structure Reads (s : List UInt8) (p : InputParam) : Prop where
  whole : whole s = true
  tokens : tokens true s = p.name.bytes.map .char ++ .equal :: p.value.bytes.map .char

section Reads

variable {s : List UInt8} {p : InputParam}

theorem map_byte_char (bs : List UInt8) :
  (bs.map Token.char).map Token.byte = bs
  := by
  simp [Function.comp_def, Token.byte]

theorem count_char (bs : List UInt8) :
  (bs.map Token.char).count .equal = 0
  := by
  simp [List.count_eq_zero]

theorem Reads.count (h : Reads s p) :
  (Vely.tokens true s).count .equal = 1
  := by
  simp [h.tokens, count_char]

theorem Reads.fields (h : Reads s p) :
  segmentFields s = [p.name, p.value]
  := by
  rw [segmentFields, h.tokens, List.map_append, List.map_cons, map_byte_char, map_byte_char,
    Token.byte, fields_append, fields_of_nonzero, fields_of_nonzero]
  rfl

/-- The value is trimmed when it is taken. -/
def InputParam.trimmed (p : InputParam) : InputParam := ⟨p.name, velyTrimPtr p.value⟩

/-- Pairs of fields are taken as parameters. -/
theorem pairParams_pairs {ps : List InputParam} (fs : List CString)
    (h : ∀ p ∈ ps, velyIsValidParamName p.name false = true) :
  pairParams ps.length (ps.flatMap (fun p => [p.name, p.value]) ++ fs)
    = .ok (ps.map InputParam.trimmed)
  := by
  induction ps with
  | nil => rfl
  | cons p ps ih =>
    have ih := ih (fun q hq => h q (by simp [hq]))
    rw [List.length_cons, List.flatMap_cons, pairParams.eq_def]
    simp only [List.cons_append, List.nil_append, h p (by simp), if_true, ih]
    rfl

theorem ordered_char (hadEqual : Bool) (bs : List UInt8) (ts : List Token) :
  ordered hadEqual (bs.map .char ++ ts) = ordered hadEqual ts
  := by
  induction bs with
  | nil => rfl
  | cons c r ih => apply ih

/-- In a query of such segments every ampersand is allowed. -/
theorem ordered_of_reads {ss : List (List UInt8)} {ps : List InputParam}
    (h : List.Forall₂ Reads ss ps) (hadEqual : Bool) :
  ordered hadEqual ([Token.ampersand].intercalate (ss.map (Vely.tokens true))) = true
  := by
  induction h generalizing hadEqual with
  | nil => rfl
  | @cons s p ss ps hs hss ih =>
    rw [List.map_cons]
    cases ss with
    | nil =>
      rw [List.map_nil, List.intercalate_singleton, hs.tokens, ordered_char, ordered,
        ← List.append_nil (List.map _ _), ordered_char]
      rfl
    | cons t ts =>
      have ih := ih false
      rw [List.map_cons] at ih ⊢
      rw [List.intercalate_cons_cons, hs.tokens, List.append_assoc, List.append_assoc,
        ordered_char, List.cons_append, ordered, ordered_char, List.singleton_append, ordered, ih]
      rfl

/-- The segments of a query that are read as parameters are its parameters. -/
theorem Forall₂.fields {ss : List (List UInt8)} {ps : List InputParam}
    (h : List.Forall₂ Reads ss ps) :
  ss.flatMap segmentFields = ps.flatMap (fun p => [p.name, p.value])
    ∧ (ss.map (fun s => (Vely.tokens true s).count .equal)).sum = ps.length
    ∧ ∀ s ∈ ss, Vely.whole s = true
  := by
  induction h with
  | nil => exact ⟨rfl, rfl, by simp⟩
  | cons hs hss ih =>
    obtain ⟨hfields, hcount, hwhole⟩ := ih
    refine ⟨?_, ?_, ?_⟩
    · rw [List.flatMap_cons, List.flatMap_cons, hs.fields, hfields]
    · rw [List.map_cons, List.sum_cons, hs.count, hcount, List.length_cons, Nat.add_comm]
    · intro t ht
      rcases List.mem_cons.mp ht with rfl | ht
      · apply hs.whole
      · apply hwhole t ht

end Reads

end Vely
