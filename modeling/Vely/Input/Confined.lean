import Vely.Input.Segments

/-!
# Parameters that come from one segment each

A segment on its own is worth at most one parameter: its name and its value, decoded.  The
parameters of a query are those of its segments exactly when what decodes a segment stays inside of
it.
-/

namespace Vely

/-! ### A segment on its own -/

/-- The bytes that a part of a segment stands for; none if an escape is not whole. -/
def percentDecode (isname : Bool) : List UInt8 → Option (List UInt8)
  | [] => some []
  | c :: r =>
    if c = '%'.toUInt8 then
      match r with
      | h :: l :: r => (percentDecode isname r).map (escaped h l :: ·)
      | _ => none
    else (percentDecode isname r).map (plain isname c :: ·)

/-- What is before the first sign `=` of a segment. -/
def namePart (s : List UInt8) : List UInt8 := s.takeWhile (· ≠ '='.toUInt8)

/-- What is behind the first sign `=` of a segment. -/
def valuePart (s : List UInt8) : List UInt8 := (s.dropWhile (· ≠ '='.toUInt8)).tail

/-- The parameter of a segment with a sign `=`: its name and its value, decoded and trimmed. -/
def segmentParams (s : List UInt8) : Option (List (List UInt8 × List UInt8)) :=
  if '='.toUInt8 ∈ s then
    (percentDecode true (namePart s)).bind fun name =>
      (percentDecode false (valuePart s)).map fun value => [(name, trimSpaces value)]
  else (percentDecode true s).map fun _ => []

/-- What decodes the segment stays inside of it: an escape of its name or of its value ends there,
the value has no other sign `=`, and no escape stands for zero. -/
def Confined (s : List UInt8) : Prop :=
  if '='.toUInt8 ∈ s then
    whole (namePart s) = true ∧ whole (valuePart s) = true
      ∧ .equal ∉ tokens false (valuePart s)
      ∧ .char 0 ∉ tokens true (namePart s) ∧ .char 0 ∉ tokens false (valuePart s)
  else whole s = true

/-! ### Decoding parts -/

section Parts

variable {isname : Bool} {s p d : List UInt8}

theorem percentDecode_of_ne {c : UInt8} (hc : c ≠ '%'.toUInt8) (r : List UInt8) :
  percentDecode isname (c :: r) = (percentDecode isname r).map (plain isname c :: ·)
  := by
  rw [percentDecode.eq_def]
  apply if_neg hc

/-- A part is decoded when its escapes are whole. -/
theorem isSome_percentDecode (isname : Bool) (p : List UInt8) :
  (percentDecode isname p).isSome = whole p
  := by
  fun_induction whole p with
  | case1 => rfl
  | case2 h l p ih =>
    rw [percentDecode.eq_def]
    simp only [if_true, Option.isSome_map]
    apply ih
  | case3 p hr =>
    cases p with
    | nil => rfl
    | cons h p =>
      cases p with
      | nil => rfl
      | cons l r => exact absurd rfl (hr h l r)
  | case4 c p hc ih =>
    rw [percentDecode_of_ne hc, Option.isSome_map, ih]

/-- Without separators, the bytes of a part are its tokens. -/
theorem tokens_of_percentDecode (ha : '&'.toUInt8 ∉ p) (he : .equal ∉ tokens isname p)
    (h : percentDecode isname p = some d) :
  tokens isname p = d.map .char
  := by
  fun_induction tokens isname p generalizing d with
  | case1 isname =>
    obtain rfl : [] = d := Option.some.inj h
    rfl
  | case2 isname h' l p ih =>
    rw [percentDecode.eq_def] at h
    simp only [if_true, Option.map_eq_some_iff] at h
    obtain ⟨d, hd, rfl⟩ := h
    simp only [List.mem_cons, not_or, reduceCtorEq, not_false_eq_true, true_and] at ha he
    rw [ih ha.2.2.2 he hd, List.map_cons]
  | case3 isname p hr =>
    have hsome := isSome_percentDecode isname ('%'.toUInt8 :: p)
    rw [h, whole_truncated hr] at hsome
    cases hsome
  | case4 isname p _ ih => simp at ha
  | case5 isname p _ _ ih => simp at he
  | case6 isname c p hp ha' he' ih =>
    rw [percentDecode_of_ne hp, Option.map_eq_some_iff] at h
    obtain ⟨d, hd, rfl⟩ := h
    simp only [List.mem_cons, not_or, reduceCtorEq, not_false_eq_true, true_and] at ha he
    rw [ih ha.2 he hd, List.map_cons]

/-- A part without a sign `=` has no token for one. -/
theorem equal_notMem_tokens (he : '='.toUInt8 ∉ p) :
  .equal ∉ tokens isname p
  := by
  fun_induction tokens isname p with
  | case1 => simp
  | case2 isname h l p ih =>
    simp only [List.mem_cons, not_or] at he
    simpa using ih he.2.2.2
  | case3 => simp
  | case4 isname p _ ih =>
    simp only [List.mem_cons, not_or] at he
    simpa using ih he.2
  | case5 => simp at he
  | case6 isname c p _ _ _ ih =>
    simp only [List.mem_cons, not_or] at he
    simpa using ih he.2

theorem namePart_append_valuePart (he : '='.toUInt8 ∈ s) :
  namePart s ++ '='.toUInt8 :: valuePart s = s
  := by
  have hsplit := List.takeWhile_append_dropWhile (p := fun c => decide (c ≠ '='.toUInt8)) (l := s)
  cases hd : s.dropWhile (fun c => decide (c ≠ '='.toUInt8)) with
  | nil =>
    rw [List.dropWhile_eq_nil_iff] at hd
    simpa using hd _ he
  | cons c r =>
    have hc : c = '='.toUInt8 := by
      have hhead := List.head?_dropWhile_not (fun c => decide (c ≠ '='.toUInt8)) s
      rw [hd] at hhead
      simpa using hhead
    rw [hd, hc] at hsplit
    rw [namePart, valuePart, hd, List.tail_cons]
    exact hsplit

theorem equal_notMem_namePart :
  '='.toUInt8 ∉ namePart s
  := by
  intro h
  have := List.mem_takeWhile_imp h
  simp at this

end Parts

/-! ### The tokens of a segment -/

section Segment

variable {s : List UInt8}

theorem nameAfter_of_equal_notMem {isname : Bool} {ts : List Token} (he : .equal ∉ ts)
    (ha : .ampersand ∉ ts) :
  nameAfter isname ts = isname
  := by
  induction ts with
  | nil => rfl
  | cons t ts ih =>
    simp only [List.mem_cons, not_or] at he ha
    cases t with
    | char c => apply ih he.2 ha.2
    | equal => exact absurd rfl he.1
    | ampersand => exact absurd rfl ha.1

theorem ampersand_notMem_tokens {isname : Bool} {p : List UInt8} (ha : '&'.toUInt8 ∉ p) :
  .ampersand ∉ tokens isname p
  := by
  fun_induction tokens isname p with
  | case1 => simp
  | case2 isname h l p ih =>
    simp only [List.mem_cons, not_or] at ha
    simpa using ih ha.2.2.2
  | case3 => simp
  | case4 => simp at ha
  | case5 isname p _ _ ih =>
    simp only [List.mem_cons, not_or] at ha
    simpa using ih ha.2
  | case6 isname c p _ _ _ ih =>
    simp only [List.mem_cons, not_or] at ha
    simpa using ih ha.2

/-- When the escapes of the name are whole, the tokens of a segment are those of its parts. -/
theorem tokens_segment (ha : '&'.toUInt8 ∉ s) (he : '='.toUInt8 ∈ s)
    (hw : whole (namePart s) = true) :
  tokens true s = tokens true (namePart s) ++ .equal :: tokens false (valuePart s)
  := by
  have hs := namePart_append_valuePart he
  have ha' : '&'.toUInt8 ∉ namePart s := fun h => ha (hs ▸ List.mem_append_left _ h)
  rw [← congrArg (tokens true) hs, tokens_append hw,
    nameAfter_of_equal_notMem (equal_notMem_tokens equal_notMem_namePart)
      (ampersand_notMem_tokens ha'), tokens_equal]

theorem whole_segment (he : '='.toUInt8 ∈ s) (hn : whole (namePart s) = true) :
  whole s = whole (valuePart s)
  := by
  rw [← congrArg whole (namePart_append_valuePart he), whole_append hn, whole_of_ne (by decide)]

/-- A segment that has a parameter has whole escapes. -/
theorem whole_of_segmentParams {q : List (List UInt8 × List UInt8)}
    (h : segmentParams s = some q) :
  whole s = true
  := by
  rw [segmentParams] at h
  split at h
  · next he =>
    simp only [Option.bind_eq_some_iff, Option.map_eq_some_iff] at h
    obtain ⟨name, hname, value, hvalue, -⟩ := h
    have hn := isSome_percentDecode true (namePart s)
    have hv := isSome_percentDecode false (valuePart s)
    rw [hname] at hn
    rw [hvalue] at hv
    rw [whole_segment he hn.symm]
    exact hv.symm
  · obtain ⟨d, hd, -⟩ := Option.map_eq_some_iff.mp h
    have hs := isSome_percentDecode true s
    rw [hd] at hs
    exact hs.symm

theorem Confined.whole (h : Confined s) :
  Vely.whole s = true
  := by
  rw [Confined] at h
  split at h
  · next he => rw [whole_segment he h.1, h.2.1]
  · exact h

/-- A segment is worth at most one parameter, and has a sign `=` for it. -/
theorem length_segmentParams_le (ha : '&'.toUInt8 ∉ s) {q : List (List UInt8 × List UInt8)}
    (h : segmentParams s = some q) :
  q.length ≤ (tokens true s).count .equal
  := by
  rw [segmentParams] at h
  split at h
  · next he =>
    simp only [Option.bind_eq_some_iff, Option.map_eq_some_iff] at h
    obtain ⟨name, hname, value, -, rfl⟩ := h
    have hn := isSome_percentDecode true (namePart s)
    rw [hname] at hn
    rw [tokens_segment ha he hn.symm, List.count_append, List.count_cons_self,
      List.length_singleton]
    omega
  · obtain ⟨d, -, rfl⟩ := Option.map_eq_some_iff.mp h
    simp

/-- Trimming keeps what is no space. -/
theorem mem_trimSpaces {bs : List UInt8} {c : UInt8} (h : c ∈ bs) (hc : isspace c = false) :
  c ∈ trimSpaces bs
  := by
  have hdrop : c ∈ bs.dropWhile isspace := by
    have hsplit := List.takeWhile_append_dropWhile (p := isspace) (l := bs)
    rw [← hsplit, List.mem_append] at h
    rcases h with h | h
    · rw [List.mem_takeWhile_imp h] at hc
      cases hc
    · exact h
  rw [← List.rdropWhile_append_rtakeWhile (p := isspace) (l := bs.dropWhile isspace),
    List.mem_append] at hdrop
  rcases hdrop with h | h
  · exact h
  · rw [List.mem_rtakeWhile_imp h] at hc
    cases hc

/-- A segment whose parameter has no zero, and that has one sign `=` for it, is confined. -/
theorem confined_of_segmentParams (ha : '&'.toUInt8 ∉ s) {q : List (List UInt8 × List UInt8)}
    (h : segmentParams s = some q) (hcount : (tokens true s).count .equal = q.length)
    (hz : ∀ p ∈ q, 0 ∉ p.1 ∧ 0 ∉ p.2) :
  Confined s
  := by
  have hs := whole_of_segmentParams h
  rw [segmentParams] at h
  rw [Confined]
  split at h
  · next he =>
    simp only [Option.bind_eq_some_iff, Option.map_eq_some_iff] at h
    obtain ⟨name, hname, value, hvalue, rfl⟩ := h
    have hn := isSome_percentDecode true (namePart s)
    rw [hname] at hn
    have hv : whole (valuePart s) = true := by rw [← whole_segment he hn.symm, hs]
    have hsplit := namePart_append_valuePart he
    have han : '&'.toUInt8 ∉ namePart s := fun h => ha (hsplit ▸ List.mem_append_left _ h)
    have hav : '&'.toUInt8 ∉ valuePart s := fun h =>
      ha (hsplit ▸ List.mem_append_right _ (List.mem_cons_of_mem _ h))
    rw [tokens_segment ha he hn.symm, List.count_append, List.count_cons_self] at hcount
    have hev : .equal ∉ tokens false (valuePart s) := by
      rw [← List.count_eq_zero]
      simp at hcount
      omega
    have hen := @equal_notMem_tokens true _ (equal_notMem_namePart (s := s))
    have hzero := hz _ (List.mem_singleton_self _)
    rw [if_pos he, tokens_of_percentDecode han hen hname, tokens_of_percentDecode hav hev hvalue]
    refine ⟨hn.symm, hv, by simp, ?_, ?_⟩
    · simpa using hzero.1
    · intro h
      rw [List.mem_map] at h
      obtain ⟨c, hc, hc0⟩ := h
      obtain rfl : c = 0 := by simpa using hc0
      exact hzero.2 (mem_trimSpaces hc isspace_zero)
  · next he =>
    rw [if_neg he]
    exact hs

/-- A part that is confined is a string. -/
theorem exists_cstring {isname : Bool} {p : List UInt8} (hw : whole p = true)
    (ha : '&'.toUInt8 ∉ p) (he : .equal ∉ tokens isname p) (hz : .char 0 ∉ tokens isname p) :
  ∃ d : CString, percentDecode isname p = some d.bytes ∧ tokens isname p = d.bytes.map .char
  := by
  obtain ⟨d, hd⟩ : ∃ d, percentDecode isname p = some d := by
    rw [← Option.isSome_iff_exists, isSome_percentDecode, hw]
  have ht := tokens_of_percentDecode ha he hd
  have hzero : 0 ∉ d := by
    intro h
    apply hz
    rw [ht]
    exact List.mem_map_of_mem h
  exact ⟨⟨d, hzero⟩, hd, ht⟩

/-- A confined segment with a sign `=` is read as its parameter. -/
theorem Confined.reads (h : Confined s) (ha : '&'.toUInt8 ∉ s) (he : '='.toUInt8 ∈ s) :
  ∃ p, Reads s p ∧ segmentParams s = some [(p.name.bytes, p.trimmed.value.bytes)]
  := by
  have hs := h.whole
  rw [Confined, if_pos he] at h
  obtain ⟨hn, hv, hev, hzn, hzv⟩ := h
  have hsplit := namePart_append_valuePart he
  have han : '&'.toUInt8 ∉ namePart s := fun h => ha (hsplit ▸ List.mem_append_left _ h)
  have hav : '&'.toUInt8 ∉ valuePart s := fun h =>
    ha (hsplit ▸ List.mem_append_right _ (List.mem_cons_of_mem _ h))
  obtain ⟨name, hname, htn⟩ :=
    exists_cstring hn han (equal_notMem_tokens equal_notMem_namePart) hzn
  obtain ⟨value, hvalue, htv⟩ := exists_cstring hv hav hev hzv
  use ⟨name, value⟩
  constructor
  · refine ⟨hs, ?_⟩
    rw [tokens_segment ha he hn, htn, htv]
  · rw [segmentParams, if_pos he, hname, hvalue]
    rfl

/-- A confined segment without a sign `=` has no parameter. -/
theorem Confined.segmentParams_nil (h : Confined s) (he : '='.toUInt8 ∉ s) :
  segmentParams s = some []
  := by
  rw [Confined, if_neg he] at h
  obtain ⟨d, hd⟩ : ∃ d, percentDecode true s = some d := by
    rw [← Option.isSome_iff_exists, isSome_percentDecode, h]
  rw [segmentParams, if_neg he, hd]
  rfl

end Segment

/-! ### Queries -/

/-- The bytes of parameters. -/
def paramBytes (ps : List InputParam) : List (List UInt8 × List UInt8) :=
  ps.map (fun p => (p.name.bytes, p.value.bytes))

theorem length_splitLoop {content : Block} {n j : Nat} {ps : List InputParam}
    (h : splitLoop content n j = .ok ps) :
  ps.length = n
  := by
  induction n generalizing j ps with
  | zero =>
    obtain rfl : [] = ps := Except.ok.inj h
    rfl
  | succ n ih =>
    rw [splitLoop] at h
    cases hname : content.string j with
    | error e =>
      rw [hname] at h
      cases h
    | ok name =>
      rw [hname, liftM_ok, ok_bind] at h
      split at h
      · cases hvalue : content.string (j + name.length + 1) with
        | error e =>
          rw [hvalue] at h
          cases h
        | ok value =>
          rw [hvalue, liftM_ok, ok_bind] at h
          cases hr : splitLoop content n (j + name.length + 1 + value.length + 1) with
          | error e =>
            rw [hr] at h
            cases h
          | ok qs =>
            rw [hr] at h
            obtain rfl := Except.ok.inj h
            rw [List.length_cons, ih hr]
      · cases h

theorem params_terminate {s s' : DecodeState} (h : terminate s = .ok s') :
  s'.params = s.params
  := by
  rw [terminate] at h
  cases hput : s.content.put s.j 0 with
  | error e =>
    rw [hput] at h
    cases h
  | ok b =>
    rw [hput, liftM_ok, ok_bind] at h
    cases hput' : b.put (s.j + 1) 0 with
    | error e =>
      rw [hput'] at h
      cases h
    | ok b' =>
      rw [hput'] at h
      obtain rfl := Except.ok.inj h
      rfl

/-- An accepted query has as many parameters as signs `=`, and its ampersands are behind them. -/
theorem of_parseParams {text : List UInt8} {tail : List (Option UInt8)} {ps : List InputParam}
    (hz : 0 ∉ text) (hw : whole text = true) (h : parseParams (Block.ofText text tail) = .ok ps) :
  ps.length = queryParams text ∧ ordered false (tokens true text) = true
  := by
  have hdecode := decodeContent_decoded tail hz
  rw [Decoded, hw] at hdecode
  simp only [if_true] at hdecode
  split at hdecode
  · rw [parseParams, hdecode] at h
    cases h
  · next ho =>
    obtain ⟨junk, hadEqual, isname, hs⟩ := hdecode
    rw [parseParams, hs, ok_bind] at h
    refine ⟨?_, by simpa using ho⟩
    cases ht : terminate (.of ([] ++ (tokens true text).map Token.byte) junk [] tail hadEqual isname
        (0 + (tokens true text).count .equal)) with
    | error e =>
      rw [ht] at h
      cases h
    | ok s =>
      rw [ht, ok_bind] at h
      rw [queryParams, length_splitLoop h, params_terminate ht]
      apply Nat.zero_add

/-- Pairs of fields that are accepted are the parameters. -/
theorem pairParams_ok {ps qs : List InputParam} {fs : List CString}
    (h : pairParams ps.length (ps.flatMap (fun p => [p.name, p.value]) ++ fs) = .ok qs) :
  qs = ps.map InputParam.trimmed
  := by
  induction ps generalizing qs with
  | nil =>
    obtain rfl : [] = qs := Except.ok.inj h
    rfl
  | cons p ps ih =>
    rw [List.length_cons, List.flatMap_cons, pairParams.eq_def] at h
    simp only [List.cons_append, List.nil_append] at h
    split at h
    · cases hr : pairParams ps.length (ps.flatMap (fun p => [p.name, p.value]) ++ fs) with
      | error e =>
        rw [hr] at h
        cases h
      | ok rs =>
        rw [hr] at h
        obtain rfl := Except.ok.inj h
        rw [ih hr]
        rfl
    · cases h

theorem pairParams_ne_fault (ps : List InputParam) (fs : List CString) :
  pairParams ps.length (ps.flatMap (fun p => [p.name, p.value]) ++ fs) ≠ .error (.stop .fault)
  := by
  induction ps with
  | nil => simp [pairParams]
  | cons p ps ih =>
    rw [List.length_cons, List.flatMap_cons, pairParams.eq_def]
    simp only [List.cons_append, List.nil_append]
    split
    · cases hr : pairParams ps.length (ps.flatMap (fun p => [p.name, p.value]) ++ fs) with
      | error e =>
        rw [hr] at ih
        simpa using ih
      | ok rs => simp
    · simp

/-- The segments of a query and what they are worth. -/
def SegmentsParams (ss : List (List UInt8)) (qs : List (List (List UInt8 × List UInt8))) : Prop :=
  List.Forall₂ (fun s q => segmentParams s = some q) ss qs

section Query

variable {ss : List (List UInt8)} {qs : List (List (List UInt8 × List UInt8))}

theorem SegmentsParams.whole (h : SegmentsParams ss qs) :
  ∀ s ∈ ss, Vely.whole s = true
  := by
  induction h with
  | nil => simp
  | cons hs h ih =>
    intro t ht
    rcases List.mem_cons.mp ht with rfl | ht
    · apply whole_of_segmentParams hs
    · apply ih t ht

theorem SegmentsParams.length_le (h : SegmentsParams ss qs) (ha : ∀ s ∈ ss, '&'.toUInt8 ∉ s) :
  qs.flatten.length ≤ (ss.map (fun s => (tokens true s).count .equal)).sum
  := by
  induction h with
  | nil => simp
  | cons hs h ih =>
    have hle := length_segmentParams_le (ha _ (by simp)) hs
    have ih := ih (fun t ht => ha t (by simp [ht]))
    rw [List.flatten_cons, List.length_append, List.map_cons, List.sum_cons]
    omega

/-- Segments that are worth as many parameters as they have signs `=`, and none with a zero, are
confined. -/
theorem SegmentsParams.confined (h : SegmentsParams ss qs) (ha : ∀ s ∈ ss, '&'.toUInt8 ∉ s)
    (hcount : (ss.map (fun s => (tokens true s).count .equal)).sum = qs.flatten.length)
    (hz : ∀ p ∈ qs.flatten, 0 ∉ p.1 ∧ 0 ∉ p.2) :
  ∀ s ∈ ss, Confined s
  := by
  induction h with
  | nil => simp
  | cons hs h ih =>
    have ha' := fun t ht => ha t (List.mem_cons_of_mem _ ht)
    have hle := length_segmentParams_le (ha _ (by simp)) hs
    have hle' := SegmentsParams.length_le h ha'
    rw [List.flatten_cons, List.length_append, List.map_cons, List.sum_cons] at hcount
    intro t ht
    rcases List.mem_cons.mp ht with rfl | ht
    · apply confined_of_segmentParams (ha _ (by simp)) hs (by omega)
      intro p hp
      apply hz p (by simp [hp])
    · apply ih ha' (by omega) _ t ht
      intro p hp
      apply hz p
      rw [List.flatten_cons, List.mem_append]
      exact .inr hp

theorem ordered_of_notMem {hadEqual : Bool} {ts us : List Token} (he : .equal ∉ ts)
    (ha : .ampersand ∉ ts) :
  ordered hadEqual (ts ++ us) = ordered hadEqual us
  := by
  induction ts with
  | nil => rfl
  | cons t ts ih =>
    simp only [List.mem_cons, not_or] at he ha
    cases t with
    | char c => apply ih he.2 ha.2
    | equal => exact absurd rfl he.1
    | ampersand => exact absurd rfl ha.1

/-- Confined segments are pairs of fields, up to the last one, which may have no sign `=`. -/
theorem exists_params_of_confined (h : ∀ s ∈ ss, Confined s) (ha : ∀ s ∈ ss, '&'.toUInt8 ∉ s)
    (ho : ordered false ([Token.ampersand].intercalate (ss.map (tokens true))) = true) :
  ∃ (ps : List InputParam) (fs : List CString) (qs : List (List (List UInt8 × List UInt8))),
    ss.flatMap segmentFields = ps.flatMap (fun p => [p.name, p.value]) ++ fs
      ∧ (ss.map (fun s => (tokens true s).count .equal)).sum = ps.length
      ∧ SegmentsParams ss qs ∧ paramBytes (ps.map InputParam.trimmed) = qs.flatten
  := by
  induction ss with
  | nil => exact ⟨[], [], [], rfl, rfl, .nil, rfl⟩
  | cons s ss ih =>
    have hs := h s (by simp)
    have has := ha s (by simp)
    by_cases he : '='.toUInt8 ∈ s
    · obtain ⟨p, hp, hparams⟩ := hs.reads has he
      have ho' : ordered false ([Token.ampersand].intercalate (ss.map (tokens true))) = true := by
        cases ss with
        | nil => rfl
        | cons t ts =>
          rw [List.map_cons, List.map_cons, List.intercalate_cons_cons, hp.tokens,
            List.append_assoc, List.append_assoc, ordered_char, List.cons_append, ordered,
            ordered_char, List.singleton_append, ordered, Bool.true_and] at ho
          rw [List.map_cons]
          exact ho
      obtain ⟨ps, fs, qs, hfields, hcount, hqs, hbytes⟩ :=
        ih (fun t ht => h t (by simp [ht])) (fun t ht => ha t (by simp [ht])) ho'
      refine ⟨p :: ps, fs, [(p.name.bytes, p.trimmed.value.bytes)] :: qs, ?_, ?_, ?_, ?_⟩
      · rw [List.flatMap_cons, hp.fields, hfields, List.flatMap_cons, List.append_assoc]
      · rw [List.map_cons, List.sum_cons, hp.count, hcount, List.length_cons, Nat.add_comm]
      · exact .cons hparams hqs
      · rw [List.flatten_cons, ← hbytes]
        rfl
    · have hne := @equal_notMem_tokens true _ he
      cases ss with
      | nil =>
        refine ⟨[], segmentFields s, [[]], by simp, ?_, ?_, rfl⟩
        · simpa [List.count_eq_zero] using hne
        · exact .cons (hs.segmentParams_nil he) .nil
      | cons t ts =>
        -- an ampersand behind a segment without a sign `=` is not allowed
        exfalso
        have hamp := @ampersand_notMem_tokens true _ has
        rw [List.map_cons, List.map_cons, List.intercalate_cons_cons, List.append_assoc,
          ordered_of_notMem hne hamp, List.singleton_append, ordered] at ho
        cases ho

/-- The parameters of an accepted query are those of its segments, one behind the other, exactly
when every segment is confined. -/
theorem segmentsParams_iff {tail : List (Option UInt8)} {ps : List InputParam} (hss : ss ≠ [])
    (ha : ∀ s ∈ ss, '&'.toUInt8 ∉ s) (hz : 0 ∉ joinSegments ss) (htail : tail ≠ [])
    (h : parseParams (Block.ofText (joinSegments ss) tail) = .ok ps) :
  (∃ qs, SegmentsParams ss qs ∧ paramBytes ps = qs.flatten) ↔ ∀ s ∈ ss, Confined s
  := by
  constructor
  · rintro ⟨qs, hqs, hbytes⟩
    have hw := hqs.whole
    obtain ⟨hlen, -⟩ := of_parseParams hz (whole_joinSegments hw) h
    rw [queryParams_joinSegments hw] at hlen
    apply hqs.confined ha
    · rw [← hlen, ← hbytes, paramBytes, List.length_map]
    · intro p hp
      rw [← hbytes, paramBytes, List.mem_map] at hp
      obtain ⟨q, -, rfl⟩ := hp
      exact ⟨q.name.nonzero, q.value.nonzero⟩
  · intro hc
    have hw : ∀ s ∈ ss, Vely.whole s = true := fun s hs => (hc s hs).whole
    obtain ⟨-, ho⟩ := of_parseParams hz (whole_joinSegments hw) h
    rw [tokens_joinSegments hw] at ho
    obtain ⟨rs, fs, qs, hfields, hcount, hqs, hbytes⟩ := exists_params_of_confined hc ha ho
    have hparse := parseParams_ofText hz htail (whole_joinSegments hw)
      (by rw [tokens_joinSegments hw, ho])
    rw [queryParams_joinSegments hw, queryFields_joinSegments hw hss, hfields, hcount,
      List.append_assoc] at hparse
    have hparse := hparse (pairParams_ne_fault _ _)
    rw [h] at hparse
    refine ⟨qs, hqs, ?_⟩
    rw [pairParams_ok hparse.symm, hbytes]

/-- What the segments of a list are worth is split as the list is. -/
theorem SegmentsParams.split {pre post : List (List UInt8)} (h : SegmentsParams (pre ++ post) qs) :
  ∃ as bs, qs = as ++ bs ∧ SegmentsParams pre as ∧ SegmentsParams post bs
  := by
  induction pre generalizing qs with
  | nil => exact ⟨[], qs, rfl, .nil, h⟩
  | cons s pre ih =>
    obtain ⟨q, qs', hs, h', rfl⟩ := List.forall₂_cons_left_iff.mp h
    obtain ⟨as, bs, rfl, has, hbs⟩ := ih h'
    exact ⟨q :: as, bs, rfl, .cons hs has, hbs⟩

theorem SegmentsParams.unique {qs' : List (List (List UInt8 × List UInt8))}
    (h : SegmentsParams ss qs) (h' : SegmentsParams ss qs') :
  qs = qs'
  := by
  apply List.right_unique_forall₂' _ h h'
  intro s q q' hq hq'
  exact Option.some.inj (hq.symm.trans hq')

end Query

/-- Two accepted queries differ in one segment.  Each has the parameters of its segments, and those
of the segments they share are the same, exactly when all the segments are confined. -/
theorem parseParams_segments_iff {query query' : CString} {pre post : List (List UInt8)}
    {s s' : List UInt8} {tail tail' : List (Option UInt8)} {ps ps' : List InputParam}
    (hquery : query.bytes = joinSegments (pre ++ s :: post))
    (hquery' : query'.bytes = joinSegments (pre ++ s' :: post))
    (hs : ∀ t ∈ pre ++ s :: s' :: post, '&'.toUInt8 ∉ t) (htail : tail ≠ []) (htail' : tail' ≠ [])
    (h : parseParams (Block.ofText query.bytes tail) = .ok ps)
    (h' : parseParams (Block.ofText query'.bytes tail') = .ok ps') :
  (∃ as q q' bs, SegmentsParams pre as ∧ segmentParams s = some q ∧ segmentParams s' = some q'
      ∧ SegmentsParams post bs ∧ paramBytes ps = as.flatten ++ q ++ bs.flatten
      ∧ paramBytes ps' = as.flatten ++ q' ++ bs.flatten)
    ↔ ∀ t ∈ pre ++ s :: s' :: post, Confined t
  := by
  have hs₁ : ∀ t ∈ pre ++ s :: post, '&'.toUInt8 ∉ t := by
    intro t ht
    apply hs t
    simp only [List.mem_append, List.mem_cons] at ht ⊢
    tauto
  have hs₂ : ∀ t ∈ pre ++ s' :: post, '&'.toUInt8 ∉ t := by
    intro t ht
    apply hs t
    simp only [List.mem_append, List.mem_cons] at ht ⊢
    tauto
  have hz := query.nonzero
  have hz' := query'.nonzero
  rw [hquery] at h hz
  rw [hquery'] at h' hz'
  have hiff := segmentsParams_iff (by simp) hs₁ hz htail h
  have hiff' := segmentsParams_iff (by simp) hs₂ hz' htail' h'
  constructor
  · rintro ⟨as, q, q', bs, has, hq, hq', hbs, hps, hps'⟩
    have hc := hiff.mp ⟨as ++ q :: bs, List.rel_append has (.cons hq hbs), by simp [hps]⟩
    have hc' := hiff'.mp ⟨as ++ q' :: bs, List.rel_append has (.cons hq' hbs), by simp [hps']⟩
    intro t ht
    simp only [List.mem_append, List.mem_cons] at ht hc hc'
    rcases ht with ht | rfl | rfl | ht
    · apply hc t (.inl ht)
    · apply hc t (.inr (.inl rfl))
    · apply hc' t (.inr (.inl rfl))
    · apply hc t (.inr (.inr ht))
  · intro hc
    obtain ⟨qs, hqs, hps⟩ := hiff.mpr (by
      intro t ht
      apply hc t
      simp only [List.mem_append, List.mem_cons] at ht ⊢
      tauto)
    obtain ⟨qs', hqs', hps'⟩ := hiff'.mpr (by
      intro t ht
      apply hc t
      simp only [List.mem_append, List.mem_cons] at ht ⊢
      tauto)
    obtain ⟨as, bs, rfl, has, hbs⟩ := hqs.split
    obtain ⟨as', bs', rfl, has', hbs'⟩ := hqs'.split
    obtain rfl := has.unique has'
    obtain ⟨q, cs, hq, hcs, rfl⟩ := List.forall₂_cons_left_iff.mp hbs
    obtain ⟨q', cs', hq', hcs', rfl⟩ := List.forall₂_cons_left_iff.mp hbs'
    obtain rfl := SegmentsParams.unique hcs hcs'
    exact ⟨as, q, q', cs, has, hq, hq', hcs, by simp [hps], by simp [hps']⟩

/-- A second sign `=` in one segment makes a parameter out of its value and of the name of the next
segment. -/
theorem parseParams_smuggles :
  ∃ ps, parseParams (Block.ofText (ascii "a=b=c&d=e") [none, none]) = .ok ps
    ∧ ¬ ∃ qs, SegmentsParams [ascii "a=b=c", ascii "d=e"] qs ∧ paramBytes ps = qs.flatten
  := by
  let text (s : String) (h : 0 ∉ ascii s) : CString := ⟨ascii s, h⟩
  use [⟨text "a" (by decide), text "b" (by decide)⟩, ⟨text "c" (by decide), text "d" (by decide)⟩,
    ⟨text "e" (by decide), text "" (by decide)⟩]
  constructor
  · rfl
  · rintro ⟨qs, hqs, hbytes⟩
    have hqs' : SegmentsParams [ascii "a=b=c", ascii "d=e"]
        [[(ascii "a", ascii "b=c")], [(ascii "d", ascii "e")]] := .cons rfl (.cons rfl .nil)
    obtain rfl := hqs.unique hqs'
    exact absurd (congrArg List.length hbytes) (by decide)

/-- Queries that are confined, and differ in their first segment. -/
theorem parseParams_segments_confined :
  ∃ ps ps', (∃ as q q' bs, SegmentsParams [] as ∧ segmentParams (ascii "a=1") = some q
      ∧ segmentParams (ascii "b=4") = some q' ∧ SegmentsParams [ascii "c=2"] bs
      ∧ paramBytes ps = as.flatten ++ q ++ bs.flatten
      ∧ paramBytes ps' = as.flatten ++ q' ++ bs.flatten)
    ↔ ∀ t ∈ [] ++ ascii "a=1" :: ascii "b=4" :: [ascii "c=2"], Confined t
  := by
  have h : parseParams (Block.ofText (ascii "a=1&c=2") [none, none])
      = .ok [⟨⟨ascii "a", by decide⟩, ⟨ascii "1", by decide⟩⟩,
          ⟨⟨ascii "c", by decide⟩, ⟨ascii "2", by decide⟩⟩] := by decide
  have h' : parseParams (Block.ofText (ascii "b=4&c=2") [none, none])
      = .ok [⟨⟨ascii "b", by decide⟩, ⟨ascii "4", by decide⟩⟩,
          ⟨⟨ascii "c", by decide⟩, ⟨ascii "2", by decide⟩⟩] := by decide
  refine ⟨_, _, @parseParams_segments_iff ⟨ascii "a=1&c=2", by decide⟩
    ⟨ascii "b=4&c=2", by decide⟩ _ _ _ _ _ _ _ _ (by rfl) (by rfl) (by decide) (by decide) (by decide)
    h h'⟩

end Vely
