import Vely.Json.Simulation

/-!
# What the reader accepts

When the reader notes that the grammar was kept to, what it read is the text of a part of a
document, which is nested as deep as the calls allow at most.
-/

namespace Vely

/-! ### White space -/

/-- White space with one character before it. -/
def Blank.cons (c : UInt8) (hc : isBlank c = true) (w : Blank) : Blank where
  bytes := c :: w.bytes
  blank := by
    intro d hd
    rcases List.mem_cons.mp hd with rfl | hd
    · exact hc
    · exact w.blank d hd

/-- No white space. -/
def Blank.empty : Blank where
  bytes := []
  blank := by simp

/-- The elements or the members with white space before them. -/
theorem exists_cons_render {k : JsonPart} (p : Json k) (hk : k ≠ .value) {c : UInt8}
    (hc : isBlank c = true) :
  ∃ p' : Json k, p'.nesting = p.nesting ∧ p'.render = c :: p.render
  := by
  cases p with
  | element w v w' => exact ⟨.element (w.cons c hc) v w', rfl, rfl⟩
  | elements w v w' es => exact ⟨.elements (w.cons c hc) v w' es, rfl, rfl⟩
  | member w name w₂ w₃ v w₄ => exact ⟨.member (w.cons c hc) name w₂ w₃ v w₄, rfl, rfl⟩
  | members w name w₂ w₃ v w₄ ms => exact ⟨.members (w.cons c hc) name w₂ w₃ v w₄ ms, rfl, rfl⟩
  | _ => exact absurd rfl hk

/-! ### Strings -/

/-- A string with characters that may stand in it is that of the grammar. -/
theorem readString_sound {dec : Bool} {u : List UInt8} {s : JsonStringRead}
    (h : readString dec ('"'.toUInt8 :: u) = some s) (hs : s.sound = true) :
  ∃ str : JsonString, '"'.toUInt8 :: u = str.render ++ s.rest
  := by
  obtain ⟨x, hx, -, hframe⟩ := @velyJsonToUtf8_frame ('"'.toUInt8 :: u ++ [0]) dec (by simp)
  rw [readString, hx] at h
  cases x with
  | mk val stop errm =>
  cases stop with
  | none => cases h
  | some stop =>
    obtain ⟨hle, -, -, hquote⟩ := hframe stop rfl
    have hbyte : byteAt ('"'.toUInt8 :: u) stop = '"'.toUInt8 := by
      rcases hquote with hquote | ⟨-, hquote⟩
      · rwa [byteAt_append_zero] at hquote
      · cases hquote
    have hlt : stop < ('"'.toUInt8 :: u).length := by
      apply lt_length_of_byteAt
      rw [hbyte]
      decide
    obtain rfl := Option.some.inj h
    obtain ⟨str, hstr⟩ := isContent_iff.mp hs
    use str
    obtain ⟨k, rfl⟩ : ∃ k, stop = k + 1 := ⟨stop - 1, by omega⟩
    rw [byteAt_cons_succ] at hbyte
    rw [List.length_cons] at hlt
    simp only [List.drop_succ_cons, List.drop_zero, Nat.add_sub_cancel] at hstr ⊢
    have hk : k < u.length := by omega
    rw [JsonString.render, hstr, List.cons_append, List.append_assoc]
    congr 1
    rw [byteAt, List.getD_eq_getElem?_getD, List.getElem?_eq_getElem hk, Option.getD_some] at hbyte
    rw [List.singleton_append, ← hbyte, List.cons_getElem_drop_succ, List.take_append_drop]

/-! ### Parts of documents -/

/-- What is read behind a value in an array or an object: its end, or first more of its parts, which
are nested in `depth` others. -/
inductive ReadsEnd (k : JsonPart) (close : UInt8) (depth : Nat) (s t : List UInt8) : Prop where
  | close (w : Blank) (h : s = w.bytes ++ close :: t)
  | more (w : Blank) (p : Json k) (hdepth : depth + p.nesting < jsonMaxNested)
      (h : s = w.bytes ++ ','.toUInt8 :: (p.render ++ close :: t))

/-- What is read in a mode: `s` is the text before, and `t` the text behind. -/
def ReadsAs (depth : Nat) (s t : List UInt8) : JsonMode → Prop
  | .value => ∃ (w : Blank) (v : Json .value), depth + v.nesting < jsonMaxNested
      ∧ s = w.bytes ++ (v.render ++ t)
  | .name => ∃ ms : Json .members, depth + 1 + ms.nesting < jsonMaxNested
      ∧ s = ms.render ++ '}'.toUInt8 :: t
  | .colon => ∃ (w₁ w₂ : Blank) (v : Json .value) (u : List UInt8),
      depth + 1 + v.nesting < jsonMaxNested ∧ ReadsEnd .members '}'.toUInt8 (depth + 1) u t
      ∧ s = w₁.bytes ++ ':'.toUInt8 :: (w₂.bytes ++ (v.render ++ u))
  | .member => ReadsEnd .members '}'.toUInt8 (depth + 1) s t
  | .element => ReadsEnd .elements ']'.toUInt8 (depth + 1) s t
  | .loose => True

section ReadsAs

variable {depth : Nat} {s t u : List UInt8} {c : UInt8}

/-- White space before what is read. -/
theorem ReadsAs.blank {mode : JsonMode} (h : ReadsAs depth s t mode) (hc : isBlank c = true) :
  ReadsAs depth (c :: s) t mode
  := by
  have hend : ∀ {k close d}, ReadsEnd k close d s t → ReadsEnd k close d (c :: s) t := by
    intro k close d h
    cases h with
    | close w h => exact .close (w.cons c hc) (congrArg (c :: ·) h)
    | more w p hdepth h => exact .more (w.cons c hc) p hdepth (congrArg (c :: ·) h)
  cases mode with
  | value =>
    obtain ⟨w, v, hdepth, rfl⟩ := h
    exact ⟨w.cons c hc, v, hdepth, rfl⟩
  | name =>
    obtain ⟨ms, hdepth, rfl⟩ := h
    obtain ⟨ms', hnesting, hrender⟩ := exists_cons_render ms (by simp) hc
    exact ⟨ms', by rw [hnesting]; exact hdepth, by rw [hrender]; rfl⟩
  | colon =>
    obtain ⟨w₁, w₂, v, u, hdepth, hu, rfl⟩ := h
    exact ⟨w₁.cons c hc, w₂, v, u, hdepth, hu, rfl⟩
  | member => exact hend h
  | element => exact hend h
  | loose => trivial

/-- A name and what is read behind it. -/
theorem ReadsAs.member (name : JsonString) (h : ReadsAs depth s t .colon) :
  ReadsAs depth (name.render ++ s) t .name
  := by
  obtain ⟨w₁, w₂, v, u, hdepth, hu, rfl⟩ := h
  cases hu with
  | close w hu =>
    refine ⟨.member .empty name w₁ w₂ v w, hdepth, ?_⟩
    simp [Json.render, hu, Blank.empty]
  | more w ms hms hu =>
    refine ⟨.members .empty name w₁ w₂ v w ms, ?_, ?_⟩
    · rw [Json.nesting]
      omega
    · simp [Json.render, hu, Blank.empty]

/-- A value and the elements behind it. -/
theorem exists_elements (h : ReadsAs (depth + 1) s u .value) (hu : ReadsAs depth u t .element) :
  ∃ es : Json .elements, depth + 1 + es.nesting < jsonMaxNested ∧ s = es.render ++ ']'.toUInt8 :: t
  := by
  obtain ⟨w, v, hdepth, rfl⟩ := h
  cases hu with
  | close w' hu =>
    refine ⟨.element w v w', hdepth, ?_⟩
    simp [Json.render, hu]
  | more w' es hes hu =>
    refine ⟨.elements w v w' es, ?_, ?_⟩
    · rw [Json.nesting]
      omega
    · simp [Json.render, hu]

/-- A scalar is a value. -/
theorem ReadsAs.scalar (x : JsonScalar) (hdepth : depth < jsonMaxNested) :
  ReadsAs depth (x.render ++ t) t .value
  := ⟨.empty, .scalar x, by rwa [Json.nesting, Nat.add_zero], rfl⟩

end ReadsAs

/-! ### The reader -/

/-- A call for a value, at the next depth. -/
theorem enter_some {depth : Nat} {r r' : JsonReader}
    {call : Nat → JsonReader → Option JsonReader} (h : r.enter depth call = some r') :
  depth + 1 < jsonMaxNested ∧ call (depth + 1) { r with top := r.top + 1 } = some r'
  := by
  rw [JsonReader.enter] at h
  split at h
  · cases h
  · next hdeep =>
    simp only [not_or] at hdeep
    exact ⟨by omega, h⟩

/-- What is read when the grammar is kept to. -/
theorem readJson_sound {dec : Bool} {bound depth : Nat} {mode : JsonMode} {r r' : JsonReader}
    (h : readJson dec bound depth mode r = some r') (hdepth : depth < jsonMaxNested)
    (hs : r'.sound = true) :
  ReadsAs depth r.rest r'.rest mode
  := by
  induction bound generalizing depth mode r r' with
  | zero => cases h
  | succ bound ih =>
    rw [readJson] at h
    cases hr : r.rest with
    | nil =>
      simp only [hr] at h
      obtain rfl := Option.some.inj h
      simp [JsonReader.check] at hs
    | cons c rest =>
      simp only [hr] at h
      have hstarts := starts_jsonToken c
      have hfalse : ∀ {x : JsonReader}, Later (x.check false) r' → False := by
        intro x hlater
        have hx := hlater.sound hs
        simp [JsonReader.check] at hx
      have hrefl : ∀ {x : JsonReader}, Later x x := ⟨le_rfl, id⟩
      split at h
      · next htoken =>
        rw [htoken] at hstarts
        exact (ih h hdepth hs).blank hstarts
      · next htoken =>
        rw [htoken] at hstarts
        obtain ⟨ms, hms, hrest⟩ := ih h hdepth hs
        simp only at hrest
        refine ⟨.empty, .object ms, ?_, ?_⟩
        · rw [Json.nesting]
          omega
        · rw [hstarts, hrest]
          simp [Blank.empty, Json.render]
      · obtain rfl := Option.some.inj h
        exact (hfalse hrefl).elim
      · next htoken =>
        rw [htoken] at hstarts
        obtain rfl := Option.some.inj h
        exact .close .empty (by rw [hstarts]; rfl)
      · trivial
      · next htoken =>
        rw [htoken] at hstarts
        split at h
        · cases h
        · obtain ⟨r₂, hcall, h⟩ := Option.bind_eq_some_iff.mp h
          obtain ⟨hd, hcall⟩ := enter_some hcall
          obtain ⟨es, hes, hrest⟩ := exists_elements
            (ih hcall hd ((readJson_later h).sound hs)) (ih h hdepth hs)
          refine ⟨.empty, .array es, ?_, ?_⟩
          · rw [Json.nesting]
            omega
          · change rest = _ at hrest
            rw [hstarts, hrest]
            simp [Blank.empty, Json.render]
      · obtain rfl := Option.some.inj h
        exact (hfalse hrefl).elim
      · next htoken =>
        rw [htoken] at hstarts
        obtain rfl := Option.some.inj h
        exact .close .empty (by rw [hstarts]; rfl)
      · next htoken =>
        rw [htoken] at hstarts
        obtain ⟨r₂, hcall, h⟩ := Option.bind_eq_some_iff.mp h
        obtain ⟨hd, hcall⟩ := enter_some hcall
        obtain ⟨w, v, hv, hrest⟩ := ih hcall hd ((readJson_later h).sound hs)
        refine ⟨.empty, w, v, r₂.rest, hv, ih h hdepth hs, ?_⟩
        simp only at hrest
        rw [hstarts, hrest]
        rfl
      · obtain ⟨r₂, hcall, h⟩ := Option.bind_eq_some_iff.mp h
        exact (hfalse ((enter_later (fun _ _ _ => readJson_later) hcall).trans
          (readJson_later h))).elim
      · next htoken =>
        rw [htoken] at hstarts
        obtain ⟨ms, hms, hrest⟩ := ih h hdepth hs
        simp only at hrest
        exact .more .empty ms hms (by rw [hstarts, hrest]; rfl)
      · next htoken =>
        rw [htoken] at hstarts
        obtain ⟨r₂, hcall, h⟩ := Option.bind_eq_some_iff.mp h
        obtain ⟨hd, hcall⟩ := enter_some hcall
        obtain ⟨es, hes, hrest⟩ := exists_elements
          (ih hcall hd ((readJson_later h).sound hs)) (ih h hdepth hs)
        change rest = _ at hrest
        exact .more .empty es hes (by rw [hstarts, hrest]; rfl)
      · next htoken =>
        rw [htoken] at hstarts
        subst hstarts
        obtain ⟨s, hstring, h⟩ := Option.bind_eq_some_iff.mp h
        have hsound := (readJson_later h).sound hs
        rw [JsonReader.check, Bool.and_eq_true] at hsound
        obtain ⟨str, hstr⟩ := readString_sound hstring hsound.2
        rw [hstr]
        exact (ih h hdepth hs).member str
      · next htoken =>
        rw [htoken] at hstarts
        subst hstarts
        obtain ⟨s, hstring, h⟩ := Option.bind_eq_some_iff.mp h
        obtain rfl := Option.some.inj h
        rw [JsonReader.check, Bool.and_eq_true] at hs
        obtain ⟨str, hstr⟩ := readString_sound hstring hs.2
        rw [hstr]
        exact .scalar (.string str) hdepth
      · obtain ⟨⟨real, k⟩, hnum, h⟩ := Option.bind_eq_some_iff.mp h
        obtain rfl := Option.some.inj h
        obtain ⟨n, t, ht, -, rfl⟩ := velyJsonNum_text hnum
        have hrest : (r.scalar (if real then .real else .number) n.render.length).rest = t := by
          rw [JsonReader.scalar, hr, ht, List.drop_left]
        simp only [hrest, ht]
        exact .scalar (.number n) hdepth
      · next htoken =>
        rw [htoken] at hstarts
        obtain ⟨l, rfl⟩ := hstarts
        split at h
        · next hword =>
          obtain rfl := Option.some.inj h
          have hrest : c :: rest = l.render ++ (c :: rest).drop l.render.length := by
            conv_lhs => rw [← List.take_append_drop l.render.length (c :: rest), hword]
          rw [JsonReader.scalar, hr]
          simp only
          rw [hrest, List.drop_left]
          exact .scalar (.literal l) hdepth
        · cases h
      · cases h

/-- A text that is read by the rules of the grammar is well formed. -/
theorem readText_sound {dec : Bool} {text : List UInt8} {r : JsonReader}
    (h : readText dec text = some r) (hs : r.sound = true) :
  ∃ d : JsonDocument, d.render = text ∧ 1 + d.value.nesting < jsonMaxNested
  := by
  obtain ⟨r₁, hcall, hfinish⟩ := Option.bind_eq_some_iff.mp h
  obtain ⟨hdepth, hcall⟩ := enter_some hcall
  have hend : r₁.sound = true ∧ ∃ w : Blank, r₁.rest = w.bytes := by
    rw [finishReader] at hfinish
    split at hfinish
    · split at hfinish
      · next hrest =>
        obtain rfl := Option.some.inj hfinish
        exact ⟨hs, .empty, hrest⟩
      · cases hfinish
    · split at hfinish
      · obtain rfl := Option.some.inj hfinish
        rw [JsonReader.check, Bool.and_eq_true] at hs
        exact ⟨hs.1, ⟨r₁.rest, by simpa using hs.2⟩, rfl⟩
      · cases hfinish
  obtain ⟨hsound, w', hw'⟩ := hend
  obtain ⟨w, v, hv, hrest⟩ := readJson_sound hcall hdepth hsound
  refine ⟨⟨w, v, w'⟩, ?_, by omega⟩
  change text = _ at hrest
  rw [hrest, hw', JsonDocument.render, List.append_assoc]

end Vely
