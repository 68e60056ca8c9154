import Vely.Json.Reject

/-!
# The texts that the parser accepts

The parser accepts a text exactly when the reader reads it.  So what it accepts is well formed when
the reader keeps to the grammar, and the documents it accepts are those the reader reads.
-/

namespace Vely

/-! ### Documents -/

/-- Whether the parser accepts a document. -/
def JsonDocument.isRead (dec : Bool) (d : JsonDocument) : Bool :=
  d.value.isRead dec && !d.value.isArray && (!d.value.isHeld || d.after.bytes.isEmpty)

/-- The levels at the beginning. -/
def noLevels : Nat → JsonLevel := fun _ => ⟨[], none⟩

/-- White space is spaces of C. -/
theorem all_isspace (w : Blank) :
  w.bytes.all isspace = true
  := by
  rw [List.all_eq_true]
  intro c hc
  have hblank := w.blank c hc
  simp only [isBlank, Bool.or_eq_true, decide_eq_true_eq, or_assoc] at hblank
  rcases hblank with rfl | rfl | rfl | rfl <;> decide

/-- A document is read, and its leaves are found. -/
theorem readText_document {dec : Bool} {d : JsonDocument} (h : d.isRead dec = true)
    (hnesting : 1 + d.value.nesting < jsonMaxNested) {plain : Prop}
    (hp : plain → dec = false ∨ d.value.plainNames = true) :
  ∃ r, readText dec d.render = some r
    ∧ Finds plain (startReader d.render) r (d.value.leaves dec noLevels 0)
  := by
  simp only [JsonDocument.isRead, Bool.and_eq_true, Bool.not_eq_true', Bool.or_eq_true,
    List.isEmpty_iff] at h
  obtain ⟨⟨hread, harray⟩, hheld⟩ := h
  have hvalue : ValueRead dec plain d.value := partRead d.value hread hp
  obtain ⟨r, hr, hfinds, hbehind⟩ := @enter_value _ _ _ hvalue d.before (d.render.length + 1) 0 0
    (startReader d.render) d.after.bytes (by omega) rfl le_rfl (by rw [harray]; simp)
    (endsNumber_bytes d.after) (by simp [startReader, JsonDocument.render]) (Nat.lt_succ_self _)
    (fun _ _ => rfl)
  rw [readText, hr, Option.bind_some, finishReader, hbehind.held, hbehind.rest]
  cases hh : d.value.isHeld with
  | true =>
    rw [hh] at hheld
    have hafter : d.after.bytes = [] := by simpa using hheld
    rw [if_pos rfl, if_pos hafter]
    exact ⟨r, rfl, hfinds⟩
  | false =>
    have hblank : d.after.bytes.all isBlank = true := List.all_eq_true.mpr d.after.blank
    rw [if_neg (by simp), if_pos (all_isspace d.after), hblank]
    refine ⟨_, rfl, ?_, hfinds.leaves⟩
    rw [JsonReader.check, Bool.and_true, hfinds.sound]

/-- No other document is read. -/
theorem isRead_of_readText {dec : Bool} {d : JsonDocument} {r : JsonReader}
    (h : readText dec d.render = some r) :
  d.isRead dec = true ∧ 1 + d.value.nesting < jsonMaxNested
  := by
  obtain ⟨r₁, hcall, hfinish⟩ := Option.bind_eq_some_iff.mp h
  rcases enter_cases 0 (startReader d.render)
    (fun depth r => readJson dec (d.render.length + 1) depth .value r) with henter | ⟨hdepth, henter⟩
  · rw [henter] at hcall
    cases hcall
  · rw [henter] at hcall
    have hskip := @readJson_skip dec (d.render.length + 1) (0 + 1)
      { startReader d.render with top := (startReader d.render).top + 1 }
      (d.value.render ++ d.after.bytes) .value d.before (by simp [render_ne_nil d.value])
      (by simp [startReader, JsonDocument.render])
    rcases hskip with hnone | ⟨b, hskip⟩
    · rw [hnone] at hcall
      cases hcall
    · rw [hskip] at hcall
      generalize hr : JsonReader.next _ _ = r₀ at hcall
      have hrest : r₀.rest = d.value.render ++ d.after.bytes := by rw [← hr]; rfl
      have htop : r₀.top = 1 := by rw [← hr]; rfl
      have hheld : r₁.held = true → r₁.rest = [] := by
        intro hheld
        rw [finishReader, if_pos hheld] at hfinish
        by_contra hne
        rw [if_neg hne] at hfinish
        cases hfinish
      rw [JsonDocument.isRead]
      cases hv : d.value with
      | scalar s =>
        rw [hv] at hrest
        refine ⟨?_, hdepth⟩
        cases s with
        | literal l =>
          rw [readJson_literal l hrest] at hcall
          obtain rfl := Option.some.inj hcall
          have hafter := hheld rfl
          rw [JsonReader.scalar, hrest] at hafter
          change List.drop l.render.length (l.render ++ d.after.bytes) = [] at hafter
          rw [List.drop_left] at hafter
          simp [Json.isRead, JsonScalar.isRead, Json.isArray, hafter]
        | number n =>
          rw [readJson_number n (endsNumber_bytes d.after) hrest] at hcall
          obtain rfl := Option.some.inj hcall
          have hafter := hheld rfl
          rw [JsonReader.scalar, hrest] at hafter
          change List.drop n.render.length (n.render ++ d.after.bytes) = [] at hafter
          rw [List.drop_left] at hafter
          simp [Json.isRead, JsonScalar.isRead, Json.isArray, hafter]
        | string s =>
          have hstring := readString_render dec s d.after.bytes
          have hcons : r₀.rest = '"'.toUInt8 :: (s.content ++ ['"'.toUInt8] ++ d.after.bytes) := hrest
          rw [readJson_string hcons, hrest] at hcall
          change (readString dec (s.render ++ d.after.bytes)).bind _ = _ at hcall
          cases hread : s.read dec with
          | none =>
            rw [hread] at hstring
            rw [hstring] at hcall
            cases hcall
          | some bs => simp [Json.isRead, JsonScalar.isRead, hread, Json.isArray, Json.isHeld,
              JsonScalar.isHeld]
      | emptyArray w =>
        rw [hv] at hrest
        simp only [Json.render, List.append_assoc, List.cons_append, List.nil_append] at hrest
        rw [readJson_beginArray hrest, if_pos (le_of_eq htop)] at hcall
        cases hcall
      | array es =>
        rw [hv] at hrest
        simp only [Json.render, List.append_assoc, List.cons_append, List.nil_append] at hrest
        rw [readJson_beginArray hrest, if_pos (le_of_eq htop)] at hcall
        cases hcall
      | emptyObject w =>
        rw [hv] at hrest
        rw [readJson_emptyObject w hrest] at hcall
        cases hcall
      | object ms =>
        rw [hv] at hrest
        simp only [Json.render, List.append_assoc, List.cons_append, List.nil_append] at hrest
        rw [readJson_beginObject hrest] at hcall
        have hms : MembersLeft dec ms := partLeft dec ms
        obtain ⟨hfits, -⟩ := hms rfl hcall
        obtain ⟨hread, hnesting⟩ := fits_object.mpr hfits
        exact ⟨by simp [hread, Json.isArray, Json.isHeld], by simpa using hnesting⟩

end Vely
