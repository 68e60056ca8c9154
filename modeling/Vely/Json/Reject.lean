import Vely.Json.Document

/-!
# Documents that are not read

An empty array is not read as one: the bracket that closes it ends the call for its first element,
and the call for the array itself goes on behind it as if an element had been read.  So there is a
call too many, and it stays until what follows the array in an object does not fit.  Here it is
shown that every document with something empty in it, a string that is not read, or too many levels,
is not read.
-/

namespace Vely

/-- The calls for arrays that go on one after the other behind an element, each with its bound and
its depth. -/
def runFrames (dec : Bool) (fs : List (Nat × Nat)) (r : JsonReader) : Option JsonReader :=
  fs.foldlM (fun r f => readJson dec f.1 f.2 .element r) r

/-- Nothing is read, or at least `n` calls for arrays go on with `t`. -/
def Left (dec : Bool) (t : List UInt8) (n : Nat) (x : Option JsonReader) : Prop :=
  ∀ r', x = some r' → ∃ r fs, n ≤ fs.length ∧ r.rest = t ∧ runFrames dec fs r = some r'

section Left

variable {dec : Bool} {t t' : List UInt8} {n m : Nat} {x : Option JsonReader}

theorem left_none :
  Left dec t n none
  := by
  intro r' h
  cases h

theorem left_some {r : JsonReader} (h : r.rest = t) :
  Left dec t 0 (some r)
  := by
  intro r' h'
  exact ⟨r, [], le_rfl, h, h'⟩

theorem Left.mono (h : Left dec t n x) (hm : m ≤ n) :
  Left dec t m x
  := by
  intro r' hx
  obtain ⟨r, fs, hle, hr, hrun⟩ := h r' hx
  exact ⟨r, fs, hm.trans hle, hr, hrun⟩

theorem runFrames_append (fs gs : List (Nat × Nat)) (r : JsonReader) :
  runFrames dec (fs ++ gs) r = (runFrames dec fs r).bind (runFrames dec gs)
  := List.foldlM_append

theorem runFrames_cons (f : Nat × Nat) (fs : List (Nat × Nat)) (r : JsonReader) :
  runFrames dec (f :: fs) r = (readJson dec f.1 f.2 .element r).bind (runFrames dec fs)
  := List.foldlM_cons

/-- Either no call goes on, or at least one does. -/
theorem Left.zero_or_one (h : Left dec t 0 x) :
  (∃ r, r.rest = t ∧ x = some r) ∨ Left dec t 1 x
  := by
  cases x with
  | none => exact .inr left_none
  | some r₁ =>
    obtain ⟨r, fs, -, hr, hrun⟩ := h r₁ rfl
    cases fs with
    | nil =>
      obtain rfl : r = r₁ := Option.some.inj hrun
      exact .inl ⟨r, hr, rfl⟩
    | cons f fs =>
      right
      intro r' hr'
      obtain rfl := Option.some.inj hr'
      exact ⟨r, f :: fs, by simp, hr, hrun⟩

/-- One more call for an array goes on behind the others. -/
theorem Left.bind (h : Left dec t n x) (bound depth : Nat) :
  Left dec t (n + 1) (x.bind (fun r => readJson dec bound depth .element r))
  := by
  intro r' hx
  obtain ⟨r₁, hr₁, hr'⟩ := Option.bind_eq_some_iff.mp hx
  obtain ⟨r, fs, hle, hr, hrun⟩ := h r₁ hr₁
  refine ⟨r, fs ++ [(bound, depth)], ?_, hr, ?_⟩
  · rw [List.length_append, List.length_singleton]
    omega
  · rw [runFrames_append, hrun, Option.bind_some, runFrames_cons, hr']
    rfl

/-- The first call goes on, and others may be left of it. -/
theorem Left.step (h : Left dec t (n + 1) x)
    (hstep : ∀ bound depth r, r.rest = t → Left dec t' m (readJson dec bound depth .element r)) :
  Left dec t' (m + n) x
  := by
  intro r' hx
  obtain ⟨r, fs, hle, hr, hrun⟩ := h r' hx
  cases fs with
  | nil => simp at hle
  | cons f fs =>
    rw [runFrames_cons] at hrun
    obtain ⟨r₁, hr₁, hrun⟩ := Option.bind_eq_some_iff.mp hrun
    obtain ⟨r₂, gs, hgs, hr₂, hrun'⟩ := hstep f.1 f.2 r hr r₁ hr₁
    refine ⟨r₂, gs ++ fs, ?_, hr₂, ?_⟩
    · rw [List.length_cons] at hle
      rw [List.length_append]
      omega
    · rw [runFrames_append, hrun', Option.bind_some, hrun]

/-- The first call cannot go on. -/
theorem Left.stop (h : Left dec t (n + 1) x)
    (hstop : ∀ bound depth r, r.rest = t → readJson dec bound depth .element r = none) :
  x = none
  := by
  cases x with
  | none => rfl
  | some r' =>
    obtain ⟨r, fs, hle, hr, hrun⟩ := h r' rfl
    cases fs with
    | nil => simp at hle
    | cons f fs =>
      rw [runFrames_cons, hstop f.1 f.2 r hr] at hrun
      cases hrun

end Left

/-! ### What follows an element or a value -/

section Tails

variable {dec : Bool} {bound depth : Nat} {r : JsonReader} {s t : List UInt8}

/-- White space is passed, if the bound is enough. -/
theorem readJson_skip {mode : JsonMode} (w : Blank) (hs : s ≠ []) (hr : r.rest = w.bytes ++ s) :
  readJson dec bound depth mode r = none
    ∨ ∃ bound', readJson dec bound depth mode r = readJson dec (bound' + 1) depth mode (r.next s)
  := by
  obtain ⟨ws, hws⟩ := w
  simp only at hr
  induction ws generalizing r bound with
  | nil =>
    rw [List.nil_append] at hr
    cases bound with
    | zero => exact .inl rfl
    | succ bound => exact .inr ⟨bound, by rw [← hr, readJson_held (by rwa [hr])]⟩
  | cons c ws ih =>
    cases bound with
    | zero => exact .inl rfl
    | succ bound =>
      have hstep : readJson dec (bound + 1) depth mode r
          = readJson dec bound depth mode (r.next (ws ++ s)) := by
        rw [readJson, hr, List.cons_append]
        simp only [jsonToken_blank (hws c (by simp))]
        rfl
      rw [hstep]
      exact @ih bound (r.next (ws ++ s)) (fun d hd => hws d (by simp [hd])) rfl

/-- A call for a value, unless there are too many. -/
theorem enter_cases (depth : Nat) (r : JsonReader) (call : Nat → JsonReader → Option JsonReader) :
  r.enter depth call = none
    ∨ depth + 1 < jsonMaxNested ∧ r.enter depth call = call (depth + 1) { r with top := r.top + 1 }
  := by
  rw [JsonReader.enter]
  split
  · exact .inl rfl
  · exact .inr ⟨by omega, rfl⟩

/-- The end of an array. -/
theorem left_endArray (w : Blank) (hr : r.rest = w.bytes ++ ']'.toUInt8 :: t) :
  Left dec t 0 (readJson dec bound depth .element r)
  := by
  rcases @readJson_skip dec bound depth r _ .element w (by simp) hr with h | ⟨b, h⟩
  · rw [h]
    exact left_none
  · rw [h, readJson_endArray rfl]
    exact left_some rfl

/-- The end of an object is no end of an array. -/
theorem readJson_element_endObject (w : Blank) (hr : r.rest = w.bytes ++ '}'.toUInt8 :: t) :
  readJson dec bound depth .element r = none
  := by
  rcases @readJson_skip dec bound depth r _ .element w (by simp) hr with h | ⟨b, h⟩
  · exact h
  · rw [h, readJson]
    rfl

/-- A colon is no end of an array. -/
theorem readJson_element_nameSeparator (w : Blank) (hr : r.rest = w.bytes ++ ':'.toUInt8 :: t) :
  readJson dec bound depth .element r = none
  := by
  rcases @readJson_skip dec bound depth r _ .element w (by simp) hr with h | ⟨b, h⟩
  · exact h
  · rw [h, readJson]
    rfl

/-- A member of an object is no element of an array. -/
theorem readJson_element_member (w w₁ w₂ : Blank) (name : JsonString)
    (hr : r.rest = w.bytes ++ ','.toUInt8
      :: (w₁.bytes ++ (name.render ++ (w₂.bytes ++ ':'.toUInt8 :: t)))) :
  readJson dec bound depth .element r = none
  := by
  rcases @readJson_skip dec bound depth r _ .element w (by simp) hr with h | ⟨b, h⟩
  · exact h
  · rw [h, readJson_nextElement rfl]
    obtain ⟨r₁, hr₁⟩ : ∃ r₁, r₁ = ((r.next (','.toUInt8 :: (w₁.bytes ++ (name.render
        ++ (w₂.bytes ++ ':'.toUInt8 :: t))))).next (w₁.bytes ++ (name.render
        ++ (w₂.bytes ++ ':'.toUInt8 :: t)))).bump ((r.next (','.toUInt8 :: (w₁.bytes ++ (name.render
        ++ (w₂.bytes ++ ':'.toUInt8 :: t))))).top - 1) := ⟨_, rfl⟩
    rw [← hr₁]
    rcases enter_cases depth r₁ (fun d r => readJson dec b d .value r) with h | ⟨-, h⟩
    · rw [h, Option.bind_none]
    · rw [h]
      -- the name is read as a value, and the colon behind it does not fit
      have hskip := @readJson_skip dec b (depth + 1) { r₁ with top := r₁.top + 1 }
        (name.render ++ (w₂.bytes ++ ':'.toUInt8 :: t)) .value w₁ (by simp) (by rw [hr₁]; rfl)
      rcases hskip with h | ⟨b, h⟩
      · rw [h, Option.bind_none]
      · have hstring := readString_render dec name (w₂.bytes ++ ':'.toUInt8 :: t)
        rw [h, readJson_string (s := name.content ++ ['"'.toUInt8] ++ (w₂.bytes ++ ':'.toUInt8 :: t)) rfl]
        change ((readString dec (name.render ++ (w₂.bytes ++ ':'.toUInt8 :: t))).bind _).bind _ = none
        cases hname : name.read dec with
        | none =>
          rw [hname] at hstring
          rw [hstring, Option.bind_none, Option.bind_none]
        | some bs =>
          rw [hname] at hstring
          obtain ⟨text, hstring, -⟩ := hstring
          rw [hstring, Option.bind_some, Option.bind_some]
          apply readJson_element_nameSeparator w₂ rfl

end Tails

/-! ### Parts -/

/-- Whether a part is read in a call at the given depth. -/
def Fits (dec : Bool) (depth : Nat) {k : JsonPart} (p : Json k) : Prop :=
  p.isRead dec = true ∧ depth + p.nesting < jsonMaxNested

/-- What is left of a value that does not fit. -/
def ValueLeft (dec : Bool) (v : Json .value) : Prop :=
  ∀ {bound depth : Nat} {r : JsonReader} {t : List UInt8}, depth < jsonMaxNested → EndsNumber t →
    r.rest = v.render ++ t →
    Left dec t 0 (readJson dec bound depth .value r)
      ∧ (¬ Fits dec depth v → Left dec t 1 (readJson dec bound depth .value r))

/-- What is left of the elements of an array that do not fit. -/
def ElementsLeft (dec : Bool) (es : Json .elements) : Prop :=
  ∀ {bound depth : Nat} {r : JsonReader} {t : List UInt8}, r.rest = es.render ++ ']'.toUInt8 :: t →
    Left dec t 0 ((r.enter depth (fun d r => readJson dec bound d .value r)).bind
        (fun r => readJson dec bound depth .element r))
      ∧ (¬ Fits dec (depth + 1) es →
        Left dec t 1 ((r.enter depth (fun d r => readJson dec bound d .value r)).bind
          (fun r => readJson dec bound depth .element r)))

/-- Members of an object that do not fit are not read. -/
def MembersLeft (dec : Bool) (ms : Json .members) : Prop :=
  ∀ {bound depth : Nat} {r r' : JsonReader} {t : List UInt8}, r.rest = ms.render ++ '}'.toUInt8 :: t →
    readJson dec bound depth .name r = some r' → Fits dec (depth + 1) ms ∧ r'.rest = t

section Parts

variable {dec : Bool}

theorem fits_array {depth : Nat} {es : Json .elements} :
  Fits dec depth (Json.array es) ↔ Fits dec (depth + 1) es
  := by
  rw [Fits, Fits, Json.nesting, Json.isRead, Nat.add_right_comm, Nat.add_assoc]

theorem fits_object {depth : Nat} {ms : Json .members} :
  Fits dec depth (Json.object ms) ↔ Fits dec (depth + 1) ms
  := by
  rw [Fits, Fits, Json.nesting, Json.isRead, Nat.add_right_comm, Nat.add_assoc]

theorem fits_elements {depth : Nat} {v : Json .value} {es : Json .elements} (w w' : Blank) :
  Fits dec depth (Json.elements w v w' es) ↔ Fits dec depth v ∧ Fits dec depth es
  := by
  simp only [Fits, Json.nesting, Json.isRead, Bool.and_eq_true]
  constructor
  · rintro ⟨⟨h, h'⟩, hd⟩
    exact ⟨⟨h, by omega⟩, h', by omega⟩
  · rintro ⟨⟨h, hd⟩, h', hd'⟩
    exact ⟨⟨h, h'⟩, by omega⟩

theorem fits_members {depth : Nat} {v : Json .value} {ms : Json .members} {name : JsonString}
    (w₁ w₂ w₃ w₄ : Blank) :
  Fits dec depth (Json.members w₁ name w₂ w₃ v w₄ ms)
    ↔ (name.read dec).isSome = true ∧ Fits dec depth v ∧ Fits dec depth ms
  := by
  simp only [Fits, Json.nesting, Json.isRead, Bool.and_eq_true]
  constructor
  · rintro ⟨⟨⟨hname, h⟩, h'⟩, hd⟩
    exact ⟨hname, ⟨h, by omega⟩, h', by omega⟩
  · rintro ⟨hname, ⟨h, hd⟩, h', hd'⟩
    exact ⟨⟨⟨hname, h⟩, h'⟩, by omega⟩

theorem valueLeft_scalar (s : JsonScalar) :
  ValueLeft dec (.scalar s)
  := by
  intro bound depth r t hdepth hends hrest
  cases bound with
  | zero => exact ⟨left_none, fun _ => left_none⟩
  | succ bound =>
    have hscalar : ∀ {type : JsonType} {text : List UInt8}, r.rest = text ++ t →
        Left dec t 0 (some (r.scalar type text.length)) := by
      intro type text htext
      apply left_some
      rw [JsonReader.scalar, htext, List.drop_left]
    cases s with
    | literal l =>
      rw [readJson_literal l hrest]
      exact ⟨hscalar hrest, fun h => absurd ⟨rfl, hdepth⟩ h⟩
    | number n =>
      rw [readJson_number n hends hrest]
      exact ⟨hscalar hrest, fun h => absurd ⟨rfl, hdepth⟩ h⟩
    | string s =>
      have hstring := readString_render dec s t
      have hcons : r.rest = '"'.toUInt8 :: (s.content ++ ['"'.toUInt8] ++ t) := hrest
      rw [readJson_string hcons, hrest]
      change Left dec t 0 ((readString dec (s.render ++ t)).bind _)
        ∧ (_ → Left dec t 1 ((readString dec (s.render ++ t)).bind _))
      cases hread : s.read dec with
      | none =>
        rw [hread] at hstring
        rw [hstring]
        exact ⟨left_none, fun _ => left_none⟩
      | some bs =>
        rw [hread] at hstring
        obtain ⟨name, hstring, -⟩ := hstring
        rw [hstring]
        refine ⟨left_some rfl, fun h => absurd ⟨?_, hdepth⟩ h⟩
        simp only [Json.isRead, JsonScalar.isRead, hread]
        rfl

/-- The bracket that closes an empty array ends the call for its first element. -/
theorem valueLeft_emptyArray (w : Blank) :
  ValueLeft dec (.emptyArray w)
  := by
  intro bound depth r t hdepth _ hrest
  have hleft : Left dec t 1 (readJson dec bound depth .value r) := by
    cases bound with
    | zero => exact left_none
    | succ bound =>
      simp only [Json.render, List.append_assoc, List.cons_append, List.nil_append] at hrest
      rw [readJson_beginArray hrest]
      split
      · exact left_none
      · apply Left.bind
        generalize hr₁ : JsonReader.bump _ _ = r₁
        rcases enter_cases depth r₁ (fun d r => readJson dec bound d .value r) with h | ⟨-, h⟩
        · rw [h]
          exact left_none
        · rw [h]
          have hskip := @readJson_skip dec bound (depth + 1) { r₁ with top := r₁.top + 1 }
            (']'.toUInt8 :: t) .value w (by simp) (by rw [← hr₁]; rfl)
          rcases hskip with h | ⟨b, h⟩
          · rw [h]
            exact left_none
          · rw [h, readJson]
            exact left_some rfl
  exact ⟨hleft.mono (by omega), fun _ => hleft⟩

theorem readJson_emptyObject (w : Blank) {bound depth : Nat} {r : JsonReader} {t : List UInt8}
    (hrest : r.rest = (Json.emptyObject w).render ++ t) :
  readJson dec bound depth .value r = none
  := by
  cases bound with
  | zero => rfl
  | succ bound =>
    simp only [Json.render, List.append_assoc, List.cons_append, List.nil_append] at hrest
    rw [readJson_beginObject hrest]
    rcases @readJson_skip dec bound depth (r.next (w.bytes ++ '}'.toUInt8 :: t)) ('}'.toUInt8 :: t)
      .name w (by simp) rfl with h | ⟨b, h⟩
    · exact h
    · rw [h, readJson]
      rfl

theorem valueLeft_emptyObject (w : Blank) :
  ValueLeft dec (.emptyObject w)
  := by
  intro bound depth r t hdepth _ hrest
  rw [readJson_emptyObject w hrest]
  exact ⟨left_none, fun _ => left_none⟩

theorem valueLeft_array {es : Json .elements} (hes : ElementsLeft dec es) :
  ValueLeft dec (.array es)
  := by
  intro bound depth r t hdepth _ hrest
  cases bound with
  | zero => exact ⟨left_none, fun _ => left_none⟩
  | succ bound =>
    simp only [Json.render, List.append_assoc, List.cons_append, List.nil_append] at hrest
    rw [readJson_beginArray hrest, fits_array]
    split
    · exact ⟨left_none, fun _ => left_none⟩
    · exact hes rfl

theorem valueLeft_object {ms : Json .members} (hms : MembersLeft dec ms) :
  ValueLeft dec (.object ms)
  := by
  intro bound depth r t hdepth _ hrest
  cases bound with
  | zero => exact ⟨left_none, fun _ => left_none⟩
  | succ bound =>
    simp only [Json.render, List.append_assoc, List.cons_append, List.nil_append] at hrest
    rw [readJson_beginObject hrest, fits_object]
    cases hread : readJson dec bound depth .name (r.next (ms.render ++ '}'.toUInt8 :: t)) with
    | none => exact ⟨left_none, fun _ => left_none⟩
    | some r' =>
      obtain ⟨hms', hrest'⟩ := hms (r := r.next (ms.render ++ '}'.toUInt8 :: t)) rfl hread
      exact ⟨left_some hrest', fun h => absurd hms' h⟩

/-- What is left of a value behind a call for it. -/
theorem enter_left {v : Json .value} (hv : ValueLeft dec v) (w : Blank) {bound depth : Nat}
    {r : JsonReader} {t : List UInt8} (hends : EndsNumber t)
    (hrest : r.rest = w.bytes ++ (v.render ++ t)) :
  Left dec t 0 (r.enter depth (fun d r => readJson dec bound d .value r))
    ∧ (¬ Fits dec (depth + 1) v →
      Left dec t 1 (r.enter depth (fun d r => readJson dec bound d .value r)))
  := by
  rcases enter_cases depth r (fun d r => readJson dec bound d .value r) with h | ⟨hdepth, h⟩
  · rw [h]
    exact ⟨left_none, fun _ => left_none⟩
  · rw [h]
    have hskip := @readJson_skip dec bound (depth + 1) { r with top := r.top + 1 } (v.render ++ t)
      .value w (by simp [render_ne_nil v]) hrest
    rcases hskip with h | ⟨b, h⟩
    · rw [h]
      exact ⟨left_none, fun _ => left_none⟩
    · rw [h]
      exact hv hdepth hends rfl

theorem elementsLeft_element {v : Json .value} (hv : ValueLeft dec v) (w w' : Blank) :
  ElementsLeft dec (.element w v w')
  := by
  intro bound depth r t hrest
  simp only [Json.render, List.append_assoc] at hrest
  obtain ⟨hleft, hunfit⟩ := @enter_left dec v hv w bound depth r _
    (endsNumber_blank w' ⟨by decide, by decide, by decide, by decide⟩) hrest
  have hstep : ∀ bound depth r, r.rest = w'.bytes ++ ']'.toUInt8 :: t →
      Left dec t 0 (readJson dec bound depth .element r) := fun _ _ _ => left_endArray w'
  exact ⟨(hleft.bind bound depth).step hstep, fun h => ((hunfit h).bind bound depth).step hstep⟩

theorem elementsLeft_elements {v : Json .value} {es : Json .elements} (hv : ValueLeft dec v)
    (hes : ElementsLeft dec es) (w w' : Blank) :
  ElementsLeft dec (.elements w v w' es)
  := by
  intro bound depth r t hrest
  simp only [Json.render, List.append_assoc, List.cons_append] at hrest
  obtain ⟨hleft, hunfit⟩ := @enter_left dec v hv w bound depth r _
    (endsNumber_blank w' ⟨by decide, by decide, by decide, by decide⟩) hrest
  have hstep : ∀ bound depth r, r.rest = w'.bytes ++ ','.toUInt8 :: (es.render ++ ']'.toUInt8 :: t) →
      Left dec t 0 (readJson dec bound depth .element r)
      ∧ (¬ Fits dec (depth + 1) es → Left dec t 1 (readJson dec bound depth .element r)) := by
    intro bound depth r hr
    rcases @readJson_skip dec bound depth r _ .element w' (by simp) hr with h | ⟨b, h⟩
    · rw [h]
      exact ⟨left_none, fun _ => left_none⟩
    · rw [h, readJson_nextElement rfl]
      exact hes rfl
  have hall : ∀ bound depth r, r.rest = w'.bytes ++ ','.toUInt8 :: (es.render ++ ']'.toUInt8 :: t) →
      Left dec t 0 (readJson dec bound depth .element r) := fun b d r hr => (hstep b d r hr).1
  refine ⟨(hleft.bind bound depth).step hall, ?_⟩
  intro hnot
  rw [fits_elements] at hnot
  by_cases hfits : Fits dec (depth + 1) v
  · have hes' : ¬ Fits dec (depth + 1) es := fun h => hnot ⟨hfits, h⟩
    rcases hleft.zero_or_one with ⟨r₁, hr₁, hcall⟩ | hmore
    · rw [hcall, Option.bind_some]
      exact (hstep bound depth r₁ hr₁).2 hes'
    · exact (hmore.bind bound depth).step hall
  · exact ((hunfit hfits).bind bound depth).step hall

/-- The members of an object start with a name and a colon. -/
theorem exists_name (ms : Json .members) :
  ∃ (w : Blank) (name : JsonString) (w' : Blank) (u : List UInt8),
    ms.render = w.bytes ++ (name.render ++ (w'.bytes ++ ':'.toUInt8 :: u))
  := by
  cases ms with
  | member w name w' w₃ v w₄ => exact ⟨w, name, w', _, by simp [Json.render]; rfl⟩
  | members w name w' w₃ v w₄ ms => exact ⟨w, name, w', _, by simp [Json.render]; rfl⟩

/-- What is left of a name and its value. -/
theorem member_left {v : Json .value} (hv : ValueLeft dec v) {name : JsonString} (w₁ w₂ w₃ : Blank)
    {bound depth : Nat} {r r' : JsonReader} {u : List UInt8} (hends : EndsNumber u)
    (hrest : r.rest = w₁.bytes ++ (name.render ++ (w₂.bytes
      ++ ':'.toUInt8 :: (w₃.bytes ++ (v.render ++ u)))))
    (hread : readJson dec bound depth .name r = some r') :
  (name.read dec).isSome = true ∧ ∃ bound' x, x.bind (readJson dec bound' depth .member) = some r'
    ∧ Left dec u 0 x ∧ (¬ Fits dec (depth + 1) v → Left dec u 1 x)
  := by
  rcases @readJson_skip dec bound depth r _ .name w₁ (by simp [JsonString.render]) hrest
    with h | ⟨b, h⟩
  · rw [h] at hread
    cases hread
  · have hstring := readString_render dec name
      (w₂.bytes ++ ':'.toUInt8 :: (w₃.bytes ++ (v.render ++ u)))
    rw [h, readJson_name (s := name.content ++ ['"'.toUInt8] ++ (w₂.bytes ++ ':'.toUInt8
      :: (w₃.bytes ++ (v.render ++ u)))) rfl] at hread
    change (readString dec (name.render ++ (w₂.bytes ++ ':'.toUInt8
      :: (w₃.bytes ++ (v.render ++ u))))).bind _ = some r' at hread
    cases hname : name.read dec with
    | none =>
      rw [hname] at hstring
      rw [hstring] at hread
      cases hread
    | some bs =>
      rw [hname] at hstring
      obtain ⟨text, hstring, -⟩ := hstring
      rw [hstring, Option.bind_some] at hread
      generalize hr₁ : JsonReader.check _ _ = r₁ at hread
      refine ⟨rfl, ?_⟩
      rcases @readJson_skip dec b depth r₁ (':'.toUInt8 :: (w₃.bytes ++ (v.render ++ u))) .colon w₂
        (by simp) (by rw [← hr₁]; rfl) with h | ⟨b', h⟩
      · rw [h] at hread
        cases hread
      · rw [h, readJson_nameSeparator rfl] at hread
        exact ⟨b', _, hread, enter_left hv w₃ hends rfl⟩

theorem membersLeft_member {v : Json .value} (hv : ValueLeft dec v) (name : JsonString)
    (w₁ w₂ w₃ w₄ : Blank) :
  MembersLeft dec (.member w₁ name w₂ w₃ v w₄)
  := by
  intro bound depth r r' t hrest hread
  simp only [Json.render, List.append_assoc, List.cons_append] at hrest
  obtain ⟨hname, bound', x, hx, hleft, hunfit⟩ := member_left hv w₁ w₂ w₃
    (endsNumber_blank w₄ ⟨by decide, by decide, by decide, by decide⟩) hrest hread
  have hstop : ∀ {x}, Left dec (w₄.bytes ++ '}'.toUInt8 :: t) 1 x → x = none :=
    fun h => h.stop (fun _ _ _ => readJson_element_endObject w₄)
  have hfits : Fits dec (depth + 1) v := by
    by_contra h
    rw [hstop (hunfit h)] at hx
    cases hx
  refine ⟨⟨?_, hfits.2⟩, ?_⟩
  · rw [Json.isRead, hname, hfits.1]
    rfl
  · rcases hleft.zero_or_one with ⟨r₁, hr₁, rfl⟩ | hmore
    · rw [Option.bind_some] at hx
      rcases @readJson_skip dec bound' depth r₁ _ .member w₄ (by simp) hr₁ with h | ⟨b, h⟩
      · rw [h] at hx
        cases hx
      · rw [h, readJson_endObject rfl] at hx
        obtain rfl := Option.some.inj hx
        rfl
    · rw [hstop hmore] at hx
      cases hx

theorem membersLeft_members {v : Json .value} {ms : Json .members} (hv : ValueLeft dec v)
    (hms : MembersLeft dec ms) (name : JsonString) (w₁ w₂ w₃ w₄ : Blank) :
  MembersLeft dec (.members w₁ name w₂ w₃ v w₄ ms)
  := by
  intro bound depth r r' t hrest hread
  simp only [Json.render, List.append_assoc, List.cons_append] at hrest
  obtain ⟨hname, bound', x, hx, hleft, hunfit⟩ := member_left hv w₁ w₂ w₃
    (endsNumber_blank w₄ ⟨by decide, by decide, by decide, by decide⟩) hrest hread
  have hstop : ∀ {x}, Left dec (w₄.bytes ++ ','.toUInt8 :: (ms.render ++ '}'.toUInt8 :: t)) 1 x →
      x = none := by
    intro x h
    apply h.stop
    intro bound depth r hr
    obtain ⟨w, name, w', u, hms⟩ := exists_name ms
    apply readJson_element_member (t := u ++ '}'.toUInt8 :: t) w₄ w w' name
    rw [hr, hms]
    simp only [List.append_assoc, List.cons_append]
  have hfits : Fits dec (depth + 1) v := by
    by_contra h
    rw [hstop (hunfit h)] at hx
    cases hx
  rw [fits_members]
  rcases hleft.zero_or_one with ⟨r₁, hr₁, rfl⟩ | hmore
  · rw [Option.bind_some] at hx
    rcases @readJson_skip dec bound' depth r₁ _ .member w₄ (by simp) hr₁ with h | ⟨b, h⟩
    · rw [h] at hx
      cases hx
    · rw [h, readJson_nextMember rfl] at hx
      obtain ⟨hfits', hrest'⟩ := hms rfl hx
      exact ⟨⟨hname, hfits, hfits'⟩, hrest'⟩
  · rw [hstop hmore] at hx
    cases hx

end Parts

/-- What is left of a part that does not fit. -/
def PartLeft (dec : Bool) : {k : JsonPart} → Json k → Prop
  | .value, v => ValueLeft dec v
  | .elements, es => ElementsLeft dec es
  | .members, ms => MembersLeft dec ms

theorem partLeft (dec : Bool) :
    ∀ {k : JsonPart} (p : Json k), PartLeft dec p
  | _, .scalar s => valueLeft_scalar s
  | _, .emptyArray w => valueLeft_emptyArray w
  | _, .array es => valueLeft_array (partLeft dec es)
  | _, .emptyObject w => valueLeft_emptyObject w
  | _, .object ms => valueLeft_object (partLeft dec ms)
  | _, .element w v w' => elementsLeft_element (partLeft dec v) w w'
  | _, .elements w v w' es => elementsLeft_elements (partLeft dec v) (partLeft dec es) w w'
  | _, .member w₁ name w₂ w₃ v w₄ => membersLeft_member (partLeft dec v) name w₁ w₂ w₃ w₄
  | _, .members w₁ name w₂ w₃ v w₄ ms =>
    membersLeft_members (partLeft dec v) (partLeft dec ms) name w₁ w₂ w₃ w₄

end Vely
