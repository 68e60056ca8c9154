import Vely.Json.Repeat

/-!
# The stack of names

Where the calls of `vely_json_new` stand in a run, which elements of the stack of names they access
there, and with how many levels they return.  A call that was entered with `level` levels has one
more while it looks for a value or goes over an object, and as many when it goes over an array.
-/

namespace Vely

/-! ### What is accessed -/

/-- Whether an index is one of the stack. -/
def InStack (k : Int) : Prop := 0 ≤ k ∧ k < jsonMaxNested

/-- What `VV_ADD_JSON` accesses: the levels of the name, and for the handler the one behind them. -/
def leafAccesses (cfg : JsonConfig) (listC : Int) : List Int :=
  (if cfg.usehash ∧ listC ≠ 0 then (List.range listC.toNat).map Int.ofNat else [])
    ++ (if cfg.nodeHandler.isSome then [listC] else [])

/-- The indices of the stack that are accessed at a token. -/
def stackAccesses (cfg : JsonConfig) (fl : JsonFlags) (st : JsonState) : JsonToken → List Int
  | .beginArray =>
    if fl.unmet [.colon, .commaOrEndArray, .commaOrEndObject, .name] = none then [st.listC - 1]
    else []
  | .endArray => if fl.unmet [.colon, .commaOrEndObject, .name] = none then [st.listC] else []
  | .valueSeparator =>
    if fl.unmet [.colon, .name] = none ∧ fl.isobj = false ∧ fl.isarr = true then [st.listC] else []
  | .quote =>
    if fl.unmet [.colon, .commaOrEndArray, .commaOrEndObject] = none then
      match velyJsonToUtf8 (st.val.drop st.i) true cfg.dec with
      | .ok ⟨_, some _, _⟩ => if fl.expectedName then [st.listC] else leafAccesses cfg st.listC
      | _ => []
    else []
  | .digit =>
    if fl.unmet [.colon, .commaOrEndArray, .commaOrEndObject, .name] = none
        ∧ (velyJsonNum (st.val.drop st.i)).isSome = true then leafAccesses cfg st.listC
    else []
  | .word _ word =>
    if fl.unmet [.colon, .commaOrEndArray, .commaOrEndObject, .name] = none
        ∧ (st.val.drop st.i).take word.length = word then leafAccesses cfg st.listC
    else []
  | _ => []

/-! ### Where the calls stand -/

/-- Where the calls of a parse come to: the levels that a call was entered with, its flags and the
state, each time its loop starts over.  A call goes on behind one that it made when that one gives
no error. -/
inductive JsonReach (cfg : JsonConfig) (start : JsonState) : Int → JsonFlags → JsonState → Prop where
  | root {st : JsonState} (h : enterValue start = (st, true)) :
      JsonReach cfg start start.listC {} st
  | loop {level : Int} {fl fl' : JsonFlags} {st st' : JsonState}
      (h : JsonReach cfg start level fl st) (hi : st.i < cfg.len)
      (hnext : tokenNext cfg fl st.nchar.2 (jsonToken st.nchar.1) = .ok (.loop fl' st')) :
      JsonReach cfg start level fl' st'
  | call {level : Int} {fl after : JsonFlags} {st st' entered : JsonState}
      (h : JsonReach cfg start level fl st) (hi : st.i < cfg.len)
      (hnext : tokenNext cfg fl st.nchar.2 (jsonToken st.nchar.1) = .ok (.call st' after))
      (henter : enterValue st' = (entered, true)) : JsonReach cfg start st'.listC {} entered
  | back {level : Int} {fl after : JsonFlags} {st st' left : JsonState} {bound : Nat}
      (h : JsonReach cfg start level fl st) (hi : st.i < cfg.len)
      (hnext : tokenNext cfg fl st.nchar.2 (jsonToken st.nchar.1) = .ok (.call st' after))
      (hcall : callValue (parseLoop cfg bound {}) st' = .ok left) (hec : left.ec = -1) :
      JsonReach cfg start level after left

/-- The state with which a call returns from where it stands. -/
def CallReturns (cfg : JsonConfig) (fl : JsonFlags) (st st' : JsonState) : Prop :=
  if st.i < cfg.len then
    tokenNext cfg fl st.nchar.2 (jsonToken st.nchar.1) = .ok (.endj st')
  else st' = { st with listC := st.listC - 1 }

/-- Where a call stands, it accesses elements of the stack only, and when it returns there without
an error it has the levels that it was entered with. -/
structure StackOk (cfg : JsonConfig) (level : Int) (fl : JsonFlags) (st : JsonState) : Prop where
  accesses : st.i < cfg.len →
    ∀ k ∈ stackAccesses cfg fl st.nchar.2 (jsonToken st.nchar.1), InStack k
  returns : ∀ st', CallReturns cfg fl st st' → st'.ec = -1 → st'.listC = level

/-- A token that does not move the levels: no `[` for the value of the text, no `]` in the place of
a value, no string that is not decoded. -/
def KeepsToken (cfg : JsonConfig) (level : Int) (fl : JsonFlags) (st : JsonState) :
    JsonToken → Prop
  | .beginArray =>
    fl.unmet [.colon, .commaOrEndArray, .commaOrEndObject, .name] = none → level ≠ -1
  | .endArray => fl.unmet [.colon, .commaOrEndObject, .name] = none → fl.isarr = true
  | .quote =>
    fl.unmet [.colon, .commaOrEndArray, .commaOrEndObject] = none →
      ∀ r, velyJsonToUtf8 (st.val.drop st.i) true cfg.dec = .ok r → r.stop.isSome = true
  | _ => True

/-- Where a call stands, nothing moves the levels: no such token, and not the end of the text in an
array. -/
def KeepsLevels (cfg : JsonConfig) (level : Int) (fl : JsonFlags) (st : JsonState) : Prop :=
  if st.i < cfg.len then KeepsToken cfg level fl st.nchar.2 (jsonToken st.nchar.1)
  else fl.isarr = false

/-! ### Levels -/

/-- The levels of a call that was entered with `level` levels. -/
structure HasLevels (level : Int) (fl : JsonFlags) (st : JsonState) : Prop where
  ec : st.ec = -1
  size : st.list.length = jsonMaxNested
  low : -1 ≤ level
  object : fl.isobj = true →
    fl.expectedName = true ∨ fl.expectedColon = true ∨ fl.expectedCommaOrEndObject = true
  value : fl.isarr = false → st.listC = level + 1 ∧ st.listC + 1 < jsonMaxNested
  array : fl.isarr = true → st.listC = level ∧ 0 ≤ level ∧ st.listC + 2 < jsonMaxNested
    ∧ fl.expectedCommaOrEndArray = true ∧ fl.isobj = false

section Levels

variable {cfg : JsonConfig} {level : Int} {fl fl' : JsonFlags} {st st' : JsonState}

/-- The levels of the state are those with the byte that is read taken out. -/
theorem nchar_fields (st : JsonState) :
  st.nchar.2.listC = st.listC ∧ st.nchar.2.ec = st.ec ∧ st.nchar.2.list = st.list
  := by
  rw [JsonState.nchar]
  split
  · exact ⟨rfl, rfl, rfl⟩
  · exact ⟨rfl, rfl, rfl⟩

theorem HasLevels.nchar (h : HasLevels level fl st) :
  HasLevels level fl st.nchar.2
  := by
  obtain ⟨hlist, hec, hsize⟩ := nchar_fields st
  constructor
  · rw [hec]
    exact h.ec
  · rw [hsize]
    exact h.size
  · exact h.low
  · exact h.object
  · rw [hlist]
    exact h.value
  · rw [hlist]
    exact h.array

/-- The flags that are not set. -/
theorem unmet_value (h : fl.unmet [.colon, .commaOrEndArray, .commaOrEndObject, .name] = none) :
  fl.expectedColon = false ∧ fl.expectedCommaOrEndArray = false
    ∧ fl.expectedCommaOrEndObject = false ∧ fl.expectedName = false
  := by
  simpa [JsonFlags.unmet, JsonFlags.expects] using h

theorem unmet_string (h : fl.unmet [.colon, .commaOrEndArray, .commaOrEndObject] = none) :
  fl.expectedColon = false ∧ fl.expectedCommaOrEndArray = false
    ∧ fl.expectedCommaOrEndObject = false
  := by
  simpa [JsonFlags.unmet, JsonFlags.expects] using h

/-- In an array a value is not expected. -/
theorem HasLevels.isarr (h : HasLevels level fl st) (hfl : fl.expectedCommaOrEndArray = false) :
  fl.isarr = false
  := by
  by_contra harr
  rw [Bool.not_eq_false] at harr
  obtain ⟨-, -, -, hcomma, -⟩ := h.array harr
  rw [hfl] at hcomma
  cases hcomma

/-- In an object a value is not expected. -/
theorem HasLevels.isobj (h : HasLevels level fl st) (hcolon : fl.expectedColon = false)
    (hcomma : fl.expectedCommaOrEndObject = false) (hname : fl.expectedName = false) :
  fl.isobj = false
  := by
  by_contra hobj
  rw [Bool.not_eq_false] at hobj
  rcases h.object hobj with h | h | h
  · rw [hname] at h
    cases h
  · rw [hcolon] at h
    cases h
  · rw [hcomma] at h
    cases h

/-- What is kept of the levels by a token. -/
def NextHasLevels (level : Int) : JsonNext → Prop
  | .loop fl st => HasLevels level fl st
  | .call st after => st.ec = -1 ∧ -1 ≤ st.listC
    ∧ ∀ left : JsonState, left.ec = -1 → left.listC = st.listC →
      left.list.length = st.list.length → HasLevels level after left
  | .endj st => st.ec = -1 → st.listC = level

/-- An error moves no levels that count. -/
theorem nextHasLevels_fail (st : JsonState) (errm : String) :
  NextHasLevels level (.endj (st.fail errm))
  := fun hec => absurd hec (ec_fail st errm)

theorem beginObject_levels (h : HasLevels level fl st) :
  NextHasLevels level (beginObject fl st)
  := by
  rw [beginObject]
  cases hfl : fl.unmet [.colon, .name, .commaOrEndArray, .commaOrEndObject] with
  | some errm => exact nextHasLevels_fail st errm
  | none =>
    have harr : fl.isarr = false := by
      apply h.isarr
      have hall : fl.expectedColon = false ∧ fl.expectedName = false
          ∧ fl.expectedCommaOrEndArray = false ∧ fl.expectedCommaOrEndObject = false := by
        simpa [JsonFlags.unmet, JsonFlags.expects] using hfl
      exact hall.2.2.1
    constructor
    · exact h.ec
    · exact h.size
    · exact h.low
    · intro _
      exact .inl rfl
    · exact h.value
    · intro harr'
      rw [harr] at harr'
      cases harr'

theorem endObject_levels (h : HasLevels level fl st) :
  NextHasLevels level (endObject fl st)
  := by
  rw [endObject]
  cases hfl : fl.unmet [.colon, .commaOrEndArray, .name] with
  | some errm => exact nextHasLevels_fail st errm
  | none =>
    have hall : fl.expectedColon = false ∧ fl.expectedCommaOrEndArray = false
        ∧ fl.expectedName = false := by
      simpa [JsonFlags.unmet, JsonFlags.expects] using hfl
    have hlist := (h.value (h.isarr hall.2.1)).1
    intro _
    change st.listC - 1 = level
    omega

theorem beginArray_levels {next : JsonNext} (h : HasLevels level fl st)
    (hroot : fl.unmet [.colon, .commaOrEndArray, .commaOrEndObject, .name] = none → level ≠ -1)
    (hnext : beginArray fl st = .ok next) :
  NextHasLevels level next
  := by
  rw [beginArray] at hnext
  cases hfl : fl.unmet [.colon, .commaOrEndArray, .commaOrEndObject, .name] with
  | some errm =>
    rw [hfl] at hnext
    obtain rfl := Except.ok.inj hnext
    exact nextHasLevels_fail st errm
  | none =>
    rw [hfl] at hnext
    obtain ⟨s, hs, hnext⟩ := exists_of_bind hnext
    obtain rfl := Except.ok.inj hnext
    obtain rfl := modifyNode_eq hs
    obtain ⟨hcolon, harray, hobject, hname⟩ := unmet_value hfl
    obtain ⟨hlist, hlt⟩ := h.value (h.isarr harray)
    have hobj := h.isobj hcolon hobject hname
    have hlevel := hroot hfl
    have hlow := h.low
    refine ⟨h.ec, ?_, ?_⟩
    · change -1 ≤ st.listC - 1
      omega
    · intro left hec hleft hlen
      have hleft : left.listC = st.listC - 1 := hleft
      constructor
      · exact hec
      · exact hlen.trans ((List.length_modify ..).trans h.size)
      · exact hlow
      · intro hobj'
        rw [hobj] at hobj'
        cases hobj'
      · intro harr
        cases harr
      · intro _
        refine ⟨by omega, by omega, by omega, rfl, hobj⟩

theorem endArray_levels {next : JsonNext} (h : HasLevels level fl st)
    (harr : fl.unmet [.colon, .commaOrEndObject, .name] = none → fl.isarr = true)
    (hnext : endArray fl st = .ok next) :
  NextHasLevels level next
  := by
  rw [endArray] at hnext
  cases hfl : fl.unmet [.colon, .commaOrEndObject, .name] with
  | some errm =>
    rw [hfl] at hnext
    obtain rfl := Except.ok.inj hnext
    exact nextHasLevels_fail st errm
  | none =>
    rw [hfl] at hnext
    obtain ⟨s, hs, hnext⟩ := exists_of_bind hnext
    obtain rfl := Except.ok.inj hnext
    obtain rfl := modifyNode_eq hs
    intro _
    exact (h.array (harr hfl)).1

theorem nameSeparator_levels (h : HasLevels level fl st) :
  NextHasLevels level (nameSeparator fl st)
  := by
  rw [nameSeparator]
  simp only
  cases hfl : JsonFlags.unmet { fl with expectedColon := false }
      [.commaOrEndArray, .commaOrEndObject, .name] with
  | some errm => exact nextHasLevels_fail st errm
  | none =>
    have hall : fl.expectedCommaOrEndArray = false ∧ fl.expectedCommaOrEndObject = false
        ∧ fl.expectedName = false := by
      simpa [JsonFlags.unmet, JsonFlags.expects] using hfl
    have harr := h.isarr hall.1
    obtain ⟨hlist, hlt⟩ := h.value harr
    have hlow := h.low
    refine ⟨h.ec, ?_, ?_⟩
    · change -1 ≤ st.listC
      omega
    · intro left hec hleft hlen
      have hleft : left.listC = st.listC := hleft
      constructor
      · exact hec
      · exact hlen.trans h.size
      · exact hlow
      · intro _
        exact .inr (.inr rfl)
      · intro _
        exact ⟨by omega, by omega⟩
      · intro harr'
        change fl.isarr = true at harr'
        rw [harr] at harr'
        cases harr'

theorem valueSeparator_levels {next : JsonNext} (h : HasLevels level fl st)
    (hnext : valueSeparator fl st = .ok next) :
  NextHasLevels level next
  := by
  rw [valueSeparator] at hnext
  cases hfl : fl.unmet [.colon, .name] with
  | some errm =>
    rw [hfl] at hnext
    obtain rfl := Except.ok.inj hnext
    exact nextHasLevels_fail st errm
  | none =>
    rw [hfl] at hnext
    simp only at hnext
    split at hnext
    · next hobj =>
      obtain rfl := Except.ok.inj hnext
      have harr : fl.isarr = false := by
        by_contra harr
        rw [Bool.not_eq_false] at harr
        have hnot := (h.array harr).2.2.2.2
        rw [hobj] at hnot
        cases hnot
      constructor
      · exact h.ec
      · exact h.size
      · exact h.low
      · intro _
        exact .inl rfl
      · exact h.value
      · intro harr'
        change fl.isarr = true at harr'
        rw [harr] at harr'
        cases harr'
    · split at hnext
      · next harr =>
        obtain ⟨s, hs, hnext⟩ := exists_of_bind hnext
        obtain rfl := Except.ok.inj hnext
        obtain rfl := modifyNode_eq hs
        obtain ⟨hlist, hlevel, hlt, -, hobj⟩ := h.array harr
        refine ⟨h.ec, ?_, ?_⟩
        · change -1 ≤ st.listC
          omega
        · intro left hec hleft hlen
          have hleft : left.listC = st.listC := hleft
          constructor
          · exact hec
          · exact hlen.trans ((List.length_modify ..).trans h.size)
          · exact h.low
          · intro hobj'
            rw [show _ = fl.isobj from rfl, hobj] at hobj'
            cases hobj'
          · intro harr'
            change fl.isarr = false at harr'
            rw [harr] at harr'
            cases harr'
          · intro _
            exact ⟨by omega, hlevel, by omega, harr, hobj⟩
      · obtain rfl := Except.ok.inj hnext
        exact nextHasLevels_fail _ _

/-- A number or a literal, of `n` bytes. -/
theorem scalarToken_levels {next : JsonNext} {type : JsonType} {n : Nat}
    (hlist : st.listC = level + 1) (hnext : scalarToken cfg st type n = .ok next) :
  NextHasLevels level next
  := by
  rw [scalarToken] at hnext
  obtain ⟨⟨more, s⟩, hadd, hnext⟩ := exists_of_bind hnext
  obtain rfl := Except.ok.inj hnext
  obtain ⟨list, nodes, hlen, ⟨rfl, rfl⟩ | ⟨rfl, rfl, -⟩⟩ := addJson_cases hadd
  · intro _
    change st.listC - 1 = level
    omega
  · exact nextHasLevels_fail _ _

theorem stringToken_levels {next : JsonNext} (h : HasLevels level fl st)
    (hdecodes : fl.unmet [.colon, .commaOrEndArray, .commaOrEndObject] = none →
      ∀ r, velyJsonToUtf8 (st.val.drop st.i) true cfg.dec = .ok r → r.stop.isSome = true)
    (hnext : stringToken cfg fl st = .ok next) :
  NextHasLevels level next
  := by
  rw [stringToken] at hnext
  cases hfl : fl.unmet [.colon, .commaOrEndArray, .commaOrEndObject] with
  | some errm =>
    rw [hfl] at hnext
    obtain rfl := Except.ok.inj hnext
    exact nextHasLevels_fail st errm
  | none =>
    rw [hfl] at hnext
    obtain ⟨r, hr, hnext⟩ := exists_of_bind hnext
    have harr := h.isarr (unmet_string hfl).2.1
    obtain ⟨hlist, hlt⟩ := h.value harr
    have hsome := hdecodes hfl r hr
    cases hstop : r.stop with
    | none =>
      rw [hstop] at hsome
      cases hsome
    | some lstr =>
      simp only [hstop] at hnext
      split at hnext
      · obtain ⟨s, hs, hnext⟩ := exists_of_bind hnext
        obtain rfl := Except.ok.inj hnext
        obtain rfl := modifyNode_eq hs
        constructor
        · exact h.ec
        · exact (List.length_modify ..).trans h.size
        · exact h.low
        · intro _
          exact .inr (.inl rfl)
        · exact h.value
        · intro harr'
          change fl.isarr = true at harr'
          rw [harr] at harr'
          cases harr'
      · obtain ⟨⟨more, s⟩, hadd, hnext⟩ := exists_of_bind hnext
        obtain rfl := Except.ok.inj hnext
        obtain ⟨list, nodes, hlen, ⟨rfl, rfl⟩ | ⟨rfl, rfl, -⟩⟩ := addJson_cases hadd
        · intro _
          change st.listC - 1 = level
          omega
        · exact nextHasLevels_fail _ _

theorem numberToken_levels {next : JsonNext} (h : HasLevels level fl st)
    (hnext : numberToken cfg fl st = .ok next) :
  NextHasLevels level next
  := by
  rw [numberToken] at hnext
  cases hfl : fl.unmet [.colon, .commaOrEndArray, .commaOrEndObject, .name] with
  | some errm =>
    rw [hfl] at hnext
    obtain rfl := Except.ok.inj hnext
    exact nextHasLevels_fail st errm
  | none =>
    rw [hfl] at hnext
    simp only at hnext
    split at hnext
    · obtain rfl := Except.ok.inj hnext
      exact nextHasLevels_fail _ _
    · exact scalarToken_levels (h.value (h.isarr (unmet_value hfl).2.1)).1 hnext

theorem literalToken_levels {next : JsonNext} {type : JsonType} {word : List UInt8}
    (h : HasLevels level fl st) (hnext : literalToken cfg fl st type word = .ok next) :
  NextHasLevels level next
  := by
  rw [literalToken] at hnext
  cases hfl : fl.unmet [.colon, .commaOrEndArray, .commaOrEndObject, .name] with
  | some errm =>
    rw [hfl] at hnext
    obtain rfl := Except.ok.inj hnext
    exact nextHasLevels_fail st errm
  | none =>
    rw [hfl] at hnext
    simp only at hnext
    split at hnext
    · exact scalarToken_levels (h.value (h.isarr (unmet_value hfl).2.1)).1 hnext
    · obtain rfl := Except.ok.inj hnext
      exact nextHasLevels_fail _ _

/-- A token keeps the levels, when it is none of those that move them. -/
theorem tokenNext_levels {token : JsonToken} {next : JsonNext} (h : HasLevels level fl st)
    (hkeeps : KeepsToken cfg level fl st token) (hnext : tokenNext cfg fl st token = .ok next) :
  NextHasLevels level next
  := by
  cases token with
  | beginObject =>
    obtain rfl := Except.ok.inj hnext
    exact beginObject_levels h
  | endObject =>
    obtain rfl := Except.ok.inj hnext
    exact endObject_levels h
  | beginArray => exact beginArray_levels h hkeeps hnext
  | endArray => exact endArray_levels h hkeeps hnext
  | nameSeparator =>
    obtain rfl := Except.ok.inj hnext
    exact nameSeparator_levels h
  | valueSeparator => exact valueSeparator_levels h hnext
  | blank =>
    obtain rfl := Except.ok.inj hnext
    exact ⟨h.ec, h.size, h.low, h.object, h.value, h.array⟩
  | quote => exact stringToken_levels h hkeeps hnext
  | digit => exact numberToken_levels h hnext
  | word type word => exact literalToken_levels h hnext
  | other =>
    obtain rfl := Except.ok.inj hnext
    exact nextHasLevels_fail _ _

/-- The first levels of a call. -/
theorem enterValue_levels {entered : JsonState} (hec : st.ec = -1)
    (hsize : st.list.length = jsonMaxNested) (hlow : -1 ≤ st.listC)
    (h : enterValue st = (entered, true)) :
  HasLevels st.listC {} entered
  := by
  rw [enterValue] at h
  simp only at h
  split at h
  · cases h
  · split at h
    · cases h
    · next hlt =>
      obtain rfl := (Prod.mk.inj h).1
      constructor
      · exact hec
      · exact hsize
      · exact hlow
      · intro hobj
        cases hobj
      · intro _
        refine ⟨rfl, ?_⟩
        change st.listC + 1 + 1 < _
        change ¬ _ ≤ st.listC + 1 at hlt
        omega
      · intro harr
        cases harr

/-- Where the levels are right, the leaves' accesses are inside of the stack. -/
theorem leafAccesses_inStack {k listC : Int} (hle : 0 ≤ listC) (hlt : listC < jsonMaxNested)
    (h : k ∈ leafAccesses cfg listC) :
  InStack k
  := by
  rw [leafAccesses, List.mem_append] at h
  rcases h with h | h
  · split at h
    · obtain ⟨n, hn, rfl⟩ := List.mem_map.mp h
      rw [List.mem_range] at hn
      constructor
      · exact Int.natCast_nonneg n
      · change (n : Int) < _
        omega
    · cases h
  · split at h
    · obtain rfl := List.mem_singleton.mp h
      exact ⟨hle, hlt⟩
    · cases h

/-- Where the levels are right and are kept, the accesses are inside of the stack. -/
theorem stackAccesses_inStack {token : JsonToken} (h : HasLevels level fl st)
    (hkeeps : KeepsToken cfg level fl st token) :
  ∀ k ∈ stackAccesses cfg fl st token, InStack k
  := by
  have hlow := h.low
  -- where a leaf is added, or a name
  have hleaf : fl.expectedCommaOrEndArray = false → 0 ≤ st.listC ∧ st.listC < jsonMaxNested := by
    intro hcomma
    obtain ⟨hlist, hlt⟩ := h.value (h.isarr hcomma)
    omega
  intro k hk
  cases token with
  | beginArray =>
    rw [stackAccesses] at hk
    split at hk
    · next hfl =>
      obtain rfl := List.mem_singleton.mp hk
      obtain ⟨hlist, hlt⟩ := h.value (h.isarr (unmet_value hfl).2.1)
      have hlevel := hkeeps hfl
      rw [InStack]
      omega
    · cases hk
  | endArray =>
    rw [stackAccesses] at hk
    split at hk
    · next hfl =>
      obtain rfl := List.mem_singleton.mp hk
      obtain ⟨hlist, hlevel, hlt, -⟩ := h.array (hkeeps hfl)
      rw [InStack]
      omega
    · cases hk
  | valueSeparator =>
    rw [stackAccesses] at hk
    split at hk
    · next hfl =>
      obtain rfl := List.mem_singleton.mp hk
      obtain ⟨hlist, hlevel, hlt, -⟩ := h.array hfl.2.2
      rw [InStack]
      omega
    · cases hk
  | quote =>
    rw [stackAccesses] at hk
    split at hk
    · next hfl =>
      obtain ⟨hle, hlt⟩ := hleaf (unmet_string hfl).2.1
      split at hk
      · split at hk
        · obtain rfl := List.mem_singleton.mp hk
          exact ⟨hle, hlt⟩
        · exact leafAccesses_inStack hle hlt hk
      · cases hk
    · cases hk
  | digit =>
    rw [stackAccesses] at hk
    split at hk
    · next hfl =>
      obtain ⟨hle, hlt⟩ := hleaf (unmet_value hfl.1).2.1
      exact leafAccesses_inStack hle hlt hk
    · cases hk
  | word type word =>
    rw [stackAccesses] at hk
    split at hk
    · next hfl =>
      obtain ⟨hle, hlt⟩ := hleaf (unmet_value hfl.1).2.1
      exact leafAccesses_inStack hle hlt hk
    · cases hk
  | beginObject => cases hk
  | endObject => cases hk
  | nameSeparator => cases hk
  | blank => cases hk
  | other => cases hk

/-- Where the levels are right and are kept, the stack is used as it should be. -/
theorem HasLevels.stackOk (h : HasLevels level fl st) (hkeeps : KeepsLevels cfg level fl st) :
  StackOk cfg level fl st
  := by
  rw [KeepsLevels] at hkeeps
  constructor
  · intro hi
    rw [if_pos hi] at hkeeps
    exact stackAccesses_inStack h.nchar hkeeps
  · intro st' hreturns hec
    rw [CallReturns] at hreturns
    split at hreturns
    · next hi =>
      rw [if_pos hi] at hkeeps
      exact tokenNext_levels h.nchar hkeeps hreturns hec
    · next hi =>
      rw [if_neg hi] at hkeeps
      subst hreturns
      have hlist := (h.value hkeeps).1
      change st.listC - 1 = level
      omega

/-- A `]` that is taken ends the call. -/
theorem endArray_eq (hfl : fl.unmet [.colon, .commaOrEndObject, .name] = none)
    (hin : 0 ≤ st.listC ∧ st.listC < st.list.length) :
  endArray fl st = .ok (.endj ((st.skip 1).withList
    (st.list.modify st.listC.toNat (fun node => { node with index := none }))))
  := by
  have hmodify : (st.skip 1).modifyNode st.listC (fun node => { node with index := none })
      = .ok ((st.skip 1).withList
        (st.list.modify st.listC.toNat (fun node => { node with index := none }))) := by
    have hlt : st.listC.toNat < st.list.length := by omega
    exact if_pos ⟨hin.1, hlt⟩
  rw [endArray, hfl]
  change (st.skip 1).modifyNode st.listC _ >>= _ = _
  rw [hmodify]
  rfl

/-- A string that is not decoded ends the call, without an error that counts. -/
theorem stringToken_undecoded {r : Utf8Result}
    (hfl : fl.unmet [.colon, .commaOrEndArray, .commaOrEndObject] = none)
    (hr : velyJsonToUtf8 (st.val.drop st.i) true cfg.dec = .ok r) (hstop : r.stop = none) :
  stringToken cfg fl st
    = .ok (.endj { st with val := st.val.take st.i ++ r.val, errm := r.errm })
  := by
  rw [stringToken, hfl]
  simp only [hr, ok_bind, hstop]
  rfl

/-- Where the levels are right, the stack is not used as it should be when they are not kept. -/
theorem HasLevels.keeps (h : HasLevels level fl st) (hok : StackOk cfg level fl st) :
  KeepsLevels cfg level fl st
  := by
  obtain ⟨haccesses, hreturns⟩ := hok
  rw [KeepsLevels]
  split
  · next hi =>
    have haccesses := haccesses hi
    have hlevels := h.nchar
    simp only [CallReturns, if_pos hi] at hreturns
    generalize st.nchar.2 = s at haccesses hlevels hreturns ⊢
    generalize jsonToken st.nchar.1 = token at haccesses hreturns ⊢
    cases token with
    | beginArray =>
      intro hfl hroot
      rw [stackAccesses, if_pos hfl] at haccesses
      obtain ⟨hlist, -⟩ := hlevels.value (hlevels.isarr (unmet_value hfl).2.1)
      obtain ⟨hle, -⟩ := haccesses _ (List.mem_singleton_self _)
      omega
    | endArray =>
      intro hfl
      rw [stackAccesses, if_pos hfl] at haccesses
      obtain ⟨hle, hlt⟩ := haccesses _ (List.mem_singleton_self _)
      by_contra harr
      rw [Bool.not_eq_true] at harr
      obtain ⟨hlist, -⟩ := hlevels.value harr
      have hnext := endArray_eq hfl (by rw [hlevels.size]; exact ⟨hle, hlt⟩)
      have hreturn := hreturns _ hnext hlevels.ec
      change s.listC = level at hreturn
      omega
    | quote =>
      intro hfl r hr
      cases hstop : r.stop with
      | some stop => rfl
      | none =>
        exfalso
        obtain ⟨hlist, -⟩ := hlevels.value (hlevels.isarr (unmet_string hfl).2.1)
        have hreturn := hreturns _ (stringToken_undecoded hfl hr hstop) hlevels.ec
        change s.listC = level at hreturn
        omega
    | beginObject => trivial
    | endObject => trivial
    | nameSeparator => trivial
    | valueSeparator => trivial
    | blank => trivial
    | digit => trivial
    | word type word => trivial
    | other => trivial
  · next hi =>
    simp only [CallReturns, if_neg hi] at hreturns
    have hlist := hreturns _ rfl h.ec
    by_contra harr
    rw [Bool.not_eq_false] at harr
    have hlist' := (h.array harr).1
    change st.listC - 1 = level at hlist
    omega

end Levels

/-! ### The run -/

section Run

variable {cfg : JsonConfig} {start : JsonState}

/-- A call whose loop, once entered, returns with the levels that it was entered with does so,
unless there is an error. -/
theorem callValue_levels {loop : JsonState → Except Stop JsonState} {st st' : JsonState}
    (hloop : ∀ {entered}, enterValue st = (entered, true) → loop entered = .ok st' →
      st'.listC = st.listC)
    (h : callValue loop st = .ok st') (hec : st'.ec = -1) :
  st'.listC = st.listC
  := by
  rw [callValue] at h
  cases henter : enterValue st with
  | mk entered more =>
    rw [henter] at h
    cases more with
    | true => exact hloop henter h
    | false =>
      obtain rfl := Except.ok.inj h
      exfalso
      rw [enterValue] at henter
      simp only at henter
      split at henter
      · obtain rfl := (Prod.mk.inj henter).1
        exact ec_leave_fail _ _ hec
      · split at henter
        · obtain rfl := (Prod.mk.inj henter).1
          exact ec_leave_fail _ _ hec
        · cases henter

/-- When the levels are kept wherever the calls come to with the right ones, a call returns with the
levels that it was entered with. -/
theorem parseLoop_levels
    (hkeeps : ∀ level fl st, JsonReach cfg start level fl st → HasLevels level fl st →
      KeepsLevels cfg level fl st)
    {bound : Nat} {level : Int} {fl : JsonFlags} {st st' : JsonState}
    (hreach : JsonReach cfg start level fl st) (hlevels : HasLevels level fl st)
    (h : parseLoop cfg bound fl st = .ok st') (hec : st'.ec = -1) :
  st'.listC = level
  := by
  induction bound generalizing level fl st st' with
  | zero => cases h
  | succ bound ih =>
    have hkeep := hkeeps _ _ _ hreach hlevels
    rw [parseLoop_succ] at h
    rw [KeepsLevels] at hkeep
    split at h
    · next hi =>
      rw [if_pos hi] at hkeep
      obtain ⟨next, hnext, h⟩ := exists_of_bind h
      have hlevels' := tokenNext_levels hlevels.nchar hkeep hnext
      cases next with
      | endj s =>
        obtain rfl := Except.ok.inj h
        exact hlevels' hec
      | loop fl' s => exact ih (.loop hreach hi hnext) hlevels' h hec
      | call s after =>
        obtain ⟨hec', hlow, hafter⟩ := hlevels'
        obtain ⟨left, hcall, h⟩ := exists_of_bind h
        split at h
        · next herror =>
          obtain rfl := Except.ok.inj h
          exact absurd hec herror
        · next hleft =>
          rw [not_not] at hleft
          have hsize : s.list.length = jsonMaxNested :=
            ((length_tokenNext hnext).trans (congrArg _ (nchar_fields st).2.2)).trans hlevels.size
          have hlist : left.listC = s.listC := by
            apply callValue_levels _ hcall hleft
            intro entered henter hloop
            have hentered := enterValue_levels hec' hsize hlow henter
            exact ih (.call hreach hi hnext henter) hentered hloop hleft
          have hlength := length_callValue length_parseLoop hcall
          exact ih (.back hreach hi hnext hcall hleft) (hafter left hleft hlist hlength) h hec
    · next hi =>
      rw [if_neg hi] at hkeep
      obtain rfl := Except.ok.inj h
      have hlist := (hlevels.value hkeep).1
      change st.listC - 1 = level
      omega

/-- When the levels are kept wherever the calls come to with the right ones, they are right wherever
the calls come to. -/
theorem reach_levels (hec : start.ec = -1) (hsize : start.list.length = jsonMaxNested)
    (hlow : -1 ≤ start.listC)
    (hkeeps : ∀ level fl st, JsonReach cfg start level fl st → HasLevels level fl st →
      KeepsLevels cfg level fl st)
    {level : Int} {fl : JsonFlags} {st : JsonState} (h : JsonReach cfg start level fl st) :
  HasLevels level fl st
  := by
  have htoken : ∀ {level fl st next}, JsonReach cfg start level fl st → HasLevels level fl st →
      st.i < cfg.len → tokenNext cfg fl st.nchar.2 (jsonToken st.nchar.1) = .ok next →
      NextHasLevels level next := by
    intro level fl st next hreach hlevels hi hnext
    have hkeep := hkeeps _ _ _ hreach hlevels
    rw [KeepsLevels, if_pos hi] at hkeep
    exact tokenNext_levels hlevels.nchar hkeep hnext
  have hlength : ∀ {level fl st st' after}, HasLevels level fl st →
      tokenNext cfg fl st.nchar.2 (jsonToken st.nchar.1) = .ok (.call st' after) →
      st'.list.length = jsonMaxNested := by
    intro level fl st st' after hlevels hnext
    exact ((length_tokenNext hnext).trans (congrArg _ (nchar_fields st).2.2)).trans hlevels.size
  induction h with
  | root h => exact enterValue_levels hec hsize hlow h
  | loop h hi hnext ih => exact htoken h ih hi hnext
  | call h hi hnext henter ih =>
    obtain ⟨hec', hlow', -⟩ := htoken h ih hi hnext
    exact enterValue_levels hec' (hlength ih hnext) hlow' henter
  | back h hi hnext hcall hleft ih =>
    obtain ⟨hec', hlow', hafter⟩ := htoken h ih hi hnext
    apply hafter _ hleft _ (length_callValue length_parseLoop hcall)
    apply callValue_levels _ hcall hleft
    intro entered henter hloop
    exact parseLoop_levels hkeeps (.call h hi hnext henter)
      (enterValue_levels hec' (hlength ih hnext) hlow' henter) hloop hleft

end Run

/-! ### The texts -/

/-- What a text is parsed with. -/
def textConfig (usehash : Bool) (nodeHandler : Option (JsonState → Nat → JsonType → Bool))
    (dec : Bool) (text : List UInt8) : JsonConfig :=
  { usehash, nodeHandler, dec, len := text.length }

section Texts

variable (usehash : Bool) (nodeHandler : Option (JsonState → Nat → JsonType → Bool)) (dec : Bool)
  {statics : JsonState} (text : List UInt8)

end Texts

end Vely
