import Vely.Json.Loop

/-!
# The parser and the reader

By induction on the number of steps the parser comes to what the reader comes to: the parser accepts
a text exactly when the reader does, and then its nodes are the leaves of the reader.
-/

namespace Vely

/-! ### Tokens -/

theorem take_append_zero_eq_iff {s word : List UInt8} (hz : 0 ∉ word) :
  (s ++ [0]).take word.length = word ↔ s.take word.length = word
  := by
  rcases Nat.lt_or_ge s.length word.length with hlt | hle
  · constructor
    · intro h
      exfalso
      rw [List.take_of_length_le (by rw [List.length_append, List.length_singleton]; omega)] at h
      apply hz
      rw [← h]
      simp
    · intro h
      have hlen := congrArg List.length h
      rw [List.length_take] at hlen
      omega
  · rw [List.take_append_of_le_length hle]

/-- What a token starts with, and its word when it is one of a literal. -/
def JsonToken.Starts (c : UInt8) : JsonToken → Prop
  | .beginObject => c = '{'.toUInt8
  | .endObject => c = '}'.toUInt8
  | .beginArray => c = '['.toUInt8
  | .endArray => c = ']'.toUInt8
  | .nameSeparator => c = ':'.toUInt8
  | .valueSeparator => c = ','.toUInt8
  | .blank => isBlank c = true
  | .quote => c = '"'.toUInt8
  | .digit => c = '-'.toUInt8 ∨ isdigit c = true
  | .word _ w => ∃ l : JsonLiteral, w = l.render
  | .other => True

theorem starts_jsonToken (c : UInt8) :
  (jsonToken c).Starts c
  := by
  obtain ⟨token, h⟩ : ∃ token, jsonToken c = token := ⟨_, rfl⟩
  rw [h]
  rw [jsonToken] at h
  -- the tokens before the words
  iterate 9 (rcases ite_eq_iff.mp h with ⟨hc, rfl⟩ | ⟨-, h⟩; · exact hc)
  rcases ite_eq_iff.mp h with ⟨-, rfl⟩ | ⟨-, h⟩
  · exact ⟨.true, rfl⟩
  rcases ite_eq_iff.mp h with ⟨-, rfl⟩ | ⟨-, h⟩
  · exact ⟨.false, rfl⟩
  rcases ite_eq_iff.mp h with ⟨-, rfl⟩ | ⟨-, rfl⟩
  · exact ⟨.null, rfl⟩
  · trivial

/-- The words are not empty, and hold no zero. -/
theorem word_of_jsonToken {c : UInt8} {type : JsonType} {word : List UInt8}
    (h : jsonToken c = .word type word) :
  1 ≤ word.length ∧ 0 ∉ word
  := by
  have hstarts := starts_jsonToken c
  rw [h] at hstarts
  obtain ⟨l, rfl⟩ := hstarts
  cases l <;> decide

theorem modifyNode_skip (st : JsonState) (k : Int) (f : JsonNode → JsonNode) (n : Nat) :
  (st.skip n).modifyNode k f = (st.modifyNode k f).map (fun st => st.skip n)
  := by
  by_cases h : 0 ≤ k ∧ k.toNat < st.list.length
  · rw [JsonState.modifyNode, JsonState.modifyNode, if_pos h,
      if_pos (show 0 ≤ k ∧ k.toNat < (st.skip n).list.length from h)]
    rfl
  · rw [JsonState.modifyNode, JsonState.modifyNode, if_neg h,
      if_neg (show ¬ (0 ≤ k ∧ k.toNat < (st.skip n).list.length) from h)]
    rfl

section Tokens

variable {cfg : JsonConfig} {bound depth base : Nat} {st : JsonState} {r : JsonReader} {c : UInt8}
  {rest : List UInt8}

/-- When no byte is remembered, the state is that without one. -/
theorem Mirrors.forget {len : Nat} (h : Mirrors len st depth r) (hheld : r.held = false) :
  { st with nulled := 0 } = st
  := by
  have hnulled := h.nulled
  rw [hheld] at hnulled
  cases st
  simp only [Bool.false_eq_true, if_false] at hnulled
  rw [hnulled]

/-- At the end of a call the reader has left its level. -/
theorem endValue_follows (h : Mirrors cfg.len st depth r) (htop : base + 1 ≤ r.top) (ok : Bool) :
  Follows cfg.len (depth - 1) base (resume cfg bound (endValue st)) (some (r.pop.check ok))
  := by
  refine ⟨_, rfl, ((h.pop fun _ => by omega).check ok).leave, fun _ => ?_⟩
  simp only [JsonReader.check, JsonReader.pop]
  omega

/-- Nothing is noted when the grammar is kept to. -/
theorem Follows.of_check {len : Nat} {x : Except Stop JsonState}
    (h : Follows len depth base x (some (r.check true))) :
  Follows len depth base x (some r)
  := by simpa only [JsonReader.check, Bool.and_true] using h

/-- At the end of an array its level has no index any more. -/
theorem endArray_follows {mode : JsonMode} (h : Mirrors cfg.len (st.skip 1) depth r)
    (hmode : mode = .value ∨ mode = .element) (htop : base ≤ r.top) (hpos : 1 ≤ r.top)
    (hlt : r.top < jsonMaxNested) (hlistC : st.listC = (r.top : Int) - 1) (ok : Bool) :
  Follows cfg.len (depth - 1) base (endArray mode.flags st >>= resume cfg bound)
    (some ((r.unindex (r.top - 1)).check ok))
  := by
  obtain ⟨st', hst', hmirrors, -⟩ := @Mirrors.unindex _ _ _ _ h (r.top - 1) (by omega)
  have hend : endArray mode.flags st = .ok (.endj st') := by
    have hk : (st.skip 1).listC = ((r.top - 1 : Nat) : Int) := by
      simp only [JsonState.skip, hlistC]
      omega
    rw [← hk] at hst'
    rcases hmode with rfl | rfl
    · exact congrArg (· >>= fun st => pure (JsonNext.endj st)) hst'
    · exact congrArg (· >>= fun st => pure (JsonNext.endj st)) hst'
  rw [hend]
  exact ⟨_, rfl, (hmirrors.check ok).leave, fun _ => htop⟩

/-- At the beginning of an array the level before it gets an index. -/
theorem beginArray_follows (ih : LoopFollows cfg bound) (h : Mirrors cfg.len (st.skip 1) depth r)
    (htop : r.top = base + 1) (hlt : r.top < jsonMaxNested)
    (hlistC : st.listC = (r.top : Int) - 1) (hheld : r.held = false) (hlen : r.rest.length < bound) :
  Follows cfg.len (depth - 1) base (beginArray JsonMode.value.flags st >>= resume cfg bound)
    (if r.top ≤ 1 then none
      else ((r.pop.bump (r.top - 2)).enter depth (fun d r => readJson cfg.dec bound d .value r)).bind
        (fun r => readJson cfg.dec bound depth .element r))
  := by
  split
  · -- there is no level before the root
    have hfault : { st.skip 1 with listC := (st.skip 1).listC - 1 }.modifyNode
        ((st.skip 1).listC - 1) nextIndex = .error .fault := by
      rw [JsonState.modifyNode, if_neg]
      simp only [JsonState.skip]
      omega
    have hbegin : beginArray JsonMode.value.flags st = .error .fault :=
      congrArg (· >>= fun st => pure (JsonNext.call st JsonMode.element.flags)) hfault
    exact .inl (by rw [hbegin]; rfl)
  · next hroot =>
    have hpop := h.pop (fun _ => by omega)
    obtain ⟨st', hst', hmirrors, hlistC'⟩ := @Mirrors.bump _ _ _ _ hpop (r.top - 2) (by omega)
    have hbegin : beginArray JsonMode.value.flags st = .ok (.call st' JsonMode.element.flags) := by
      have hk : (st.skip 1).listC - 1 = ((r.top - 2 : Nat) : Int) := by
        simp only [JsonState.skip, hlistC]
        omega
      rw [← hk] at hst'
      exact congrArg (· >>= fun st => pure (JsonNext.call st JsonMode.element.flags)) hst'
    rw [hbegin]
    apply call_follows ih hmirrors _ hheld hlen rfl
    · intro top hle
      simp only [JsonReader.bump, JsonReader.setLevel, JsonReader.pop] at hle
      exact ⟨by omega, by omega⟩
    · rw [hlistC']
      simp only [JsonState.skip, hlistC, JsonReader.bump, JsonReader.setLevel, JsonReader.pop]
      omega

/-- Between two elements the level of the array gets the next index. -/
theorem nextElement_follows (ih : LoopFollows cfg bound) (h : Mirrors cfg.len (st.skip 1) depth r)
    (htop : base ≤ r.top) (hpos : 1 ≤ base) (hlt : r.top < jsonMaxNested)
    (hlistC : st.listC = (r.top : Int) - 1) (hheld : r.held = false) (hlen : r.rest.length < bound) :
  Follows cfg.len (depth - 1) base (valueSeparator JsonMode.element.flags st >>= resume cfg bound)
    (((r.bump (r.top - 1)).enter depth (fun d r => readJson cfg.dec bound d .value r)).bind
      (fun r => readJson cfg.dec bound depth .element r))
  := by
  obtain ⟨st', hst', hmirrors, hlistC'⟩ := @Mirrors.bump _ _ _ _ h (r.top - 1) (by omega)
  have hnext : valueSeparator JsonMode.element.flags st
      = .ok (.call st' JsonMode.element.flags) := by
    have hk : (st.skip 1).listC = ((r.top - 1 : Nat) : Int) := by
      simp only [JsonState.skip, hlistC]
      omega
    rw [← hk] at hst'
    exact congrArg (· >>= fun st => pure (JsonNext.call st JsonMode.element.flags)) hst'
  rw [hnext]
  apply call_follows ih hmirrors _ hheld hlen rfl
  · intro top hle
    simp only [JsonReader.bump, JsonReader.setLevel] at hle
    exact ⟨by omega, hpos⟩
  · rw [hlistC']
    exact hlistC

theorem Stuck.leave {len : Nat} (h : Stuck len st) :
  Stuck len (leaveValue st)
  := ⟨h.inside, h.nulled, h.quote⟩

/-- A string that is not well formed ends the call. -/
theorem stringToken_none {mode : JsonMode} (hmode : mode = .name ∨ mode = .value) {u : Utf8Result}
    (hu : velyJsonToUtf8 (st.val.drop st.i) true cfg.dec = .ok u) (hstop : u.stop = none) :
  stringToken cfg mode.flags st
    = .ok (.endj { st with val := st.val.take st.i ++ u.val, errm := u.errm })
  := by
  rcases hmode with rfl | rfl <;>
    (rw [stringToken, hu]
     simp only [JsonMode.flags, JsonFlags.unmet, List.find?, JsonFlags.expects, Option.map_none,
       ok_bind, hstop]
     rfl)

/-- A string in the place of a name. -/
theorem stringToken_name {u : Utf8Result} {stop : Nat}
    (hu : velyJsonToUtf8 (st.val.drop st.i) true cfg.dec = .ok u) (hstop : u.stop = some stop) :
  stringToken cfg JsonMode.name.flags st
    = { st with val := decodedText st u stop, errm := u.errm, i := st.i + stop + 1 }.modifyNode
        st.listC (fun node => { node with name := some (st.i + 1), nameLen := stop - 1 })
      >>= fun st => .ok (.loop JsonMode.colon.flags st)
  := by
  rw [stringToken, hu]
  simp only [JsonMode.flags, JsonFlags.unmet, List.find?, JsonFlags.expects, Option.map_none,
    ok_bind, hstop, if_true]
  have hskip := modifyNode_skip
    { st with val := decodedText st u stop, errm := u.errm, i := st.i + stop } st.listC
    (fun node => { node with name := some (st.i + 1), nameLen := stop - 1 }) 1
  simp only [JsonState.skip] at hskip
  rw [hskip]
  simp only [decodedText]
  cases JsonState.modifyNode _ _ _ with
  | error e => rfl
  | ok st' => rfl

/-- A string in the place of a value. -/
theorem stringToken_value {u : Utf8Result} {stop : Nat} {nodes : List Jsonn}
    (hu : velyJsonToUtf8 (st.val.drop st.i) true cfg.dec = .ok u) (hstop : u.stop = some stop)
    (hadd : addJson cfg { st with val := decodedText st u stop, errm := u.errm, i := st.i + stop }
        .string (st.i + 1)
      = .ok (true, { st with
          val := decodedText st u stop, errm := u.errm, i := st.i + stop, nodes })) :
  stringToken cfg JsonMode.value.flags st
    = .ok (endValue { st with
        val := decodedText st u stop, errm := u.errm, i := st.i + stop + 1, nodes })
  := by
  rw [decodedText] at hadd
  rw [stringToken, hu]
  simp only [JsonMode.flags, JsonFlags.unmet, List.find?, JsonFlags.expects, Option.map_none,
    ok_bind, hstop, Bool.false_eq_true, if_false, hadd]
  rfl

/-- A string in the place of a name gives its level this name. -/
theorem name_follows (ih : LoopFollows cfg bound) (h : Mirrors cfg.len st depth r)
    (hr : r.rest = '"'.toUInt8 :: rest) (hheld : r.held = false) (htop : base + 1 ≤ r.top)
    (hlen : r.rest.length < bound + 1) :
  Follows cfg.len (depth - 1) base
    (stringToken cfg JsonMode.name.flags st >>= resume cfg bound)
    ((readString cfg.dec r.rest).bind (fun s => readJson cfg.dec bound depth .colon
      (({ r with rest := s.rest, held := false }.rename (r.top - 1) s.name).check s.sound)))
  := by
  have hrest : r.rest ≠ [] := by simp [hr]
  have hlistC := h.listC hrest
  have hbounded := h.bounded hrest
  obtain ⟨u, hu, hread⟩ := quoted_follows cfg.dec h hr hheld
  cases hstop : u.stop with
  | none =>
    simp only [hstop] at hread
    rw [hread.1, Option.bind_none, stringToken_none (.inl rfl) hu hstop]
    exact .inr ⟨_, rfl, .inr (hread.2 u.errm).leave⟩
  | some stop =>
    simp only [hstop] at hread
    obtain ⟨s, hs, hshorter, hdecoded, hmirrors⟩ := hread
    obtain ⟨st', hst', hmirrors', -⟩ := @Mirrors.modifyNode _ _ _ _ (hmirrors u.errm) (r.top - 1)
      (by omega) (fun node => { node with name := some (st.i + 1), nameLen := stop - 1 })
      ⟨s.name, (r.levels (r.top - 1)).index⟩ (by
        intro node hnode
        refine ⟨((hmirrors u.errm).levels _ node hnode).1, ?_, hdecoded.name⟩
        have hquotes := hdecoded.quotes
        simp only
        omega)
    rw [show ((r.top - 1 : Nat) : Int) = st.listC by omega] at hst'
    rw [hs, Option.bind_some, stringToken_name hu hstop, hst', ok_bind, ok_bind]
    apply @ih .colon _ _ _ _ (hmirrors'.check s.sound) (fun _ => htop) (fun _ => rfl)
    exact hshorter.trans_le (Nat.le_of_lt_succ hlen)

/-- A string in the place of a value is a leaf. -/
theorem string_follows (husehash : cfg.usehash = true) (hhandler : cfg.nodeHandler = none)
    (h : Mirrors cfg.len st depth r) (hr : r.rest = '"'.toUInt8 :: rest) (hheld : r.held = false)
    (htop : base + 1 ≤ r.top) :
  Follows cfg.len (depth - 1) base
    (stringToken cfg JsonMode.value.flags st >>= resume cfg bound)
    ((readString cfg.dec r.rest).bind (fun s =>
      some (({ r with rest := s.rest, held := false }.add .string s.value).check s.sound)))
  := by
  have hrest : r.rest ≠ [] := by simp [hr]
  have hlen := h.length_val
  obtain ⟨u, hu, hread⟩ := quoted_follows cfg.dec h hr hheld
  cases hstop : u.stop with
  | none =>
    simp only [hstop] at hread
    rw [hread.1, Option.bind_none, stringToken_none (.inr rfl) hu hstop]
    exact .inr ⟨_, rfl, .inr (hread.2 u.errm).leave⟩
  | some stop =>
    simp only [hstop] at hread
    obtain ⟨s, hs, -, hdecoded, hmirrors⟩ := hread
    have hlen' := (hmirrors u.errm).length_val
    have htake : (decodedText st u stop).take st.i = st.val.take st.i := by
      have hsize := h.size
      rw [decodedText, List.take_set_of_le (by omega), List.take_left']
      rw [List.length_take]
      omega
    have hadd := addJson_eq husehash hhandler h hrest (by omega)
      { st with val := decodedText st u stop, errm := u.errm, i := st.i + stop } htake
      (hlen'.trans hlen.symm) rfl rfl .string (st.i + 1)
    have hnode : NodeAt (decodedText st u stop) (st.i + stop + 1)
        ⟨JsonReader.leafName r.levels (r.top - 1), .string, st.i + 1⟩
        ⟨JsonReader.leafName r.levels (r.top - 1), .string, s.value⟩ :=
      { name := rfl
        type := rfl
        stop := by
          have hinside := hdecoded.inside
          simp only
          omega
        value := hdecoded.value
        terminated := hdecoded.terminated
        nonzero := hdecoded.nonzero }
    rw [hs, Option.bind_some, stringToken_value hu hstop hadd, ok_bind]
    exact @endValue_follows _ _ _ _ _ _ ((hmirrors u.errm).add hnode) htop s.sound

/-- A number is a leaf. -/
theorem number_follows (husehash : cfg.usehash = true) (hhandler : cfg.nodeHandler = none)
    (h : Mirrors cfg.len st depth r) (hheld : r.held = false) (htop : base + 1 ≤ r.top) :
  Follows cfg.len (depth - 1) base (numberToken cfg JsonMode.value.flags st >>= resume cfg bound)
    ((velyJsonNum (r.rest ++ [0])).bind (fun (real, n) =>
      some (r.scalar (if real then .real else .number) n)))
  := by
  rw [numberToken_of_met rfl, h.drop_eq hheld]
  cases hnum : velyJsonNum (r.rest ++ [0]) with
  | none => exact .inr ⟨_, rfl, .inl (ec_fail st "Cannot parse a number")⟩
  | some x =>
    obtain ⟨real, k⟩ := x
    obtain ⟨n, t, ht, -, rfl⟩ := velyJsonNum_text hnum
    have hpos := List.length_pos_of_ne_nil n.render_ne_nil
    obtain ⟨st', hst', hmirrors⟩ := scalarToken_follows husehash hhandler h hheld (by omega)
      (if real then .real else .number) hpos (by rw [ht, List.length_append]; omega)
      (by rw [ht, List.take_left]; exact n.zero_not_mem)
    simp only
    rw [hst', ok_bind, Option.bind_some]
    refine ⟨_, rfl, hmirrors.leave, fun _ => ?_⟩
    simp only [JsonReader.scalar, JsonReader.add]
    omega

/-- A literal is a leaf. -/
theorem literal_follows (husehash : cfg.usehash = true) (hhandler : cfg.nodeHandler = none)
    (h : Mirrors cfg.len st depth r) (hheld : r.held = false) (htop : base + 1 ≤ r.top)
    {c : UInt8} {type : JsonType} {word : List UInt8} (hword : jsonToken c = .word type word) :
  Follows cfg.len (depth - 1) base
    (literalToken cfg JsonMode.value.flags st type word >>= resume cfg bound)
    (if r.rest.take word.length = word then some (r.scalar type word.length) else none)
  := by
  obtain ⟨hpos, hz⟩ := word_of_jsonToken hword
  have hliteral : literalToken cfg JsonMode.value.flags st type word
      = if (st.val.drop st.i).take word.length = word then scalarToken cfg st type word.length
        else .ok (.endj (st.fail "Unknown entity (true, false or null)")) := rfl
  rw [hliteral, h.drop_eq hheld]
  by_cases hspelled : r.rest.take word.length = word
  · have hle := congrArg List.length hspelled
    rw [List.length_take] at hle
    obtain ⟨st', hst', hmirrors⟩ := @scalarToken_follows _ _ _ _ husehash hhandler h hheld (by omega)
      type word.length hpos (by omega) (by rw [hspelled]; exact hz)
    rw [if_pos ((take_append_zero_eq_iff hz).mpr hspelled), if_pos hspelled, hst', ok_bind]
    refine ⟨_, rfl, hmirrors.leave, fun _ => ?_⟩
    simp only [JsonReader.scalar, JsonReader.add]
    omega
  · rw [if_neg (fun h => hspelled ((take_append_zero_eq_iff hz).mp h)), if_neg hspelled]
    exact .inr ⟨_, rfl, .inl (ec_fail st "Unknown entity (true, false or null)")⟩

end Tokens

/-! ### The loop -/

/-- One step of the parser is one step of the reader. -/
theorem loopFollows_succ {cfg : JsonConfig} {bound : Nat} (husehash : cfg.usehash = true)
    (hhandler : cfg.nodeHandler = none) (ih : LoopFollows cfg bound) :
  LoopFollows cfg (bound + 1)
  := by
  intro mode depth base st r h hlevels hafter hlen
  have hsize := h.size
  cases hr : r.rest with
  | nil =>
    rw [hr, List.length_nil] at hsize
    rw [parseLoop_succ, if_neg (by omega), readJson, hr]
    exact ⟨_, rfl, ((h.pop fun hrest => absurd hr hrest).check false).leave,
      fun hrest => absurd hr hrest⟩
  | cons c rest =>
    have hrest : r.rest ≠ [] := by simp [hr]
    rw [hr, List.length_cons] at hsize hlen
    rw [parseLoop_succ, if_pos (by omega), h.nchar_eq hr, h.nulled_nchar]
    replace hlevels := hlevels hrest
    have hnext := h.skip hr
    have hbounded := h.bounded hrest
    have hlistC := h.listC hrest
    cases hok : mode.accepts (jsonToken c) with
    | false =>
      obtain ⟨st', errm, herror⟩ := tokenNext_error cfg { st with nulled := 0 } hok
      rw [readJson_none hr hok, herror]
      exact .inr ⟨_, rfl, .inl (ec_fail st' errm)⟩
    | true =>
      rw [readJson, hr]
      simp only
      have hle : rest.length < bound := by omega
      cases htoken : jsonToken c with
      | blank => exact ih hnext (fun _ => hlevels) (fun _ => rfl) hle
      | beginObject =>
        rw [htoken] at hok
        cases mode with
        | value => exact @ih .name _ _ _ _ hnext (fun _ => le_of_eq hlevels.symm) (fun _ => rfl) hle
        | _ => cases hok
      | endObject =>
        rw [htoken] at hok
        cases mode with
        | value => exact @endValue_follows _ bound _ _ _ _ hnext (le_of_eq hlevels.symm) false
        | member => exact (@endValue_follows _ bound _ _ _ _ hnext hlevels true).of_check
        | loose => exact (@endValue_follows _ bound _ _ _ _ hnext hlevels true).of_check
        | _ => cases hok
      | beginArray =>
        rw [htoken] at hok
        cases mode with
        | value => exact beginArray_follows ih hnext hlevels hbounded hlistC rfl hle
        | _ => cases hok
      | endArray =>
        rw [htoken] at hok
        cases mode with
        | value =>
          exact endArray_follows hnext (.inl rfl) (by rw [hlevels]; simp) (by rw [hlevels]; simp)
            hbounded hlistC false
        | element =>
          exact (endArray_follows hnext (.inr rfl) hlevels.1 (hlevels.2.trans hlevels.1)
            hbounded hlistC true).of_check
        | _ => cases hok
      | nameSeparator =>
        rw [htoken] at hok
        cases mode with
        | colon =>
          exact @call_follows _ _ _ _ _ _ .member ih hnext hlistC rfl hle rfl
            (fun top htop => hlevels.trans htop)
        | value =>
          exact @call_follows _ _ _ _ _ _ .loose ih (hnext.check false) hlistC rfl hle rfl
            (fun top htop => (le_of_eq hlevels.symm).trans htop)
        | _ => cases hok
      | valueSeparator =>
        rw [htoken] at hok
        cases mode with
        | member => exact @ih .name _ _ _ _ hnext (fun _ => hlevels) (fun _ => rfl) hle
        | element =>
          exact nextElement_follows ih hnext hlevels.1 hlevels.2 hbounded hlistC rfl hle
        | _ => cases hok
      | quote =>
        rw [htoken] at hok
        have hc := starts_jsonToken c
        rw [htoken] at hc
        subst hc
        cases mode with
        | name =>
          rw [h.forget (hafter rfl)]
          have hname := name_follows ih h hr (hafter rfl) hlevels (by rw [hr]; exact hlen)
          rw [hr] at hname
          exact hname
        | value =>
          rw [h.forget (hafter rfl)]
          have hstring := @string_follows _ bound _ _ _ _ _ husehash hhandler h hr (hafter rfl)
            (le_of_eq hlevels.symm)
          rw [hr] at hstring
          exact hstring
        | _ => cases hok
      | digit =>
        rw [htoken] at hok
        cases mode with
        | value =>
          rw [h.forget (hafter rfl)]
          have hnumber := @number_follows _ bound _ _ _ _ husehash hhandler h (hafter rfl)
            (le_of_eq hlevels.symm)
          rw [hr] at hnumber
          exact hnumber
        | _ => cases hok
      | word type word =>
        rw [htoken] at hok
        cases mode with
        | value =>
          rw [h.forget (hafter rfl)]
          have hliteral := @literal_follows _ bound _ _ _ _ husehash hhandler h (hafter rfl)
            (le_of_eq hlevels.symm) _ _ _ htoken
          rw [hr] at hliteral
          exact hliteral
        | _ => cases hok
      | other =>
        rw [htoken] at hok
        cases mode with
        | _ => cases hok

/-- The parser comes to what the reader comes to. -/
theorem loopFollows {cfg : JsonConfig} (husehash : cfg.usehash = true)
    (hhandler : cfg.nodeHandler = none) (bound : Nat) :
  LoopFollows cfg bound
  := by
  induction bound with
  | zero =>
    intro _ _ _ _ _ _ _ _ hlen
    omega
  | succ bound ih => exact loopFollows_succ husehash hhandler ih

/-! ### Texts -/

/-- The static variables as they are when the process starts, as far as a parse uses them. -/
structure Fresh (statics : JsonState) : Prop where
  nulled : statics.nulled = 0
  list : statics.list.length = jsonMaxNested
  nameLen : ∀ node ∈ statics.list, node.nameLen = 0

theorem fresh_initial :
  Fresh JsonState.initial
  where
  nulled := rfl
  list := List.length_replicate
  nameLen := by
    intro node hnode
    rw [List.eq_of_mem_replicate hnode]

/-- At the beginning the parser mirrors the reader. -/
theorem mirrors_start {statics : JsonState} (h : Fresh statics) (text : List UInt8) :
  Mirrors text.length
    { startParse statics text with depth := 1, listC := 0 } 1 { startReader text with top := 1 }
  where
  size := by simp [startParse, startReader]
  nulled := h.nulled
  text := rfl
  depth_eq := rfl
  listC _ := rfl
  bounded _ := by
    simp only
    decide
  list := by simp [startParse, h.list]
  levels := by
    intro k node hnode
    simp only [startParse, List.getElem?_map, Option.map_eq_some_iff] at hnode
    obtain ⟨node', hnode', rfl⟩ := hnode
    exact ⟨rfl, h.nameLen node' (List.mem_of_getElem? hnode'), rfl⟩
  nodes := List.Forall₂.nil
  ec := rfl

/-- The spaces at the beginning of a text, with its terminator behind it. -/
theorem length_spaces (s : List UInt8) :
  ((s ++ [0]).takeWhile isspace).length = s.length ↔ s.all isspace = true
  := by
  induction s with
  | nil => simp [isspace_zero]
  | cons c s ih =>
    rw [List.cons_append, List.all_cons]
    cases hc : isspace c with
    | true =>
      rw [List.takeWhile_cons_of_pos hc]
      simpa using ih
    | false => simp [hc]

theorem length_spaces_le (s : List UInt8) :
  ((s ++ [0]).takeWhile isspace).length ≤ s.length
  := by
  induction s with
  | nil => simp [isspace_zero]
  | cons c s ih =>
    rw [List.cons_append]
    cases hc : isspace c with
    | true =>
      rw [List.takeWhile_cons_of_pos hc]
      simpa using ih
    | false => simp [hc]

/-- Something is left of the text. -/
theorem finishParse_extra {cfg : JsonConfig} {st : JsonState} (hec : st.ec = -1)
    (h : st.i + ((st.val.drop st.i).takeWhile isspace).length < cfg.len) :
  (finishParse cfg st).ec ≠ -1
  := by
  have hextra : finishParse cfg st = (st.skip ((st.val.drop st.i).takeWhile isspace).length).fail
      "Extra characters remaining unparsed" := if_pos ⟨hec, h⟩
  rw [hextra]
  apply ec_fail

/-- An error stays. -/
theorem finishParse_error {cfg : JsonConfig} {st : JsonState} (hec : st.ec ≠ -1) :
  (finishParse cfg st).ec ≠ -1
  := by
  have herror : finishParse cfg st = st.skip ((st.val.drop st.i).takeWhile isspace).length :=
    if_neg (fun h => hec h.1)
  rw [herror]
  exact hec

/-- In front of a string the parser reports that something is left. -/
theorem finishParse_stuck {cfg : JsonConfig} {st : JsonState} (h : Stuck cfg.len st) :
  (finishParse cfg st).ec ≠ -1
  := by
  by_cases hec : st.ec = -1
  · apply finishParse_extra hec
    have hinside := h.inside
    have hquote := h.quote
    rw [← Nat.add_zero st.i, ← byteAt_drop] at hquote
    obtain ⟨s, hs⟩ := eq_cons_of_byteAt hquote (by decide)
    rw [hs, List.takeWhile_cons_of_neg (by decide), List.length_nil]
    exact hinside
  · exact finishParse_error hec

/-- Nothing is left of the text. -/
theorem finishParse_all {cfg : JsonConfig} {st : JsonState}
    (h : cfg.len ≤ st.i + ((st.val.drop st.i).takeWhile isspace).length) :
  finishParse cfg st = st.skip ((st.val.drop st.i).takeWhile isspace).length
  := by
  have hall : ¬ ((st.skip ((st.val.drop st.i).takeWhile isspace).length).ec = -1
      ∧ (st.skip ((st.val.drop st.i).takeWhile isspace).length).i < cfg.len) :=
    fun hextra => absurd hextra.2 (Nat.not_lt.mpr h)
  exact if_neg hall

/-- Behind the value the parser passes what the reader passes. -/
theorem finishParse_follows {cfg : JsonConfig} {depth : Nat} {st : JsonState} {r : JsonReader}
    (h : Mirrors cfg.len st depth r) :
  match finishReader r with
  | some r' => r'.leaves = r.leaves
    ∧ finishParse cfg st = st.skip ((st.val.drop st.i).takeWhile isspace).length
  | none => (finishParse cfg st).ec ≠ -1
  := by
  have hsize := h.size
  have htext := h.text
  cases hheld : r.held with
  | true =>
    rw [hheld, if_pos rfl] at htext
    have hspaces : ((st.val.drop st.i).takeWhile isspace).length = 0 := by
      rw [htext, List.takeWhile_cons_of_neg (by simp [isspace_zero])]
      rfl
    rw [finishReader, hheld, if_pos rfl]
    by_cases hrest : r.rest = []
    · rw [hrest, List.length_nil] at hsize
      rw [if_pos hrest]
      exact ⟨rfl, finishParse_all (by omega)⟩
    · have hpos := List.length_pos_of_ne_nil hrest
      rw [if_neg hrest]
      exact finishParse_extra h.ec (by omega)
  | false =>
    rw [hheld] at htext
    simp only [Bool.false_eq_true, if_false] at htext
    have hle := length_spaces_le r.rest
    rw [finishReader, hheld]
    simp only [Bool.false_eq_true, if_false]
    by_cases hall : r.rest.all isspace = true
    · have hspaces := (length_spaces r.rest).mpr hall
      rw [if_pos hall]
      exact ⟨rfl, finishParse_all (by rw [htext]; omega)⟩
    · have hspaces := mt (length_spaces r.rest).mp hall
      rw [if_neg hall]
      exact finishParse_extra h.ec (by rw [htext]; omega)

/-- What a parse of a text comes to: it reports no error exactly when the reader reads the text, and
its nodes are then the leaves of the reader. -/
theorem velyJsonNew_follows {statics : JsonState} (h : Fresh statics) (dec : Bool)
    (text : List UInt8) :
  match readText dec text with
  | some r => ∃ st, velyJsonNew true none dec statics text = .ok st ∧ st.ec = -1
    ∧ List.Forall₂ (NodeAt st.val st.i) st.nodes r.leaves
  | none => velyJsonNew true none dec statics text = .error .fault
    ∨ ∃ st, velyJsonNew true none dec statics text = .ok st ∧ st.ec ≠ -1
  := by
  obtain ⟨cfg, hcfg⟩ : ∃ cfg : JsonConfig, cfg = ⟨true, none, dec, text.length⟩ := ⟨_, rfl⟩
  have hnew : velyJsonNew true none dec statics text
      = parseLoop cfg (text.length + 1) JsonMode.value.flags
          { startParse statics text with depth := 1, listC := 0 } >>= fun st =>
        .ok (finishParse cfg st) := by
    rw [hcfg]
    rfl
  have hread : readText dec text
      = (readJson cfg.dec (text.length + 1) 1 .value { startReader text with top := 1 }).bind
          finishReader := by
    rw [hcfg]
    rfl
  have hlen : cfg.len = text.length := by rw [hcfg]
  have hfollows := @loopFollows cfg (by rw [hcfg]) (by rw [hcfg]) (text.length + 1) .value 1 0
    { startParse statics text with depth := 1, listC := 0 } { startReader text with top := 1 }
    (by rw [hlen]; exact mirrors_start h text) (fun _ => rfl) (fun _ => rfl) (Nat.lt_succ_self _)
  rw [hnew, hread]
  cases hr : readJson cfg.dec (text.length + 1) 1 .value { startReader text with top := 1 } with
  | none =>
    rw [hr] at hfollows
    rw [Option.bind_none]
    rcases hfollows with hfault | ⟨st, hst, hec | hstuck⟩
    · left
      rw [hfault]
      rfl
    · right
      rw [hst]
      exact ⟨_, rfl, finishParse_error hec⟩
    · right
      rw [hst]
      exact ⟨_, rfl, finishParse_stuck hstuck⟩
  | some r =>
    rw [hr] at hfollows
    obtain ⟨st, hst, hmirrors, -⟩ := hfollows
    have hfinish := finishParse_follows hmirrors
    rw [Option.bind_some, hst, ok_bind]
    cases hf : finishReader r with
    | none =>
      rw [hf] at hfinish
      exact .inr ⟨_, rfl, hfinish⟩
    | some r' =>
      rw [hf] at hfinish
      obtain ⟨hleaves, hfinish⟩ := hfinish
      refine ⟨_, rfl, ?_, ?_⟩
      · rw [hfinish]
        exact hmirrors.ec
      · rw [hfinish, hleaves]
        apply hmirrors.nodes.imp
        intro n leaf hn
        exact hn.frame rfl (by simp [JsonState.skip])

end Vely
