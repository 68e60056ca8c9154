import Vely.Json.Leftover

/-!
# The byte that a parse leaves

A parse leaves the byte behind a number or a literal to the next one when it ends right there: when
this is the root of the text, or when the handler stops the parse.  Everywhere else the byte is read
before the parse ends.
-/

namespace Vely

/-- The byte behind a number or a literal that a text starts with. -/
def leftByte (s : List UInt8) : JsonToken → UInt8
  | .digit =>
    match velyJsonNum s with
    | some (_, n) => byteAt s n
    | none => 0
  | .word _ word => if s.take word.length = word then byteAt s word.length else 0
  | _ => 0

/-- The byte behind a number or a literal that is the root of a text. -/
def heldByte (text : List UInt8) : UInt8 :=
  let s := text.dropWhile isBlank
  leftByte (s ++ [0]) (jsonToken (byteAt s 0))

/-- A handler does not stop at a number or a literal. -/
def PassesScalars (cfg : JsonConfig) : Prop :=
  ∀ handler, cfg.nodeHandler = some handler →
    ∀ st str type, type ≠ .string → handler st str type = true

/-- A value was read, and what may follow it is expected. -/
def JsonFlags.isAfter (fl : JsonFlags) : Bool :=
  fl.expectedCommaOrEndArray || fl.expectedCommaOrEndObject

/-- There is no error, the text has its terminator, and the position is in it. -/
structure InText (len : Nat) (st : JsonState) : Prop where
  ec : st.ec = -1
  size : st.val.length = len + 1
  terminated : byteAt st.val len = 0
  inside : st.i ≤ len

/-- A byte that is left is still to be read. -/
def Settled (len : Nat) (st : JsonState) : Prop :=
  st.nulled = 0 ∧ st.ec ≠ -1 ∨ Stuck len st ∨ InText len st ∧ (st.nulled = 0 ∨ st.i < len)

/-- How a call goes on: behind a token no byte is left, unless it was a value that leaves one. -/
def NextSettled (len : Nat) (fl : JsonFlags) (left : UInt8) : JsonNext → Prop
  | .endj st => Settled len st ∧ (st.nulled = 0 ∨ fl.isValue = true ∧ st.nulled = left)
  | .loop fl' st => InText len st ∧ st.nulled = 0 ∧ (fl.isValue = false → fl'.isValue = false)
  | .call st fl' => InText len st ∧ st.nulled = 0 ∧ fl'.isAfter = true

/-! ### The tokens -/

section Tokens

variable {cfg : JsonConfig} {fl : JsonFlags} {st st' : JsonState} {left : UInt8}

theorem isValue_of_isAfter (h : fl.isAfter = true) :
  fl.isValue = false
  := by
  obtain ⟨a, b, c, d, e, f⟩ := fl
  cases a <;> cases b <;> cases c <;> cases d <;> first | rfl | cases h

theorem isValue_of_unmet
    (h : fl.unmet [.colon, .commaOrEndArray, .commaOrEndObject, .name] = none) :
  fl.isValue = true
  := by
  rw [JsonFlags.isValue, h]
  rfl

theorem isAfter_of_unmet (h : fl.unmet [.colon, .commaOrEndArray, .commaOrEndObject] = none) :
  fl.isAfter = false
  := by
  obtain ⟨a, b, c, d, e, f⟩ := fl
  cases a <;> cases b <;> cases c <;> first | rfl | cases h

/-- Only the stack is changed. -/
theorem modifyNode_eq {k : Int} {f : JsonNode → JsonNode} (h : st.modifyNode k f = .ok st') :
  st' = st.withList (st.list.modify k.toNat f)
  := by
  rw [JsonState.modifyNode] at h
  split at h
  · exact (Except.ok.inj h).symm
  · cases h

theorem InText.skip (h : InText cfg.len st) (hi : st.i < cfg.len) :
  InText cfg.len (st.skip 1)
  := ⟨h.ec, h.size, h.terminated, hi⟩

theorem InText.withList (h : InText cfg.len st) (l : List JsonNode) :
  InText cfg.len (st.withList l)
  := ⟨h.ec, h.size, h.terminated, h.inside⟩

theorem InText.pop (h : InText cfg.len st) :
  InText cfg.len { st with listC := st.listC - 1 }
  := ⟨h.ec, h.size, h.terminated, h.inside⟩

theorem settled_leave (h : Settled cfg.len st) :
  Settled cfg.len (leaveValue st)
  := by
  rcases h with ⟨hn, hec⟩ | hstuck | ⟨hplaced, hready⟩
  · exact .inl ⟨hn, hec⟩
  · exact .inr (.inl ⟨hstuck.inside, hstuck.nulled, hstuck.quote⟩)
  · exact .inr (.inr ⟨⟨hplaced.ec, hplaced.size, hplaced.terminated, hplaced.inside⟩, hready⟩)

theorem settled_fail (h : st.nulled = 0) (errm : String) :
  NextSettled cfg.len fl left (.endj (st.fail errm))
  := ⟨.inl ⟨h, ec_fail st errm⟩, .inl h⟩

theorem settled_endj (h : InText cfg.len st) (hn : st.nulled = 0) :
  NextSettled cfg.len fl left (.endj st)
  := ⟨.inr (.inr ⟨h, .inl hn⟩), .inl hn⟩

/-- A zero stays when another byte is overwritten by zero. -/
theorem byteAt_set_zero {s : List UInt8} {j k : Nat} (h : byteAt s j = 0) :
  byteAt (s.set k 0) j = 0
  := by
  rw [byteAt, List.getD_eq_getElem?_getD] at h ⊢
  rw [List.getElem?_set]
  split
  · split <;> rfl
  · exact h

/-- A leaf is added: only the stack and the nodes change, unless the handler stops. -/
theorem addJson_cases {type : JsonType} {str : Nat} {more : Bool}
    (h : addJson cfg st type str = .ok (more, st')) :
  ∃ list nodes, list.length = st.list.length
    ∧ ((more = true ∧ st' = { st with list, nodes })
    ∨ (more = false
      ∧ st' = JsonState.fail { st with list, nodes } "JSON parsing interrupted by a request handler"
      ∧ ¬ (PassesScalars cfg ∧ type ≠ .string)))
  := by
  rw [addJson] at h
  obtain ⟨s, hs, h⟩ := exists_of_bind h
  have hnode : ∃ nodes, s = { st with nodes } := by
    rw [addNode] at hs
    split at hs
    · obtain ⟨name, -, hs⟩ := exists_of_bind hs
      exact ⟨_, (Except.ok.inj hs).symm⟩
    · exact ⟨st.nodes, (Except.ok.inj hs).symm⟩
  obtain ⟨nodes, rfl⟩ := hnode
  cases hhandler : cfg.nodeHandler with
  | none =>
    rw [hhandler] at h
    obtain ⟨rfl, rfl⟩ := Prod.mk.inj (Except.ok.inj h)
    exact ⟨st.list, nodes, rfl, .inl ⟨rfl, rfl⟩⟩
  | some handler =>
    rw [hhandler] at h
    obtain ⟨t, ht, h⟩ := exists_of_bind h
    obtain rfl := modifyNode_eq ht
    split at h
    · obtain ⟨rfl, rfl⟩ := Prod.mk.inj (Except.ok.inj h)
      exact ⟨_, nodes, List.length_modify .., .inl ⟨rfl, rfl⟩⟩
    · next hstop =>
      obtain ⟨rfl, rfl⟩ := Prod.mk.inj (Except.ok.inj h)
      refine ⟨_, nodes, List.length_modify .., .inr ⟨rfl, rfl, ?_⟩⟩
      rintro ⟨hpasses, htype⟩
      exact hstop (hpasses handler hhandler _ _ _ htype)

/-- A leaf is added: the handler may stop, but the text stays as it is. -/
theorem addJson_settled {type : JsonType} {str : Nat} {more : Bool}
    (h : addJson cfg st type str = .ok (more, st')) :
  st'.val = st.val ∧ st'.i = st.i ∧ st'.nulled = st.nulled
    ∧ (more = true ∧ st'.ec = st.ec ∨ more = false ∧ st'.ec ≠ -1
      ∧ ¬ (PassesScalars cfg ∧ type ≠ .string))
  := by
  obtain ⟨list, nodes, -, ⟨rfl, rfl⟩ | ⟨rfl, rfl, hstop⟩⟩ := addJson_cases h
  · exact ⟨rfl, rfl, rfl, .inl ⟨rfl, rfl⟩⟩
  · exact ⟨rfl, rfl, rfl, .inr ⟨rfl, ec_fail _ _, hstop⟩⟩

/-- A number or a literal inside the text leaves the byte behind it, unless the text ends there. -/
theorem scalarToken_settled (hcfg : PassesScalars cfg) (h : InText cfg.len st)
    (hvalue : fl.isValue = true) {type : JsonType} (htype : type ≠ .string) {n : Nat}
    (hn : st.i + n ≤ cfg.len) {next : JsonNext} (hnext : scalarToken cfg st type n = .ok next) :
  NextSettled cfg.len fl (byteAt st.val (st.i + n)) next
  := by
  rw [scalarToken] at hnext
  obtain ⟨⟨more, s⟩, hadd, hnext⟩ := exists_of_bind hnext
  obtain ⟨hval, hi, hnulled, ⟨rfl, hec⟩ | ⟨-, -, hpasses⟩⟩ := addJson_settled hadd
  · obtain rfl := Except.ok.inj hnext
    simp only at hval hi hnulled hec
    have hplaced : InText cfg.len { s.skip n with listC := (s.skip n).listC - 1 } := by
      refine ⟨hec.trans h.ec, ?_, ?_, ?_⟩
      · change s.val.length = _
        rw [hval, List.length_set, h.size]
      · change byteAt s.val cfg.len = 0
        rw [hval]
        exact byteAt_set_zero h.terminated
      · change s.i + n ≤ cfg.len
        rwa [hi]
    refine ⟨.inr (.inr ⟨hplaced, ?_⟩), .inr ⟨hvalue, hnulled⟩⟩
    · rcases Nat.lt_or_ge (st.i + n) cfg.len with hlt | hge
      · right
        change s.i + n < cfg.len
        rwa [hi]
      · left
        change s.nulled = 0
        rw [hnulled, show st.i + n = cfg.len by omega, h.terminated]
  · exact absurd ⟨hcfg, htype⟩ hpasses

/-- What is left of the text ends with its terminator. -/
theorem InText.exists_rest (h : InText cfg.len st) :
  ∃ s, st.val.drop st.i = s ++ [0] ∧ st.i + s.length = cfg.len
  := by
  have hsize := h.size
  have hinside := h.inside
  have hlast : st.val.drop cfg.len = [0] := by
    have hlen : (st.val.drop cfg.len).length = 1 := by
      rw [List.length_drop]
      omega
    obtain ⟨c, hc⟩ := List.length_eq_one_iff.mp hlen
    have hterm := h.terminated
    rw [← Nat.add_zero cfg.len, ← byteAt_drop, hc, byteAt_cons_zero] at hterm
    rw [hc, hterm]
  refine ⟨(st.val.drop st.i).take (cfg.len - st.i), ?_, ?_⟩
  · have hsplit := List.take_append_drop (cfg.len - st.i) (st.val.drop st.i)
    rw [List.drop_drop, Nat.add_sub_cancel' hinside, hlast] at hsplit
    exact hsplit.symm
  · rw [List.length_take, List.length_drop]
    omega

/-- A number that is read ends in the text. -/
theorem number_inside (h : InText cfg.len st) {real : Bool} {n : Nat}
    (hnum : velyJsonNum (st.val.drop st.i) = some (real, n)) :
  st.i + n ≤ cfg.len
  := by
  obtain ⟨s, hs, hlen⟩ := h.exists_rest
  rw [hs] at hnum
  obtain ⟨num, t, rfl, -, rfl⟩ := velyJsonNum_text hnum
  rw [List.length_append] at hlen
  omega

/-- A literal that is read ends in the text. -/
theorem literal_inside (h : InText cfg.len st) {word : List UInt8} (hz : 0 ∉ word)
    (hword : (st.val.drop st.i).take word.length = word) :
  st.i + word.length ≤ cfg.len
  := by
  obtain ⟨s, hs, hlen⟩ := h.exists_rest
  rw [hs, take_append_zero_eq_iff hz] at hword
  have hle := congrArg List.length hword
  rw [List.length_take] at hle
  omega

/-- A string ends in the text, or the parser stays in front of it. -/
theorem stringToken_settled (h : InText cfg.len st) (hi : st.i < cfg.len) (hn : st.nulled = 0)
    (hquote : fl.isAfter = false → byteAt st.val st.i = '"'.toUInt8) {next : JsonNext}
    (hnext : stringToken cfg fl st = .ok next) :
  NextSettled cfg.len fl left next
  := by
  rw [stringToken] at hnext
  split at hnext
  · obtain rfl := Except.ok.inj hnext
    exact settled_fail hn _
  · next hunmet =>
    have hsize := h.size
    have hafter := isAfter_of_unmet hunmet
    obtain ⟨u, hu, hnone, hsome⟩ := @velyJsonToUtf8_frame (st.val.drop st.i) cfg.dec (by
      rw [ne_eq, List.drop_eq_nil_iff]
      omega)
    rw [hu, ok_bind] at hnext
    have htake : (st.val.take st.i).length = st.i := by
      rw [List.length_take]
      omega
    cases hstop : u.stop with
    | none =>
      rw [hstop] at hnext
      obtain rfl := Except.ok.inj hnext
      obtain ⟨hlen, hfirst⟩ := hnone hstop
      refine ⟨.inr (.inl ⟨hi, hn, ?_⟩), .inl hn⟩
      change byteAt (st.val.take st.i ++ u.val) st.i = _
      rw [byteAt_append_right (by omega), htake, Nat.sub_self,
        @byteAt_of_take (st.val.drop st.i) u.val 1 0 hfirst (by omega), byteAt_drop]
      exact hquote hafter
    | some stop =>
      obtain ⟨hle, -, hkept, hend⟩ := hsome stop hstop
      have hstop' : st.i + stop < cfg.len := by
        have hbyte : byteAt st.val (st.i + stop) ≠ 0 := by
          rw [← byteAt_drop]
          rcases hend with hend | ⟨-, hend⟩
          · rw [hend]
            decide
          · cases hend
        have hlt := lt_length_of_byteAt hbyte
        rcases Nat.lt_or_ge (st.i + stop) cfg.len with hlt' | hge
        · exact hlt'
        · rw [show st.i + stop = cfg.len by omega, h.terminated] at hbyte
          exact absurd rfl hbyte
      have hplaced : ∀ errm, InText cfg.len
          { st with
            val := (st.val.take st.i ++ u.val).set (st.i + stop) 0
            errm
            i := st.i + stop } := by
        intro errm
        have hlen := hkept.length
        rw [List.length_drop] at hlen
        refine ⟨h.ec, ?_, byteAt_set_zero ?_, hstop'.le⟩
        · simp only [List.length_set, List.length_append, List.length_take]
          omega
        · rw [byteAt_append_right (by omega), htake, hkept.byteAt_eq (by omega), byteAt_drop,
            Nat.add_sub_cancel' h.inside, h.terminated]
      rw [hstop] at hnext
      simp only at hnext
      split at hnext
      · obtain ⟨s, hs, hnext⟩ := exists_of_bind hnext
        obtain rfl := modifyNode_eq hs
        obtain rfl := Except.ok.inj hnext
        exact ⟨((hplaced u.errm).withList _).skip hstop', hn, fun _ => rfl⟩
      · obtain ⟨⟨more, s⟩, hadd, hnext⟩ := exists_of_bind hnext
        obtain rfl := Except.ok.inj hnext
        obtain ⟨hval, hi', hnulled', hmore⟩ := addJson_settled hadd
        simp only at hval hi' hnulled' hmore
        have hn' : s.nulled = 0 := hnulled'.trans hn
        rcases hmore with ⟨rfl, hec⟩ | ⟨rfl, hec, -⟩
        · refine settled_endj ⟨hec.trans h.ec, ?_, ?_, ?_⟩ hn'
          · exact (congrArg List.length hval).trans (hplaced u.errm).size
          · exact (congrArg (byteAt · cfg.len) hval).trans (hplaced u.errm).terminated
          · change s.i + 1 ≤ cfg.len
            omega
        · exact ⟨.inl ⟨hn', hec⟩, .inl hn'⟩

/-- No literal has the type of a string. -/
theorem type_of_jsonToken {c : UInt8} {type : JsonType} {word : List UInt8}
    (h : jsonToken c = .word type word) :
  type ≠ .string
  := by
  rw [jsonToken] at h
  -- the tokens before the words
  iterate 9 (rcases ite_eq_iff.mp h with ⟨-, hc⟩ | ⟨-, h⟩; · cases hc)
  rcases ite_eq_iff.mp h with ⟨-, hc⟩ | ⟨-, h⟩
  · cases hc
    decide
  rcases ite_eq_iff.mp h with ⟨-, hc⟩ | ⟨-, h⟩
  · cases hc
    decide
  rcases ite_eq_iff.mp h with ⟨-, hc⟩ | ⟨-, hc⟩
  · cases hc
    decide
  · cases hc

/-- Behind a token a byte is left only when it was a number or a literal. -/
theorem tokenNext_settled (hcfg : PassesScalars cfg) (h : InText cfg.len st) (hi : st.i < cfg.len)
    (hn : st.nulled = 0) {c : UInt8} (hc : fl.isAfter = false → byteAt st.val st.i = c)
    {next : JsonNext} (hnext : tokenNext cfg fl st (jsonToken c) = .ok next) :
  NextSettled cfg.len fl (leftByte (st.val.drop st.i) (jsonToken c)) next
  := by
  have hstarts := starts_jsonToken c
  have hskip : InText cfg.len (st.skip 1) := h.skip hi
  obtain ⟨token, htoken⟩ : ∃ token, jsonToken c = token := ⟨_, rfl⟩
  rw [htoken] at hnext hstarts ⊢
  cases token with
  | beginObject =>
    obtain rfl := Except.ok.inj hnext
    rw [beginObject]
    split
    · exact settled_fail hn _
    · exact ⟨hskip, hn, fun _ => by simp [JsonFlags.isValue, JsonFlags.unmet, JsonFlags.expects]⟩
  | endObject =>
    obtain rfl := Except.ok.inj hnext
    rw [endObject]
    split
    · exact settled_fail hn _
    · exact settled_endj hskip.pop hn
  | beginArray =>
    rw [tokenNext, beginArray] at hnext
    split at hnext
    · obtain rfl := Except.ok.inj hnext
      exact settled_fail hn _
    · obtain ⟨s, hs, hnext⟩ := exists_of_bind hnext
      obtain rfl := modifyNode_eq hs
      obtain rfl := Except.ok.inj hnext
      exact ⟨hskip.pop.withList _, hn, rfl⟩
  | endArray =>
    rw [tokenNext, endArray] at hnext
    split at hnext
    · obtain rfl := Except.ok.inj hnext
      exact settled_fail hn _
    · obtain ⟨s, hs, hnext⟩ := exists_of_bind hnext
      obtain rfl := modifyNode_eq hs
      obtain rfl := Except.ok.inj hnext
      exact settled_endj (hskip.withList _) hn
  | nameSeparator =>
    obtain rfl := Except.ok.inj hnext
    rw [nameSeparator]
    simp only
    split
    · exact settled_fail hn _
    · exact ⟨hskip, hn, by simp [JsonFlags.isAfter]⟩
  | valueSeparator =>
    rw [tokenNext, valueSeparator] at hnext
    split at hnext
    · obtain rfl := Except.ok.inj hnext
      exact settled_fail hn _
    · simp only at hnext
      split at hnext
      · obtain rfl := Except.ok.inj hnext
        exact ⟨hskip, hn, fun _ => by simp [JsonFlags.isValue, JsonFlags.unmet, JsonFlags.expects]⟩
      · split at hnext
        · next harr =>
          obtain ⟨s, hs, hnext⟩ := exists_of_bind hnext
          obtain rfl := modifyNode_eq hs
          obtain rfl := Except.ok.inj hnext
          exact ⟨hskip.withList _, hn, by simp [JsonFlags.isAfter, harr]⟩
        · obtain rfl := Except.ok.inj hnext
          exact @settled_fail _ _ (st.skip 1) _ hn _
  | blank =>
    obtain rfl := Except.ok.inj hnext
    exact ⟨hskip, hn, id⟩
  | quote =>
    exact stringToken_settled h hi hn (fun hafter => (hc hafter).trans hstarts) hnext
  | digit =>
    rw [tokenNext, numberToken] at hnext
    split at hnext
    · obtain rfl := Except.ok.inj hnext
      exact settled_fail hn _
    · next hunmet =>
      cases hnum : velyJsonNum (st.val.drop st.i) with
      | none =>
        rw [hnum] at hnext
        obtain rfl := Except.ok.inj hnext
        exact settled_fail hn _
      | some num =>
        rw [hnum] at hnext
        have hsettled := scalarToken_settled hcfg h (isValue_of_unmet hunmet) (by split <;> decide)
          (number_inside h hnum) hnext
        rw [leftByte, hnum]
        simp only
        rwa [byteAt_drop]
  | word type word =>
    rw [tokenNext, literalToken] at hnext
    split at hnext
    · obtain rfl := Except.ok.inj hnext
      exact settled_fail hn _
    · next hunmet =>
      split at hnext
      · next hword =>
        rw [leftByte, if_pos hword, byteAt_drop]
        exact scalarToken_settled hcfg h (isValue_of_unmet hunmet) (type_of_jsonToken htoken)
          (literal_inside h (word_of_jsonToken htoken).2 hword) hnext
      · obtain rfl := Except.ok.inj hnext
        exact settled_fail hn _
  | other =>
    obtain rfl := Except.ok.inj hnext
    exact settled_fail hn _

/-! ### The calls -/

/-- The byte behind a value is still to be read, in a call that expects what may follow it. -/
def Ready (len : Nat) (fl : JsonFlags) (st : JsonState) : Prop :=
  InText len st ∧ (st.nulled = 0 ∨ st.i < len ∧ fl.isAfter = true)

/-- The byte that is read is the one in the text, unless another one was overwritten. -/
theorem nchar_settled (h : Ready cfg.len fl st) :
  InText cfg.len st.nchar.2 ∧ st.nchar.2.i = st.i ∧ st.nchar.2.nulled = 0
    ∧ (fl.isAfter = false → byteAt st.nchar.2.val st.nchar.2.i = st.nchar.1)
  := by
  obtain ⟨hplaced, hready⟩ := h
  rw [JsonState.nchar]
  split
  · next hne =>
    refine ⟨⟨hplaced.ec, hplaced.size, hplaced.terminated, hplaced.inside⟩, rfl, rfl, ?_⟩
    rcases hready with hready | ⟨-, hafter⟩
    · exact absurd hready hne
    · intro hfalse
      rw [hafter] at hfalse
      cases hfalse
  · next heq => exact ⟨hplaced, rfl, by simpa using heq, fun _ => rfl⟩

/-- In front of a string that is not well formed the parser reports an error. -/
theorem stuck_settled (h : Stuck cfg.len st) (hafter : fl.isAfter = true) {bound : Nat}
    (hloop : parseLoop cfg bound fl st = .ok st') :
  st'.nulled = 0 ∧ st'.ec ≠ -1
  := by
  cases bound with
  | zero => cases hloop
  | succ bound =>
    have hchar : st.nchar = ('"'.toUInt8, st) := by
      rw [JsonState.nchar, if_neg (by simp [h.nulled]), h.quote]
    rw [parseLoop_succ, if_pos h.inside, hchar] at hloop
    have hquote : jsonToken '"'.toUInt8 = .quote := rfl
    have herror : ∃ errm, tokenNext cfg fl st .quote = .ok (.endj (st.fail errm)) := by
      rw [tokenNext, stringToken]
      split
      · exact ⟨_, rfl⟩
      · next hunmet =>
        rw [isAfter_of_unmet hunmet] at hafter
        cases hafter
    obtain ⟨errm, herror⟩ := herror
    rw [hquote, herror] at hloop
    obtain rfl := Except.ok.inj hloop
    exact ⟨h.nulled, ec_fail st errm⟩

/-- A call starts with no byte left. -/
theorem enterValue_ready (h : InText cfg.len st) (hn : st.nulled = 0)
    (hmore : (enterValue st).2 = true) :
  Ready cfg.len {} (enterValue st).1
  := by
  rw [enterValue] at hmore ⊢
  simp only at hmore ⊢
  split at hmore
  · cases hmore
  · split at hmore
    · cases hmore
    · next hdepth hlevel =>
      rw [if_neg hdepth, if_neg hlevel]
      exact ⟨⟨h.ec, h.size, h.terminated, h.inside⟩, .inl hn⟩

/-- A call that is nested too deep reports an error. -/
theorem enterValue_error (hn : st.nulled = 0) (hmore : (enterValue st).2 = false) :
  (leaveValue (enterValue st).1).nulled = 0 ∧ (leaveValue (enterValue st).1).ec ≠ -1
  := by
  rw [enterValue] at hmore ⊢
  simp only at hmore ⊢
  split at hmore
  · next hdepth =>
    rw [if_pos hdepth]
    exact ⟨hn, ec_fail _ "Depth of leaf node too great"⟩
  · next hdepth =>
    rw [if_neg hdepth]
    split at hmore
    · next hlevel =>
      rw [if_pos hlevel]
      exact ⟨hn, ec_fail _ "Depth of leaf node too great"⟩
    · cases hmore

/-- Behind a call for a value no byte is left, when calls leave none but one that is still to be
read. -/
theorem call_settled {bound : Nat}
    (ih : ∀ {fl : JsonFlags} {st st' : JsonState}, Ready cfg.len fl st →
      parseLoop cfg bound fl st = .ok st' →
      Settled cfg.len st' ∧ (fl.isValue = false → st'.nulled = 0))
    (h : InText cfg.len st) (hn : st.nulled = 0) {after : JsonFlags} (hafter : after.isAfter = true)
    (hnext : resume cfg bound (.call st after) = .ok st') :
  Settled cfg.len st' ∧ st'.nulled = 0
  := by
  obtain ⟨s, hcall, hnext⟩ := exists_of_bind hnext
  have hs : Settled cfg.len s := by
    rw [callValue] at hcall
    simp only at hcall
    split at hcall
    · next hmore => exact (ih (enterValue_ready h hn hmore) hcall).1
    · next hmore =>
      obtain rfl := Except.ok.inj hcall
      exact .inl (enterValue_error hn (by simpa using hmore))
  split at hnext
  · next hec =>
    obtain rfl := Except.ok.inj hnext
    have hnull : s.nulled = 0 := by
      rcases hs with ⟨hnull, -⟩ | hstuck | ⟨hplaced, -⟩
      · exact hnull
      · exact hstuck.nulled
      · exact absurd hplaced.ec hec
    exact ⟨.inl ⟨hnull, hec⟩, hnull⟩
  · next hec =>
    rw [not_not] at hec
    rcases hs with ⟨-, herror⟩ | hstuck | ⟨hplaced, hready⟩
    · exact absurd hec herror
    · obtain ⟨hnull, herror⟩ := stuck_settled hstuck hafter hnext
      exact ⟨.inl ⟨hnull, herror⟩, hnull⟩
    · obtain ⟨hst', hnull⟩ := ih ⟨hplaced, hready.imp_right (⟨·, hafter⟩)⟩ hnext
      exact ⟨hst', hnull (isValue_of_isAfter hafter)⟩

/-- A call leaves no byte but one that is still to be read; and none at all when it did not expect a
value any more. -/
theorem parseLoop_settled (hcfg : PassesScalars cfg) {bound : Nat} (h : Ready cfg.len fl st)
    (hloop : parseLoop cfg bound fl st = .ok st') :
  Settled cfg.len st' ∧ (fl.isValue = false → st'.nulled = 0)
  := by
  induction bound generalizing fl st st' with
  | zero => cases hloop
  | succ bound ih =>
    rw [parseLoop_succ] at hloop
    split at hloop
    · next hi =>
      obtain ⟨hplaced, hi', hnulled, hchar⟩ := nchar_settled h
      obtain ⟨next, htoken, hnext⟩ := exists_of_bind hloop
      have hsettled := tokenNext_settled hcfg hplaced (by rwa [hi']) hnulled hchar htoken
      cases next with
      | endj s =>
        obtain rfl := Except.ok.inj hnext
        obtain ⟨hs, hvalue⟩ := hsettled
        refine ⟨settled_leave hs, fun hfalse => ?_⟩
        rcases hvalue with hzero | ⟨htrue, -⟩
        · exact hzero
        · rw [hfalse] at htrue
          cases htrue
      | loop fl' s =>
        obtain ⟨hs, hzero, hvalue⟩ := hsettled
        obtain ⟨hst', hnull⟩ := ih ⟨hs, .inl hzero⟩ hnext
        exact ⟨hst', fun hv => hnull (hvalue hv)⟩
      | call s after =>
        obtain ⟨hs, hzero, hafter⟩ := hsettled
        obtain ⟨hst', hnull⟩ := call_settled (fun h hloop => ih h hloop) hs hzero hafter hnext
        exact ⟨hst', fun _ => hnull⟩
    · next hi =>
      obtain rfl := Except.ok.inj hloop
      have hzero : st.nulled = 0 := by
        rcases h.2 with hzero | ⟨hlt, -⟩
        · exact hzero
        · exact absurd hlt hi
      exact ⟨.inr (.inr ⟨⟨h.1.ec, h.1.size, h.1.terminated, h.1.inside⟩, .inl hzero⟩), fun _ => hzero⟩

/-- A call that expects a value goes on expecting one behind white space only. -/
theorem loop_of_value {token : JsonToken} {s : JsonState}
    (h : tokenNext cfg {} st token = .ok (.loop fl s)) :
  token = .blank ∧ fl = {} ∧ s = st.skip 1 ∨ fl.isValue = false
  := by
  cases token with
  | beginObject =>
    obtain ⟨rfl, rfl⟩ := JsonNext.loop.inj (Except.ok.inj h)
    exact .inr rfl
  | blank =>
    obtain ⟨rfl, rfl⟩ := JsonNext.loop.inj (Except.ok.inj h)
    exact .inl ⟨rfl, rfl, rfl⟩
  | endObject => cases h
  | nameSeparator => cases h
  | valueSeparator => cases h
  | other => cases h
  | beginArray =>
    obtain ⟨s, -, hs⟩ := exists_of_bind h
    cases hs
  | endArray =>
    obtain ⟨s, -, hs⟩ := exists_of_bind h
    cases hs
  | quote =>
    obtain ⟨u, -, hu⟩ := exists_of_bind h
    cases hstop : u.stop with
    | none =>
      rw [hstop] at hu
      cases hu
    | some stop =>
      rw [hstop] at hu
      obtain ⟨⟨more, s⟩, -, hs⟩ := exists_of_bind hu
      cases more <;> cases hs
  | digit =>
    rw [tokenNext, numberToken_of_met rfl] at h
    cases hnum : velyJsonNum (st.val.drop st.i) with
    | none =>
      rw [hnum] at h
      cases h
    | some num =>
      rw [hnum] at h
      obtain ⟨⟨more, s⟩, -, hs⟩ := exists_of_bind h
      cases more <;> cases hs
  | word type word =>
    change (if (st.val.drop st.i).take word.length = word then scalarToken cfg st type word.length
      else return .endj (st.fail "Unknown entity (true, false or null)"))
      = Except.ok (JsonNext.loop fl s) at h
    split at h
    · obtain ⟨⟨more, s⟩, -, hs⟩ := exists_of_bind h
      cases more <;> cases hs
    · cases h

theorem heldByte_blank {c : UInt8} (hc : isBlank c = true) (s : List UInt8) :
  heldByte (c :: s) = heldByte s
  := by
  rw [heldByte, List.dropWhile_cons_of_pos hc]
  rfl

/-- A first call leaves no byte but the one behind the root of its text. -/
theorem parseLoop_root (hcfg : PassesScalars cfg) {bound : Nat} (h : InText cfg.len st)
    (hn : st.nulled = 0) {s : List UInt8} (hs : st.val.drop st.i = s ++ [0])
    (hloop : parseLoop cfg bound {} st = .ok st') :
  st'.nulled = 0 ∨ st'.nulled = heldByte s
  := by
  induction bound generalizing st st' s with
  | zero => cases hloop
  | succ bound ih =>
    have hlength : st.i + s.length = cfg.len := by
      obtain ⟨s', hs', hlength⟩ := h.exists_rest
      rw [hs] at hs'
      obtain rfl := List.append_cancel_right hs'
      exact hlength
    rw [parseLoop_succ] at hloop
    split at hloop
    · next hi =>
      have hchar : st.nchar = (byteAt st.val st.i, st) := if_neg (by simp [hn])
      rw [hchar] at hloop
      obtain ⟨next, htoken, hnext⟩ := exists_of_bind hloop
      have hsettled := tokenNext_settled hcfg h hi hn (fun _ => rfl) htoken
      cases s with
      | nil =>
        rw [List.length_nil] at hlength
        omega
      | cons c s =>
        have hc : byteAt st.val st.i = c := by
          rw [← Nat.add_zero st.i, ← byteAt_drop, hs]
          rfl
        rw [hc] at htoken hsettled
        cases hblank : isBlank c with
        | true =>
          rw [jsonToken_blank hblank] at htoken
          obtain rfl := Except.ok.inj htoken
          rw [heldByte_blank hblank]
          apply ih (h.skip hi) hn _ hnext
          change st.val.drop (st.i + 1) = _
          rw [← List.drop_drop, hs]
          rfl
        | false =>
          have hheld : heldByte (c :: s) = leftByte (st.val.drop st.i) (jsonToken c) := by
            rw [heldByte, List.dropWhile_cons_of_neg (by simp [hblank]), hs]
            rfl
          cases next with
          | endj t =>
            obtain rfl := Except.ok.inj hnext
            rw [hheld]
            exact hsettled.2.imp_right And.right
          | loop fl t =>
            obtain ⟨ht, hzero, -⟩ := hsettled
            rcases loop_of_value htoken with ⟨heq, -, -⟩ | hvalue
            · have hstarts := starts_jsonToken c
              rw [heq] at hstarts
              exact absurd hstarts (by simp [JsonToken.Starts, hblank])
            · exact .inl ((parseLoop_settled hcfg ⟨ht, .inl hzero⟩ hnext).2 hvalue)
          | call t after =>
            obtain ⟨ht, hzero, hafter⟩ := hsettled
            exact .inl (call_settled (parseLoop_settled hcfg) ht hzero hafter hnext).2
    · next hi =>
      obtain rfl := Except.ok.inj hloop
      exact .inl hn

end Tokens

end Vely
