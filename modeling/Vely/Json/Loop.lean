import Vely.Json.Follow

/-!
# The loop of the parser and the reader

What the parser does about each token, and by induction what a whole call of it comes to.
-/

namespace Vely

/-! ### Strings -/

/-- The string at the beginning of bytes with a zero among them. -/
theorem string_before_zero {l : List UInt8} {n : Nat} (hn : n < l.length) (h : byteAt l n = 0) :
  (l.takeWhile (· ≠ 0)).length ≤ n
    ∧ l.take (l.takeWhile (· ≠ 0)).length = l.takeWhile (· ≠ 0)
    ∧ byteAt l (l.takeWhile (· ≠ 0)).length = 0 ∧ 0 ∉ l.takeWhile (· ≠ 0)
  := by
  induction l generalizing n with
  | nil => simp at hn
  | cons c l ih =>
    by_cases hc : c = 0
    · simp [hc]
    · obtain ⟨m, rfl⟩ : ∃ m, n = m + 1 := by
        cases n with
        | zero => exact absurd h hc
        | succ m => exact ⟨m, rfl⟩
      obtain ⟨hle, htake, hbyte, hz⟩ := ih (by simpa using hn) h
      rw [List.takeWhile_cons_of_pos (by simpa using hc)]
      refine ⟨by simpa using hle, by rw [List.length_cons, List.take_succ_cons, htake], hbyte, ?_⟩
      rw [List.mem_cons, not_or]
      exact ⟨Ne.symm hc, hz⟩

section Strings

variable {len depth : Nat} {st : JsonState} {r : JsonReader} {rest : List UInt8}

/-- The text with a string replaced by what was decoded of it, and its end overwritten. -/
def decodedText (st : JsonState) (u : Utf8Result) (stop : Nat) : List UInt8 :=
  (st.val.take st.i ++ u.val).set (st.i + stop) 0

/-- What is in the text where a string was decoded. -/
structure DecodedString (st : JsonState) (u : Utf8Result) (stop : Nat) (s : JsonStringRead) :
    Prop where
  quotes : 1 ≤ stop
  name : ((decodedText st u stop).drop (st.i + 1)).take (stop - 1) = s.name
  value : ((decodedText st u stop).drop (st.i + 1)).take s.value.length = s.value
  terminated : byteAt (decodedText st u stop) (st.i + 1 + s.value.length) = 0
  inside : s.value.length + 1 ≤ stop
  nonzero : 0 ∉ s.value

/-- A quoted string that is decoded where the parser stands: the parser stays in front of one that
is not well formed, and passes any other. -/
theorem quoted_follows (dec : Bool) (h : Mirrors len st depth r)
    (hr : r.rest = '"'.toUInt8 :: rest) (hheld : r.held = false) :
  ∃ u, velyJsonToUtf8 (st.val.drop st.i) true dec = .ok u
    ∧ match u.stop with
      | none => readString dec r.rest = none
        ∧ ∀ errm, Stuck len { st with val := st.val.take st.i ++ u.val, errm }
      | some stop => ∃ s, readString dec r.rest = some s ∧ s.rest.length < r.rest.length
        ∧ DecodedString st u stop s
        ∧ ∀ errm, Mirrors len
          { st with val := decodedText st u stop, errm, i := st.i + stop + 1 } depth
          { r with rest := s.rest, held := false }
  := by
  have htext := h.drop_eq hheld
  have hsize := h.size
  have hlen := h.length_val
  have hpos : 0 < r.rest.length := by
    rw [hr]
    simp
  obtain ⟨u, hu, hnone, hsome⟩ := @velyJsonToUtf8_frame (st.val.drop st.i) dec (by rw [htext]; simp)
  refine ⟨u, hu, ?_⟩
  rw [htext] at hu hnone hsome
  have hfirst : (st.val.take st.i).length = st.i := by
    rw [List.length_take]
    omega
  cases hstop : u.stop with
  | none =>
    obtain ⟨hl, htake⟩ := hnone hstop
    simp only
    constructor
    · rw [readString, hu]
      cases u
      simp only at hstop
      rw [hstop]
    · intro errm
      refine ⟨by simp only; omega, ?_, ?_⟩
      · have hnulled := h.nulled
        rw [hheld] at hnulled
        exact hnulled
      · simp only
        rw [byteAt_append_right (by omega), hfirst, Nat.sub_self]
        have h0 := @byteAt_of_take _ _ 1 0 htake (by omega)
        rw [h0, hr]
        rfl
  | some stop =>
    obtain ⟨hle, -, hkept, hquote⟩ := hsome stop hstop
    have hstop' : stop < r.rest.length := by
      rcases hquote with hquote | ⟨-, hquote⟩
      · rw [byteAt_append_zero] at hquote
        apply lt_length_of_byteAt
        rw [hquote]
        decide
      · cases hquote
    have hul : u.val.length = r.rest.length + 1 := by simp [hkept.length]
    have htext' : decodedText st u stop = st.val.take st.i ++ u.val.set stop 0 := by
      rw [decodedText, List.set_append_right _ _ (by omega), hfirst, Nat.add_sub_cancel_left]
    have hdrop : ∀ k, (decodedText st u stop).drop (st.i + k) = (u.val.set stop 0).drop k := by
      intro k
      rw [htext', ← List.drop_drop, List.drop_left' hfirst]
    have hzero : byteAt ((u.val.set stop 0).drop 1) (stop - 1) = 0 := by
      rw [byteAt_drop, Nat.add_sub_cancel' hle, byteAt, List.getD_eq_getElem?_getD,
        List.getElem?_set_self (by omega)]
      rfl
    obtain ⟨hvle, hvtake, hvbyte, hvz⟩ := string_before_zero
      (by rw [List.length_drop, List.length_set]; omega) hzero
    refine ⟨⟨((u.val.set stop 0).drop 1).takeWhile (· ≠ 0), (u.val.drop 1).take (stop - 1),
      r.rest.drop (stop + 1), isContent ((r.rest.drop 1).take (stop - 1))⟩, ?_, ?_,
      ⟨hle, ?_, ?_, ?_, ?_, ?_⟩, ?_⟩
    · rw [readString, hu]
      cases u
      simp only at hstop
      rw [hstop]
    · simp only [List.length_drop]
      omega
    · rw [hdrop, List.drop_set, if_neg (by omega), List.take_set_of_le (by omega)]
    · rw [hdrop]
      exact hvtake
    · rw [← byteAt_drop, hdrop]
      exact hvbyte
    · simp only
      omega
    · exact hvz
    · intro errm
      have hnulled := h.nulled
      rw [hheld] at hnulled
      have hbehind := congrArg (List.drop 1) hkept.behind
      rw [List.drop_drop, List.drop_drop, List.drop_append_of_le_length (by omega)] at hbehind
      have hadvance := @Mirrors.advance len depth st r h (by simp [hr]) (decodedText st u stop)
        (st.i + stop + 1) st.nulled errm (r.rest.drop (stop + 1)) false
        (by rw [List.length_drop]; omega) hnulled
        (by
          rw [Nat.add_assoc, hdrop, List.drop_set_of_lt (by omega), hbehind]
          rfl)
        (by
          rw [htext', List.take_append, hfirst, Nat.add_sub_cancel_left, List.take_take,
            Nat.min_eq_right (by omega), List.take_set_of_le hle, hkept.before, ← htext,
            List.take_add])
        (by omega)
      exact hadvance

end Strings

/-! ### One step -/

/-- How a call goes on after a token. -/
def resume (cfg : JsonConfig) (bound : Nat) : JsonNext → Except Stop JsonState
  | .endj st => .ok (leaveValue st)
  | .loop fl st => parseLoop cfg bound fl st
  | .call st after => do
    let st ← callValue (parseLoop cfg bound {}) st
    if st.ec ≠ -1 then .ok (leaveValue st) else parseLoop cfg bound after st

theorem parseLoop_succ (cfg : JsonConfig) (bound : Nat) (fl : JsonFlags) (st : JsonState) :
  parseLoop cfg (bound + 1) fl st
    = if st.i < cfg.len then
        tokenNext cfg fl st.nchar.2 (jsonToken st.nchar.1) >>= resume cfg bound
      else .ok (leaveValue { st with listC := st.listC - 1 })
  := by
  rw [parseLoop]
  split
  · obtain ⟨c, st'⟩ := st.nchar
    simp only [← parseToken_eq]
    cases parseToken cfg fl st' c with
    | error e => rfl
    | ok next => cases next <;> rfl
  · rfl

/-- An error is reported where the parser is. -/
theorem ec_fail (st : JsonState) (errm : String) :
  (st.fail errm).ec ≠ -1
  := by
  simp only [JsonState.fail]
  omega

theorem ec_leave_fail (st : JsonState) (errm : String) :
  (leaveValue (st.fail errm)).ec ≠ -1
  := ec_fail st errm

theorem readString_length {dec : Bool} {text : List UInt8} {s : JsonStringRead}
    (h : readString dec text = some s) :
  s.rest.length ≤ text.length
  := by
  rw [readString] at h
  split at h
  · obtain rfl := Option.some.inj h
    simp
  · cases h

/-- A reader after some steps: what is read of a text is not put back, and a grammar that was left
once is left for good. -/
structure Later (r r' : JsonReader) : Prop where
  length : r'.rest.length ≤ r.rest.length
  sound : r'.sound = true → r.sound = true

theorem Later.trans {r r' r'' : JsonReader} (h : Later r r') (h' : Later r' r'') :
  Later r r''
  := ⟨h'.length.trans h.length, fun hs => h.sound (h'.sound hs)⟩

theorem enter_later {depth : Nat} {r r' : JsonReader}
    {call : Nat → JsonReader → Option JsonReader}
    (hcall : ∀ d r r', call d r = some r' → Later r r') (h : r.enter depth call = some r') :
  Later r r'
  := by
  rw [JsonReader.enter] at h
  split at h
  · cases h
  · have hlater := hcall (depth + 1) { r with top := r.top + 1 } _ h
    exact ⟨hlater.length, hlater.sound⟩

theorem readJson_later {dec : Bool} {bound depth : Nat} {mode : JsonMode} {r r' : JsonReader}
    (h : readJson dec bound depth mode r = some r') :
  Later r r'
  := by
  induction bound generalizing depth mode r r' with
  | zero => cases h
  | succ bound ih =>
    -- a call for a value, and what is read after it
    have hcalls : ∀ {mode' : JsonMode} {r₁ : JsonReader},
        (r₁.enter depth (fun d r => readJson dec bound d .value r)).bind
          (fun r => readJson dec bound depth mode' r) = some r' → Later r₁ r' := by
      intro mode' r₁ h
      obtain ⟨r₂, hr₂, hr'⟩ := Option.bind_eq_some_iff.mp h
      exact (enter_later (fun _ _ _ => ih) hr₂).trans (ih hr')
    have hand : ∀ {ok : Bool}, (r.sound && ok) = true → r.sound = true :=
      fun hs => (Bool.and_eq_true_iff.mp hs).1
    rw [readJson] at h
    cases hr : r.rest with
    | nil =>
      simp only [hr] at h
      obtain rfl := Option.some.inj h
      exact ⟨le_of_eq (by rw [JsonReader.check, JsonReader.pop]), hand⟩
    | cons c rest =>
      simp only [hr] at h
      have hstep : ∀ {x : JsonReader}, Later x r' → x.rest.length ≤ rest.length →
          (x.sound = true → r.sound = true) → Later r r' := by
        intro x hx hle hs
        have hlater : Later r x := ⟨by rw [hr]; exact hle.trans (by simp), hs⟩
        exact hlater.trans hx
      have hstring : ∀ {x : JsonReader} {s : JsonStringRead}, readString dec (c :: rest) = some s →
          Later x r' → x.rest = s.rest → (x.sound = true → r.sound = true) → Later r r' := by
        intro x s hs hx hrest hsound
        have hlater : Later r x := ⟨by rw [hr, hrest]; exact readString_length hs, hsound⟩
        exact hlater.trans hx
      have hscalar : ∀ {n : Nat}, r'.rest = (c :: rest).drop n →
          r'.sound = r.sound → Later r r' := by
        intro n hrest hs
        exact ⟨by rw [hr, hrest]; simp, fun h => hs ▸ h⟩
      have hrefl : Later r' r' := ⟨le_rfl, id⟩
      split at h
      · exact hstep (ih h) le_rfl id
      · exact hstep (ih h) le_rfl id
      · obtain rfl := Option.some.inj h
        exact hstep hrefl le_rfl hand
      · obtain rfl := Option.some.inj h
        exact hstep hrefl le_rfl id
      · obtain rfl := Option.some.inj h
        exact hstep hrefl le_rfl id
      · split at h
        · cases h
        · exact hstep (hcalls h) le_rfl id
      · obtain rfl := Option.some.inj h
        exact hstep hrefl le_rfl hand
      · obtain rfl := Option.some.inj h
        exact hstep hrefl le_rfl id
      · exact hstep (hcalls h) le_rfl id
      · exact hstep (hcalls h) le_rfl hand
      · exact hstep (ih h) le_rfl id
      · exact hstep (hcalls h) le_rfl id
      · obtain ⟨s, hs, h⟩ := Option.bind_eq_some_iff.mp h
        exact hstring hs (ih h) rfl hand
      · obtain ⟨s, hs, h⟩ := Option.bind_eq_some_iff.mp h
        obtain rfl := Option.some.inj h
        exact hstring hs hrefl rfl hand
      · obtain ⟨x, hx, h⟩ := Option.bind_eq_some_iff.mp h
        obtain rfl := Option.some.inj h
        exact hscalar (by rw [← hr]; rfl) rfl
      · split at h
        · obtain rfl := Option.some.inj h
          exact hscalar (by rw [← hr]; rfl) rfl
        · cases h
      · cases h

/-- What a call of the parser comes to, with a bound on its steps. -/
def LoopFollows (cfg : JsonConfig) (bound : Nat) : Prop :=
  ∀ {mode : JsonMode} {depth base : Nat} {st : JsonState} {r : JsonReader},
    Mirrors cfg.len st depth r → (r.rest ≠ [] → mode.Levels base r.top) →
    (mode.after = false → r.held = false) → r.rest.length < bound →
    Follows cfg.len (depth - 1) base (parseLoop cfg bound mode.flags st)
      (readJson cfg.dec bound depth mode r)

section Calls

variable {cfg : JsonConfig} {bound depth base : Nat} {st : JsonState} {r : JsonReader}

/-- In front of a string where none may stand, the parser reports an error. -/
theorem stuck_rejects {mode : JsonMode} (hst : Stuck cfg.len st) (hafter : mode.after = true) :
  Rejects cfg.len (parseLoop cfg (bound + 1) mode.flags st)
  := by
  have hnchar : st.nchar.1 = '"'.toUInt8 := by
    rw [JsonState.nchar, if_neg (by simpa using hst.nulled)]
    exact hst.quote
  have htoken : jsonToken '"'.toUInt8 = .quote := by rfl
  obtain ⟨st', errm, herror⟩ := tokenNext_error cfg st.nchar.2
    (show mode.accepts .quote = false by cases mode <;> first | rfl | cases hafter)
  rw [parseLoop_succ, if_pos hst.inside, hnchar, htoken, herror, ok_bind, resume]
  exact .inr ⟨_, rfl, .inl (ec_fail st' errm)⟩

/-- A call for a value, and what the caller does after it. -/
theorem call_follows {mode : JsonMode} (ih : LoopFollows cfg bound) (h : Mirrors cfg.len st depth r)
    (hlistC : st.listC = (r.top : Int) - 1) (hheld : r.held = false) (hlen : r.rest.length < bound)
    (hafter : mode.after = true)
    (hlevels : ∀ top, r.top ≤ top → mode.Levels base top) :
  Follows cfg.len (depth - 1) base (resume cfg bound (.call st mode.flags))
    ((r.enter depth (fun d r => readJson cfg.dec bound d .value r)).bind
      (fun r => readJson cfg.dec bound depth mode r))
  := by
  have hdepth := h.depth_eq
  rw [resume, callValue, JsonReader.enter]
  by_cases hdeep : jsonMaxNested ≤ depth + 1
  · -- too many calls
    have henter : enterValue st
        = ({ st with depth := st.depth + 1 }.fail "Depth of leaf node too great", false) := by
      rw [enterValue, if_pos (by rw [hdepth]; exact hdeep)]
    rw [henter, if_pos (.inl hdeep)]
    simp only [Bool.false_eq_true, if_false, ok_bind]
    rw [if_pos (ec_leave_fail _ _)]
    exact .inr ⟨_, rfl, .inl (ec_fail { st with depth := st.depth + 1 }
      "Depth of leaf node too great")⟩
  · by_cases hmany : jsonMaxNested ≤ r.top + 1
    · -- too many levels
      have henter : enterValue st = ({ st with
          depth := st.depth + 1, listC := st.listC + 1 }.fail "Depth of leaf node too great",
            false) := by
        rw [enterValue, if_neg (by rw [hdepth]; exact hdeep)]
        simp only
        rw [if_pos (by rw [hlistC]; omega)]
      rw [henter, if_pos (.inr hmany)]
      simp only [Bool.false_eq_true, if_false, ok_bind]
      rw [if_pos (ec_leave_fail _ _)]
      exact .inr ⟨_, rfl, .inl (ec_fail { st with depth := st.depth + 1 }
      "Depth of leaf node too great")⟩
    · have henter : enterValue st
          = ({ st with depth := st.depth + 1, listC := st.listC + 1 }, true) := by
        rw [enterValue, if_neg (by rw [hdepth]; exact hdeep)]
        simp only
        rw [if_neg (by rw [hlistC]; omega)]
      rw [henter, if_neg (by simp only [not_or]; exact ⟨hdeep, hmany⟩)]
      simp only [if_true]
      have hmirrors : Mirrors cfg.len { st with depth := st.depth + 1, listC := st.listC + 1 }
          (depth + 1) { r with top := r.top + 1 } :=
        { h with
          depth_eq := by simp only [hdepth]
          listC := by
            intro _
            simp only [hlistC]
            omega
          bounded := by
            intro _
            simp only
            omega }
      have hcall := @ih .value _ r.top _ _ hmirrors (fun _ => rfl) (fun _ => hheld) hlen
      rw [Nat.add_sub_cancel] at hcall
      cases hread : readJson cfg.dec bound (depth + 1) .value { r with top := r.top + 1 } with
      | none =>
        rw [hread] at hcall
        rw [Option.bind_none]
        rcases hcall with hfault | ⟨st', hst', hec | hstuck⟩
        · exact .inl (by rw [JsonMode.flags] at hfault; rw [hfault]; rfl)
        · rw [JsonMode.flags] at hst'
          rw [hst', ok_bind, if_pos hec]
          exact .inr ⟨_, rfl, .inl hec⟩
        · rw [JsonMode.flags] at hst'
          rw [hst', ok_bind]
          split
          · next hec => exact .inr ⟨_, rfl, .inl hec⟩
          · obtain ⟨b, rfl⟩ : ∃ b, bound = b + 1 := ⟨bound - 1, by omega⟩
            apply stuck_rejects hstuck hafter
      | some r' =>
        rw [hread] at hcall
        obtain ⟨st', hst', hmirrors', htop⟩ := hcall
        rw [JsonMode.flags] at hst'
        rw [Option.bind_some, hst', ok_bind, if_neg (by simpa using hmirrors'.ec)]
        apply ih hmirrors' (fun hrest => hlevels _ (htop hrest))
        · intro h0
          rw [hafter] at h0
          cases h0
        · exact (readJson_later hread).length.trans_lt hlen

end Calls

/-! ### Leaves -/

section Leaves

variable {cfg : JsonConfig} {depth : Nat} {st : JsonState} {r : JsonReader}

/-- A node is added for a leaf. -/
theorem addJson_eq (husehash : cfg.usehash = true) (hhandler : cfg.nodeHandler = none)
    (h : Mirrors cfg.len st depth r) (hrest : r.rest ≠ []) (htop : 1 ≤ r.top) (st' : JsonState)
    (hval : st'.val.take st.i = st.val.take st.i) (hlen : st'.val.length = st.val.length)
    (hlist : st'.list = st.list) (hlistC : st'.listC = st.listC) (type : JsonType) (str : Nat) :
  addJson cfg st' type str = .ok (true,
    { st' with nodes := st'.nodes ++ [⟨JsonReader.leafName r.levels (r.top - 1), type, str⟩] })
  := by
  rw [addJson, addNode, if_pos husehash, hlist, hlistC, h.fullname hrest htop hval hlen, ok_bind]
  simp only [pure_eq_ok, ok_bind, hhandler]

/-- A number or a literal is read, and the byte behind it overwritten. -/
theorem scalarToken_follows (husehash : cfg.usehash = true) (hhandler : cfg.nodeHandler = none)
    (h : Mirrors cfg.len st depth r) (hheld : r.held = false) (htop : 1 ≤ r.top)
    (type : JsonType) {n : Nat} (hn : 1 ≤ n) (hle : n ≤ r.rest.length) (hz : 0 ∉ r.rest.take n) :
  ∃ st', scalarToken cfg st type n = .ok (.endj st') ∧ Mirrors cfg.len st' depth (r.scalar type n)
  := by
  have hrest : r.rest ≠ [] := by
    intro hnil
    rw [hnil, List.length_nil] at hle
    omega
  have htext := h.drop_eq hheld
  have hsize := h.size
  have hlen := h.length_val
  have hdrop : st.val.drop (st.i + n) = r.rest.drop n ++ [0] := by
    rw [← List.drop_drop, htext, List.drop_append_of_le_length hle]
  have hadd := addJson_eq husehash hhandler h hrest htop
    { st with nulled := byteAt st.val (st.i + n), val := st.val.set (st.i + n) 0 }
    (List.take_set_of_le (by omega)) List.length_set rfl rfl type st.i
  have hnulled : byteAt st.val (st.i + n) = byteAt (r.rest.drop n) 0 := by
    have h0 := byteAt_drop st.val (st.i + n) 0
    rw [hdrop, Nat.add_zero, byteAt_append_zero] at h0
    exact h0.symm
  have hadvance := @Mirrors.advance _ _ _ _ h hrest (st.val.set (st.i + n) 0) (st.i + n)
    (byteAt st.val (st.i + n)) st.errm (r.rest.drop n) true (by rw [List.length_drop]; omega) hnulled
    (by
      rw [List.drop_set, if_neg (by omega), Nat.sub_self, hdrop]
      cases r.rest.drop n <;> rfl)
    (List.take_set_of_le (by omega)) (by omega)
  have hvalue : (r.rest.take n).length = n := by
    rw [List.length_take]
    omega
  have hnode : NodeAt (st.val.set (st.i + n) 0) (st.i + n)
      ⟨JsonReader.leafName r.levels (r.top - 1), type, st.i⟩
      ⟨JsonReader.leafName r.levels (r.top - 1), type, r.rest.take n⟩ :=
    { name := rfl
      type := rfl
      stop := by
        simp only [hvalue]
        omega
      value := by
        simp only [hvalue]
        rw [List.drop_set, if_neg (by omega), Nat.add_sub_cancel_left, List.take_set_of_le (by omega),
          htext, List.take_append_of_le_length hle]
      terminated := by
        simp only [hvalue]
        rw [byteAt, List.getD_eq_getElem?_getD, List.getElem?_set_self (by omega)]
        rfl
      nonzero := hz }
  exact ⟨_, by rw [scalarToken, hadd]; rfl, (hadvance.add hnode).pop (fun _ => htop)⟩

end Leaves

end Vely
