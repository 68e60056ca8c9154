import Vely.Json.Settle

/-!
# One parse after another

After parses that leave no byte, a parse gives what it gives as the first one, when it finds its
leaves below names.
-/

namespace Vely

section Stack

variable {cfg : JsonConfig} {fl : JsonFlags} {st st' : JsonState}

/-! ### The stack -/

/-- The state a call goes on with. -/
def JsonNext.state : JsonNext → JsonState
  | .loop _ st => st
  | .call st _ => st
  | .endj st => st

theorem length_modifyNode {k : Int} {f : JsonNode → JsonNode} (h : st.modifyNode k f = .ok st') :
  st'.list.length = st.list.length
  := by
  rw [modifyNode_eq h]
  exact List.length_modify ..

theorem length_addJson {type : JsonType} {str : Nat} {more : Bool}
    (h : addJson cfg st type str = .ok (more, st')) :
  st'.list.length = st.list.length
  := by
  obtain ⟨list, nodes, hlength, ⟨rfl, rfl⟩ | ⟨rfl, rfl, -⟩⟩ := addJson_cases h
  · exact hlength
  · exact hlength

theorem length_scalarToken {type : JsonType} {n : Nat} {next : JsonNext}
    (h : scalarToken cfg st type n = .ok next) :
  next.state.list.length = st.list.length
  := by
  obtain ⟨⟨more, s⟩, hadd, h⟩ := exists_of_bind h
  obtain rfl := Except.ok.inj h
  have hlength := length_addJson hadd
  cases more <;> exact hlength

/-- A token leaves the stack its size. -/
theorem length_tokenNext {token : JsonToken} {next : JsonNext}
    (h : tokenNext cfg fl st token = .ok next) :
  next.state.list.length = st.list.length
  := by
  cases token with
  | beginObject =>
    obtain rfl := Except.ok.inj h
    rw [beginObject]
    split <;> rfl
  | endObject =>
    obtain rfl := Except.ok.inj h
    rw [endObject]
    split <;> rfl
  | nameSeparator =>
    obtain rfl := Except.ok.inj h
    rw [nameSeparator]
    simp only
    split <;> rfl
  | blank =>
    obtain rfl := Except.ok.inj h
    rfl
  | other =>
    obtain rfl := Except.ok.inj h
    rfl
  | beginArray =>
    rw [tokenNext, beginArray] at h
    split at h
    · obtain rfl := Except.ok.inj h
      rfl
    · obtain ⟨s, hs, h⟩ := exists_of_bind h
      obtain rfl := Except.ok.inj h
      have hlength := length_modifyNode hs
      exact hlength
  | endArray =>
    rw [tokenNext, endArray] at h
    split at h
    · obtain rfl := Except.ok.inj h
      rfl
    · obtain ⟨s, hs, h⟩ := exists_of_bind h
      obtain rfl := Except.ok.inj h
      have hlength := length_modifyNode hs
      exact hlength
  | valueSeparator =>
    rw [tokenNext, valueSeparator] at h
    split at h
    · obtain rfl := Except.ok.inj h
      rfl
    · simp only at h
      split at h
      · obtain rfl := Except.ok.inj h
        rfl
      · split at h
        · obtain ⟨s, hs, h⟩ := exists_of_bind h
          obtain rfl := Except.ok.inj h
          have hlength := length_modifyNode hs
          exact hlength
        · obtain rfl := Except.ok.inj h
          rfl
  | quote =>
    rw [tokenNext, stringToken] at h
    split at h
    · obtain rfl := Except.ok.inj h
      rfl
    · obtain ⟨u, -, h⟩ := exists_of_bind h
      split at h
      · obtain rfl := Except.ok.inj h
        rfl
      · simp only at h
        split at h
        · obtain ⟨s, hs, h⟩ := exists_of_bind h
          obtain rfl := Except.ok.inj h
          have hlength := length_modifyNode hs
          exact hlength
        · obtain ⟨⟨more, s⟩, hadd, h⟩ := exists_of_bind h
          obtain rfl := Except.ok.inj h
          have hlength := length_addJson hadd
          cases more <;> exact hlength
  | digit =>
    rw [tokenNext, numberToken] at h
    split at h
    · obtain rfl := Except.ok.inj h
      rfl
    · split at h
      · obtain rfl := Except.ok.inj h
        rfl
      · exact length_scalarToken h
  | word type word =>
    rw [tokenNext, literalToken] at h
    split at h
    · obtain rfl := Except.ok.inj h
      rfl
    · split at h
      · exact length_scalarToken h
      · obtain rfl := Except.ok.inj h
        rfl

theorem length_enterValue (st : JsonState) :
  (enterValue st).1.list.length = st.list.length
  := by
  rw [enterValue]
  simp only
  split
  · rfl
  · split <;> rfl

/-- A call whose loop leaves the stack its size does so. -/
theorem length_callValue {loop : JsonState → Except Stop JsonState}
    (hloop : ∀ {s s'}, loop s = .ok s' → s'.list.length = s.list.length)
    (h : callValue loop st = .ok st') :
  st'.list.length = st.list.length
  := by
  rw [callValue] at h
  simp only at h
  split at h
  · exact (hloop h).trans (length_enterValue st)
  · obtain rfl := Except.ok.inj h
    exact length_enterValue st

/-- A call leaves the stack its size. -/
theorem length_parseLoop {bound : Nat} (h : parseLoop cfg bound fl st = .ok st') :
  st'.list.length = st.list.length
  := by
  induction bound generalizing fl st st' with
  | zero => cases h
  | succ bound ih =>
    rw [parseLoop_succ] at h
    split at h
    · obtain ⟨next, htoken, h⟩ := exists_of_bind h
      have hlength := length_tokenNext htoken
      have hchar : st.nchar.2.list.length = st.list.length := by
        rw [JsonState.nchar]
        split <;> rfl
      rw [hchar] at hlength
      cases next with
      | endj s =>
        obtain rfl := Except.ok.inj h
        exact hlength
      | loop fl' s => exact (ih h).trans hlength
      | call s after =>
        obtain ⟨t, hcall, h⟩ := exists_of_bind h
        have ht := length_callValue (fun h => ih h) hcall
        split at h
        · obtain rfl := Except.ok.inj h
          exact ht.trans hlength
        · exact (ih h).trans (ht.trans hlength)
    · obtain rfl := Except.ok.inj h
      rfl

end Stack

/-! ### Sequences of parses -/

/-- A call of `vely_json_new` from outside: whether there is a hash, the node handler, whether
strings are decoded, and the text. -/
structure JsonCall where
  usehash : Bool
  nodeHandler : Option (JsonState → Nat → JsonType → Bool)
  dec : Bool
  text : List UInt8

namespace JsonCall

/-- What a call is set up with. -/
def config (c : JsonCall) : JsonConfig :=
  { usehash := c.usehash, nodeHandler := c.nodeHandler, dec := c.dec, len := c.text.length }

/-- A call with the static variables as the calls before it left them. -/
def parse (c : JsonCall) (statics : JsonState) : Except Stop JsonState :=
  velyJsonNew c.usehash c.nodeHandler c.dec statics c.text

/-- A call leaves no byte to the next one: the root of its text is no number or literal with
something behind it, and the handler does not stop at a number or a literal. -/
def LeavesNoByte (c : JsonCall) : Prop := PassesScalars c.config ∧ heldByte c.text = 0

/-- As the first one, a call finds every leaf below names. -/
def FindsNames (c : JsonCall) : Prop :=
  LeavesNamed c.config (c.text.length + 1) {} (enterValue (startParse .initial c.text)).1

/-- What a call gives: the position of the error or that there is none, its message, the nodes, and
the text they point into. -/
def result (c : JsonCall) (statics : JsonState) :
    Except Stop (Int × String × List Jsonn × List UInt8) :=
  (c.parse statics).map (fun st => (st.ec, st.errm, st.nodes, st.val))

end JsonCall

/-- Calls one after the other; the last one leaves the static variables. -/
def parses : List JsonCall → JsonState → Except Stop JsonState
  | [], statics => .ok statics
  | c :: cs, statics => do
    let statics ← c.parse statics
    parses cs statics

/-- The static variables hold no byte, and the stack has its size. -/
structure Rested (statics : JsonState) : Prop where
  nulled : statics.nulled = 0
  list : statics.list.length = jsonMaxNested

theorem rested_initial :
  Rested .initial
  := ⟨rfl, List.length_replicate⟩

/-- A call that leaves no byte leaves the static variables rested. -/
theorem JsonCall.parse_rested {c : JsonCall} (hc : c.LeavesNoByte) {statics statics' : JsonState}
    (h : Rested statics) (hparse : c.parse statics = .ok statics') :
  Rested statics'
  := by
  obtain ⟨st, hcall, hst⟩ := exists_of_bind hparse
  obtain rfl := Except.ok.inj hst
  have hcall : parseLoop c.config (c.text.length + 1) {}
      { startParse statics c.text with depth := 1, listC := 0 } = .ok st := hcall
  have hfinish : (finishParse c.config st).nulled = st.nulled
      ∧ (finishParse c.config st).list = st.list := by
    rw [finishParse]
    split
    · exact ⟨rfl, rfl⟩
    · exact ⟨rfl, rfl⟩
  refine ⟨?_, ?_⟩
  · have hplaced : InText c.config.len { startParse statics c.text with depth := 1, listC := 0 } := by
      refine ⟨rfl, ?_, ?_, Nat.zero_le _⟩
      · exact List.length_append
      · change byteAt (c.text ++ [0]) c.text.length = 0
        rw [byteAt_append_right le_rfl, Nat.sub_self]
        rfl
    have hroot := parseLoop_root hc.1 hplaced h.nulled (s := c.text) rfl hcall
    rw [hc.2, or_self] at hroot
    exact hfinish.1.trans hroot
  · have hlength := length_parseLoop hcall
    change (finishParse c.config st).list.length = _
    rw [hfinish.2, hlength]
    simp [startParse, h.list]

/-- Calls that leave no byte leave the static variables rested. -/
theorem parses_rested {cs : List JsonCall} (hcs : ∀ c ∈ cs, c.LeavesNoByte)
    {statics statics' : JsonState} (h : Rested statics) (hparses : parses cs statics = .ok statics') :
  Rested statics'
  := by
  induction cs generalizing statics with
  | nil =>
    obtain rfl := Except.ok.inj hparses
    exact h
  | cons c cs ih =>
    obtain ⟨s, hs, hrest⟩ := exists_of_bind hparses
    exact ih (fun c hc => hcs c (by simp [hc])) (JsonCall.parse_rested (hcs c (by simp)) h hs) hrest

/-- From rested static variables a parse starts as the first one. -/
theorem startParse_alike {statics : JsonState} (h : Rested statics) (text : List UInt8) :
  Alike (startParse .initial text) (startParse statics text)
  := by
  refine ⟨(startParse statics text).list, ?_, ?_⟩
  · rw [startParse, startParse, List.forall₂_map_left_iff, List.forall₂_map_right_iff,
      List.forall₂_iff_get]
    refine ⟨by rw [h.list]; exact List.length_replicate, ?_⟩
    intro k _ _
    exact ⟨rfl, rfl, fun hne => absurd rfl hne⟩
  · rw [startParse, startParse, h.nulled]
    rfl

/-- The stack does not matter behind the value. -/
theorem finishParse_withList (cfg : JsonConfig) (st : JsonState) (l : List JsonNode) :
  finishParse cfg (st.withList l) = (finishParse cfg st).withList l
  := by
  obtain ⟨n, hn⟩ : ∃ n, n = ((st.val.drop st.i).takeWhile isspace).length := ⟨_, rfl⟩
  by_cases h : st.ec = -1 ∧ st.i + n < cfg.len
  · rw [hn] at h
    have h₁ : finishParse cfg st = _ := if_pos h
    have h₂ : finishParse cfg (st.withList l) = _ := if_pos h
    rw [h₁, h₂]
    rfl
  · rw [hn] at h
    have h₁ : finishParse cfg st = _ := if_neg h
    have h₂ : finishParse cfg (st.withList l) = _ := if_neg h
    rw [h₁, h₂]
    rfl

/-- A call without a handler, which makes a hash and decodes strings. -/
def plainCall (text : List UInt8) : JsonCall := ⟨true, none, true, text⟩

end Vely
