import Vely.Json.Mirror
import Vely.Json.Number

/-!
# The parser follows the reader

From a state that mirrors one of the reader, a call of the parser comes to its end, and reports no
error exactly when the reader reads on to its end; the states they end in mirror each other.  There
are two ways to report an error late: a string that is not well formed ends the call without an
error, but then the parser stands in front of it, where its caller does not expect a string.
-/

namespace Vely

namespace JsonMode

/-- The flags of a call in this mode. -/
def flags : JsonMode → JsonFlags
  | .value => {}
  | .name => { isobj := true, expectedName := true }
  | .colon => { isobj := true, expectedColon := true }
  | .member => { isobj := true, expectedCommaOrEndObject := true }
  | .element => { isarr := true, expectedCommaOrEndArray := true }
  | .loose => { expectedCommaOrEndObject := true }

/-- The levels of a call that was made with `base` levels. -/
def Levels (mode : JsonMode) (base top : Nat) : Prop :=
  match mode with
  | .value => top = base + 1
  | .element => base ≤ top ∧ 1 ≤ base
  | _ => base + 1 ≤ top

/-- Whether a value was read, so that the next byte may be behind a number. -/
def after : JsonMode → Bool
  | .value => false
  | .name => false
  | .colon => false
  | .member => true
  | .element => true
  | .loose => true

end JsonMode

/-- A call ended without an error at a string that is not well formed. -/
structure Stuck (len : Nat) (st : JsonState) : Prop where
  inside : st.i < len
  nulled : st.nulled = 0
  quote : byteAt st.val st.i = '"'.toUInt8

/-- The parser reports an error, or will, or does what the language leaves undefined. -/
def Rejects (len : Nat) (x : Except Stop JsonState) : Prop :=
  x = .error .fault ∨ ∃ st, x = .ok st ∧ (st.ec ≠ -1 ∨ Stuck len st)

/-- What a call of the parser made with `base` levels comes to, as the reader does. -/
def Follows (len depth base : Nat) (x : Except Stop JsonState) (y : Option JsonReader) : Prop :=
  match y with
  | some r => ∃ st, x = .ok st ∧ Mirrors len st depth r ∧ (r.rest ≠ [] → base ≤ r.top)
  | none => Rejects len x

/-! ### Changes of mirrored states -/

section Mirrors

variable {len depth : Nat} {st : JsonState} {r : JsonReader} {c : UInt8} {rest : List UInt8}

namespace Mirrors

/-- The position goes on, and the text is changed behind the byte at the old position only. -/
theorem advance (h : Mirrors len st depth r) (hrest : r.rest ≠ []) {val' : List UInt8} {j : Nat}
    {nulled : UInt8} {errm : String} {rest' : List UInt8} {held' : Bool}
    (hsize : j + rest'.length = len)
    (hnulled : nulled = if held' then byteAt rest' 0 else 0)
    (htext : val'.drop j = if held' then 0 :: (rest' ++ [0]).tail else rest' ++ [0])
    (hval : val'.take (st.i + 1) = st.val.take (st.i + 1)) (hij : st.i ≤ j) :
  Mirrors len { st with val := val', i := j, nulled, errm } depth
    { r with rest := rest', held := held' }
  where
  size := hsize
  nulled := hnulled
  text := htext
  depth_eq := h.depth_eq
  listC _ := h.listC hrest
  bounded _ := h.bounded hrest
  list := h.list
  levels := by
    intro k node hnode
    obtain ⟨hindex, hname⟩ := h.levels k node hnode
    have hval' := congrArg (List.take st.i) hval
    rw [List.take_take, List.take_take, Nat.min_eq_left (by omega)] at hval'
    exact ⟨hindex, hname.frame hval' hij⟩
  nodes := by
    apply h.nodes.imp
    intro n leaf hn
    exact hn.frame hval hij
  ec := h.ec

/-- A level is changed. -/
theorem modifyNode (h : Mirrors len st depth r) {k : Nat} (hk : k < jsonMaxNested)
    {f : JsonNode → JsonNode} {l : JsonLevel}
    (hf : ∀ node, st.list[k]? = some node →
      (f node).index = l.index ∧ NameAt st.val st.i (f node) l.name) :
  ∃ st', st.modifyNode k f = .ok st' ∧ Mirrors len st' depth (r.setLevel k l)
    ∧ st'.listC = st.listC
  := by
  refine ⟨{ st with list := st.list.modify k f }, ?_, ?_, rfl⟩
  · rw [JsonState.modifyNode, Int.toNat_natCast, if_pos ⟨by omega, by rw [h.list]; exact hk⟩]
  · refine { h with list := ?_, levels := ?_ }
    · rw [List.length_modify, h.list]
    · intro j node hnode
      rw [List.getElem?_modify] at hnode
      simp only [JsonReader.setLevel]
      rcases eq_or_ne k j with rfl | hkj
      · simp only at hnode
        obtain ⟨node', hnode', rfl⟩ := Option.map_eq_some_iff.mp hnode
        rw [Function.update_self]
        exact hf node' hnode'
      · simp only [if_neg hkj] at hnode
        rw [Function.update_of_ne hkj.symm]
        exact h.levels j node (by simpa using hnode)

/-- A level gets the next index. -/
theorem bump (h : Mirrors len st depth r) {k : Nat} (hk : k < jsonMaxNested) :
  ∃ st', st.modifyNode k nextIndex = .ok st' ∧ Mirrors len st' depth (r.bump k)
    ∧ st'.listC = st.listC
  := by
  apply h.modifyNode hk
  intro node hnode
  obtain ⟨hindex, hname⟩ := h.levels k node hnode
  exact ⟨by simp [nextIndex, hindex], hname⟩

/-- A level gets no index. -/
theorem unindex (h : Mirrors len st depth r) {k : Nat} (hk : k < jsonMaxNested) :
  ∃ st', st.modifyNode k (fun node => { node with index := none }) = .ok st'
    ∧ Mirrors len st' depth (r.unindex k) ∧ st'.listC = st.listC
  := by
  apply h.modifyNode hk
  intro node hnode
  exact ⟨rfl, (h.levels k node hnode).2⟩

/-- The reader notes whether the grammar is kept to. -/
theorem check (h : Mirrors len st depth r) (ok : Bool) :
  Mirrors len st depth (r.check ok)
  := { h with }

/-- The level of a value is left. -/
theorem pop (h : Mirrors len st depth r) (htop : r.rest ≠ [] → 1 ≤ r.top) :
  Mirrors len { st with listC := st.listC - 1 } depth r.pop
  where
  size := h.size
  nulled := h.nulled
  text := h.text
  depth_eq := h.depth_eq
  listC hrest := by
    have htop' := htop hrest
    have hlistC := h.listC hrest
    simp only [JsonReader.pop]
    omega
  bounded hrest := by
    have hbounded := h.bounded hrest
    simp only [JsonReader.pop]
    omega
  list := h.list
  levels := h.levels
  nodes := h.nodes
  ec := h.ec

/-- The call is left. -/
theorem leave (h : Mirrors len st depth r) :
  Mirrors len (leaveValue st) (depth - 1) r
  := { h with depth_eq := by simp [leaveValue, h.depth_eq] }

/-- A leaf is added. -/
theorem add (h : Mirrors len st depth r) {n : Jsonn} {leaf : JsonLeaf}
    (hn : NodeAt st.val st.i n leaf) :
  Mirrors len { st with nodes := st.nodes ++ [n] } depth { r with leaves := r.leaves ++ [leaf] }
  := { h with nodes := List.rel_append h.nodes (List.Forall₂.cons hn List.Forall₂.nil) }

end Mirrors

end Mirrors

/-! ### The tokens -/

/-- What the loop does about a token. -/
def tokenNext (cfg : JsonConfig) (fl : JsonFlags) (st : JsonState) :
    JsonToken → Except Stop JsonNext
  | .beginObject => .ok (beginObject fl st)
  | .endObject => .ok (endObject fl st)
  | .beginArray => beginArray fl st
  | .endArray => endArray fl st
  | .nameSeparator => .ok (nameSeparator fl st)
  | .valueSeparator => valueSeparator fl st
  | .blank => .ok (.loop fl (st.skip 1))
  | .quote => stringToken cfg fl st
  | .digit => numberToken cfg fl st
  | .word type word => literalToken cfg fl st type word
  | .other => .ok (.endj (st.fail "Unrecognized token"))

theorem parseToken_eq (cfg : JsonConfig) (fl : JsonFlags) (st : JsonState) (c : UInt8) :
  parseToken cfg fl st c = tokenNext cfg fl st (jsonToken c)
  := by
  have hblank : isBlank c = true ↔ c = 32 ∨ c = 9 ∨ c = 10 ∨ c = 13 := by
    simp [isBlank, or_assoc]
  simp only [parseToken, jsonToken, hblank, apply_ite (tokenNext cfg fl st)]
  rfl

/-- What is done about a digit where a value may stand. -/
theorem numberToken_of_met {cfg : JsonConfig} {fl : JsonFlags} {st : JsonState}
    (h : fl.unmet [.colon, .commaOrEndArray, .commaOrEndObject, .name] = none) :
  numberToken cfg fl st = match velyJsonNum (st.val.drop st.i) with
    | none => .ok (.endj (st.fail "Cannot parse a number"))
    | some (real, n) => scalarToken cfg st (if real then .real else .number) n
  := by
  rw [numberToken, h]
  rfl

/-- Whether a token may stand where a call is in a mode. -/
def JsonMode.accepts : JsonMode → JsonToken → Bool
  | _, .blank => true
  | .value, .beginObject => true
  | .value, .endObject => true
  | .member, .endObject => true
  | .loose, .endObject => true
  | .value, .beginArray => true
  | .value, .endArray => true
  | .element, .endArray => true
  | .colon, .nameSeparator => true
  | .value, .nameSeparator => true
  | .member, .valueSeparator => true
  | .element, .valueSeparator => true
  | .name, .quote => true
  | .value, .quote => true
  | .value, .digit => true
  | .value, .word _ _ => true
  | _, _ => false

/-- The parser reports an error at a token that may not stand there. -/
theorem tokenNext_error (cfg : JsonConfig) {mode : JsonMode} {token : JsonToken} (st : JsonState)
    (h : mode.accepts token = false) :
  ∃ st' errm, tokenNext cfg mode.flags st token = .ok (.endj (JsonState.fail st' errm))
  := by
  cases token <;> cases mode <;> first | exact ⟨_, _, rfl⟩ | cases h

/-- The reader stops at such a token. -/
theorem readJson_none {dec : Bool} {bound depth : Nat} {mode : JsonMode} {r : JsonReader} {c : UInt8}
    {rest : List UInt8} (hr : r.rest = c :: rest) (h : mode.accepts (jsonToken c) = false) :
  readJson dec (bound + 1) depth mode r = none
  := by
  rw [readJson, hr]
  simp only
  generalize jsonToken c = token at h
  cases token <;> cases mode <;> first | rfl | cases h

end Vely
