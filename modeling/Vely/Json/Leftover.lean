import Vely.Json.Contract
import Vely.Lib.Run

/-!
# What a parse leaves for the next one

A parse starts with two static variables that it does not set: the byte that was overwritten last,
and the lengths of names that are NULL.  The lengths do not matter while every leaf is found below
names; then parses from two states that differ in them only go on alike.
-/

namespace Vely

/-! ### States that differ in the lengths of names that are NULL -/

/-- Two entries of the stack are the same, but for the length of a name that is NULL. -/
structure SameNode (a b : JsonNode) : Prop where
  name : b.name = a.name
  index : b.index = a.index
  nameLen : a.name ≠ none → b.nameLen = a.nameLen

/-- The stack is replaced. -/
def JsonState.withList (st : JsonState) (l : List JsonNode) : JsonState := { st with list := l }

/-- Two states are the same, but for the lengths of names that are NULL. -/
def Alike (st st' : JsonState) : Prop :=
  ∃ l, List.Forall₂ SameNode st.list l ∧ st' = st.withList l

/-- The levels below the current one have names. -/
def Named (st : JsonState) : Prop :=
  ∀ (k : Nat) (node : JsonNode), (k : Int) < st.listC → st.list[k]? = some node → node.name ≠ none

/-- A handler does not look at the length of a name that is NULL. -/
def IgnoresLengths (cfg : JsonConfig) : Prop :=
  ∀ handler, cfg.nodeHandler = some handler → ∀ st st', Alike st st' → handler st = handler st'

/-- How calls go on alike. -/
def NextAlike : JsonNext → JsonNext → Prop
  | .loop fl st, .loop fl' st' => fl' = fl ∧ Alike st st'
  | .call st fl, .call st' fl' => fl' = fl ∧ Alike st st'
  | .endj st, .endj st' => Alike st st'
  | _, _ => False

section Alike

variable {st st' : JsonState} {cfg : JsonConfig} {fl : JsonFlags}

theorem Alike.refl (st : JsonState) :
  Alike st st
  := ⟨st.list, List.forall₂_same.mpr (fun _ _ => ⟨rfl, rfl, fun _ => rfl⟩), rfl⟩

/-- Entries stay the same where one of them is changed. -/
theorem forall₂_modify {l l' : List JsonNode} (hl : List.Forall₂ SameNode l l') (n : Nat)
    {f : JsonNode → JsonNode} (hf : ∀ a b, SameNode a b → SameNode (f a) (f b)) :
  List.Forall₂ SameNode (l.modify n f) (l'.modify n f)
  := by
  induction hl generalizing n with
  | nil => simp
  | cons hab hl ih =>
    cases n with
    | zero => exact List.Forall₂.cons (hf _ _ hab) hl
    | succ n => exact List.Forall₂.cons hab (ih n)

/-- A change of an entry keeps states alike when it keeps entries the same. -/
theorem Alike.modifyNode (h : Alike st st') (k : Int) {f : JsonNode → JsonNode}
    (hf : ∀ a b, SameNode a b → SameNode (f a) (f b)) :
  EndsAlike Alike (st.modifyNode k f) (st'.modifyNode k f)
  := by
  obtain ⟨l, hl, rfl⟩ := h
  rw [JsonState.modifyNode, JsonState.modifyNode, JsonState.withList, hl.length_eq]
  split
  · exact ⟨l.modify k.toNat f, forall₂_modify hl k.toNat hf, rfl⟩
  · rfl

/-- The names of levels that have names are the same. -/
theorem nameParts_alike {val : List UInt8} {l l' : List JsonNode} (hl : List.Forall₂ SameNode l l')
    {n : Nat} (hn : ∀ k < n, ∀ node, l[k]? = some node → node.name ≠ none) :
  nameParts val l' n = nameParts val l n
  := by
  induction n with
  | zero => rfl
  | succ n ih =>
    rw [nameParts, nameParts, ih (fun k hk => hn k (by omega))]
    congr 1
    funext fulln
    have hnode := hn n (by omega)
    have hget := List.forall₂_iff_get.mp hl
    cases ha : l[n]? with
    | none =>
      have hb : l'[n]? = none := by
        rw [List.getElem?_eq_none_iff] at ha ⊢
        rwa [← hget.1]
      rw [hb]
    | some a =>
      obtain ⟨hlt, hla⟩ := List.getElem?_eq_some_iff.mp ha
      have hlt' : n < l'.length := by rwa [← hget.1]
      have hsame := hget.2 n hlt hlt'
      rw [List.get_eq_getElem, List.get_eq_getElem, hla] at hsame
      have hname := hnode a ha
      rw [List.getElem?_eq_getElem hlt', deref_some, deref_some, ok_bind, ok_bind, hsame.index, nameBytes,
        nameBytes, hsame.name, hsame.nameLen hname]

/-- The normalized name is the same when the levels below have names. -/
theorem addNode_alike (h : Alike st st') (hnamed : cfg.usehash = true → Named st) (type : JsonType)
    (str : Nat) :
  EndsAlike Alike (addNode cfg st type str) (addNode cfg st' type str)
  := by
  obtain ⟨l, hl, rfl⟩ := h
  rw [addNode, addNode]
  split
  · next husehash =>
    have hname : velyJsonFullname st.val l st.listC = velyJsonFullname st.val st.list st.listC := by
      rw [velyJsonFullname, velyJsonFullname, nameParts_alike hl]
      intro k hk node hnode
      exact hnamed husehash k node (by omega) hnode
    change EndsAlike Alike _ (velyJsonFullname st.val l st.listC >>= _)
    rw [hname]
    cases velyJsonFullname st.val st.list st.listC with
    | ok name => exact ⟨l, hl, rfl⟩
    | error e => rfl
  · exact ⟨l, hl, rfl⟩

/-- A leaf is added alike. -/
theorem addJson_alike (h : Alike st st') (hcfg : IgnoresLengths cfg)
    (hnamed : cfg.usehash = true → Named st) (type : JsonType) (str : Nat) :
  EndsAlike (fun a b => b.1 = a.1 ∧ Alike a.2 b.2) (addJson cfg st type str) (addJson cfg st' type str)
  := by
  apply (addNode_alike h hnamed type str).bind
  intro s s' _ hs
  cases hhandler : cfg.nodeHandler with
  | none => exact ⟨rfl, hs⟩
  | some handler =>
    have hlistC : s'.listC = s.listC := by
      obtain ⟨l, -, rfl⟩ := hs
      rfl
    simp only
    rw [hlistC]
    have hforget := hs.modifyNode s.listC (f := fun node => { node with name := none })
      (fun a b hab => ⟨rfl, hab.index, fun hne => absurd rfl hne⟩)
    apply hforget.bind
    intro t t' _ ht
    rw [hcfg handler hhandler t t' ht]
    split
    · exact ⟨rfl, ht⟩
    · obtain ⟨l, hl, rfl⟩ := ht
      exact ⟨rfl, l, hl, rfl⟩

/-! ### The tokens -/

/-- Behind a leaf the calls end alike. -/
theorem endLeaf_alike {x y : Except Stop (Bool × JsonState)}
    (h : EndsAlike (fun a b => b.1 = a.1 ∧ Alike a.2 b.2) x y) (n : Nat) :
  EndsAlike NextAlike
    (x >>= fun a => pure (if a.1 then endValue (a.2.skip n) else .endj a.2))
    (y >>= fun a => pure (if a.1 then endValue (a.2.skip n) else .endj a.2))
  := by
  apply h.bind
  rintro ⟨more, a⟩ ⟨more', b⟩ - ⟨hmore, l, hl, hb⟩
  simp only at hmore hb
  rw [hmore, hb]
  cases more with
  | true => exact ⟨l, hl, rfl⟩
  | false => exact ⟨l, hl, rfl⟩

/-- A number or a literal is taken alike. -/
theorem scalarToken_alike (h : Alike st st') (hcfg : IgnoresLengths cfg)
    (hnamed : cfg.usehash = true → Named st) (type : JsonType) (n : Nat) :
  EndsAlike NextAlike (scalarToken cfg st type n) (scalarToken cfg st' type n)
  := by
  obtain ⟨l, hl, rfl⟩ := h
  have hset : Alike { st with nulled := byteAt st.val (st.i + n), val := st.val.set (st.i + n) 0 }
      { st.withList l with nulled := byteAt st.val (st.i + n), val := st.val.set (st.i + n) 0 } :=
    ⟨l, hl, rfl⟩
  exact endLeaf_alike (addJson_alike hset hcfg hnamed type st.i) n

/-- Whether a call expects a value. -/
def JsonFlags.isValue (fl : JsonFlags) : Bool :=
  (fl.unmet [.colon, .commaOrEndArray, .commaOrEndObject, .name]).isNone

/-- Whether a leaf starts with a token. -/
def JsonToken.isLeaf : JsonToken → Bool
  | .quote => true
  | .digit => true
  | .word _ _ => true
  | _ => false

/-- A string is taken alike. -/
theorem stringToken_alike (h : Alike st st') (hcfg : IgnoresLengths cfg)
    (hnamed : fl.isValue = true → cfg.usehash = true → Named st) :
  EndsAlike NextAlike (stringToken cfg fl st) (stringToken cfg fl st')
  := by
  obtain ⟨l, hl, rfl⟩ := h
  rw [stringToken, stringToken]
  split
  · exact ⟨l, hl, rfl⟩
  · next hunmet =>
    change EndsAlike NextAlike (velyJsonToUtf8 (st.val.drop st.i) true cfg.dec >>= _)
      (velyJsonToUtf8 (st.val.drop st.i) true cfg.dec >>= _)
    cases velyJsonToUtf8 (st.val.drop st.i) true cfg.dec with
    | error e => rfl
    | ok u =>
      rw [ok_bind, ok_bind]
      cases hstop : u.stop with
      | none => exact ⟨l, hl, rfl⟩
      | some stop =>
        have hset : Alike
            { st with
              val := (st.val.take st.i ++ u.val).set (st.i + stop) 0
              errm := u.errm
              i := st.i + stop }
            { st.withList l with
              val := (st.val.take st.i ++ u.val).set (st.i + stop) 0
              errm := u.errm
              i := st.i + stop } := ⟨l, hl, rfl⟩
        simp only
        split
        · have hname := hset.modifyNode st.listC
            (f := fun node => { node with name := some (st.i + 1), nameLen := stop - 1 })
            (fun a b hab => ⟨rfl, hab.index, fun _ => rfl⟩)
          apply hname.bind
          rintro a b - ⟨l', hl', rfl⟩
          exact ⟨rfl, l', hl', rfl⟩
        · next hname =>
          have hvalue : fl.isValue = true := by
            obtain ⟨a, b, c, d, e, f⟩ := fl
            simp only [Bool.not_eq_true] at hname
            subst hname
            cases a <;> cases b <;> cases c <;> first | rfl | cases hunmet
          exact endLeaf_alike (addJson_alike hset hcfg (hnamed hvalue) .string (st.i + 1)) 1

/-- The next index is the same. -/
theorem nextIndex_same (a b : JsonNode) (h : SameNode a b) :
  SameNode (nextIndex a) (nextIndex b)
  := ⟨h.name, by rw [nextIndex, nextIndex, h.index], h.nameLen⟩

/-- The loop does alike about a token. -/
theorem tokenNext_alike (h : Alike st st') (hcfg : IgnoresLengths cfg) {token : JsonToken}
    (hnamed : token.isLeaf = true → fl.isValue = true → cfg.usehash = true → Named st) :
  EndsAlike NextAlike (tokenNext cfg fl st token) (tokenNext cfg fl st' token)
  := by
  have hskip : Alike (st.skip 1) (st'.skip 1) := by
    obtain ⟨l, hl, rfl⟩ := h
    exact ⟨l, hl, rfl⟩
  have hlistC : st'.listC = st.listC := by
    obtain ⟨l, -, rfl⟩ := h
    rfl
  have hfail : ∀ {s s' : JsonState} (errm : String), Alike s s' → Alike (s.fail errm) (s'.fail errm) := by
    rintro s _ errm ⟨l, hl, rfl⟩
    exact ⟨l, hl, rfl⟩
  have hpop : ∀ {s s' : JsonState}, Alike s s' →
      Alike { s with listC := s.listC - 1 } { s' with listC := s'.listC - 1 } := by
    rintro s _ ⟨l, hl, rfl⟩
    exact ⟨l, hl, rfl⟩
  cases token with
  | beginObject =>
    rw [tokenNext, tokenNext, beginObject, beginObject]
    split
    · exact hfail _ h
    · exact ⟨rfl, hskip⟩
  | endObject =>
    rw [tokenNext, tokenNext, endObject, endObject]
    split
    · exact hfail _ h
    · exact hpop hskip
  | beginArray =>
    rw [tokenNext, tokenNext, beginArray, beginArray]
    split
    · exact hfail _ h
    · have hnode := (hpop hskip).modifyNode (st.listC - 1) nextIndex_same
      change EndsAlike NextAlike (JsonState.modifyNode _ (st.listC - 1) _ >>= _)
        (JsonState.modifyNode _ (st'.listC - 1) _ >>= _)
      rw [hlistC]
      rw [show (st'.skip 1).listC = st.listC from hlistC] at hnode
      apply hnode.bind
      intro a b _ hab
      exact ⟨rfl, hab⟩
  | endArray =>
    rw [tokenNext, tokenNext, endArray, endArray]
    split
    · exact hfail _ h
    · rw [hlistC]
      have hnode := hskip.modifyNode st.listC (f := fun node => { node with index := none })
        (fun a b hab => ⟨hab.name, rfl, hab.nameLen⟩)
      apply hnode.bind
      intro a b _ hab
      exact hab
  | nameSeparator =>
    rw [tokenNext, tokenNext, nameSeparator, nameSeparator]
    simp only
    split
    · exact hfail _ h
    · exact ⟨rfl, hskip⟩
  | valueSeparator =>
    rw [tokenNext, tokenNext, valueSeparator, valueSeparator]
    split
    · exact hfail _ h
    · simp only
      split
      · exact ⟨rfl, hskip⟩
      · split
        · have hnode := hskip.modifyNode st.listC nextIndex_same
          rw [show (st.skip 1).listC = st.listC from rfl, show (st'.skip 1).listC = st.listC from hlistC]
          apply hnode.bind
          intro a b _ hab
          exact ⟨rfl, hab⟩
        · exact hfail _ hskip
  | blank => exact ⟨rfl, hskip⟩
  | quote => exact stringToken_alike h hcfg (hnamed rfl)
  | digit =>
    obtain ⟨l, hl, rfl⟩ := h
    rw [tokenNext, tokenNext]
    cases hunmet : fl.unmet [.colon, .commaOrEndArray, .commaOrEndObject, .name] with
    | some errm =>
      rw [numberToken, numberToken, hunmet]
      exact ⟨l, hl, rfl⟩
    | none =>
      have hvalue : fl.isValue = true := by
        rw [JsonFlags.isValue, hunmet]
        rfl
      have hval : (st.withList l).val.drop (st.withList l).i = st.val.drop st.i := rfl
      rw [numberToken_of_met hunmet, numberToken_of_met hunmet, hval]
      cases velyJsonNum (st.val.drop st.i) with
      | none => exact ⟨l, hl, rfl⟩
      | some num => exact scalarToken_alike ⟨l, hl, rfl⟩ hcfg (hnamed rfl hvalue) _ num.2
  | word type word =>
    obtain ⟨l, hl, rfl⟩ := h
    rw [tokenNext, tokenNext, literalToken, literalToken]
    split
    · exact ⟨l, hl, rfl⟩
    · next hunmet =>
      have hvalue : fl.isValue = true := by
        rw [JsonFlags.isValue, hunmet]
        rfl
      change EndsAlike NextAlike _ (if (st.val.drop st.i).take word.length = word then
        scalarToken cfg (st.withList l) type word.length
        else return .endj ((st.withList l).fail "Unknown entity (true, false or null)"))
      split
      · exact scalarToken_alike ⟨l, hl, rfl⟩ hcfg (hnamed rfl hvalue) type word.length
      · exact ⟨l, hl, rfl⟩
  | other => exact hfail _ h

/-! ### The calls -/

/-- In a parse, every leaf is found below levels that have names. -/
def LeavesNamed (cfg : JsonConfig) : Nat → JsonFlags → JsonState → Prop
  | 0, _, _ => True
  | bound + 1, fl, st =>
    st.i < cfg.len →
      ((jsonToken st.nchar.1).isLeaf = true → fl.isValue = true → cfg.usehash = true → Named st)
      ∧ match tokenNext cfg fl st.nchar.2 (jsonToken st.nchar.1) with
        | .ok (.loop fl st) => LeavesNamed cfg bound fl st
        | .ok (.call st after) =>
          ((enterValue st).2 = true → LeavesNamed cfg bound {} (enterValue st).1)
            ∧ ∀ st', callValue (parseLoop cfg bound {}) st = .ok st' → st'.ec = -1 →
              LeavesNamed cfg bound after st'
        | _ => True

/-- A call starts alike. -/
theorem enterValue_alike (h : Alike st st') :
  (enterValue st').2 = (enterValue st).2 ∧ Alike (enterValue st).1 (enterValue st').1
  := by
  obtain ⟨l, hl, rfl⟩ := h
  rw [enterValue, enterValue, JsonState.withList]
  simp only
  split
  · exact ⟨rfl, l, hl, rfl⟩
  · split
    · exact ⟨rfl, l, hl, rfl⟩
    · exact ⟨rfl, l, hl, rfl⟩

theorem leaveValue_alike (h : Alike st st') :
  Alike (leaveValue st) (leaveValue st')
  := by
  obtain ⟨l, hl, rfl⟩ := h
  exact ⟨l, hl, rfl⟩

/-- A call goes on alike when its loop does. -/
theorem callValue_alike {loop : JsonState → Except Stop JsonState} (h : Alike st st')
    (hloop : (enterValue st).2 = true → ∀ s', Alike (enterValue st).1 s' →
      EndsAlike Alike (loop (enterValue st).1) (loop s')) :
  EndsAlike Alike (callValue loop st) (callValue loop st')
  := by
  obtain ⟨hmore, hstart⟩ := enterValue_alike h
  rw [callValue, callValue]
  simp only [hmore]
  split
  · next hmore => exact hloop hmore _ hstart
  · exact leaveValue_alike hstart

/-- The loop goes on alike. -/
theorem parseLoop_alike (hcfg : IgnoresLengths cfg) {bound : Nat} (h : Alike st st')
    (hnamed : LeavesNamed cfg bound fl st) :
  EndsAlike Alike (parseLoop cfg bound fl st) (parseLoop cfg bound fl st')
  := by
  induction bound generalizing fl st st' with
  | zero => rfl
  | succ bound ih =>
    rw [parseLoop_succ, parseLoop_succ]
    have hi : st'.i = st.i := by
      obtain ⟨l, -, rfl⟩ := h
      rfl
    rw [hi]
    split
    · next hlt =>
      obtain ⟨hleaf, hnext⟩ := hnamed hlt
      have hchar : st'.nchar.1 = st.nchar.1 ∧ Alike st.nchar.2 st'.nchar.2 := by
        obtain ⟨l, hl, rfl⟩ := h
        rw [JsonState.nchar, JsonState.nchar, JsonState.withList]
        simp only
        split
        · exact ⟨rfl, l, hl, rfl⟩
        · exact ⟨rfl, l, hl, rfl⟩
      have hnamed' : Named st → Named st.nchar.2 := by
        intro hn
        rw [JsonState.nchar]
        split
        · exact hn
        · exact hn
      rw [hchar.1]
      apply (tokenNext_alike hchar.2 hcfg (fun hl hv hu => hnamed' (hleaf hl hv hu))).bind
      intro next next' htoken halike
      rw [htoken] at hnext
      cases next with
      | endj s =>
        cases next' with
        | endj s' => exact leaveValue_alike halike
        | loop fl' s' => exact halike.elim
        | call s' after => exact halike.elim
      | loop fl s =>
        cases next' with
        | endj s' => exact halike.elim
        | loop fl' s' =>
          obtain ⟨rfl, hs⟩ := halike
          exact ih hs hnext
        | call s' after => exact halike.elim
      | call s after =>
        cases next' with
        | endj s' => exact halike.elim
        | loop fl' s' => exact halike.elim
        | call s' after' =>
          obtain ⟨rfl, hs⟩ := halike
          obtain ⟨hinner, hafter⟩ := hnext
          have hcall := @callValue_alike _ _ (parseLoop cfg bound {}) hs
            (fun hmore s' hs' => ih hs' (hinner hmore))
          apply hcall.bind
          intro a b ha hab
          have hec : b.ec = a.ec := by
            obtain ⟨l, -, rfl⟩ := hab
            rfl
          rw [hec]
          split
          · exact leaveValue_alike hab
          · next hok => exact ih hab (hafter a ha (not_not.mp hok))
    · obtain ⟨l, hl, rfl⟩ := h
      exact ⟨l, hl, rfl⟩

end Alike

end Vely
