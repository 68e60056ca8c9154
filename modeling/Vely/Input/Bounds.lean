import Vely.Input.Build
import Vely.Input.Fields

/-!
# What is decoded lies inside of the content

Where the text that is decoded comes from, and when no byte outside of it is read or written.
-/

namespace Vely

/-! ### The text of the body -/

/-- What the body is for the text of the input. -/
inductive BodyText where
  /-- The request ends before the text is decoded. -/
  | ended
  /-- The content is NULL, or nothing was written to it. -/
  | missing
  | text (t : List UInt8)

/-- What a form is for the text of the input: the query made of its parts, without its last
ampersand. -/
def formText : Except Abort (List UInt8 × List SavedFile) → BodyText
  | .error _ => .ended
  | .ok ([], _) => .missing
  | .ok (newCont, _) => .text newCont.dropLast

namespace InputEnv

/-- There is a body to be read. -/
def hasBody (env : InputEnv) : Prop :=
  env.contentType.bytes ≠ [] ∧ env.contentLength.bytes ≠ [] ∧ env.length ≠ 0

/-- The body has a length that is neither negative nor too large, and the client sends as
much. -/
def canReceive (env : InputEnv) : Prop :=
  0 ≤ env.length ∧ env.length ≤ env.body.length
    ∧ if env.isQueryString then env.length < maxSizeOfUrl else env.length < env.maxUploadSize

/-- The bytes of the body that are read. -/
def received (env : InputEnv) : List UInt8 := env.body.take env.length.toNat

instance (env : InputEnv) : Decidable env.hasBody := inferInstanceAs (Decidable (_ ∧ _ ∧ _))

instance (env : InputEnv) : Decidable env.canReceive := inferInstanceAs (Decidable (_ ∧ _ ∧ _))

/-- The method is one whose body may be a form. -/
def isPost (env : InputEnv) : Bool :=
  match requestMethod env.method with
  | .post | .put | .patch => true
  | .get | .delete | .other => false

/-- The text of the body: that of a query or of a form, and no text for other bodies. -/
def bodyText (env : InputEnv) : BodyText :=
  if strcasecmp env.method.bytes (ascii "OPTIONS") then .ended
  else if env.contentType.bytes = [] then .text []
  else if ¬ env.hasBody then
    if env.isPost then .ended
    else if env.isQueryString then .missing
    else .text []
  else if ¬ env.canReceive then .ended
  else if env.isPost ∧ env.isMultipart then
    formText (parseMultipart env.contentType env.received env.documents)
  else if env.isQueryString then .text env.received
  else .text []

end InputEnv

/-- A text of the body, and the query of the address behind it. -/
def joinTexts (text query : List UInt8) : List UInt8 :=
  if query = [] then text
  else if text = [] then query
  else text ++ '&'.toUInt8 :: query

/-- The content is a block that holds a text, with a cell behind the terminator. -/
def Content.Holds (c : Content) (text : List UInt8) : Prop :=
  ∃ tail, tail ≠ [] ∧ c.block = some (Block.ofText text tail)

theorem emptyContent_eq :
  emptyContent = .ok ⟨some (Block.ofText [] [none]), 0⟩
  := rfl

theorem storeByte_of_cells {b : Block} {l r : List (Option UInt8)} {x : Option UInt8} {i : Int}
    (c : UInt8) (h : b.cells = l ++ x :: r) (hi : i = l.length) :
  storeByte b i c = .ok ⟨l ++ some c :: r⟩
  := by
  rw [storeByte, if_neg (by omega), Block.put_of_cells c h (by omega)]

/-- The bytes that are received have two terminators. -/
theorem receive_block {env : InputEnv} (hn : 0 ≤ env.length) (hb : env.length ≤ env.body.length) :
  (do
      let block ← velyMalloc (env.length + 2)
      let block ← velyGenUtilRead env.body block env.length
      let block ← storeByte block (env.length + 1) 0
      let block ← storeByte block env.length 0
      return (⟨some block, env.length⟩ : Content) : Except Abort Content)
    = .ok ⟨some (Block.ofText env.received [some 0]), env.length⟩
  := by
  have hlen : (env.received.length : Int) = env.length := by
    simp only [InputEnv.received, List.length_take]
    omega
  have hcells : (Block.alloc (env.length + 2).toNat).cells
      = [] ++ List.replicate env.received.length none ++ [none, none] := by
    have h2 : (env.length + 2).toNat = env.received.length + 2 := by omega
    rw [Block.alloc, h2, List.replicate_add]
    rfl
  have hput : (Block.alloc (env.length + 2).toNat).putAll 0 env.received
      = .ok ⟨[] ++ env.received.map some ++ [none, none]⟩ := by
    apply Block.putAll_of_cells hcells rfl
    simp
  have hmalloc : velyMalloc (env.length + 2) = .ok (.alloc (env.length + 2).toNat) := by
    apply if_neg
    rw [alignment]
    omega
  have h0 : storeByte ⟨[] ++ env.received.map some ++ [none, none]⟩ env.length 0
      = .ok ⟨env.received.map some ++ [some 0, none]⟩ :=
    storeByte_of_cells (l := env.received.map some) (r := [none]) 0 rfl (by simp [hlen])
  have h1 : storeByte ⟨env.received.map some ++ [some 0, none]⟩ (env.length + 1) 0
      = .ok ⟨(env.received.map some ++ [some 0]) ++ [some 0]⟩ :=
    storeByte_of_cells (x := none) (r := []) 0 (by simp) (by simp [hlen])
  have h2 : storeByte ⟨(env.received.map some ++ [some 0]) ++ [some 0]⟩ env.length 0
      = .ok (Block.ofText env.received [some 0]) := by
    rw [storeByte_of_cells (l := env.received.map some) (x := some 0) (r := [some 0]) 0 (by simp)
      (by simp [hlen])]
    rfl
  have hread : velyGenUtilRead env.body (.alloc (env.length + 2).toNat) env.length
      = .ok ⟨env.received.map some ++ [some 0, none]⟩ := by
    rw [velyGenUtilRead, if_neg (by omega)]
    change (do
      let block ← liftM ((Block.alloc (env.length + 2).toNat).putAll 0 env.received)
      liftM (storeByte block env.length 0) : Except Abort Block) = _
    rw [hput, liftM_ok, ok_bind, h0, liftM_ok]
  rw [hmalloc, liftM_ok, ok_bind, hread, ok_bind, h1, liftM_ok, ok_bind, h2]
  rfl

/-- When the client sends less, the request is rejected. -/
theorem receive_short {env : InputEnv} (hn : 0 ≤ env.length) (hb : env.body.length < env.length) :
  (do
      let block ← velyMalloc (env.length + 2)
      let block ← velyGenUtilRead env.body block env.length
      let block ← storeByte block (env.length + 1) 0
      let block ← storeByte block env.length 0
      return (⟨some block, env.length⟩ : Content) : Except Abort Content)
    = .error (.rejected .unreadBody)
  := by
  have hmalloc : velyMalloc (env.length + 2) = .ok (.alloc (env.length + 2).toNat) := by
    apply if_neg
    rw [alignment]
    omega
  rw [hmalloc, liftM_ok, ok_bind, velyGenUtilRead, if_pos hb]
  rfl

/-- A body with a length is received, or the request ends. -/
theorem receiveBody_hasBody {env : InputEnv} (h : env.hasBody) (hlen : 0 ≤ env.length) :
  (env.canReceive ∧ receiveBody env
      = .ok ⟨some (Block.ofText env.received [some 0]), env.length⟩)
    ∨ (¬ env.canReceive ∧ ∃ e, receiveBody env = .error (.rejected e))
  := by
  rw [receiveBody, if_pos h.1, if_pos h.2, InputEnv.canReceive]
  by_cases hb : env.length ≤ env.body.length
  · rw [receive_block hlen hb]
    cases hq : env.isQueryString with
    | false =>
      simp only [Bool.false_eq_true, false_and, true_and, if_false, hlen, hb]
      by_cases hmax : env.length ≥ env.maxUploadSize
      · right
        rw [if_pos hmax]
        exact ⟨by omega, _, rfl⟩
      · left
        rw [if_neg hmax]
        exact ⟨by omega, rfl⟩
    | true =>
      simp only [Bool.true_eq_false, false_and, true_and, if_false, if_true, hlen, hb]
      by_cases hmax : env.length ≥ maxSizeOfUrl
      · right
        rw [if_pos hmax]
        exact ⟨by omega, _, rfl⟩
      · left
        rw [if_neg hmax]
        exact ⟨by omega, rfl⟩
  · right
    rw [receive_short hlen (by omega)]
    refine ⟨fun h => hb h.2.1, ?_⟩
    split
    · exact ⟨_, rfl⟩
    · split
      · exact ⟨_, rfl⟩
      · exact ⟨_, rfl⟩

/-- A length below zero is a write before the block, unless it is too much for the allocator. -/
theorem receiveBody_negative {env : InputEnv} (h : env.hasBody) (hlen : env.length < 0) :
  receiveBody env
    = .error (.stop (if env.length + 2 + alignment < 0 then .outOfMemory else .fault))
  := by
  have hupload : ¬ (env.isQueryString = false ∧ env.length ≥ env.maxUploadSize) := by
    rintro ⟨-, h⟩
    omega
  have hurl : ¬ (env.isQueryString = true ∧ env.length ≥ maxSizeOfUrl) := by
    rintro ⟨-, h⟩
    omega
  rw [receiveBody, if_pos h.1, if_pos h.2, if_neg hupload, if_neg hurl, velyMalloc]
  split
  · rfl
  · rw [liftM_ok, ok_bind, velyGenUtilRead, if_neg (by omega)]
    have htake : env.body.take env.length.toNat = [] := by
      rw [Int.toNat_of_nonpos (by omega), List.take_zero]
    rw [htake, Block.putAll, liftM_ok, ok_bind, storeByte, if_pos hlen]
    rfl

/-- Without a length no body is received. -/
theorem receiveBody_not_hasBody {env : InputEnv} (htype : env.contentType.bytes ≠ [])
    (h : ¬ env.hasBody) :
  receiveBody env = .ok ⟨none, 0⟩
  := by
  rw [receiveBody, if_pos htype, if_neg (fun h' => h ⟨htype, h'⟩)]
  rfl

theorem receiveBody_empty {env : InputEnv} (htype : env.contentType.bytes = []) :
  receiveBody env = .ok ⟨some (Block.ofText [] [none]), 0⟩
  := by
  rw [receiveBody, if_neg (by simpa using htype), emptyContent_eq]
  rfl

/-- Only a length below zero makes the receiving of the body fault. -/
theorem receiveBody_ne_fault {env : InputEnv} (hneg : ¬ (env.hasBody ∧ env.length < 0)) :
  receiveBody env ≠ .error (.stop .fault)
  := by
  by_cases htype : env.contentType.bytes = []
  · rw [receiveBody_empty htype]
    simp
  · by_cases hbody : env.hasBody
    · have hlen : 0 ≤ env.length := by
        by_contra h
        exact hneg ⟨hbody, by omega⟩
      rcases receiveBody_hasBody hbody hlen with ⟨-, hr⟩ | ⟨-, e, hr⟩
      · rw [hr]
        simp
      · rw [hr]
        simp
    · rw [receiveBody_not_hasBody htype hbody]
      simp

/-! ### The content that depends on the method -/

theorem methodContent_options {env : InputEnv} (content : Content)
    (h : strcasecmp env.method.bytes (ascii "OPTIONS") = true) :
  methodContent env content = .error .answered
  := by
  rw [methodContent, if_pos h]
  rfl

theorem methodContent_get {env : InputEnv} (content : Content)
    (h : strcasecmp env.method.bytes (ascii "OPTIONS") = false) (hpost : env.isPost = false) :
  methodContent env content
    = .ok (if env.isQueryString then content else ⟨some (Block.ofText [] [none]), 0⟩, [])
  := by
  rw [methodContent, if_neg (by simp [h])]
  rw [InputEnv.isPost] at hpost
  cases hm : requestMethod env.method <;> simp only [hm] at hpost ⊢
  all_goals
    first
    | (rw [emptyContent_eq]
       split <;> rfl)
    | cases hpost

theorem methodContent_post {env : InputEnv} (content : Content)
    (h : strcasecmp env.method.bytes (ascii "OPTIONS") = false) (hpost : env.isPost = true) :
  methodContent env content
    = if env.contentType.bytes ≠ [] then
        if env.contentLength.bytes = [] then .error (.rejected .missingContentLength)
        else if content.length = 0 then .error (.rejected .zeroContentLength)
        else if env.isMultipart then
          (parseMultipart env.contentType (env.body.take content.length.toNat) env.documents).map
            (fun r => (⟨some (formBlock r.1), (r.1.length - 1 : Nat)⟩, r.2))
        else if env.isQueryString then .ok (content, [])
        else .ok (⟨some (Block.ofText [] [none]), 0⟩, [])
      else if content.length ≠ 0 then .error (.rejected .lengthWithoutType)
      else .ok (content, [])
  := by
  rw [methodContent, if_neg (by simp [h])]
  rw [InputEnv.isPost] at hpost
  cases hm : requestMethod env.method <;> simp only [hm] at hpost ⊢
  all_goals
    first
    | (rw [emptyContent_eq]
       cases parseMultipart env.contentType (env.body.take content.length.toNat) env.documents <;>
         rfl)
    | cases hpost

/-! ### The content before the query is joined to it -/

/-- The request was rejected, or a fault happened while the parts of a form were cut out. -/
def EndsEarly (env : InputEnv) (e : Abort) : Prop :=
  e = .stop .fault → ∃ content, receiveBody env = .ok content
    ∧ methodContent env content = .error (.stop .fault)

/-- What the body leaves is as its text says. -/
def BodyText.Describes (env : InputEnv) : BodyText → Except Abort (Content × List SavedFile) → Prop
  | .ended, r => ∃ e, r = .error e ∧ EndsEarly env e
  | .missing, r => ∃ c files, r = .ok (c, files) ∧ c.length = 0
      ∧ (c.block = none ∨ c.block = some (.alloc (maxSizeOfUrl + 1)))
  | .text t, r => ∃ c files, r = .ok (c, files) ∧ c.length = t.length ∧ c.Holds t

theorem endsEarly_of_ne {env : InputEnv} {e : Abort} (h : e ≠ .stop .fault) :
  EndsEarly env e
  := fun h' => absurd h' h

theorem describes_form {env : InputEnv} {content : Content}
    (hreceive : receiveBody env = .ok content)
    {r : Except Abort (List UInt8 × List SavedFile)}
    (hmethod : methodContent env content
      = r.map (fun r => (⟨some (formBlock r.1), (r.1.length - 1 : Nat)⟩, r.2))) :
  (formText r).Describes env (methodContent env content)
  := by
  match r, hmethod with
  | .error e, hmethod =>
    refine ⟨e, hmethod, ?_⟩
    rintro rfl
    exact ⟨content, hreceive, hmethod⟩
  | .ok ([], files), hmethod => exact ⟨_, files, hmethod, rfl, .inr rfl⟩
  | .ok (c :: cs, files), hmethod =>
    refine ⟨_, files, hmethod, ?_, ?_⟩
    · simp
    · exact ⟨some 0 :: List.replicate (maxSizeOfUrl - (c :: cs).length) none, by simp, rfl⟩

theorem holds_empty (c : Content) (h : c = ⟨some (Block.ofText [] [none]), 0⟩) :
  c.length = ([] : List UInt8).length ∧ c.Holds []
  := by
  subst h
  exact ⟨rfl, [none], by simp, rfl⟩

/-- Before the query is joined, the content is as the text of the body says. -/
theorem describes_bodyText {env : InputEnv} (hneg : ¬ (env.hasBody ∧ env.length < 0)) :
  env.bodyText.Describes env (receiveBody env >>= methodContent env)
  := by
  rw [InputEnv.bodyText]
  by_cases hoptions : strcasecmp env.method.bytes (ascii "OPTIONS") = true
  · rw [if_pos hoptions]
    cases hr : receiveBody env with
    | error e =>
      refine ⟨e, rfl, endsEarly_of_ne ?_⟩
      rintro rfl
      exact receiveBody_ne_fault hneg hr
    | ok content =>
      rw [ok_bind, methodContent_options content hoptions]
      exact ⟨_, rfl, endsEarly_of_ne (by simp)⟩
  · rw [if_neg hoptions]
    rw [Bool.not_eq_true] at hoptions
    by_cases htype : env.contentType.bytes = []
    · rw [if_pos htype, receiveBody_empty htype, ok_bind]
      cases hpost : env.isPost with
      | false =>
        rw [methodContent_get _ hoptions hpost, ite_self]
        exact ⟨_, [], rfl, holds_empty _ rfl⟩
      | true =>
        rw [methodContent_post _ hoptions hpost, if_neg (by simpa using htype)]
        exact ⟨_, [], rfl, holds_empty _ rfl⟩
    · rw [if_neg htype]
      by_cases hbody : env.hasBody
      · rw [if_neg (not_not.mpr hbody)]
        have hlen : 0 ≤ env.length := by
          by_contra h
          exact hneg ⟨hbody, by omega⟩
        rcases receiveBody_hasBody hbody hlen with ⟨hcan, hr⟩ | ⟨hcan, e, hr⟩
        · rw [if_neg (not_not.mpr hcan), hr, ok_bind]
          have hlength : (env.received.length : Int) = env.length := by
            have := hcan.2.1
            simp only [InputEnv.received, List.length_take]
            omega
          have hholds : (⟨some (Block.ofText env.received [some 0]), env.length⟩ : Content).Holds
              env.received := ⟨[some 0], by simp, rfl⟩
          cases hpost : env.isPost with
          | false =>
            rw [methodContent_get _ hoptions hpost, if_neg (by simp)]
            cases env.isQueryString with
            | false => exact ⟨_, [], rfl, holds_empty _ rfl⟩
            | true => exact ⟨_, [], rfl, hlength.symm, hholds⟩
          | true =>
            have hmethod := methodContent_post
              ⟨some (Block.ofText env.received [some 0]), env.length⟩ hoptions hpost
            rw [if_pos htype, if_neg hbody.2.1, if_neg hbody.2.2] at hmethod
            cases hmulti : env.isMultipart with
            | false =>
              rw [hmulti, if_neg (by simp)] at hmethod
              rw [if_neg (show ¬ (true = true ∧ false = true) by simp), hmethod]
              cases env.isQueryString with
              | false => exact ⟨_, [], rfl, holds_empty _ rfl⟩
              | true => exact ⟨_, [], rfl, hlength.symm, hholds⟩
            | true =>
              rw [hmulti, if_pos rfl] at hmethod
              rw [if_pos (show true = true ∧ true = true by simp)]
              exact describes_form hr hmethod
        · rw [if_pos hcan, hr]
          exact ⟨_, rfl, endsEarly_of_ne (by simp)⟩
      · rw [if_pos hbody, receiveBody_not_hasBody htype hbody, ok_bind]
        cases hpost : env.isPost with
        | false =>
          rw [methodContent_get _ hoptions hpost, if_neg (by simp)]
          cases env.isQueryString with
          | false => exact ⟨_, [], rfl, holds_empty _ rfl⟩
          | true => exact ⟨_, [], rfl, rfl, .inl rfl⟩
        | true =>
          rw [if_pos rfl, methodContent_post _ hoptions hpost, if_pos htype]
          split
          · exact ⟨_, rfl, endsEarly_of_ne (by simp)⟩
          · exact ⟨_, rfl, endsEarly_of_ne (by simp)⟩

/-! ### The query of the address -/

theorem joinQuery_nil {query : CString} (content : Content) (h : query.bytes = []) :
  joinQuery query content = .ok content
  := by
  rw [joinQuery, if_neg (by simpa using h)]
  rfl

/-- A query is written to a block, behind a text and an ampersand. -/
theorem holds_putAll {query : CString} {l xs : List (Option UInt8)} {b : Block}
    (hcells : b.cells = l ++ xs) (hxs : xs.length = query.bytes.length + 2 ∨
      xs.length = query.bytes.length + 3) {text : List UInt8} (hl : l = text.map some) :
  ∃ tail, tail ≠ [] ∧ b.putAll l.length query.block
    = .ok (Block.ofText (text ++ query.bytes) tail)
  := by
  have hblock : query.block.length = query.bytes.length + 1 := by simp [CString.block]
  use xs.drop query.block.length
  constructor
  · intro h
    have := congrArg List.length h
    simp only [List.length_drop, List.length_nil, hblock] at this
    omega
  · rw [@Block.putAll_of_cells _ l (xs.take query.block.length) (xs.drop query.block.length)]
    · simp [hl, Block.ofText, CString.block]
    · rw [hcells, List.append_assoc, List.take_append_drop]
    · rfl
    · rw [List.length_take, hblock]
      omega

/-- To content without text the query is joined alone. -/
theorem joinQuery_empty {query : CString} {content : Content} (h : query.bytes ≠ [])
    (hlen : content.length = 0) :
  ∃ c, joinQuery query content = .ok c ∧ c.Holds query.bytes
  := by
  have hsize : (content.length + query.length + 3).toNat = query.bytes.length + 3 := by
    rw [hlen, CString.length]
    omega
  have hblock : ∀ b : Block, b.cells.length = query.bytes.length + 3 →
      ∃ tail, tail ≠ [] ∧ b.putAll 0 query.block = .ok (Block.ofText query.bytes tail) := by
    intro b hb
    apply @holds_putAll _ [] _ _ rfl (.inr hb) [] rfl
  rw [joinQuery, if_pos h, hsize, hlen]
  simp only [lt_irrefl, if_false, ok_bind, Int.toNat_zero]
  cases content.block with
  | none =>
    obtain ⟨tail, htail, hput⟩ := hblock (.alloc (query.bytes.length + 3)) (by simp [Block.alloc])
    simp only [hput, ok_bind]
    exact ⟨_, rfl, tail, htail, rfl⟩
  | some b =>
    obtain ⟨tail, htail, hput⟩ := hblock (b.realloc (query.bytes.length + 3)) (by
      simp only [Block.realloc, List.length_append, List.length_take, List.length_replicate]
      omega)
    simp only [hput, ok_bind]
    exact ⟨_, rfl, tail, htail, rfl⟩

/-- Behind a text the query is joined with an ampersand. -/
theorem joinQuery_text {query : CString} {content : Content} {text : List UInt8}
    (hc : content.Holds text) (hlen : content.length = text.length) :
  ∃ c, joinQuery query content = .ok c ∧ c.Holds (joinTexts text query.bytes)
  := by
  by_cases hq : query.bytes = []
  · rw [joinQuery_nil content hq, joinTexts, if_pos hq]
    exact ⟨content, rfl, hc⟩
  · by_cases ht : text = []
    · rw [joinTexts, if_neg hq, if_pos ht]
      apply joinQuery_empty hq
      rw [hlen, ht]
      rfl
    · rw [joinTexts, if_neg hq, if_neg ht]
      obtain ⟨tail, htail, hblock⟩ := hc
      have hpos : 0 < text.length := List.length_pos_iff.mpr ht
      have hsize : (content.length + query.length + 3).toNat
          = text.length + (query.bytes.length + 3) := by
        rw [hlen, CString.length]
        omega
      -- the text is kept, and there are cells for the ampersand and the query
      obtain ⟨xs, hxs, hcells⟩ : ∃ xs, xs.length = query.bytes.length + 3
          ∧ ((Block.ofText text tail).realloc (text.length + (query.bytes.length + 3))).cells
            = text.map some ++ xs := by
        refine ⟨(some 0 :: tail).take (query.bytes.length + 3)
          ++ List.replicate (query.bytes.length + 3 - (some 0 :: tail).length) none, ?_, ?_⟩
        · simp only [List.length_append, List.length_take, List.length_replicate]
          omega
        · have hn : text.length + (query.bytes.length + 3)
              = (text.map some).length + (query.bytes.length + 3) := by simp
          rw [Block.realloc, Block.ofText, hn, List.take_length_add_append, List.length_append,
            Nat.add_sub_add_left, List.append_assoc]
      obtain ⟨x, ys, rfl⟩ : ∃ x ys, xs = x :: ys := by
        cases xs with
        | nil => simp at hxs
        | cons x ys => exact ⟨x, ys, rfl⟩
      have hstore := storeByte_of_cells (i := content.length) '&'.toUInt8 hcells
        (by rw [hlen, List.length_map])
      obtain ⟨tail', htail', hput⟩ := @holds_putAll query
        (text.map some ++ [some '&'.toUInt8]) ys ⟨text.map some ++ some '&'.toUInt8 :: ys⟩
        (by simp) (.inl (by simpa using hxs)) (text ++ ['&'.toUInt8]) (by simp)
      have hnat : (content.length + 1).toNat
          = (text.map some ++ [some '&'.toUInt8]).length := by
        rw [hlen, List.length_append, List.length_map, List.length_singleton]
        omega
      rw [joinQuery, if_pos hq, hsize, hblock]
      simp only
      rw [if_pos (by omega), hstore, ok_bind, ok_bind]
      simp only
      rw [hnat, hput]
      refine ⟨_, rfl, tail', htail', ?_⟩
      simp

/-! ### Decoding -/

/-- A text in a block ends at its first zero. -/
theorem ofText_takeWhile (text : List UInt8) {tail : List (Option UInt8)} (htail : tail ≠ []) :
  ∃ tail', tail' ≠ [] ∧ Block.ofText text tail = Block.ofText (text.takeWhile (· ≠ 0)) tail'
  := by
  have hsplit := List.takeWhile_append_dropWhile (p := fun c : UInt8 => decide (c ≠ 0)) (l := text)
  cases hd : text.dropWhile (fun c : UInt8 => decide (c ≠ 0)) with
  | nil =>
    rw [hd, List.append_nil] at hsplit
    exact ⟨tail, htail, by rw [hsplit]⟩
  | cons c r =>
    have hhead := List.head?_dropWhile_not (fun c : UInt8 => decide (c ≠ 0)) text
    rw [hd] at hhead
    obtain rfl : c = 0 := by simpa using hhead
    refine ⟨r.map some ++ some 0 :: tail, by simp, ?_⟩
    rw [Block.ofText, ← congrArg (List.map some) hsplit, hd, Block.ofText]
    simp

theorem ofText_injective {text text' : List UInt8} {tail tail' : List (Option UInt8)}
    (h : Block.ofText text tail = Block.ofText text' tail') (hz : 0 ∉ text) (hz' : 0 ∉ text') :
  text = text'
  := by
  have hcells : text.map some ++ some 0 :: tail = text'.map some ++ some 0 :: tail' :=
    Block.mk.inj h
  clear h
  induction text generalizing text' with
  | nil =>
    cases text' with
    | nil => rfl
    | cons c r =>
      simp only [List.map_nil, List.nil_append, List.map_cons, List.cons_append, List.cons.injEq,
        Option.some.injEq] at hcells
      exact absurd (hcells.1 ▸ List.mem_cons_self) hz'
  | cons c r ih =>
    cases text' with
    | nil =>
      simp only [List.map_nil, List.nil_append, List.map_cons, List.cons_append, List.cons.injEq,
        Option.some.injEq] at hcells
      exact absurd (hcells.1 ▸ List.mem_cons_self) hz
    | cons c' r' =>
      simp only [List.map_cons, List.cons_append, List.cons.injEq, Option.some.injEq] at hcells
      simp only [List.mem_cons, not_or] at hz hz'
      rw [hcells.1, ih hz.2 hz'.2 hcells.2]

/-- No byte is read behind the terminator of the text while it is decoded, nor behind the
terminators of what was decoded, which are written inside of the block, while it is taken apart. -/
def DecodesInside (block : Block) : Prop :=
  ∃ text tail, block = Block.ofText text tail ∧ 0 ∉ text
    ∧ decodeContent (block.cut (text.length + 1)) ≠ .error (.stop .fault)
    ∧ decodeContent block ≠ .error (.stop .fault)
    ∧ ∀ s, decodeContent block = .ok s → ∃ s', terminate s = .ok s'
      ∧ splitLoop (s'.content.cut (s'.j + 1)) s'.params 0 ≠ .error (.stop .fault)

/-- In a block that was not written to there is no text. -/
theorem not_decodesInside_alloc (n : Nat) :
  ¬ DecodesInside (.alloc n)
  := by
  rintro ⟨text, tail, h, -⟩
  have hcells : List.replicate n none = text.map some ++ some 0 :: tail := Block.mk.inj h
  have hmem : some (0 : UInt8) ∈ List.replicate n none := by
    rw [hcells]
    simp
  cases (List.mem_replicate.mp hmem).2

/-- Unless an ampersand without a sign `=` before it ends the request, the escapes of a text are
whole, and it has fields for all its signs `=` or a name that is not valid. -/
def TextOk (text : List UInt8) : Prop :=
  ordered false (tokens true text) = true →
    whole text = true ∧ ¬ Starved (queryParams text) (queryFields text)

theorem cut_ofText (text : List UInt8) (tail : List (Option UInt8)) :
  (Block.ofText text tail).cut (text.length + 1) = Block.ofText text []
  := by
  have h : text.length + 1 = (text.map some ++ [some (0 : UInt8)]).length := by simp
  rw [Block.cut, Block.ofText, h, Block.ofText]
  congr 1
  change List.take _ (text.map some ++ some 0 :: tail) = _
  rw [List.append_cons (text.map some) (some 0) tail, List.take_left]

/-- The terminated fields of a text whose escapes are whole. -/
theorem splitLoop_cut {text : List UInt8} {tail : List (Option UInt8)} {s : DecodeState}
    (hz : 0 ∉ text) (htail : tail ≠ []) (hw : whole text = true)
    (ho : ordered false (tokens true text) = true)
    (hs : decodeContent (Block.ofText text tail) = .ok s) :
  ∃ s', terminate s = .ok s' ∧ splitLoop (s'.content.cut (s'.j + 1)) s'.params 0
    = pairParams (queryParams text) (queryFields text)
  := by
  have h := decodeContent_decoded tail hz
  simp only [Decoded, ho, hw, Bool.true_eq_false, if_false, if_true] at h
  obtain ⟨junk, hadEqual, isname, hs'⟩ := h
  obtain rfl := Except.ok.inj (hs.symm.trans hs')
  obtain ⟨s', hs', hparams, hj, r, hcells⟩ := @terminate_of
    ([] ++ (tokens true text).map Token.byte) junk tail hadEqual isname
    (0 + (tokens true text).count .equal) (.inr htail)
  refine ⟨s', hs', ?_⟩
  rw [hparams, Nat.zero_add]
  apply splitLoop_fields (l := []) (r := [])
  · have hlen : s'.j + 1
        = ((([] ++ (tokens true text).map Token.byte) ++ [0, 0]).map some).length := by
      rw [hj]
      simp
    rw [Block.cut, hcells, hlen, List.take_left, queryFields, flatMap_block_fields]
    simp
  · rfl
  · exact .inl rfl

/-- When the text of a block is decoded inside of it. -/
theorem decodesInside_iff {text : List UInt8} {tail : List (Option UInt8)} (hz : 0 ∉ text)
    (htail : tail ≠ []) :
  DecodesInside (Block.ofText text tail) ↔ TextOk text
  := by
  have hcut := decodeContent_decoded [] hz
  have hblock := decodeContent_decoded tail hz
  constructor
  · rintro ⟨text', tail', h, hz', hd, -, hsplit⟩ ho
    obtain rfl := ofText_injective h hz hz'
    rw [cut_ofText] at hd
    rw [Decoded, if_neg (by simp [ho])] at hcut
    have hw : whole text = true := by
      by_contra hw
      rw [if_neg hw] at hcut
      exact hd (hcut rfl)
    rw [Decoded, if_neg (by simp [ho]), if_pos hw] at hblock
    obtain ⟨junk, hadEqual, isname, hs⟩ := hblock
    obtain ⟨s', hs', hfault⟩ := hsplit _ hs
    obtain ⟨s'', hs'', hpairs⟩ := splitLoop_cut hz htail hw ho hs
    obtain rfl := Except.ok.inj (hs'.symm.trans hs'')
    rw [hpairs, ne_eq, pairParams_fault_iff] at hfault
    exact ⟨hw, hfault⟩
  · intro hok
    refine ⟨text, tail, rfl, hz, ?_, ?_, ?_⟩
    · rw [cut_ofText]
      rw [Decoded] at hcut
      split at hcut
      · rw [hcut]
        simp
      · next ho =>
        rw [if_pos (hok (by simpa using ho)).1] at hcut
        obtain ⟨_, _, _, hs⟩ := hcut
        rw [hs]
        simp
    · rw [Decoded] at hblock
      split at hblock
      · rw [hblock]
        simp
      · next ho =>
        rw [if_pos (hok (by simpa using ho)).1] at hblock
        obtain ⟨_, _, _, hs⟩ := hblock
        rw [hs]
        simp
    · intro s hs
      by_cases ho : ordered false (tokens true text) = true
      · obtain ⟨hw, hstarved⟩ := hok ho
        obtain ⟨s', hs', hpairs⟩ := splitLoop_cut hz htail hw ho hs
        refine ⟨s', hs', ?_⟩
        rw [hpairs, ne_eq, pairParams_fault_iff]
        exact hstarved
      · rw [Decoded, if_pos (by simpa using ho), hs] at hblock
        cases hblock

/-! ### The input -/

/-- The request ends before its text is decoded, or the content is there and its text is decoded and
taken apart inside of it.  A fault is none of the content if it happens while the parts of a form
are cut out. -/
def InputSafe (env : InputEnv) : Prop :=
  match buildContent env with
  | .error e => EndsEarly env e
  | .ok (content, _) => ∃ block, content.block = some block ∧ DecodesInside block

/-- The length of the body is not below zero, unless it is too much for the allocator; without
content from the body there is a query; and the text is one that is decoded inside of the
content, up to its first zero. -/
def InputOk (env : InputEnv) : Prop :=
  env.method.bytes ≠ [] →
    ¬ (env.hasBody ∧ env.length < 0 ∧ 0 ≤ env.length + 2 + alignment)
      ∧ (¬ (env.hasBody ∧ env.length < 0) →
        match env.bodyText with
        | .ended => True
        | .missing => env.query.bytes ≠ [] ∧ TextOk env.query.bytes
        | .text t => TextOk ((joinTexts t env.query.bytes).takeWhile (· ≠ 0)))

theorem buildContent_eq {env : InputEnv} (hmethod : env.method.bytes ≠ []) :
  buildContent env = (receiveBody env >>= methodContent env) >>= fun r => do
    let content ← joinQuery env.query r.1
    return (content, r.2)
  := by
  rw [buildContent, if_neg hmethod]
  cases receiveBody env <;> rfl

end Vely
