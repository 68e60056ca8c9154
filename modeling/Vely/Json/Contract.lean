import Vely.Json.Accept

/-!
# What the parser accepts, and what it gives

A text that the parser accepts is well formed exactly when the reader keeps to the grammar.
Of a well formed document the parser accepts those that the reader reads, and gives a node for every
leaf; the value of the node ends at the first zero.
-/

namespace Vely

/-- A text that is well formed, and not nested too deep for the parser. -/
def IsJson (text : List UInt8) : Prop :=
  ∃ d : JsonDocument, d.render = text ∧ 1 + d.value.nesting < jsonMaxNested

/-- A first parse of a text ends with success in a state. -/
def Succeeds (dec : Bool) (text : List UInt8) (st : JsonState) : Prop :=
  velyJsonNew true none dec .initial text = .ok st ∧ st.ec = -1

/-- A parse succeeds exactly when the reader reads the text. -/
theorem exists_succeeds_iff {dec : Bool} {text : List UInt8} :
  (∃ st, Succeeds dec text st) ↔ ∃ r, readText dec text = some r
  := by
  have hfollows := velyJsonNew_follows fresh_initial dec text
  cases hr : readText dec text with
  | some r =>
    rw [hr] at hfollows
    obtain ⟨st, hst, hec, -⟩ := hfollows
    exact ⟨fun _ => ⟨r, rfl⟩, fun _ => ⟨st, hst, hec⟩⟩
  | none =>
    rw [hr] at hfollows
    constructor
    · rintro ⟨st, hst, hec⟩
      rcases hfollows with hfault | ⟨st', hst', hec'⟩
      · rw [hst] at hfault
        cases hfault
      · rw [hst] at hst'
        obtain rfl := Except.ok.inj hst'
        exact absurd hec hec'
    · rintro ⟨r, hr'⟩
      cases hr'

/-! ### Soundness -/

/-- The reader keeps to the grammar on a text that is well formed. -/
theorem sound_of_isJson {dec : Bool} {text : List UInt8} {r : JsonReader}
    (hr : readText dec text = some r) (h : IsJson text) :
  r.sound = true
  := by
  obtain ⟨d, rfl, -⟩ := h
  obtain ⟨hread, hnesting⟩ := isRead_of_readText hr
  obtain ⟨r', hr', hfinds⟩ := @readText_document _ _ hread hnesting False False.elim
  rw [hr] at hr'
  obtain rfl := Option.some.inj hr'
  exact hfinds.sound

/-- The text that a node of a scalar is to have: its value, for a string that is decoded. -/
def JsonScalar.text (dec : Bool) : JsonScalar → Option (List UInt8)
  | .literal l => some l.render
  | .number n => some n.render
  | .string s => if dec then s.decode else some s.content

/-- Whether a scalar has a value, and one that a string of C can hold. -/
def JsonScalar.isKept (dec : Bool) (s : JsonScalar) : Bool :=
  (s.text dec).any (fun bs => decide (0 ∉ bs))

/-- The leaves of a part. -/
def Json.scalars : {k : JsonPart} → Json k → List JsonScalar
  | _, .scalar s => [s]
  | _, .emptyArray _ => []
  | _, .array es => es.scalars
  | _, .emptyObject _ => []
  | _, .object ms => ms.scalars
  | _, .element _ v _ => v.scalars
  | _, .elements _ v _ es => v.scalars ++ es.scalars
  | _, .member _ _ _ _ v _ => v.scalars
  | _, .members _ _ _ _ v _ ms => v.scalars ++ ms.scalars

/-- The string of C at a place in the text. -/
def cStringAt (val : List UInt8) (i : Nat) : List UInt8 := (val.drop i).takeWhile (· ≠ 0)

/-- A node holds a leaf: its type and its value. -/
def HoldsLeaf (dec : Bool) (val : List UInt8) (n : Jsonn) (s : JsonScalar) : Prop :=
  n.type = s.type ∧ s.text dec = some (cStringAt val n.str)

/-- The nodes of a parse are those of the leaves of a document. -/
def Gives (dec : Bool) (d : JsonDocument) (st : JsonState) : Prop :=
  List.Forall₂ (HoldsLeaf dec st.val) st.nodes d.value.scalars

/-- The reader finds the leaves. -/
theorem leaves_scalars (dec : Bool) :
    ∀ {k : JsonPart} (p : Json k) (levels : Nat → JsonLevel) (n : Nat),
  (p.leaves dec levels n).map JsonLeaf.content = p.scalars.map (fun s => (s.type, s.value dec))
  | _, .scalar _, _, _ => rfl
  | _, .emptyArray _, _, _ => rfl
  | _, .array es, _, _ => leaves_scalars dec es _ _
  | _, .emptyObject _, _, _ => rfl
  | _, .object ms, _, _ => leaves_scalars dec ms _ _
  | _, .element _ v _, _, _ => leaves_scalars dec v _ _
  | _, .elements _ v _ es, _, _ => by
    rw [Json.leaves, Json.scalars, List.map_append, List.map_append, leaves_scalars dec v,
      leaves_scalars dec es]
  | _, .member _ _ _ _ v _, _, _ => leaves_scalars dec v _ _
  | _, .members _ _ _ _ v _ ms, _, _ => by
    rw [Json.leaves, Json.scalars, List.map_append, List.map_append, leaves_scalars dec v,
      leaves_scalars dec ms]

/-- The strings of C in the text are the values of the leaves. -/
theorem NodeAt.cString {val : List UInt8} {i : Nat} {n : Jsonn} {leaf : JsonLeaf}
    (h : NodeAt val i n leaf) :
  cStringAt val n.str = leaf.value
  := by
  have hterm := h.terminated
  rw [← byteAt_drop] at hterm
  rw [cStringAt, ← List.take_append_drop leaf.value.length (val.drop n.str), h.value]
  have hne : ∀ c ∈ leaf.value, decide (c ≠ 0) = true := by
    intro c hc
    simpa using fun hz : c = 0 => h.nonzero (hz ▸ hc)
  rw [List.takeWhile_append_of_pos hne]
  cases hd : (val.drop n.str).drop leaf.value.length with
  | nil => simp
  | cons c u =>
    have hc : c = 0 := by
      rw [byteAt, List.getD_eq_getElem?_getD, ← Nat.add_zero leaf.value.length,
        ← List.getElem?_drop, hd] at hterm
      simpa using hterm
    simp [hc]

/-- What is read of a scalar is its text up to the first zero. -/
theorem value_of_text {dec : Bool} {s : JsonScalar} {bs : List UInt8} (h : s.isRead dec = true)
    (ht : s.text dec = some bs) (hz : ∀ c ∈ s.value dec, c ≠ 0) :
  s.value dec = bs.takeWhile (· ≠ 0)
  := by
  have hall : ∀ {t : List UInt8}, (∀ c ∈ t, c ≠ 0) → t = t.takeWhile (· ≠ 0) := by
    intro t ht
    exact (List.takeWhile_eq_self_iff.mpr (by simpa using ht)).symm
  cases s with
  | literal l =>
    obtain rfl := Option.some.inj ht
    exact hall hz
  | number n =>
    obtain rfl := Option.some.inj ht
    exact hall hz
  | string s =>
    rw [JsonScalar.text] at ht
    rw [JsonScalar.value, JsonString.read]
    split at ht
    · next hdec =>
      rw [JsonScalar.isRead, JsonString.read, if_pos hdec, toUtf8_of_decode ht] at h
      rw [if_pos hdec, toUtf8_of_decode ht]
      split
      · next hbom =>
        rw [if_pos hbom] at h
        cases h
      · rfl
    · next hdec =>
      obtain rfl := Option.some.inj ht
      rw [if_neg hdec]
      rfl

/-- A node of a scalar that is read holds it, when its value has no zeros. -/
theorem holds_iff {dec : Bool} {val : List UInt8} {n : Jsonn} {s : JsonScalar}
    (hread : s.isRead dec = true) (htype : n.type = s.type) (hvalue : cStringAt val n.str = s.value dec) :
  HoldsLeaf dec val n s ↔ s.isKept dec = true
  := by
  have hz : ∀ c ∈ s.value dec, c ≠ 0 := by
    intro c hc
    rw [← hvalue] at hc
    simpa using List.mem_takeWhile_imp hc
  rw [HoldsLeaf, JsonScalar.isKept]
  cases ht : s.text dec with
  | none => simp
  | some bs =>
    have htext := value_of_text hread ht hz
    rw [Option.any_some, decide_eq_true_eq, hvalue, htext, Option.some.injEq]
    constructor
    · rintro ⟨-, hbs⟩ hmem
      rw [← htext] at hbs
      exact hz 0 (hbs ▸ hmem) rfl
    · intro hmem
      refine ⟨htype, (List.takeWhile_eq_self_iff.mpr ?_).symm⟩
      intro c hc
      simpa using fun h : c = 0 => hmem (h ▸ hc)

/-- The scalars of a part that is read are read. -/
theorem isRead_scalars (dec : Bool) :
    ∀ {k : JsonPart} (p : Json k), p.isRead dec = true → ∀ s ∈ p.scalars, s.isRead dec = true
  | _, .scalar _, h, _, hs => by
    obtain rfl := List.mem_singleton.mp hs
    exact h
  | _, .array es, h, s, hs => isRead_scalars dec es h s hs
  | _, .object ms, h, s, hs => isRead_scalars dec ms h s hs
  | _, .element _ v _, h, s, hs => isRead_scalars dec v h s hs
  | _, .elements _ v _ es, h, s, hs => by
    rw [Json.isRead, Bool.and_eq_true] at h
    rcases List.mem_append.mp hs with hs | hs
    · exact isRead_scalars dec v h.1 s hs
    · exact isRead_scalars dec es h.2 s hs
  | _, .member _ _ _ _ v _, h, s, hs => by
    rw [Json.isRead, Bool.and_eq_true] at h
    exact isRead_scalars dec v h.2 s hs
  | _, .members _ _ _ _ v _ ms, h, s, hs => by
    simp only [Json.isRead, Bool.and_eq_true] at h
    rcases List.mem_append.mp hs with hs | hs
    · exact isRead_scalars dec v h.1.2 s hs
    · exact isRead_scalars dec ms h.2 s hs

/-- Nodes that have the values of scalars hold them when their values have no zeros. -/
theorem forall_holds_iff {dec : Bool} {val : List UInt8} {i : Nat} {nodes : List Jsonn}
    {leaves : List JsonLeaf} {ss : List JsonScalar}
    (hnodes : List.Forall₂ (NodeAt val i) nodes leaves)
    (hleaves : leaves.map JsonLeaf.content = ss.map (fun s => (s.type, s.value dec)))
    (hread : ∀ s ∈ ss, s.isRead dec = true) :
  List.Forall₂ (HoldsLeaf dec val) nodes ss ↔ ∀ s ∈ ss, s.isKept dec = true
  := by
  induction hnodes generalizing ss with
  | nil =>
    obtain rfl := List.map_eq_nil_iff.mp hleaves.symm
    simp
  | @cons n leaf nodes leaves hn hnodes ih =>
    cases ss with
    | nil => cases hleaves
    | cons s ss =>
      obtain ⟨hleaf, hleaves⟩ := List.cons.inj hleaves
      obtain ⟨htype, hvalue⟩ := Prod.mk.inj hleaf
      have hhead := holds_iff (hread s (by simp)) (hn.type.trans htype) (hn.cString.trans hvalue)
      rw [List.forall₂_cons, List.forall_mem_cons, hhead,
        ih hleaves (fun s hs => hread s (by simp [hs]))]

/-- The document with the one member `a`. -/
def memberDocument (v : Json .value) : JsonDocument where
  before := .empty
  value := .object (.member .empty [.plain 'a'.toUInt8 rfl] .empty .empty v .empty)
  after := .empty

/-- The document `{"a":"\\u00e9"}`. -/
def letterDocument : JsonDocument :=
  memberDocument (.scalar (.string
    [.unicode '0'.toUInt8 '0'.toUInt8 'e'.toUInt8 '9'.toUInt8 ⟨rfl, rfl, rfl, rfl⟩]))

end Vely
