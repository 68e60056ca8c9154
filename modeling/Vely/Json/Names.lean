import Vely.Json.Contract

/-!
# Normalized names

A leaf of a document has a path, the names of members and the positions of elements that lead to it.
The normalized name spells the path.  When no array is directly an element of an array, and names
are read as they are, the names that the parser finds are these; and they are different for
different leaves when the names in each object are.
-/

namespace Vely

/-! ### Paths -/

/-- A step from a value to one in it: to a member of an object, or to an element of an array. -/
inductive JsonStep where
  | name (text : List UInt8)
  | index (i : Nat)
  deriving DecidableEq

/-- The text of a step. -/
def JsonStep.text (first : Bool) : JsonStep → List UInt8
  | .name n => (if first then [] else ['.'.toUInt8]) ++ ['"'.toUInt8] ++ n ++ ['"'.toUInt8]
  | .index i => ['['.toUInt8] ++ decimal i ++ [']'.toUInt8]

/-- The normalized name of a path, as in `"a"."b"[0]`. -/
def normalName : List JsonStep → List UInt8
  | [] => []
  | s :: ss => s.text true ++ ss.flatMap (JsonStep.text false)

/-- A step is made first. -/
def underStep (s : JsonStep) (p : List JsonStep × JsonScalar) : List JsonStep × JsonScalar :=
  (s :: p.1, p.2)

theorem JsonString.read_of_isPlain (dec : Bool) {s : JsonString} (h : s.isPlain = true) :
  s.read dec = some s.content
  := by
  rw [JsonString.read, toUtf8_of_isPlain h, ite_self]

namespace Json

/-- The leaves of a part with their paths; of elements, the first one is at position `i`. -/
def pathLeaves : {k : JsonPart} → Json k → Nat → List (List JsonStep × JsonScalar)
  | _, .scalar s, _ => [([], s)]
  | _, .emptyArray _, _ => []
  | _, .array es, _ => es.pathLeaves 0
  | _, .emptyObject _, _ => []
  | _, .object ms, _ => ms.pathLeaves 0
  | _, .element _ v _, i => (v.pathLeaves 0).map (underStep (.index i))
  | _, .elements _ v _ es, i =>
    (v.pathLeaves 0).map (underStep (.index i)) ++ es.pathLeaves (i + 1)
  | _, .member _ name _ _ v _, _ => (v.pathLeaves 0).map (underStep (.name name.content))
  | _, .members _ name _ _ v _ ms, _ =>
    (v.pathLeaves 0).map (underStep (.name name.content)) ++ ms.pathLeaves 0

/-- Whether no array and no object in a part is empty. -/
def isFull : {k : JsonPart} → Json k → Bool
  | _, .scalar _ => true
  | _, .emptyArray _ => false
  | _, .array es => es.isFull
  | _, .emptyObject _ => false
  | _, .object ms => ms.isFull
  | _, .element _ v _ => v.isFull
  | _, .elements _ v _ es => v.isFull && es.isFull
  | _, .member _ _ _ _ v _ => v.isFull
  | _, .members _ _ _ _ v _ ms => v.isFull && ms.isFull

/-- Whether no array in a part is directly an element of an array. -/
def isFlat : {k : JsonPart} → Json k → Bool
  | _, .scalar _ => true
  | _, .emptyArray _ => true
  | _, .array es => es.isFlat
  | _, .emptyObject _ => true
  | _, .object ms => ms.isFlat
  | _, .element _ v _ => !v.isArray && v.isFlat
  | _, .elements _ v _ es => !v.isArray && v.isFlat && es.isFlat
  | _, .member _ _ _ _ v _ => v.isFlat
  | _, .members _ _ _ _ v _ ms => v.isFlat && ms.isFlat

/-- Whether a value is an object. -/
def isObject : Json .value → Bool
  | .emptyObject _ => true
  | .object _ => true
  | _ => false

/-- The leaves with their paths are the leaves. -/
theorem map_pathLeaves :
    ∀ {k : JsonPart} (p : Json k) (i : Nat), (p.pathLeaves i).map Prod.snd = p.scalars
  | _, .scalar _, _ => rfl
  | _, .emptyArray _, _ => rfl
  | _, .array es, _ => map_pathLeaves es 0
  | _, .emptyObject _, _ => rfl
  | _, .object ms, _ => map_pathLeaves ms 0
  | _, .element _ v _, _ => by
    rw [pathLeaves, List.map_map]
    exact map_pathLeaves v 0
  | _, .elements _ v _ es, i => by
    rw [pathLeaves, List.map_append, List.map_map, map_pathLeaves es (i + 1), scalars,
      ← map_pathLeaves v 0]
    rfl
  | _, .member _ _ _ _ v _, _ => by
    rw [pathLeaves, List.map_map]
    exact map_pathLeaves v 0
  | _, .members _ _ _ _ v _ ms, _ => by
    rw [pathLeaves, List.map_append, List.map_map, map_pathLeaves ms 0, scalars, ← map_pathLeaves v 0]
    rfl

/-- A part is read when nothing in it is empty, its names have no escapes and its scalars are read.
-/
theorem isRead_of_isFull (dec : Bool) :
    ∀ {k : JsonPart} (p : Json k), p.isFull = true → p.plainNames = true →
  (∀ s ∈ p.scalars, s.isRead dec = true) → p.isRead dec = true
  | _, .scalar s, _, _, h => h s (by simp [scalars])
  | _, .array es, hf, hp, h => isRead_of_isFull dec es hf hp h
  | _, .object ms, hf, hp, h => isRead_of_isFull dec ms hf hp h
  | _, .element _ v _, hf, hp, h => isRead_of_isFull dec v hf hp h
  | _, .elements _ v _ es, hf, hp, h => by
    simp only [isFull, plainNames, Bool.and_eq_true, scalars, List.forall_mem_append] at hf hp h
    rw [isRead, isRead_of_isFull dec v hf.1 hp.1 h.1, isRead_of_isFull dec es hf.2 hp.2 h.2,
      Bool.and_self]
  | _, .member _ name _ _ v _, hf, hp, h => by
    simp only [isFull, plainNames, Bool.and_eq_true, scalars] at hf hp h
    rw [isRead, isRead_of_isFull dec v hf hp.2 h, JsonString.read_of_isPlain dec hp.1]
    rfl
  | _, .members _ name _ _ v _ ms, hf, hp, h => by
    simp only [isFull, plainNames, Bool.and_eq_true, scalars, List.forall_mem_append] at hf hp h
    rw [isRead, isRead_of_isFull dec v hf.1 hp.1.2 h.1, isRead_of_isFull dec ms hf.2 hp.2 h.2,
      JsonString.read_of_isPlain dec hp.1.1]
    rfl

end Json

/-! ### The names that are found -/

/-- The steps of a level. -/
def JsonLevel.steps (l : JsonLevel) : List JsonStep := .name l.name :: l.index.toList.map .index

/-- The steps of the first `n` levels. -/
def stepsOf (levels : Nat → JsonLevel) : Nat → List JsonStep
  | 0 => []
  | n + 1 => stepsOf levels n ++ (levels n).steps

theorem normalName_append {p : List JsonStep} (hp : p ≠ []) (q : List JsonStep) :
  normalName (p ++ q) = normalName p ++ q.flatMap (JsonStep.text false)
  := by
  cases p with
  | nil => exact absurd rfl hp
  | cons s ss => simp [normalName]

theorem stepsOf_ne_nil {levels : Nat → JsonLevel} {n : Nat} (hn : n ≠ 0) :
  stepsOf levels n ≠ []
  := by
  cases n with
  | zero => exact absurd rfl hn
  | succ n => simp [stepsOf, JsonLevel.steps]

/-- The name of levels spells their steps. -/
theorem nameOf_eq (levels : Nat → JsonLevel) (n : Nat) :
  JsonReader.nameOf levels n = normalName (stepsOf levels n)
  := by
  induction n with
  | zero => rfl
  | succ n ih =>
    have hindex : ∀ o : Option Nat,
        (o.toList.map JsonStep.index).flatMap (JsonStep.text false) = indexText o := by
      intro o
      cases o <;> simp [indexText, JsonStep.text]
    rw [JsonReader.nameOf, stepsOf, ih, levelText, JsonLevel.steps]
    by_cases hn : n = 0
    · subst hn
      simp [stepsOf, normalName, JsonStep.text, hindex]
    · rw [normalName_append (stepsOf_ne_nil hn), List.flatMap_cons, hindex]
      simp [hn, JsonStep.text]

/-- The leaves depend on the levels below only, and so do their steps. -/
theorem stepsOf_congr {levels levels' : Nat → JsonLevel} {n : Nat}
    (h : ∀ k < n, levels k = levels' k) :
  stepsOf levels n = stepsOf levels' n
  := by
  induction n with
  | zero => rfl
  | succ n ih => rw [stepsOf, stepsOf, ih (fun k hk => h k (by omega)), h n (by omega)]

theorem stepsOf_update (levels : Nat → JsonLevel) (n : Nat) (l : JsonLevel) :
  stepsOf (Function.update levels n l) n = stepsOf levels n
  := stepsOf_congr (fun _ hk => Function.update_of_ne (by omega) _ _)

/-- The leaf that is found for one with a path, behind another path. -/
def pathLeaf (dec : Bool) (path : List JsonStep) (p : List JsonStep × JsonScalar) : JsonLeaf :=
  ⟨normalName (path ++ p.1), p.2.type, p.2.value dec⟩

theorem pathLeaf_underStep (dec : Bool) (path : List JsonStep) (s : JsonStep) :
  pathLeaf dec path ∘ underStep s = pathLeaf dec (path ++ [s])
  := by
  funext p
  simp [pathLeaf, underStep]

/-- The leaves of a part have the names of their paths: elements have the index of their level. -/
def PartNamed (dec : Bool) : {k : JsonPart} → Json k → Prop
  | .value, v => ∀ levels n, (v.isObject = true ∨ n ≠ 0) →
    (v.isArray = true → (levels (n - 1)).index = none) →
    v.leaves dec levels n = (v.pathLeaves 0).map (pathLeaf dec (stepsOf levels n))
  | .elements, es => ∀ levels n i, (levels n).index = some i →
    es.leaves dec levels (n + 1)
      = (es.pathLeaves i).map (pathLeaf dec (stepsOf levels n ++ [.name (levels n).name]))
  | .members, ms => ∀ levels n,
    ms.leaves dec levels n = (ms.pathLeaves 0).map (pathLeaf dec (stepsOf levels n))

/-- The leaves of an element, which is no array. -/
theorem element_named {dec : Bool} {v : Json .value} (hv : PartNamed dec v) (harray : v.isArray = false)
    {levels : Nat → JsonLevel} {n i : Nat} (hi : (levels n).index = some i) :
  v.leaves dec levels (n + 1) = ((v.pathLeaves 0).map (underStep (.index i))).map
    (pathLeaf dec (stepsOf levels n ++ [.name (levels n).name]))
  := by
  rw [List.map_map, pathLeaf_underStep, hv levels (n + 1) (.inr (by omega)) (by simp [harray]), stepsOf,
    JsonLevel.steps, hi, List.append_assoc]
  rfl

/-- The leaves of a member. -/
theorem member_named {dec : Bool} {v : Json .value} (hv : PartNamed dec v) (levels : Nat → JsonLevel)
    (n : Nat) (name : List UInt8) :
  v.leaves dec (Function.update levels n ⟨name, none⟩) (n + 1)
    = ((v.pathLeaves 0).map (underStep (.name name))).map (pathLeaf dec (stepsOf levels n))
  := by
  rw [List.map_map, pathLeaf_underStep, hv _ (n + 1) (.inr (by omega))
    (fun _ => by rw [Nat.add_sub_cancel, Function.update_self]), stepsOf, Function.update_self,
    stepsOf_update]
  rfl

/-- The leaves get the names of their paths when no array is directly an element of an array. -/
theorem partNamed (dec : Bool) :
    ∀ {k : JsonPart} (p : Json k), p.isFlat = true → PartNamed dec p
  | _, .scalar s, _ => by
    rintro levels n (h | hn) -
    · cases h
    · simp [Json.leaves, JsonReader.leafName, if_neg hn, nameOf_eq, Json.pathLeaves, pathLeaf]
  | _, .emptyArray _, _ => fun _ _ _ _ => rfl
  | _, .array es, h => by
    rintro levels n (h' | hn) hindex
    · cases h'
    · obtain ⟨n, rfl⟩ := Nat.exists_eq_succ_of_ne_zero hn
      have hes : PartNamed dec es := partNamed dec es h
      have hnone : (levels n).index = none := hindex rfl
      rw [Json.leaves, Json.pathLeaves, Nat.succ_sub_one, hes _ n 0
        (by rw [Function.update_self, JsonLevel.bump, hnone]; rfl), Function.update_self,
        stepsOf_update, stepsOf, JsonLevel.steps, hnone]
      rfl
  | _, .emptyObject _, _ => fun _ _ _ _ => rfl
  | _, .object ms, h => by
    intro levels n _ _
    have hms : PartNamed dec ms := partNamed dec ms h
    exact hms levels n
  | _, .element _ v _, h => by
    rw [Json.isFlat, Bool.and_eq_true, Bool.not_eq_true'] at h
    intro levels n i hi
    exact element_named (partNamed dec v h.2) h.1 hi
  | _, .elements _ v _ es, h => by
    simp only [Json.isFlat, Bool.and_eq_true, Bool.not_eq_true'] at h
    intro levels n i hi
    have hes : PartNamed dec es := partNamed dec es h.2
    have hafter : v.after levels (n + 1) = levels := by
      rw [Json.after, h.1.1]
      rfl
    rw [Json.leaves, Json.pathLeaves, List.map_append, element_named (partNamed dec v h.1.2) h.1.1 hi,
      hafter, Nat.add_sub_cancel, hes _ n (i + 1)
        (by rw [Function.update_self, JsonLevel.bump, hi]; rfl), Function.update_self, stepsOf_update]
    rfl
  | _, .member _ name _ _ v _, h => by
    intro levels n
    exact member_named (partNamed dec v h) levels n name.content
  | _, .members _ name _ _ v _ ms, h => by
    rw [Json.isFlat, Bool.and_eq_true] at h
    intro levels n
    have hms : PartNamed dec ms := partNamed dec ms h.2
    rw [Json.leaves, Json.pathLeaves, List.map_append,
      member_named (partNamed dec v h.1) levels n name.content, hms levels n]

/-- A node is that of a leaf with its path: it has the normalized name, the type and the value. -/
def Names (dec : Bool) (val : List UInt8) (n : Jsonn) (p : List JsonStep × JsonScalar) : Prop :=
  n.name = normalName p.1 ∧ n.type = p.2.type ∧ cStringAt val n.str = p.2.value dec

/-- The nodes of a parse are the leaves of a document, with their normalized names. -/
def Normalizes (dec : Bool) (d : JsonDocument) (st : JsonState) : Prop :=
  List.Forall₂ (Names dec st.val) st.nodes (d.value.pathLeaves 0)

/-- A parse of a document whose names have no escapes gives the leaves of its reader. -/
theorem exists_nodes {dec : Bool} {d : JsonDocument} (hread : d.isRead dec = true)
    (hnesting : 1 + d.value.nesting < jsonMaxNested)
    (hp : dec = false ∨ d.value.plainNames = true) :
  ∃ st, Succeeds dec d.render st
    ∧ List.Forall₂ (NodeAt st.val st.i) st.nodes (d.value.leaves dec noLevels 0)
  := by
  obtain ⟨r, hr, hfinds⟩ := @readText_document _ _ hread hnesting True (fun _ => hp)
  have hfollows := velyJsonNew_follows fresh_initial dec d.render
  rw [hr] at hfollows
  obtain ⟨st, hst, hec, hnodes⟩ := hfollows
  obtain ⟨L, hL, -, hplain⟩ := hfinds.leaves
  rw [show r.leaves = L from hL, hplain trivial] at hnodes
  exact ⟨st, ⟨hst, hec⟩, hnodes⟩

/-- The nodes are the leaves with their paths. -/
theorem normalizes_of_nodes {dec : Bool} {d : JsonDocument} {st : JsonState}
    (hroot : d.value.isObject = true) (hflat : d.value.isFlat = true)
    (hnodes : List.Forall₂ (NodeAt st.val st.i) st.nodes (d.value.leaves dec noLevels 0)) :
  Normalizes dec d st
  := by
  have hnamed : PartNamed dec d.value := partNamed dec d.value hflat
  rw [hnamed noLevels 0 (.inl hroot) (fun _ => rfl), List.forall₂_map_right_iff] at hnodes
  exact hnodes.imp (fun _ _ hn => ⟨hn.name, hn.type, hn.cString⟩)

/-- The document `{"a":[true,{"a":null}]}`. -/
def nestedDocument : JsonDocument :=
  memberDocument (.array (.elements .empty (.scalar (.literal .true)) .empty
    (.element .empty (memberDocument (.scalar (.literal .null))).value .empty)))

end Vely
