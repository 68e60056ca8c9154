import Vely.Json.Decode
import Vely.Json.Sound

/-!
# Reading documents

The reader reads a document when its strings are read, when no array and no object in it is empty,
and when it is not nested too deep.  The leaves get the names that their levels have at that time:
the members of an object share a level, and so do an array, its elements and the arrays among them.
-/

namespace Vely

/-! ### What is read of a document -/

namespace JsonScalar

/-- Whether the parser reads a scalar. -/
def isRead (dec : Bool) : JsonScalar → Bool
  | .string s => (s.read dec).isSome
  | _ => true

/-- The type of a scalar. -/
def type : JsonScalar → JsonType
  | .literal .true => .bool
  | .literal .false => .bool
  | .literal .null => .null
  | .number n => if n.isReal then .real else .number
  | .string _ => .string

/-- The value that is read of a scalar, up to the first zero. -/
def value (dec : Bool) : JsonScalar → List UInt8
  | .literal l => l.render
  | .number n => n.render
  | .string s => ((s.read dec).getD []).takeWhile (· ≠ 0)

/-- Whether the byte behind a scalar is overwritten. -/
def isHeld : JsonScalar → Bool
  | .string _ => false
  | _ => true

end JsonScalar

/-- A level with the next index. -/
def JsonLevel.bump (l : JsonLevel) : JsonLevel := ⟨l.name, some (succIndex l.index)⟩

/-- A level without an index. -/
def JsonLevel.unindex (l : JsonLevel) : JsonLevel := ⟨l.name, none⟩

namespace Json

/-- Whether the reader reads a part: nothing in it is empty, and all strings are read. -/
def isRead (dec : Bool) : {k : JsonPart} → Json k → Bool
  | _, .scalar s => s.isRead dec
  | _, .emptyArray _ => false
  | _, .array es => es.isRead dec
  | _, .emptyObject _ => false
  | _, .object ms => ms.isRead dec
  | _, .element _ v _ => v.isRead dec
  | _, .elements _ v _ es => v.isRead dec && es.isRead dec
  | _, .member _ name _ _ v _ => (name.read dec).isSome && v.isRead dec
  | _, .members _ name _ _ v _ ms => (name.read dec).isSome && v.isRead dec && ms.isRead dec

/-- Whether the names in a part have no escapes. -/
def plainNames : {k : JsonPart} → Json k → Bool
  | _, .scalar _ => true
  | _, .emptyArray _ => true
  | _, .array es => es.plainNames
  | _, .emptyObject _ => true
  | _, .object ms => ms.plainNames
  | _, .element _ v _ => v.plainNames
  | _, .elements _ v _ es => v.plainNames && es.plainNames
  | _, .member _ name _ _ v _ => name.isPlain && v.plainNames
  | _, .members _ name _ _ v _ ms => name.isPlain && v.plainNames && ms.plainNames

/-- Whether a value is an array. -/
def isArray : Json .value → Bool
  | .emptyArray _ => true
  | .array _ => true
  | _ => false

/-- Whether the byte behind a value is overwritten. -/
def isHeld : Json .value → Bool
  | .scalar s => s.isHeld
  | _ => false

/-- The levels behind a value on level `n`. -/
def after (v : Json .value) (levels : Nat → JsonLevel) (n : Nat) : Nat → JsonLevel :=
  if v.isArray then Function.update levels (n - 1) (levels (n - 1)).unindex else levels

/-- The leaves that the reader finds in a part on level `n`, when the names are read as they are. -/
def leaves (dec : Bool) :
    {k : JsonPart} → Json k → (Nat → JsonLevel) → Nat → List JsonLeaf
  | _, .scalar s, levels, n => [⟨JsonReader.leafName levels n, s.type, s.value dec⟩]
  | _, .emptyArray _, _, _ => []
  | _, .array es, levels, n =>
    es.leaves dec (Function.update levels (n - 1) (levels (n - 1)).bump) n
  | _, .emptyObject _, _, _ => []
  | _, .object ms, levels, n => ms.leaves dec levels n
  | _, .element _ v _, levels, n => v.leaves dec levels n
  | _, .elements _ v _ es, levels, n =>
    v.leaves dec levels n
      ++ es.leaves dec (Function.update (v.after levels n) (n - 1) (v.after levels n (n - 1)).bump) n
  | _, .member _ name _ _ v _, levels, n =>
    v.leaves dec (Function.update levels n ⟨name.content, none⟩) (n + 1)
  | _, .members _ name _ _ v _ ms, levels, n =>
    v.leaves dec (Function.update levels n ⟨name.content, none⟩) (n + 1) ++ ms.leaves dec levels n

end Json

/-! ### Steps of the reader -/

theorem jsonToken_blank {c : UInt8} (h : isBlank c = true) :
  jsonToken c = .blank
  := by
  simp only [isBlank, Bool.or_eq_true, decide_eq_true_eq, or_assoc] at h
  rcases h with rfl | rfl | rfl | rfl <;> rfl

theorem jsonToken_digit {c : UInt8} (h : c = '-'.toUInt8 ∨ isdigit c = true) :
  jsonToken c = .digit
  := by
  have hne : ∀ k, isdigit k = false → k ≠ '-'.toUInt8 → c ≠ k := by
    rintro k hk hk' rfl
    rcases h with h | h
    · exact hk' h
    · rw [hk] at h
      cases h
  have hblank : ¬ isBlank c = true := by
    intro hb
    simp only [isBlank, Bool.or_eq_true, decide_eq_true_eq, or_assoc] at hb
    rcases hb with hb | hb | hb | hb <;> exact hne _ rfl (by decide) hb
  rw [jsonToken, if_neg (hne _ rfl (by decide)), if_neg (hne _ rfl (by decide)),
    if_neg (hne _ rfl (by decide)), if_neg (hne _ rfl (by decide)), if_neg (hne _ rfl (by decide)),
    if_neg (hne _ rfl (by decide)), if_neg hblank, if_neg (hne _ rfl (by decide)), if_pos h]

/-- The reader behind the next byte. -/
def JsonReader.next (r : JsonReader) (s : List UInt8) : JsonReader :=
  { r with rest := s, held := false }

section Steps

variable {dec : Bool} {bound depth : Nat} {r : JsonReader} {s : List UInt8}

/-- Whether a byte is remembered does not matter unless the text ends. -/
theorem readJson_held {mode : JsonMode} (hr : r.rest ≠ []) :
  readJson dec bound depth mode (r.next r.rest) = readJson dec bound depth mode r
  := by
  obtain ⟨c, s, hr⟩ := List.exists_cons_of_ne_nil hr
  obtain ⟨rest, levels, top, leaves, held, sound⟩ := r
  simp only at hr
  subst hr
  cases bound with
  | zero => rfl
  | succ bound =>
    rw [readJson, readJson]
    rfl

/-- White space is passed. -/
theorem readJson_blank {mode : JsonMode} (w : Blank) (hs : s ≠ []) (hr : r.rest = w.bytes ++ s)
    (hb : r.rest.length < bound) :
  ∃ bound', s.length < bound' ∧ bound' ≤ bound
    ∧ readJson dec bound depth mode r = readJson dec bound' depth mode (r.next s)
  := by
  obtain ⟨ws, hws⟩ := w
  simp only at hr
  induction ws generalizing r bound with
  | nil =>
    rw [List.nil_append] at hr
    refine ⟨bound, by rwa [← hr], le_rfl, ?_⟩
    rw [← hr, readJson_held (by rwa [hr])]
  | cons c ws ih =>
    rw [hr, List.cons_append, List.length_cons] at hb
    obtain ⟨bound, rfl⟩ : ∃ b, bound = b + 1 := ⟨bound - 1, by omega⟩
    have hstep : readJson dec (bound + 1) depth mode r
        = readJson dec bound depth mode (r.next (ws ++ s)) := by
      rw [readJson, hr, List.cons_append]
      simp only [jsonToken_blank (hws c (by simp))]
      rfl
    obtain ⟨bound', hlt, hle, hread⟩ := @ih bound (r.next (ws ++ s))
      (by simp only [JsonReader.next]; omega) (fun d hd => hws d (by simp [hd])) rfl
    exact ⟨bound', hlt, by omega, by rw [hstep, hread]; rfl⟩

theorem readJson_beginObject (hr : r.rest = '{'.toUInt8 :: s) :
  readJson dec (bound + 1) depth .value r = readJson dec bound depth .name (r.next s)
  := by
  rw [readJson, hr]
  rfl

theorem readJson_beginArray (hr : r.rest = '['.toUInt8 :: s) :
  readJson dec (bound + 1) depth .value r
    = if r.top ≤ 1 then none
      else (((r.next s).pop.bump (r.top - 2)).enter depth
          (fun d r => readJson dec bound d .value r)).bind
        (fun r => readJson dec bound depth .element r)
  := by
  rw [readJson, hr]
  rfl

theorem readJson_endObject (hr : r.rest = '}'.toUInt8 :: s) :
  readJson dec (bound + 1) depth .member r = some (r.next s).pop
  := by
  rw [readJson, hr]
  rfl

theorem readJson_endArray (hr : r.rest = ']'.toUInt8 :: s) :
  readJson dec (bound + 1) depth .element r = some ((r.next s).unindex (r.top - 1))
  := by
  rw [readJson, hr]
  rfl

theorem readJson_nameSeparator (hr : r.rest = ':'.toUInt8 :: s) :
  readJson dec (bound + 1) depth .colon r
    = ((r.next s).enter depth (fun d r => readJson dec bound d .value r)).bind
      (fun r => readJson dec bound depth .member r)
  := by
  rw [readJson, hr]
  rfl

theorem readJson_nextMember (hr : r.rest = ','.toUInt8 :: s) :
  readJson dec (bound + 1) depth .member r = readJson dec bound depth .name (r.next s)
  := by
  rw [readJson, hr]
  rfl

theorem readJson_nextElement (hr : r.rest = ','.toUInt8 :: s) :
  readJson dec (bound + 1) depth .element r
    = (((r.next s).bump (r.top - 1)).enter depth (fun d r => readJson dec bound d .value r)).bind
      (fun r => readJson dec bound depth .element r)
  := by
  rw [readJson, hr]
  rfl

theorem readJson_name (hr : r.rest = '"'.toUInt8 :: s) :
  readJson dec (bound + 1) depth .name r
    = (readString dec r.rest).bind (fun x => readJson dec bound depth .colon
      (((r.next x.rest).rename (r.top - 1) x.name).check x.sound))
  := by
  rw [readJson, hr]
  rfl

theorem readJson_string (hr : r.rest = '"'.toUInt8 :: s) :
  readJson dec (bound + 1) depth .value r
    = (readString dec r.rest).bind (fun x =>
      some (((r.next x.rest).add .string x.value).check x.sound))
  := by
  rw [readJson, hr]
  rfl

/-- A number is read. -/
theorem readJson_number (n : JsonNumber) {t : List UInt8} (ht : EndsNumber t)
    (hr : r.rest = n.render ++ t) :
  readJson dec (bound + 1) depth .value r
    = some (r.scalar (if n.isReal then .real else .number) n.render.length)
  := by
  have hends : EndsNumber (t ++ [0]) := by
    rwa [EndsNumber, byteAt_append_zero]
  have hnum := velyJsonNum_render n hends
  rw [← List.append_assoc, ← hr] at hnum
  obtain ⟨c, u, hc, hdigit⟩ : ∃ c u, n.render = c :: u ∧ (c = '-'.toUInt8 ∨ isdigit c = true) := by
    rw [JsonNumber.render]
    cases n.neg with
    | true => exact ⟨_, _, rfl, .inl rfl⟩
    | false =>
      obtain ⟨hne, hint⟩ := n.int_digits
      obtain ⟨d, ds, hds⟩ := List.exists_cons_of_ne_nil hne
      rw [hds]
      exact ⟨d, _, rfl, .inr (hint d (by simp [hds]))⟩
  have hcons : r.rest = c :: (u ++ t) := by rw [hr, hc, List.cons_append]
  rw [readJson, hcons]
  simp only [jsonToken_digit hdigit]
  rw [← hcons, hnum]
  rfl

/-- A literal is read. -/
theorem readJson_literal (l : JsonLiteral) {t : List UInt8} (hr : r.rest = l.render ++ t) :
  readJson dec (bound + 1) depth .value r
    = some (r.scalar (JsonScalar.literal l).type l.render.length)
  := by
  have htake : r.rest.take l.render.length = l.render := by rw [hr, List.take_left]
  have hword : ∃ c u, l.render = c :: u
      ∧ jsonToken c = .word (JsonScalar.literal l).type l.render := by
    cases l with
    | true => exact ⟨_, _, rfl, rfl⟩
    | false => exact ⟨_, _, rfl, rfl⟩
    | null => exact ⟨_, _, rfl, rfl⟩
  obtain ⟨c, u, hc, htoken⟩ := hword
  have hcons : r.rest = c :: (u ++ t) := by rw [hr, hc, List.cons_append]
  rw [readJson, hcons]
  simp only [htoken]
  rw [← hcons, if_pos htake]

end Steps

/-! ### Leaves -/

/-- What a leaf is but for its name. -/
def JsonLeaf.content (l : JsonLeaf) : JsonType × List UInt8 := (l.type, l.value)

namespace Json

/-- The values of the leaves do not depend on the levels. -/
theorem leaves_content (dec : Bool) :
    ∀ {k : JsonPart} (p : Json k) (levels levels' : Nat → JsonLevel) (n n' : Nat),
  (p.leaves dec levels n).map JsonLeaf.content = (p.leaves dec levels' n').map JsonLeaf.content
  | _, .scalar _, _, _, _, _ => rfl
  | _, .emptyArray _, _, _, _, _ => rfl
  | _, .array es, _, _, _, _ => es.leaves_content dec _ _ _ _
  | _, .emptyObject _, _, _, _, _ => rfl
  | _, .object ms, _, _, _, _ => ms.leaves_content dec _ _ _ _
  | _, .element _ v _, _, _, _, _ => v.leaves_content dec _ _ _ _
  | _, .elements _ v _ es, levels, levels', n, n' => by
    rw [leaves, leaves, List.map_append, List.map_append, v.leaves_content dec levels levels' n n',
      es.leaves_content dec _ _ n n']
  | _, .member _ _ _ _ v _, _, _, _, _ => v.leaves_content dec _ _ _ _
  | _, .members _ _ _ _ v _ ms, levels, levels', n, n' => by
    rw [leaves, leaves, List.map_append, List.map_append, v.leaves_content dec _ _ (n + 1) (n' + 1),
      ms.leaves_content dec levels levels' n n']

end Json

theorem nameOf_congr {levels levels' : Nat → JsonLevel} {n : Nat}
    (h : ∀ k < n, levels k = levels' k) :
  JsonReader.nameOf levels n = JsonReader.nameOf levels' n
  := by
  induction n with
  | zero => rfl
  | succ n ih =>
    rw [JsonReader.nameOf, JsonReader.nameOf, ih (fun k hk => h k (by omega)), h n (by omega)]

theorem update_congr {levels levels' : Nat → JsonLevel} {n m : Nat}
    (h : ∀ k < n, levels k = levels' k) {l l' : JsonLevel} (hl : m < n → l = l') :
  ∀ k < n, Function.update levels m l k = Function.update levels' m l' k
  := by
  intro k hk
  by_cases hkm : k = m
  · subst hkm
    rw [Function.update_self, Function.update_self, hl hk]
  · rw [Function.update_of_ne hkm, Function.update_of_ne hkm, h k hk]

theorem update_succ_congr {levels levels' : Nat → JsonLevel} {n : Nat}
    (h : ∀ k < n, levels k = levels' k) (l : JsonLevel) :
  ∀ k < n + 1, Function.update levels n l k = Function.update levels' n l k
  := by
  intro k hk
  by_cases hkn : k = n
  · subst hkn
    rw [Function.update_self, Function.update_self]
  · rw [Function.update_of_ne hkn, Function.update_of_ne hkn, h k (by omega)]

namespace Json

theorem after_congr (v : Json .value) {levels levels' : Nat → JsonLevel} {n : Nat}
    (h : ∀ k < n, levels k = levels' k) :
  ∀ k < n, v.after levels n k = v.after levels' n k
  := by
  rw [after, after]
  split
  · exact update_congr h (fun hn => by rw [h _ hn])
  · exact h

theorem after_of_ne (v : Json .value) (levels : Nat → JsonLevel) {n k : Nat} (hk : k ≠ n - 1) :
  v.after levels n k = levels k
  := by
  rw [after]
  split
  · exact Function.update_of_ne hk _ _
  · rfl

theorem after_unindex (v : Json .value) (levels : Nat → JsonLevel) (n : Nat) :
  (v.after levels n (n - 1)).unindex = (levels (n - 1)).unindex
  := by
  rw [after]
  split
  · rw [Function.update_self]
    rfl
  · rfl

/-- Behind a value on level `n` the level before has the same name. -/
theorem unindex_after (v : Json .value) {levels levels' : Nat → JsonLevel} {n : Nat}
    (h : ∀ k < n, levels' k = v.after levels n k) :
  ∀ k < n, Function.update levels' (n - 1) (levels' (n - 1)).unindex k
    = Function.update levels (n - 1) (levels (n - 1)).unindex k
  := by
  intro k hk
  by_cases hkn : k = n - 1
  · subst hkn
    rw [Function.update_self, Function.update_self, h _ hk, v.after_unindex]
  · rw [Function.update_of_ne hkn, Function.update_of_ne hkn, h k hk, v.after_of_ne levels hkn]

/-- The leaves depend on the levels below only. -/
theorem leaves_congr (dec : Bool) :
    ∀ {k : JsonPart} (p : Json k) {levels levels' : Nat → JsonLevel} {n : Nat},
  (∀ k < n, levels k = levels' k) → p.leaves dec levels n = p.leaves dec levels' n
  | _, .scalar _, _, _, _, h => by
    rw [leaves, leaves, JsonReader.leafName, JsonReader.leafName, nameOf_congr h]
  | _, .emptyArray _, _, _, _, _ => rfl
  | _, .array es, _, _, _, h => es.leaves_congr dec (update_congr h (fun hn => by rw [h _ hn]))
  | _, .emptyObject _, _, _, _, _ => rfl
  | _, .object ms, _, _, _, h => ms.leaves_congr dec h
  | _, .element _ v _, _, _, _, h => v.leaves_congr dec h
  | _, .elements _ v _ es, _, _, _, h => by
    have hafter := v.after_congr h
    rw [leaves, leaves, v.leaves_congr dec h,
      es.leaves_congr dec (update_congr hafter (fun hn => by rw [hafter _ hn]))]
  | _, .member _ _ _ _ v _, _, _, _, h => by
    rw [leaves, leaves, v.leaves_congr dec (update_succ_congr h _)]
  | _, .members _ _ _ _ v _ ms, _, _, _, h => by
    rw [leaves, leaves, v.leaves_congr dec (update_succ_congr h _), ms.leaves_congr dec h]

end Json

/-! ### Parts -/

/-- The leaves that are found between two states of the reader, which keeps to the grammar.  Their
names are as expected when the names are read as they are. -/
structure Finds (plain : Prop) (r r' : JsonReader) (L : List JsonLeaf) : Prop where
  sound : r'.sound = r.sound
  leaves : ∃ L', r'.leaves = r.leaves ++ L'
    ∧ L'.map JsonLeaf.content = L.map JsonLeaf.content ∧ (plain → L' = L)

theorem Finds.refl {plain : Prop} {r : JsonReader} :
  Finds plain r r []
  := ⟨rfl, [], by simp, rfl, fun _ => rfl⟩

theorem Finds.trans {plain : Prop} {r r' r'' : JsonReader} {L L' : List JsonLeaf}
    (h : Finds plain r r' L) (h' : Finds plain r' r'' L') :
  Finds plain r r'' (L ++ L')
  := by
  obtain ⟨M, hM, hsame, hplain⟩ := h.leaves
  obtain ⟨M', hM', hsame', hplain'⟩ := h'.leaves
  refine ⟨h'.sound.trans h.sound, M ++ M', ?_, ?_, ?_⟩
  · rw [hM', hM, List.append_assoc]
  · rw [List.map_append, List.map_append, hsame, hsame']
  · intro hp
    rw [hplain hp, hplain' hp]

/-- The leaves are those of a part on other levels, which are the same when the names are read as
they are. -/
theorem Finds.congr {plain : Prop} {dec : Bool} {r r' : JsonReader} {k : JsonPart} {p : Json k}
    {levels levels' : Nat → JsonLevel} {n : Nat} (h : Finds plain r r' (p.leaves dec levels n))
    (hlevels : plain → ∀ k < n, levels k = levels' k) :
  Finds plain r r' (p.leaves dec levels' n)
  := by
  obtain ⟨M, hM, hsame, hplain⟩ := h.leaves
  refine ⟨h.sound, M, hM, hsame.trans (p.leaves_content dec levels levels' n n), ?_⟩
  intro hp
  rw [hplain hp, p.leaves_congr dec (hlevels hp)]

/-- The state behind a part: what is left, and the levels. -/
structure Behind (r : JsonReader) (t : List UInt8) (levels : Nat → JsonLevel) (n : Nat) (held : Bool) :
    Prop where
  rest : r.rest = t
  top : r.top = n
  held : r.held = held
  levels : ∀ k < n, r.levels k = levels k
  index : ∀ k, n ≤ k → (r.levels k).index = none

/-- A state in which a part can be read: there are `n` levels and as many calls at least, and the
bound is enough. -/
structure Before (bound depth n : Nat) (r : JsonReader) (s : List UInt8) : Prop where
  rest : r.rest = s
  bound : s.length < bound
  depth : n + 1 ≤ depth
  index : ∀ k, n ≤ k → (r.levels k).index = none

/-- A value is read. -/
def ValueRead (dec : Bool) (plain : Prop) (v : Json .value) : Prop :=
  ∀ {bound depth n : Nat} {r : JsonReader} {t : List UInt8}, depth + v.nesting < jsonMaxNested →
    (v.isArray = true → 1 ≤ n) → EndsNumber t → r.top = n + 1 →
    Before bound depth n r (v.render ++ t) →
    ∃ r', readJson dec bound depth .value r = some r' ∧ Finds plain r r' (v.leaves dec r.levels n)
      ∧ Behind r' t (v.after r.levels n) n v.isHeld

/-- The elements of an array are read, with a call for each. -/
def ElementsRead (dec : Bool) (plain : Prop) (es : Json .elements) : Prop :=
  ∀ {bound depth n : Nat} {r : JsonReader} {t : List UInt8}, depth + 1 + es.nesting < jsonMaxNested →
    1 ≤ n → r.top = n → Before bound depth n r (es.render ++ ']'.toUInt8 :: t) →
    ∃ r', (r.enter depth (fun d r => readJson dec bound d .value r)).bind
        (fun r => readJson dec bound depth .element r) = some r'
      ∧ Finds plain r r' (es.leaves dec r.levels n)
      ∧ Behind r' t (Function.update r.levels (n - 1) (r.levels (n - 1)).unindex) n false

/-- The members of an object are read, with a call for each. -/
def MembersRead (dec : Bool) (plain : Prop) (ms : Json .members) : Prop :=
  ∀ {bound depth n : Nat} {r : JsonReader} {t : List UInt8}, depth + 1 + ms.nesting < jsonMaxNested →
    r.top = n + 1 → Before bound depth n r (ms.render ++ '}'.toUInt8 :: t) →
    ∃ r', readJson dec bound depth .name r = some r' ∧ Finds plain r r' (ms.leaves dec r.levels n)
      ∧ Behind r' t r.levels n false

section Parts

variable {dec : Bool} {plain : Prop}

/-- White space does not go on with a number. -/
theorem endsNumber_cons {d : UInt8} (hd : isBlank d = true) (ws : List UInt8) :
  EndsNumber (d :: ws)
  := by
  simp only [isBlank, Bool.or_eq_true, decide_eq_true_eq, or_assoc] at hd
  have hall : EndsNumber [d] := by
    rcases hd with rfl | rfl | rfl | rfl <;> exact ⟨by decide, by decide, by decide, by decide⟩
  exact hall

theorem endsNumber_bytes (w : Blank) :
  EndsNumber w.bytes
  := by
  cases hw : w.bytes with
  | nil => exact ⟨by decide, by decide, by decide, by decide⟩
  | cons d ws => exact endsNumber_cons (w.blank d (by simp [hw])) ws

/-- What follows a value in a document does not go on with a number. -/
theorem endsNumber_blank (w : Blank) {c : UInt8} {u : List UInt8} (hc : EndsNumber [c]) :
  EndsNumber (w.bytes ++ c :: u)
  := by
  cases hw : w.bytes with
  | nil => exact hc
  | cons d ws => exact endsNumber_cons (w.blank d (by simp [hw])) _

theorem render_ne_nil (v : Json .value) :
  v.render ≠ []
  := by
  cases v with
  | scalar s =>
    cases s with
    | literal l => cases l <;> simp [Json.render, JsonScalar.render, JsonLiteral.render, ascii]
    | number n => exact n.render_ne_nil
    | string s => simp [Json.render, JsonScalar.render, JsonString.render]
  | _ => simp [Json.render]

theorem valueRead_scalar (s : JsonScalar) (h : s.isRead dec = true) :
  ValueRead dec plain (.scalar s)
  := by
  intro bound depth n r t hdepth _ hends htop hbefore
  have hb := hbefore.bound
  obtain ⟨bound, rfl⟩ : ∃ b, bound = b + 1 := ⟨bound - 1, by omega⟩
  have hrest := hbefore.rest
  have hn : r.top - 1 = n := by omega
  have hscalar : ∀ {type : JsonType} {text : List UInt8}, r.rest = text ++ t →
      Finds plain r (r.scalar type text.length) [⟨JsonReader.leafName r.levels n, type, text⟩]
        ∧ Behind (r.scalar type text.length) t r.levels n true := by
    intro type text htext
    refine ⟨⟨rfl, _, rfl, ?_, ?_⟩, ?_, hn, rfl, fun _ _ => rfl, hbefore.index⟩
    · rw [htext, List.take_left]
      rfl
    · intro _
      rw [htext, List.take_left, hn]
    · rw [JsonReader.scalar, htext, List.drop_left]
  cases s with
  | literal l => exact ⟨_, readJson_literal l hrest, hscalar hrest⟩
  | number n => exact ⟨_, readJson_number n hends hrest, hscalar hrest⟩
  | string s =>
    have hstring := readString_render dec s t
    simp only [JsonScalar.isRead] at h
    obtain ⟨bs, hbs⟩ := Option.isSome_iff_exists.mp h
    rw [hbs] at hstring
    obtain ⟨name, hread, -⟩ := hstring
    have hcons : r.rest = '"'.toUInt8 :: (s.content ++ ['"'.toUInt8] ++ t) := hrest
    have hvalue : (JsonScalar.string s).value dec = bs.takeWhile (· ≠ 0) := by
      rw [JsonScalar.value, hbs]
      rfl
    rw [readJson_string hcons, hrest]
    change ∃ r', (readString dec (s.render ++ t)).bind _ = some r' ∧ _
    rw [hread]
    refine ⟨_, rfl, ⟨?_, _, rfl, ?_, ?_⟩, rfl, hn, rfl, fun _ _ => rfl, hbefore.index⟩
    · simp [JsonReader.check, JsonReader.add, JsonReader.next]
    · rw [Json.leaves, hvalue]
      rfl
    · intro _
      rw [Json.leaves, hvalue]
      simp only [JsonReader.next, hn]
      rfl

/-- A call for a value reads it, with the white space before it. -/
theorem enter_value {v : Json .value} (hv : ValueRead dec plain v) (w : Blank)
    {bound depth n : Nat} {r : JsonReader} {t : List UInt8} (hdepth : depth + 1 + v.nesting < jsonMaxNested)
    (htop : r.top = n) (hn : n ≤ depth) (harray : v.isArray = true → 1 ≤ n) (hends : EndsNumber t)
    (hrest : r.rest = w.bytes ++ (v.render ++ t)) (hb : r.rest.length < bound)
    (hindex : ∀ k, n ≤ k → (r.levels k).index = none) :
  ∃ r', r.enter depth (fun d r => readJson dec bound d .value r) = some r'
    ∧ Finds plain r r' (v.leaves dec r.levels n) ∧ Behind r' t (v.after r.levels n) n v.isHeld
  := by
  have hne : v.render ++ t ≠ [] := by simp [render_ne_nil v]
  obtain ⟨bound', hlt, -, hblank⟩ := @readJson_blank dec bound (depth + 1)
    { r with top := r.top + 1 } (v.render ++ t) .value w hne hrest hb
  rw [JsonReader.enter, if_neg (by omega), hblank]
  obtain ⟨r', hr', hfinds, hbehind⟩ := @hv bound' (depth + 1) n
    (JsonReader.next { r with top := r.top + 1 } (v.render ++ t)) t hdepth harray hends
    (by simp only [JsonReader.next, htop]) ⟨rfl, hlt, by omega, hindex⟩
  exact ⟨r', hr', ⟨hfinds.sound, hfinds.leaves⟩, hbehind⟩

theorem Behind.congr {r : JsonReader} {t : List UInt8} {levels levels' : Nat → JsonLevel} {n : Nat}
    {held : Bool} (h : Behind r t levels n held) (hlevels : ∀ k < n, levels k = levels' k) :
  Behind r t levels' n held
  := { h with levels := fun k hk => (h.levels k hk).trans (hlevels k hk) }

theorem Behind.next_top {r : JsonReader} {t : List UInt8} {levels : Nat → JsonLevel} {n : Nat}
    {held : Bool} (h : Behind r t levels n held) (u : List UInt8) :
  (r.next u).top - 1 = n - 1
  := congrArg (· - 1) h.top

/-- A level is changed below level `n`. -/
theorem Behind.setLevel {r : JsonReader} {s t : List UInt8} {levels : Nat → JsonLevel} {n : Nat}
    {held : Bool} (h : Behind r s levels n held) (hn : 1 ≤ n) (u : List UInt8) (l : JsonLevel) :
  Behind (((r.next u).next t).setLevel (n - 1) l) t (Function.update r.levels (n - 1) l) n false
  where
  rest := rfl
  top := h.top
  held := rfl
  levels _ _ := rfl
  index k hk := by
    simp only [JsonReader.setLevel, JsonReader.next]
    rw [Function.update_of_ne (by omega)]
    exact h.index k hk

/-- The last element of an array. -/
theorem elementsRead_element {v : Json .value} (hv : ValueRead dec plain v) (w w' : Blank) :
  ElementsRead dec plain (.element w v w')
  := by
  intro bound depth n r t hdepth hn htop hbefore
  have hrest := hbefore.rest
  have hb := hbefore.bound
  rw [← hrest] at hb
  simp only [Json.render, List.append_assoc] at hrest
  have hends : EndsNumber (w'.bytes ++ ']'.toUInt8 :: t) :=
    endsNumber_blank w' ⟨by decide, by decide, by decide, by decide⟩
  obtain ⟨r₁, hr₁, hfinds, hbehind⟩ := enter_value hv w hdepth htop (by have := hbefore.depth; omega)
    (fun _ => hn) hends hrest hb hbefore.index
  have hlater := enter_later (fun _ _ _ => readJson_later) hr₁
  obtain ⟨bound', hlt, -, hblank⟩ := @readJson_blank dec bound depth r₁ (']'.toUInt8 :: t) .element w'
    (by simp) hbehind.rest (hlater.length.trans_lt hb)
  obtain ⟨bound', rfl⟩ : ∃ b, bound' = b + 1 := ⟨bound' - 1, by omega⟩
  rw [hr₁, Option.bind_some, hblank, readJson_endArray rfl, hbehind.next_top]
  exact ⟨_, rfl, ⟨hfinds.sound, hfinds.leaves⟩,
    (hbehind.setLevel hn _ _).congr (v.unindex_after hbehind.levels)⟩

/-- An element of an array before others. -/
theorem elementsRead_elements {v : Json .value} {es : Json .elements} (hv : ValueRead dec plain v)
    (hes : ElementsRead dec plain es) (w w' : Blank) :
  ElementsRead dec plain (.elements w v w' es)
  := by
  intro bound depth n r t hdepth hn htop hbefore
  have hrest := hbefore.rest
  have hb := hbefore.bound
  rw [← hrest] at hb
  rw [Json.nesting] at hdepth
  simp only [Json.render, List.append_assoc, List.cons_append] at hrest
  have hends : EndsNumber (w'.bytes ++ ','.toUInt8 :: (es.render ++ ']'.toUInt8 :: t)) :=
    endsNumber_blank w' ⟨by decide, by decide, by decide, by decide⟩
  have hdepthn := hbefore.depth
  obtain ⟨r₁, hr₁, hfinds, hbehind⟩ := @enter_value _ _ _ hv w bound depth n r _ (by omega) htop
    (by omega) (fun _ => hn) hends hrest hb hbefore.index
  have hlater := enter_later (fun _ _ _ => readJson_later) hr₁
  obtain ⟨bound', hlt, -, hblank⟩ := @readJson_blank dec bound depth r₁
    (','.toUInt8 :: (es.render ++ ']'.toUInt8 :: t)) .element w' (by simp) hbehind.rest
    (hlater.length.trans_lt hb)
  rw [List.length_cons] at hlt
  obtain ⟨bound', rfl⟩ : ∃ b, bound' = b + 1 := ⟨bound' - 1, by omega⟩
  have hset := hbehind.setLevel (t := es.render ++ ']'.toUInt8 :: t) hn
    (','.toUInt8 :: (es.render ++ ']'.toUInt8 :: t)) (r₁.levels (n - 1)).bump
  obtain ⟨r₂, hr₂, hfinds', hbehind'⟩ := @hes bound' depth n _ t (by omega) hn hset.top
    ⟨hset.rest, by omega, hdepthn, hset.index⟩
  rw [hr₁, Option.bind_some, hblank, readJson_nextElement rfl, hbehind.next_top]
  refine ⟨r₂, hr₂, ?_, ?_⟩
  · rw [Json.leaves]
    apply hfinds.trans
    refine @Finds.congr _ _ _ _ _ _ (Function.update r₁.levels (n - 1) (r₁.levels (n - 1)).bump) _ _ ?_ ?_
    · exact ⟨hfinds'.sound, hfinds'.leaves⟩
    · intro _
      exact update_congr hbehind.levels (fun _ => by rw [hbehind.levels _ (by omega)])
  · apply hbehind'.congr
    intro k hk
    simp only [JsonReader.setLevel, Function.update_self, Function.update_idem]
    exact v.unindex_after hbehind.levels k hk

/-- The reader stands behind the value of a member of an object on level `n`. -/
structure BehindMember (r : JsonReader) (t : List UInt8) (levels : Nat → JsonLevel) (n : Nat) :
    Prop where
  rest : r.rest = t
  top : r.top = n + 1
  levels : ∀ k < n, r.levels k = levels k
  index : ∀ k, n ≤ k → (r.levels k).index = none

/-- A name and its value are read. -/
theorem member_value {v : Json .value} (hv : ValueRead dec plain v) {name : JsonString}
    (hread : (name.read dec).isSome = true) (hname : plain → dec = false ∨ name.isPlain = true)
    (w₁ w₂ w₃ : Blank) {bound depth n : Nat} {r : JsonReader} {u : List UInt8}
    (hdepth : depth + 1 + v.nesting < jsonMaxNested) (htop : r.top = n + 1) (hends : EndsNumber u)
    (hbefore : Before bound depth n r
      (w₁.bytes ++ (name.render ++ (w₂.bytes ++ ':'.toUInt8 :: (w₃.bytes ++ (v.render ++ u)))))) :
  ∃ bound' r', readJson dec bound depth .name r = readJson dec bound' depth .member r'
    ∧ r'.rest.length < bound'
    ∧ Finds plain r r' (v.leaves dec (Function.update r.levels n ⟨name.content, none⟩) (n + 1))
    ∧ BehindMember r' u r.levels n
  := by
  have hb := hbefore.bound
  rw [← hbefore.rest] at hb
  obtain ⟨bound₁, hlt₁, -, hblank₁⟩ := @readJson_blank dec bound depth r
    (name.render ++ (w₂.bytes ++ ':'.toUInt8 :: (w₃.bytes ++ (v.render ++ u)))) .name w₁
    (by simp [JsonString.render]) hbefore.rest hb
  obtain ⟨bound₁, rfl⟩ : ∃ b, bound₁ = b + 1 := ⟨bound₁ - 1, by omega⟩
  obtain ⟨bs, hbs⟩ := Option.isSome_iff_exists.mp hread
  have hstring := readString_render dec name (w₂.bytes ++ ':'.toUInt8 :: (w₃.bytes ++ (v.render ++ u)))
  rw [hbs] at hstring
  obtain ⟨text, hstring, htext⟩ := hstring
  -- the reader behind the name
  obtain ⟨r₁, hr₁⟩ : ∃ r₁, r₁ = (((r.next (name.render ++ (w₂.bytes ++ ':'.toUInt8
      :: (w₃.bytes ++ (v.render ++ u))))).next (w₂.bytes ++ ':'.toUInt8
      :: (w₃.bytes ++ (v.render ++ u)))).rename n text).check true := ⟨_, rfl⟩
  have hcolon : readJson dec (bound₁ + 1) depth .name (r.next (name.render
      ++ (w₂.bytes ++ ':'.toUInt8 :: (w₃.bytes ++ (v.render ++ u)))))
      = readJson dec bound₁ depth .colon r₁ := by
    rw [readJson_name (s := name.content ++ ['"'.toUInt8]
      ++ (w₂.bytes ++ ':'.toUInt8 :: (w₃.bytes ++ (v.render ++ u)))) rfl]
    change (readString dec (name.render ++ _)).bind _ = _
    rw [hstring, Option.bind_some, hr₁]
    simp only [JsonReader.next, htop, Nat.add_sub_cancel]
  have hlevel : ∀ k, r₁.levels k = Function.update r.levels n ⟨text, none⟩ k := by
    intro k
    rw [hr₁, ← hbefore.index n le_rfl]
    rfl
  have hrest₁ : r₁.rest = w₂.bytes ++ ':'.toUInt8 :: (w₃.bytes ++ (v.render ++ u)) := by
    rw [hr₁]
    rfl
  have hlt : r₁.rest.length < bound₁ := by
    rw [hrest₁]
    simp only [JsonString.render, List.length_append, List.length_cons] at hlt₁ ⊢
    omega
  obtain ⟨bound₂, hlt₂, -, hblank₂⟩ := @readJson_blank dec bound₁ depth r₁
    (':'.toUInt8 :: (w₃.bytes ++ (v.render ++ u))) .colon w₂ (by simp) hrest₁ hlt
  rw [List.length_cons] at hlt₂
  obtain ⟨bound₂, rfl⟩ : ∃ b, bound₂ = b + 1 := ⟨bound₂ - 1, by omega⟩
  -- the reader behind the value
  obtain ⟨r₃, hr₃, hfinds, hbehind⟩ := @enter_value dec plain v hv w₃ bound₂ depth (n + 1)
    ((r₁.next (':'.toUInt8 :: (w₃.bytes ++ (v.render ++ u)))).next (w₃.bytes ++ (v.render ++ u))) u
    hdepth (by rw [hr₁]; exact htop) hbefore.depth (fun _ => by omega) hends rfl (by
      simp only [JsonReader.next]
      omega)
    (by
      intro k hk
      change (r₁.levels k).index = none
      rw [hlevel, Function.update_of_ne (by omega)]
      exact hbefore.index k (by omega))
  have hlater := (enter_later (fun _ _ _ => readJson_later) hr₃).length
  refine ⟨bound₂, r₃, ?_, ?_, ?_, hbehind.rest, hbehind.top, ?_, ?_⟩
  · rw [hblank₁, hcolon, hblank₂, readJson_nameSeparator rfl, hr₃, Option.bind_some]
  · simp only [JsonReader.next] at hlater
    omega
  · refine @Finds.congr _ _ _ _ _ _ (r₁.levels) _ _ ?_ ?_
    · refine ⟨hfinds.sound.trans ?_, ?_⟩
      · rw [hr₁]
        simp [JsonReader.next, JsonReader.check, JsonReader.rename, JsonReader.setLevel]
      · have hleaves : r₁.leaves = r.leaves := by rw [hr₁]; rfl
        rw [← hleaves]
        exact hfinds.leaves
    · intro hp k _
      rw [hlevel, htext (hname hp)]
  · intro k hk
    rw [hbehind.levels k (by omega), v.after_of_ne _ (by omega)]
    change r₁.levels k = _
    rw [hlevel, Function.update_of_ne (by omega)]
  · intro k hk
    by_cases hkn : k = n
    · rw [hkn, hbehind.levels n (by omega), Json.after]
      split
      · rw [Nat.add_sub_cancel, Function.update_self]
        rfl
      · change (r₁.levels n).index = none
        rw [hlevel, Function.update_self]
    · exact hbehind.index k (by omega)

/-- The last member of an object. -/
theorem membersRead_member {v : Json .value} (hv : ValueRead dec plain v) {name : JsonString}
    (hread : (name.read dec).isSome = true) (hname : plain → dec = false ∨ name.isPlain = true)
    (w₁ w₂ w₃ w₄ : Blank) :
  MembersRead dec plain (.member w₁ name w₂ w₃ v w₄)
  := by
  intro bound depth n r t hdepth htop hbefore
  simp only [Json.render, List.append_assoc, List.cons_append] at hbefore
  have hends : EndsNumber (w₄.bytes ++ '}'.toUInt8 :: t) :=
    endsNumber_blank w₄ ⟨by decide, by decide, by decide, by decide⟩
  obtain ⟨bound₁, r₁, hr₁, hlt₁, hfinds, hbehind⟩ := member_value hv hread hname w₁ w₂ w₃ hdepth htop
    hends hbefore
  obtain ⟨bound₂, hlt₂, -, hblank⟩ := @readJson_blank dec bound₁ depth r₁ ('}'.toUInt8 :: t) .member
    w₄ (by simp) hbehind.rest hlt₁
  obtain ⟨bound₂, rfl⟩ : ∃ b, bound₂ = b + 1 := ⟨bound₂ - 1, by omega⟩
  rw [hr₁, hblank, readJson_endObject rfl]
  refine ⟨_, rfl, ⟨hfinds.sound, hfinds.leaves⟩, rfl, ?_, rfl, hbehind.levels, hbehind.index⟩
  simp only [JsonReader.pop, JsonReader.next, hbehind.top, Nat.add_sub_cancel]

/-- A member of an object before others. -/
theorem membersRead_members {v : Json .value} {ms : Json .members} (hv : ValueRead dec plain v)
    (hms : MembersRead dec plain ms) {name : JsonString} (hread : (name.read dec).isSome = true)
    (hname : plain → dec = false ∨ name.isPlain = true) (w₁ w₂ w₃ w₄ : Blank) :
  MembersRead dec plain (.members w₁ name w₂ w₃ v w₄ ms)
  := by
  intro bound depth n r t hdepth htop hbefore
  rw [Json.nesting] at hdepth
  simp only [Json.render, List.append_assoc, List.cons_append] at hbefore
  have hends : EndsNumber (w₄.bytes ++ ','.toUInt8 :: (ms.render ++ '}'.toUInt8 :: t)) :=
    endsNumber_blank w₄ ⟨by decide, by decide, by decide, by decide⟩
  obtain ⟨bound₁, r₁, hr₁, hlt₁, hfinds, hbehind⟩ := @member_value _ _ _ hv _ hread hname w₁ w₂ w₃
    bound depth n r _ (by omega) htop hends hbefore
  obtain ⟨bound₂, hlt₂, -, hblank⟩ := @readJson_blank dec bound₁ depth r₁
    (','.toUInt8 :: (ms.render ++ '}'.toUInt8 :: t)) .member w₄ (by simp) hbehind.rest hlt₁
  rw [List.length_cons] at hlt₂
  obtain ⟨bound₂, rfl⟩ : ∃ b, bound₂ = b + 1 := ⟨bound₂ - 1, by omega⟩
  obtain ⟨r₂, hr₂, hfinds', hbehind'⟩ := @hms bound₂ depth n
    ((r₁.next (','.toUInt8 :: (ms.render ++ '}'.toUInt8 :: t))).next (ms.render ++ '}'.toUInt8 :: t)) t
    (by omega) hbehind.top ⟨rfl, by omega, hbefore.depth, hbehind.index⟩
  refine ⟨r₂, ?_, ?_, hbehind'.congr hbehind.levels⟩
  · rw [hr₁, hblank, readJson_nextMember rfl]
    exact hr₂
  · rw [Json.leaves]
    apply hfinds.trans
    refine @Finds.congr _ _ _ _ _ _ (r₁.levels) _ _ ?_ ?_
    · exact ⟨hfinds'.sound, hfinds'.leaves⟩
    · intro _
      exact hbehind.levels

theorem valueRead_object {ms : Json .members} (hms : MembersRead dec plain ms) :
  ValueRead dec plain (.object ms)
  := by
  intro bound depth n r t hdepth _ _ htop hbefore
  rw [Json.nesting] at hdepth
  have hrest := hbefore.rest
  have hb := hbefore.bound
  simp only [Json.render, List.append_assoc, List.cons_append, List.nil_append, List.length_cons]
    at hrest hb
  obtain ⟨bound, rfl⟩ : ∃ b, bound = b + 1 := ⟨bound - 1, by omega⟩
  obtain ⟨r', hr', hfinds, hbehind⟩ := @hms bound depth n (r.next (ms.render ++ '}'.toUInt8 :: t)) t
    (by omega) htop ⟨rfl, by omega, hbefore.depth, hbefore.index⟩
  exact ⟨r', by rw [readJson_beginObject hrest, hr'], ⟨hfinds.sound, hfinds.leaves⟩, hbehind⟩

theorem valueRead_array {es : Json .elements} (hes : ElementsRead dec plain es) :
  ValueRead dec plain (.array es)
  := by
  intro bound depth n r t hdepth harray _ htop hbefore
  have hn := harray rfl
  rw [Json.nesting] at hdepth
  have hrest := hbefore.rest
  have hb := hbefore.bound
  simp only [Json.render, List.append_assoc, List.cons_append, List.nil_append, List.length_cons]
    at hrest hb
  obtain ⟨bound, rfl⟩ : ∃ b, bound = b + 1 := ⟨bound - 1, by omega⟩
  have htop' : r.top - 2 = n - 1 := by omega
  obtain ⟨r', hr', hfinds, hbehind⟩ := @hes bound depth n
    ((r.next (es.render ++ ']'.toUInt8 :: t)).pop.bump (n - 1)) t (by omega) hn
    (by simp only [JsonReader.bump, JsonReader.setLevel, JsonReader.pop, JsonReader.next]; omega)
    ⟨rfl, by omega, hbefore.depth, by
      intro k hk
      simp only [JsonReader.bump, JsonReader.setLevel, JsonReader.pop, JsonReader.next]
      rw [Function.update_of_ne (by omega)]
      exact hbefore.index k hk⟩
  refine ⟨r', ?_, ⟨hfinds.sound, hfinds.leaves⟩, hbehind.congr ?_⟩
  · rw [readJson_beginArray hrest, if_neg (by omega), htop', hr']
  · intro k _
    change Function.update (Function.update r.levels (n - 1) (r.levels (n - 1)).bump) (n - 1)
      (Function.update r.levels (n - 1) (r.levels (n - 1)).bump (n - 1)).unindex k = _
    rw [Function.update_self, Function.update_idem]
    rfl

end Parts

/-- What is read of a part. -/
def PartRead (dec : Bool) (plain : Prop) : {k : JsonPart} → Json k → Prop
  | .value, v => ValueRead dec plain v
  | .elements, es => ElementsRead dec plain es
  | .members, ms => MembersRead dec plain ms

/-- A part is read when nothing in it is empty and its strings are read. -/
theorem partRead {dec : Bool} {plain : Prop} :
    ∀ {k : JsonPart} (p : Json k), p.isRead dec = true →
  (plain → dec = false ∨ p.plainNames = true) → PartRead dec plain p
  | _, .scalar s, h, _ => valueRead_scalar s h
  | _, .array es, h, hp => valueRead_array (partRead es h hp)
  | _, .object ms, h, hp => valueRead_object (partRead ms h hp)
  | _, .element w v w', h, hp => elementsRead_element (partRead v h hp) w w'
  | _, .elements w v w' es, h, hp => by
    rw [Json.isRead, Bool.and_eq_true] at h
    simp only [Json.plainNames, Bool.and_eq_true] at hp
    exact elementsRead_elements (partRead v h.1 (fun p => (hp p).imp_right And.left))
      (partRead es h.2 (fun p => (hp p).imp_right And.right)) w w'
  | _, .member w₁ name w₂ w₃ v w₄, h, hp => by
    rw [Json.isRead, Bool.and_eq_true] at h
    simp only [Json.plainNames, Bool.and_eq_true] at hp
    exact membersRead_member (partRead v h.2 (fun p => (hp p).imp_right And.right)) h.1
      (fun p => (hp p).imp_right And.left) w₁ w₂ w₃ w₄
  | _, .members w₁ name w₂ w₃ v w₄ ms, h, hp => by
    rw [Json.isRead, Bool.and_eq_true, Bool.and_eq_true] at h
    simp only [Json.plainNames, Bool.and_eq_true, and_assoc] at hp
    exact membersRead_members (partRead v h.1.2 (fun p => (hp p).imp_right (fun h => h.2.1)))
      (partRead ms h.2 (fun p => (hp p).imp_right (fun h => h.2.2))) h.1.1
      (fun p => (hp p).imp_right And.left) w₁ w₂ w₃ w₄

end Vely
