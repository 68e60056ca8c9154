import Vely.Json.Names

/-!
# Different leaves have different names

The text of a step can be told from what follows it, since the quote that ends a name is the first
one that no backslash stands before.  So a normalized name determines its path.
-/

namespace Vely

/-! ### A name determines its path -/

/-- A name in a step is the text of a string. -/
def JsonStep.Spelled : JsonStep → Prop
  | .name n => ∃ cs : JsonString, cs.content = n
  | .index _ => True

/-- The text of a character, before its string goes on. -/
theorem content_cons_ne_quote (c : JsonChar) (cs : JsonString) {r r' : List UInt8} :
  JsonString.content (c :: cs) ++ r ≠ '"'.toUInt8 :: r'
  := by
  intro h
  rw [content_cons] at h
  cases c with
  | plain c ok =>
    obtain ⟨rfl, -⟩ := List.cons.inj h
    exact absurd ok (by decide)
  | escape c ok => exact absurd (List.cons.inj h).1 (by decide)
  | unicode a b c d ok => exact absurd (List.cons.inj h).1 (by decide)

/-- The text of a character is told from what follows it. -/
theorem render_append_inj {c c' : JsonChar} {r r' : List UInt8} (h : c.render ++ r = c'.render ++ r') :
  c.render = c'.render ∧ r = r'
  := by
  have hescape : ∀ {e}, isEscape e = true → e ≠ 'u'.toUInt8 := by
    rintro e he rfl
    exact absurd he (by decide)
  have hplain : ∀ {e}, isPlain e = true → e ≠ '\\'.toUInt8 := fun he => (ne_of_isPlain he).2.2
  cases c with
  | plain c ok =>
    cases c' with
    | plain c' ok' => simpa [JsonChar.render] using h
    | escape c' ok' => exact absurd (List.cons.inj h).1 (hplain ok)
    | unicode a b c' d ok' => exact absurd (List.cons.inj h).1 (hplain ok)
  | escape c ok =>
    cases c' with
    | plain c' ok' => exact absurd (List.cons.inj h).1.symm (hplain ok')
    | escape c' ok' => simpa [JsonChar.render] using h
    | unicode a b c' d ok' =>
      exact absurd (List.cons.inj (List.cons.inj h).2).1 (hescape ok)
  | unicode a b c d ok =>
    cases c' with
    | plain c' ok' => exact absurd (List.cons.inj h).1.symm (hplain ok')
    | escape c' ok' =>
      exact absurd (List.cons.inj (List.cons.inj h).2).1.symm (hescape ok')
    | unicode a' b' c' d' ok' => simpa [JsonChar.render, and_assoc] using h

/-- The text of a string is told from the quote that ends it. -/
theorem content_append_inj {cs cs' : JsonString} {r r' : List UInt8}
    (h : cs.content ++ '"'.toUInt8 :: r = cs'.content ++ '"'.toUInt8 :: r') :
  cs.content = cs'.content ∧ r = r'
  := by
  induction cs generalizing cs' with
  | nil =>
    cases cs' with
    | nil => exact ⟨rfl, (List.cons.inj h).2⟩
    | cons c' cs' => exact absurd h.symm (content_cons_ne_quote c' cs')
  | cons c cs ih =>
    cases cs' with
    | nil => exact absurd h (content_cons_ne_quote c cs)
    | cons c' cs' =>
      rw [content_cons, content_cons, List.append_assoc, List.append_assoc] at h
      obtain ⟨hc, hcs⟩ := render_append_inj h
      obtain ⟨hcontent, hr⟩ := ih hcs
      rw [content_cons, content_cons, hc, hcontent]
      exact ⟨rfl, hr⟩

/-- The digits of an index are told from the bracket that ends it. -/
theorem decimal_append_inj {i j : Nat} {r r' : List UInt8}
    (h : decimal i ++ ']'.toUInt8 :: r = decimal j ++ ']'.toUInt8 :: r') :
  i = j ∧ r = r'
  := by
  have htake : ∀ (k : Nat) (s : List UInt8),
      (decimal k ++ ']'.toUInt8 :: s).takeWhile isdigit = decimal k := by
    intro k s
    rw [List.takeWhile_append_of_pos (fun c hc => isdigit_of_mem_decimal hc),
      List.takeWhile_cons_of_neg (by decide), List.append_nil]
  have hdigits : decimal i = decimal j := by rw [← htake i r, h, htake]
  refine ⟨decimal_injective hdigits, ?_⟩
  rw [hdigits] at h
  exact (List.cons.inj (List.append_cancel_left h)).2

/-- The text of a step is told from what follows it. -/
theorem text_append_inj {first : Bool} {s s' : JsonStep} (hs : s.Spelled) (hs' : s'.Spelled)
    {r r' : List UInt8} (h : s.text first ++ r = s'.text first ++ r') :
  s = s' ∧ r = r'
  := by
  cases s with
  | name n =>
    obtain ⟨cs, rfl⟩ := hs
    cases s' with
    | name n' =>
      obtain ⟨cs', rfl⟩ := hs'
      simp only [JsonStep.text, List.append_assoc] at h
      obtain ⟨hcontent, hr⟩ := content_append_inj (List.cons.inj (List.append_cancel_left h)).2
      exact ⟨by rw [hcontent], hr⟩
    | index j => cases first <;> exact absurd (List.cons.inj h).1 (by decide)
  | index i =>
    cases s' with
    | name n' => cases first <;> exact absurd (List.cons.inj h).1 (by decide)
    | index j =>
      simp only [JsonStep.text, List.append_assoc] at h
      obtain ⟨hij, hr⟩ := decimal_append_inj (List.cons.inj h).2
      exact ⟨by rw [hij], hr⟩

theorem text_ne_nil (first : Bool) (s : JsonStep) :
  s.text first ≠ []
  := by
  cases s <;> simp [JsonStep.text]

/-- Steps are told from their texts. -/
theorem flatMap_text_inj {p q : List JsonStep} (hp : ∀ s ∈ p, s.Spelled) (hq : ∀ s ∈ q, s.Spelled)
    (h : p.flatMap (JsonStep.text false) = q.flatMap (JsonStep.text false)) :
  p = q
  := by
  induction p generalizing q with
  | nil =>
    cases q with
    | nil => rfl
    | cons s q => simp [text_ne_nil] at h
  | cons s p ih =>
    cases q with
    | nil => simp [text_ne_nil] at h
    | cons s' q =>
      obtain ⟨rfl, hrest⟩ := text_append_inj (hp s (by simp)) (hq s' (by simp)) h
      rw [ih (fun s hs => hp s (by simp [hs])) (fun s hs => hq s (by simp [hs])) hrest]

/-- A normalized name determines its path. -/
theorem normalName_inj {p q : List JsonStep} (hp : ∀ s ∈ p, s.Spelled) (hq : ∀ s ∈ q, s.Spelled)
    (h : normalName p = normalName q) :
  p = q
  := by
  cases p with
  | nil =>
    cases q with
    | nil => rfl
    | cons s q => simp [normalName, text_ne_nil] at h
  | cons s p =>
    cases q with
    | nil => simp [normalName, text_ne_nil] at h
    | cons s' q =>
      obtain ⟨rfl, hrest⟩ := text_append_inj (hp s (by simp)) (hq s' (by simp)) h
      rw [flatMap_text_inj (fun s hs => hp s (by simp [hs])) (fun s hs => hq s (by simp [hs])) hrest]

/-- A normalized name is a string of C. -/
theorem zero_notMem_normalName {p : List JsonStep} (hp : ∀ s ∈ p, s.Spelled) :
  0 ∉ normalName p
  := by
  have hslash : (0 : UInt8) ≠ '\\'.toUInt8 := by decide
  have hu : (0 : UInt8) ≠ 'u'.toUInt8 := by decide
  have hquote : (0 : UInt8) ≠ '"'.toUInt8 := by decide
  have hdot : (0 : UInt8) ≠ '.'.toUInt8 := by decide
  have hopen : (0 : UInt8) ≠ '['.toUInt8 := by decide
  have hclose : (0 : UInt8) ≠ ']'.toUInt8 := by decide
  have hchar : ∀ c : JsonChar, (0 : UInt8) ∉ c.render := by
    intro c
    cases c with
    | plain c ok => simpa [JsonChar.render, eq_comm] using (ne_of_isPlain ok).1
    | escape c ok => simp [JsonChar.render, hslash, (ne_zero_of_isEscape ok).symm]
    | unicode a b c d ok =>
      obtain ⟨ha, hb, hc, hd⟩ := ok
      simp [JsonChar.render, hslash, hu, (ne_of_isHexDigit ha).1.symm, (ne_of_isHexDigit hb).1.symm,
        (ne_of_isHexDigit hc).1.symm, (ne_of_isHexDigit hd).1.symm]
  have htext : ∀ first, ∀ s : JsonStep, s.Spelled → (0 : UInt8) ∉ s.text first := by
    intro first s hs
    cases s with
    | name n =>
      obtain ⟨cs, rfl⟩ := hs
      have hcontent : (0 : UInt8) ∉ cs.content := by
        simpa [JsonString.content] using fun c _ => hchar c
      cases first <;> simp [JsonStep.text, hcontent, hquote, hdot]
    | index i =>
      have hdecimal : (0 : UInt8) ∉ decimal i := by
        intro hz
        exact absurd (isdigit_of_mem_decimal hz) (by decide)
      simp [JsonStep.text, hdecimal, hopen, hclose]
  cases p with
  | nil => simp [normalName]
  | cons s p =>
    simp only [normalName, List.mem_append, List.mem_flatMap, not_or, not_exists, not_and]
    exact ⟨htext true s (hp s (by simp)), fun s hs => htext false s (hp s (by simp [hs]))⟩

/-! ### The paths of the leaves -/

namespace Json

/-- The names of the members of an object. -/
def memberNames : {k : JsonPart} → Json k → List (List UInt8)
  | _, .member _ name _ _ _ _ => [name.content]
  | _, .members _ name _ _ _ _ ms => name.content :: ms.memberNames
  | _, _ => []

/-- Whether in each object of a part the names are different. -/
def distinctNames : {k : JsonPart} → Json k → Bool
  | _, .scalar _ => true
  | _, .emptyArray _ => true
  | _, .array es => es.distinctNames
  | _, .emptyObject _ => true
  | _, .object ms => decide ms.memberNames.Nodup && ms.distinctNames
  | _, .element _ v _ => v.distinctNames
  | _, .elements _ v _ es => v.distinctNames && es.distinctNames
  | _, .member _ _ _ _ v _ => v.distinctNames
  | _, .members _ _ _ _ v _ ms => v.distinctNames && ms.distinctNames

/-- The steps to leaves are spelled. -/
theorem spelled_of_mem_pathLeaves :
    ∀ {k : JsonPart} (p : Json k) (i : Nat), ∀ q ∈ p.pathLeaves i, ∀ s ∈ q.1, s.Spelled
  | _, .scalar _, _, _, hq, _, hs => by
    obtain rfl := List.mem_singleton.mp hq
    cases hs
  | _, .array es, _, q, hq, s, hs => spelled_of_mem_pathLeaves es 0 q hq s hs
  | _, .object ms, _, q, hq, s, hs => spelled_of_mem_pathLeaves ms 0 q hq s hs
  | _, .element _ v _, _, q, hq, s, hs => by
    obtain ⟨q, hv, rfl⟩ := List.mem_map.mp hq
    rcases List.mem_cons.mp hs with rfl | hs
    · trivial
    · exact spelled_of_mem_pathLeaves v 0 q hv s hs
  | _, .elements _ v _ es, i, q, hq, s, hs => by
    rcases List.mem_append.mp hq with hq | hq
    · obtain ⟨q, hv, rfl⟩ := List.mem_map.mp hq
      rcases List.mem_cons.mp hs with rfl | hs
      · trivial
      · exact spelled_of_mem_pathLeaves v 0 q hv s hs
    · exact spelled_of_mem_pathLeaves es (i + 1) q hq s hs
  | _, .member _ name _ _ v _, _, q, hq, s, hs => by
    obtain ⟨q, hv, rfl⟩ := List.mem_map.mp hq
    rcases List.mem_cons.mp hs with rfl | hs
    · exact ⟨name, rfl⟩
    · exact spelled_of_mem_pathLeaves v 0 q hv s hs
  | _, .members _ name _ _ v _ ms, _, q, hq, s, hs => by
    rcases List.mem_append.mp hq with hq | hq
    · obtain ⟨q, hv, rfl⟩ := List.mem_map.mp hq
      rcases List.mem_cons.mp hs with rfl | hs
      · exact ⟨name, rfl⟩
      · exact spelled_of_mem_pathLeaves v 0 q hv s hs
    · exact spelled_of_mem_pathLeaves ms 0 q hq s hs

/-- A path to a leaf of elements starts with a position from the first one on. -/
theorem exists_index : ∀ (es : Json .elements) (i : Nat), ∀ q ∈ es.pathLeaves i,
  ∃ j t, i ≤ j ∧ q.1 = .index j :: t
  | .element _ _ _, i, q, hq => by
    obtain ⟨q, -, rfl⟩ := List.mem_map.mp hq
    exact ⟨i, q.1, le_rfl, rfl⟩
  | .elements _ _ _ es, i, q, hq => by
    rcases List.mem_append.mp hq with hq | hq
    · obtain ⟨q, -, rfl⟩ := List.mem_map.mp hq
      exact ⟨i, q.1, le_rfl, rfl⟩
    · obtain ⟨j, t, hj, hq⟩ := exists_index es (i + 1) q hq
      exact ⟨j, t, by omega, hq⟩

/-- A path to a leaf of members starts with the name of one. -/
theorem exists_name : ∀ (ms : Json .members), ∀ q ∈ ms.pathLeaves 0,
  ∃ n ∈ ms.memberNames, ∃ t, q.1 = .name n :: t
  | .member _ name _ _ _ _, q, hq => by
    obtain ⟨q, -, rfl⟩ := List.mem_map.mp hq
    exact ⟨name.content, by simp [memberNames], q.1, rfl⟩
  | .members _ name _ _ _ _ ms, q, hq => by
    rcases List.mem_append.mp hq with hq | hq
    · obtain ⟨q, -, rfl⟩ := List.mem_map.mp hq
      exact ⟨name.content, by simp [memberNames], q.1, rfl⟩
    · obtain ⟨n, hn, t, hq⟩ := exists_name ms q hq
      exact ⟨n, by simp [memberNames, hn], t, hq⟩

end Json

/-- No two paths are the same. -/
def DistinctPaths (L : List (List JsonStep × JsonScalar)) : Prop := (L.map Prod.fst).Nodup

/-- Paths stay distinct behind a step. -/
theorem DistinctPaths.underStep {L : List (List JsonStep × JsonScalar)} (h : DistinctPaths L)
    (s : JsonStep) :
  DistinctPaths (L.map (underStep s))
  := by
  rw [DistinctPaths, List.map_map]
  have hmap : L.map (Prod.fst ∘ Vely.underStep s) = (L.map Prod.fst).map (s :: ·) := by
    rw [List.map_map]
    rfl
  rw [hmap]
  exact h.map (fun _ _ heq => (List.cons.inj heq).2)

/-- Paths behind a step are distinct from others that do not start with it. -/
theorem DistinctPaths.append {L M : List (List JsonStep × JsonScalar)} {s : JsonStep}
    (hL : DistinctPaths L) (hM : DistinctPaths M) (h : ∀ q ∈ M, ∀ t, q.1 ≠ s :: t) :
  DistinctPaths (L.map (Vely.underStep s) ++ M)
  := by
  rw [DistinctPaths, List.map_append, List.nodup_append]
  refine ⟨hL.underStep s, hM, ?_⟩
  intro p hp q hq heq
  obtain ⟨p', hp', rfl⟩ := List.mem_map.mp hp
  obtain ⟨p'', -, rfl⟩ := List.mem_map.mp hp'
  obtain ⟨q', hq', rfl⟩ := List.mem_map.mp hq
  exact h q' hq' p''.1 heq.symm

/-- Different leaves of a part have different paths. -/
def PartDistinct : {k : JsonPart} → Json k → Prop
  | .value, v => v.distinctNames = true → DistinctPaths (v.pathLeaves 0)
  | .elements, es => ∀ i, es.distinctNames = true → DistinctPaths (es.pathLeaves i)
  | .members, ms =>
    ms.memberNames.Nodup → ms.distinctNames = true → DistinctPaths (ms.pathLeaves 0)

/-- Different leaves have different paths, when the names in each object are different. -/
theorem partDistinct :
    ∀ {k : JsonPart} (p : Json k), PartDistinct p
  | _, .scalar _ => fun _ => by simp [DistinctPaths, Json.pathLeaves]
  | _, .emptyArray _ => fun _ => by simp [DistinctPaths, Json.pathLeaves]
  | _, .emptyObject _ => fun _ => by simp [DistinctPaths, Json.pathLeaves]
  | _, .array es => fun h => by
    have hes : PartDistinct es := partDistinct es
    exact hes 0 h
  | _, .object ms => fun h => by
    rw [Json.distinctNames, Bool.and_eq_true, decide_eq_true_eq] at h
    have hms : PartDistinct ms := partDistinct ms
    exact hms h.1 h.2
  | _, .element _ v _ => fun i h => by
    have hv : PartDistinct v := partDistinct v
    exact (hv h).underStep (.index i)
  | _, .elements _ v _ es => fun i h => by
    rw [Json.distinctNames, Bool.and_eq_true] at h
    have hv : PartDistinct v := partDistinct v
    have hes : PartDistinct es := partDistinct es
    apply (hv h.1).append (hes (i + 1) h.2)
    intro q hq t heq
    obtain ⟨j, t', hj, hq⟩ := es.exists_index (i + 1) q hq
    rw [hq] at heq
    obtain ⟨hij, -⟩ := List.cons.inj heq
    have := JsonStep.index.inj hij
    omega
  | _, .member _ name _ _ v _ => fun _ h => by
    have hv : PartDistinct v := partDistinct v
    exact (hv h).underStep (.name name.content)
  | _, .members _ name _ _ v _ ms => fun hn h => by
    rw [Json.distinctNames, Bool.and_eq_true] at h
    rw [Json.memberNames, List.nodup_cons] at hn
    have hv : PartDistinct v := partDistinct v
    have hms : PartDistinct ms := partDistinct ms
    apply (hv h.1).append (hms hn.2 h.2)
    intro q hq t heq
    obtain ⟨n, hmem, t', hq⟩ := ms.exists_name q hq
    rw [hq] at heq
    obtain ⟨hname, -⟩ := List.cons.inj heq
    exact hn.1 (JsonStep.name.inj hname ▸ hmem)

/-! ### The names of the nodes -/

/-- The normalized names of nodes, as strings of C. -/
def nodeNames (nodes : List Jsonn) : List (List UInt8) :=
  nodes.map (fun n => n.name.takeWhile (· ≠ 0))

/-- Nodes with the names of distinct paths have distinct names. -/
theorem nodup_nodeNames {dec : Bool} {val : List UInt8} {nodes : List Jsonn}
    {L : List (List JsonStep × JsonScalar)} (h : List.Forall₂ (Names dec val) nodes L)
    (hL : DistinctPaths L) (hspelled : ∀ q ∈ L, ∀ s ∈ q.1, s.Spelled) :
  (nodeNames nodes).Nodup
  := by
  have hnames : nodeNames nodes = L.map (fun q => normalName q.1) := by
    induction h with
    | nil => rfl
    | @cons n q nodes L hn h ih =>
      have hz : ∀ c ∈ n.name, decide (c ≠ 0) = true := by
        intro c hc
        rw [hn.1] at hc
        simpa using fun h0 : c = 0 => zero_notMem_normalName (hspelled q (by simp)) (h0 ▸ hc)
      rw [nodeNames, List.map_cons, List.map_cons, List.takeWhile_eq_self_iff.mpr hz, hn.1, ← nodeNames,
        ih (List.nodup_cons.mp hL).2 (fun q hq => hspelled q (by simp [hq]))]
  rw [hnames, ← Function.comp_def, ← List.map_map]
  apply List.Nodup.map_on _ hL
  intro p hp q hq heq
  obtain ⟨p', hp', rfl⟩ := List.mem_map.mp hp
  obtain ⟨q', hq', rfl⟩ := List.mem_map.mp hq
  exact normalName_inj (hspelled p' hp') (hspelled q' hq') heq

end Vely
