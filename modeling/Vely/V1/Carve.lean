import Vely.V1.Clauses

/-!
# Clauses are carved

The text of a statement is the object and the segments of its clauses, each a keyword, the value and
the blank before the next clause.  Carving a clause changes its own segment only, so that all
clauses can be carved in any order; the text of each is then what is up to the next zero.
-/

namespace Vely

namespace V1

open Written (gap)

/-! ## One segment -/

section Segment

variable {l r t : List UInt8} {k : Key} {c : Clause}

/-- A keyword that is carved: its first and last bytes are zero. -/
def cutKey (k : Key) : List UInt8 := (k.bytes.set (k.bytes.length - 1) 0).set 0 0

/-- What is after a keyword, when that is carved. -/
def cutTail (k : Key) (t : List UInt8) : List UInt8 := if k.hasData = .no then t.set 0 0 else t

/-- The number of blanks that are skipped. -/
def skipped (k : Key) (t : List UInt8) : Nat :=
  if k.hasData = .sometimes then (t.takeWhile isspace).length else 0

theorem length_cutKey :
  (cutKey k).length = k.bytes.length
  := by
  rw [cutKey, List.length_set, List.length_set]

theorem length_cutTail :
  (cutTail k t).length = t.length
  := by
  unfold cutTail
  split
  · rw [List.length_set]
  · rfl

theorem cutKey_eq (k : Key) :
  ∃ x, cutKey k = 0 :: x
  := by
  unfold cutKey
  obtain ⟨b, bs, hb⟩ := List.exists_cons_of_ne_nil k.nonempty
  cases hset : k.bytes.set (k.bytes.length - 1) 0 with
  | nil =>
    have hlength := congrArg List.length hset
    rw [List.length_set, hb] at hlength
    cases hlength
  | cons d ds => exact ⟨ds, rfl⟩

theorem set_append (i : Nat) (d : UInt8) (h : i < t.length) :
  (l ++ (t ++ r)).set (l.length + i) d = l ++ (t.set i d ++ r)
  := by
  rw [List.set_append_right _ _ (Nat.le_add_right _ _), Nat.add_sub_cancel_left,
    List.set_append_left _ _ h]

theorem takeWhile_isspace (h : ∀ d ∈ r.head?, isspace d = false) :
  (t ++ r).takeWhile isspace = t.takeWhile isspace
  := by
  induction t with
  | nil =>
    cases r with
    | nil => rfl
    | cons d r =>
      rw [List.nil_append, List.takeWhile_cons, h d rfl]
      rfl
  | cons d t ih =>
    rw [List.cons_append, List.takeWhile_cons, List.takeWhile_cons, ih]

/-- A clause is carved in its segment. -/
theorem carveStatement_segment (hr : ∀ d ∈ r.head?, isspace d = false)
    (hend : k.hasData = .no → t = [] → ∃ r', r = 0 :: r') :
  carveStatement k.bytes k.isMandatory k.hasData (l ++ (k.bytes ++ (t ++ r))) (some l.length) =
    .ok (l ++ (cutKey k ++ (cutTail k t ++ r)), some (l.length + k.bytes.length + skipped k t))
  := by
  have hpos := List.length_pos_of_ne_nil k.nonempty
  have hfine : ¬ (k.hasData ≠ .no ∧ k.bytes.getLast? ≠ some 32 ∧ k.bytes.head?.any isalpha = true
      ∧ k.hasData ≠ .sometimes) := by
    rintro ⟨hno, hlast, halpha, hsometimes⟩
    apply hlast
    apply k.trailing _ halpha
    cases hd : k.hasData with
    | no => exact absurd hd hno
    | always => rfl
    | sometimes => exact absurd hd hsometimes
  have hlast : (l ++ (k.bytes ++ (t ++ r))).set (l.length + k.bytes.length - 1) 0 =
      l ++ (k.bytes.set (k.bytes.length - 1) 0 ++ (t ++ r)) := by
    rw [Nat.add_sub_assoc hpos]
    apply set_append
    omega
  have hfirst : (l ++ (k.bytes.set (k.bytes.length - 1) 0 ++ (t ++ r))).set l.length 0 =
      l ++ (cutKey k ++ (t ++ r)) := by
    have h := set_append (l := l) (t := k.bytes.set (k.bytes.length - 1) 0) (r := t ++ r) 0 0
      (by rwa [List.length_set])
    rwa [Nat.add_zero] at h
  have hskip : (if k.hasData = .sometimes then
        l.length + k.bytes.length + (((l ++ (k.bytes.set (k.bytes.length - 1) 0 ++ (t ++ r))).drop
          (l.length + k.bytes.length)).takeWhile isspace).length
      else l.length + k.bytes.length) = l.length + k.bytes.length + skipped k t := by
    have hdrop : (l ++ (k.bytes.set (k.bytes.length - 1) 0 ++ (t ++ r))).drop
        (l.length + k.bytes.length) = t ++ r := by
      rw [List.drop_length_add_append]
      have h := @List.drop_left _ (k.bytes.set (k.bytes.length - 1) 0) (t ++ r)
      rwa [List.length_set] at h
    rw [hdrop, takeWhile_isspace hr]
    unfold skipped
    split
    · rfl
    · rfl
  unfold carveStatement
  simp only
  rw [if_neg hfine, hlast, hskip, hfirst]
  unfold cutTail
  split
  · next hno =>
    have hzero : skipped k t = 0 := by
      unfold skipped
      rw [if_neg]
      rw [hno]
      decide
    have hshape : ∀ u, l ++ (cutKey k ++ u) = (l ++ cutKey k) ++ u := fun u =>
      (List.append_assoc _ _ _).symm
    have hlen : l.length + k.bytes.length = (l ++ cutKey k).length := by
      rw [List.length_append, length_cutKey]
    rw [hzero, Nat.add_zero, hlen, hshape, hshape]
    congr 3
    cases t with
    | nil =>
      obtain ⟨r', rfl⟩ := hend hno rfl
      rw [List.set_append_right _ _ le_rfl, Nat.sub_self]
      rfl
    | cons d t =>
      rw [List.set_append_right _ _ le_rfl, Nat.sub_self]
      rfl
  · rfl

end Segment

/-! ## All segments -/

section Layout

variable {done : List (List UInt8)} {c : Clause} {cs pre post : List Clause} {k : Key}

/-- What is after the keyword of a clause. -/
def after (c : Clause) (follows : Bool) : List UInt8 := c.value ++ gap follows

/-- The segment of a clause, carved if its keyword is one of `done`. -/
def segment (done : List (List UInt8)) (follows : Bool) (c : Clause) : List UInt8 :=
  if c.key.bytes ∈ done then cutKey c.key ++ cutTail c.key (after c follows)
  else c.key.bytes ++ after c follows

/-- The segments of the clauses. -/
def layout (done : List (List UInt8)) : List Clause → List UInt8
  | [] => []
  | c :: cs => segment done (cs ≠ []) c ++ layout done cs

theorem chunks_layout :
  chunks cs = gap (cs ≠ []) ++ layout [] cs
  := by
  induction cs with
  | nil => rfl
  | cons c cs ih =>
    rw [chunks_cons, ih]
    simp [layout, segment, after, gap, Clause.chunk]

theorem layout_append :
  layout done (pre ++ c :: post) =
    pre.flatMap (segment done true) ++ (segment done (post ≠ []) c ++ layout done post)
  := by
  induction pre with
  | nil => rfl
  | cons b pre ih =>
    rw [List.cons_append, layout, ih, List.flatMap_cons, List.append_assoc]
    simp

theorem length_segment :
  (segment done true c).length = c.chunk.length
  := by
  unfold segment
  split
  · rw [List.length_append, length_cutKey, length_cutTail]
    simp only [after, gap, Clause.chunk, List.length_append, List.length_cons, if_true, List.length_nil]
    omega
  · simp only [after, gap, Clause.chunk, List.length_append, List.length_cons, if_true, List.length_nil]
    omega

theorem length_segments :
  (pre.flatMap (segment done true)).length = (chunks pre).length
  := by
  induction pre with
  | nil => rfl
  | cons b pre ih => rw [List.flatMap_cons, List.length_append, ih, length_segment, chunks_cons,
      List.length_append]

/-- Another keyword does not change a segment. -/
theorem segment_done {b : List UInt8} (h : c.key.bytes ≠ b) (follows : Bool) :
  segment (b :: done) follows c = segment done follows c
  := by
  unfold segment
  simp [h]

theorem layout_done {b : List UInt8} (h : ∀ c ∈ cs, c.key.bytes ≠ b) :
  layout (b :: done) cs = layout done cs
  := by
  induction cs with
  | nil => rfl
  | cons c cs ih =>
    rw [layout, layout, segment_done (h c List.mem_cons_self), ih]
    intro d hd
    exact h d (List.mem_cons_of_mem _ hd)

theorem segments_done {b : List UInt8} (h : ∀ c ∈ cs, c.key.bytes ≠ b) :
  cs.flatMap (segment (b :: done) true) = cs.flatMap (segment done true)
  := by
  induction cs with
  | nil => rfl
  | cons c cs ih =>
    rw [List.flatMap_cons, List.flatMap_cons, segment_done (h c List.mem_cons_self), ih]
    intro d hd
    exact h d (List.mem_cons_of_mem _ hd)

/-- What follows a segment does not start with a blank. -/
theorem layout_head :
  ∀ d ∈ (layout done cs ++ [0]).head?, isspace d = false
  := by
  intro d hd
  cases cs with
  | nil =>
    cases hd
    decide
  | cons c cs =>
    rw [layout, segment] at hd
    split at hd
    · obtain ⟨x, hx⟩ := cutKey_eq c.key
      rw [hx] at hd
      cases hd
      decide
    · obtain ⟨b, bs, hb⟩ := List.exists_cons_of_ne_nil c.key.nonempty
      rw [hb] at hd
      cases hd
      apply c.key.starts
      rw [hb]
      rfl

/-- When the next clause is carved, there is a zero before it. -/
theorem layout_zero (h : ∀ c ∈ cs, c.key.bytes ∈ done) :
  ∃ x, layout done cs ++ [0] = 0 :: x
  := by
  cases cs with
  | nil => exact ⟨[], rfl⟩
  | cons c cs =>
    obtain ⟨x, hx⟩ := cutKey_eq c.key
    rw [layout, segment, if_pos (h c List.mem_cons_self), hx]
    exact ⟨_, rfl⟩

/-- The place of a clause. -/
theorem place_eq (hpre : ∀ c ∈ pre, c.key.bytes ≠ k.bytes) (hc : c.key.bytes = k.bytes) :
  place k (pre ++ c :: post) = some ((chunks pre).length + 1)
  := by
  induction pre with
  | nil => rw [List.nil_append, place, if_pos hc]; rfl
  | cons b pre ih =>
    rw [List.cons_append, place, if_neg (hpre b List.mem_cons_self), ih, Option.map_some, chunks_cons,
      List.length_append, Nat.add_assoc]
    intro d hd
    exact hpre d (List.mem_cons_of_mem _ hd)

theorem place_none (h : ∀ c ∈ cs, c.key.bytes ≠ k.bytes) :
  place k cs = none
  := by
  induction cs with
  | nil => rfl
  | cons c cs ih =>
    rw [place, if_neg (h c List.mem_cons_self), ih]
    · rfl
    · intro d hd
      exact h d (List.mem_cons_of_mem _ hd)

end Layout

/-! ## The strings -/

section Strings

variable {t r : List UInt8} {c : Clause}

theorem stringAt_append {l : List UInt8} {i : Nat} (hi : i = l.length) (ht : 0 ∉ t) :
  stringAt (l ++ (t ++ 0 :: r)) i = t
  := by
  rw [stringAt, hi, List.drop_left, List.takeWhile_append_of_pos]
  · simp
  · intro d hd
    rw [decide_eq_true_iff]
    rintro rfl
    exact ht hd

theorem zero_not_mem_after (c : Clause) (follows : Bool) :
  0 ∉ after c follows
  := by
  rw [after, List.mem_append, not_or]
  use c.noZero
  unfold gap
  split
  · decide
  · decide

theorem dropWhile_after (v : List UInt8) (follows : Bool) :
  Own (v.dropWhile isspace) ((v ++ gap follows).dropWhile isspace)
  := by
  induction v with
  | nil =>
    left
    unfold gap
    split
    · rfl
    · rfl
  | cons d v ih =>
    rw [List.cons_append, List.dropWhile_cons, List.dropWhile_cons]
    split
    · exact ih
    · unfold gap
      split
      · right
        rfl
      · left
        rw [List.append_nil]

/-- The string after a keyword that is carved is the text of its clause. -/
theorem own_after (c : Clause) (follows : Bool) {l : List UInt8} {i : Nat} (hi : i = l.length) :
  Own c.own (stringAt (l ++ (cutTail c.key (after c follows) ++ 0 :: r)) (i + skipped c.key (after c follows)))
  := by
  have hzero := zero_not_mem_after c follows
  unfold cutTail skipped Clause.own
  cases hd : c.key.hasData with
  | no =>
    have hv := c.noData hd
    left
    rw [if_pos rfl, if_neg (by decide), if_neg (by decide), Nat.add_zero, hv, after, hv]
    cases follows with
    | true => exact stringAt_append (t := []) hi (by decide)
    | false => exact stringAt_append (t := []) hi (by decide)
  | always =>
    rw [if_neg (by decide), if_neg (by decide), if_neg (by decide), Nat.add_zero, stringAt_append hi hzero]
    unfold after gap
    cases follows with
    | true => exact Or.inr rfl
    | false => exact Or.inl (List.append_nil _)
  | sometimes =>
    rw [if_pos rfl, if_neg (by decide), if_pos rfl]
    obtain ⟨x, hx⟩ : ∃ x, x = (after c follows).takeWhile isspace := ⟨_, rfl⟩
    have hsplit : after c follows = x ++ (after c follows).dropWhile isspace := by
      rw [hx, List.takeWhile_append_dropWhile]
    have hdrop : 0 ∉ (after c follows).dropWhile isspace := by
      intro h
      exact hzero ((List.dropWhile_suffix _).subset h)
    have hshape : l ++ (after c follows ++ 0 :: r) =
        (l ++ x) ++ ((after c follows).dropWhile isspace ++ 0 :: r) := by
      conv_lhs => rw [hsplit]
      simp
    rw [← hx, hshape, stringAt_append (by rw [hi, List.length_append]) hdrop]
    exact dropWhile_after c.value follows

end Strings

/-! ## All clauses -/

section All

variable {s : Written} {cs : List Clause} {done : List (List UInt8)} {k : Key}

/-- The memory of the text, with the clauses of the keywords `done` carved. -/
def memory (s : Written) (cs : List Clause) (done : List (List UInt8)) : List UInt8 :=
  (s.head ++ gap (cs ≠ [])) ++ (layout done cs ++ [0])

theorem memory_nil :
  memory s cs [] = s.text cs ++ [0]
  := by
  simp [memory, Written.text, chunks_layout]

/-- The place after the keyword `k`. -/
def Pointed (s : Written) (cs : List Clause) (k : Key) (q : Option Nat) : Prop :=
  match clauseOf k cs with
  | some c => ∃ pre post, cs = pre ++ c :: post
      ∧ q = some (s.head.length + (chunks pre).length + 1 + c.key.bytes.length
        + skipped c.key (after c (post ≠ [])))
  | none => q = none

/-- What is before a clause. -/
theorem length_before {c : Clause} {pre post : List Clause} :
  ((s.head ++ gap (pre ++ c :: post ≠ [])) ++ pre.flatMap (segment done true)).length =
    s.head.length + (chunks pre).length + 1
  := by
  simp only [List.length_append, length_segments, gap]
  simp
  omega

theorem clauseOf_some {c : Clause} (h : clauseOf k cs = some c) :
  c.key.bytes = k.bytes ∧ ∃ pre post, cs = pre ++ c :: post ∧ ∀ d ∈ pre, d.key.bytes ≠ k.bytes
  := by
  rw [clauseOf, List.find?_eq_some_iff_append] at h
  obtain ⟨hc, pre, post, hcs, hpre⟩ := h
  use of_decide_eq_true hc, pre, post, hcs
  intro d hd
  have hne := hpre d hd
  simpa using hne

theorem clauseOf_none (h : clauseOf k cs = none) :
  ∀ c ∈ cs, c.key.bytes ≠ k.bytes
  := by
  intro c hc
  have hne := List.find?_eq_none.mp h c hc
  simpa using hne

/-- One clause is carved. -/
theorem carve_one (hperm : cs.Perm s.clauses) (hk : k ∈ s.keys) (hnew : k.bytes ∉ done) :
  ∃ q, carveStatement k.bytes k.isMandatory k.hasData (memory s cs done)
      ((place k cs).map (s.head.length + ·)) = .ok (memory s cs (k.bytes :: done), q)
    ∧ Pointed s cs k q
  := by
  unfold Pointed
  cases hclause : clauseOf k cs with
  | none =>
    have hno := clauseOf_none hclause
    have hoptional : ¬ k.isMandatory = true := by
      intro hmandatory
      obtain ⟨c, hc, rfl⟩ := s.mandatory k hk hmandatory
      exact hno c (hperm.mem_iff.mpr hc) rfl
    use none
    rw [place_none hno, Option.map_none, carveStatement, if_neg hoptional, memory, memory, layout_done hno]
    exact ⟨rfl, rfl⟩
  | some c =>
    obtain ⟨heq, pre, post, rfl, hpre⟩ := clauseOf_some hclause
    have hc : c ∈ s.clauses := hperm.mem_iff.mp (by simp)
    obtain rfl := s.key_eq hc hk heq
    have hnodup := (hperm.map fun c => c.key.bytes).nodup_iff.mpr s.once
    have hpost : ∀ d ∈ post, d.key.bytes ≠ c.key.bytes := by
      intro d hd hsame
      rw [List.map_append, List.map_cons, List.nodup_append] at hnodup
      apply (List.nodup_cons.mp hnodup.2.1).1
      rw [← hsame]
      exact List.mem_map_of_mem hd
    obtain ⟨l, hl⟩ : ∃ l, l = (s.head ++ gap (pre ++ c :: post ≠ [])) ++ pre.flatMap (segment done true) :=
      ⟨_, rfl⟩
    have hlength : s.head.length + ((chunks pre).length + 1) = l.length := by
      rw [hl, length_before, Nat.add_assoc]
    have hmem : memory s (pre ++ c :: post) done =
        l ++ (c.key.bytes ++ (after c (post ≠ []) ++ (layout done post ++ [0]))) := by
      rw [memory, layout_append, segment, if_neg hnew, hl]
      simp only [List.append_assoc]
    have hmem' : memory s (pre ++ c :: post) (c.key.bytes :: done) =
        l ++ (cutKey c.key ++ (cutTail c.key (after c (post ≠ [])) ++ (layout done post ++ [0]))) := by
      rw [memory, layout_append, segments_done hpre, layout_done hpost, segment,
        if_pos List.mem_cons_self, hl]
      simp only [List.append_assoc]
    have hcarve := carveStatement_segment (k := c.key) (l := l) (t := after c (post ≠ [])) (r := layout done post ++ [0])
      layout_head ?_
    · use some (l.length + c.key.bytes.length + skipped c.key (after c (post ≠ [])))
      rw [place_eq hpre rfl, Option.map_some, hlength, hmem, hmem']
      use hcarve, pre, post, rfl
      rw [← hlength, Nat.add_assoc s.head.length (chunks pre).length]
    · intro _ hempty
      cases post with
      | nil => exact ⟨[], rfl⟩
      | cons d ds => simp [after, gap] at hempty

/-- The first clause is carved, and then the others in the memory it leaves. -/
theorem carveAll_cons {kw : Keyword} {f q : Option Nat} {kws : List (Keyword × Option Nat)}
    {mem mem' mem'' : List UInt8} {qs : List (Option Nat)}
    (h : carveStatement kw.bytes kw.isMandatory kw.hasData mem f = .ok (mem', q))
    (hall : carveAll mem' kws = .ok (mem'', qs)) :
  carveAll mem ((kw, f) :: kws) = .ok (mem'', q :: qs)
  := by
  rw [carveAll, h]
  change (carveAll mem' kws >>= _) = _
  rw [hall]
  rfl

/-- The clauses are carved one after the other. -/
theorem carve_all (hperm : cs.Perm s.clauses) {ks : List Key} (hks : ∀ k ∈ ks, k ∈ s.keys)
    (hnodup : (ks.map fun k => k.bytes).Nodup) (hnew : ∀ k ∈ ks, k.bytes ∉ done) :
  ∃ done' qs, carveAll (memory s cs done)
      ((ks.map Key.toKeyword).zip (ks.map fun k => (place k cs).map (s.head.length + ·))) =
        .ok (memory s cs done', qs)
    ∧ (∀ b ∈ done, b ∈ done') ∧ (∀ k ∈ ks, k.bytes ∈ done') ∧ List.Forall₂ (Pointed s cs) ks qs
  := by
  induction ks generalizing done with
  | nil => exact ⟨done, [], rfl, fun b hb => hb, by simp, List.Forall₂.nil⟩
  | cons k ks ih =>
    rw [List.map_cons, List.nodup_cons] at hnodup
    obtain ⟨q, hq, hpointed⟩ := carve_one hperm (hks k List.mem_cons_self) (hnew k List.mem_cons_self)
    have hrest : ∀ j ∈ ks, j.bytes ∉ k.bytes :: done := by
      intro j hj
      rw [List.mem_cons, not_or]
      constructor
      · intro heq
        apply hnodup.1
        rw [← heq]
        exact List.mem_map_of_mem (f := fun k : Key => k.bytes) hj
      · exact hnew j (List.mem_cons_of_mem _ hj)
    obtain ⟨done', qs, hall, hdone, hkeys, hqs⟩ :=
      ih (fun j hj => hks j (List.mem_cons_of_mem _ hj)) hnodup.2 hrest
    use done', q :: qs
    constructor
    · rw [List.map_cons, List.map_cons, List.zip_cons_cons]
      exact carveAll_cons hq hall
    · use fun b hb => hdone b (List.mem_cons_of_mem _ hb)
      use ?_, List.Forall₂.cons hpointed hqs
      intro j hj
      obtain rfl | hj := List.mem_cons.mp hj
      · exact hdone _ List.mem_cons_self
      · exact hkeys j hj

/-- When all clauses are carved, each string is the text of its clause. -/
theorem carved_of_pointed (hdone : ∀ c ∈ cs, c.key.bytes ∈ done) {q : Option Nat}
    (h : Pointed s cs k q) :
  Carved cs (memory s cs done) k q
  := by
  unfold Pointed at h
  unfold Carved
  cases hclause : clauseOf k cs with
  | none =>
    rw [hclause] at h
    exact h
  | some c =>
    rw [hclause] at h
    obtain ⟨pre, post, rfl, rfl⟩ := h
    have hdonePost : ∀ d ∈ post, d.key.bytes ∈ done := fun d hd => hdone d (by simp [hd])
    obtain ⟨x, hx⟩ := layout_zero hdonePost
    obtain ⟨l, hl⟩ : ∃ l, l = (s.head ++ gap (pre ++ c :: post ≠ [])) ++ pre.flatMap (segment done true) :=
      ⟨_, rfl⟩
    have hlength : s.head.length + (chunks pre).length + 1 = l.length := by
      rw [hl, length_before]
    have hmem : memory s (pre ++ c :: post) done =
        (l ++ cutKey c.key) ++ (cutTail c.key (after c (post ≠ [])) ++ 0 :: x) := by
      rw [memory, layout_append, segment, if_pos (hdone c (by simp)), hl, ← hx]
      simp only [List.append_assoc]
    refine ⟨_, rfl, ?_⟩
    rw [hmem]
    apply own_after
    rw [List.length_append, length_cutKey, hlength]

/-- The clauses of a statement are carved, in each order. -/
theorem carved_all (hperm : cs.Perm s.clauses) :
  ∃ mem qs, carveAll (s.text cs ++ [0]) (s.keywords.zip (s.places cs)) = .ok (mem, qs)
    ∧ Own s.head (stringAt mem 0) ∧ List.Forall₂ (Carved cs mem) s.keys qs
  := by
  obtain ⟨done, qs, hall, -, hkeys, hqs⟩ :=
    @carve_all s cs [] hperm s.keys (fun k hk => hk) s.distinct (fun k _ => List.not_mem_nil)
  have hdone : ∀ c ∈ cs, c.key.bytes ∈ done := by
    intro c hc
    exact hkeys c.key (s.known c (hperm.mem_iff.mp hc))
  use memory s cs done, qs
  rw [memory_nil] at hall
  use hall
  constructor
  · obtain ⟨x, hx⟩ := layout_zero hdone
    have hstring : stringAt (memory s cs done) 0 = s.head ++ gap (cs ≠ []) := by
      have hzero : 0 ∉ s.head ++ gap (cs ≠ []) := by
        have hobj := s.objNoZero
        unfold gap
        split
        · simpa [Written.head] using hobj
        · simpa [Written.head] using hobj
      rw [memory, hx]
      exact stringAt_append (l := []) rfl hzero
    rw [hstring]
    unfold gap
    split
    · exact Or.inr rfl
    · exact Or.inl (List.append_nil _)
  · exact hqs.imp fun _ _ h => carved_of_pointed hdone h

end All

end V1

end Vely
