import Vely.Input.PathAgree

/-!
# The names in a path

The names of the parameters in a path are the segments behind the request, as they are written but
for their hyphens.
-/

namespace Vely

/-- The names among the segments behind the name of the request. -/
def segmentNames : List (List UInt8) → List (List UInt8)
  | [] => []
  | [s] => [(s.takeWhile (· ≠ '='.toUInt8)).map hyphenToUnderscore]
  | s :: t :: ss =>
    (s.takeWhile (· ≠ '='.toUInt8)).map hyphenToUnderscore
      :: if '='.toUInt8 ∈ s then segmentNames (t :: ss) else segmentNames ss

/-- The segments behind the request in a path, without the path of the application.  Behind a
hierarchical path without a slash at its end there is an empty one. -/
def paramSegments : List UInt8 → List (List UInt8)
  | [] => []
  | [_] => []
  | s :: c :: r =>
    if s ≠ '/'.toUInt8 ∨ c = '?'.toUInt8 then []
    else if c = '_'.toUInt8 then
      match find id (ascii "_/") (RequestPath.inner r) with
      | some k => ((RequestPath.inner r).drop (k + 2)).splitOn '/'.toUInt8
      | none => [[]]
    else ((c :: r).splitOn '/'.toUInt8).tail

section Names

variable {buf x r : List UInt8} {p bound : Nat} {c : UInt8} {ps : List InputParam}

theorem takeWhile_ne_self {x : List UInt8} {d : UInt8} (h : d ∉ x) :
  x.takeWhile (fun c => decide (c ≠ d)) = x
  := by
  rw [List.takeWhile_eq_self_iff]
  intro c hc
  simp only [ne_eq, decide_eq_true_eq]
  rintro rfl
  exact h hc

/-- The name of a parameter is the segment that it starts with, up to a sign `=`. -/
theorem pathParam_name (h : buf.drop p = x ++ c :: r) (hz : 0 ∉ x) (hs : '/'.toUInt8 ∉ x)
    (hc : c = 0 ∨ c = '/'.toUInt8) :
  (pathParam buf p).1.name = toCString ((x.takeWhile (· ≠ '='.toUInt8)).map hyphenToUnderscore)
  := by
  rw [pathParam, pathSegment_of_drop h hz hs hc]
  by_cases he : '='.toUInt8 ∈ x
  · rw [if_pos he]
  · rw [if_neg he, takeWhile_ne_self he]
    cases nextSlash buf p <;> rfl

/-- The parameter behind a segment with a sign `=` starts at the slash behind the segment. -/
theorem pathParam_next_equal (h : buf.drop p = x ++ c :: r) (hz : 0 ∉ x) (hs : '/'.toUInt8 ∉ x)
    (hc : c = 0 ∨ c = '/'.toUInt8) (he : '='.toUInt8 ∈ x) :
  (pathParam buf p).2 = slashAt buf (p + x.length)
  := by
  rw [pathParam, pathSegment_of_drop h hz hs hc, if_pos he, nextSlash_of_drop h hz hs hc]

/-- The last segment is the name of a parameter, and none is behind it. -/
theorem pathParam_next_last (h : buf.drop p = x ++ 0 :: r) (hz : 0 ∉ x) (hs : '/'.toUInt8 ∉ x) :
  (pathParam buf p).2 = none
  := by
  have hnext : nextSlash buf p = none := by
    rw [nextSlash_of_drop h hz hs (.inl rfl), slashAt_of_zero (drop_of_drop h rfl)]
  rw [pathParam, pathSegment_of_drop h hz hs (.inl rfl), hnext]
  split <;> rfl

/-- The parameter behind a name and its value starts at the slash behind the value. -/
theorem pathParam_next_slash {y : List UInt8} (h : buf.drop p = x ++ '/'.toUInt8 :: (y ++ c :: r))
    (hz : 0 ∉ x) (hs : '/'.toUInt8 ∉ x) (he : '='.toUInt8 ∉ x) (hzy : 0 ∉ y)
    (hsy : '/'.toUInt8 ∉ y) (hc : c = 0 ∨ c = '/'.toUInt8) :
  (pathParam buf p).2 = slashAt buf (p + x.length + 1 + y.length)
  := by
  have hslash : nextSlash buf p = some (p + x.length) := by
    rw [nextSlash_of_drop h hz hs (.inr rfl), slashAt_of_slash (drop_of_drop h rfl)]
  have hdrop : buf.drop (p + x.length + 1) = y ++ c :: r := by
    apply drop_of_drop (l := x ++ ['/'.toUInt8]) (p := p)
    · rw [h]
      simp
    · simp [Nat.add_assoc]
  rw [pathParam, pathSegment_of_drop h hz hs (.inr rfl), if_neg he, hslash]
  simp only
  rw [nextSlash_of_drop hdrop hzy hsy hc]

/-- The names that are read of a path. -/
theorem pathLoop_names (h : buf.drop p = c :: (x ++ 0 :: r)) (hz : 0 ∉ x)
    (hloop : pathLoop buf bound (some p) = .ok ps) :
  ps.map InputParam.name = (segmentNames (x.splitOn '/'.toUInt8)).map toCString
  := by
  induction bound using Nat.strong_induction_on generalizing x p c ps with
  | h bound ih =>
    obtain ⟨b, qs, rfl, hqs, rfl⟩ := pathLoop_some hloop
    have hdrop : buf.drop (p + 1) = x ++ 0 :: r := drop_of_drop (l := [c]) h rfl
    by_cases hslash : '/'.toUInt8 ∈ x
    · obtain ⟨s, y, rfl, hs⟩ := List.eq_append_cons_of_mem hslash
      simp only [List.mem_append, List.mem_cons, not_or] at hz
      obtain ⟨hzs, -, hzy⟩ := hz
      have hdrop' : buf.drop (p + 1) = s ++ '/'.toUInt8 :: (y ++ 0 :: r) := by
        rw [hdrop, List.append_assoc]
        rfl
      have hrest : buf.drop (p + 1 + s.length) = '/'.toUInt8 :: (y ++ 0 :: r) :=
        drop_of_drop hdrop' rfl
      rw [List.splitOn_append_cons_self_of_not_mem hs, List.map_cons,
        pathParam_name hdrop' hzs hs (.inr rfl)]
      by_cases he : '='.toUInt8 ∈ s
      · rw [pathParam_next_equal hdrop' hzs hs (.inr rfl) he, slashAt_of_slash hrest] at hqs
        rw [ih b (by omega) hrest hzy hqs]
        cases hy : y.splitOn '/'.toUInt8 with
        | nil => exact absurd hy (List.splitOn_ne_nil _ _)
        | cons t ss => rw [segmentNames, if_pos he, List.map_cons]
      · by_cases hslash' : '/'.toUInt8 ∈ y
        · obtain ⟨t, z, rfl, ht⟩ := List.eq_append_cons_of_mem hslash'
          simp only [List.mem_append, List.mem_cons, not_or] at hzy
          obtain ⟨hzt, -, hzz⟩ := hzy
          have hdrop'' : buf.drop (p + 1)
              = s ++ '/'.toUInt8 :: (t ++ '/'.toUInt8 :: (z ++ 0 :: r)) := by
            rw [hdrop']
            simp
          have hrest' : buf.drop (p + 1 + s.length + 1 + t.length)
              = '/'.toUInt8 :: (z ++ 0 :: r) := by
            apply drop_of_drop (l := s ++ '/'.toUInt8 :: t) (p := p + 1)
            · rw [hdrop'']
              simp
            · simp only [List.length_append, List.length_cons]
              omega
          rw [pathParam_next_slash hdrop'' hzs hs he hzt ht (.inr rfl),
            slashAt_of_slash hrest'] at hqs
          rw [ih b (by omega) hrest' hzz hqs, List.splitOn_append_cons_self_of_not_mem ht,
            segmentNames, if_neg he, List.map_cons]
        · have hzero : slashAt buf (p + 1 + s.length + 1 + y.length) = none := by
            apply slashAt_of_zero (r := r)
            apply drop_of_drop (l := s ++ '/'.toUInt8 :: y) (p := p + 1)
            · rw [hdrop']
              simp
            · simp only [List.length_append, List.length_cons]
              omega
          rw [pathParam_next_slash hdrop' hzs hs he hzy hslash' (.inl rfl), hzero,
            pathLoop_none] at hqs
          obtain rfl := Except.ok.inj hqs
          rw [List.splitOn_eq_singleton hslash', segmentNames, if_neg he]
          rfl
    · rw [pathParam_next_last hdrop hz hslash, pathLoop_none] at hqs
      obtain rfl := Except.ok.inj hqs
      rw [List.splitOn_eq_singleton hslash, List.map_cons, pathParam_name hdrop hz hslash (.inl rfl)]
      rfl

end Names

/-! ### The request in a path -/

/-- Where a hierarchical path is closed. -/
theorem find_closing_some {v : List UInt8} {k : Nat} (h : find id (ascii "_/") v = some k) :
  v = v.take k ++ '_'.toUInt8 :: '/'.toUInt8 :: v.drop (k + 2)
    ∧ find id (ascii "_/") (v.take k) = none
  := by
  induction v generalizing k with
  | nil => cases h
  | cons c v ih =>
    rw [find_closing_cons] at h
    split at h
    · next hc =>
      obtain rfl := Option.some.inj h
      obtain ⟨rfl, hhead⟩ := hc
      obtain ⟨v, rfl⟩ := List.head?_eq_some_iff.mp hhead
      exact ⟨rfl, rfl⟩
    · next hc =>
      obtain ⟨k, hk, rfl⟩ := Option.map_eq_some_iff.mp h
      obtain ⟨hsplit, hnone⟩ := ih hk
      constructor
      · rw [List.take_succ_cons, List.cons_append, List.drop_succ_cons, ← hsplit]
      · rw [List.take_succ_cons, find_closing_cons, hnone, if_neg]
        · rfl
        · rintro ⟨rfl, hhead⟩
          refine hc ⟨rfl, ?_⟩
          rw [List.head?_take] at hhead
          split at hhead
          · cases hhead
          · exact hhead

/-- A hierarchical path that is closed by a slash, and what is behind it. -/
theorem exists_hierarchical {u : List UInt8} {k : Nat} (hz : 0 ∉ u)
    (h : find id (ascii "_/") (RequestPath.inner u) = some k) :
  ∃ path, (RequestPath.hierarchical path).Ok ∧ '/'.toUInt8 :: '_'.toUInt8 :: u
    = (RequestPath.hierarchical path).text ++ '/'.toUInt8 :: (RequestPath.inner u).drop (k + 2)
  := by
  obtain ⟨hsplit, hnone⟩ := find_closing_some h
  set y := (RequestPath.inner u).drop (k + 2)
  set w := (RequestPath.inner u).take k
  rw [RequestPath.inner] at hsplit
  split at hsplit
  · next hhead =>
    obtain ⟨u, rfl⟩ := List.head?_eq_some_iff.mp hhead
    rw [List.tail_cons] at hsplit
    refine ⟨'/'.toUInt8 :: w, ⟨?_, hnone⟩, by simp [RequestPath.text, hsplit]⟩
    intro hmem
    apply hz
    rw [hsplit]
    simp only [List.mem_cons, List.mem_append] at hmem ⊢
    tauto
  · next hhead =>
    refine ⟨w, ⟨?_, ?_⟩, by simp [RequestPath.text, hsplit]⟩
    · intro hmem
      apply hz
      rw [hsplit]
      simp [hmem]
    · rw [RequestPath.inner, if_neg, hnone]
      intro hw
      apply hhead
      obtain ⟨w', hw'⟩ := List.head?_eq_some_iff.mp hw
      rw [hsplit, hw']
      rfl

/-- The first segment of a path, and what is behind it. -/
theorem exists_segment (u : List UInt8) :
  ∃ n rest, u = n ++ rest ∧ '/'.toUInt8 ∉ n
    ∧ ((rest = [] ∧ (u.splitOn '/'.toUInt8).tail = [])
      ∨ ∃ y, rest = '/'.toUInt8 :: y ∧ (u.splitOn '/'.toUInt8).tail = y.splitOn '/'.toUInt8)
  := by
  by_cases hslash : '/'.toUInt8 ∈ u
  · obtain ⟨n, y, rfl, hn⟩ := List.eq_append_cons_of_mem hslash
    refine ⟨n, '/'.toUInt8 :: y, rfl, hn, .inr ⟨y, rfl, ?_⟩⟩
    rw [List.splitOn_append_cons_self_of_not_mem hn, List.tail_cons]
  · refine ⟨u, [], (List.append_nil u).symm, hslash, .inl ⟨rfl, ?_⟩⟩
    rw [List.splitOn_eq_singleton hslash, List.tail_cons]

section PathInput

variable {env : InputEnv} {fullPath name name' : List UInt8} {ps : List InputParam}

theorem zero_notMem_kept (env : InputEnv) :
  0 ∉ env.kept
  := by
  intro h
  have hpath : 0 ∈ env.path := List.mem_of_mem_take h
  rw [InputEnv.path, List.mem_append] at hpath
  rcases hpath with h | h
  · rw [removeSlash] at h
    split at h
    · exact env.scriptName.nonzero (List.dropLast_subset _ h)
    · exact env.scriptName.nonzero h
  · exact env.pathInfo.nonzero h

theorem eq_zero_of_tolower {c : UInt8} (h : tolower c = tolower 0) :
  c = 0
  := by
  have hzero : tolower 0 = 0 := rfl
  rw [hzero, tolower] at h
  split at h
  · next hletter =>
    simp only [Bool.and_eq_true, decide_eq_true_eq, UInt8.le_iff_toNat_le] at hletter
    have hnat := congrArg UInt8.toNat h
    rw [UInt8.toNat_add] at hnat
    simp at hletter hnat
    omega
  · exact h

/-- An accepted path starts with the path of the application. -/
theorem app_of_pathInput (h : pathInput env fullPath name = .ok (ps, name')) :
  strcasecmp (env.kept.take env.applicationPath.bytes.length) env.applicationPath.bytes = true
  := by
  have hdef : removeSlash env.scriptName.bytes ++ env.pathInfo.bytes = env.path := rfl
  simp only [pathInput, hdef] at h
  split at h
  · next happ =>
    rw [writePath_path] at happ
    by_cases hlen : env.applicationPath.bytes.length ≤ env.kept.length
    · rwa [List.take_append_of_le_length hlen] at happ
    · -- the terminator is not a byte of the path of the application
      exfalso
      rw [strcasecmp, decide_eq_true_eq] at happ
      have hzero : tolower 0 ∈ ((env.kept ++ 0 :: fullPath.drop (env.kept.length + 1)).take
          env.applicationPath.bytes.length).map tolower := by
        apply List.mem_map_of_mem
        rw [List.take_append, List.mem_append]
        obtain ⟨k, hk⟩ : ∃ k, env.applicationPath.bytes.length - env.kept.length = k + 1 :=
          ⟨env.applicationPath.bytes.length - env.kept.length - 1, by omega⟩
        rw [hk, List.take_succ_cons]
        exact .inr List.mem_cons_self
      rw [happ] at hzero
      obtain ⟨c, hc, hlower⟩ := List.mem_map.mp hzero
      rw [eq_zero_of_tolower hlower] at hc
      exact env.applicationPath.nonzero hc
  · cases h

/-- Without a request in the path, no parameter is read of it. -/
theorem pathInput_none {app t : List UInt8} (hpath : env.kept = app ++ t)
    (happ : strcasecmp app env.applicationPath.bytes = true)
    (hnone : ∀ d u, t = '/'.toUInt8 :: d :: u → d = '?'.toUInt8)
    (h : pathInput env fullPath name = .ok (ps, name')) :
  ps = []
  := by
  obtain ⟨htake, hdrop⟩ := @writePath_app _ fullPath _ _ hpath happ
  have hmissing : byteAt (writePath fullPath env.path) env.applicationPath.bytes.length
        ≠ '/'.toUInt8
      ∨ byteAt (writePath fullPath env.path) (env.applicationPath.bytes.length + 1) = 0
      ∨ byteAt (writePath fullPath env.path) (env.applicationPath.bytes.length + 1)
        = '?'.toUInt8 := by
    match t, hnone, hdrop with
    | [], hnone, hdrop =>
      have h0 : byteAt (writePath fullPath env.path) env.applicationPath.bytes.length = 0 :=
        byteAt_of_drop (l := []) hdrop rfl
      rw [h0]
      exact .inl (by decide)
    | [s], hnone, hdrop =>
      have h1 := byteAt_of_drop (l := [s]) hdrop rfl
      exact .inr (.inl h1)
    | s :: d :: u, hnone, hdrop =>
      have h0 : byteAt (writePath fullPath env.path) env.applicationPath.bytes.length = s :=
        byteAt_of_drop (l := []) hdrop rfl
      have h1 : byteAt (writePath fullPath env.path) (env.applicationPath.bytes.length + 1) = d :=
        byteAt_of_drop (l := [s]) hdrop rfl
      rw [h0, h1]
      by_cases hs : s = '/'.toUInt8
      · exact .inr (.inr (hnone d u (by rw [hs])))
      · exact .inl hs
  have hdef : removeSlash env.scriptName.bytes ++ env.pathInfo.bytes = env.path := rfl
  simp only [pathInput, hdef, htake, if_true] at h
  rw [if_pos hmissing] at h
  split at h
  · exact (Prod.mk.inj (Except.ok.inj h)).1.symm
  · cases h

theorem paramSegments_none {t : List UInt8}
    (hnone : ∀ d u, t = '/'.toUInt8 :: d :: u → d = '?'.toUInt8) :
  paramSegments t = []
  := by
  match t, hnone with
  | [], _ => rfl
  | [_], _ => rfl
  | s :: d :: u, hnone =>
    apply if_pos
    by_cases hs : s = '/'.toUInt8
    · exact .inr (hnone d u (by rw [hs]))
    · exact .inl hs

/-- The names of the parameters that are read of a path. -/
theorem pathInput_names (hmem : fullPath.length = maxPath)
    (h : pathInput env fullPath name = .ok (ps, name')) :
  ps.map InputParam.name = (segmentNames
    (paramSegments (env.kept.drop env.applicationPath.bytes.length))).map toCString
  := by
  have happ := app_of_pathInput h
  obtain ⟨t, ht⟩ : ∃ t, env.kept.drop env.applicationPath.bytes.length = t := ⟨_, rfl⟩
  have hpath : env.kept = env.kept.take env.applicationPath.bytes.length ++ t := by
    rw [← ht, List.take_append_drop]
  have hz : 0 ∉ t := by
    intro h0
    apply zero_notMem_kept env
    rw [hpath]
    exact List.mem_append_right _ h0
  rw [ht]
  -- what is read behind the request
  have hread : ∀ (rest : List UInt8) (segs : List (List UInt8)),
      0 ∉ rest →
      (rest = [] ∧ segs = [] ∨ ∃ y, rest = '/'.toUInt8 :: y ∧ segs = y.splitOn '/'.toUInt8) →
      (∃ (buf name'' : List UInt8) (p : Nat) (r : List UInt8), buf.drop p = rest ++ 0 :: r
        ∧ pathInput env fullPath name
          = (pathLoop buf (buf.length + 1) (slashAt buf p)).map (fun ps => (ps, name''))) →
      ps.map InputParam.name = (segmentNames segs).map toCString := by
    rintro rest segs hzr hrest ⟨buf, name'', p, r, hdrop, hinput⟩
    rw [hinput] at h
    cases hloop : pathLoop buf (buf.length + 1) (slashAt buf p) with
    | error e =>
      rw [hloop] at h
      cases h
    | ok qs =>
      rw [hloop] at h
      obtain rfl : qs = ps := (Prod.mk.inj (Except.ok.inj h)).1
      rcases hrest with ⟨rfl, rfl⟩ | ⟨y, rfl, rfl⟩
      · rw [slashAt_of_zero hdrop, pathLoop_none] at hloop
        obtain rfl := Except.ok.inj hloop
        rfl
      · rw [slashAt_of_slash hdrop] at hloop
        exact pathLoop_names hdrop (fun hy => hzr (List.mem_cons_of_mem _ hy)) hloop
  by_cases hnone : ∀ d u, t = '/'.toUInt8 :: d :: u → d = '?'.toUInt8
  · rw [pathInput_none hpath happ hnone h, paramSegments_none hnone]
    rfl
  · push Not at hnone
    obtain ⟨d, u, rfl, hquery⟩ := hnone
    have hzu : 0 ∉ u := fun hu => hz (by simp [hu])
    have hzero : d ≠ 0 := by
      rintro rfl
      exact hz (by simp)
    rw [paramSegments, if_neg (by simp [hquery])]
    by_cases hunder : d = '_'.toUInt8
    · rw [if_pos hunder]
      subst hunder
      cases hfind : find id (ascii "_/") (RequestPath.inner u) with
      | none =>
        obtain ⟨rfl, -⟩ := pathInput_unclosed hmem hpath happ hzu hfind h
        rfl
      | some k =>
        obtain ⟨path, hok, htext⟩ := exists_hierarchical hzu hfind
        rw [htext] at hpath hz
        apply hread _ _ (fun h0 => hz (List.mem_append_right _ h0)) (.inr ⟨_, rfl, rfl⟩)
        apply pathInput_request hok hpath happ (.inr ⟨_, rfl⟩) (.inr (by simp))
    · rw [if_neg hunder]
      obtain ⟨n, rest, hsplit, hn, hrest⟩ := exists_segment (d :: u)
      rw [hsplit] at hpath hz
      simp only [List.mem_cons, List.mem_append, not_or] at hz
      apply hread rest _ hz.2.2 hrest
      apply pathInput_plain hpath happ hz.2.1 hn hsplit.symm hzero hunder hquery
      rcases hrest with ⟨rfl, -⟩ | ⟨y, rfl, -⟩
      · exact .inl rfl
      · exact .inr ⟨y, rfl⟩

/-! ### Paths and queries -/

/-- The parameters of a path are those of a query if and only if the path is read as it was written
and no value is trimmed; and the names that are accepted from a path are valid if and only if those
among its segments are. -/
theorem path_parameters_iff (hmem : fullPath.length = maxPath) :
  (∀ (request : RequestPath) (pairs : List (PairStyle × InputParam)) (trailing : Bool)
      (query : CString) (tail : List (Option UInt8)),
    env.path.length < maxPath → env.method.bytes ≠ [] →
    strcasecmp env.method.bytes (ascii "OPTIONS") = false →
    env.contentType.bytes = [] → env.query.bytes = [] →
    (env.pathInfo.bytes = [] ∨ env.scriptName.bytes.getLast? ≠ some '/'.toUInt8) →
    env.scriptName.bytes ++ env.pathInfo.bytes
        = env.applicationPath.bytes ++ (request.text ++ pairsText pairs)
          ++ (if trailing then ['/'.toUInt8] else []) →
    request.Ok → (∀ q ∈ pairs, IsPair q.2) → IsQuery (pairs.map Prod.snd) query.bytes → tail ≠ [] →
    ((velyGetInput env fullPath).map (·.params) = parseParams (Block.ofText query.bytes tail)
      ↔ PathOk env request pairs trailing))
  ∧ ∀ r, velyGetInput env fullPath = .ok r →
    ∃ params files ps, bodyParams env = .ok (params, files) ∧ r.params = params ++ ps
      ∧ ((∀ p ∈ ps, velyIsValidParamName p.name false = true)
        ↔ ∀ n ∈ segmentNames (paramSegments (env.kept.drop env.applicationPath.bytes.length)),
          velyIsValidParamName (toCString n) false = true)
  := by
  constructor
  · intro request pairs trailing query tail hlen hmethod hoptions htype hquery hscript hpath hok hpairs
      hq htail
    exact path_agrees_iff hmem hlen hmethod hoptions htype hquery hscript hpath hok hpairs hq htail
  · intro r h
    rw [velyGetInput] at h
    cases hbody : bodyParams env with
    | error e =>
      rw [hbody] at h
      cases h
    | ok body =>
      obtain ⟨params, files⟩ := body
      rw [hbody, ok_bind] at h
      simp only at h
      cases hinput : pathInput env fullPath (queryRequestName params) with
      | error e =>
        rw [hinput] at h
        cases h
      | ok input =>
        obtain ⟨ps, name'⟩ := input
        rw [hinput, ok_bind] at h
        obtain rfl := Except.ok.inj h
        refine ⟨params, files, ps, rfl, rfl, ?_⟩
        have hnames := pathInput_names hmem hinput
        rw [← List.forall_mem_map (f := toCString)
            (P := fun n => velyIsValidParamName n false = true), ← hnames, List.forall_mem_map]

end PathInput

theorem zero_notMem_app :
  0 ∉ ascii "/app"
  := by decide

/-- A request for a path, without a query and a body. -/
def pathEnv (pathInfo : CString) : InputEnv where
  method := ⟨ascii "GET", by decide⟩
  contentType := .empty
  contentLength := .empty
  body := []
  query := .empty
  scriptName := ⟨ascii "/app", zero_notMem_app⟩
  pathInfo := pathInfo
  maxUploadSize := 0
  applicationPath := ⟨ascii "/app", zero_notMem_app⟩
  documents := fun _ => .empty

/-- A path with a parameter gives what the query gives, and a valid name. -/
theorem path_parameters_request :
  (velyGetInput (pathEnv ⟨ascii "/req/a/1", by decide⟩) (List.replicate maxPath 0)).map (·.params)
      = parseParams (Block.ofText (ascii "a=1") [none])
    ∧ ∀ r, velyGetInput (pathEnv ⟨ascii "/req/a/1", by decide⟩) (List.replicate maxPath 0) = .ok r →
      ∃ params ps, r.params = params ++ ps ∧ ∀ p ∈ ps, velyIsValidParamName p.name false = true
  := by
  obtain ⟨hagree, hvalid⟩ := @path_parameters_iff (pathEnv ⟨ascii "/req/a/1", by decide⟩)
    (List.replicate maxPath 0) List.length_replicate
  constructor
  · have hpair : ∀ q ∈ [(PairStyle.slash, (⟨⟨ascii "a", by decide⟩, ⟨ascii "1", by decide⟩⟩ :
        InputParam))], IsPair q.2 ∧ Untrimmed q.2.value.bytes := by
      simp only [List.mem_singleton, forall_eq]
      refine ⟨⟨by decide, by decide, by decide⟩, ?_, ?_⟩
      all_goals
        rintro c ⟨⟩
        rfl
    apply (hagree (.plain (ascii "req")) [(.slash, ⟨⟨ascii "a", by decide⟩, ⟨ascii "1", by decide⟩⟩)]
      false ⟨ascii "a=1", by decide⟩ [none] (by decide) (by decide) (by decide) (by decide) (by decide)
      (by decide) (by decide) ⟨by decide, by decide, by decide, by decide, by decide⟩
      (fun q hq => (hpair q hq).1)
      ⟨[ascii "1"], .cons (.unreserved (by decide) .nil) .nil, by decide⟩ (by simp)).mpr
    exact ⟨by rw [if_neg (by decide)], by simp, fun q hq => (hpair q hq).2⟩
  · intro r hr
    obtain ⟨params, files, ps, -, hparams, hnames⟩ := hvalid r hr
    exact ⟨params, ps, hparams, hnames.mpr (by decide +kernel)⟩

/-- A slash at the end of a path is one more parameter, without a name. -/
theorem path_slash_parameter :
  (velyGetInput (pathEnv ⟨ascii "/req/a/1/", by decide⟩) (List.replicate maxPath 0)).map (·.params)
    = .ok [⟨⟨ascii "a", by decide⟩, ⟨ascii "1", by decide⟩⟩, ⟨.empty, ⟨ascii "true", by decide⟩⟩]
  ∧ parseParams (Block.ofText (ascii "a=1") [none])
    = .ok [⟨⟨ascii "a", by decide⟩, ⟨ascii "1", by decide⟩⟩]
  ∧ velyIsValidParamName .empty false = false
  := by
  refine ⟨?_, ?_, ?_⟩
  · decide +kernel
  · decide +kernel
  · decide

end Vely
