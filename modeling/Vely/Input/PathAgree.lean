import Vely.Input.PathParams

/-!
# Where a path and a query agree

A path with parameters gives the parameters that a query gives when it ends without a slash, as it
was written, and no value has spaces at its ends.  The names in a path are not checked.
-/

namespace Vely

/-- The last parameter of a path is a name, a slash, and an empty value. -/
def EndsOpen (pairs : List (PairStyle × InputParam)) : Prop :=
  ∃ q ∈ pairs.getLast?, q.1 = .slash ∧ q.2.value.bytes = []

/-- A path that is read as a query with the same parameters: the slash at its end is the one that
the server puts behind the name of a script, a name without a value is not left alone at the end,
behind a hierarchical path there is a parameter, and no value is trimmed in a query. -/
structure PathOk (env : InputEnv) (request : RequestPath) (pairs : List (PairStyle × InputParam))
    (trailing : Bool) : Prop where
  ending : if env.pathInfo.bytes = [] then trailing = true ∨ ¬ EndsOpen pairs else trailing = false
  closed : (∃ path, request = .hierarchical path) → pairs ≠ []
  untrimmed : ∀ q ∈ pairs, Untrimmed q.2.value.bytes

/-! ### The end of the path -/

section Ending

variable {pairs : List (PairStyle × InputParam)} {request : RequestPath}

theorem pairsText_append (ps qs : List (PairStyle × InputParam)) :
  pairsText (ps ++ qs) = pairsText ps ++ pairsText qs
  := List.flatMap_append

theorem pairText_ne_nil (q : PairStyle × InputParam) :
  pairText q ≠ []
  := List.cons_ne_nil _ _

/-- The text of a request does not end with a slash. -/
theorem getLast?_text (hok : request.Ok) :
  request.text.getLast? ≠ some '/'.toUInt8
  := by
  cases request with
  | plain name =>
    intro h
    obtain ⟨hne, -, hs, -, -⟩ := hok
    rw [RequestPath.text, List.getLast?_cons, Option.some.injEq] at h
    cases hl : name.getLast? with
    | none => exact hne (List.getLast?_eq_none_iff.mp hl)
    | some c =>
      rw [hl, Option.getD_some] at h
      rw [h] at hl
      exact hs (List.mem_of_getLast? hl)
  | hierarchical path =>
    have hne : '_'.toUInt8 ≠ '/'.toUInt8 := by decide
    rw [RequestPath.text, List.getLast?_append]
    simp [hne]

/-- A parameter ends with a slash when it is a name, a slash and an empty value. -/
theorem getLast?_pairText {q : PairStyle × InputParam} (hq : IsPair q.2) :
  (pairText q).getLast? = some '/'.toUInt8 ↔ q.1 = .slash ∧ q.2.value.bytes = []
  := by
  obtain ⟨style, name, value⟩ := q
  obtain ⟨-, hs, -⟩ := hq
  simp only at hs
  have htext : (pairText (style, ⟨name, value⟩)).getLast?
      = some (value.bytes.getLast?.getD style.separator) := by
    rw [pairText, ← List.cons_append, List.getLast?_append, List.getLast?_cons]
    rfl
  rw [htext, Option.some.injEq]
  cases hl : value.bytes.getLast? with
  | none =>
    rw [List.getLast?_eq_none_iff] at hl
    rw [Option.getD_none, hl]
    cases style with
    | slash => simp [PairStyle.separator]
    | equal =>
      have hne : '='.toUInt8 ≠ '/'.toUInt8 := by decide
      simp [PairStyle.separator, hne]
  | some c =>
    have hne : value.bytes ≠ [] := by
      intro hnil
      rw [hnil] at hl
      cases hl
    rw [Option.getD_some]
    constructor
    · rintro rfl
      exact absurd (List.mem_of_getLast? hl) hs
    · rintro ⟨-, hnil⟩
      exact absurd hnil hne

/-- A path with parameters ends with a slash when the last one has an empty value. -/
theorem getLast?_pairsText (hok : request.Ok) (hpairs : ∀ q ∈ pairs, IsPair q.2)
    (app : List UInt8) :
  (app ++ (request.text ++ pairsText pairs)).getLast? = some '/'.toUInt8 ↔ EndsOpen pairs
  := by
  rcases List.eq_nil_or_concat pairs with rfl | ⟨init, q, rfl⟩
  · rw [pairsText, List.flatMap_nil, List.append_nil, List.getLast?_append]
    have htext := getLast?_text hok
    cases hl : request.text.getLast? with
    | none =>
      rw [List.getLast?_eq_none_iff] at hl
      cases request <;> cases hl
    | some c =>
      rw [hl] at htext
      simp only [Option.some_or, EndsOpen]
      constructor
      · intro h
        exact absurd h htext
      · rintro ⟨q, hq, -⟩
        cases hq
  · have htext : pairsText (init ++ [q]) = pairsText init ++ pairText q := by
      rw [pairsText_append]
      simp [pairsText]
    rw [List.concat_eq_append, htext, ← List.append_assoc, ← List.append_assoc,
      List.getLast?_append, EndsOpen, List.getLast?_concat]
    cases hl : (pairText q).getLast? with
    | none => exact absurd (List.getLast?_eq_none_iff.mp hl) (pairText_ne_nil q)
    | some c =>
      rw [Option.some_or, ← hl, getLast?_pairText (hpairs q (by simp))]
      simp

end Ending

/-- The end of the path that is taken apart, against the one that was written. -/
theorem path_of_written {env : InputEnv} {written : List UInt8} {trailing : Bool}
    (hpath : env.scriptName.bytes ++ env.pathInfo.bytes
      = written ++ if trailing then ['/'.toUInt8] else [])
    (hscript : env.pathInfo.bytes = [] ∨ env.scriptName.bytes.getLast? ≠ some '/'.toUInt8) :
  env.path = if env.pathInfo.bytes = [] then (if trailing then written else removeSlash written)
    else written ++ if trailing then ['/'.toUInt8] else []
  := by
  by_cases hinfo : env.pathInfo.bytes = []
  · rw [if_pos hinfo, InputEnv.path, hinfo, List.append_nil]
    rw [hinfo, List.append_nil] at hpath
    rw [hpath]
    cases trailing with
    | false => simp
    | true => simp [removeSlash]
  · rw [if_neg hinfo, InputEnv.path, removeSlash, if_neg (hscript.resolve_left hinfo), hpath]

/-! ### Agreement -/

section Agree

variable {env : InputEnv} {fullPath : List UInt8} {request : RequestPath}
  {pairs : List (PairStyle × InputParam)}

/-- Without a body and a query, the parameters are those of the path. -/
theorem velyGetInput_path (hmethod : env.method.bytes ≠ [])
    (hoptions : strcasecmp env.method.bytes (ascii "OPTIONS") = false)
    (htype : env.contentType.bytes = []) (hquery : env.query.bytes = []) :
  (velyGetInput env fullPath).map (·.params) = (pathInput env fullPath []).map Prod.fst
  := by
  obtain ⟨tail, htail, hbody⟩ := bodyParams_query hmethod hoptions htype
  have hnil : parseParams (Block.ofText [] tail) = .ok [] := by
    apply parseParams_ofText (by simp) htail rfl rfl
    simp [pairParams, queryParams, tokens]
  rw [hquery, hnil] at hbody
  rw [velyGetInput, hbody]
  simp only [queryRequestName, Except.map, ok_bind, List.filter_nil, List.getLast?_nil]
  cases pathInput env fullPath [] <;> rfl

/-- The path as it was written gives its parameters. -/
theorem pathInput_written (hok : request.Ok) (hpairs : ∀ q ∈ pairs, IsPair q.2)
    (hpath : env.kept = env.applicationPath.bytes ++ (request.text ++ pairsText pairs))
    (hclosed : (∃ path, request = .hierarchical path) → pairs ≠ []) :
  (pathInput env fullPath []).map Prod.fst = .ok (pairs.map Prod.snd)
  := by
  have hclosed' : (∃ n, request = .plain n) ∨ pairs ≠ [] ∨ ([] : List UInt8) ≠ [] := by
    cases request with
    | plain n => exact .inl ⟨n, rfl⟩
    | hierarchical path => exact .inr (.inl (hclosed ⟨path, rfl⟩))
  obtain ⟨name, hinput⟩ := @pathInput_pairs env fullPath [] _ request pairs [] [] hok hpairs
    (by rw [List.append_nil]; exact hpath) (strcasecmp_self _) (.inl rfl)
    (by
      intro buf r p b hdrop
      rw [slashAt_of_zero hdrop, pathLoop]
      rfl)
    hclosed'
  rw [hinput, List.append_nil]
  rfl

/-- A slash behind a path adds a parameter without a name. -/
theorem pathInput_trailing (hok : request.Ok) (hpairs : ∀ q ∈ pairs, IsPair q.2)
    (hpath : env.kept = env.applicationPath.bytes
      ++ (request.text ++ pairsText pairs) ++ ['/'.toUInt8]) :
  (pathInput env fullPath []).map Prod.fst
    = .ok (pairs.map Prod.snd ++ [⟨toCString [], toCString (ascii "true")⟩])
  := by
  obtain ⟨name, hinput⟩ := @pathInput_pairs env fullPath [] _ request pairs ['/'.toUInt8]
    [⟨toCString [], toCString (ascii "true")⟩] hok hpairs
    (by rw [hpath]; simp) (strcasecmp_self _) (.inr ⟨[], rfl⟩)
    (by
      intro buf r p b hdrop
      rw [slashAt_of_slash hdrop]
      apply pathLoop_slash hdrop)
    (.inr (.inr (by simp)))
  rw [hinput]
  rfl

/-- A name alone at the end of a path has the value `true`. -/
theorem pathInput_name {n : CString} (hn : velyIsValidParamName n false = true) (hok : request.Ok)
    (hpairs : ∀ q ∈ pairs, IsPair q.2)
    (hpath : env.kept = env.applicationPath.bytes
      ++ (request.text ++ (pairsText pairs ++ '/'.toUInt8 :: n.bytes))) :
  (pathInput env fullPath []).map Prod.fst
    = .ok (pairs.map Prod.snd ++ [⟨n, toCString (ascii "true")⟩])
  := by
  obtain ⟨name, hinput⟩ := @pathInput_pairs env fullPath [] _ request pairs
    ('/'.toUInt8 :: n.bytes) [⟨n, toCString (ascii "true")⟩] hok hpairs hpath (strcasecmp_self _)
    (.inr ⟨_, rfl⟩)
    (by
      intro buf r p b hdrop
      rw [slashAt_of_slash hdrop]
      apply pathLoop_name hn hdrop)
    (.inr (.inr (by simp)))
  rw [hinput]
  rfl

/-- Without parameters, a hierarchical path does not give an empty list of them. -/
theorem pathInput_hierarchical {path : List UInt8} (hmem : fullPath.length = maxPath)
    (hok : (RequestPath.hierarchical path).Ok)
    (hpath : env.kept = env.applicationPath.bytes ++ (RequestPath.hierarchical path).text) :
  (pathInput env fullPath []).map Prod.fst ≠ .ok []
  := by
  intro h
  cases hinput : pathInput env fullPath [] with
  | error e =>
    rw [hinput] at h
    cases h
  | ok r =>
    obtain ⟨ps, name⟩ := r
    rw [hinput] at h
    obtain rfl : ps = [] := Except.ok.inj h
    have hz : 0 ∉ path ++ ['_'.toUInt8] := by
      rw [List.mem_append, List.mem_singleton, not_or]
      exact ⟨hok.1, by decide⟩
    have hfind : find id (ascii "_/") (RequestPath.inner (path ++ ['_'.toUInt8])) = none := by
      have hinner : RequestPath.inner (path ++ ['_'.toUInt8])
          = RequestPath.inner path ++ ['_'.toUInt8] := by
        cases path with
        | nil => rfl
        | cons c path =>
          by_cases hc : c = '/'.toUInt8
          · simp [RequestPath.inner, hc]
          · simp [RequestPath.inner, hc]
      rw [hinner]
      apply find_closing_end hok.2
    obtain ⟨hps, -⟩ := pathInput_unclosed hmem hpath (strcasecmp_self _) hz hfind hinput
    cases hps

/-- A value is trimmed to itself only if there is no space at its ends. -/
theorem untrimmed_of_trimmed {p : InputParam} (h : p.trimmed = p) :
  Untrimmed p.value.bytes
  := by
  have htrim : trimSpaces p.value.bytes = p.value.bytes :=
    congrArg (fun q : InputParam => q.value.bytes) h
  have hdrop : p.value.bytes.dropWhile isspace = p.value.bytes := by
    apply (List.dropWhile_sublist isspace).eq_of_length_le
    calc p.value.bytes.length = (trimSpaces p.value.bytes).length := by rw [htrim]
      _ ≤ (p.value.bytes.dropWhile isspace).length := (List.rdropWhile_prefix isspace _).length_le
  rw [trimSpaces, hdrop, List.rdropWhile_eq_self_iff] at htrim
  rw [List.dropWhile_eq_self_iff] at hdrop
  constructor
  · intro c hc
    obtain ⟨hlt, hget⟩ := List.getElem?_eq_some_iff.mp (List.head?_eq_getElem? ▸ hc)
    simpa [hget] using hdrop hlt
  · intro c hc
    obtain ⟨hne, rfl⟩ := List.mem_getLast?_eq_getLast hc
    simpa using htrim hne

/-- The parameters that a path gives are those of the query that is made of them if and only if the
path is one that is read as it was written and no value is trimmed. -/
theorem path_agrees_iff {trailing : Bool} {query : CString} {tail : List (Option UInt8)}
    (hmem : fullPath.length = maxPath) (hlen : env.path.length < maxPath)
    (hmethod : env.method.bytes ≠ [])
    (hoptions : strcasecmp env.method.bytes (ascii "OPTIONS") = false)
    (htype : env.contentType.bytes = []) (hquery : env.query.bytes = [])
    (hscript : env.pathInfo.bytes = [] ∨ env.scriptName.bytes.getLast? ≠ some '/'.toUInt8)
    (hpath : env.scriptName.bytes ++ env.pathInfo.bytes
      = env.applicationPath.bytes ++ (request.text ++ pairsText pairs)
        ++ if trailing then ['/'.toUInt8] else [])
    (hok : request.Ok) (hpairs : ∀ q ∈ pairs, IsPair q.2)
    (hq : IsQuery (pairs.map Prod.snd) query.bytes) (htail : tail ≠ []) :
  (velyGetInput env fullPath).map (·.params) = parseParams (Block.ofText query.bytes tail)
    ↔ PathOk env request pairs trailing
  := by
  have hkept : env.kept = env.path := List.take_of_length_le (by omega)
  have hnames : ∀ p ∈ pairs.map Prod.snd, velyIsValidParamName p.name false = true := by
    intro p hp
    obtain ⟨q, hq', rfl⟩ := List.mem_map.mp hp
    exact (hpairs q hq').1
  rw [velyGetInput_path hmethod hoptions htype hquery,
    parseParams_isQuery hq query.nonzero htail hnames]
  have hwritten := path_of_written hpath hscript
  rw [← hkept] at hwritten
  have hopen := getLast?_pairsText hok hpairs env.applicationPath.bytes
  -- the path as it was written
  have hsame : env.kept = env.applicationPath.bytes ++ (request.text ++ pairsText pairs) →
      ((pathInput env fullPath []).map Prod.fst
          = .ok ((pairs.map Prod.snd).map InputParam.trimmed)
        ↔ ((∃ path, request = .hierarchical path) → pairs ≠ [])
          ∧ ∀ q ∈ pairs, Untrimmed q.2.value.bytes) := by
    intro hkept'
    by_cases hclosed : (∃ path, request = .hierarchical path) → pairs ≠ []
    · rw [pathInput_written hok hpairs hkept' hclosed, Except.ok.injEq]
      constructor
      · intro h
        refine ⟨hclosed, fun q hq' => untrimmed_of_trimmed ?_⟩
        have hmap := List.map_eq_map_iff.mp ((List.map_id _).trans h) q.2 (List.mem_map_of_mem hq')
        exact hmap.symm
      · rintro ⟨-, huntrimmed⟩
        rw [map_trimmed]
        intro p hp
        obtain ⟨q, hq', rfl⟩ := List.mem_map.mp hp
        apply huntrimmed q hq'
    · rw [iff_false_right (fun h => hclosed h.1)]
      push Not at hclosed
      obtain ⟨⟨path, rfl⟩, rfl⟩ := hclosed
      apply pathInput_hierarchical hmem hok
      rw [hkept']
      simp [pairsText]
  -- a slash behind the parameters
  have hslash : env.kept = env.applicationPath.bytes ++ (request.text ++ pairsText pairs)
        ++ ['/'.toUInt8] →
      (pathInput env fullPath []).map Prod.fst
        ≠ .ok ((pairs.map Prod.snd).map InputParam.trimmed) := by
    intro hkept' h
    rw [pathInput_trailing hok hpairs hkept', Except.ok.injEq] at h
    simpa using congrArg List.length h
  -- the slash behind the last name is taken for one of the script
  have hname : EndsOpen pairs →
      env.kept = removeSlash (env.applicationPath.bytes ++ (request.text ++ pairsText pairs)) →
      (pathInput env fullPath []).map Prod.fst
        ≠ .ok ((pairs.map Prod.snd).map InputParam.trimmed) := by
    rintro ⟨⟨style, n, value⟩, hlast, rfl, hvalue⟩ hkept' h
    obtain ⟨init, rfl⟩ : ∃ init, pairs = init ++ [(.slash, ⟨n, value⟩)] :=
      ⟨_, (List.dropLast_append_getLast? _ hlast).symm⟩
    simp only at hvalue
    have htext : env.applicationPath.bytes
        ++ (request.text ++ pairsText (init ++ [(.slash, ⟨n, value⟩)]))
        = (env.applicationPath.bytes ++ (request.text ++ (pairsText init ++ '/'.toUInt8 :: n.bytes)))
          ++ ['/'.toUInt8] := by
      rw [pairsText_append]
      simp [pairsText, pairText, PairStyle.separator, hvalue]
    rw [htext, removeSlash, List.getLast?_concat, if_pos rfl, List.dropLast_concat] at hkept'
    rw [pathInput_name (hpairs (.slash, ⟨n, value⟩) (by simp)).1 hok (fun q hq' => hpairs q (by simp [hq'])) hkept',
      Except.ok.injEq, List.map_append, List.map_append] at h
    have hlast' := congrArg List.getLast? h
    rw [List.getLast?_concat, List.map_singleton, List.map_singleton, List.getLast?_concat,
      Option.some.injEq] at hlast'
    have hbytes := congrArg (fun p : InputParam => p.value.bytes) hlast'
    have htrue : (toCString (ascii "true")).bytes = ascii "true" := by decide
    have hempty : (velyTrimPtr value).bytes = [] := by
      change trimSpaces value.bytes = []
      rw [hvalue]
      rfl
    simp only [InputParam.trimmed, hempty, htrue] at hbytes
    exact absurd hbytes (by decide)
  by_cases hinfo : env.pathInfo.bytes = []
  · rw [if_pos hinfo] at hwritten
    cases trailing with
    | true =>
      rw [hsame (by simpa using hwritten)]
      constructor
      · rintro ⟨hclosed, huntrimmed⟩
        exact ⟨by simp [hinfo], hclosed, huntrimmed⟩
      · intro hpathOk
        exact ⟨hpathOk.closed, hpathOk.untrimmed⟩
    | false =>
      by_cases hends : EndsOpen pairs
      · rw [iff_false_left (hname hends (by simpa using hwritten))]
        intro hpathOk
        have hending := hpathOk.ending
        simp [hinfo, hends] at hending
      · have hnone : removeSlash (env.applicationPath.bytes ++ (request.text ++ pairsText pairs))
            = env.applicationPath.bytes ++ (request.text ++ pairsText pairs) :=
          if_neg (fun h => hends (hopen.mp h))
        rw [if_neg (by simp), hnone] at hwritten
        rw [hsame hwritten]
        constructor
        · rintro ⟨hclosed, huntrimmed⟩
          exact ⟨by simp [hinfo, hends], hclosed, huntrimmed⟩
        · intro hpathOk
          exact ⟨hpathOk.closed, hpathOk.untrimmed⟩
  · rw [if_neg hinfo] at hwritten
    cases trailing with
    | true =>
      rw [iff_false_left (hslash (by simpa using hwritten))]
      intro hpathOk
      have hending := hpathOk.ending
      simp [hinfo] at hending
    | false =>
      rw [hsame (by simpa using hwritten)]
      constructor
      · rintro ⟨hclosed, huntrimmed⟩
        exact ⟨by simp [hinfo], hclosed, huntrimmed⟩
      · intro hpathOk
        exact ⟨hpathOk.closed, hpathOk.untrimmed⟩

end Agree

end Vely
