import Vely.Input.Path
import Vely.Input.RoundTrip

/-!
# Parameters in a path and in a query

The parameters that are written to a path behind the name of the request, each with a slash or a
sign `=` between its name and its value, against the same parameters in a query.
-/

namespace Vely

/-- What stands between the name and the value of a parameter in a path. -/
inductive PairStyle where
  | slash
  | equal
  deriving DecidableEq

/-- The byte between the name and the value. -/
def PairStyle.separator : PairStyle → UInt8
  | .slash => '/'.toUInt8
  | .equal => '='.toUInt8

/-- A parameter in a path. -/
def pairText (pair : PairStyle × InputParam) : List UInt8 :=
  '/'.toUInt8 :: (pair.2.name.bytes ++ pair.1.separator :: pair.2.value.bytes)

/-- Parameters in a path. -/
def pairsText (pairs : List (PairStyle × InputParam)) : List UInt8 := pairs.flatMap pairText

/-- A parameter that can be written to a path: its name is valid, and its value has neither a slash
nor a sign `=`. -/
def IsPair (p : InputParam) : Prop :=
  velyIsValidParamName p.name false = true ∧ '/'.toUInt8 ∉ p.value.bytes
    ∧ '='.toUInt8 ∉ p.value.bytes

/-! ### Segments in memory -/

section Memory

variable {buf l r : List UInt8} {p : Nat} {c : UInt8}

theorem byteAt_of_drop (h : buf.drop p = l ++ c :: r) {k : Nat} (hk : k = p + l.length) :
  byteAt buf k = c
  := by
  have hget : (buf.drop p)[l.length]? = some c := by simp [h]
  rw [List.getElem?_drop] at hget
  rw [byteAt, hk, List.getD_eq_getElem?_getD, hget]
  rfl

theorem drop_of_drop (h : buf.drop p = l ++ r) {k : Nat} (hk : k = p + l.length) :
  buf.drop k = r
  := by
  rw [hk, ← List.drop_drop, h, List.drop_left]

theorem cstringAt_of_drop (h : buf.drop p = l ++ 0 :: r) (hz : 0 ∉ l) :
  cstringAt buf p = l
  := by
  have hall : ∀ c ∈ l, decide (c ≠ 0) = true := by
    intro c hc
    simp only [ne_eq, decide_eq_true_eq]
    rintro rfl
    exact hz hc
  rw [cstringAt, h, List.takeWhile_append_of_pos hall]
  simp

theorem takeWhile_of_notMem {d : UInt8} (hd : d ∉ l) (hc : c = d) :
  (l ++ c :: r).takeWhile (fun c => decide (c ≠ d)) = l
  := by
  have hall : ∀ c ∈ l, decide (c ≠ d) = true := by
    intro c' hc'
    simp only [ne_eq, decide_eq_true_eq]
    rintro rfl
    exact hd hc'
  rw [List.takeWhile_append_of_pos hall]
  simp [hc]

theorem dropWhile_of_notMem {d : UInt8} (hd : d ∉ l) (hc : c = d) :
  (l ++ c :: r).dropWhile (fun c => decide (c ≠ d)) = c :: r
  := by
  have hall : ∀ c ∈ l, decide (c ≠ d) = true := by
    intro c' hc'
    simp only [ne_eq, decide_eq_true_eq]
    rintro rfl
    exact hd hc'
  rw [List.dropWhile_append_of_pos hall]
  simp [hc]

/-- A segment ends at a slash or with the string. -/
theorem pathSegment_of_drop (h : buf.drop p = l ++ c :: r) (hz : 0 ∉ l) (hs : '/'.toUInt8 ∉ l)
    (hc : c = 0 ∨ c = '/'.toUInt8) :
  pathSegment buf p = l
  := by
  have hall : ∀ c ∈ l, decide (c ≠ 0) = true := by
    intro c hc
    simp only [ne_eq, decide_eq_true_eq]
    rintro rfl
    exact hz hc
  have hall' : ∀ c ∈ l, decide (c ≠ '/'.toUInt8) = true := by
    intro c hc
    simp only [ne_eq, decide_eq_true_eq]
    rintro rfl
    exact hs hc
  rw [pathSegment, cstringAt, h, List.takeWhile_append_of_pos hall]
  rcases hc with rfl | rfl
  · simpa using hall'
  · rw [List.takeWhile_cons_of_pos (by decide), List.takeWhile_append_of_pos hall',
      List.takeWhile_cons_of_neg (by decide), List.append_nil]

/-- The slash at `p`, unless the string ends there. -/
def slashAt (buf : List UInt8) (p : Nat) : Option Nat := if byteAt buf p ≠ 0 then some p else none

theorem slashAt_of_slash (h : buf.drop p = '/'.toUInt8 :: r) :
  slashAt buf p = some p
  := by
  have hbyte : byteAt buf p = '/'.toUInt8 := byteAt_of_drop (l := []) h rfl
  rw [slashAt, hbyte, if_pos (by decide)]

theorem slashAt_of_zero (h : buf.drop p = 0 :: r) :
  slashAt buf p = none
  := by
  have hbyte : byteAt buf p = 0 := byteAt_of_drop (l := []) h rfl
  rw [slashAt, hbyte, if_neg (by simp)]

theorem nextSlash_of_drop (h : buf.drop p = l ++ c :: r) (hz : 0 ∉ l) (hs : '/'.toUInt8 ∉ l)
    (hc : c = 0 ∨ c = '/'.toUInt8) :
  nextSlash buf p = slashAt buf (p + l.length)
  := by
  rw [nextSlash, pathSegment_of_drop h hz hs hc]
  rfl

theorem toCString_bytes (s : CString) :
  toCString s.bytes = s
  := by
  apply CString.ext
  rw [toCString, List.takeWhile_eq_self_iff]
  intro c hc
  simp only [ne_eq, decide_eq_true_eq]
  rintro rfl
  exact s.nonzero hc

/-- A valid name has no hyphen. -/
theorem map_hyphen_of_valid {name : CString} (h : velyIsValidParamName name false = true) :
  name.bytes.map hyphenToUnderscore = name.bytes
  := by
  rw [List.map_congr_left (g := id), List.map_id]
  intro c hc
  apply if_neg
  rintro rfl
  exact absurd (isNameChar_of_valid h _ hc) (by decide)

theorem notMem_of_valid {name : CString} (h : velyIsValidParamName name false = true) {d : UInt8}
    (hd : isNameChar false d = false) :
  d ∉ name.bytes
  := by
  intro hmem
  rw [isNameChar_of_valid h d hmem] at hd
  cases hd

/-- A parameter is read as it was written, up to the slash behind it. -/
theorem pathParam_pair {pair : PairStyle × InputParam} (hp : IsPair pair.2)
    (h : buf.drop p = pairText pair ++ c :: r) (hc : c = 0 ∨ c = '/'.toUInt8) :
  pathParam buf (p + 1) = (pair.2, slashAt buf (p + (pairText pair).length))
  := by
  obtain ⟨style, name, value⟩ := pair
  obtain ⟨hname, hslash, hequal⟩ := hp
  simp only at hname hslash hequal
  have hns := notMem_of_valid hname (d := '/'.toUInt8) (by decide)
  have hne := notMem_of_valid hname (d := '='.toUInt8) (by decide)
  have hdash := map_hyphen_of_valid hname
  cases style with
  | equal =>
    have hdrop : buf.drop (p + 1) = (name.bytes ++ '='.toUInt8 :: value.bytes) ++ c :: r := by
      apply drop_of_drop (l := ['/'.toUInt8]) _ rfl
      rw [h]
      simp [pairText, PairStyle.separator]
    have hz : 0 ∉ name.bytes ++ '='.toUInt8 :: value.bytes := by
      simp only [List.mem_append, List.mem_cons, not_or]
      exact ⟨name.nonzero, by decide, value.nonzero⟩
    have hs : '/'.toUInt8 ∉ name.bytes ++ '='.toUInt8 :: value.bytes := by
      simp only [List.mem_append, List.mem_cons, not_or]
      exact ⟨hns, by decide, hslash⟩
    have hlen : p + (pairText (.equal, ⟨name, value⟩)).length
        = p + 1 + (name.bytes ++ '='.toUInt8 :: value.bytes).length := by
      simp only [pairText, PairStyle.separator, List.length_cons]
      omega
    rw [pathParam, pathSegment_of_drop hdrop hz hs hc, if_pos (by simp),
      takeWhile_of_notMem hne rfl, dropWhile_of_notMem hne rfl,
      nextSlash_of_drop hdrop hz hs hc, hdash, List.tail_cons, toCString_bytes, toCString_bytes,
      hlen]
  | slash =>
    have hdrop : buf.drop (p + 1) = name.bytes ++ '/'.toUInt8 :: (value.bytes ++ c :: r) := by
      apply drop_of_drop (l := ['/'.toUInt8]) _ rfl
      rw [h]
      simp [pairText, PairStyle.separator]
    have hdrop' : buf.drop (p + 1 + name.bytes.length + 1) = value.bytes ++ c :: r := by
      apply drop_of_drop (l := name.bytes ++ ['/'.toUInt8]) (p := p + 1)
      · rw [hdrop]
        simp
      · simp [Nat.add_assoc]
    have hslashAt : slashAt buf (p + 1 + name.bytes.length)
        = some (p + 1 + name.bytes.length) := slashAt_of_slash (drop_of_drop hdrop rfl)
    have hlen : p + (pairText (.slash, ⟨name, value⟩)).length
        = p + 1 + name.bytes.length + 1 + value.bytes.length := by
      simp only [pairText, PairStyle.separator, List.length_cons, List.length_append]
      omega
    rw [pathParam, pathSegment_of_drop hdrop name.nonzero hns (.inr rfl), if_neg hne,
      nextSlash_of_drop hdrop name.nonzero hns (.inr rfl), hslashAt]
    simp only
    rw [pathSegment_of_drop hdrop' value.nonzero hslash hc,
      nextSlash_of_drop hdrop' value.nonzero hslash hc, hdash, toCString_bytes, toCString_bytes,
      hlen]

/-- The parameters of a path are read one behind the other. -/
theorem pathLoop_pairs {pairs : List (PairStyle × InputParam)} (hp : ∀ q ∈ pairs, IsPair q.2)
    {bound : Nat} (hb : pairs.length < bound) (h : buf.drop p = pairsText pairs ++ c :: r)
    (hc : c = 0 ∨ c = '/'.toUInt8) :
  pathLoop buf bound (slashAt buf p)
    = (pathLoop buf (bound - pairs.length) (slashAt buf (p + (pairsText pairs).length))).map
        (pairs.map Prod.snd ++ ·)
  := by
  induction pairs generalizing p bound with
  | nil =>
    simp only [pairsText, List.flatMap_nil, List.length_nil, Nat.add_zero, Nat.sub_zero,
      List.map_nil, List.nil_append]
    cases pathLoop buf bound (slashAt buf p) <;> rfl
  | cons q qs ih =>
    obtain ⟨bound, rfl⟩ : ∃ b, bound = b + 1 := ⟨bound - 1, by omega⟩
    -- behind the first parameter is the slash of the next one, or what is behind them all
    obtain ⟨d, t, hd, ht⟩ : ∃ d t, (d = 0 ∨ d = '/'.toUInt8)
        ∧ pairsText qs ++ c :: r = d :: t := by
      cases qs with
      | nil => exact ⟨c, r, hc, rfl⟩
      | cons q' qs => exact ⟨'/'.toUInt8, _, .inr rfl, rfl⟩
    have hdrop : buf.drop p = pairText q ++ d :: t := by
      rw [h, pairsText, List.flatMap_cons, List.append_assoc, ← ht]
      rfl
    have hdrop' : buf.drop (p + (pairText q).length) = pairsText qs ++ c :: r := by
      rw [ht]
      apply drop_of_drop hdrop rfl
    have hslashAt : slashAt buf p = some p := slashAt_of_slash hdrop
    have hlt : ¬ buf.length ≤ p + 1 := by
      intro hle
      have hlen := congrArg List.length hdrop
      simp only [List.length_drop, List.length_append, List.length_cons, pairText] at hlen
      omega
    have hlen : p + (pairsText (q :: qs)).length
        = p + (pairText q).length + (pairsText qs).length := by
      simp only [pairsText, List.flatMap_cons, List.length_append]
      omega
    rw [hslashAt, pathLoop, if_neg hlt, pathParam_pair (hp q (by simp)) hdrop hd]
    simp only
    rw [ih (fun q' hq' => hp q' (by simp [hq'])) (by simpa using hb) hdrop', hlen,
      List.length_cons, Nat.add_sub_add_right]
    cases pathLoop buf (bound - qs.length)
      (slashAt buf (p + (pairText q).length + (pairsText qs).length)) <;> rfl

theorem pathLoop_none (bound : Nat) :
  pathLoop buf bound none = .ok []
  := by
  cases bound <;> rfl

/-- Where a parameter is looked for, one is read. -/
theorem pathLoop_some {bound : Nat} {ps : List InputParam}
    (h : pathLoop buf bound (some p) = .ok ps) :
  ∃ b qs, bound = b + 1 ∧ pathLoop buf b (pathParam buf (p + 1)).2 = .ok qs
    ∧ ps = (pathParam buf (p + 1)).1 :: qs
  := by
  cases bound with
  | zero => cases h
  | succ bound =>
    rw [pathLoop] at h
    split at h
    · cases h
    · cases hr : pathLoop buf bound (pathParam buf (p + 1)).2 with
      | error e =>
        simp only [hr] at h
        cases h
      | ok qs =>
        simp only [hr, ok_bind, pure_eq_ok] at h
        obtain rfl := Except.ok.inj h
        exact ⟨bound, qs, rfl, hr, rfl⟩

/-- A slash at the end of a path is a parameter without a name. -/
theorem pathLoop_slash {bound : Nat} (h : buf.drop p = c :: 0 :: r) :
  pathLoop buf (bound + 1) (some p) = .ok [⟨toCString [], toCString (ascii "true")⟩]
  := by
  have hdrop : buf.drop (p + 1) = [] ++ 0 :: r := drop_of_drop (l := [c]) h rfl
  have hlt : ¬ buf.length ≤ p + 1 := by
    intro hle
    rw [List.drop_of_length_le hle] at hdrop
    cases hdrop
  have hparam : pathParam buf (p + 1) = (⟨toCString [], toCString (ascii "true")⟩, none) := by
    rw [pathParam, pathSegment_of_drop hdrop (by simp) (by simp) (.inl rfl), if_neg (by simp),
      nextSlash_of_drop hdrop (by simp) (by simp) (.inl rfl),
      slashAt_of_zero (p := p + 1 + ([] : List UInt8).length) hdrop]
    rfl
  rw [pathLoop, if_neg hlt, hparam]
  cases bound <;> rfl

/-- A name alone at the end of a path is a parameter with the value `true`. -/
theorem pathLoop_name {bound : Nat} {name : CString} (hname : velyIsValidParamName name false = true)
    (h : buf.drop p = ('/'.toUInt8 :: name.bytes) ++ 0 :: r) :
  pathLoop buf (bound + 1) (some p) = .ok [⟨name, toCString (ascii "true")⟩]
  := by
  have hdrop : buf.drop (p + 1) = name.bytes ++ 0 :: r := drop_of_drop (l := ['/'.toUInt8]) h rfl
  have hlt : ¬ buf.length ≤ p + 1 := by
    intro hle
    rw [List.drop_of_length_le hle] at hdrop
    simpa using congrArg List.length hdrop
  have hns := notMem_of_valid hname (d := '/'.toUInt8) (by decide)
  have hne := notMem_of_valid hname (d := '='.toUInt8) (by decide)
  have hparam : pathParam buf (p + 1) = (⟨name, toCString (ascii "true")⟩, none) := by
    rw [pathParam, pathSegment_of_drop hdrop name.nonzero hns (.inl rfl), if_neg hne,
      nextSlash_of_drop hdrop name.nonzero hns (.inl rfl),
      slashAt_of_zero (drop_of_drop hdrop rfl), map_hyphen_of_valid hname, toCString_bytes]
  rw [pathLoop, if_neg hlt, hparam]
  cases bound <;> rfl

end Memory

/-! ### The path of a request -/

/-- The part of a path that names the request: a name alone, or a hierarchical path that is closed
by an underscore. -/
inductive RequestPath where
  | plain (name : List UInt8)
  | hierarchical (path : List UInt8)

namespace RequestPath

/-- The text of the path. -/
def text : RequestPath → List UInt8
  | .plain name => '/'.toUInt8 :: name
  | .hierarchical path => ['/'.toUInt8, '_'.toUInt8] ++ path ++ ['_'.toUInt8]

/-- A hierarchical path without the slash it may start with. -/
def inner (path : List UInt8) : List UInt8 :=
  if path.head? = some '/'.toUInt8 then path.tail else path

/-- A name alone is one segment, does not start as a hierarchical path does, and is not a query; a
hierarchical path is not closed before its end. -/
def Ok : RequestPath → Prop
  | .plain name => name ≠ [] ∧ 0 ∉ name ∧ '/'.toUInt8 ∉ name ∧ name.head? ≠ some '_'.toUInt8
      ∧ name.head? ≠ some '?'.toUInt8
  | .hierarchical path => 0 ∉ path ∧ find id (ascii "_/") (inner path) = none

end RequestPath

/-! ### The end of a hierarchical path -/

theorem find_closing_cons {c : UInt8} {r : List UInt8} :
  find id (ascii "_/") (c :: r)
    = if c = '_'.toUInt8 ∧ r.head? = some '/'.toUInt8 then some 0
      else (find id (ascii "_/") r).map (· + 1)
  := by
  have hstart : ((ascii "_/").map id).isPrefixOf ((c :: r).map id) = true
      ↔ c = '_'.toUInt8 ∧ r.head? = some '/'.toUInt8 := by
    have hpat : (ascii "_/").map id = ['_'.toUInt8, '/'.toUInt8] := rfl
    rw [hpat, List.map_id]
    cases r with
    | nil => simp [List.isPrefixOf]
    | cons d r =>
      simp only [List.isPrefixOf, Bool.and_eq_true, beq_iff_eq, and_true, List.head?_cons,
        Option.some.injEq]
      constructor
      · rintro ⟨h, h'⟩
        exact ⟨h.symm, h'.symm⟩
      · rintro ⟨h, h'⟩
        exact ⟨h.symm, h'.symm⟩
  rw [find]
  by_cases h : c = '_'.toUInt8 ∧ r.head? = some '/'.toUInt8
  · rw [if_pos h, if_pos (hstart.mpr h)]
  · rw [if_neg h, if_neg (fun h' => h (hstart.mp h'))]

/-- The first underscore with a slash behind it is the one behind a text that has none. -/
theorem find_closing {text r : List UInt8} (h : find id (ascii "_/") text = none) :
  find id (ascii "_/") (text ++ '_'.toUInt8 :: '/'.toUInt8 :: r) = some text.length
  := by
  induction text with
  | nil =>
    rw [List.nil_append, find_closing_cons, if_pos ⟨rfl, rfl⟩]
    rfl
  | cons c text ih =>
    rw [find_closing_cons] at h
    split at h
    · cases h
    · next hc =>
      rw [List.cons_append, find_closing_cons, if_neg, ih (by simpa using h)]
      · rfl
      · rintro ⟨rfl, hhead⟩
        cases text with
        | nil =>
          rw [List.nil_append, List.head?_cons] at hhead
          exact absurd hhead (by decide)
        | cons d text => exact hc ⟨rfl, by simpa using hhead⟩

/-- An underscore at the end does not close a path with a slash. -/
theorem find_closing_end {text : List UInt8} (h : find id (ascii "_/") text = none) :
  find id (ascii "_/") (text ++ ['_'.toUInt8]) = none
  := by
  induction text with
  | nil => decide
  | cons c text ih =>
    rw [find_closing_cons] at h
    split at h
    · cases h
    · next hc =>
      rw [List.cons_append, find_closing_cons, if_neg, ih (by simpa using h)]
      · rfl
      · rintro ⟨rfl, hhead⟩
        cases text with
        | nil => exact absurd hhead (by decide)
        | cons d text => exact hc ⟨rfl, by simpa using hhead⟩

section Decorate

variable {buf r : List UInt8} {p : Nat} {c : UInt8}

/-- A path whose first segment does not start with an underscore is not hierarchical. -/
theorem velyDecoratePath_plain (pLen : Int) (h : buf.drop p = '/'.toUInt8 :: c :: r)
    (hunder : c ≠ '_'.toUInt8) :
  velyDecoratePath buf p pLen = .ok .notFound
  := by
  have h1 : byteAt buf (p + 1) = c := byteAt_of_drop (l := ['/'.toUInt8]) h rfl
  rw [velyDecoratePath, h1, if_pos (.inr hunder)]

/-- Where the search for the end of a hierarchical path starts. -/
theorem drop_inner {path rest : List UInt8}
    (h : buf.drop p = (RequestPath.hierarchical path).text ++ rest) :
  ∃ off, (if byteAt buf (p + 2) = '/'.toUInt8 then 3 else 2) = off
    ∧ buf.drop (p + off) = RequestPath.inner path ++ '_'.toUInt8 :: rest
    ∧ off + (RequestPath.inner path).length + 1 = (RequestPath.hierarchical path).text.length
  := by
  simp only [RequestPath.text, RequestPath.inner]
  cases path with
  | nil =>
    have h2 : byteAt buf (p + 2) = '_'.toUInt8 :=
      byteAt_of_drop (l := ['/'.toUInt8, '_'.toUInt8]) h rfl
    refine ⟨2, by rw [h2, if_neg (by decide)], ?_, rfl⟩
    apply drop_of_drop (l := ['/'.toUInt8, '_'.toUInt8]) h rfl
  | cons d path =>
    have h2 : byteAt buf (p + 2) = d :=
      byteAt_of_drop (l := ['/'.toUInt8, '_'.toUInt8]) (r := path ++ '_'.toUInt8 :: rest)
        (by rw [h]; simp [RequestPath.text]) rfl
    rw [h2, List.head?_cons]
    by_cases hd : d = '/'.toUInt8
    · refine ⟨3, if_pos hd, ?_, ?_⟩
      · rw [if_pos (by rw [hd]), List.tail_cons]
        apply drop_of_drop (l := ['/'.toUInt8, '_'.toUInt8, d]) _ rfl
        rw [h]
        simp [RequestPath.text]
      · rw [if_pos (by rw [hd])]
        simp
        omega
    · refine ⟨2, if_neg hd, ?_, ?_⟩
      · rw [if_neg (by simpa using hd)]
        apply drop_of_drop (l := ['/'.toUInt8, '_'.toUInt8]) _ rfl
        rw [h]
        simp [RequestPath.text]
      · rw [if_neg (by simpa using hd)]
        simp
        omega

theorem inner_zero {path : List UInt8} (hz : 0 ∉ path) :
  0 ∉ RequestPath.inner path
  := by
  rw [RequestPath.inner]
  split
  · exact fun h => hz (List.mem_of_mem_tail h)
  · exact hz

/-- A hierarchical path ends at its underscore when a slash follows. -/
theorem velyDecoratePath_slash {path rest : List UInt8} (pLen : Int)
    (hok : (RequestPath.hierarchical path).Ok)
    (h : buf.drop p = (RequestPath.hierarchical path).text ++ '/'.toUInt8 :: rest) :
  ∃ name q, q < p + (RequestPath.hierarchical path).text.length
    ∧ velyDecoratePath buf p pLen
      = .ok (.found (buf.set q 0) name (p + (RequestPath.hierarchical path).text.length))
  := by
  obtain ⟨off, hoff, hdrop, hlen⟩ := drop_inner h
  have h0 : byteAt buf p = '/'.toUInt8 := byteAt_of_drop (l := []) h rfl
  have h1 : byteAt buf (p + 1) = '_'.toUInt8 := byteAt_of_drop (l := ['/'.toUInt8]) h rfl
  have hall : ∀ c ∈ RequestPath.inner path, decide (c ≠ 0) = true := by
    intro c hc
    simp only [ne_eq, decide_eq_true_eq]
    rintro rfl
    exact inner_zero hok.1 hc
  have hstring : cstringAt buf (p + off) = RequestPath.inner path
      ++ '_'.toUInt8 :: '/'.toUInt8 :: rest.takeWhile (fun c => decide (c ≠ 0)) := by
    rw [cstringAt, hdrop, List.takeWhile_append_of_pos hall,
      List.takeWhile_cons_of_pos (by decide), List.takeWhile_cons_of_pos (by decide)]
  have hfind := find_closing (r := rest.takeWhile (fun c => decide (c ≠ 0))) hok.2
  rw [← hstring] at hfind
  have hend : p + (RequestPath.hierarchical path).text.length
      = p + off + (RequestPath.inner path).length + 1 := by
    omega
  rw [hend]
  refine ⟨decoratedName (cstringAt (buf.set (p + off + (RequestPath.inner path).length) 0) (p + off)),
    p + off + (RequestPath.inner path).length, by omega, ?_⟩
  rw [velyDecoratePath, h0, h1, if_neg (by simp)]
  simp only [hoff, hfind]

/-- A hierarchical path that no slash closes is closed by an underscore at the end of the path. -/
theorem velyDecoratePath_end {u : List UInt8} (pLen : Int) (hz : 0 ∉ u)
    (hfind : find id (ascii "_/") (RequestPath.inner u) = none)
    (h : buf.drop p = '/'.toUInt8 :: '_'.toUInt8 :: (u ++ 0 :: r)) :
  ∃ name, velyDecoratePath buf p pLen
    = if buf.length ≤ (p + pLen - 1).toNat then .error .fault
      else if byteAt buf (p + pLen - 1).toNat = '_'.toUInt8 then
        .ok (.found (buf.set (p + pLen - 1).toNat 0) name (p + pLen - 1).toNat)
      else .ok .unclosed
  := by
  have h0 : byteAt buf p = '/'.toUInt8 := byteAt_of_drop (l := []) h rfl
  have h1 : byteAt buf (p + 1) = '_'.toUInt8 := byteAt_of_drop (l := ['/'.toUInt8]) h rfl
  have hstring : cstringAt buf (p + if byteAt buf (p + 2) = '/'.toUInt8 then 3 else 2)
      = RequestPath.inner u := by
    cases u with
    | nil =>
      have h2 : byteAt buf (p + 2) = 0 :=
        byteAt_of_drop (l := ['/'.toUInt8, '_'.toUInt8]) h rfl
      rw [h2, if_neg (by decide)]
      apply cstringAt_of_drop (l := []) (r := r) _ hz
      apply drop_of_drop (l := ['/'.toUInt8, '_'.toUInt8]) h rfl
    | cons d u =>
      have h2 : byteAt buf (p + 2) = d :=
        byteAt_of_drop (l := ['/'.toUInt8, '_'.toUInt8]) (r := u ++ 0 :: r) h rfl
      rw [h2, RequestPath.inner, List.head?_cons]
      by_cases hd : d = '/'.toUInt8
      · rw [if_pos hd, if_pos (by rw [hd]), List.tail_cons]
        apply cstringAt_of_drop (r := r) _ (fun hu => hz (List.mem_cons_of_mem _ hu))
        apply drop_of_drop (l := ['/'.toUInt8, '_'.toUInt8, d]) _ rfl
        rw [h]
        rfl
      · rw [if_neg hd, if_neg (by simpa using hd)]
        apply cstringAt_of_drop (r := r) _ hz
        apply drop_of_drop (l := ['/'.toUInt8, '_'.toUInt8]) h rfl
  rw [velyDecoratePath, h0, h1, if_neg (by simp)]
  simp only [hstring, hfind]
  exact ⟨_, rfl⟩

end Decorate

/-! ### The parameters of a path -/

/-- The path that is taken apart. -/
def InputEnv.path (env : InputEnv) : List UInt8 :=
  removeSlash env.scriptName.bytes ++ env.pathInfo.bytes

/-- The path as far as there is memory for it. -/
def InputEnv.kept (env : InputEnv) : List UInt8 := env.path.take (maxPath - 1)

theorem writePath_path (env : InputEnv) (fullPath : List UInt8) :
  writePath fullPath env.path = env.kept ++ 0 :: fullPath.drop (env.kept.length + 1)
  := rfl

theorem strcasecmp_self (s : List UInt8) :
  strcasecmp s s = true
  := by
  simp [strcasecmp]

theorem length_of_strcasecmp {s t : List UInt8} (h : strcasecmp s t = true) :
  s.length = t.length
  := by
  rw [strcasecmp, decide_eq_true_eq] at h
  simpa using congrArg List.length h

section PathInput

variable {env : InputEnv} {fullPath name app rest : List UInt8} {request : RequestPath}

/-- The path starts with the path of the application, and behind it stands the rest of it. -/
theorem writePath_app {t : List UInt8} (hpath : env.kept = app ++ t)
    (happ : strcasecmp app env.applicationPath.bytes = true) :
  strcasecmp ((writePath fullPath env.path).take env.applicationPath.bytes.length)
      env.applicationPath.bytes = true
    ∧ (writePath fullPath env.path).drop env.applicationPath.bytes.length
      = t ++ 0 :: fullPath.drop (env.kept.length + 1)
  := by
  have hwrite : writePath fullPath env.path
      = app ++ (t ++ 0 :: fullPath.drop (env.kept.length + 1)) := by
    rw [writePath_path, ← List.append_assoc, ← hpath]
  rw [hwrite, ← length_of_strcasecmp happ, List.take_left, List.drop_left]
  exact ⟨happ, rfl⟩

/-- The parameters behind a segment that names the request. -/
theorem pathInput_plain {n t : List UInt8} {d : UInt8}
    (hpath : env.kept = app ++ '/'.toUInt8 :: (n ++ rest))
    (happ : strcasecmp app env.applicationPath.bytes = true) (hz : 0 ∉ n) (hs : '/'.toUInt8 ∉ n)
    (hhead : n ++ rest = d :: t) (hzero : d ≠ 0) (hunder : d ≠ '_'.toUInt8)
    (hquery : d ≠ '?'.toUInt8) (hrest : rest = [] ∨ ∃ r, rest = '/'.toUInt8 :: r) :
  ∃ (buf name' : List UInt8) (p : Nat) (r : List UInt8), buf.drop p = rest ++ 0 :: r
    ∧ pathInput env fullPath name
      = (pathLoop buf (buf.length + 1) (slashAt buf p)).map (fun ps => (ps, name'))
  := by
  obtain ⟨htake, hdrop⟩ := @writePath_app _ fullPath _ _ hpath happ
  set stale := fullPath.drop (env.kept.length + 1)
  obtain ⟨c, u, hc, hu⟩ : ∃ c u, (c = 0 ∨ c = '/'.toUInt8) ∧ rest ++ 0 :: stale = c :: u := by
    rcases hrest with rfl | ⟨r, rfl⟩
    · exact ⟨0, stale, .inl rfl, rfl⟩
    · exact ⟨'/'.toUInt8, r ++ 0 :: stale, .inr rfl, rfl⟩
  have hfirst : (writePath fullPath env.path).drop env.applicationPath.bytes.length
      = '/'.toUInt8 :: d :: (t ++ 0 :: stale) := by
    rw [hdrop, hhead]
    rfl
  have hsegment : (writePath fullPath env.path).drop (env.applicationPath.bytes.length + 1)
      = n ++ c :: u := by
    rw [← hu]
    apply drop_of_drop (l := ['/'.toUInt8]) _ rfl
    rw [hdrop]
    simp
  have h0 : byteAt (writePath fullPath env.path) env.applicationPath.bytes.length = '/'.toUInt8 :=
    byteAt_of_drop (l := []) hfirst rfl
  have h1 : byteAt (writePath fullPath env.path) (env.applicationPath.bytes.length + 1) = d :=
    byteAt_of_drop (l := ['/'.toUInt8]) hfirst rfl
  have hdef : removeSlash env.scriptName.bytes ++ env.pathInfo.bytes = env.path := rfl
  refine ⟨_, (pathSegment (writePath fullPath env.path)
    (env.applicationPath.bytes.length + 1)).map hyphenToUnderscore, _, stale,
    (drop_of_drop hsegment rfl).trans hu.symm, ?_⟩
  simp only [pathInput, hdef, htake, if_true]
  rw [if_neg (by simp [h0, h1, hzero, hquery]), velyDecoratePath_plain _ hfirst hunder, liftM_ok,
    ok_bind]
  simp only [nextSlash_of_drop hsegment hz hs hc]
  cases pathLoop (writePath fullPath env.path) ((writePath fullPath env.path).length + 1)
    (slashAt (writePath fullPath env.path)
      (env.applicationPath.bytes.length + 1 + n.length)) <;> rfl

/-- A slash behind the name of the request is where its parameters are looked for. -/
theorem pathInput_request (hok : request.Ok)
    (hpath : env.kept = app ++ (request.text ++ rest))
    (happ : strcasecmp app env.applicationPath.bytes = true)
    (hrest : rest = [] ∨ ∃ r, rest = '/'.toUInt8 :: r)
    (hclosed : (∃ n, request = .plain n) ∨ rest ≠ []) :
  ∃ (buf name' : List UInt8) (p : Nat) (r : List UInt8), buf.drop p = rest ++ 0 :: r
    ∧ pathInput env fullPath name
      = (pathLoop buf (buf.length + 1) (slashAt buf p)).map (fun ps => (ps, name'))
  := by
  cases request with
  | plain n =>
    obtain ⟨hne, hz, hs, hunder, hquery⟩ := hok
    obtain ⟨d, n, rfl⟩ := List.exists_cons_of_ne_nil hne
    have hzero : d ≠ 0 := by
      rintro rfl
      exact hz List.mem_cons_self
    exact pathInput_plain hpath happ hz hs rfl hzero (by simpa using hunder) (by simpa using hquery)
      hrest
  | hierarchical path =>
    have hne : rest ≠ [] := by
      rcases hclosed with ⟨n, hn⟩ | hne
      · cases hn
      · exact hne
    obtain ⟨r, rfl⟩ := hrest.resolve_left hne
    obtain ⟨htake, hdrop⟩ := @writePath_app _ fullPath _ _ hpath happ
    set stale := fullPath.drop (env.kept.length + 1)
    rw [List.append_assoc, List.cons_append] at hdrop
    have hdef : removeSlash env.scriptName.bytes ++ env.pathInfo.bytes = env.path := rfl
    obtain ⟨name', q, hq, hdecorate⟩ := velyDecoratePath_slash
      (env.path.length - env.applicationPath.bytes.length) hok hdrop
    have h0 : byteAt (writePath fullPath env.path) env.applicationPath.bytes.length = '/'.toUInt8 :=
      byteAt_of_drop (l := []) hdrop rfl
    have h1 : byteAt (writePath fullPath env.path) (env.applicationPath.bytes.length + 1)
        = '_'.toUInt8 := byteAt_of_drop (l := ['/'.toUInt8]) hdrop rfl
    have hset : ((writePath fullPath env.path).set q 0).drop
        (env.applicationPath.bytes.length + (RequestPath.hierarchical path).text.length)
        = '/'.toUInt8 :: r ++ 0 :: stale := by
      rw [List.drop_set_of_lt hq]
      apply drop_of_drop hdrop rfl
    refine ⟨_, name', _, stale, hset, ?_⟩
    have hzero : '_'.toUInt8 ≠ 0 := by decide
    have hquery : '_'.toUInt8 ≠ '?'.toUInt8 := by decide
    simp only [pathInput, hdef, htake, if_true]
    rw [if_neg (by simp [h0, h1, hzero, hquery]), hdecorate, liftM_ok, ok_bind,
      slashAt_of_slash hset]
    simp only
    cases pathLoop ((writePath fullPath env.path).set q 0)
      (((writePath fullPath env.path).set q 0).length + 1)
      (some (env.applicationPath.bytes.length + (RequestPath.hierarchical path).text.length)) <;> rfl

/-- Behind a hierarchical path that no slash closes, a parameter is looked for at the end of the
string; there is none where the path was cut. -/
theorem pathInput_unclosed {u : List UInt8} (hmem : fullPath.length = maxPath)
    (hpath : env.kept = app ++ ('/'.toUInt8 :: '_'.toUInt8 :: u))
    (happ : strcasecmp app env.applicationPath.bytes = true) (hz : 0 ∉ u)
    (hfind : find id (ascii "_/") (RequestPath.inner u) = none) {ps : List InputParam}
    {name' : List UInt8} (h : pathInput env fullPath name = .ok (ps, name')) :
  ps = [⟨toCString [], toCString (ascii "true")⟩] ∧ env.path.length < maxPath
  := by
  obtain ⟨htake, hdrop⟩ := @writePath_app _ fullPath _ _ hpath happ
  have hdrop' := hdrop
  rw [List.cons_append, List.cons_append] at hdrop'
  obtain ⟨name'', hdecorate⟩ := velyDecoratePath_end
    (env.path.length - env.applicationPath.bytes.length) hz hfind hdrop'
  have h0 : byteAt (writePath fullPath env.path) env.applicationPath.bytes.length = '/'.toUInt8 :=
    byteAt_of_drop (l := []) hdrop' rfl
  have h1 : byteAt (writePath fullPath env.path) (env.applicationPath.bytes.length + 1)
      = '_'.toUInt8 := byteAt_of_drop (l := ['/'.toUInt8]) hdrop' rfl
  have hdef : removeSlash env.scriptName.bytes ++ env.pathInfo.bytes = env.path := rfl
  have hzero : '_'.toUInt8 ≠ 0 := by decide
  have hquery : '_'.toUInt8 ≠ '?'.toUInt8 := by decide
  have hlast : (env.applicationPath.bytes.length
      + (env.path.length - env.applicationPath.bytes.length : Int) - 1).toNat
      = env.path.length - 1 := by omega
  simp only [pathInput, hdef, htake, if_true] at h
  rw [if_neg (by simp [h0, h1, hzero, hquery]), hdecorate, hlast] at h
  have hlen := congrArg List.length hpath
  rw [List.length_append, List.length_cons, List.length_cons,
    length_of_strcasecmp happ] at hlen
  have hlen' : env.kept.length ≤ maxPath - 1 := by
    rw [InputEnv.kept, List.length_take]
    omega
  have hwrite : (writePath fullPath env.path).length = maxPath := by
    rw [writePath_path, List.length_append, List.length_cons, List.length_drop, hmem]
    rw [maxPath] at hlen' ⊢
    omega
  by_cases hcut : env.path.length < maxPath
  · refine ⟨?_, hcut⟩
    have hkept : env.kept = env.path := List.take_of_length_le (by omega)
    have hne : env.path ≠ [] := by
      intro hnil
      rw [hkept, hnil, List.length_nil] at hlen
      omega
    -- the byte that is overwritten is the last one of the path, and behind it is the terminator
    obtain ⟨stale, hset⟩ : ∃ stale,
        ((writePath fullPath env.path).set (env.path.length - 1) 0).drop (env.path.length - 1)
          = 0 :: 0 :: stale := by
      refine ⟨fullPath.drop (env.kept.length + 1), ?_⟩
      have hwrite' : writePath fullPath env.path
          = env.path.dropLast
            ++ env.path.getLast hne :: 0 :: fullPath.drop (env.kept.length + 1) := by
        rw [List.append_cons env.path.dropLast, List.dropLast_append_getLast, writePath_path,
          hkept]
      have hinit : env.path.length - 1 = env.path.dropLast.length := by simp
      rw [hwrite', hinit, List.set_append_right _ _ (le_refl _), Nat.sub_self, List.drop_left]
      rfl
    have hloop := @pathLoop_slash _ _ _ _
      ((writePath fullPath env.path).set (env.path.length - 1) 0).length hset
    split at h
    · cases h
    · split at h
      · rw [liftM_ok, ok_bind] at h
        simp only [hloop] at h
        exact (Prod.mk.inj (Except.ok.inj h)).1.symm
      · cases h
  · exfalso
    rw [hwrite] at h
    split at h
    · cases h
    · -- the path was cut, and at its last byte is the terminator
      have hend : env.path.length - 1 = env.kept.length := by
        rw [InputEnv.kept, List.length_take]
        omega
      have hbyte : byteAt (writePath fullPath env.path) (env.path.length - 1) = 0 := by
        apply byteAt_of_drop (p := 0) (l := env.kept) (r := fullPath.drop (env.kept.length + 1)) rfl
        omega
      rw [hbyte, if_neg (by decide)] at h
      cases h

theorem length_le_pairsText (pairs : List (PairStyle × InputParam)) :
  pairs.length ≤ (pairsText pairs).length
  := by
  induction pairs with
  | nil => simp
  | cons q qs ih =>
    simp only [pairsText, List.flatMap_cons, List.length_append, List.length_cons, pairText]
      at ih ⊢
    omega

/-- The parameters of a path, and what is read of the text `u` behind them. -/
theorem pathInput_pairs {pairs : List (PairStyle × InputParam)} {u : List UInt8}
    {extra : List InputParam} (hok : request.Ok) (hpairs : ∀ q ∈ pairs, IsPair q.2)
    (hpath : env.kept = app ++ (request.text ++ (pairsText pairs ++ u)))
    (happ : strcasecmp app env.applicationPath.bytes = true)
    (hu : u = [] ∨ ∃ r, u = '/'.toUInt8 :: r)
    (hextra : ∀ (buf r : List UInt8) (p b : Nat), buf.drop p = u ++ 0 :: r →
      pathLoop buf (b + 1) (slashAt buf p) = .ok extra)
    (hclosed : (∃ n, request = .plain n) ∨ pairs ≠ [] ∨ u ≠ []) :
  ∃ name', pathInput env fullPath name = .ok (pairs.map Prod.snd ++ extra, name')
  := by
  have hrest : pairsText pairs ++ u = [] ∨ ∃ r, pairsText pairs ++ u = '/'.toUInt8 :: r := by
    cases pairs with
    | nil => exact hu
    | cons q qs => exact .inr ⟨_, rfl⟩
  have hclosed' : (∃ n, request = .plain n) ∨ pairsText pairs ++ u ≠ [] := by
    refine hclosed.imp_right ?_
    rintro (h | h) hnil
    · cases pairs with
      | nil => exact h rfl
      | cons q qs => cases hnil
    · exact h (List.append_eq_nil_iff.mp hnil).2
  obtain ⟨buf, name', p, r, hdrop, hinput⟩ :=
    @pathInput_request _ fullPath name _ _ _ hok hpath happ hrest hclosed'
  obtain ⟨c, t, hc, ht⟩ : ∃ c t, (c = 0 ∨ c = '/'.toUInt8) ∧ u ++ 0 :: r = c :: t := by
    rcases hu with rfl | ⟨s, rfl⟩
    · exact ⟨0, r, .inl rfl, rfl⟩
    · exact ⟨'/'.toUInt8, s ++ 0 :: r, .inr rfl, rfl⟩
  have hdrop' : buf.drop p = pairsText pairs ++ c :: t := by
    rw [hdrop, List.append_assoc, ht]
  have hbound : pairs.length ≤ buf.length := by
    have hl := congrArg List.length hdrop'
    have hsum := length_le_pairsText pairs
    simp only [List.length_drop, List.length_append, List.length_cons] at hl
    omega
  have hend : buf.drop (p + (pairsText pairs).length) = u ++ 0 :: r := by
    rw [ht]
    apply drop_of_drop hdrop' rfl
  obtain ⟨b, hb⟩ : ∃ b, buf.length + 1 - pairs.length = b + 1 :=
    ⟨buf.length - pairs.length, by omega⟩
  use name'
  rw [hinput, pathLoop_pairs hpairs (by omega) hdrop' hc, hb, hextra buf r _ b hend]
  rfl

end PathInput

end Vely
