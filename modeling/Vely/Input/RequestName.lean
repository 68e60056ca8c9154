import Vely.Input.Decorate
import Mathlib.Data.List.Chain

/-!
# The name of a hierarchical request

A path of segments gives one name where it is part of a request and where it is part of a
`request-handler` statement, when the name has two bytes less than its memory.  A longer name is
cut.
-/

namespace Vely

/-! ### Paths of segments -/

/-- A segment is made of letters, digits, hyphens and underscores, and has a letter or a digit at
its ends. -/
structure IsPathSegment (s : List UInt8) : Prop where
  chars : ∀ c ∈ s, isNameChar true c = true
  first : ∃ c r, s = c :: r ∧ isalnum c = true
  last : ∃ r c, s = r ++ [c] ∧ isalnum c = true

/-- A path of one or more segments. -/
structure SegmentPath where
  segments : List (List UInt8)
  nonempty : segments ≠ []
  valid : ∀ s ∈ segments, IsPathSegment s

/-- The bytes of a name for one of a path: two underscores for a slash, one for a hyphen. -/
def pathBytes (c : UInt8) : List UInt8 :=
  if c = '/'.toUInt8 then ['_'.toUInt8, '_'.toUInt8] else [hyphenToUnderscore c]

namespace SegmentPath

/-- The segments, with slashes between them. -/
def text (P : SegmentPath) : List UInt8 := ['/'.toUInt8].intercalate P.segments

/-- The name of the request. -/
def requestName (P : SegmentPath) : List UInt8 := P.text.flatMap pathBytes

end SegmentPath

/-- There is no underscore before a slash. -/
theorem find_closing_eq_none {t : List UInt8} :
  find id (ascii "_/") t = none
    ↔ t.IsChain (fun a b => ¬ (a = '_'.toUInt8 ∧ b = '/'.toUInt8))
  := by
  induction t with
  | nil => simp [find, ascii]
  | cons c t ih =>
    rw [find_closing_cons, List.isChain_cons, ← ih]
    cases t with
    | nil => simp
    | cons d t =>
      by_cases h : c = '_'.toUInt8 ∧ d = '/'.toUInt8
      · rw [if_pos (by simpa using h)]
        simp [h]
      · rw [if_neg (by simpa using h)]
        simp only [Option.map_eq_none_iff, List.head?_cons, Option.mem_def, Option.some.injEq,
          forall_eq']
        exact ⟨fun h' => ⟨h, h'⟩, fun h' => h'.2⟩

/-- What is known of the text of a path. -/
structure IsPathText (t : List UInt8) : Prop where
  zero : 0 ∉ t
  closing : t.IsChain (fun a b => ¬ (a = '_'.toUInt8 ∧ b = '/'.toUInt8))
  first : ∃ c r, t = c :: r ∧ isalnum c = true
  last : ∃ r c, t = r ++ [c] ∧ isalnum c = true

section Text

variable {s t : List UInt8}

theorem ne_of_isNameChar_slash {c : UInt8} (h : isNameChar true c = true) :
  c ≠ '/'.toUInt8 ∧ c ≠ 0
  := by
  constructor
  · rintro rfl
    exact absurd h (by decide)
  · rintro rfl
    exact absurd h (by decide)

theorem ne_of_isalnum {c : UInt8} (h : isalnum c = true) :
  c ≠ '_'.toUInt8 ∧ c ≠ '/'.toUInt8
  := by
  constructor
  · rintro rfl
    exact absurd h (by decide)
  · rintro rfl
    exact absurd h (by decide)

theorem IsPathSegment.isPathText (h : IsPathSegment s) :
  IsPathText s
  := by
  refine ⟨fun hz => (ne_of_isNameChar_slash (h.chars 0 hz)).2 rfl, ?_, h.first, h.last⟩
  have hs := h.chars
  clear h
  induction s with
  | nil => apply List.IsChain.nil
  | cons c s ih =>
    rw [List.isChain_cons]
    constructor
    · rintro d hd ⟨-, rfl⟩
      have hmem : '/'.toUInt8 ∈ c :: s := List.mem_cons_of_mem c (List.mem_of_mem_head? hd)
      exact (ne_of_isNameChar_slash (hs _ hmem)).1 rfl
    · apply ih
      intro d hd
      apply hs d (List.mem_cons_of_mem c hd)

/-- Behind a path there may be a slash. -/
theorem IsPathText.isChain_append (h : IsPathText s)
    (ht : t.IsChain (fun a b => ¬ (a = '_'.toUInt8 ∧ b = '/'.toUInt8))) :
  (s ++ t).IsChain (fun a b => ¬ (a = '_'.toUInt8 ∧ b = '/'.toUInt8))
  := by
  rw [List.isChain_append]
  refine ⟨h.closing, ht, ?_⟩
  rintro c hc d - ⟨rfl, -⟩
  obtain ⟨r, e, rfl, he⟩ := h.last
  rw [List.getLast?_concat, Option.mem_some_iff] at hc
  exact (ne_of_isalnum he).1 hc

/-- Two paths with a slash between them are a path. -/
theorem IsPathText.append (hs : IsPathText s) (ht : IsPathText t) :
  IsPathText (s ++ '/'.toUInt8 :: t)
  := by
  refine ⟨?_, hs.isChain_append ?_, ?_, ?_⟩
  · simp only [List.mem_append, List.mem_cons (a := 0) (b := '/'.toUInt8), not_or]
    exact ⟨hs.zero, by decide, ht.zero⟩
  · rw [List.isChain_cons]
    refine ⟨?_, ht.closing⟩
    rintro e - ⟨h, -⟩
    exact absurd h (by decide)
  · obtain ⟨c, r, rfl, hc⟩ := hs.first
    exact ⟨c, r ++ '/'.toUInt8 :: t, rfl, hc⟩
  · obtain ⟨r, c, rfl, hc⟩ := ht.last
    exact ⟨s ++ '/'.toUInt8 :: r, c, by simp, hc⟩

theorem SegmentPath.isPathText (P : SegmentPath) :
  IsPathText P.text
  := by
  obtain ⟨segments, nonempty, valid⟩ := P
  rw [SegmentPath.text]
  simp only
  induction segments with
  | nil => exact absurd rfl nonempty
  | cons s ss ih =>
    have hs : IsPathText s := (valid s (by simp)).isPathText
    cases ss with
    | nil =>
      rw [List.intercalate_singleton]
      exact hs
    | cons s' ss =>
      rw [List.intercalate_cons_cons, List.append_assoc, List.singleton_append]
      apply hs.append
      apply ih (by simp)
      intro t ht
      apply valid t (List.mem_cons_of_mem s ht)

end Text

/-! ### The bound on a name -/

section Bound

variable {s t res : List UInt8}

theorem decorateLoop_full (h : ¬ res.length ≤ maxReqNameLen - 3) :
  decorateLoop t res = res
  := by
  cases t with
  | nil => rfl
  | cons c t => rw [decorateLoop, if_neg h]

theorem decorateLoop_cons {c : UInt8} (h : res.length ≤ maxReqNameLen - 3) :
  decorateLoop (c :: t) res = decorateLoop t (res ++ pathBytes c)
  := by
  rw [decorateLoop, if_pos h, pathBytes]
  split <;> rfl

theorem decorateLoop_append :
  decorateLoop (s ++ t) res = decorateLoop t (decorateLoop s res)
  := by
  induction s generalizing res with
  | nil => rfl
  | cons c s ih =>
    rw [List.cons_append]
    by_cases h : res.length ≤ maxReqNameLen - 3
    · rw [decorateLoop_cons h, decorateLoop_cons h, ih]
    · rw [decorateLoop_full h, decorateLoop_full h, decorateLoop_full h]

theorem pathBytes_ne_nil (c : UInt8) :
  pathBytes c ≠ []
  := by
  rw [pathBytes]
  split <;> simp

/-- A name that fits is that of the path. -/
theorem decorateLoop_eq (h : (res ++ t.flatMap pathBytes).length ≤ maxReqNameLen - 2) :
  decorateLoop t res = res ++ t.flatMap pathBytes
  := by
  induction t generalizing res with
  | nil => simp [decorateLoop]
  | cons c t ih =>
    have hpos := List.length_pos_iff.mpr (pathBytes_ne_nil c)
    rw [List.flatMap_cons, ← List.append_assoc] at h ⊢
    rw [decorateLoop_cons, ih h]
    simp only [List.length_append] at h
    omega

/-- What is written has at most one byte less than the memory, and then it ends with two
underscores. -/
theorem decorateLoop_bound (h : res.length ≤ maxReqNameLen - 2
      ∨ res.length = maxReqNameLen - 1 ∧ ['_'.toUInt8, '_'.toUInt8].isSuffixOf res = true) :
  (decorateLoop t res).length ≤ maxReqNameLen - 2
    ∨ (decorateLoop t res).length = maxReqNameLen - 1
      ∧ ['_'.toUInt8, '_'.toUInt8].isSuffixOf (decorateLoop t res) = true
  := by
  have hmax : maxReqNameLen = 256 := rfl
  induction t generalizing res with
  | nil => exact h
  | cons c t ih =>
    by_cases hle : res.length ≤ maxReqNameLen - 3
    · rw [decorateLoop_cons hle]
      apply ih
      rw [pathBytes]
      split
      · have hlen : (res ++ ['_'.toUInt8, '_'.toUInt8]).length = res.length + 2 := by simp
        rw [hlen]
        rcases Nat.lt_or_ge res.length (maxReqNameLen - 3) with hlt | hge
        · left
          omega
        · right
          constructor
          · omega
          · rw [List.isSuffixOf_iff_suffix]
            exact List.suffix_append _ _
      · left
        have hlen : (res ++ [hyphenToUnderscore c]).length = res.length + 1 := by simp
        omega
    · rw [decorateLoop_full hle]
      exact h

/-- A name has at most two bytes less than its memory. -/
theorem length_decoratedName_le (t : List UInt8) :
  (decoratedName t).length ≤ maxReqNameLen - 2
  := by
  have hmax : maxReqNameLen = 256 := rfl
  have hbound := @decorateLoop_bound t [] (by simp)
  rw [decoratedName]
  split
  · rw [List.length_take]
    omega
  · next hsuffix =>
    rcases hbound with h | ⟨-, h⟩
    · exact h
    · exact absurd h hsuffix

/-- The name of a path does not end with an underscore. -/
theorem IsPathText.not_isSuffixOf (ht : IsPathText t) :
  ¬ ['_'.toUInt8, '_'.toUInt8].isSuffixOf (t.flatMap pathBytes) = true
  := by
  obtain ⟨r, c, rfl, hc⟩ := ht.last
  have hbytes : pathBytes c = [c] := by
    have hne : c ≠ '-'.toUInt8 := by
      rintro rfl
      exact absurd hc (by decide)
    rw [pathBytes, if_neg (ne_of_isalnum hc).2, hyphenToUnderscore, if_neg hne]
  rw [List.isSuffixOf_iff_suffix, List.flatMap_append, List.flatMap_singleton, hbytes]
  rintro ⟨u, hu⟩
  have hlast := congrArg List.getLast? hu
  rw [List.getLast?_concat, List.getLast?_append_cons] at hlast
  exact (ne_of_isalnum hc).1 (Option.some.inj hlast).symm

/-- The name of a path that fits is that of the path. -/
theorem decoratedName_eq (ht : IsPathText t)
    (h : (t.flatMap pathBytes).length ≤ maxReqNameLen - 2) :
  decoratedName t = t.flatMap pathBytes
  := by
  have hloop : decorateLoop t [] = t.flatMap pathBytes := by
    rw [decorateLoop_eq h, List.nil_append]
  rw [decoratedName, hloop, if_neg ht.not_isSuffixOf]

/-- A slash at the end of a path is not in its name. -/
theorem decoratedName_slash (ht : IsPathText t)
    (h : (t.flatMap pathBytes).length ≤ maxReqNameLen - 2) :
  decoratedName (t ++ ['/'.toUInt8]) = t.flatMap pathBytes
  := by
  have hloop : decorateLoop t [] = t.flatMap pathBytes := by
    rw [decorateLoop_eq h, List.nil_append]
  rw [decoratedName, decorateLoop_append, hloop]
  by_cases hle : (t.flatMap pathBytes).length ≤ maxReqNameLen - 3
  · have hsuffix : ['_'.toUInt8, '_'.toUInt8].isSuffixOf
        (t.flatMap pathBytes ++ ['_'.toUInt8, '_'.toUInt8]) = true := by
      rw [List.isSuffixOf_iff_suffix]
      exact List.suffix_append _ _
    have hslash : pathBytes '/'.toUInt8 = ['_'.toUInt8, '_'.toUInt8] := rfl
    rw [decorateLoop_cons hle, decorateLoop, hslash, if_pos hsuffix]
    simp
  · rw [decorateLoop_full hle, if_neg ht.not_isSuffixOf]

end Bound

/-! ### The forms of a path -/

/-- The ways to write a path: with underscores at its ends, between segments that are an underscore
alone, or as in a `request-handler` statement. -/
inductive PathForm where
  | underscores
  | segments
  | handler

namespace PathForm

/-- `is_dash` -/
def isDash : PathForm → Bool
  | underscores | segments => true
  | handler => false

/-- What is before the path. -/
def front : PathForm → List UInt8
  | underscores => ascii "/_"
  | segments => ascii "/_/"
  | handler => ascii "/"

/-- What is between the path and the rest. -/
def back : PathForm → List UInt8
  | underscores => ascii "_"
  | segments => ascii "/_"
  | handler => []

/-- What follows: the parameters of a request. -/
def rest (form : PathForm) (params : List UInt8) : List UInt8 :=
  if form.isDash then '/'.toUInt8 :: params else []

/-- A path in this form. -/
def text (form : PathForm) (P : SegmentPath) (params : List UInt8) : List UInt8 :=
  form.front ++ P.text ++ form.back ++ form.rest params

end PathForm

/-- In every form and anywhere in memory, the path has its name when there is memory for the name,
and no other one; what follows the path is left. -/
def SegmentPath.NamesRequest (P : SegmentPath) : Prop :=
  ∀ (form : PathForm) (params : CString) (path reqname : Block) (l r : List (Option UInt8)),
    path.cells = l ++ ((form.text P params.bytes).map some ++ some 0 :: r) →
    reqname.cells.length = maxReqNameLen →
    ∃ d, velyDecorate reqname path l.length (form.text P params.bytes).length form.isDash = .ok d
      ∧ d.reqname.cells.length = maxReqNameLen
      ∧ (P.requestName.length < maxReqNameLen → d.res = .found ∧
        ∃ s, d.path.string d.p = .ok s ∧ s.bytes = form.rest params.bytes
          ∧ d.p + s.length = l.length + (form.text P params.bytes).length)
      ∧ (d.res = .found → ∃ name, d.reqname.string 0 = .ok name ∧ name.bytes = P.requestName)

section Forms

variable {P : SegmentPath} {params : CString} {path reqname : Block} {l r : List (Option UInt8)}

/-- A path that is closed is found, with its name. -/
theorem velyDecorate_closed {front t params : List UInt8} (pLen : Int)
    (hpath : path.cells = l ++ ((ascii "/_" ++ front ++ t ++ ascii "_/" ++ params).map some
      ++ some 0 :: r))
    (hoff : scanOffset path l.length 2 = .ok (2 + front.length)) (hz : 0 ∉ t) (hp : 0 ∉ params)
    (ht : find id (ascii "_/") t = none) (hname : reqname.cells.length = maxReqNameLen) :
  ∃ d name s, velyDecorate reqname path l.length pLen true = .ok d
    ∧ d.reqname.cells.length = maxReqNameLen ∧ d.res = .found
    ∧ d.path.string d.p = .ok s ∧ s.bytes = '/'.toUInt8 :: params
    ∧ d.p = l.length + (2 + front.length + t.length + 1)
    ∧ d.reqname.string 0 = .ok name ∧ name.bytes = decoratedName t
  := by
  have h0 : path.get l.length = .ok '/'.toUInt8 := by
    apply Block.get_of_cells (l := l)
      (r := ('_'.toUInt8 :: front ++ t ++ ascii "_/" ++ params).map some ++ some 0 :: r) _ rfl
    rw [hpath]
    rfl
  have h1 : path.get (l.length + 1) = .ok '_'.toUInt8 := by
    apply Block.get_of_cells (l := l ++ [some '/'.toUInt8])
      (r := (front ++ t ++ ascii "_/" ++ params).map some ++ some 0 :: r) _ (by simp)
    rw [hpath]
    simp [ascii]
  have hl : l.length + (2 + front.length) = (l ++ (ascii "/_" ++ front).map some).length := by
    simp [ascii]
    omega
  have hend : pathEnd path l.length pLen true (2 + front.length)
      = .ok (some (l.length + (2 + front.length) + t.length, 1)) := by
    have hs : 0 ∉ t ++ '_'.toUInt8 :: '/'.toUInt8 :: params := by
      simp only [List.mem_append, List.mem_cons, not_or]
      exact ⟨hz, by decide, by decide, hp⟩
    have hstring : path.string (l.length + (2 + front.length)) = .ok ⟨_, hs⟩ := by
      apply Block.string_of_cells (l := l ++ (ascii "/_" ++ front).map some) (r := r) _ _ hl
      rw [hpath]
      simp [ascii]
    rw [pathEnd, hstring, ok_bind]
    simp only
    rw [find_closing ht]
    rfl
  have hcells : path.cells = (l ++ (ascii "/_" ++ front).map some) ++ t.map some
      ++ some '_'.toUInt8 :: (('/'.toUInt8 :: params).map some ++ some 0 :: r) := by
    rw [hpath]
    simp [ascii]
  obtain ⟨reqname', name, hfound, hlen, hstring, hbytes⟩ :=
    decorateFrom_found hoff hend hcells hl hz hname
  have hs : 0 ∉ '/'.toUInt8 :: params := by
    simp only [List.mem_cons, not_or]
    exact ⟨by decide, hp⟩
  have hfrom : velyDecorate reqname path l.length pLen true
      = decorateFrom reqname path l.length pLen true 2 := by
    rw [velyDecorate, h0, ok_bind, if_pos rfl, if_neg (by simp), h1, ok_bind, if_neg (by simp)]
  refine ⟨_, name, ⟨'/'.toUInt8 :: params, hs⟩, hfrom.trans hfound, hlen, rfl, ?_, rfl, ?_, hstring,
    hbytes⟩
  · apply Block.string_of_cells (l := (l ++ (ascii "/_" ++ front).map some) ++ t.map some ++ [some 0])
      (r := r)
    · simp
    · simp [ascii]
      omega
  · simp only
    omega

/-- A path in a statement is found, with its name. -/
theorem velyDecorate_handler {t : List UInt8} (ht : IsPathText t)
    (hpath : path.cells = l ++ (('/'.toUInt8 :: t).map some ++ some 0 :: r))
    (hname : reqname.cells.length = maxReqNameLen) :
  ∃ d name, velyDecorate reqname path l.length (t.length + 1) false = .ok d
    ∧ d.reqname.cells.length = maxReqNameLen ∧ d.res = .found
    ∧ d.path.string d.p = .ok CString.empty ∧ d.p = l.length + (t.length + 1)
    ∧ d.reqname.string 0 = .ok name ∧ name.bytes = decoratedName t
  := by
  obtain ⟨c, first, hfirst, hc⟩ := ht.first
  obtain ⟨init, e, hlast, he⟩ := ht.last
  have h0 : path.get l.length = .ok '/'.toUInt8 := by
    apply Block.get_of_cells (l := l) (r := t.map some ++ some 0 :: r) _ rfl
    rw [hpath]
    rfl
  have h1 : path.get (l.length + 1) = .ok c := by
    apply Block.get_of_cells (l := l ++ [some '/'.toUInt8]) (r := first.map some ++ some 0 :: r) _
      (by simp)
    rw [hpath, hfirst]
    simp
  have hinit : t.length = init.length + 1 := by
    rw [hlast]
    simp
  have hend : path.get ((l.length : Int) + (t.length + 1) - 1).toNat = .ok e := by
    apply Block.get_of_cells (l := l ++ ('/'.toUInt8 :: init).map some) (r := some 0 :: r)
    · rw [hpath, hlast]
      simp
    · simp
      omega
  have hl : l.length + 1 = (l ++ [some '/'.toUInt8]).length := by simp
  have hcells : path.cells = (l ++ [some '/'.toUInt8]) ++ (t.map some ++ some 0 :: r) := by
    rw [hpath]
    simp
  have hpathEnd : pathEnd path l.length (t.length + 1) false 1
      = .ok (some (l.length + 1 + t.length, 0)) := by
    rw [pathEnd, Block.string_of_cells ⟨t, ht.zero⟩ hcells hl, ok_bind,
      find_closing_eq_none.mpr ht.closing]
    simp only
    rw [if_neg (by omega), hend, ok_bind, if_neg (ne_of_isalnum he).1]
    rw [if_neg (by simp)]
    have hpos : ((l.length : Int) + (t.length + 1)).toNat = l.length + 1 + t.length := by
      omega
    rw [hpos]
    rfl
  rw [← List.append_assoc] at hcells
  have hoff : scanOffset path l.length 1 = .ok 1 := rfl
  obtain ⟨reqname', name, hfound, hlen, hstring, hbytes⟩ :=
    decorateFrom_found hoff hpathEnd hcells hl ht.zero hname
  have hfrom : velyDecorate reqname path l.length (t.length + 1) false
      = decorateFrom reqname path l.length (t.length + 1) false 1 := by
    rw [velyDecorate, h0, ok_bind, if_neg (by simp), if_neg (by simp), h1, ok_bind,
      if_neg (ne_of_isalnum hc).1]
  refine ⟨_, name, hfrom.trans hfound, hlen, rfl, ?_, ?_, hstring, hbytes⟩
  · apply Block.string_of_cells (l := (l ++ [some '/'.toUInt8]) ++ t.map some) (r := r)
    · rfl
    · simp
      omega
  · simp only
    omega

/-- The path is found, whatever its form, with the name of the path or of the path and a slash. -/
theorem velyDecorate_form {form : PathForm}
    (hpath : path.cells = l ++ ((form.text P params.bytes).map some ++ some 0 :: r))
    (hname : reqname.cells.length = maxReqNameLen) :
  ∃ d name s, velyDecorate reqname path l.length (form.text P params.bytes).length form.isDash = .ok d
    ∧ d.reqname.cells.length = maxReqNameLen ∧ d.res = .found
    ∧ d.path.string d.p = .ok s ∧ s.bytes = form.rest params.bytes
    ∧ d.p + s.length = l.length + (form.text P params.bytes).length
    ∧ d.reqname.string 0 = .ok name
    ∧ (name.bytes = decoratedName P.text ∨ name.bytes = decoratedName (P.text ++ ['/'.toUInt8]))
  := by
  have hP := P.isPathText
  obtain ⟨c, first, hfirst, hc⟩ := hP.first
  cases form with
  | underscores =>
    have hget : path.get (l.length + 2) = .ok c := by
      apply Block.get_of_cells (l := l ++ (ascii "/_").map some)
        (r := (first ++ '_'.toUInt8 :: '/'.toUInt8 :: params.bytes).map some ++ some 0 :: r)
      · rw [hpath, PathForm.text, hfirst]
        simp [ascii, PathForm.front, PathForm.back, PathForm.rest, PathForm.isDash]
      · simp [ascii]
    have hoff : scanOffset path l.length 2 = .ok (2 + ([] : List UInt8).length) := by
      rw [scanOffset, if_pos rfl, hget]
      change Except.ok (if c = '/'.toUInt8 then 3 else 2) = _
      rw [if_neg (ne_of_isalnum hc).2]
      rfl
    have hform : PathForm.underscores.text P params.bytes
        = ascii "/_" ++ [] ++ P.text ++ ascii "_/" ++ params.bytes := by
      simp [PathForm.text, ascii, PathForm.front, PathForm.back, PathForm.rest, PathForm.isDash]
    have hlength := congrArg List.length hform
    rw [hform] at hpath
    obtain ⟨d, name, s, hd, hlen, hres, hs, hbytes, hp, hrest⟩ := velyDecorate_closed
      (PathForm.underscores.text P params.bytes).length hpath hoff hP.zero params.nonzero
      (find_closing_eq_none.mpr hP.closing) hname
    refine ⟨d, name, s, hd, hlen, hres, hs, hbytes, ?_, hrest.1, Or.inl hrest.2⟩
    rw [hlength, hp, CString.length, hbytes]
    simp [ascii]
    omega
  | segments =>
    have hoff : scanOffset path l.length 2 = .ok (2 + ['/'.toUInt8].length) := by
      have hget : path.get (l.length + 2) = .ok '/'.toUInt8 := by
        apply Block.get_of_cells (l := l ++ (ascii "/_").map some)
          (r := (P.text ++ ascii "/_/" ++ params.bytes).map some ++ some 0 :: r)
        · rw [hpath, PathForm.text]
          simp [ascii, PathForm.front, PathForm.back, PathForm.rest, PathForm.isDash]
        · simp [ascii]
      rw [scanOffset, if_pos rfl, hget]
      rfl
    have hform : PathForm.segments.text P params.bytes
        = ascii "/_" ++ ['/'.toUInt8] ++ (P.text ++ ['/'.toUInt8]) ++ ascii "_/" ++ params.bytes := by
      simp [PathForm.text, ascii, PathForm.front, PathForm.back, PathForm.rest, PathForm.isDash]
    have hlength := congrArg List.length hform
    have hz : 0 ∉ P.text ++ ['/'.toUInt8] := by
      simp only [List.mem_append, List.mem_singleton, not_or]
      exact ⟨hP.zero, by decide⟩
    have hclosing := hP.isChain_append (List.IsChain.singleton '/'.toUInt8)
    rw [hform] at hpath
    obtain ⟨d, name, s, hd, hlen, hres, hs, hbytes, hp, hrest⟩ := velyDecorate_closed
      (PathForm.segments.text P params.bytes).length hpath hoff hz params.nonzero
      (find_closing_eq_none.mpr hclosing) hname
    refine ⟨d, name, s, hd, hlen, hres, hs, hbytes, ?_, hrest.1, Or.inr hrest.2⟩
    rw [hlength, hp, CString.length, hbytes]
    simp [ascii]
    omega
  | handler =>
    have hform : PathForm.handler.text P params.bytes = '/'.toUInt8 :: P.text := by
      simp [PathForm.text, ascii, PathForm.front, PathForm.back, PathForm.rest, PathForm.isDash]
    have hlength := congrArg List.length hform
    rw [hform] at hpath
    obtain ⟨d, name, hd, hlen, hres, hs, hp, hrest⟩ := velyDecorate_handler hP hpath hname
    refine ⟨d, name, CString.empty, ?_, hlen, hres, hs, rfl, ?_, hrest.1, Or.inl hrest.2⟩
    · rw [hlength]
      exact hd
    · rw [hlength, hp]
      rfl

end Forms

/-- A path names the same request in every form when its name has at most two bytes less than the
memory for it. -/
theorem namesRequest_iff (P : SegmentPath) :
  P.NamesRequest ↔ P.requestName.length ≤ maxReqNameLen - 2
  := by
  have hmax : maxReqNameLen = 256 := rfl
  constructor
  · intro h
    by_contra hlt
    obtain ⟨b, hb⟩ : ∃ b : Block, b.cells.length = maxReqNameLen :=
      ⟨Block.alloc maxReqNameLen, List.length_replicate⟩
    obtain ⟨d, name, s, hd, -, hres, -, -, -, hstring, hbytes⟩ :=
      @velyDecorate_form P CString.empty ⟨_⟩ b [] [] .handler rfl hb
    obtain ⟨d', hd', -, -, hfound⟩ := h .handler CString.empty ⟨_⟩ b [] [] rfl hb
    rw [hd] at hd'
    cases hd'
    obtain ⟨name', hstring', hname'⟩ := hfound hres
    rw [hstring] at hstring'
    cases hstring'
    have hle := length_decoratedName_le P.text
    have hle' := length_decoratedName_le (P.text ++ ['/'.toUInt8])
    rw [← hname'] at hlt
    rcases hbytes with hbytes | hbytes
    · rw [hbytes] at hlt
      omega
    · rw [hbytes] at hlt
      omega
  · intro hle form params path reqname l r hpath hname
    obtain ⟨d, name, s, hd, hlen, hres, hs, hrest, hp, hstring, hbytes⟩ :=
      velyDecorate_form hpath hname
    refine ⟨d, hd, hlen, fun _ => ⟨hres, s, hs, hrest, hp⟩, fun _ => ⟨name, hstring, ?_⟩⟩
    rcases hbytes with hbytes | hbytes
    · rw [hbytes, decoratedName_eq P.isPathText hle]
      rfl
    · rw [hbytes, decoratedName_slash P.isPathText hle]
      rfl

/-- A name of 255 letters, which there is memory for, is cut to 254 letters: that is the name of
another request. -/
theorem not_namesRequest_letters :
  ∃ (P Q : SegmentPath) (d : Decorated) (name : CString),
    P.requestName = List.replicate 255 'a'.toUInt8 ∧ Q.requestName = List.replicate 254 'a'.toUInt8
    ∧ ¬ P.NamesRequest
    ∧ velyDecorate (Block.alloc maxReqNameLen)
        ⟨(PathForm.underscores.text P []).map some ++ [some 0]⟩ 0
        (PathForm.underscores.text P []).length true = .ok d
    ∧ d.res = .found ∧ d.reqname.string 0 = .ok name ∧ name.bytes = Q.requestName
  := by
  have hletter : isalnum 'a'.toUInt8 = true := by decide
  have hsegment : ∀ n, IsPathSegment (List.replicate (n + 1) 'a'.toUInt8) := by
    intro n
    refine ⟨?_, ⟨_, _, List.replicate_succ, hletter⟩, ⟨_, _, List.replicate_succ', hletter⟩⟩
    intro c hc
    obtain rfl := List.eq_of_mem_replicate hc
    decide
  have hpath : ∀ n, ∃ P : SegmentPath, P.text = List.replicate (n + 1) 'a'.toUInt8 := by
    intro n
    refine ⟨⟨[List.replicate (n + 1) 'a'.toUInt8], by simp, ?_⟩, ?_⟩
    · intro s hs
      obtain rfl := List.mem_singleton.mp hs
      apply hsegment
    · rw [SegmentPath.text, List.intercalate_singleton]
  have hname : ∀ n, (List.replicate n 'a'.toUInt8).flatMap pathBytes
      = List.replicate n 'a'.toUInt8 := by
    intro n
    induction n with
    | zero => rfl
    | succ n ih =>
      rw [List.replicate_succ, List.flatMap_cons, ih]
      rfl
  obtain ⟨P, hP⟩ := hpath 254
  obtain ⟨Q, hQ⟩ := hpath 253
  have hPname : P.requestName = List.replicate 255 'a'.toUInt8 := by
    rw [SegmentPath.requestName, hP, hname]
  have hQname : Q.requestName = List.replicate 254 'a'.toUInt8 := by
    rw [SegmentPath.requestName, hQ, hname]
  have hmem : (Block.alloc maxReqNameLen).cells.length = maxReqNameLen := List.length_replicate
  obtain ⟨d, name, -, hd, -, hres, -, -, -, hstring, hbytes⟩ := @velyDecorate_form P CString.empty
    ⟨(PathForm.underscores.text P []).map some ++ [some 0]⟩ _ [] [] .underscores rfl hmem
  have hcut : name.bytes = Q.requestName := by
    rw [hP] at hbytes
    rw [hQname]
    rcases hbytes with hbytes | hbytes
    · rw [hbytes]
      decide +kernel
    · rw [hbytes]
      decide +kernel
  refine ⟨P, Q, d, name, hPname, hQname, ?_, hd, hres, hstring, hcut⟩
  intro h
  obtain ⟨d', hd', -, -, hfound⟩ := h .underscores CString.empty
    ⟨(PathForm.underscores.text P []).map some ++ [some 0]⟩ _ [] [] rfl hmem
  obtain rfl := Except.ok.inj (hd.symm.trans hd')
  obtain ⟨name', hstring', hname'⟩ := hfound hres
  obtain rfl := Except.ok.inj (hstring.symm.trans hstring')
  have hlen := congrArg List.length (hcut.symm.trans hname')
  rw [hPname, hQname, List.length_replicate, List.length_replicate] at hlen
  omega

end Vely
