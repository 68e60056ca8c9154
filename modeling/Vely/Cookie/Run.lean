import Vely.Cookie.Jar
import Mathlib.Data.List.Flatten

/-!
# Runs with cookies

A call puts the line of its name where the first cookie of this name is, or at the end.  This keeps
the names of the cookies where they are, so that the first cookie of every other name stays the
first.
-/

namespace Vely

namespace Cookies

/-- The cookies `cookies` come from those of the request by the calls that want `changed`. -/
structure Inv (start : List (List UInt8)) (changed : List UInt8 → Option Wanted)
    (cookies : List Cookie) : Prop where
  valid : ∀ name w, changed name = some w → 61 ∉ name ∧ 59 ∉ w.value
  keep : ∀ (i : Nat) data, start[i]? = some data →
    ∃ c, cookies[i]? = some c ∧ nameOf c.data = nameOf data
  unset : ∀ (i : Nat) c, cookies[i]? = some c → c.isSetByProgram = false → start[i]? = some c.data
  set : ∀ (i : Nat) c, cookies[i]? = some c → c.isSetByProgram = true →
    ∃ name w, changed name = some w ∧ Complete name w c.data ∧
      cookies.findIdx? (named name) = some i
  found : ∀ name w, changed name = some w →
    ∃ i c, cookies.findIdx? (named name) = some i ∧ cookies[i]? = some c ∧ c.isSetByProgram = true

section Put

variable {cookies : List Cookie} {name : List UInt8} {c : Cookie} {i : Nat}

/-- The cookie that is found is there, and has the name. -/
theorem findIdx?_spec (h : cookies.findIdx? (named name) = some i) :
  ∃ c, cookies[i]? = some c ∧ named name c = true
  := by
  rw [List.findIdx?_eq_some_iff_getElem] at h
  obtain ⟨hi, hnamed, -⟩ := h
  exact ⟨cookies[i], List.getElem?_eq_getElem hi, hnamed⟩

/-- A cookie is replaced by one of the same name. -/
def put (cookies : List Cookie) (name : List UInt8) (c : Cookie) : List Cookie :=
  match cookies.findIdx? (named name) with
  | some i => cookies.set i c
  | none => cookies ++ [c]

/-- Where a cookie is put, and that the others stay. -/
theorem put_spec (hname : 61 ∉ name) (hc : nameOf c.data = some name) :
  ∃ i, (put cookies name c)[i]? = some c ∧
    (put cookies name c).findIdx? (named name) = some i ∧
    (∀ j, j ≠ i → (put cookies name c)[j]? = cookies[j]?) ∧
    (∀ old, cookies[i]? = some old → nameOf old.data = some name) ∧
    (∀ other, 61 ∉ other → other ≠ name →
      (put cookies name c).findIdx? (named other) = cookies.findIdx? (named other)) ∧
    (cookies.findIdx? (named name) = some i ∨ cookies.findIdx? (named name) = none)
  := by
  have hnamed : named name c = true := (named_iff hname).mpr hc
  have hother : ∀ other, 61 ∉ other → other ≠ name → named other c = false := by
    intro other hother hne
    rw [Bool.eq_false_iff]
    intro h
    rw [named_iff hother, hc, Option.some.injEq] at h
    exact hne h.symm
  cases h : cookies.findIdx? (named name) with
  | some i =>
    have hput : put cookies name c = cookies.set i c := by rw [put, h]
    obtain ⟨hi, hold, hfirst⟩ := List.findIdx?_eq_some_iff_getElem.mp h
    use i
    rw [hput]
    refine ⟨by simp [hi], ?_, ?_, ?_, ?_, Or.inl rfl⟩
    · rw [List.findIdx?_eq_some_iff_getElem]
      refine ⟨by simpa using hi, by simpa using hnamed, ?_⟩
      intro j hj
      rw [List.getElem_set_ne (Nat.ne_of_gt hj)]
      exact hfirst j hj
    · intro j hj
      rw [List.getElem?_set_ne (Ne.symm hj)]
    · intro old holdc
      rw [List.getElem?_eq_getElem hi, Option.some.injEq] at holdc
      rw [← holdc]
      exact (named_iff hname).mp hold
    · intro other ho hne
      have hmap : (cookies.set i c).map (named other) = cookies.map (named other) := by
        have hold' : named other cookies[i] = false := by
          rw [Bool.eq_false_iff]
          intro hno
          rw [named_iff ho, (named_iff hname).mp hold, Option.some.injEq] at hno
          exact hne hno.symm
        apply List.ext_getElem?
        intro j
        rw [List.getElem?_map, List.getElem?_map]
        by_cases hj : j = i
        · subst hj
          rw [List.getElem?_set_self hi, List.getElem?_eq_getElem hi, Option.map_some,
            Option.map_some, hother other ho hne, hold']
        · rw [List.getElem?_set_ne (Ne.symm hj)]
      have hidx : ∀ l : List Cookie, l.findIdx? (named other)
          = (l.map (named other)).findIdx? id := by
        intro l
        rw [List.findIdx?_map]
        rfl
      rw [hidx, hmap, ← hidx]
  | none =>
    have hput : put cookies name c = cookies ++ [c] := by rw [put, h]
    use cookies.length
    rw [hput]
    refine ⟨by simp, ?_, ?_, ?_, ?_, Or.inr rfl⟩
    · rw [List.findIdx?_append, h]
      simp [hnamed]
    · intro j hj
      rw [List.getElem?_append]
      split
      · rfl
      · next hlt =>
        rw [List.getElem?_eq_none (by simp; omega), List.getElem?_eq_none (by omega)]
    · simp
    · intro other ho hne
      rw [List.findIdx?_append]
      simp [hother other ho hne]

end Put

/-- A name has no sign `=`. -/
theorem notMem_of_nameOf {name data : List UInt8} (h : nameOf data = some name) :
  61 ∉ name
  := by
  rw [nameOf] at h
  split at h
  · rw [Option.some.injEq] at h
    intro hmem
    rw [← h] at hmem
    have hne := List.mem_takeWhile_imp hmem
    simp at hne
  · cases h

section Step

variable {start : List (List UInt8)} {changed : List UInt8 → Option Wanted} {cookies : List Cookie}

/-- The line of a call is put in the list. -/
theorem Inv.put (h : Inv start changed cookies) {name line : List UInt8} {w : Wanted}
    (hname : 61 ∉ name) (hvalue : 59 ∉ w.value) (hline : Complete name w line) :
  Inv start (Function.update changed name (some w)) (Cookies.put cookies name ⟨line, true⟩)
  := by
  obtain ⟨i, hi, hfirst, hothers, hold, hidx, hwas⟩ :=
    @put_spec cookies name ⟨line, true⟩ hname (hline.nameOf hname)
  have hchanged : ∀ other, other ≠ name →
      Function.update changed name (some w) other = changed other :=
    fun other hne => Function.update_of_ne hne _ _
  constructor
  · intro other v hv
    by_cases hne : other = name
    · subst hne
      rw [Function.update_self, Option.some.injEq] at hv
      rw [← hv]
      exact ⟨hname, hvalue⟩
    · rw [hchanged other hne] at hv
      exact h.valid other v hv
  · intro j data hj
    obtain ⟨c, hc, hnameOf⟩ := h.keep j data hj
    by_cases hji : j = i
    · subst hji
      refine ⟨_, hi, ?_⟩
      rw [← hnameOf, hold c hc]
      exact hline.nameOf hname
    · exact ⟨c, by rw [hothers j hji, hc], hnameOf⟩
  · intro j c hj hset
    by_cases hji : j = i
    · subst hji
      rw [hi, Option.some.injEq] at hj
      rw [← hj] at hset
      cases hset
    · rw [hothers j hji] at hj
      exact h.unset j c hj hset
  · intro j c hj hset
    by_cases hji : j = i
    · subst hji
      rw [hi, Option.some.injEq] at hj
      rw [← hj]
      exact ⟨name, w, Function.update_self _ _ _, hline, hfirst⟩
    · rw [hothers j hji] at hj
      obtain ⟨other, v, hv, hcomplete, hfound⟩ := h.set j c hj hset
      have hne : other ≠ name := by
        rintro rfl
        obtain hwas | hwas := hwas
        · rw [hwas, Option.some.injEq] at hfound
          exact hji hfound.symm
        · rw [hwas] at hfound
          cases hfound
      refine ⟨other, v, by rw [hchanged other hne, hv], hcomplete, ?_⟩
      rw [hidx other (h.valid other v hv).1 hne]
      exact hfound
  · intro other v hv
    by_cases hne : other = name
    · subst hne
      exact ⟨i, _, hfirst, hi, rfl⟩
    · rw [hchanged other hne] at hv
      obtain ⟨j, c, hfound, hj, hset⟩ := h.found other v hv
      refine ⟨j, c, ?_, ?_, hset⟩
      · rw [hidx other (h.valid other v hv).1 hne, hfound]
      · rw [hothers j, hj]
        rintro rfl
        obtain ⟨c', hc', hnamed⟩ := findIdx?_spec hfound
        rw [named_iff (h.valid other v hv).1, hold c' hc', Option.some.injEq] at hnamed
        exact hne hnamed.symm

/-- The cookies of a request are as they came in. -/
theorem Inv.of_start (start : List (List UInt8)) (silent : Bool) :
  Inv start (fun _ => none) (Req.start silent start).cookies
  := by
  have hget : ∀ i : Nat, (Req.start silent start).cookies[i]?
      = start[i]?.map fun data => (⟨data, false⟩ : Cookie) := by
    intro i
    rw [Req.start, List.getElem?_map]
  constructor
  · intro name w hw
    cases hw
  · intro i data hi
    exact ⟨⟨data, false⟩, by rw [hget, hi]; rfl, rfl⟩
  · intro i c hi _
    rw [hget] at hi
    obtain ⟨data, hdata, rfl⟩ := Option.map_eq_some_iff.mp hi
    exact hdata
  · intro i c hi hset
    rw [hget] at hi
    obtain ⟨data, -, rfl⟩ := Option.map_eq_some_iff.mp hi
    cases hset
  · intro name w hw
    cases hw

/-- A cookie of the request, or one that was set, is found by its name. -/
theorem Inv.isSome_iff (h : Inv start changed cookies) {name : List UInt8} (hname : 61 ∉ name) :
  (cookies.findIdx? (named name)).isSome = true
    ↔ ¬ (changed name = none ∧ some name ∉ start.map nameOf)
  := by
  rw [not_and_or, not_not]
  constructor
  · intro hsome
    obtain ⟨i, hi⟩ := Option.isSome_iff_exists.mp hsome
    obtain ⟨c, hc, hnamed⟩ := findIdx?_spec hi
    rw [named_iff hname] at hnamed
    cases hset : c.isSetByProgram with
    | false =>
      right
      have hstart := h.unset i c hc hset
      rw [← hnamed]
      apply List.mem_map_of_mem
      exact List.mem_of_getElem? hstart
    | true =>
      left
      obtain ⟨other, w, hw, hcomplete, -⟩ := h.set i c hc hset
      rw [hcomplete.nameOf (h.valid other w hw).1, Option.some.injEq] at hnamed
      rw [← hnamed, hw]
      simp
  · rintro (hchanged | hmem)
    · obtain ⟨w, hw⟩ := Option.ne_none_iff_exists'.mp hchanged
      obtain ⟨i, c, hi, -⟩ := h.found name w hw
      rw [hi]
      rfl
    · obtain ⟨data, hdata, hnameOf⟩ := List.mem_map.mp hmem
      obtain ⟨i, hi⟩ := List.getElem?_of_mem hdata
      obtain ⟨c, hc, hnameOf'⟩ := h.keep i data hi
      rw [List.findIdx?_isSome, List.any_eq_true]
      refine ⟨c, List.mem_of_getElem? hc, ?_⟩
      rw [named_iff hname, hnameOf', hnameOf]

end Step

section Calls

variable {start : List (List UInt8)} {changed : List UInt8 → Option Wanted} {req req' : Req}

/-- A text that fits in its buffer is not cut. -/
theorem snprintf_of_lt {size : Nat} {s : List UInt8} (h : s.length < size) :
  snprintf size s = s
  := by
  rw [snprintf, List.take_of_length_le]
  omega

/-- What is found is at the first cookie of the name. -/
theorem velyFindCookie_ind {cookies : List Cookie} {name : List UInt8} :
  (velyFindCookie cookies name).map Found.ind = cookies.findIdx? (named name)
  := by
  rw [velyFindCookie]
  cases cookies.findIdx? (named name) with
  | none => rfl
  | some i => rfl

/-- A call with a line that fits keeps the cookies what they are to be. -/
theorem Call.Fits.inv {c : Call} (hfits : c.Fits req) (h : Inv start changed req.cookies)
    (hexec : c.exec req = .ok req') :
  Inv start (c.want start changed) req'.cookies
  := by
  cases c with
  | headerEnd =>
    rw [Call.exec, Except.ok.injEq] at hexec
    subst hexec
    rw [Call.want, velyGenHeaderEnd]
    split
    · exact h
    · exact h
  | setCookie name value path expires samesite httponly secure =>
    simp only [Call.exec, velySetCookie] at hexec
    split at hexec
    · cases hexec
    · cases hcheck : velyCheckSetCookie name value secure samesite httponly with
      | error e =>
        rw [hcheck] at hexec
        cases hexec
      | ok clause =>
        obtain ⟨hvalid, hvalue, -⟩ := velyCheckSetCookie_ok hcheck
        have hline : snprintf (maxCookieSize + 1) (setLine name value path expires clause)
            = setLine name value path expires clause :=
          snprintf_of_lt (Nat.lt_succ_of_le (hfits clause hcheck))
        rw [hcheck] at hexec
        simp only [bind, Except.bind, hline] at hexec
        have hput := h.put (notMem_of_valid hvalid)
          (w := wantedSet value path expires samesite httponly secure)
          (notMem_of_validValue hvalue) (complete_setLine hcheck)
        have hind := @velyFindCookie_ind req.cookies name
        rw [Call.want]
        cases hfind : velyFindCookie req.cookies name with
        | none =>
          rw [hfind, Option.map_none] at hind
          rw [hfind] at hexec
          simp only at hexec
          split at hexec
          · cases hexec
          · cases hexec
            rw [Cookies.put, ← hind] at hput
            exact hput
        | some found =>
          rw [hfind, Option.map_some] at hind
          rw [hfind] at hexec
          cases hexec
          rw [Cookies.put, ← hind] at hput
          exact hput
  | deleteCookie name path secure =>
    simp only [Call.exec, velyDeleteCookie] at hexec
    have hind := @velyFindCookie_ind req.cookies name
    cases hfind : velyFindCookie req.cookies name with
    | none =>
      rw [hfind, Option.map_none] at hind
      rw [hfind] at hexec
      cases hexec
      rw [Call.want]
      split
      · exact h
      · next hknown =>
        exfalso
        have hname : 61 ∉ name := by
          rw [not_and_or, not_not] at hknown
          obtain hchanged | hmem := hknown
          · obtain ⟨w, hw⟩ := Option.ne_none_iff_exists'.mp hchanged
            exact (h.valid name w hw).1
          · obtain ⟨data, -, hnameOf⟩ := List.mem_map.mp hmem
            exact notMem_of_nameOf hnameOf
        have hsome := (h.isSome_iff hname).mpr hknown
        rw [← hind] at hsome
        cases hsome
    | some found =>
      rw [hfind, Option.map_some] at hind
      rw [hfind] at hexec
      cases hcheck : velyCheckSetCookie name (ascii "deleted") secure [] [] with
      | error e =>
        rw [hcheck] at hexec
        cases hexec
      | ok clause =>
        obtain ⟨hvalid, hvalue, -⟩ := velyCheckSetCookie_ok hcheck
        have hname := notMem_of_valid hvalid
        have hline : snprintf 300 (deleteLine name (path.or found.path) clause)
            = deleteLine name (path.or found.path) clause :=
          snprintf_of_lt (hfits found clause hfind hcheck)
        rw [hcheck] at hexec
        simp only [bind, Except.bind, hline, Except.map] at hexec
        cases hexec
        have hput := h.put hname (w := wantedDelete path secure)
          (notMem_of_validValue hvalue) (@complete_deleteLine name path secure clause found.path hcheck)
        have hknown := (h.isSome_iff hname).mp (by rw [← hind]; rfl)
        rw [Call.want, if_neg hknown]
        rw [Cookies.put, ← hind] at hput
        exact hput

/-- A request is silent or not from its start. -/
theorem silent_of_exec {c : Call} (hexec : c.exec req = .ok req') :
  req'.silent = req.silent
  := by
  cases c with
  | headerEnd =>
    rw [Call.exec, Except.ok.injEq] at hexec
    subst hexec
    rw [velyGenHeaderEnd]
    split
    · rfl
    · rfl
  | setCookie name value path expires samesite httponly secure =>
    simp only [Call.exec, velySetCookie] at hexec
    split at hexec
    · cases hexec
    · cases hcheck : velyCheckSetCookie name value secure samesite httponly with
      | error e =>
        rw [hcheck] at hexec
        cases hexec
      | ok clause =>
        rw [hcheck] at hexec
        simp only [bind, Except.bind] at hexec
        split at hexec
        · split at hexec
          · cases hexec
          · cases hexec
            rfl
        · cases hexec
          rfl
  | deleteCookie name path secure =>
    simp only [Call.exec, velyDeleteCookie] at hexec
    split at hexec
    · cases hexec
      rfl
    · cases hcheck : velyCheckSetCookie name (ascii "deleted") secure [] [] with
      | error e =>
        rw [hcheck] at hexec
        cases hexec
      | ok clause =>
        rw [hcheck] at hexec
        cases hexec
        rfl

/-- A run with lines that fit keeps the cookies what they are to be. -/
theorem FitsAll.inv {calls : List Call} (hfits : FitsAll calls req)
    (h : Inv start changed req.cookies) (hrun : run calls req = .ok req') :
  Inv start (calls.foldl (Call.want start) changed) req'.cookies ∧ req'.silent = req.silent
  := by
  induction calls generalizing req changed with
  | nil =>
    cases hrun
    exact ⟨h, rfl⟩
  | cons c calls ih =>
    cases hexec : c.exec req with
    | error e =>
      rw [run, hexec] at hrun
      cases hrun
    | ok req₁ =>
      rw [run, hexec] at hrun
      obtain ⟨hinv, hsilent⟩ := ih (hfits.2 req₁ hexec) (hfits.1.inv h hexec) hrun
      use hinv
      rw [hsilent, silent_of_exec hexec]

/-- A name that was changed is found with its complete line. -/
theorem Inv.line (h : Inv start changed req.cookies) {name : List UInt8} {w : Wanted}
    (hw : changed name = some w) :
  ∃ i c, req.cookies.findIdx? (named name) = some i ∧ req.cookies[i]? = some c ∧
    c.isSetByProgram = true ∧ Complete name w c.data
  := by
  obtain ⟨i, c, hi, hc, hset⟩ := h.found name w hw
  obtain ⟨other, v, hv, hcomplete, -⟩ := h.set i c hc hset
  have hsame : other = name := by
    obtain ⟨c', hc', hnamed⟩ := findIdx?_spec hi
    rw [hc, Option.some.injEq] at hc'
    subst hc'
    rw [named_iff (h.valid name w hw).1, hcomplete.nameOf (h.valid other v hv).1,
      Option.some.injEq] at hnamed
    exact hnamed
  subst hsame
  rw [hw, Option.some.injEq] at hv
  subst hv
  exact ⟨i, c, hi, hc, hset, hcomplete⟩

/-- A name that was not changed is found where it is in the request, with the same text. -/
theorem Inv.findIdx?_eq (h : Inv start changed req.cookies) {name : List UInt8} (hname : 61 ∉ name)
    (hnone : changed name = none) :
  match req.cookies.findIdx? (named name) with
  | some i => ∃ data, (Req.start req.silent start).cookies.findIdx? (named name) = some i ∧
      start[i]? = some data ∧ req.cookies[i]? = some ⟨data, false⟩
  | none => (Req.start req.silent start).cookies.findIdx? (named name) = none
  := by
  have hkeep : ∀ (j : Nat) data, start[j]? = some data → ∃ c, req.cookies[j]? = some c ∧
      named name c = named name ⟨data, false⟩ := by
    intro j data hj
    obtain ⟨c, hc, hnameOf⟩ := h.keep j data hj
    refine ⟨c, hc, ?_⟩
    rw [Bool.eq_iff_iff, named_iff hname, named_iff hname, hnameOf]
  cases hi : req.cookies.findIdx? (named name) with
  | none =>
    rw [List.findIdx?_eq_none_iff] at hi
    simp only
    rw [List.findIdx?_eq_none_iff]
    intro c hc
    obtain ⟨data, hdata, rfl⟩ := List.mem_map.mp hc
    obtain ⟨j, hj⟩ := List.getElem?_of_mem hdata
    obtain ⟨c, hc, hsame⟩ := hkeep j data hj
    rw [← hsame]
    exact hi c (List.mem_of_getElem? hc)
  | some i =>
    obtain ⟨c, hc, hnamed⟩ := findIdx?_spec hi
    have hunset : c.isSetByProgram = false := by
      rw [Bool.eq_false_iff]
      intro hset
      obtain ⟨other, v, hv, hcomplete, -⟩ := h.set i c hc hset
      rw [named_iff hname, hcomplete.nameOf (h.valid other v hv).1, Option.some.injEq] at hnamed
      rw [hnamed, hnone] at hv
      cases hv
    have hdata := h.unset i c hc hunset
    refine ⟨c.data, ?_, hdata, ?_⟩
    · rw [List.findIdx?_eq_some_iff_getElem] at hi ⊢
      obtain ⟨hlt, -, hbefore⟩ := hi
      obtain ⟨hlt', hget⟩ := List.getElem?_eq_some_iff.mp hdata
      refine ⟨by simpa [Req.start] using hlt', ?_, ?_⟩
      · simp only [Req.start, List.getElem_map, hget]
        rw [named_iff hname] at hnamed ⊢
        exact hnamed
      · intro j hj
        have hj' : j < start.length := Nat.lt_trans hj hlt'
        obtain ⟨c', hc', hsame⟩ := hkeep j start[j] (List.getElem?_eq_getElem hj')
        have hno := hbefore j hj
        rw [List.getElem?_eq_getElem (Nat.lt_trans hj hlt), Option.some.injEq] at hc'
        simp only [Req.start, List.getElem_map]
        rw [← hsame, ← hc']
        exact hno
    · rw [hc, ← hunset]

/-- What the invariant says of what is seen of the cookies. -/
theorem Inv.cookiesOk (h : Inv start changed req.cookies) :
  CookiesOk start changed req
  := by
  have hvalue : ∀ {cookies : List Cookie} {i : Nat} {c : Cookie} {name : List UInt8},
      cookies.findIdx? (named name) = some i → cookies[i]? = some c →
        ((velyFindCookie cookies name).map Found.value).getD []
          = (c.data.drop (name.length + 1)).takeWhile (· ≠ 59) := by
    intro cookies i c name hi hc
    rw [velyFindCookie, hi]
    simp [hc]
  have hlines : ∀ line ∈ (velyGenHeaderEnd req).1,
      ∃ c ∈ req.cookies, c.isSetByProgram = true ∧ c.data = line := by
    intro line hline
    rw [velyGenHeaderEnd] at hline
    split at hline
    · cases hline
    · simp only at hline
      split at hline
      · cases hline
      · obtain ⟨c, hc, rfl⟩ := List.mem_map.mp hline
        exact ⟨c, (List.mem_filter.mp hc).1, (List.mem_filter.mp hc).2, rfl⟩
  constructor
  · rw [List.Nodup, List.pairwise_map, List.pairwise_filter, List.pairwise_iff_getElem]
    intro i j hi hj hlt hseti hsetj hsame
    obtain ⟨name, w, hw, hcomplete, hidx⟩ := h.set i _ (List.getElem?_eq_getElem hi) hseti
    obtain ⟨name', w', hw', hcomplete', hidx'⟩ := h.set j _ (List.getElem?_eq_getElem hj) hsetj
    rw [hcomplete.nameOf (h.valid name w hw).1, hcomplete'.nameOf (h.valid name' w' hw').1,
      Option.some.injEq] at hsame
    rw [hsame, hidx', Option.some.injEq] at hidx
    omega
  · intro name w hw
    obtain ⟨i, c, hi, hc, -, hcomplete⟩ := h.line hw
    rw [getCookie, hvalue hi hc, hcomplete.takeWhile (h.valid name w hw).2]
  · intro name hname hnone
    have hspec := h.findIdx?_eq hname hnone
    cases hi : req.cookies.findIdx? (named name) with
    | none =>
      rw [hi] at hspec
      simp only at hspec
      rw [getCookie, getCookie, velyFindCookie, velyFindCookie, hi, hspec]
    | some i =>
      rw [hi] at hspec
      obtain ⟨data, hi', hdata, hc⟩ := hspec
      have hc' : (Req.start req.silent start).cookies[i]? = some ⟨data, false⟩ := by
        rw [Req.start, List.getElem?_map, hdata]
        rfl
      rw [getCookie, getCookie, hvalue hi hc, hvalue hi' hc']
  · intro i data hi hno
    obtain ⟨c, hc, hnameOf⟩ := h.keep i data hi
    have hunset : c.isSetByProgram = false := by
      rw [Bool.eq_false_iff]
      intro hset
      obtain ⟨other, v, hv, hcomplete, -⟩ := h.set i c hc hset
      rw [hcomplete.nameOf (h.valid other v hv).1] at hnameOf
      rw [hno other hnameOf.symm] at hv
      cases hv
    have hdata := h.unset i c hc hunset
    rw [hi, Option.some.injEq] at hdata
    rw [hc, hdata, ← hunset]
  · intro line hline
    obtain ⟨c, hc, hset, rfl⟩ := hlines line hline
    obtain ⟨i, hi⟩ := List.getElem?_of_mem hc
    obtain ⟨name, w, hw, hcomplete, -⟩ := h.set i c hi hset
    exact ⟨name, w, hw, hcomplete⟩
  · intro hout hsilent name w hw
    obtain ⟨i, c, -, hc, hset, hcomplete⟩ := h.line hw
    refine ⟨c.data, ?_, hcomplete⟩
    simp only [velyGenHeaderEnd, hout, hsilent, Bool.false_eq_true, if_false]
    apply List.mem_map_of_mem
    exact List.mem_filter.mpr ⟨List.mem_of_getElem? hc, hset⟩

end Calls

/-- The cookies of a request that are joined as a client joins them are taken apart again. -/
theorem requestCookies_join {n : Nat} {c : List UInt8} {cs : List (List UInt8)}
    (hn : cs.length < n) (hsemi : ∀ d ∈ c :: cs, 59 ∉ d)
    (hspace : ∀ d ∈ cs, ∀ b ∈ d.head?, isspace b = false) :
  requestCookies n (c ++ cs.flatMap (ascii "; " ++ ·)) = .ok (c :: cs)
  := by
  have hascii : ascii "; " = [59, 32] := by decide
  induction cs generalizing n c with
  | nil =>
    obtain ⟨k, rfl⟩ := Nat.exists_eq_succ_of_ne_zero (Nat.ne_of_gt hn)
    have hall : c.dropWhile (· ≠ 59) = [] := by
      rw [List.dropWhile_eq_nil_iff]
      intro b hb
      rw [decide_eq_true_eq]
      rintro rfl
      exact hsemi c List.mem_cons_self hb
    rw [List.flatMap_nil, List.append_nil, requestCookies, hall]
  | cons d cs ih =>
    cases n with
    | zero => cases hn
    | succ n =>
      have hall : ∀ b ∈ c, (b ≠ 59 : Bool) = true := by
        intro b hb
        rw [decide_eq_true_eq]
        rintro rfl
        exact hsemi c List.mem_cons_self hb
      have hsplit : c ++ (d :: cs).flatMap (ascii "; " ++ ·)
          = c ++ 59 :: 32 :: (d ++ cs.flatMap (ascii "; " ++ ·)) := by
        simp [hascii]
      have hskip : (32 :: (d ++ cs.flatMap (ascii "; " ++ ·))).dropWhile isspace
          = d ++ cs.flatMap (ascii "; " ++ ·) := by
        rw [List.dropWhile_cons_of_pos (by decide)]
        cases d with
        | cons b d =>
          rw [List.cons_append, List.dropWhile_cons_of_neg]
          rw [hspace (b :: d) List.mem_cons_self b rfl]
          exact Bool.false_ne_true
        | nil =>
          cases cs with
          | nil => rfl
          | cons e cs =>
            rw [List.flatMap_cons, hascii]
            rfl
      have hrest := @ih n d (Nat.lt_of_succ_lt_succ hn)
        (fun e he => hsemi e (List.mem_cons_of_mem c he))
        (fun e he => hspace e (List.mem_cons_of_mem d he))
      rw [hsplit, requestCookies, List.dropWhile_append_of_pos hall,
        List.takeWhile_append_of_pos hall]
      simp only [List.dropWhile_cons, List.takeWhile_cons, ne_eq, not_true_eq_false, decide_false,
        Bool.false_eq_true, if_false, hskip, hrest, List.append_nil]
      rfl

/-- In every run of accepted calls whose lines fit in their buffers, the cookies are what was asked
for. -/
theorem cookiesOk_run {start : List (List UInt8)} {silent : Bool} {calls : List Call} {req : Req}
    (hfits : FitsAll calls (.start silent start)) (hrun : run calls (.start silent start) = .ok req) :
  CookiesOk start (wanted start calls) req
  := by
  obtain ⟨hinv, -⟩ := hfits.inv (Inv.of_start start silent) hrun
  exact hinv.cookiesOk

theorem cookiesOk_run_two :
  ∃ req, run [.setCookie [98] [50] (some [47]) none (ascii "Strict") (ascii "HttpOnly; ") [],
      .deleteCookie [97] none (ascii "Secure; ")] (.start false [ascii "a=1"]) = .ok req ∧
    CookiesOk [ascii "a=1"] (wanted [ascii "a=1"]
      [.setCookie [98] [50] (some [47]) none (ascii "Strict") (ascii "HttpOnly; ") [],
      .deleteCookie [97] none (ascii "Secure; ")]) req
  := by
  refine ⟨_, rfl, ?_⟩
  apply @cookiesOk_run _ false
  · constructor
    · intro clause hclause
      cases hclause
      decide +kernel
    · intro req hexec
      cases hexec
      constructor
      · intro found clause hfound hclause
        cases hfound
        cases hclause
        decide +kernel
      · intro req hexec
        trivial
  · rfl

/-- A complete line is as long as what is wanted of it. -/
theorem Complete.length_le {name line : List UInt8} {w : Wanted} (h : Complete name w line) :
  (w.attributes.flatMap (ascii "; " ++ ·)).length ≤ line.length
  := by
  obtain ⟨attributes, rest, rfl, hsub, -⟩ := h
  have hle := (hsub.flatMap (ascii "; " ++ ·)).length_le
  simp only [List.length_append]
  omega

/-- The cookie `a` is deleted with a path of 300 bytes: the line ends in the path. -/
theorem not_cookiesOk_delete :
  ¬ ∀ start calls req, run calls (.start false start) = .ok req →
    CookiesOk start (wanted start calls) req
  := by
  intro h
  have hok := h [ascii "a=1"] [.deleteCookie [97] (some (List.replicate 300 47)) []] _ rfl
  have hwant : wanted [ascii "a=1"] [.deleteCookie [97] (some (List.replicate 300 47)) []] [97]
      = some (wantedDelete (some (List.replicate 300 47)) []) := by
    simp only [wanted, List.foldl_cons, List.foldl_nil, Call.want]
    rw [if_neg (by decide), Function.update_self]
  obtain ⟨line, hline, hcomplete⟩ := hok.sent rfl rfl [97] _ hwant
  have hle := hcomplete.length_le
  have hlong : 300 ≤ ((wantedDelete (some (List.replicate 300 47)) []).attributes.flatMap
      (ascii "; " ++ ·)).length := by decide +kernel
  have hshort : ∀ l ∈ (velyGenHeaderEnd ⟨[⟨snprintf 300 (deleteLine [97]
      (some (List.replicate 300 47)) (snprintf 200 (ascii "; "))), true⟩], false, false⟩).1,
        l.length ≤ 299 := by decide +kernel
  have := hshort line hline
  omega

end Cookies

end Vely
