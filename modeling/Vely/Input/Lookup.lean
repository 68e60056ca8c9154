import Vely.Lib.CString
import Mathlib.Data.List.Duplicate
import Mathlib.Data.List.Nodup

/-!
# Input parameters (`vely_get_input_param`, `vely_set_input`)

A parameter that was asked for is marked.  A name is looked for among the parameters without the
mark first, and then among those with it.  What a name gives is the value of the first parameter of
that name as long as, each time it is asked for, the first one has no mark or all of them have it.
-/

namespace Vely

namespace Params

/-- `vely_ipar` -/
structure Ipar where
  name : CString
  value : CString
  found : Bool
  deriving DecidableEq

/-- The parameters of a request, and the index of the one that is the task. -/
structure Inputs where
  ipars : List Ipar
  task : Option Nat

/-- The inner loop of `vely_get_input_param`. -/
def search (compFound : Bool) (name : CString) (ipars : List Ipar) : Option Nat :=
  ipars.findIdx? fun p => p.found = compFound ∧ p.name = name

/-- The outer loop: `found_input_param`, without a value when it is -1. -/
def foundInputParam (name : CString) (ipars : List Ipar) : Option Nat :=
  (search false name ipars).or (search true name ipars)

/-- `vely_get_input_param`: the value, `found_input_param`, and what is left of the request. -/
def velyGetInputParam (name : CString) (isTask : Bool) (req : Inputs) :
    CString × Option Nat × Inputs :=
  match foundInputParam name req.ipars with
  | some i =>
    (((req.ipars[i]?).map Ipar.value).getD CString.empty, some i,
      { ipars := req.ipars.modify i fun p => { p with found := true }
        task := if isTask then some i else req.task })
  | none =>
    (CString.empty, none, { req with task := if isTask then none else req.task })

/-- `vely_set_input`: the index of the parameter, and what is left of the request. -/
def velySetInput (name val : CString) (req : Inputs) : Nat × Inputs :=
  match velyGetInputParam name false req with
  | (_, some i, req) =>
    (i, { req with ipars := req.ipars.modify i fun p => { p with value := val, found := false } })
  | (_, none, req) => (req.ipars.length, { req with ipars := req.ipars ++ [⟨name, val, false⟩] })

/-- The parameters as they come with a request. -/
def parsed (ps : List (CString × CString)) : Inputs := ⟨ps.map fun p => ⟨p.1, p.2, false⟩, none⟩

/-- `input-param` and `set-input` -/
inductive Op where
  | inputParam (name : CString) (isTask : Bool)
  | setInput (name val : CString)

/-! ### What is asked for -/

/-- The value of the first parameter of a name. -/
def plainSearch (name : CString) (ipars : List Ipar) : CString :=
  ((ipars.find? fun p => p.name = name).map Ipar.value).getD CString.empty

/-- Each name that is looked for gives what a plain search gives, and the value that was set last,
where `last` has those that were set before. -/
def LookupsOk : List Op → (CString → Option CString) → Inputs → Prop
  | [], _, _ => True
  | .inputParam name isTask :: ops, last, req =>
    ((velyGetInputParam name isTask req).1 = plainSearch name req.ipars
      ∧ ∀ v ∈ last name, (velyGetInputParam name isTask req).1 = v)
      ∧ LookupsOk ops last (velyGetInputParam name isTask req).2.2
  | .setInput name val :: ops, last, req =>
    LookupsOk ops (Function.update last name (some val)) (velySetInput name val req).2

/-- The first parameter of a name has no mark, or all of them have it. -/
def Fits (name : CString) (ipars : List Ipar) : Prop :=
  ∀ p ∈ ipars.find? fun p => p.name = name, p.found = true →
    ∀ q ∈ ipars, q.name = name → q.found = true

/-- This is so of each name when it is looked for or set. -/
def FitsAll : List Op → Inputs → Prop
  | [], _ => True
  | .inputParam name isTask :: ops, req =>
    Fits name req.ipars ∧ FitsAll ops (velyGetInputParam name isTask req).2.2
  | .setInput name val :: ops, req =>
    Fits name req.ipars ∧ FitsAll ops (velySetInput name val req).2

/-! ### The search -/

section

variable {name n : CString} {ps a b : List Ipar} {p : Ipar} {req : Inputs}

theorem findIdx_split {f : Ipar → Bool} (ha : ∀ q ∈ a, f q = false) (hp : f p = true) :
  (a ++ p :: b).findIdx? f = some a.length
  := by
  induction a with
  | nil => simp [List.findIdx?_cons, hp]
  | cons q a ih =>
    have hrest := ih fun x hx => ha x (List.mem_cons_of_mem q hx)
    simp [List.findIdx?_cons, ha q List.mem_cons_self, hrest]

theorem modify_split {f : Ipar → Ipar} :
  (a ++ p :: b).modify a.length f = a ++ f p :: b
  := by
  induction a with
  | nil => rfl
  | cons q a ih => simpa using ih

@[simp]
theorem plainSearch_cons :
  plainSearch n (p :: ps) = if p.name = n then p.value else plainSearch n ps
  := by
  rw [plainSearch, List.find?_cons]
  split
  · next h =>
    rw [if_pos (by simpa using h)]
    rfl
  · next h =>
    rw [if_neg (by simpa using h)]
    rfl

theorem plainSearch_split (ha : ∀ q ∈ a, q.name ≠ n) :
  plainSearch n (a ++ p :: b) = if p.name = n then p.value else plainSearch n b
  := by
  induction a with
  | nil => exact plainSearch_cons
  | cons q a ih =>
    rw [List.cons_append, plainSearch_cons, if_neg (ha q List.mem_cons_self)]
    apply ih
    intro x hx
    exact ha x (List.mem_cons_of_mem q hx)

/-- A parameter that is changed matters to its own name only. -/
theorem plainSearch_change {p' : Ipar} (hname : p'.name = p.name)
    (hvalue : p.name = n → p'.value = p.value) :
  plainSearch n (a ++ p' :: b) = plainSearch n (a ++ p :: b)
  := by
  induction a with
  | nil =>
    rw [List.nil_append, List.nil_append, plainSearch_cons, plainSearch_cons, hname]
    split
    · next h => exact hvalue h
    · rfl
  | cons q a ih => rw [List.cons_append, List.cons_append, plainSearch_cons, plainSearch_cons, ih]

theorem plainSearch_append_singleton (hn : p.name ≠ n) :
  plainSearch n (ps ++ [p]) = plainSearch n ps
  := by
  induction ps with
  | nil =>
    rw [List.nil_append, plainSearch_cons, if_neg hn]
  | cons q ps ih => rw [List.cons_append, plainSearch_cons, plainSearch_cons, ih]

/-- A name that is not there is not found. -/
theorem foundInputParam_none (h : ∀ q ∈ ps, q.name ≠ name) :
  foundInputParam name ps = none
  := by
  have hsearch : ∀ c, search c name ps = none := by
    intro c
    rw [search, List.findIdx?_eq_none_iff]
    intro q hq
    simp [h q hq]
  rw [foundInputParam, hsearch, hsearch]
  rfl

/-- The first parameter of a name is found where that fits. -/
theorem foundInputParam_first (ha : ∀ q ∈ a, q.name ≠ name) (hp : p.name = name)
    (hfits : Fits name (a ++ p :: b)) :
  foundInputParam name (a ++ p :: b) = some a.length
  := by
  have hfirst : (a ++ p :: b).find? (fun p => p.name = name) = some p := by
    rw [List.find?_eq_some_iff_append]
    refine ⟨by simpa using hp, a, b, rfl, ?_⟩
    simpa using ha
  cases hfound : p.found with
  | false =>
    have hsearch : search false name (a ++ p :: b) = some a.length := by
      apply findIdx_split
      · intro q hq
        simp [ha q hq]
      · simp [hfound, hp]
    rw [foundInputParam, hsearch]
    rfl
  | true =>
    have hall := hfits p hfirst hfound
    have hnone : search false name (a ++ p :: b) = none := by
      rw [search, List.findIdx?_eq_none_iff]
      intro q hq
      by_cases hname : q.name = name
      · simp [hall q hq hname]
      · simp [hname]
    have hsearch : search true name (a ++ p :: b) = some a.length := by
      apply findIdx_split
      · intro q hq
        simp [ha q hq]
      · simp [hfound, hp]
    rw [foundInputParam, hnone, hsearch]
    rfl

/-- A name is not there, or has a first parameter. -/
theorem first_or_none (name : CString) (ps : List Ipar) :
  (∀ q ∈ ps, q.name ≠ name)
    ∨ ∃ a p b, ps = a ++ p :: b ∧ p.name = name ∧ ∀ q ∈ a, q.name ≠ name
  := by
  cases h : ps.find? (fun p => p.name = name) with
  | none =>
    left
    simpa using List.find?_eq_none.mp h
  | some p =>
    right
    obtain ⟨hp, a, b, hps, ha⟩ := List.find?_eq_some_iff_append.mp h
    use a, p, b, hps, by simpa using hp
    simpa using ha

/-! ### Steps -/

theorem plainSearch_of_not_mem (h : ∀ q ∈ ps, q.name ≠ name) :
  plainSearch name ps = CString.empty
  := by
  have hnone : ps.find? (fun p => p.name = name) = none := by
    rw [List.find?_eq_none]
    simpa using h
  rw [plainSearch, hnone]
  rfl

/-- Where it fits, a name gives what a plain search gives, and later searches give the same. -/
theorem velyGetInputParam_plain (isTask : Bool) (hfits : Fits name req.ipars) :
  (velyGetInputParam name isTask req).1 = plainSearch name req.ipars
    ∧ ∀ n, plainSearch n (velyGetInputParam name isTask req).2.2.ipars = plainSearch n req.ipars
  := by
  obtain hnone | ⟨a, p, b, hps, hp, ha⟩ := first_or_none name req.ipars
  · rw [velyGetInputParam, foundInputParam_none hnone, plainSearch_of_not_mem hnone]
    exact ⟨rfl, fun n => rfl⟩
  · rw [hps] at hfits
    rw [velyGetInputParam, hps, foundInputParam_first ha hp hfits, plainSearch_split ha, if_pos hp]
    constructor
    · simp
    · intro n
      dsimp only
      rw [modify_split]
      exact plainSearch_change rfl fun _ => rfl

/-- Where it fits, a name that is set has the value, and the other names have theirs. -/
theorem velySetInput_plain (val : CString) (hfits : Fits name req.ipars) :
  plainSearch name (velySetInput name val req).2.ipars = val
    ∧ ∀ n, n ≠ name →
      plainSearch n (velySetInput name val req).2.ipars = plainSearch n req.ipars
  := by
  obtain hnone | ⟨a, p, b, hps, hp, ha⟩ := first_or_none name req.ipars
  · rw [velySetInput, velyGetInputParam, foundInputParam_none hnone]
    constructor
    · dsimp only
      rw [plainSearch_split hnone, if_pos rfl]
    · intro n hn
      exact plainSearch_append_singleton hn.symm
  · rw [hps] at hfits
    rw [velySetInput, velyGetInputParam, hps, foundInputParam_first ha hp hfits]
    dsimp only
    rw [modify_split, modify_split]
    constructor
    · rw [plainSearch_split ha]
      exact if_pos hp
    · intro n hn
      apply plainSearch_change
      · rfl
      · intro hname
        exact absurd (hname.symm.trans hp) hn

/-! ### Runs -/

theorem lookupsOk_of_fitsAll {ops : List Op} {last : CString → Option CString}
    (hlast : ∀ n, ∀ v ∈ last n, plainSearch n req.ipars = v) (hfits : FitsAll ops req) :
  LookupsOk ops last req
  := by
  induction ops generalizing last req with
  | nil => trivial
  | cons op ops ih =>
    cases op with
    | inputParam name isTask =>
      obtain ⟨hget, hsame⟩ := velyGetInputParam_plain isTask hfits.1
      refine ⟨⟨hget, ?_⟩, ?_⟩
      · intro v hv
        rw [hget]
        exact hlast name v hv
      · apply ih _ hfits.2
        intro n v hv
        rw [hsame]
        exact hlast n v hv
    | setInput name val =>
      obtain ⟨hset, hsame⟩ := velySetInput_plain val hfits.1
      apply ih _ hfits.2
      intro n v hv
      by_cases hn : n = name
      · subst hn
        rw [Function.update_self, Option.mem_some_iff] at hv
        rw [hset, hv]
      · rw [Function.update_of_ne hn] at hv
        rw [hsame n hn]
        exact hlast n v hv

/-- The names of the parameters. -/
def names (ps : List Ipar) : List CString := ps.map Ipar.name

theorem fits_of_nodup (name : CString) (h : (names ps).Nodup) :
  Fits name ps
  := by
  intro p hp hfound q hq hname
  obtain ⟨hpname, a, b, hps, -⟩ := List.find?_eq_some_iff_append.mp hp
  have hp' : p.name = name := by simpa using hpname
  have hmem : p ∈ ps := by simp [hps]
  have hqp : q = p := List.inj_on_of_nodup_map h hq hmem (hname.trans hp'.symm)
  rw [hqp]
  exact hfound

theorem names_modify {i : Nat} {f : Ipar → Ipar} (hf : ∀ q, (f q).name = q.name) :
  names (ps.modify i f) = names ps
  := by
  induction ps generalizing i with
  | nil => simp [names]
  | cons q ps ih =>
    cases i with
    | zero => simp [names, hf]
    | succ i =>
      have hrest : names (ps.modify i f) = names ps := ih
      rw [List.modify_succ_cons]
      exact congrArg (q.name :: ·) hrest

theorem names_velyGetInputParam {isTask : Bool} :
  names (velyGetInputParam name isTask req).2.2.ipars = names req.ipars
  := by
  rw [velyGetInputParam]
  split
  · exact names_modify fun _ => rfl
  · rfl

theorem names_velySetInput {val : CString} (h : (names req.ipars).Nodup) :
  (names (velySetInput name val req).2.ipars).Nodup
  := by
  obtain hnone | ⟨a, p, b, hps, hp, ha⟩ := first_or_none name req.ipars
  · rw [velySetInput, velyGetInputParam, foundInputParam_none hnone]
    dsimp only
    rw [names, List.map_append, List.nodup_append]
    refine ⟨h, List.nodup_singleton _, ?_⟩
    intro x hx y hy
    rw [List.map_singleton, List.mem_singleton] at hy
    obtain ⟨q, hq, rfl⟩ := List.mem_map.mp hx
    rw [hy]
    exact hnone q hq
  · have hfits := fits_of_nodup name h
    rw [hps] at hfits
    rw [velySetInput, velyGetInputParam, hps, foundInputParam_first ha hp hfits]
    dsimp only
    rw [names_modify, names_modify, ← hps]
    · exact h
    · intro q
      rfl
    · intro q
      rfl

/-- With different names, all steps fit. -/
theorem fitsAll_of_nodup {ops : List Op} (h : (names req.ipars).Nodup) :
  FitsAll ops req
  := by
  induction ops generalizing req with
  | nil => trivial
  | cons op ops ih =>
    cases op with
    | inputParam name isTask =>
      use fits_of_nodup name h
      apply ih
      rwa [names_velyGetInputParam]
    | setInput name val =>
      use fits_of_nodup name h
      exact ih (names_velySetInput h)

/-- Two parameters of one name, the first of them and the next one. -/
theorem exists_two (h : ¬ (names ps).Nodup) :
  ∃ a p b q c, ps = a ++ p :: b ++ q :: c ∧ q.name = p.name ∧ (∀ x ∈ a, x.name ≠ p.name)
    ∧ ∀ x ∈ b, x.name ≠ p.name
  := by
  obtain ⟨n, hn⟩ := List.exists_duplicate_iff_not_nodup.mpr h
  have hcount : 2 ≤ (names ps).count n := List.duplicate_iff_two_le_count.mp hn
  obtain hnone | ⟨a, p, r, hps, hp, ha⟩ := first_or_none n ps
  · exfalso
    obtain ⟨q, hq, hname⟩ := List.mem_map.mp hn.mem
    exact hnone q hq hname
  · have hrest : n ∈ names r := by
      have hnot : n ∉ names a := by
        intro hmem
        obtain ⟨q, hq, hname⟩ := List.mem_map.mp hmem
        exact ha q hq hname
      have hsplit : names ps = names a ++ p.name :: names r := by simp [names, hps]
      rw [hsplit, List.count_append, List.count_cons, List.count_eq_zero_of_not_mem hnot] at hcount
      apply List.count_pos_iff.mp
      split at hcount
      · omega
      · omega
    obtain hnone | ⟨b, q, c, hr, hq, hb⟩ := first_or_none n r
    · exfalso
      obtain ⟨q, hq, hname⟩ := List.mem_map.mp hrest
      exact hnone q hq hname
    · use a, p, b, q, c
      subst hp
      refine ⟨?_, hq, ha, hb⟩
      rw [hps, hr]
      simp

/-- The first parameter of a name without a mark is found. -/
theorem velyGetInputParam_unmarked (isTask : Bool) (hps : req.ipars = a ++ p :: b)
    (ha : ∀ x ∈ a, x.name = p.name → x.found = true) (hfound : p.found = false) :
  velyGetInputParam p.name isTask req
    = (p.value, some a.length, ⟨a ++ { p with found := true } :: b,
      if isTask then some a.length else req.task⟩)
  := by
  have hsearch : search false p.name req.ipars = some a.length := by
    rw [hps]
    apply findIdx_split
    · intro x hx
      have hmark := ha x hx
      by_cases hname : x.name = p.name
      · simp [hmark hname]
      · simp [hname]
    · simp [hfound]
  rw [velyGetInputParam, foundInputParam, hsearch, Option.some_or]
  dsimp only
  rw [hps, modify_split]
  simp

/-- A name that is looked for, set, and looked for again, gives the value that was set, where a
plain search gives that of the first parameter. -/
theorem not_lookupsOk {c : List Ipar} {q : Ipar} {val : CString}
    (hmark : ∀ x ∈ req.ipars, x.found = false) (hps : req.ipars = a ++ p :: b ++ q :: c)
    (hq : q.name = p.name) (ha : ∀ x ∈ a, x.name ≠ p.name) (hb : ∀ x ∈ b, x.name ≠ p.name)
    (hval : val ≠ p.value) :
  ¬ LookupsOk [.inputParam p.name false, .setInput p.name val, .inputParam p.name false]
    (fun _ => none) req
  := by
  have hbefore : ∀ x ∈ a ++ { p with found := true } :: b, x.name = q.name → x.found = true := by
    intro x hx hname
    rw [hq] at hname
    rw [List.mem_append, List.mem_cons] at hx
    obtain hx | rfl | hx := hx
    · exact absurd hname (ha x hx)
    · rfl
    · exact absurd hname (hb x hx)
  have hfirst : velyGetInputParam p.name false req
      = (p.value, some a.length,
        ⟨a ++ { p with found := true } :: (b ++ q :: c), req.task⟩) := by
    apply velyGetInputParam_unmarked false
    · simp [hps]
    · intro x hx h
      exact absurd h (ha x hx)
    · exact hmark p (by simp [hps])
  obtain ⟨req₁, hreq₁⟩ : ∃ req₁ : Inputs,
      req₁ = ⟨a ++ { p with found := true } :: (b ++ q :: c), req.task⟩ := ⟨_, rfl⟩
  have hipars : req₁.ipars = a ++ { p with found := true } :: b ++ q :: c := by simp [hreq₁]
  have hsecond := velyGetInputParam_unmarked false hipars hbefore (hmark q (by simp [hps]))
  have hset : (velySetInput q.name val req₁).2.ipars
      = a ++ { p with found := true } :: b ++ { q with value := val, found := false } :: c := by
    rw [velySetInput, hsecond]
    dsimp only
    rw [modify_split]
  have hthird := velyGetInputParam_unmarked false hset hbefore rfl
  have hsearch : plainSearch p.name (velySetInput q.name val req₁).2.ipars = p.value := by
    rw [hset, List.append_assoc, List.cons_append, plainSearch_split ha, if_pos rfl]
  rw [hq] at hsearch hthird
  rw [LookupsOk, LookupsOk, LookupsOk, hfirst]
  rintro ⟨-, ⟨hplain, -⟩, -⟩
  rw [← hreq₁, hthird, hsearch] at hplain
  exact hval hplain

/-- Look-ups of the parameters of a request give what they should in every run in which each name
fits when it is looked for or set, and they do so in all runs exactly when the names differ. -/
theorem lookupsOk_iff (params : List (CString × CString)) :
  (∀ ops, FitsAll ops (parsed params) → LookupsOk ops (fun _ => none) (parsed params))
    ∧ ((∀ ops, LookupsOk ops (fun _ => none) (parsed params))
      ↔ (params.map Prod.fst).Nodup)
  := by
  have hnames : names (parsed params).ipars = params.map Prod.fst := by simp [names, parsed]
  have hfits : ∀ ops, FitsAll ops (parsed params)
      → LookupsOk ops (fun _ => none) (parsed params) := by
    intro ops h
    apply lookupsOk_of_fitsAll _ h
    intro n v hv
    cases hv
  use hfits
  constructor
  · intro hall
    by_contra hnot
    rw [← hnames] at hnot
    obtain ⟨a, p, b, q, c, hps, hq, ha, hb⟩ := exists_two hnot
    have hmark : ∀ x ∈ (parsed params).ipars, x.found = false := by
      intro x hx
      obtain ⟨y, -, rfl⟩ := List.mem_map.mp hx
      rfl
    obtain ⟨val, hval⟩ : ∃ val, val ≠ p.value := by
      use p.value.append ⟨[1], by decide⟩
      intro h
      have hlength := congrArg CString.length h
      simp [CString.append, CString.length] at hlength
    exact not_lookupsOk hmark hps hq ha hb hval (hall _)
  · intro hnodup ops
    apply hfits
    apply fitsAll_of_nodup
    rwa [hnames]

end

/-- With two parameters of one name, the second time that the name is looked for gives the second.
-/
theorem not_lookupsOk_twice :
  ¬ LookupsOk [.inputParam ⟨[97], by decide⟩ false, .inputParam ⟨[97], by decide⟩ false]
    (fun _ => none)
    (parsed [(⟨[97], by decide⟩, ⟨[49], by decide⟩), (⟨[97], by decide⟩, ⟨[50], by decide⟩)])
  := by
  rintro ⟨-, ⟨hplain, -⟩, -⟩
  exact absurd hplain (by decide)

end Params

end Vely
