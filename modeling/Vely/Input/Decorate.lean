import Vely.Input.PathParams

/-!
# The name in a hierarchical path (`vely_decorate_path`)

The path and the name are in memory here, and the path is that of a request or that of a
`request-handler` statement.  The name has at most two bytes less than its memory; what is left of a
longer one is a name too.
-/

namespace Vely

/-! ### The name -/

/-- The loop that writes the name; `bound` is a bound on what is left of the path. -/
def nameLoop (path : Block) : Nat → Block → Nat → Nat → Except Stop (Block × Nat)
  | 0, _, _, _ => .error .fault
  | bound + 1, reqname, pbeg, i => do
    let c ← path.get pbeg
    if c ≠ 0 ∧ (i : Int) ≤ reqname.cells.length - 3 then
      if c = '/'.toUInt8 then do
        let reqname ← reqname.putAll i ['_'.toUInt8, '_'.toUInt8]
        nameLoop path bound reqname (pbeg + 1) (i + 2)
      else do
        let reqname ← reqname.put i (hyphenToUnderscore c)
        nameLoop path bound reqname (pbeg + 1) (i + 1)
    else return (reqname, i)

/-- Two underscores at the end of a name of `i` bytes are removed. -/
def removeUnderscores (reqname : Block) (i : Nat) : Except Stop Block :=
  if i > 1 then do
    let c ← reqname.get (i - 1)
    if c = '_'.toUInt8 then do
      let d ← reqname.get (i - 2)
      if d = '_'.toUInt8 then reqname.put (i - 2) 0 else return reqname
    else return reqname
  else .ok reqname

/-- The name for the path at `pbeg`. -/
def writeName (path reqname : Block) (pbeg : Nat) : Except Stop Block := do
  let (reqname, i) ← nameLoop path (path.cells.length + 1) reqname pbeg 0
  let reqname ← reqname.put i 0
  removeUnderscores reqname i

/-- `strncpy` of `n` bytes, filled up with zeros. -/
def strncpy (reqname : Block) (s : CString) (n : Nat) : Except Stop Block :=
  reqname.putAll 0 (s.bytes.take n ++ List.replicate (n - s.length) 0)

/-! ### The path -/

/-- What `vely_decorate_path` returns: there is no hierarchical path (0), there is one (1), it is
not closed (2), or there is a name alone (3). -/
inductive DecorateResult where
  | notFound
  | found
  | unclosed
  | nameAlone
  deriving DecidableEq

/-- What `vely_decorate_path` returns, the memory that it has written, and where the path goes on.
-/
structure Decorated where
  res : DecorateResult
  reqname : Block
  path : Block
  p : Nat

/-- The end of the path that is scanned from `p + pOff` on, and how far behind it the rest is. -/
def pathEnd (path : Block) (p : Nat) (pLen : Int) (isDash : Bool) (pOff : Nat) :
    Except Stop (Option (Nat × Nat)) := do
  let s ← path.string (p + pOff)
  match find id (ascii "_/") s.bytes with
  | some k => return some (p + pOff + k, 1)
  | none =>
    if (p : Int) + pLen - 1 < 0 then .error .fault
    else do
      let c ← path.get ((p : Int) + pLen - 1).toNat
      if c = '_'.toUInt8 then return some (((p : Int) + pLen - 1).toNat, 0)
      else if isDash then return none
      else return some (((p : Int) + pLen).toNat, 0)

/-- Where the scan starts: a slash behind `/_` is skipped too. -/
def scanOffset (path : Block) (p pOff : Nat) : Except Stop Nat :=
  if pOff = 2 then (fun c => if c = '/'.toUInt8 then 3 else 2) <$> path.get (p + 2) else .ok pOff

/-- The path whose scan starts `pOff` behind `p`, or one behind that. -/
def decorateFrom (reqname path : Block) (p : Nat) (pLen : Int) (isDash : Bool) (pOff : Nat) :
    Except Stop Decorated := do
  let pOff ← scanOffset path p pOff
  match ← pathEnd path p pLen isDash pOff with
  | none => return ⟨.unclosed, reqname, path, p⟩
  | some (ereq, endOff) => do
    let path ← path.put ereq 0
    let reqname ← writeName path reqname (p + pOff)
    return ⟨.found, reqname, path, ereq + endOff⟩

/-- `vely_decorate_path` -/
def velyDecorate (reqname path : Block) (p : Nat) (pLen : Int) (isDash : Bool) :
    Except Stop Decorated := do
  let c ← path.get p
  if isDash then
    if c ≠ '/'.toUInt8 then return ⟨.notFound, reqname, path, p⟩
    else do
      let d ← path.get (p + 1)
      if d ≠ '_'.toUInt8 then return ⟨.notFound, reqname, path, p⟩
      else decorateFrom reqname path p pLen isDash 2
  else if c ≠ '/'.toUInt8 then do
    let s ← path.string p
    if '/'.toUInt8 ∈ s.bytes then return ⟨.notFound, reqname, path, p⟩
    else do
      let reqname ← strncpy reqname s (reqname.cells.length - 1)
      let reqname ← reqname.put (reqname.cells.length - 1) 0
      return ⟨.nameAlone, reqname, path, p⟩
  else do
    let d ← path.get (p + 1)
    decorateFrom reqname path p pLen isDash (if d = '_'.toUInt8 then 2 else 1)

/-! ### What is written -/

section Name

variable {path reqname : Block} {text res : List UInt8}

/-- Memory for a name, the first bytes of which are written. -/
def NameMem (reqname : Block) (res : List UInt8) : Prop :=
  reqname.cells.length = maxReqNameLen ∧ ∃ rest, reqname.cells = res.map some ++ rest

theorem NameMem.put (h : NameMem reqname res) (hres : res.length < maxReqNameLen) (c : UInt8) :
  ∃ reqname', reqname.put res.length c = .ok reqname' ∧ NameMem reqname' (res ++ [c])
  := by
  obtain ⟨hlen, rest, hcells⟩ := h
  have hrest : rest ≠ [] := by
    rintro rfl
    have hlen' := congrArg List.length hcells
    simp only [List.append_nil, List.length_map] at hlen'
    omega
  obtain ⟨x, rest', rfl⟩ := List.exists_cons_of_ne_nil hrest
  refine ⟨_, Block.put_of_cells c hcells (by simp), ?_, rest', by simp⟩
  rw [← hlen, hcells]
  simp

theorem NameMem.get {c : UInt8} (h : NameMem reqname (res ++ c :: text)) :
  reqname.get res.length = .ok c
  := by
  obtain ⟨-, rest, hcells⟩ := h
  apply Block.get_of_cells (l := res.map some) (r := text.map some ++ rest)
  · simp [hcells]
  · simp

/-- The bytes that are written last may be written again. -/
theorem NameMem.left (h : NameMem reqname (res ++ text)) :
  NameMem reqname res
  := by
  obtain ⟨hlen, rest, hcells⟩ := h
  refine ⟨hlen, text.map some ++ rest, ?_⟩
  rw [hcells, List.map_append, List.append_assoc]

theorem NameMem.string {name : CString} (h : NameMem reqname (name.bytes ++ [0])) :
  reqname.string 0 = .ok name
  := by
  obtain ⟨-, rest, hcells⟩ := h
  apply Block.string_of_cells (l := []) (r := rest) name _ rfl
  rw [hcells]
  simp

theorem hyphenToUnderscore_ne_zero {c : UInt8} (hc : c ≠ 0) :
  hyphenToUnderscore c ≠ 0
  := by
  rw [hyphenToUnderscore]
  split
  · decide
  · exact hc

/-- A name has no terminator in it. -/
theorem zero_notMem_decorateLoop (hz : 0 ∉ text) (hres : 0 ∉ res) :
  0 ∉ decorateLoop text res
  := by
  induction text generalizing res with
  | nil => exact hres
  | cons c text ih =>
    simp only [List.mem_cons, not_or] at hz
    rw [decorateLoop]
    split
    · split
      · apply ih hz.2
        simp only [List.mem_append, not_or]
        exact ⟨hres, by decide⟩
      · apply ih hz.2
        simp only [List.mem_append, List.mem_singleton, not_or]
        exact ⟨hres, (hyphenToUnderscore_ne_zero (Ne.symm hz.1)).symm⟩
    · exact hres

/-- The name is written to its memory. -/
theorem nameLoop_eq {l r : List (Option UInt8)} {pbeg bound : Nat}
    (hpath : path.cells = l ++ (text.map some ++ some 0 :: r)) (hpbeg : pbeg = l.length)
    (hz : 0 ∉ text) (hname : NameMem reqname res) (hres : res.length < maxReqNameLen)
    (hbound : text.length < bound) :
  ∃ reqname', nameLoop path bound reqname pbeg res.length
      = .ok (reqname', (decorateLoop text res).length)
    ∧ NameMem reqname' (decorateLoop text res) ∧ (decorateLoop text res).length < maxReqNameLen
  := by
  induction text generalizing l pbeg bound reqname res with
  | nil =>
    obtain _ | bound := bound
    · cases hbound
    refine ⟨reqname, ?_, hname, hres⟩
    rw [nameLoop, Block.get_of_cells (l := l) (r := r) (by rw [hpath]; rfl) hpbeg, ok_bind,
      if_neg (by simp)]
    rfl
  | cons c text ih =>
    obtain _ | bound := bound
    · cases hbound
    simp only [List.mem_cons, not_or] at hz
    have hget : path.get pbeg = .ok c := by
      apply Block.get_of_cells (l := l) (r := text.map some ++ some 0 :: r) _ hpbeg
      rw [hpath]
      rfl
    have hpath' : path.cells = (l ++ [some c]) ++ (text.map some ++ some 0 :: r) := by
      rw [hpath]
      simp
    have hpbeg' : pbeg + 1 = (l ++ [some c]).length := by
      simp [hpbeg]
    have hlen := hname.1
    have hroom : (res.length : Int) ≤ reqname.cells.length - 3 ↔ res.length ≤ maxReqNameLen - 3 := by
      rw [hlen, maxReqNameLen]
      omega
    rw [nameLoop, hget, ok_bind, decorateLoop]
    by_cases hle : res.length ≤ maxReqNameLen - 3
    · have hroom' : res.length + 2 < maxReqNameLen := by
        rw [maxReqNameLen] at *
        omega
      rw [if_pos ⟨Ne.symm hz.1, hroom.mpr hle⟩, if_pos hle]
      by_cases hc : c = '/'.toUInt8
      · obtain ⟨b, hput, hb⟩ := hname.put hres '_'.toUInt8
        obtain ⟨b', hput', hb'⟩ := hb.put (by simp; omega) '_'.toUInt8
        rw [List.length_append, List.length_singleton] at hput'
        rw [List.append_assoc, List.singleton_append] at hb'
        have hall : reqname.putAll res.length ['_'.toUInt8, '_'.toUInt8] = .ok b' := by
          rw [Block.putAll, hput, ok_bind, Block.putAll, hput', ok_bind, Block.putAll]
        have hlength : res.length + 2 = (res ++ ['_'.toUInt8, '_'.toUInt8]).length := by simp
        rw [if_pos hc, if_pos hc, hall, ok_bind, hlength]
        apply ih hpath' hpbeg' hz.2 hb' (by rwa [← hlength]) (Nat.lt_of_succ_lt_succ hbound)
      · obtain ⟨b, hput, hb⟩ := hname.put hres (hyphenToUnderscore c)
        have hlength : res.length + 1 = (res ++ [hyphenToUnderscore c]).length := by simp
        rw [if_neg hc, if_neg hc, hput, ok_bind, hlength]
        apply ih hpath' hpbeg' hz.2 hb _ (Nat.lt_of_succ_lt_succ hbound)
        rw [← hlength]
        omega
    · rw [if_neg (fun h => hle (hroom.mp h.2)), if_neg hle]
      exact ⟨reqname, rfl, hname, hres⟩

/-- The name without two underscores at its end. -/
theorem removeUnderscores_eq (h : NameMem reqname (res ++ [0])) (hz : 0 ∉ res) :
  ∃ reqname' name, removeUnderscores reqname res.length = .ok reqname'
    ∧ reqname'.cells.length = maxReqNameLen ∧ reqname'.string 0 = .ok name
    ∧ name.bytes = if ['_'.toUInt8, '_'.toUInt8].isSuffixOf res then res.take (res.length - 2) else res
  := by
  rcases Nat.lt_or_ge 1 res.length with hlt | hle
  · obtain rfl | ⟨res', c, rfl⟩ := List.eq_nil_or_concat res
    · cases hlt
    obtain rfl | ⟨init, d, rfl⟩ := List.eq_nil_or_concat res'
    · simp at hlt
    simp only [List.concat_eq_append, List.append_assoc, List.cons_append, List.nil_append] at *
    have hlen : (init ++ [d, c]).length = init.length + 2 := by simp
    have hsame : reqname.string 0 = .ok ⟨init ++ [d, c], hz⟩ := by
      apply NameMem.string
      rwa [List.append_assoc]
    have hc : reqname.get (init.length + 1) = .ok c := by
      have hget := @NameMem.get reqname [0] (init ++ [d]) c (by simpa using h)
      rwa [List.length_append] at hget
    have hd : reqname.get init.length = .ok d := @NameMem.get reqname [c, 0] init d h
    have hsuffix : ['_'.toUInt8, '_'.toUInt8].isSuffixOf (init ++ [d, c]) = true
        ↔ d = '_'.toUInt8 ∧ c = '_'.toUInt8 := by
      rw [List.isSuffixOf_iff_suffix]
      constructor
      · rintro ⟨t, ht⟩
        have hend := List.append_inj_right' ht rfl
        simp only [List.cons.injEq, and_true] at hend
        exact ⟨hend.1.symm, hend.2.symm⟩
      · rintro ⟨rfl, rfl⟩
        exact ⟨init, rfl⟩
    rw [removeUnderscores, if_pos hlt, hlen]
    change ∃ reqname' name, (reqname.get (init.length + 1) >>= _) = _ ∧ _
    rw [hc, ok_bind]
    by_cases hcu : c = '_'.toUInt8
    · rw [if_pos hcu]
      change ∃ reqname' name, (reqname.get init.length >>= _) = _ ∧ _
      rw [hd, ok_bind]
      by_cases hdu : d = '_'.toUInt8
      · have hroom : init.length < maxReqNameLen := by
          obtain ⟨hmem, rest, hcells⟩ := h
          rw [← hmem, hcells]
          simp
        obtain ⟨b, hput, hb⟩ := h.left.put hroom 0
        rw [if_pos hdu, if_pos (hsuffix.mpr ⟨hdu, hcu⟩)]
        have hinit : 0 ∉ init := fun hmem => hz (by simp [hmem])
        refine ⟨b, ⟨init, hinit⟩, hput, hb.1, NameMem.string hb, ?_⟩
        simp
      · rw [if_neg hdu, if_neg (fun hs => hdu (hsuffix.mp hs).1)]
        exact ⟨reqname, ⟨_, hz⟩, rfl, h.1, hsame, rfl⟩
    · rw [if_neg hcu, if_neg (fun hs => hcu (hsuffix.mp hs).2)]
      exact ⟨reqname, ⟨_, hz⟩, rfl, h.1, hsame, rfl⟩
  · have hsuffix : ¬ ['_'.toUInt8, '_'.toUInt8].isSuffixOf res = true := by
      intro hs
      have hlen := (List.isSuffixOf_iff_suffix.mp hs).length_le
      simp only [List.length_cons, List.length_nil] at hlen
      omega
    rw [removeUnderscores, if_neg (by omega), if_neg hsuffix]
    exact ⟨reqname, ⟨res, hz⟩, rfl, h.1, NameMem.string h, rfl⟩

/-- The name for a path is written, and nothing outside of its memory. -/
theorem writeName_eq {l r : List (Option UInt8)} {pbeg : Nat}
    (hpath : path.cells = l ++ (text.map some ++ some 0 :: r)) (hpbeg : pbeg = l.length)
    (hz : 0 ∉ text) (hname : reqname.cells.length = maxReqNameLen) :
  ∃ reqname' name, writeName path reqname pbeg = .ok reqname'
    ∧ reqname'.cells.length = maxReqNameLen ∧ reqname'.string 0 = .ok name
    ∧ name.bytes = decoratedName text
  := by
  have hbound : text.length < path.cells.length + 1 := by
    rw [hpath]
    simp
    omega
  have hempty : NameMem reqname [] := ⟨hname, reqname.cells, rfl⟩
  obtain ⟨b, hloop, hb, hlen⟩ := nameLoop_eq hpath hpbeg hz hempty (by decide) hbound
  rw [List.length_nil] at hloop
  obtain ⟨b', hput, hb'⟩ := hb.put hlen 0
  obtain ⟨b'', name, hremove, hrest⟩ :=
    removeUnderscores_eq hb' (zero_notMem_decorateLoop hz (by simp))
  refine ⟨b'', name, ?_, hrest⟩
  rw [writeName, hloop, ok_bind]
  simp only
  rw [hput, ok_bind, hremove]

/-- A path up to `ereq` is found, and its name is written. -/
theorem decorateFrom_found {l r : List (Option UInt8)} {x : Option UInt8} {p pOff off endOff : Nat}
    {pLen : Int} {isDash : Bool} (hoff : scanOffset path p pOff = .ok off)
    (hend : pathEnd path p pLen isDash off = .ok (some (p + off + text.length, endOff)))
    (hpath : path.cells = l ++ text.map some ++ x :: r) (hl : p + off = l.length) (hz : 0 ∉ text)
    (hname : reqname.cells.length = maxReqNameLen) :
  ∃ reqname' name, decorateFrom reqname path p pLen isDash pOff
      = .ok ⟨.found, reqname', ⟨l ++ text.map some ++ some 0 :: r⟩, p + off + text.length + endOff⟩
    ∧ reqname'.cells.length = maxReqNameLen ∧ reqname'.string 0 = .ok name
    ∧ name.bytes = decoratedName text
  := by
  have hput : path.put (p + off + text.length) 0 = .ok ⟨l ++ text.map some ++ some 0 :: r⟩ := by
    apply Block.put_of_cells 0 hpath
    simp [hl]
  have hcells : (Block.mk (l ++ text.map some ++ some 0 :: r)).cells
      = l ++ (text.map some ++ some 0 :: r) := by simp
  obtain ⟨reqname', name, hwrite, hrest⟩ := writeName_eq hcells hl hz hname
  refine ⟨reqname', name, ?_, hrest⟩
  rw [decorateFrom, hoff, ok_bind, hend, ok_bind]
  simp only
  rw [hput, ok_bind, hwrite]
  rfl

end Name

end Vely
