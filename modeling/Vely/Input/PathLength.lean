import Vely.Input.Decorate
import Vely.Input.PathNames

/-!
# The length of the path of a request

The length that is passed on is that of the whole path (`snprintf`), and what is in memory is as
much of it as there is room for.
-/

namespace Vely

/-! ### Putting the path together -/

/-- `script_name` without a slash at its end; its length is an `int`. -/
def cutScriptName (scriptName : CString) : CString :=
  let snLen := int32 scriptName.length
  if snLen > 0 ∧ byteAt scriptName.bytes (snLen - 1).toNat = '/'.toUInt8 then
    ⟨scriptName.bytes.take (snLen - 1).toNat, fun h => scriptName.nonzero (List.mem_of_mem_take h)⟩
  else scriptName

/-- The text of the path; the width of `script_name` in the format is never more than its length. -/
def pathText (scriptName pathInfo : CString) : CString := (cutScriptName scriptName).append pathInfo

/-- What `snprintf` returns for a text: its length, where that is an `int`. -/
def snprintfLength (text : CString) : Int := if text.length < 2 ^ 31 then text.length else -1

/-- The string in the memory for the path. -/
def keptPath (text : CString) : CString :=
  ⟨text.bytes.take (maxPath - 1), fun h => text.nonzero (List.mem_of_mem_take h)⟩

/-- A string and its terminator, in memory of their own. -/
def Block.ofString (s : CString) : Block := ⟨s.bytes.map some ++ [some 0]⟩

/-- What is passed to `vely_decorate_path`: the string in memory, the place in it, and the length
from there on. -/
structure PathCall where
  fullPath : CString
  p : Nat
  pLen : Int

/-- The call of `vely_decorate_path` in `vely_get_input`; there is none where the path does not
start with the path of the application, or where nothing is behind that. -/
def pathCall (scriptName pathInfo appPath : CString) : Option PathCall :=
  let text := pathText scriptName pathInfo
  let fullPathLen := snprintfLength text
  let fullPath := keptPath text
  let p := appPath.length
  if strcasecmp (fullPath.bytes.take p) appPath.bytes then
    if byteAt fullPath.bytes p ≠ '/'.toUInt8 ∨ byteAt fullPath.bytes (p + 1) = 0
        ∨ byteAt fullPath.bytes (p + 1) = '?'.toUInt8 then none
    else some ⟨fullPath, p, fullPathLen - p⟩
  else none

/-- The length is that of the string from the place on, and nothing but the string and the memory
for the name is read and written. -/
def PathCall.Safe (call : PathCall) : Prop :=
  (∃ s, (Block.ofString call.fullPath).string call.p = .ok s ∧ call.pLen = s.length)
    ∧ ∀ reqname : Block, reqname.cells.length = maxReqNameLen →
      ∃ d, velyDecorate reqname (Block.ofString call.fullPath) call.p call.pLen true = .ok d
        ∧ d.reqname.cells.length = maxReqNameLen

/-! ### The path that is passed on -/

/-- A byte that is not zero is in the list. -/
theorem drop_of_byteAt {bs : List UInt8} {p : Nat} {c : UInt8} (h : byteAt bs p = c) (hc : c ≠ 0) :
  p < bs.length ∧ bs.drop p = c :: bs.drop (p + 1)
  := by
  have hlt : p < bs.length := by
    by_contra hge
    apply hc
    rw [← h, byteAt, List.getD_eq_getElem?_getD, List.getElem?_eq_none (not_lt.mp hge)]
    rfl
  refine ⟨hlt, ?_⟩
  rw [List.drop_eq_getElem_cons hlt, ← h, byteAt, List.getD_eq_getElem?_getD,
    List.getElem?_eq_getElem hlt]
  rfl

/-- Where there is a call, a slash and one more byte are behind the path of the application. -/
theorem pathCall_some {scriptName pathInfo appPath : CString} {call : PathCall}
    (h : pathCall scriptName pathInfo appPath = some call) :
  ∃ pre c rest, call.fullPath = keptPath (pathText scriptName pathInfo)
    ∧ call.fullPath.bytes = pre ++ '/'.toUInt8 :: c :: rest ∧ call.p = pre.length
    ∧ call.pLen = snprintfLength (pathText scriptName pathInfo) - pre.length
  := by
  rw [pathCall] at h
  split at h
  · split at h
    · cases h
    · next hbytes =>
      simp only [not_or, not_not] at hbytes
      obtain ⟨h0, h1, -⟩ := hbytes
      obtain rfl := Option.some.inj h
      obtain ⟨hlt, hdrop⟩ := drop_of_byteAt h0 (by decide)
      obtain ⟨-, hdrop'⟩ := drop_of_byteAt rfl h1
      have hlen : ((keptPath (pathText scriptName pathInfo)).bytes.take appPath.length).length
          = appPath.length := by
        rw [List.length_take]
        omega
      have hsplit := List.take_append_drop appPath.length
        (keptPath (pathText scriptName pathInfo)).bytes
      rw [hdrop, hdrop'] at hsplit
      refine ⟨_, _, _, rfl, hsplit.symm, hlen.symm, ?_⟩
      simp only
      rw [hlen]
  · cases h

/-! ### What is read and written -/

section Safe

variable {s : CString} {pre rest : List UInt8} {reqname : Block}

/-- Where a path that starts as a hierarchical one is scanned from. -/
theorem scanOffset_ofString (hs : s.bytes = pre ++ '/'.toUInt8 :: '_'.toUInt8 :: rest) :
  ∃ front back, rest = front ++ back ∧ (front = [] ∨ front = ['/'.toUInt8])
    ∧ scanOffset (Block.ofString s) pre.length 2 = .ok (2 + front.length)
  := by
  have hcells : (Block.ofString s).cells = (pre ++ ['/'.toUInt8, '_'.toUInt8]).map some
      ++ (rest.map some ++ [some 0]) := by
    rw [Block.ofString, hs]
    simp
  have hl : pre.length + 2 = ((pre ++ ['/'.toUInt8, '_'.toUInt8]).map some).length := by simp
  cases rest with
  | nil =>
    refine ⟨[], [], rfl, Or.inl rfl, ?_⟩
    rw [scanOffset, if_pos rfl, Block.get_of_cells hcells hl]
    rfl
  | cons d rest =>
    have hget : (Block.ofString s).get (pre.length + 2) = .ok d :=
      Block.get_of_cells (r := rest.map some ++ [some 0]) hcells hl
    rw [scanOffset, if_pos rfl, hget]
    by_cases hd : d = '/'.toUInt8
    · subst hd
      exact ⟨['/'.toUInt8], rest, rfl, Or.inr rfl, rfl⟩
    · refine ⟨[], d :: rest, rfl, Or.inl rfl, ?_⟩
      change Except.ok (if d = '/'.toUInt8 then 3 else 2) = _
      rw [if_neg hd]
      rfl

/-- The only underscore of a path is that at its end. -/
theorem decorateFrom_underscore (hs : s.bytes = pre ++ ['/'.toUInt8, '_'.toUInt8])
    (hname : reqname.cells.length = maxReqNameLen) :
  ∃ d, decorateFrom reqname (Block.ofString s) pre.length 2 true 2 = .ok d
    ∧ d.reqname.cells.length = maxReqNameLen
  := by
  have hcells : (Block.ofString s).cells = (pre ++ ['/'.toUInt8]).map some
      ++ some '_'.toUInt8 :: [some 0] := by
    rw [Block.ofString, hs]
    simp
  have hl : pre.length + 1 = ((pre ++ ['/'.toUInt8]).map some).length := by simp
  have hcells' : (Block.ofString s).cells = ((pre ++ ['/'.toUInt8, '_'.toUInt8]).map some)
      ++ ((([] : List UInt8)).map some ++ some 0 :: []) := by
    rw [Block.ofString, hs]
    simp
  have hl' : pre.length + 2 = ((pre ++ ['/'.toUInt8, '_'.toUInt8]).map some).length := by simp
  have hoff : scanOffset (Block.ofString s) pre.length 2 = .ok 2 := by
    rw [scanOffset, if_pos rfl, Block.get_of_cells hcells' hl']
    rfl
  have hlast : ((pre.length : Int) + 2 - 1).toNat = pre.length + 1 := by
    omega
  have hend : pathEnd (Block.ofString s) pre.length 2 true 2 = .ok (some (pre.length + 1, 0)) := by
    rw [pathEnd, Block.string_of_cells CString.empty hcells' hl', ok_bind]
    change (if (pre.length : Int) + 2 - 1 < 0 then Except.error Stop.fault else _) = _
    rw [if_neg (by omega), hlast, Block.get_of_cells hcells hl, ok_bind, if_pos rfl]
    rfl
  have hwritten : (Block.mk ((pre ++ ['/'.toUInt8]).map some ++ some 0 :: [some 0])).cells
      = ((pre ++ ['/'.toUInt8]).map some ++ [some 0]) ++ (([] : List UInt8).map some ++ some 0 :: []) := by
    simp
  obtain ⟨reqname', name, hwrite, hlen, -⟩ := writeName_eq hwritten
    (show pre.length + 2 = _ by simp) (by simp) hname
  use ⟨.found, reqname', ⟨(pre ++ ['/'.toUInt8]).map some ++ some 0 :: [some 0]⟩, pre.length + 1⟩
  constructor
  · rw [decorateFrom, hoff, ok_bind, hend, ok_bind]
    simp only
    rw [Block.put_of_cells 0 hcells hl, ok_bind, hwrite]
    rfl
  · exact hlen

/-- A path that starts as a hierarchical one is read and written inside of its string. -/
theorem decorateFrom_ok (hs : s.bytes = pre ++ '/'.toUInt8 :: '_'.toUInt8 :: rest)
    (hname : reqname.cells.length = maxReqNameLen) :
  ∃ d, decorateFrom reqname (Block.ofString s) pre.length ((rest.length : Int) + 2) true 2 = .ok d
    ∧ d.reqname.cells.length = maxReqNameLen
  := by
  obtain ⟨front, back, rfl, hfront, hoff⟩ := scanOffset_ofString hs
  have hz : 0 ∉ back := fun h => s.nonzero (by rw [hs]; simp [h])
  have hcells : (Block.ofString s).cells
      = (pre ++ ['/'.toUInt8, '_'.toUInt8] ++ front).map some ++ (back.map some ++ [some 0]) := by
    rw [Block.ofString, hs]
    simp
  have hl : pre.length + (2 + front.length)
      = ((pre ++ ['/'.toUInt8, '_'.toUInt8] ++ front).map some).length := by
    simp
    omega
  have hstring := Block.string_of_cells ⟨back, hz⟩ hcells hl
  cases hfind : find id (ascii "_/") back with
  | some j =>
    obtain ⟨hback, -⟩ := find_closing_some hfind
    have hj : (back.take j).length = j := by
      have hlen := congrArg List.length hback
      simp only [List.length_append, List.length_take, List.length_cons, List.length_drop] at hlen
      rw [List.length_take]
      omega
    have hend : pathEnd (Block.ofString s) pre.length (((front ++ back).length : Int) + 2) true
        (2 + front.length)
        = .ok (some (pre.length + (2 + front.length) + (back.take j).length, 1)) := by
      rw [pathEnd, hstring, ok_bind, hj]
      simp only
      rw [hfind]
      rfl
    have hcells' : (Block.ofString s).cells
        = (pre ++ ['/'.toUInt8, '_'.toUInt8] ++ front).map some ++ (back.take j).map some
          ++ some '_'.toUInt8 :: (('/'.toUInt8 :: back.drop (j + 2)).map some ++ [some 0]) := by
      rw [hcells]
      conv_lhs => rw [hback]
      simp
    have hz' : 0 ∉ back.take j := fun h => hz (List.mem_of_mem_take h)
    obtain ⟨reqname', name, hfound, hlen, -⟩ :=
      decorateFrom_found hoff hend hcells' hl hz' hname
    exact ⟨_, hfound, hlen⟩
  | none =>
    have hpos : ((pre.length : Int) + (((front ++ back).length : Int) + 2) - 1).toNat
        = pre.length + (1 + front.length + back.length) := by
      rw [List.length_append]
      omega
    have hend : ∀ {e : UInt8}, (Block.ofString s).get (pre.length + (1 + front.length + back.length))
          = .ok e →
        pathEnd (Block.ofString s) pre.length (((front ++ back).length : Int) + 2) true
          (2 + front.length)
        = .ok (if e = '_'.toUInt8 then some (pre.length + (1 + front.length + back.length), 0)
          else none) := by
      intro e he
      rw [pathEnd, hstring, ok_bind]
      simp only
      rw [hfind]
      simp only
      rw [if_neg (by omega), hpos, he, ok_bind]
      split <;> rfl
    obtain rfl | ⟨init, e, rfl⟩ := List.eq_nil_or_concat back
    · obtain rfl | rfl := hfront
      · apply decorateFrom_underscore hs hname
      · -- The last byte is the slash behind the underscore: the path is not closed.
        have hget : (Block.ofString s).get (pre.length + (1 + ['/'.toUInt8].length + 0))
            = .ok '/'.toUInt8 := by
          apply Block.get_of_cells (l := (pre ++ ['/'.toUInt8, '_'.toUInt8]).map some)
            (r := [some 0])
          · rw [hcells]
            simp
          · simp
        refine ⟨⟨.unclosed, reqname, Block.ofString s, pre.length⟩, ?_, hname⟩
        rw [decorateFrom, hoff, ok_bind, hend hget, ok_bind, if_neg (by decide)]
        rfl
    · rw [List.concat_eq_append] at *
      have hget : (Block.ofString s).get (pre.length + (1 + front.length + (init ++ [e]).length))
          = .ok e := by
        apply Block.get_of_cells
          (l := (pre ++ ['/'.toUInt8, '_'.toUInt8] ++ front ++ init).map some) (r := [some 0])
        · rw [hcells]
          simp
        · simp
          omega
      have hend' := hend hget
      by_cases he : e = '_'.toUInt8
      · have hereq : pre.length + (1 + front.length + (init ++ [e]).length)
            = pre.length + (2 + front.length) + init.length := by
          simp
          omega
        rw [if_pos he, hereq] at hend'
        have hcells' : (Block.ofString s).cells
            = (pre ++ ['/'.toUInt8, '_'.toUInt8] ++ front).map some ++ init.map some
              ++ some e :: [some 0] := by
          rw [hcells]
          simp
        have hz' : 0 ∉ init := fun h => hz (List.mem_append_left _ h)
        obtain ⟨reqname', name, hfound, hlen, -⟩ :=
          decorateFrom_found hoff hend' hcells' hl hz' hname
        exact ⟨_, hfound, hlen⟩
      · rw [if_neg he] at hend'
        refine ⟨⟨.unclosed, reqname, Block.ofString s, pre.length⟩, ?_, hname⟩
        rw [decorateFrom, hoff, ok_bind, hend', ok_bind]
        rfl

/-- A path with its own length is read and written inside of its string. -/
theorem velyDecorate_ok {c : UInt8} (hs : s.bytes = pre ++ '/'.toUInt8 :: c :: rest)
    (hname : reqname.cells.length = maxReqNameLen) :
  ∃ d, velyDecorate reqname (Block.ofString s) pre.length ((rest.length : Int) + 2) true = .ok d
    ∧ d.reqname.cells.length = maxReqNameLen
  := by
  have h0 : (Block.ofString s).get pre.length = .ok '/'.toUInt8 := by
    apply Block.get_of_cells (l := pre.map some) (r := (c :: rest).map some ++ [some 0])
    · rw [Block.ofString, hs]
      simp
    · simp
  have h1 : (Block.ofString s).get (pre.length + 1) = .ok c := by
    apply Block.get_of_cells (l := (pre ++ ['/'.toUInt8]).map some) (r := rest.map some ++ [some 0])
    · rw [Block.ofString, hs]
      simp
    · simp
  rw [velyDecorate, h0, ok_bind, if_pos rfl, if_neg (by simp), h1, ok_bind]
  by_cases hc : c = '_'.toUInt8
  · subst hc
    rw [if_neg (by simp)]
    apply decorateFrom_ok hs hname
  · rw [if_pos hc]
    exact ⟨_, rfl, hname⟩

/-- A length behind the terminator of a path that is not closed is read outside of its string. -/
theorem velyDecorate_fault {pLen : Int}
    (hs : s.bytes = pre ++ '/'.toUInt8 :: '_'.toUInt8 :: 'a'.toUInt8 :: rest)
    (hfind : find id (ascii "_/") ('a'.toUInt8 :: rest) = none) (hlong : rest.length + 4 < pLen) :
  velyDecorate reqname (Block.ofString s) pre.length pLen true = .error .fault
  := by
  have hz : 0 ∉ 'a'.toUInt8 :: rest := by
    intro h
    apply s.nonzero
    rw [hs]
    exact List.mem_append_right _ (List.mem_cons_of_mem _ (List.mem_cons_of_mem _ h))
  have h0 : (Block.ofString s).get pre.length = .ok '/'.toUInt8 := by
    apply Block.get_of_cells (l := pre.map some)
      (r := ('_'.toUInt8 :: 'a'.toUInt8 :: rest).map some ++ [some 0])
    · rw [Block.ofString, hs]
      simp
    · simp
  have h1 : (Block.ofString s).get (pre.length + 1) = .ok '_'.toUInt8 := by
    apply Block.get_of_cells (l := (pre ++ ['/'.toUInt8]).map some)
      (r := ('a'.toUInt8 :: rest).map some ++ [some 0])
    · rw [Block.ofString, hs]
      simp
    · simp
  have hcells : (Block.ofString s).cells = (pre ++ ['/'.toUInt8, '_'.toUInt8]).map some
      ++ (('a'.toUInt8 :: rest).map some ++ some 0 :: []) := by
    rw [Block.ofString, hs]
    simp
  have hl : pre.length + 2 = ((pre ++ ['/'.toUInt8, '_'.toUInt8]).map some).length := by simp
  have hoff : scanOffset (Block.ofString s) pre.length 2 = .ok 2 := by
    rw [scanOffset, if_pos rfl,
      Block.get_of_cells (r := rest.map some ++ [some 0]) hcells hl]
    rfl
  have hend : (Block.ofString s).get ((pre.length : Int) + pLen - 1).toNat = .error .fault := by
    apply Block.get_of_length_le
    rw [hcells]
    simp only [List.length_append, List.length_map, List.length_cons, List.length_nil]
    omega
  have hpathEnd : pathEnd (Block.ofString s) pre.length pLen true 2 = .error .fault := by
    rw [pathEnd, Block.string_of_cells ⟨_, hz⟩ hcells hl, ok_bind]
    simp only
    rw [hfind]
    simp only
    rw [if_neg (by omega), hend]
    rfl
  rw [velyDecorate, h0, ok_bind, if_pos rfl, if_neg (by simp), h1, ok_bind, if_neg (by simp),
    decorateFrom, hoff, ok_bind, hpathEnd]
  rfl

end Safe

/-- A call is safe when there is memory for the whole path. -/
theorem call_safe_iff {text : CString} {call : PathCall} {pre rest : List UInt8} {c : UInt8}
    (hkept : call.fullPath = keptPath text)
    (hbytes : call.fullPath.bytes = pre ++ '/'.toUInt8 :: c :: rest) (hp : call.p = pre.length)
    (hpLen : call.pLen = snprintfLength text - pre.length) :
  call.Safe ↔ text.length < maxPath
  := by
  have hmax : maxPath = 2512 := rfl
  have htake : call.fullPath.bytes.length = min (maxPath - 1) text.length := by
    rw [hkept, keptPath]
    exact List.length_take
  have hlen : call.fullPath.bytes.length = pre.length + (rest.length + 2) := by
    rw [hbytes]
    simp
  have hz : 0 ∉ '/'.toUInt8 :: c :: rest := by
    intro h
    apply call.fullPath.nonzero
    rw [hbytes]
    exact List.mem_append_right _ h
  have hstring : (Block.ofString call.fullPath).string call.p = .ok ⟨'/'.toUInt8 :: c :: rest, hz⟩ := by
    apply Block.string_of_cells (l := pre.map some) (r := [])
    · rw [Block.ofString, hbytes]
      simp
    · simp [hp]
  have hlength : (CString.mk ('/'.toUInt8 :: c :: rest) hz).length = rest.length + 2 := rfl
  constructor
  · rintro ⟨⟨s, hs, hpLen'⟩, -⟩
    rw [hstring] at hs
    cases hs
    rw [hpLen, hlength, snprintfLength] at hpLen'
    split at hpLen'
    · omega
    · omega
  · intro hlt
    have hshort : text.length < 2 ^ 31 := by
      omega
    have hpLen' : call.pLen = (rest.length : Int) + 2 := by
      rw [hpLen, snprintfLength, if_pos hshort]
      omega
    constructor
    · refine ⟨_, hstring, ?_⟩
      rw [hpLen', hlength]
      rfl
    · intro reqname hname
      rw [hp, hpLen']
      apply velyDecorate_ok hbytes hname

/-- The length that is passed on is right, and the path is read and written inside of its string,
when there is no call or there is memory for the whole path. -/
theorem pathCall_safe_iff (scriptName pathInfo appPath : CString) :
  (∀ call, pathCall scriptName pathInfo appPath = some call → call.Safe)
    ↔ pathCall scriptName pathInfo appPath = none
      ∨ (pathText scriptName pathInfo).length < maxPath
  := by
  cases hcall : pathCall scriptName pathInfo appPath with
  | none => simp
  | some call =>
    obtain ⟨pre, c, rest, hkept, hbytes, hp, hpLen⟩ := pathCall_some hcall
    have hsafe := call_safe_iff hkept hbytes hp hpLen
    simp only [Option.some.injEq, forall_eq', reduceCtorEq, false_or]
    exact hsafe

/-- A path of 3006 bytes: the byte before the end of its length is read outside of the memory. -/
theorem not_safe_letters :
  ∃ (pathInfo : CString) (call : PathCall),
    pathInfo.bytes = ascii "/_" ++ List.replicate 3000 'a'.toUInt8
    ∧ pathCall ⟨ascii "/app", by decide⟩ pathInfo ⟨ascii "/app", by decide⟩ = some call
    ∧ ¬ call.Safe
    ∧ ∀ reqname, velyDecorate reqname (Block.ofString call.fullPath) call.p call.pLen true
      = .error .fault
  := by
  have hz : 0 ∉ ascii "/_" ++ List.replicate 3000 'a'.toUInt8 := by
    simp only [List.mem_append, List.mem_replicate, not_or, not_and]
    exact ⟨by decide, fun _ => by decide⟩
  have hscript : cutScriptName ⟨ascii "/app", by decide⟩ = ⟨ascii "/app", by decide⟩ := by
    rw [cutScriptName, if_neg (by decide)]
  have htext : (pathText ⟨ascii "/app", by decide⟩ ⟨_, hz⟩).bytes
      = ascii "/app/_" ++ List.replicate 3000 'a'.toUInt8 := by
    rw [pathText, hscript]
    rfl
  have hlength : (pathText ⟨ascii "/app", by decide⟩ ⟨_, hz⟩).length = 3006 := by
    rw [CString.length, htext, List.length_append, List.length_replicate]
    rfl
  have hkept : (keptPath (pathText ⟨ascii "/app", by decide⟩ ⟨_, hz⟩)).bytes
      = ascii "/app/_" ++ List.replicate 2505 'a'.toUInt8 := by
    rw [keptPath]
    simp only
    rw [htext, List.take_append, List.take_replicate]
    rfl
  have hbytes : (keptPath (pathText ⟨ascii "/app", by decide⟩ ⟨_, hz⟩)).bytes
      = ascii "/app" ++ '/'.toUInt8 :: '_'.toUInt8 :: List.replicate 2505 'a'.toUInt8 := by
    have hascii : ascii "/app/_" = ascii "/app" ++ ['/'.toUInt8, '_'.toUInt8] := rfl
    rw [hkept, hascii, List.append_assoc, List.cons_append, List.singleton_append]
  have hcall : pathCall ⟨ascii "/app", by decide⟩ ⟨_, hz⟩ ⟨ascii "/app", by decide⟩
      = some ⟨keptPath (pathText ⟨ascii "/app", by decide⟩ ⟨_, hz⟩), 4, 3002⟩ := by
    have hpos : byteAt (ascii "/app/_" ++ List.replicate 2505 'a'.toUInt8) 4 = '/'.toUInt8 := rfl
    have hnext : byteAt (ascii "/app/_" ++ List.replicate 2505 'a'.toUInt8) (4 + 1) = '_'.toUInt8 :=
      rfl
    have hstart : strcasecmp ((ascii "/app/_" ++ List.replicate 2505 'a'.toUInt8).take 4) (ascii "/app")
        = true := rfl
    have happ : (CString.mk (ascii "/app") (by decide)).length = 4 := rfl
    rw [pathCall, hkept, happ, snprintfLength, hlength, if_pos hstart, hpos, hnext,
      if_neg (by decide)]
    rfl
  refine ⟨⟨_, hz⟩, _, rfl, hcall, ?_, ?_⟩
  · intro h
    have hpLen : (3002 : Int) = snprintfLength (pathText ⟨ascii "/app", by decide⟩ ⟨_, hz⟩)
        - (ascii "/app").length := by
      rw [snprintfLength, hlength]
      rfl
    have hlt := (call_safe_iff rfl hbytes rfl hpLen).mp h
    rw [hlength] at hlt
    exact absurd hlt (by decide)
  · intro reqname
    have hnone : ∀ n, find id (ascii "_/") (List.replicate n 'a'.toUInt8) = none := by
      intro n
      induction n with
      | zero => rfl
      | succ n ih =>
        rw [List.replicate_succ, find_closing_cons, if_neg, ih]
        · rfl
        · rintro ⟨h, -⟩
          exact absurd h (by decide)
    apply @velyDecorate_fault _ (ascii "/app") (List.replicate 2504 'a'.toUInt8)
    · exact hbytes
    · exact hnone 2505
    · rw [List.length_replicate]
      change (2504 : Int) + 4 < 3002
      decide

end Vely
