import Vely.Input.Query

/-!
# What the text of a query is decoded to

The loop that decodes goes over the bytes of the text, its separators and its escapes, and
writes one byte for each of them.  Behind the text it needs no byte but the terminator, unless
the text ends inside of an escape.
-/

namespace Vely

/-- A part of the text for which one byte is written. -/
inductive Token where
  | char (c : UInt8)
  | equal
  | ampersand
  deriving DecidableEq

/-- The byte that is written. -/
def Token.byte : Token → UInt8
  | .char c => c
  | .equal => 0
  | .ampersand => 0

/-- The byte for one that neither separates nor starts an escape. -/
def plain (isname : Bool) (c : UInt8) : UInt8 :=
  if isname ∧ c = '-'.toUInt8 then '_'.toUInt8 else plusToSpace c

/-- The tokens of a text, up to an escape that is not whole. -/
def tokens : Bool → List UInt8 → List Token
  | _, [] => []
  | isname, c :: r =>
    if c = '%'.toUInt8 then
      match r with
      | h :: l :: r => .char (escaped h l) :: tokens isname r
      | _ => []
    else if c = '&'.toUInt8 then .ampersand :: tokens true r
    else if c = '='.toUInt8 then .equal :: tokens false r
    else .char (plain isname c) :: tokens isname r

/-- Every escape of the text has its two digits. -/
def whole : List UInt8 → Bool
  | [] => true
  | c :: r =>
    if c = '%'.toUInt8 then
      match r with
      | _ :: _ :: r => whole r
      | _ => false
    else whole r

theorem whole_escape (h l : UInt8) (r : List UInt8) :
  whole ('%'.toUInt8 :: h :: l :: r) = whole r
  := rfl

theorem whole_of_ne {c : UInt8} (hc : c ≠ '%'.toUInt8) (r : List UInt8) :
  whole (c :: r) = whole r
  := by
  rw [whole.eq_def (c :: r)]
  apply if_neg hc

theorem whole_truncated {r : List UInt8}
    (hr : ∀ (h l : UInt8) (r' : List UInt8), r = h :: l :: r' → False) :
  whole ('%'.toUInt8 :: r) = false
  := by
  match r, hr with
  | [], _ => rfl
  | [_], _ => rfl
  | h :: l :: r', hr => exact absurd rfl (hr h l r')

/-- Before each `&` is a sign `=` that no other `&` is behind of. -/
def ordered : Bool → List Token → Bool
  | _, [] => true
  | hadEqual, .char _ :: ts => ordered hadEqual ts
  | _, .equal :: ts => ordered true ts
  | hadEqual, .ampersand :: ts => hadEqual && ordered false ts

/-- The state of the loop when `out` is written, `rest` is left of the text, and the cells in
between hold `junk`. -/
def DecodeState.of (out : List UInt8) (junk : List (Option UInt8)) (rest : List UInt8)
    (tail : List (Option UInt8)) (hadEqual isname : Bool) (params : Nat) : DecodeState where
  content := ⟨out.map some ++ (junk ++ (rest.map some ++ some 0 :: tail))⟩
  i := out.length + junk.length
  j := out.length
  hadEqual := hadEqual
  isname := isname
  params := params

section Step

variable {out : List UInt8} {junk : List (Option UInt8)} {rest : List UInt8}
  {tail : List (Option UInt8)} {hadEqual isname : Bool} {params : Nat}

/-- After the cells of a token are read, its byte is written over the first cell behind `out`. -/
theorem write_of {x : Option UInt8} {cells : List (Option UInt8)} {s : DecodeState}
    (hs : s.content.cells = out.map some ++ (junk ++ (x :: cells ++ (rest.map some ++ some 0 :: tail))))
    (hi : s.i = out.length + junk.length) (hj : s.j = out.length) (c : UInt8) :
  ∃ junk', s.write c (cells.length + 1)
    = .ok (.of (out ++ [c]) junk' rest tail s.hadEqual s.isname s.params)
  := by
  obtain ⟨y, junk', hjunk⟩ : ∃ y junk', junk ++ x :: cells = y :: junk' := by
    cases junk with
    | nil => exact ⟨x, cells, rfl⟩
    | cons y ys => exact ⟨y, ys ++ x :: cells, rfl⟩
  have hlen : junk'.length = junk.length + cells.length := by
    have := congrArg List.length hjunk
    simp at this
    omega
  have hcells : s.content.cells
      = out.map some ++ y :: (junk' ++ (rest.map some ++ some 0 :: tail)) := by
    rw [hs, ← List.append_assoc junk, hjunk, List.cons_append]
  use junk'
  rw [DecodeState.write, Block.put_of_cells c hcells (by simp [hj])]
  simp [DecodeState.of, hi, hj, hlen]
  omega

/-- The byte at `i` is written back. -/
theorem put_of (c d : UInt8) :
  (DecodeState.of out junk (c :: rest) tail hadEqual isname params).content.put
      (out.length + junk.length) d
    = .ok (DecodeState.of out junk (d :: rest) tail hadEqual isname params).content
  := by
  have hcells : (DecodeState.of out junk (c :: rest) tail hadEqual isname params).content.cells
      = (out.map some ++ junk) ++ some c :: (rest.map some ++ some 0 :: tail) := by
    simp [DecodeState.of]
  rw [Block.put_of_cells d hcells (by simp)]
  simp [DecodeState.of]

theorem get_of (k : Nat) {l : List UInt8} {d : UInt8} {r : List UInt8} (hrest : rest = l ++ d :: r)
    (hk : k = l.length) :
  (DecodeState.of out junk rest tail hadEqual isname params).content.get
    (out.length + junk.length + k) = .ok d
  := by
  subst hrest hk
  apply Block.get_of_cells (l := out.map some ++ junk ++ l.map some)
    (r := r.map some ++ some 0 :: tail)
  · simp [DecodeState.of]
  · simp [Nat.add_assoc]

theorem write_char (c d : UInt8) :
  ∃ junk', (DecodeState.of out junk (c :: rest) tail hadEqual isname params).write d 1
    = .ok (.of (out ++ [d]) junk' rest tail hadEqual isname params)
  := by
  apply @write_of _ junk _ _ (some c) []
  · simp [DecodeState.of]
  · rfl
  · rfl

theorem write_escape (c h l d : UInt8) :
  ∃ junk', (DecodeState.of out junk (c :: h :: l :: rest) tail hadEqual isname params).write d 3
    = .ok (.of (out ++ [d]) junk' rest tail hadEqual isname params)
  := by
  apply @write_of _ junk _ _ (some c) [some h, some l]
  · simp [DecodeState.of]
  · rfl
  · rfl

/-! ### The body of the loop -/

theorem plusToSpace_of_ne {c : UInt8} (h : c ≠ '+'.toUInt8) :
  plusToSpace c = c
  := if_neg h

/-- A plus sign becomes a space, and no other byte changes. -/
theorem plusToSpace_ne {c d : UInt8} (h : c ≠ d) (hd : d ≠ ' '.toUInt8) :
  plusToSpace c ≠ d
  := by
  rw [plusToSpace]
  split
  · apply hd.symm
  · apply h

theorem decodeStep_char {c : UInt8} (hp : c ≠ '%'.toUInt8) (ha : c ≠ '&'.toUInt8)
    (he : c ≠ '='.toUInt8) :
  ∃ junk', decodeStep (plusToSpace c)
      (.of out junk (plusToSpace c :: rest) tail hadEqual isname params)
    = .ok (.of (out ++ [plain isname c]) junk' rest tail hadEqual isname params)
  := by
  obtain ⟨junk', hwrite⟩ := @write_char out junk rest tail hadEqual isname params
    (plusToSpace c)
    (plain isname c)
  use junk'
  rw [← hwrite, decodeStep, plain]
  have hdash : plusToSpace c = '-'.toUInt8 ↔ c = '-'.toUInt8 := by
    constructor
    · intro h
      by_contra hc
      exact plusToSpace_ne hc (by decide) h
    · rintro rfl
      decide
  have hisname : (DecodeState.of out junk (plusToSpace c :: rest) tail hadEqual isname params).isname
      = isname := rfl
  rw [hisname]
  by_cases hname : isname = true ∧ c = '-'.toUInt8
  · rw [if_pos hname, if_pos (by rwa [hdash])]
  · rw [if_neg hname, if_neg (by rwa [hdash]), if_neg (plusToSpace_ne hp (by decide)),
      if_neg (plusToSpace_ne ha (by decide)), if_neg (plusToSpace_ne he (by decide))]

theorem decodeStep_escape (h l : UInt8) :
  ∃ junk', decodeStep '%'.toUInt8
      (.of out junk ('%'.toUInt8 :: h :: l :: rest) tail hadEqual isname params)
    = .ok (.of (out ++ [escaped h l]) junk' rest tail hadEqual isname params)
  := by
  obtain ⟨junk', hwrite⟩ := @write_escape out junk rest tail hadEqual isname params
    '%'.toUInt8 h l (escaped h l)
  use junk'
  have hh : (DecodeState.of out junk ('%'.toUInt8 :: h :: l :: rest) tail hadEqual isname
      params).content.get (out.length + junk.length + 1) = .ok h :=
    get_of 1 (l := ['%'.toUInt8]) rfl rfl
  have hl : (DecodeState.of out junk ('%'.toUInt8 :: h :: l :: rest) tail hadEqual isname
      params).content.get (out.length + junk.length + 2) = .ok l :=
    get_of 2 (l := ['%'.toUInt8, h]) rfl rfl
  have hi : (DecodeState.of out junk ('%'.toUInt8 :: h :: l :: rest) tail hadEqual isname params).i
      = out.length + junk.length := rfl
  rw [← hwrite, decodeStep, if_neg (fun h => absurd h.2 (by decide)), if_pos rfl, hi, hh, hl]
  rfl

theorem decodeStep_equal :
  ∃ junk', decodeStep '='.toUInt8 (.of out junk ('='.toUInt8 :: rest) tail hadEqual isname params)
    = .ok (.of (out ++ [0]) junk' rest tail true false (params + 1))
  := by
  obtain ⟨junk', hwrite⟩ := @write_char out junk rest tail true false (params + 1)
    '='.toUInt8 0
  use junk'
  rw [← hwrite, decodeStep, if_neg (fun h => absurd h.2 (by decide)), if_neg (by decide),
    if_neg (by decide), if_pos rfl]
  rfl

theorem decodeStep_ampersand :
  ∃ junk', decodeStep '&'.toUInt8 (.of out junk ('&'.toUInt8 :: rest) tail true isname params)
    = .ok (.of (out ++ [0]) junk' rest tail false true params)
  := by
  obtain ⟨junk', hwrite⟩ := @write_char out junk rest tail false true params
    '&'.toUInt8 0
  use junk'
  rw [← hwrite, decodeStep, if_neg (fun h => absurd h.2 (by decide)), if_neg (by decide),
    if_pos rfl]
  apply if_pos rfl

theorem decodeStep_ampersand_error :
  decodeStep '&'.toUInt8 (.of out junk ('&'.toUInt8 :: rest) tail false isname params)
    = .error (.rejected .malformedUrl)
  := by
  rw [decodeStep, if_neg (fun h => absurd h.2 (by decide)), if_neg (by decide), if_pos rfl]
  apply if_neg
  simp [DecodeState.of]

/-! ### The loop -/

theorem decodeLoop_cons {bound : Nat} {c : UInt8} (hc : c ≠ 0) :
  decodeLoop (bound + 1) (.of out junk (c :: rest) tail hadEqual isname params)
    = decodeStep (plusToSpace c)
        (.of out junk (plusToSpace c :: rest) tail hadEqual isname params) >>= decodeLoop bound
  := by
  have hget : (DecodeState.of out junk (c :: rest) tail hadEqual isname params).content.get
      (out.length + junk.length) = .ok c := get_of 0 (l := []) rfl rfl
  have hi : (DecodeState.of out junk (c :: rest) tail hadEqual isname params).i
      = out.length + junk.length := rfl
  rw [decodeLoop, hi, hget, liftM_ok, ok_bind, if_neg hc, put_of, liftM_ok, ok_bind]
  rfl

/-- What the loop ends with, when the tokens of the text are `ts`. -/
def Decoded (out : List UInt8) (tail : List (Option UInt8)) (params : Nat) (whole hadEqual : Bool)
    (ts : List Token) (r : Except Abort DecodeState) : Prop :=
  if ordered hadEqual ts = false then r = .error (.rejected .malformedUrl)
  else if whole then
    ∃ junk hadEqual isname, r = .ok (.of (out ++ ts.map Token.byte) junk [] tail hadEqual isname
      (params + ts.count .equal))
  else tail = [] → r = .error (.stop .fault)

section Decoded

variable {w : Bool} {ts : List Token} {r : Except Abort DecodeState}

theorem Decoded.char {c : UInt8} (h : Decoded (out ++ [c]) tail params w hadEqual ts r) :
  Decoded out tail params w hadEqual (.char c :: ts) r
  := by
  simpa [Decoded, ordered, Token.byte] using h

theorem Decoded.equal (h : Decoded (out ++ [0]) tail (params + 1) w true ts r) :
  Decoded out tail params w hadEqual (.equal :: ts) r
  := by
  simpa [Decoded, ordered, Token.byte, Nat.add_assoc, Nat.add_comm 1] using h

theorem Decoded.ampersand (h : Decoded (out ++ [0]) tail params w false ts r) :
  Decoded out tail params w true (.ampersand :: ts) r
  := by
  simpa [Decoded, ordered, Token.byte] using h

end Decoded

/-- No byte is read behind the block. -/
theorem decodeLoop_of_length_le {bound : Nat} {s : DecodeState}
    (h : s.content.cells.length ≤ s.i) :
  decodeLoop bound s = .error (.stop .fault)
  := by
  cases bound with
  | zero => rfl
  | succ bound =>
    rw [decodeLoop, Block.get_of_length_le h]
    rfl

/-- In a block that ends with the text, an escape that is not whole cannot be read. -/
theorem decodeLoop_truncated {bound : Nat} {r : List UInt8}
    (hr : ∀ (h l : UInt8) (r' : List UInt8), r = h :: l :: r' → False) :
  decodeLoop (bound + 1) (.of out junk ('%'.toUInt8 :: r) [] hadEqual isname params)
    = .error (.stop .fault)
  := by
  rw [decodeLoop_cons (by decide), plusToSpace_of_ne (by decide), decodeStep,
    if_neg (fun h => absurd h.2 (by decide)), if_pos rfl]
  have hi : (DecodeState.of out junk ('%'.toUInt8 :: r) [] hadEqual isname params).i
      = out.length + junk.length := rfl
  rw [hi]
  match r, hr with
  | [], _ =>
    have h0 : (DecodeState.of out junk ['%'.toUInt8] [] hadEqual isname params).content.get
        (out.length + junk.length + 1) = .ok 0 := by
      apply Block.get_of_cells (l := out.map some ++ junk ++ [some '%'.toUInt8]) (r := [])
      · simp [DecodeState.of]
      · simp [Nat.add_assoc]
    have h1 : (DecodeState.of out junk ['%'.toUInt8] [] hadEqual isname params).content.get
        (out.length + junk.length + 2) = .error .fault := by
      apply Block.get_of_length_le
      simp [DecodeState.of]
      omega
    rw [h0, h1]
    rfl
  | [h], _ =>
    have h0 : (DecodeState.of out junk ['%'.toUInt8, h] [] hadEqual isname params).content.get
        (out.length + junk.length + 1) = .ok h := get_of 1 (l := ['%'.toUInt8]) rfl rfl
    have h1 : (DecodeState.of out junk ['%'.toUInt8, h] [] hadEqual isname params).content.get
        (out.length + junk.length + 2) = .ok 0 := by
      apply Block.get_of_cells (l := out.map some ++ junk ++ [some '%'.toUInt8, some h]) (r := [])
      · simp [DecodeState.of]
      · simp [Nat.add_assoc]
    rw [h0, liftM_ok, ok_bind, h1, liftM_ok, ok_bind, DecodeState.write, Block.put_of_lt]
    · simp only [liftM_ok, ok_bind, pure_eq_ok]
      apply decodeLoop_of_length_le
      simp [DecodeState.of]
      omega
    · simp [DecodeState.of]
  | h :: l :: r', hr => exact absurd rfl (hr h l r')

/-- The loop ends as the tokens of the text say. -/
theorem decodeLoop_decoded {bound : Nat} (hz : 0 ∉ rest) (hb : rest.length < bound) :
  Decoded out tail params (whole rest) hadEqual (tokens isname rest)
    (decodeLoop bound (.of out junk rest tail hadEqual isname params))
  := by
  obtain ⟨bound, rfl⟩ : ∃ b, bound = b + 1 := ⟨bound - 1, by omega⟩
  fun_induction tokens isname rest generalizing out junk hadEqual params bound with
  | case1 isname =>
    have hget : (DecodeState.of out junk [] tail hadEqual isname params).content.get
        (out.length + junk.length) = .ok 0 := by
      apply Block.get_of_cells (l := out.map some ++ junk) (r := tail)
      · simp [DecodeState.of]
      · simp
    have hi : (DecodeState.of out junk [] tail hadEqual isname params).i
        = out.length + junk.length := rfl
    rw [decodeLoop, hi, hget]
    simp only [Decoded, ordered, whole, List.map_nil, List.append_nil, List.count_nil,
      Nat.add_zero]
    exact ⟨junk, hadEqual, isname, rfl⟩
  | case2 isname h l r ih =>
    simp only [List.mem_cons, not_or, List.length_cons] at hz hb
    obtain ⟨b, rfl⟩ : ∃ b, bound = b + 1 := ⟨bound - 1, by omega⟩
    obtain ⟨junk', hstep⟩ := @decodeStep_escape out junk r tail hadEqual isname params h l
    rw [decodeLoop_cons (by decide), plusToSpace_of_ne (by decide), hstep, ok_bind]
    apply Decoded.char
    apply ih hz.2.2.2 b (by omega)
  | case3 isname r hr =>
    simp only [Decoded, ordered, whole_truncated hr, Bool.true_eq_false, Bool.false_eq_true, if_false]
    rintro rfl
    apply decodeLoop_truncated hr
  | case4 isname r hne ih =>
    simp only [List.mem_cons, not_or, List.length_cons] at hz hb
    obtain ⟨b, rfl⟩ : ∃ b, bound = b + 1 := ⟨bound - 1, by omega⟩
    rw [decodeLoop_cons (by decide), plusToSpace_of_ne (by decide)]
    cases hadEqual with
    | false =>
      rw [decodeStep_ampersand_error]
      simp [Decoded, ordered]
    | true =>
      obtain ⟨junk', hstep⟩ := @decodeStep_ampersand out junk r tail isname params
      rw [hstep, ok_bind, whole_of_ne hne]
      apply Decoded.ampersand
      apply ih hz.2 b (by omega)
  | case5 isname r hne _ ih =>
    simp only [List.mem_cons, not_or, List.length_cons] at hz hb
    obtain ⟨b, rfl⟩ : ∃ b, bound = b + 1 := ⟨bound - 1, by omega⟩
    obtain ⟨junk', hstep⟩ := @decodeStep_equal out junk r tail hadEqual isname params
    rw [decodeLoop_cons (by decide), plusToSpace_of_ne (by decide), hstep, ok_bind,
      whole_of_ne hne]
    apply Decoded.equal
    apply ih hz.2 b (by omega)
  | case6 isname c r hp ha he ih =>
    simp only [List.mem_cons, not_or, List.length_cons] at hz hb
    obtain ⟨b, rfl⟩ : ∃ b, bound = b + 1 := ⟨bound - 1, by omega⟩
    obtain ⟨junk', hstep⟩ := @decodeStep_char out junk r tail hadEqual isname params _ hp ha he
    rw [decodeLoop_cons (Ne.symm hz.1), hstep, ok_bind, whole_of_ne hp]
    apply Decoded.char
    apply ih hz.2 b (by omega)

end Step

end Vely
