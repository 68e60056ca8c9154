import Vely.Input.Tokens

/-!
# The fields of a decoded query

What is decoded is a row of fields, each with its terminator.  The parameters are pairs of
fields, as many as there were signs `=`.
-/

namespace Vely

/-! ### The tokens of a longer text -/

/-- Whether a name is read behind the tokens. -/
def nameAfter : Bool → List Token → Bool
  | isname, [] => isname
  | isname, .char _ :: ts => nameAfter isname ts
  | _, .equal :: ts => nameAfter false ts
  | _, .ampersand :: ts => nameAfter true ts

theorem tokens_of_ne {isname : Bool} {c : UInt8} (hp : c ≠ '%'.toUInt8) (ha : c ≠ '&'.toUInt8)
    (he : c ≠ '='.toUInt8) (r : List UInt8) :
  tokens isname (c :: r) = .char (plain isname c) :: tokens isname r
  := by
  rw [tokens.eq_def]
  simp only [if_neg hp, if_neg ha, if_neg he]

theorem tokens_escape (isname : Bool) (h l : UInt8) (r : List UInt8) :
  tokens isname ('%'.toUInt8 :: h :: l :: r) = .char (escaped h l) :: tokens isname r
  := by
  rw [tokens.eq_def]
  rfl

theorem tokens_equal (isname : Bool) (r : List UInt8) :
  tokens isname ('='.toUInt8 :: r) = .equal :: tokens false r
  := by
  rw [tokens.eq_def]
  rfl

theorem tokens_ampersand (isname : Bool) (r : List UInt8) :
  tokens isname ('&'.toUInt8 :: r) = .ampersand :: tokens true r
  := by
  rw [tokens.eq_def]
  rfl

theorem whole_append {p : List UInt8} (hp : whole p = true) (r : List UInt8) :
  whole (p ++ r) = whole r
  := by
  fun_induction whole p with
  | case1 => rfl
  | case2 h l p ih => apply ih hp
  | case3 p => cases hp
  | case4 c p hc ih =>
    rw [List.cons_append, whole_of_ne hc]
    apply ih hp

theorem tokens_append {isname : Bool} {p : List UInt8} (hp : whole p = true) (r : List UInt8) :
  tokens isname (p ++ r) = tokens isname p ++ tokens (nameAfter isname (tokens isname p)) r
  := by
  fun_induction tokens isname p with
  | case1 isname => rfl
  | case2 isname h l p ih =>
    rw [whole_escape] at hp
    simp only [List.cons_append, nameAfter, ← ih hp]
    rfl
  | case3 isname p hr =>
    rw [whole_truncated hr] at hp
    cases hp
  | case4 isname p hc ih =>
    rw [whole_of_ne hc] at hp
    rw [List.cons_append, tokens_ampersand, ih hp]
    rfl
  | case5 isname p hc _ ih =>
    rw [whole_of_ne hc] at hp
    rw [List.cons_append, tokens_equal, ih hp]
    rfl
  | case6 isname c p hc ha he ih =>
    rw [whole_of_ne hc] at hp
    rw [List.cons_append, tokens_of_ne hc ha he, ih hp]
    rfl

/-! ### Fields -/

/-- A byte in front of the first field. -/
def consField (c : UInt8) (hc : c ≠ 0) : List CString → List CString
  | [] => []
  | s :: ss => ⟨c :: s.bytes, by simp [s.nonzero, Ne.symm hc]⟩ :: ss

/-- The fields of bytes: what is between the zeros. -/
def fields : List UInt8 → List CString
  | [] => [CString.empty]
  | c :: r => if hc : c = 0 then CString.empty :: fields r else consField c hc (fields r)

theorem fields_ne_nil (bs : List UInt8) :
  fields bs ≠ []
  := by
  cases bs with
  | nil => simp [fields]
  | cons c r =>
    have ih := fields_ne_nil r
    rw [fields]
    split
    · simp
    · cases hr : fields r with
      | nil => exact absurd hr ih
      | cons s ss => simp [consField]

/-- The fields with their terminators are the bytes. -/
theorem flatMap_block_fields (bs : List UInt8) :
  (fields bs).flatMap CString.block = bs ++ [0]
  := by
  induction bs with
  | nil => rfl
  | cons c r ih =>
    rw [fields]
    split
    · next hc => simp [ih, hc, CString.block, CString.empty]
    · cases hr : fields r with
      | nil => exact absurd hr (fields_ne_nil r)
      | cons s ss =>
        rw [hr, List.flatMap_cons] at ih
        simp only [consField, List.flatMap_cons, CString.block] at ih ⊢
        simp [ih]

/-- Zeros separate fields. -/
theorem fields_append (bs cs : List UInt8) :
  fields (bs ++ 0 :: cs) = fields bs ++ fields cs
  := by
  induction bs with
  | nil => simp [fields]
  | cons c r ih =>
    rw [List.cons_append, fields, fields, ih]
    split
    · rfl
    · cases hr : fields r with
      | nil => exact absurd hr (fields_ne_nil r)
      | cons s ss => simp [consField]

/-- Bytes without a zero are one field. -/
theorem fields_of_nonzero (s : CString) :
  fields s.bytes = [s]
  := by
  obtain ⟨bytes, nonzero⟩ := s
  induction bytes with
  | nil => rfl
  | cons c r ih =>
    simp only [List.mem_cons, not_or] at nonzero
    rw [fields, dif_neg (Ne.symm nonzero.1), ih nonzero.2]
    rfl

/-! ### Pairs of fields -/

/-- The first `n` pairs of fields, as parameters. -/
def pairParams : Nat → List CString → Except Abort (List InputParam)
  | 0, _ => .ok []
  | n + 1, name :: fs =>
    if velyIsValidParamName name false then
      match fs with
      | value :: fs => do
        let params ← pairParams n fs
        return ⟨name, velyTrimPtr value⟩ :: params
      | [] => .error (.stop .fault)
    else .error (.rejected (.invalidName name))
  | _ + 1, [] => .error (.stop .fault)

/-- The names among fields: every second one, from the first on. -/
def fieldNames : List CString → List CString
  | name :: _ :: fs => name :: fieldNames fs
  | [name] => [name]
  | [] => []

/-- There are too few fields for `n` pairs, and no name that is not valid ends the search for
more. -/
def Starved (n : Nat) (fs : List CString) : Prop :=
  fs.length < 2 * n ∧ ∀ name ∈ fieldNames fs, velyIsValidParamName name false = true

/-- Pairs are missing when the fields are too few. -/
theorem pairParams_fault_iff {n : Nat} {fs : List CString} :
  pairParams n fs = .error (.stop .fault) ↔ Starved n fs
  := by
  induction n generalizing fs with
  | zero => simp [pairParams, Starved]
  | succ n ih =>
    match fs with
    | [] => simp [pairParams, Starved, fieldNames]
    | [name] =>
      rw [pairParams.eq_def]
      by_cases hvalid : velyIsValidParamName name false = true
      · simp [hvalid, Starved, fieldNames]
        omega
      · simp [hvalid, Starved, fieldNames]
    | name :: value :: fs =>
      rw [pairParams.eq_def]
      by_cases hvalid : velyIsValidParamName name false = true
      · have hbind : (do
            let params ← pairParams n fs
            return (⟨name, velyTrimPtr value⟩ :: params) : Except Abort (List InputParam))
              = .error (.stop .fault) ↔ pairParams n fs = .error (.stop .fault) := by
          cases pairParams n fs <;> simp
        simp only [hvalid, if_true]
        rw [hbind, ih, Starved, Starved]
        simp only [fieldNames, List.length_cons, List.mem_cons, forall_eq_or_imp, hvalid, true_and]
        constructor
        · rintro ⟨hlen, hnames⟩
          exact ⟨by omega, hnames⟩
        · rintro ⟨hlen, hnames⟩
          exact ⟨by omega, hnames⟩
      · simp [hvalid, Starved, fieldNames]

/-- The loop that takes pairs finds the fields, and no byte behind them is read unless there are
too few of them. -/
theorem splitLoop_fields {content : Block} {n : Nat} {l r : List (Option UInt8)}
    {fs : List CString} {j : Nat}
    (hcells : content.cells = l ++ ((fs.flatMap CString.block).map some ++ r)) (hj : j = l.length)
    (h : r = [] ∨ pairParams n fs ≠ .error (.stop .fault)) :
  splitLoop content n j = pairParams n fs
  := by
  induction n generalizing l fs j with
  | zero => rfl
  | succ n ih =>
    cases fs with
    | nil =>
      obtain rfl : r = [] := by
        rcases h with h | h
        · exact h
        · exact absurd rfl h
      rw [splitLoop, Block.string_of_length_le (by simp [hcells, hj])]
      rfl
    | cons name fs =>
      have hname : content.string j = .ok name := by
        apply Block.string_of_cells name (l := l)
          (r := (fs.flatMap CString.block).map some ++ r) _ hj
        simp [hcells, CString.block]
      rw [splitLoop, hname, liftM_ok, ok_bind, pairParams.eq_def]
      simp only
      by_cases hvalid : velyIsValidParamName name false = true
      · rw [if_pos hvalid, if_pos hvalid]
        simp only [pairParams, if_pos hvalid] at h
        cases fs with
        | nil =>
          obtain rfl : r = [] := by
            rcases h with h | h
            · exact h
            · exact absurd rfl h
          rw [Block.string_of_length_le]
          · rfl
          · simp [hcells, hj, CString.block, CString.length]
            omega
        | cons value fs =>
          have hvalue : content.string (j + name.length + 1) = .ok value := by
            apply Block.string_of_cells value (l := l ++ name.block.map some)
              (r := (fs.flatMap CString.block).map some ++ r)
            · simp [hcells, CString.block]
            · simp [hj, CString.block, CString.length]
              omega
          rw [hvalue, liftM_ok, ok_bind]
          simp only at h ⊢
          rw [ih (l := l ++ name.block.map some ++ value.block.map some)]
          · simp [hcells]
          · simp [hj, CString.block, CString.length]
            omega
          · refine h.imp_right (fun h h' => h ?_)
            rw [h']
            rfl
      · rw [if_neg hvalid, if_neg hvalid]
        rfl

/-! ### The parameters of a text -/

/-- A block that holds a text with its terminator, and other cells behind it. -/
def Block.ofText (text : List UInt8) (tail : List (Option UInt8)) : Block :=
  ⟨text.map some ++ some 0 :: tail⟩

/-- The fields that the text of a query is decoded to. -/
def queryFields (text : List UInt8) : List CString :=
  fields ((tokens true text).map Token.byte ++ [0])

/-- The number of signs `=` of a text that are not in an escape. -/
def queryParams (text : List UInt8) : Nat := (tokens true text).count .equal

/-- The loop that decodes, on the text of a query. -/
theorem decodeContent_decoded {text : List UInt8} (tail : List (Option UInt8)) (hz : 0 ∉ text) :
  Decoded [] tail 0 (whole text) false (tokens true text)
    (decodeContent (Block.ofText text tail))
  := by
  have hb : text.length < (Block.ofText text tail).cells.length + 1 := by
    simp only [Block.ofText, List.length_append, List.length_map, List.length_cons]
    omega
  have h := @decodeLoop_decoded [] [] _ tail false true 0 _ hz hb
  apply h

/-- The terminators are written behind what was decoded. -/
theorem terminate_of {out : List UInt8} {junk tail : List (Option UInt8)}
    {hadEqual isname : Bool} {params : Nat} (h : junk ≠ [] ∨ tail ≠ []) :
  ∃ s, terminate (.of out junk [] tail hadEqual isname params) = .ok s ∧ s.params = params
    ∧ s.j = out.length + 1
    ∧ ∃ r, s.content.cells = (out ++ [0, 0]).map some ++ r
  := by
  obtain ⟨x, y, r, hr⟩ : ∃ x y r, junk ++ some 0 :: tail = x :: y :: r := by
    match junk, tail, h with
    | [], y :: r, _ => exact ⟨some 0, y, r, rfl⟩
    | [x], tail, _ => exact ⟨x, some 0, tail, rfl⟩
    | x :: y :: r, tail, _ => exact ⟨x, y, r ++ some 0 :: tail, rfl⟩
  have hcells : (DecodeState.of out junk [] tail hadEqual isname params).content.cells
      = out.map some ++ x :: y :: r := by
    rw [← hr]
    simp [DecodeState.of]
  have hj : (DecodeState.of out junk [] tail hadEqual isname params).j = (out.map some).length := by
    simp [DecodeState.of]
  have hput : (⟨out.map some ++ some 0 :: y :: r⟩ : Block).put
      ((DecodeState.of out junk [] tail hadEqual isname params).j + 1) 0
      = .ok ⟨(out.map some ++ [some 0]) ++ some 0 :: r⟩ := by
    apply Block.put_of_cells (l := out.map some ++ [some 0]) (x := y)
    · simp
    · simp [hj]
  rw [terminate, Block.put_of_cells 0 hcells hj, liftM_ok, ok_bind, hput]
  refine ⟨_, rfl, rfl, ?_, r, ?_⟩
  · simp [DecodeState.of]
  · simp

/-- The parameters of a text whose escapes are whole are pairs of its fields. -/
theorem parseParams_ofText {text : List UInt8} {tail : List (Option UInt8)} (hz : 0 ∉ text)
    (htail : tail ≠ []) (hw : whole text = true) (ho : ordered false (tokens true text) = true)
    (hp : pairParams (queryParams text) (queryFields text) ≠ .error (.stop .fault)) :
  parseParams (Block.ofText text tail) = pairParams (queryParams text) (queryFields text)
  := by
  have h := decodeContent_decoded tail hz
  simp only [Decoded, ho, hw, Bool.true_eq_false, if_false, if_true] at h
  obtain ⟨junk, hadEqual, isname, hs⟩ := h
  obtain ⟨s, hs', hparams, -, r, hcells⟩ := @terminate_of ([] ++ (tokens true text).map Token.byte)
    junk tail hadEqual isname (0 + (tokens true text).count .equal) (.inr htail)
  rw [parseParams, hs, ok_bind, hs', ok_bind, hparams, Nat.zero_add]
  apply splitLoop_fields (l := []) (r := r)
  · rw [hcells, queryFields, flatMap_block_fields]
    simp
  · rfl
  · exact .inr hp

end Vely
