import Vely.Lib.Substitute
import Vely.Db.Buffer

/-!
# Replacing in a string

`vely_replace_string` substitutes the first occurrence of a string in a buffer, or all of them, as
long as there is room for the next one.  The place where it stopped is only told when something was
substituted before.
-/

namespace Vely

/-! ### The program -/

/-- `strstr` and `strcasestr`: the parts of a string before and after what is found. -/
def strstrIn (caseSensitive : Bool) (find s : List UInt8) : Option (List UInt8 × List UInt8) :=
  if caseSensitive then Substr.search find s else Substr.searchOn tolower find s

/-- What `vely_replace_string` gives: the number that it returns, the block, and what is in `last`.
-/
structure ReplaceResult where
  ret : Int
  block : Block
  last : Option Nat

section Program

variable (strsize : Int) (find subst : List UInt8) (all caseSensitive : Bool)

/-- The loop of `vely_replace_string` for the string at `str` of a block, which has `len` bytes and
needs `currsize` with its terminator; it is searched from `curr` on. -/
def replaceStringFrom (str : Nat) : Nat → Block → Nat → Nat → Int → Option Nat →
    Except Stop ReplaceResult
  | 0, _, _, _, _, _ => .error .fault
  | n + 1, b, curr, len, currsize, last => do
    let s ← b.string curr
    match strstrIn caseSensitive find s.bytes with
    | none => return ⟨len, b, last⟩
    | some (x, _) =>
      let f := curr + x.length
      let currsize := currsize - find.length + subst.length
      if strsize < currsize then return ⟨-1, b, last⟩
      else do
        let b ← b.move (f + subst.length) (f + find.length) (len - (f - str + find.length) + 1)
        let b ← b.putAll f subst
        let len := len - find.length + subst.length
        let curr := f + subst.length
        if all then replaceStringFrom str n b curr len currsize (some curr)
        else return ⟨len, b, some curr⟩

/-- `vely_replace_string` for the string at `str` of a block. -/
def velyReplaceStringAt (b : Block) (str : Nat) : Except Stop ReplaceResult := do
  let s ← b.string str
  replaceStringFrom strsize find subst all caseSensitive str (s.length + 1) b str s.length
    (s.length + 1) none

end Program

/-! ### What is asked for -/

/-- What is compared of a byte. -/
def compared (caseSensitive : Bool) (c : UInt8) : UInt8 := if caseSensitive then c else tolower c

/-- The number of occurrences that are to be substituted. -/
def wantedCount (all caseSensitive : Bool) (find s : List UInt8) : Nat :=
  let count := Substr.countOn (compared caseSensitive) find s
  if all then count else min 1 count

/-- In a buffer of `strsize` bytes, with anything before it and behind the string, the string that
is left has the first occurrences substituted, and nothing else is written.  These are all that are
wanted, and its length is returned, or there is no room for the next one, -1 is returned, and `last`
is the place where the search stopped. -/
def ReplaceOk (all caseSensitive : Bool) (find subst s : CString) (strsize : Nat) : Prop :=
  ∀ l r : List (Option UInt8), s.length + 1 + r.length = strsize →
    ∃ res k t rest u r',
      velyReplaceStringAt strsize find.bytes subst.bytes all caseSensitive
          ⟨l ++ (s.bytes.map some ++ some 0 :: r)⟩ l.length = .ok res
        ∧ Substr.substitute (compared caseSensitive) find.bytes subst.bytes k s.bytes = (t, rest)
        ∧ u = t ++ rest ∧ 0 ∉ u
        ∧ res.block.cells = l ++ (u.map some ++ some 0 :: r') ∧ u.length + 1 + r'.length = strsize
        ∧ (k = wantedCount all caseSensitive find.bytes s.bytes ∧ res.ret = u.length
          ∨ k < wantedCount all caseSensitive find.bytes s.bytes
            ∧ strsize + find.length < u.length + 1 + subst.length
            ∧ res.ret = -1 ∧ res.last = some (l.length + t.length))

/-! ### One substitution -/

section

variable {strsize : Int} {all caseSensitive : Bool} {find subst : List UInt8}

theorem strstrIn_eq (s : List UInt8) :
  strstrIn caseSensitive find s = Substr.searchOn (compared caseSensitive) find s
  := by
  cases caseSensitive with
  | true => exact (Substr.searchOn_id find s).symm
  | false => rfl

end

/-! ### The loop -/

section

variable {strsize : Nat} {all caseSensitive : Bool} {find subst s : List UInt8}
  {l : List (Option UInt8)}

/-- What is left after `k` substitutions, when the search ended. -/
def EndsAfter (all caseSensitive : Bool) (find subst s : List UInt8) (l : List (Option UInt8))
    (strsize : Nat) (res : ReplaceResult) (k : Nat) : Prop :=
  ∃ t rest r',
    Substr.substitute (compared caseSensitive) find subst k s = (t, rest) ∧ 0 ∉ t ++ rest
      ∧ res.block.cells = l ++ ((t ++ rest).map some ++ some 0 :: r')
      ∧ (t ++ rest).length + 1 + r'.length = strsize
      ∧ (k = wantedCount all caseSensitive find s ∧ res.ret = (t ++ rest).length
        ∨ k < wantedCount all caseSensitive find s
          ∧ strsize + find.length < (t ++ rest).length + 1 + subst.length
          ∧ res.ret = -1 ∧ res.last = if k = 0 then none else some (l.length + t.length))

/-- The search goes on with the rest of the string after `k` substitutions. -/
structure Replacing (caseSensitive : Bool) (find subst s : List UInt8) (l : List (Option UInt8))
    (strsize : Nat) (b : Block) (k : Nat) (t rest : List UInt8) (r : List (Option UInt8)) :
    Prop where
  cells : b.cells = l ++ ((t ++ rest).map some ++ some 0 :: r)
  size : (t ++ rest).length + 1 + r.length = strsize
  nonzero : 0 ∉ t ++ rest
  substituted : Substr.substitute (compared caseSensitive) find subst k s = (t, rest)
  count : k + Substr.countOn (compared caseSensitive) find rest
    = Substr.countOn (compared caseSensitive) find s

/-- The next occurrence is substituted. -/
theorem Replacing.next {b : Block} {k : Nat} {t rest x y : List UInt8} {r : List (Option UInt8)}
    (h : Replacing caseSensitive find subst s l strsize b k t rest r) (hfind : find ≠ [])
    (hsubst : 0 ∉ subst)
    (hsearch : Substr.searchOn (compared caseSensitive) find rest = some (x, y))
    (hroom : (t ++ rest).length + 1 + subst.length ≤ strsize + find.length) :
  ∃ b₁ b₂ r',
    b.move (l.length + t.length + x.length + subst.length)
        (l.length + t.length + x.length + find.length) (y.length + 1) = .ok b₁
      ∧ b₁.putAll (l.length + t.length + x.length) subst = .ok b₂
      ∧ Replacing caseSensitive find subst s l strsize b₂ (k + 1) (t ++ (x ++ subst)) y r'
  := by
  obtain ⟨m, hrest, hm, -⟩ := Substr.eq_of_searchOn hsearch
  have hlength := congrArg List.length hm
  rw [List.length_map, List.length_map] at hlength
  have hsize := h.size
  have hcells : b.cells = (l ++ t.map some) ++ ((x ++ m ++ y).map some ++ some 0 :: r) := by
    rw [h.cells, hrest]
    simp
  obtain ⟨b₁, b₂, r', hmove, hput, hcells', hlen⟩ := @Block.splice b _ r x m y subst hcells (by
    rw [h.cells]
    simp only [hrest, List.length_append, List.length_map, List.length_cons] at hsize hroom ⊢
    omega)
  rw [List.length_append, List.length_map, hlength] at hmove
  rw [List.length_append, List.length_map] at hput
  refine ⟨b₁, b₂, r', hmove, hput, ?_⟩
  constructor
  · rw [hcells']
    simp
  · rw [hcells', h.cells] at hlen
    simp only [hrest, List.length_append, List.length_map, List.length_cons] at hlen hsize ⊢
    omega
  · have hnonzero := h.nonzero
    rw [hrest] at hnonzero
    simp only [List.mem_append, not_or] at hnonzero ⊢
    tauto
  · exact Substr.substitute_succ h.substituted hsearch
  · have hcount := h.count
    rw [Substr.countOn_of_some hfind hsearch] at hcount
    omega

/-- The loop ends after some of the substitutions. -/
theorem replaceStringFrom_ends {n k : Nat} {b : Block} {t rest : List UInt8}
    {r : List (Option UInt8)} {last : Option Nat} (hfind : find ≠ []) (hsubst : 0 ∉ subst)
    (h : Replacing caseSensitive find subst s l strsize b k t rest r)
    (hfuel : rest.length < n) (hall : all = true ∨ k = 0)
    (hlast : last = if k = 0 then none else some (l.length + t.length)) :
  ∃ res k', replaceStringFrom strsize find subst all caseSensitive l.length n b
      (l.length + t.length) (t ++ rest).length ((t ++ rest).length + 1) last = .ok res
    ∧ EndsAfter all caseSensitive find subst s l strsize res k'
  := by
  induction n generalizing k b t rest r last with
  | zero => cases hfuel
  | succ n ih =>
    have hcount := h.count
    have hzero : 0 ∉ rest := fun hmem => h.nonzero (List.mem_append_right t hmem)
    have hstring : b.string (l.length + t.length) = .ok ⟨rest, hzero⟩ := by
      apply @Block.string_of_cells b (l ++ t.map some) r ⟨rest, hzero⟩
      · rw [h.cells]
        simp
      · simp
    rw [replaceStringFrom, hstring, ok_bind, strstrIn_eq]
    cases hsearch : Substr.searchOn (compared caseSensitive) find rest with
    | none =>
      rw [Substr.countOn_of_none hfind hsearch] at hcount
      refine ⟨_, k, rfl, t, rest, r, h.substituted, h.nonzero, h.cells, h.size, Or.inl ⟨?_, rfl⟩⟩
      rw [wantedCount, ← hcount]
      obtain hall | hall := hall
      · rw [if_pos hall]
        rfl
      · rw [hall]
        simp
    | some p =>
      obtain ⟨x, y⟩ := p
      have hlt : k < wantedCount all caseSensitive find s := by
        rw [wantedCount, ← hcount, Substr.countOn_of_some hfind hsearch]
        obtain hall | hall := hall
        · rw [if_pos hall]
          omega
        · split
          · omega
          · omega
      simp only
      by_cases hfull : (strsize : Int) < ((t ++ rest).length + 1 : Int) - find.length + subst.length
      · rw [if_pos hfull]
        refine ⟨_, k, rfl, t, rest, r, h.substituted, h.nonzero, h.cells, h.size,
          Or.inr ⟨hlt, ?_, rfl, hlast⟩⟩
        omega
      · rw [if_neg hfull]
        obtain ⟨b₁, b₂, r', hmove, hput, hnext⟩ := h.next hfind hsubst hsearch (by omega)
        have hlength := Substr.length_of_searchOn hsearch
        have htail : (t ++ rest).length
            - (l.length + t.length + x.length - l.length + find.length) + 1 = y.length + 1 := by
          rw [List.length_append]
          omega
        rw [htail, hmove, ok_bind, hput, ok_bind]
        have hlen : (t ++ rest).length - find.length + subst.length
            = (t ++ (x ++ subst) ++ y).length := by
          simp only [List.length_append]
          omega
        have hsize : ((t ++ rest).length + 1 : Int) - find.length + subst.length
            = (t ++ (x ++ subst) ++ y).length + 1 := by
          simp only [List.length_append] at hlen ⊢
          omega
        have hcurr : l.length + t.length + x.length + subst.length
            = l.length + (t ++ (x ++ subst)).length := by
          simp only [List.length_append]
          omega
        rw [hlen, hsize, hcurr]
        cases all with
        | true =>
          rw [if_pos rfl]
          apply ih hnext
          · have hpos := List.length_pos_of_ne_nil hfind
            omega
          · exact Or.inl rfl
          · rfl
        | false =>
          obtain rfl : k = 0 := hall.resolve_left Bool.false_ne_true
          rw [if_neg Bool.false_ne_true]
          refine ⟨_, 1, rfl, t ++ (x ++ subst), y, r', hnext.substituted, hnext.nonzero,
            hnext.cells, hnext.size, Or.inl ⟨?_, rfl⟩⟩
          rw [wantedCount, if_neg Bool.false_ne_true] at hlt ⊢
          omega

end

/-! ### The whole string -/

section

variable {strsize : Nat} {all caseSensitive : Bool} {find subst s : CString}
  {l r : List (Option UInt8)}

/-- The loop begins before the first substitution. -/
theorem replacing_start (hsize : s.length + 1 + r.length = strsize) :
  Replacing caseSensitive find.bytes subst.bytes s.bytes l strsize
    ⟨l ++ (s.bytes.map some ++ some 0 :: r)⟩ 0 [] s.bytes r
  := by
  constructor
  · rfl
  · exact hsize
  · exact s.nonzero
  · rfl
  · apply Nat.zero_add

/-- Replacing ends after some of the substitutions. -/
theorem velyReplaceStringAt_ends (hfind : find.bytes ≠ [])
    (hsize : s.length + 1 + r.length = strsize) :
  ∃ res k, velyReplaceStringAt strsize find.bytes subst.bytes all caseSensitive
      ⟨l ++ (s.bytes.map some ++ some 0 :: r)⟩ l.length = .ok res
    ∧ EndsAfter all caseSensitive find.bytes subst.bytes s.bytes l strsize res k
  := by
  have hstring : Block.string ⟨l ++ (s.bytes.map some ++ some 0 :: r)⟩ l.length = .ok s :=
    Block.string_of_cells s rfl rfl
  rw [velyReplaceStringAt, hstring, ok_bind]
  apply replaceStringFrom_ends hfind subst.nonzero (replacing_start hsize)
  · exact Nat.lt_succ_self _
  · exact Or.inr rfl
  · rfl

/-- Where the first substitution does not fit nothing is changed, and no place is told. -/
theorem velyReplaceStringAt_full {x y : List UInt8}
    (hsearch : Substr.searchOn (compared caseSensitive) find.bytes s.bytes = some (x, y))
    (hfull : strsize + find.length < s.length + 1 + subst.length) :
  velyReplaceStringAt strsize find.bytes subst.bytes all caseSensitive
      ⟨l ++ (s.bytes.map some ++ some 0 :: r)⟩ l.length
    = .ok ⟨-1, ⟨l ++ (s.bytes.map some ++ some 0 :: r)⟩, none⟩
  := by
  have hstring : Block.string ⟨l ++ (s.bytes.map some ++ some 0 :: r)⟩ l.length = .ok s :=
    Block.string_of_cells s rfl rfl
  rw [velyReplaceStringAt, hstring, ok_bind, replaceStringFrom, hstring, ok_bind, strstrIn_eq,
    hsearch]
  dsimp only
  have hfull' : (strsize : Int)
      < (s.length + 1 : Int) - find.bytes.length + subst.bytes.length := by
    simp only [CString.length] at hfull ⊢
    omega
  rw [if_pos hfull']
  rfl

/-- Replacing does what it should exactly when nothing is found or the first substitution fits: if
not, it does not tell where it stopped. -/
theorem replaceOk_iff (hfind : find.bytes ≠ []) (hsize : s.length < strsize) :
  ReplaceOk all caseSensitive find subst s strsize ↔
    Substr.searchOn (compared caseSensitive) find.bytes s.bytes = none
      ∨ s.length + 1 + subst.length ≤ strsize + find.length
  := by
  constructor
  · intro h
    cases hsearch : Substr.searchOn (compared caseSensitive) find.bytes s.bytes with
    | none => exact Or.inl rfl
    | some p =>
      right
      by_contra hfull
      have hr : s.length + 1
          + (List.replicate (strsize - (s.length + 1)) (none : Option UInt8)).length = strsize := by
        rw [List.length_replicate]
        omega
      obtain ⟨res, k, t, rest, u, r', hres, -, -, -, -, -, hend⟩ := h [] _ hr
      rw [velyReplaceStringAt_full hsearch (by omega)] at hres
      obtain rfl := Except.ok.inj hres
      obtain ⟨-, hret⟩ | ⟨-, -, -, hlast⟩ := hend
      · dsimp only at hret
        omega
      · cases hlast
  · intro h l r hr
    obtain ⟨res, k, hres, t, rest, r', hsubst, hzero, hcells, hlen, hend⟩ :=
      @velyReplaceStringAt_ends strsize all caseSensitive find subst s l r hfind hr
    refine ⟨res, k, t, rest, t ++ rest, r', hres, hsubst, rfl, hzero, hcells, hlen, ?_⟩
    obtain hdone | ⟨hlt, hfull, hret, hlast⟩ := hend
    · exact Or.inl hdone
    · by_cases hk : k = 0
      · subst hk
        rw [Substr.substitute, Prod.mk.injEq] at hsubst
        obtain ⟨rfl, rfl⟩ := hsubst
        exfalso
        obtain hnone | hroom := h
        · rw [wantedCount, Substr.countOn_of_none hfind hnone] at hlt
          split at hlt
          · omega
          · omega
        · simp only [CString.length, List.nil_append] at hfull hroom
          omega
      · rw [if_neg hk] at hlast
        exact Or.inr ⟨hlt, hfull, hret, hlast⟩

/-- Two occurrences in a buffer with room for one substitution. -/
theorem replaceOk_two :
  ReplaceOk true false ⟨ascii "AB", by decide⟩ ⟨ascii "<b>", by decide⟩
    ⟨ascii "ab-Ab", by decide⟩ 7
  := (replaceOk_iff (by decide) (by decide)).mpr (Or.inr (by decide))

/-- An occurrence in a buffer without room for its substitution. -/
theorem not_replaceOk_full :
  ¬ ReplaceOk false true ⟨ascii "a", by decide⟩ ⟨ascii "bc", by decide⟩ ⟨ascii "a", by decide⟩ 2
  := by
  intro h
  obtain ⟨res, k, t, rest, u, r', hres, -, -, -, -, -, hend⟩ := h [] [] rfl
  cases hres
  obtain ⟨-, hret⟩ | ⟨-, -, -, hlast⟩ := hend
  · dsimp only at hret
    omega
  · cases hlast

end

/-! ### The text of a statement -/

/-- Where the case of letters matters it is the replacing in the text of a statement. -/
theorem velyReplaceStringIn_eq {b : Block} {str : Nat} {strsize : Int} {find subst : List UInt8}
    {all : Bool} :
  velyReplaceStringIn b str strsize find subst all
    = (velyReplaceStringAt strsize find subst all true b str).map
      fun res => ⟨res.ret ≠ -1, res.block, res.last⟩
  := by
  have hret : ∀ len : Nat, decide ((len : Int) ≠ -1) = true := by
    intro len
    rw [decide_eq_true_eq]
    omega
  have hloop : ∀ n b curr len currsize last,
      replaceInFrom strsize find subst all str n b curr len currsize last
        = (replaceStringFrom strsize find subst all true str n b curr len currsize last).map
          fun res => ⟨res.ret ≠ -1, res.block, res.last⟩ := by
    intro n
    induction n with
    | zero =>
      intro b curr len currsize last
      rfl
    | succ n ih =>
      intro b curr len currsize last
      rw [replaceInFrom, replaceStringFrom]
      cases b.string curr with
      | error e => rfl
      | ok s =>
        rw [ok_bind, ok_bind, strstrIn, if_pos rfl]
        cases Substr.search find s.bytes with
        | none =>
          simp only [pure, Except.pure, Except.map, hret]
        | some p =>
          dsimp only
          split
          · rfl
          · generalize b.move _ _ _ = b₁
            cases b₁ with
            | error e => rfl
            | ok b₁ =>
              rw [ok_bind, ok_bind]
              generalize b₁.putAll _ _ = b₂
              cases b₂ with
              | error e => rfl
              | ok b₂ =>
                rw [ok_bind, ok_bind]
                split
                · apply ih
                · simp only [pure, Except.pure, Except.map, hret]
  rw [velyReplaceStringIn, velyReplaceStringAt]
  cases b.string str with
  | error e => rfl
  | ok s =>
    rw [ok_bind, ok_bind]
    apply hloop

end Vely
