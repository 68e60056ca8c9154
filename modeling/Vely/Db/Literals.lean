import Vely.Db.Text
import Vely.Lib.SqlText

/-!
# Values in dynamic statements

A value that is put in the text of a statement is to lie in a literal, so that the statement has the
same tokens outside its literals for all values.  The check of the format sees a quote on each side
of every placeholder and an even number of quotes, but not whether the first of the two opens a
literal.
-/

namespace Vely

open SqlText

/-- An escaping of values by bytes that writes quotes twice, and makes no other quotes. -/
def DoublesQuotes (escape : List UInt8 → Option (List UInt8)) : Prop :=
  escape [] = some [] ∧
    ∃ f : UInt8 → List UInt8, f apostrophe = [apostrophe, apostrophe] ∧
      (∀ b, b ≠ apostrophe → apostrophe ∉ f b) ∧ ∀ v e, escape v = some e → e = v.flatMap f

/-- The value `val` is put after the text `before` while the values `args` are put in. -/
def PlacedFrom (escape : List UInt8 → Option (List UInt8)) (m : Making)
    (args : List (Option CString)) (before val : List UInt8) : Prop :=
  ∃ l arg r m₁ m₂ e, args = l ++ some arg :: r ∧ putArgs escape l m = .ok m₁ ∧
    putArg escape m₁ (some arg) = .ok m₂ ∧ escape arg.bytes = some e ∧ val = trimValue e ∧
    m₂.done = before ++ val

/-- A text after another one lies strictly inside a literal: the literal is open before it and after
it, and all of the text is its contents. -/
def Inside (d : Dialect) (before val : List UInt8) : Prop :=
  after d .outside before = .literal ∧ after d .literal val = .literal ∧
    ∀ t ∈ tokens d .literal val, t.isOuter = false

/-- The values in statements of the format lie inside literals, and the tokens outside the literals
are the same for all values. -/
def LiteralsHold (d : Dialect) (escape : List UInt8 → Option (List UInt8)) (format : CString) : Prop :=
  (∀ args sql, velyMakeSQL escape args format = .ok sql →
    ∀ before val, PlacedFrom escape (.start format) args before val → Inside d before val) ∧
  ∀ args args' sql sql', velyMakeSQL escape args format = .ok sql →
    velyMakeSQL escape args' format = .ok sql' →
      skeleton (tokens d .outside sql) = skeleton (tokens d .outside sql')

/-- The texts before the placeholders `%s` between the parts of a format. -/
def beforePlaceholders : List (List UInt8) → List (List UInt8)
  | a :: b :: as =>
    (a ++ [apostrophe]) ::
      (beforePlaceholders (b :: as)).map fun x => a ++ apostrophe :: percentS ++ apostrophe :: x
  | _ => []

/-- Read from a mode, every placeholder between the parts is in a literal. -/
def LitFrom (d : Dialect) : Mode → List (List UInt8) → Prop
  | m, a :: b :: as => after d m (a ++ [apostrophe]) = .literal ∧ LitFrom d .quote (b :: as)
  | _, _ => True

section Format

variable {d : Dialect} {m : Mode}

/-- A placeholder in a literal leaves it open, and the quote after it does not. -/
theorem after_placeholder {a x : List UInt8} (h : after d m (a ++ [apostrophe]) = .literal) :
  after d m (a ++ apostrophe :: percentS ++ apostrophe :: x) = after d .quote x
  := by
  have hsplit : a ++ apostrophe :: percentS ++ apostrophe :: x
      = (a ++ [apostrophe]) ++ (percentS ++ apostrophe :: x) := by simp
  rw [hsplit, after_append, h]
  rfl

theorem litFrom_iff {as : List (List UInt8)} :
  LitFrom d m as ↔ ∀ x ∈ beforePlaceholders as, after d m x = .literal
  := by
  induction as generalizing m with
  | nil => simp [LitFrom, beforePlaceholders]
  | cons a as ih =>
    cases as with
    | nil => simp [LitFrom, beforePlaceholders]
    | cons b as =>
      rw [LitFrom, beforePlaceholders, List.forall_mem_cons, ih]
      constructor
      · rintro ⟨ha, h⟩
        use ha
        intro y hy
        obtain ⟨x, hx, rfl⟩ := List.mem_map.mp hy
        rw [after_placeholder ha]
        apply h x hx
      · rintro ⟨ha, h⟩
        use ha
        intro x hx
        rw [← after_placeholder ha]
        apply h
        apply List.mem_map_of_mem hx

/-- With texts for the values that are read as contents of literals, the tokens outside literals are
those of the parts. -/
theorem LitFrom.skeleton_fill {as vals vals' : List (List UInt8)} (h : LitFrom d m as)
    (hlength : vals.length + 1 = as.length) (hlength' : vals'.length + 1 = as.length)
    (hvals : ∀ v ∈ vals, ∃ c, Inner v c) (hvals' : ∀ v ∈ vals', ∃ c, Inner v c) :
  skeleton (tokens d m (fill as vals)) = skeleton (tokens d m (fill as vals'))
  := by
  induction as generalizing m vals vals' with
  | nil => cases hlength
  | cons a as ih =>
    cases as with
    | nil => rfl
    | cons b as =>
      cases vals with
      | nil => cases hlength
      | cons v vals =>
        cases vals' with
        | nil => cases hlength'
        | cons v' vals' =>
          have hread : ∀ v vals, (∃ c, Inner v c) →
              skeleton (tokens d m (fill (a :: b :: as) (v :: vals)))
                = skeleton (tokens d m (a ++ [apostrophe]))
                  ++ skeleton (tokens d .quote (fill (b :: as) vals)) := by
            rintro v vals ⟨c, hc⟩
            have hfill : fill (a :: b :: as) (v :: vals)
                = (a ++ [apostrophe]) ++ (v ++ apostrophe :: fill (b :: as) vals) := by
              rw [fill]
              simp [apostrophe]
            rw [hfill, tokens_append, h.1, tokens_append v, hc.read.1, hc.read.2, skeleton_append,
              skeleton_append, skeleton_chars]
            rfl
          rw [List.length_cons, List.length_cons, Nat.add_right_cancel_iff] at hlength hlength'
          rw [hread v vals (hvals v List.mem_cons_self),
            hread v' vals' (hvals' v' List.mem_cons_self),
            ih h.2 hlength hlength' (fun u hu => hvals u (List.mem_cons_of_mem v hu))
              (fun u hu => hvals' u (List.mem_cons_of_mem v' hu))]

end Format

section Run

variable {d : Dialect} {escape : List UInt8 → Option (List UInt8)} {format : CString}

/-- An escaped and trimmed value is read as the contents of a literal. -/
theorem DoublesQuotes.inner (h : DoublesQuotes escape) {v e : List UInt8} (he : escape v = some e) :
  ∃ c, Inner (trimValue e) c
  := by
  obtain ⟨-, f, hf, hother, hescape⟩ := h
  have hinner : ∀ v : List UInt8, ∃ c, Inner (v.flatMap f) c := by
    intro v
    induction v with
    | nil => exact ⟨[], .nil⟩
    | cons b v ih =>
      obtain ⟨c, hc⟩ := ih
      rw [List.flatMap_cons]
      by_cases hb : b = apostrophe
      · rw [hb, hf]
        exact ⟨_, hc.quote⟩
      · have hbytes : Inner (f b) (f b) := by
          apply Inner.of_bytes
          rintro e he rfl
          exact hother b hb he
        exact ⟨_, hbytes.append hc⟩
  obtain ⟨c, hc⟩ := hinner v
  rw [hescape v e he]
  obtain ⟨c', hc'⟩ := hc.rdropWhile (p := isspace) (by decide)
  exact ⟨_, hc'.dropWhile (by decide)⟩

theorem DoublesQuotes.inner_texts (h : DoublesQuotes escape) {args : List (Option CString)}
    {vals : List (List UInt8)} (hvals : texts escape args = some vals) :
  ∀ v ∈ vals, ∃ c, Inner v c
  := by
  induction args generalizing vals with
  | nil =>
    cases hvals
    simp
  | cons arg args ih =>
    cases arg with
    | none => exact ih hvals
    | some arg =>
      simp only [texts] at hvals
      split at hvals
      · next he hrest =>
        cases hvals
        intro v hv
        cases hv with
        | head => exact h.inner he
        | tail _ hv => exact ih hrest v hv
      · cases hvals

/-- A text that is the contents of a literal lies inside the literal that is open before it. -/
theorem inside_of_inner {before val c : List UInt8} (h : Inner val c)
    (hbefore : after d .outside before = .literal) :
  Inside d before val
  := by
  use hbefore, h.read.1
  rw [h.read.2]
  intro t ht
  obtain ⟨b, -, rfl⟩ := List.mem_map.mp ht
  rfl

/-- The values of a format whose placeholders are in literals lie inside literals. -/
theorem LitFrom.inside (hescape : DoublesQuotes escape) {as : List (List UInt8)}
    {lead before val : List UInt8} {m : Making} {args : List (Option CString)}
    (h : LitFrom d (after d .outside (m.done ++ lead)) as) (hm : Filling as lead m)
    (hplaced : PlacedFrom escape m args before val) :
  Inside d before val
  := by
  obtain ⟨l, arg, r, m₁, m₂, e, rfl, hl, hput, he, rfl, hdone⟩ := hplaced
  induction l generalizing as lead m with
  | nil =>
    cases hl
    cases as with
    | nil => exact absurd rfl hm.ne_nil
    | cons a as =>
      have hspec := hm.putArg he
      cases as with
      | nil =>
        simp only at hspec
        rw [hspec] at hput
        cases hput
      | cons b as =>
        obtain ⟨m', hm', -, hdone'⟩ := hspec
        rw [hput, Except.ok.injEq] at hm'
        rw [← hm', hdone] at hdone'
        have hbefore : before = (m₁.done ++ lead) ++ (a ++ [apostrophe]) := by
          have hboth : before ++ trimValue e = ((m₁.done ++ lead) ++ (a ++ [apostrophe]))
              ++ trimValue e := by
            rw [hdone']
            simp [apostrophe]
          exact List.append_cancel_right hboth
        obtain ⟨c, hc⟩ := hescape.inner he
        apply inside_of_inner hc
        rw [hbefore, after_append]
        exact h.1
  | cons arg' l ih =>
    cases arg' with
    | none => exact ih h hm hl
    | some arg' =>
      cases as with
      | nil => exact absurd rfl hm.ne_nil
      | cons a as =>
        cases he' : escape arg'.bytes with
        | none =>
          have hfails : ∃ err, putArg escape m (some arg') = .error err := by
            simp only [putArg, he']
            split
            · exact ⟨_, rfl⟩
            · exact ⟨_, rfl⟩
          obtain ⟨err, herr⟩ := hfails
          rw [putArgs, herr] at hl
          cases hl
        | some e' =>
          have hspec := hm.putArg he'
          cases as with
          | nil =>
            simp only at hspec
            rw [putArgs, hspec] at hl
            cases hl
          | cons b as =>
            obtain ⟨m', hm', hfilling, hdone'⟩ := hspec
            rw [putArgs, hm'] at hl
            apply ih _ hfilling hl
            obtain ⟨c, hc⟩ := hescape.inner he'
            have hsplit : m'.done ++ [39]
                = (m.done ++ lead) ++ (a ++ [apostrophe]) ++ (trimValue e' ++ [apostrophe]) := by
              rw [hdone']
              simp [apostrophe]
            rw [hsplit, after_append, after_append (_ ++ _) (a ++ _), h.1, after_append, hc.read.1]
            exact h.2

/-- Where the empty value lies inside a literal in every placeholder, the placeholders are in
literals. -/
theorem litFrom_of_inside (hescape : escape [] = some []) {as : List (List UInt8)}
    {lead : List UInt8} {m : Making} (hm : Filling as lead m)
    (h : ∀ before val,
      PlacedFrom escape m (List.replicate (as.length - 1) (some .empty)) before val →
        Inside d before val) :
  LitFrom d (after d .outside (m.done ++ lead)) as
  := by
  induction as generalizing lead m with
  | nil => trivial
  | cons a as ih =>
    have hempty : escape CString.empty.bytes = some [] := hescape
    have hspec := hm.putArg hempty
    cases as with
    | nil => trivial
    | cons b as =>
      obtain ⟨m', hput, hfilling, hdone⟩ := hspec
      have htrim : trimValue [] = [] := rfl
      have hbefore : m'.done = (m.done ++ lead) ++ (a ++ [apostrophe]) := by
        rw [hdone, htrim]
        simp [apostrophe]
      have hargs : List.replicate ((a :: b :: as).length - 1) (some CString.empty)
          = some .empty :: List.replicate ((b :: as).length - 1) (some .empty) := by
        simp [List.replicate_succ]
      rw [hargs] at h
      have hinside := h m'.done []
        ⟨[], _, _, m, m', [], rfl, rfl, hput, hempty, rfl, (List.append_nil _).symm⟩
      rw [hbefore] at hinside
      have hlit : after d (after d .outside (m.done ++ lead)) (a ++ [apostrophe]) = .literal := by
        rw [← after_append]
        exact hinside.1
      constructor
      · exact hlit
      · have hquote : after d .outside (m'.done ++ [39]) = .quote := by
          rw [hbefore, after_append, hinside.1]
          rfl
        rw [← hquote]
        apply ih hfilling
        rintro before val ⟨l, arg, r, m₁, m₂, e, heq, hl, hrest⟩
        apply h
        refine ⟨some .empty :: l, arg, r, m₁, m₂, e, ?_, ?_, hrest⟩
        · rw [heq]
          rfl
        · rw [putArgs, hput]
          exact hl

/-- There is a statement of an accepted format with empty values. -/
theorem Accepted.exists_sql (haccepted : Accepted format) (hescape : escape [] = some []) :
  ∃ sql, velyMakeSQL escape (List.replicate ((parts format).length - 1) (some .empty)) format
    = .ok sql
  := by
  have hempty : escape CString.empty.bytes = some [] := hescape
  have htexts : ∀ n, texts escape (List.replicate n (some .empty))
      = some (List.replicate n []) := by
    intro n
    induction n with
    | zero => rfl
    | succ n ih =>
      simp only [List.replicate_succ, texts, hempty, ih]
      rfl
  have hpos := List.length_pos_of_ne_nil (@Substr.pieces_ne_nil _ _ quotedS format.bytes)
  use fill (parts format) (List.replicate ((parts format).length - 1) [])
  rw [velyMakeSQL_eq_ok_iff]
  use haccepted, List.replicate ((parts format).length - 1) [], htexts _
  constructor
  · rw [List.length_replicate]
    exact Nat.sub_add_cancel hpos
  · rfl

end Run

/-- The values of the statements of an accepted format lie inside literals, and the tokens outside
the literals are the same for all values, exactly when the placeholders of the format are in
literals as they stand. -/
theorem literalsHold_iff {d : Dialect} {escape : List UInt8 → Option (List UInt8)} {format : CString}
    (hescape : DoublesQuotes escape) (haccepted : Accepted format) :
  LiteralsHold d escape format
    ↔ ∀ x ∈ beforePlaceholders (parts format), after d .outside x = .literal
  := by
  rw [← litFrom_iff]
  constructor
  · rintro ⟨hinside, -⟩
    obtain ⟨sql, hsql⟩ := haccepted.exists_sql hescape.1
    apply litFrom_of_inside hescape.1 haccepted.filling
    apply hinside _ sql hsql
  · intro h
    constructor
    · intro args sql _ before val hplaced
      apply LitFrom.inside hescape _ haccepted.filling hplaced
      exact h
    · intro args args' sql sql' hsql hsql'
      obtain ⟨-, vals, hvals, hlength, rfl⟩ := velyMakeSQL_eq_ok_iff.mp hsql
      obtain ⟨-, vals', hvals', hlength', rfl⟩ := velyMakeSQL_eq_ok_iff.mp hsql'
      apply h.skeleton_fill hlength hlength'
      · apply hescape.inner_texts hvals
      · apply hescape.inner_texts hvals'

/-- The escaping of SQLite doubles quotes. -/
theorem velyLiteEscape_doublesQuotes :
  DoublesQuotes velyLiteEscape
  := by
  use rfl, escapeByte, rfl
  constructor
  · intro b hb hmem
    rw [escapeByte] at hmem
    split at hmem
    · simp [apostrophe] at hmem
    · have hb' : ¬ b = 39 := hb
      rw [if_neg hb', List.mem_singleton] at hmem
      exact hb hmem.symm
  · intro v e he
    rw [velyLiteEscape_eq, Option.some.injEq] at he
    exact he.symm

theorem literalsHold_select :
  LiteralsHold standard velyLiteEscape ⟨ascii "select * from t where a='%s'", by decide⟩
    ↔ ∀ x ∈ beforePlaceholders (parts ⟨ascii "select * from t where a='%s'", by decide⟩),
        after standard .outside x = .literal
  := literalsHold_iff velyLiteEscape_doublesQuotes (by decide)

/-- In the format `''%s''` a value is outside literals, so that the values `a` and `b` are different
words of the statement. -/
theorem not_literalsHold_adjacent :
  ¬ LiteralsHold standard velyLiteEscape ⟨ascii "''%s''", by decide⟩
  := by
  intro h
  have hsame := h.2 [some ⟨[97], by decide⟩] [some ⟨[98], by decide⟩] (ascii "''a''")
    (ascii "''b''") (by decide +kernel) (by decide +kernel)
  exact absurd hsame (by decide)

end Vely
