import Vely.Db.Literals

/-!
# Statements as SQLite sees them

Every statement, dynamic or prepared, goes through `vely_db_prep_text` before SQLite prepares it.
SQLite counts the parameters of the text, and takes the values that are bound in their place.
-/

namespace Vely

open SqlText

/-- The tokens with the values in the place of the parameters. -/
def bindValues : List Token → List (List UInt8) → List Token
  | .param :: ts, v :: vs => .opened :: v.map .char ++ bindValues ts vs
  | t :: ts, vs => t :: bindValues ts vs
  | [], _ => []

/-- `vely_lite_prep_stmt`, for a statement that SQLite can prepare: its tokens, if it has as many
parameters as are given. -/
def velyLitePrepStmt (stmt : List UInt8) (numOfArgs : Nat) : Option (List Token) :=
  let ts := tokens sqlite .outside (velyDbPrepText stmt)
  if ts.count .param = numOfArgs then some ts else none

/-- What `vely_lite_exec` has SQLite execute: the tokens of the statement, the values in the place
of its parameters. -/
def velyLiteExecText (stmt : List UInt8) (params : List CString) : Option (List Token) :=
  (velyLitePrepStmt stmt params.length).map fun ts => bindValues ts (params.map CString.bytes)

/-- A parameter in the place of each placeholder. -/
def marks : List (List UInt8) → List UInt8
  | [] => []
  | [a] => a
  | a :: b :: as => a ++ mark :: marks (b :: as)

/-- The tokens `ts` of the parts of a text, with other tokens between them. -/
def weave : List (List Token) → List (List Token) → List Token
  | t :: u :: ts, x :: xs => t ++ x ++ weave (u :: ts) xs
  | [t], _ => t
  | _, _ => []

section Marks

/-- Parameters are made in the place of all placeholders, if there are not too many. -/
theorem prepFrom_eq {n : Nat} {t : List UInt8} (hn : Substr.count quotedS t < n) :
  prepFrom n t = marks (Substr.pieces quotedS t)
  := by
  induction n generalizing t with
  | zero => cases hn
  | succ n ih =>
    rw [prepFrom]
    cases h : Substr.search quotedS t with
    | none =>
      rw [Substr.pieces_of_none (by decide) h]
      rfl
    | some p =>
      obtain ⟨x, y⟩ := p
      rw [Substr.count_of_some (by decide) h] at hn
      simp only
      rw [ih (by omega), Substr.pieces_of_some (by decide) h]
      cases hy : Substr.pieces quotedS y with
      | nil => exact absurd hy Substr.pieces_ne_nil
      | cons b as => rfl

/-- The count that does not mind the case of letters finds all that is replaced. -/
theorem velyDbPrepText_eq (t : List UInt8) :
  velyDbPrepText t = prepFrom 65535 t
  := by
  rw [velyDbPrepText]
  split
  · next hzero =>
    have hcount : Substr.count (quotedS.map tolower) (t.map tolower) = 0 := hzero
    rw [← Substr.search_eq_none_iff_count (by decide),
      Substr.search_eq_none_iff (by decide)] at hcount
    have hnone : Substr.search quotedS t = none := by
      rw [Substr.search_eq_none_iff (by decide)]
      intro h
      exact hcount (h.map tolower)
    rw [prepFrom, hnone]
  · rfl

/-- A text without placeholders is prepared as it is. -/
theorem velyDbPrepText_of_none {t : List UInt8} (h : Substr.search quotedS t = none) :
  velyDbPrepText t = t
  := by
  rw [velyDbPrepText_eq, prepFrom, h]

/-- A text is prepared with a parameter in the place of its first placeholder. -/
theorem velyDbPrepText_of_some {t x y : List UInt8} (h : Substr.search quotedS t = some (x, y)) :
  ∃ z, velyDbPrepText t = x ++ mark :: z
  := by
  rw [velyDbPrepText_eq, prepFrom, h]
  exact ⟨_, rfl⟩

end Marks

section Weave

variable {ts xs : List (List Token)}

/-- What is counted in the tokens that are woven is in the parts and between them. -/
theorem count_weave {f : List Token → Nat} (hf : ∀ s t, f (s ++ t) = f s + f t)
    (hlength : xs.length + 1 = ts.length) :
  f (weave ts xs) = (ts.map f).sum + (xs.map f).sum
  := by
  induction ts generalizing xs with
  | nil => cases hlength
  | cons t ts ih =>
    cases ts with
    | nil =>
      cases xs with
      | nil => simp [weave]
      | cons x xs => cases hlength
    | cons u ts =>
      cases xs with
      | nil => cases hlength
      | cons x xs =>
        rw [List.length_cons, List.length_cons, Nat.add_right_cancel_iff] at hlength
        rw [weave, hf, hf, ih hlength]
        simp only [List.map_cons, List.sum_cons]
        omega

/-- Tokens without parameters stay when values are bound. -/
theorem bindValues_append {t us : List Token} {vs : List (List UInt8)} (ht : Token.param ∉ t) :
  bindValues (t ++ us) vs = t ++ bindValues us vs
  := by
  induction t with
  | nil => rfl
  | cons a t ih =>
    rw [List.mem_cons, not_or] at ht
    have hcons : bindValues (a :: (t ++ us)) vs = a :: bindValues (t ++ us) vs := by
      cases a with
      | param => exact absurd rfl ht.1
      | text b => rw [bindValues]; simp
      | opened => rw [bindValues]; simp
      | char b => rw [bindValues]; simp
    rw [List.cons_append, hcons, ih ht.2]
    rfl

/-- The values are bound between parts that have no parameters. -/
theorem bindValues_weave {vs : List (List UInt8)} (hlength : vs.length + 1 = ts.length)
    (hts : ∀ t ∈ ts, Token.param ∉ t) :
  bindValues (weave ts (vs.map fun _ => [.param])) vs
    = weave ts (vs.map fun v => .opened :: v.map .char)
  := by
  induction ts generalizing vs with
  | nil => cases hlength
  | cons t ts ih =>
    have ht := hts t List.mem_cons_self
    cases ts with
    | nil =>
      have hnil := @bindValues_append t [] vs ht
      simp only [List.append_nil, bindValues] at hnil
      simp only [weave, hnil]
    | cons u ts =>
      cases vs with
      | nil => cases hlength
      | cons v vs =>
        rw [List.length_cons, List.length_cons, Nat.add_right_cancel_iff] at hlength
        simp only [List.map_cons, weave, List.append_assoc]
        rw [bindValues_append ht, List.singleton_append, bindValues,
          ih hlength (fun t ht => hts t (List.mem_cons_of_mem _ ht))]

end Weave

end Vely
