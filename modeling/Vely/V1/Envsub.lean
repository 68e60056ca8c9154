import Vely.Lib.CString
import Vely.Lib.Ctype

/-!
# Substituting the environment (`envsub`)

The input is copied, with every `${NAME}` replaced by the value of the variable.  What was read of a
reference is kept until it is complete, and is written as it is when it turns out to be none; so is
the byte after it, without looking at it again.
-/

namespace Vely

namespace V1

/-- The values of variables. -/
abbrev Environment := List UInt8 → Option CString

/-- What is written for a variable: nothing if it does not exist. -/
def Environment.value (env : Environment) (name : List UInt8) : List UInt8 :=
  match env name with
  | some ev => ev.bytes
  | none => []

/-- A character of the name of a variable. -/
def isVarChar (c : UInt8) : Bool := isalnum c || c = 95

/-- The longest name, `sizeof(varname) - 2`. -/
def nameLimit : Nat := 254

/-- Where the code reads its next byte: in the text, after a `$`, or in a name, of which `varname` is
read. -/
inductive SubState where
  | text
  | dollar
  | name (varname : List UInt8)
  deriving DecidableEq

/-- The bytes of a string that `fputs` writes. -/
def fputs (s : List UInt8) : List UInt8 := s.takeWhile (· ≠ 0)

/-- `envsub`, from where it reads on. -/
def envsub (env : Environment) : SubState → List UInt8 → List UInt8
  | .text, [] => []
  | .text, c :: r => if c = 36 then envsub env .dollar r else c :: envsub env .text r
  | .dollar, [] => [36]
  | .dollar, c :: r =>
    if c = 123 then envsub env (.name []) r else 36 :: c :: envsub env .text r
  | .name varname, [] => [36, 123] ++ fputs varname
  | .name varname, c :: r =>
    if c = 125 then
      if varname = [] then [36, 123, 125] ++ envsub env .text r
      else env.value varname ++ envsub env .text r
    else if !isVarChar c || nameLimit ≤ varname.length then
      [36, 123] ++ fputs (varname ++ [c]) ++ envsub env .text r
    else envsub env (.name (varname ++ [c])) r

/-! ## The substitution -/

/-- The name in the reference that a text starts with, if it starts with one. -/
def reference (text : List UInt8) : Option (List UInt8) :=
  let name := (text.drop 2).takeWhile isVarChar
  if text.take 2 = [36, 123] ∧ name ≠ [] ∧ name.length ≤ nameLimit
      ∧ (text.drop (2 + name.length)).head? = some 125 then some name
  else none

/-- The text with each reference replaced; the first `n` bytes are those of a reference that was
replaced. -/
def substituted (env : Environment) : Nat → List UInt8 → List UInt8
  | _, [] => []
  | n + 1, _ :: r => substituted env n r
  | 0, c :: r =>
    match reference (c :: r) with
    | some name => env.value name ++ substituted env (name.length + 2) r
    | none => c :: substituted env 0 r

/-- In every environment the text is substituted. -/
def EnvsubOk (text : List UInt8) : Prop :=
  ∀ env, envsub env .text text = substituted env 0 text

/-- Where the code reads on after a byte. -/
def SubState.next : SubState → UInt8 → SubState
  | .text, c => if c = 36 then .dollar else .text
  | .dollar, c => if c = 123 then .name [] else .text
  | .name varname, c =>
    if c = 125 || !isVarChar c || nameLimit ≤ varname.length then .text
    else .name (varname ++ [c])

/-- Where the code reads on after a text. -/
def SubState.after (s : SubState) (text : List UInt8) : SubState := text.foldl SubState.next s

/-- No reference starts with the byte that ends another one which is none, or with the byte after a
`$` that stands alone. -/
def NoReference (s : SubState) (text : List UInt8) : Prop :=
  ∀ a b, text = a ++ b → s.after a ≠ .text → reference b = none

/-- No zero ends a reference that is none. -/
def NoZero (s : SubState) (text : List UInt8) : Prop :=
  ∀ a b, text = a ++ b → (∃ varname, s.after a = .name varname) → b.head? ≠ some 0

/-- What is read after a `$` is given back. -/
structure GivenBack (text : List UInt8) : Prop where
  reference : NoReference .text text
  zero : NoZero .text text

section Substitution

variable {env : Environment} {s : SubState} {c : UInt8} {a b r t text name varname : List UInt8}

/-! ### References -/

theorem reference_eq_some :
  reference text = some name
    ↔ ∃ r, text = 36 :: 123 :: (name ++ 125 :: r) ∧ name ≠ [] ∧ name.length ≤ nameLimit
      ∧ ∀ c ∈ name, isVarChar c = true
  := by
  constructor
  · intro h
    rw [reference] at h
    split at h
    · next hcond =>
      cases h
      obtain ⟨htake, hne, hlen, hclose⟩ := hcond
      have htext : text = 36 :: 123 :: text.drop 2 := by
        rw [← List.take_append_drop 2 text, htake]
        rfl
      obtain ⟨r, hr⟩ := List.head?_eq_some_iff.mp hclose
      use r
      refine ⟨?_, hne, hlen, fun c hc => List.mem_takeWhile_imp hc⟩
      have hparts : (text.drop 2).takeWhile isVarChar ++ (text.drop 2).dropWhile isVarChar
          = text.drop 2 := List.takeWhile_append_dropWhile
      have hrest : (text.drop 2).dropWhile isVarChar = 125 :: r := by
        have hleft := @List.drop_left _ ((text.drop 2).takeWhile isVarChar)
          ((text.drop 2).dropWhile isVarChar)
        rw [hparts, List.drop_drop, hr] at hleft
        exact hleft.symm
      rw [hrest] at hparts
      rw [hparts]
      exact htext
    · cases h
  · rintro ⟨r, rfl, hne, hlen, hname⟩
    have hdrop : (36 :: 123 :: (name ++ 125 :: r)).drop 2 = name ++ 125 :: r := rfl
    have hwhile : (name ++ 125 :: r).takeWhile isVarChar = name := by
      rw [List.takeWhile_append_of_pos hname, List.takeWhile_cons_of_neg (by decide),
        List.append_nil]
    have hclose : ((36 :: 123 :: (name ++ 125 :: r)).drop (2 + name.length)).head? = some 125 := by
      rw [← List.drop_drop, hdrop, List.drop_left]
      rfl
    rw [reference, hdrop, hwhile, if_pos ⟨rfl, hne, hlen, hclose⟩]

/-- A reference starts with a `$`. -/
theorem reference_of_ne (h : c ≠ 36) :
  reference (c :: r) = none
  := by
  rw [Option.eq_none_iff_forall_ne_some]
  intro name hname
  obtain ⟨t, ht, -⟩ := reference_eq_some.mp hname
  exact h (List.cons.inj ht).1

/-! ### The text with references replaced -/

theorem substituted_of_none (h : reference (c :: r) = none) :
  substituted env 0 (c :: r) = c :: substituted env 0 r
  := by
  rw [substituted, h]

theorem substituted_drop (n : Nat) :
  substituted env n r = substituted env 0 (r.drop n)
  := by
  induction r generalizing n with
  | nil => rw [List.drop_nil, substituted, substituted]
  | cons c r ih =>
    cases n with
    | zero => rfl
    | succ n => rw [substituted, List.drop_succ_cons, ih]

theorem substituted_reference (h : reference (36 :: 123 :: (name ++ 125 :: r)) = some name) :
  substituted env 0 (36 :: 123 :: (name ++ 125 :: r)) = env.value name ++ substituted env 0 r
  := by
  have hdrop : (123 :: (name ++ 125 :: r)).drop (name.length + 2) = r := by
    rw [List.drop_succ_cons, ← List.drop_drop, List.drop_left]
    rfl
  rw [substituted, h]
  simp only [substituted_drop (name.length + 2), hdrop]

/-- Bytes that start no reference are copied. -/
theorem substituted_append (h : ∀ c ∈ a, c ≠ 36) :
  substituted env 0 (a ++ r) = a ++ substituted env 0 r
  := by
  induction a with
  | nil => rfl
  | cons c a ih =>
    rw [List.cons_append, substituted_of_none (reference_of_ne (h c List.mem_cons_self)),
      ih fun d hd => h d (List.mem_cons_of_mem c hd)]
    rfl

/-! ### What was read of a reference -/

/-- What was read, and not written. -/
def SubState.pending : SubState → List UInt8
  | .text => []
  | .dollar => [36]
  | .name varname => 36 :: 123 :: varname

/-- The part of a name that was read. -/
def SubState.Ok : SubState → Prop
  | .name varname => varname.length ≤ nameLimit ∧ ∀ c ∈ varname, isVarChar c = true
  | _ => True

/-- What is written for a byte that ends a reference which is none. -/
def SubState.written (s : SubState) (c : UInt8) : List UInt8 :=
  match s with
  | .name varname => [36, 123] ++ fputs (varname ++ [c])
  | s => s.pending ++ [c]

theorem ne_of_isVarChar (h : isVarChar c = true) {d : UInt8} (hd : isVarChar d = false) :
  c ≠ d
  := by
  rintro rfl
  rw [hd] at h
  cases h

/-- The characters of a name are no zeros. -/
theorem fputs_append (h : ∀ c ∈ varname, isVarChar c = true) :
  fputs (varname ++ t) = varname ++ fputs t
  := by
  apply List.takeWhile_append_of_pos
  intro c hc
  rw [decide_eq_true_eq]
  exact ne_of_isVarChar (h c hc) (by decide)

/-- A part of a name is of no reference if it is not closed, and cannot go on. -/
theorem reference_name (hname : ∀ c ∈ varname, isVarChar c = true)
    (ht : ∀ c r, t = c :: r →
      (c = 125 → varname = []) ∧ (isVarChar c = true → nameLimit ≤ varname.length)) :
  reference (36 :: 123 :: (varname ++ t)) = none
  := by
  rw [Option.eq_none_iff_forall_ne_some]
  intro name href
  obtain ⟨r, hr, hne, hlen, hvar⟩ := reference_eq_some.mp href
  simp only [List.cons.injEq, true_and] at hr
  rw [List.append_eq_append_iff] at hr
  obtain ⟨x, rfl, hx⟩ | ⟨x, rfl, hx⟩ := hr
  · cases x with
    | nil =>
      rw [List.append_nil] at hne
      exact hne ((ht _ _ hx).1 rfl)
    | cons d x =>
      have hlong := (ht _ _ hx).2 (hvar d (by simp))
      rw [List.length_append, List.length_cons] at hlen
      omega
  · cases x with
    | nil =>
      rw [List.append_nil] at ht
      exact hne ((ht _ _ hx.symm).1 rfl)
    | cons d x =>
      rw [List.cons_append, List.cons.injEq] at hx
      have hd := hname d (by simp)
      rw [← hx.1] at hd
      exact absurd hd (by decide)

/-- What was read is copied, if it starts no reference. -/
theorem substituted_pending (hs : s.Ok) (h : s ≠ .text → reference (s.pending ++ t) = none) :
  substituted env 0 (s.pending ++ t) = s.pending ++ substituted env 0 t
  := by
  cases s with
  | text => rfl
  | dollar => exact substituted_of_none (h (by simp))
  | name varname =>
    have hcopy : ∀ c ∈ 123 :: varname, c ≠ 36 := by
      intro c hc
      obtain rfl | hc := List.mem_cons.mp hc
      · decide
      · exact ne_of_isVarChar (hs.2 c hc) (by decide)
    have hopen : substituted env 0 (SubState.pending (.name varname) ++ t)
        = 36 :: substituted env 0 (123 :: varname ++ t) := substituted_of_none (h (by simp))
    rw [hopen, substituted_append hcopy]
    rfl

/-! ### One byte -/

/-- What the code does with a byte: it adds it to what was read, or replaces a reference, or writes
it behind what was read. -/
theorem SubState.next_cases (hs : s.Ok) (c : UInt8) :
  ((s.next c).Ok ∧ (s.next c).pending = s.pending ++ [c] ∧ (s ≠ .text → c ≠ 36)
      ∧ ∀ env r, envsub env s (c :: r) = envsub env (s.next c) r)
    ∨ (∃ varname, s = .name varname ∧ varname ≠ [] ∧ c = 125)
    ∨ (s.next c = .text ∧ (s = .text → c ≠ 36)
      ∧ (∀ env r, envsub env s (c :: r) = s.written c ++ envsub env .text r)
      ∧ ∀ r, s ≠ .text → reference (s.pending ++ c :: r) = none)
  := by
  cases s with
  | text =>
    by_cases hc : c = 36
    · left
      subst hc
      exact ⟨trivial, rfl, fun h => absurd rfl h, fun _ _ => rfl⟩
    · right
      right
      refine ⟨if_neg hc, fun _ => hc, fun env r => ?_, fun _ h => absurd rfl h⟩
      rw [envsub, if_neg hc]
      rfl
  | dollar =>
    by_cases hc : c = 123
    · left
      subst hc
      exact ⟨⟨Nat.zero_le _, by simp⟩, rfl, fun _ => by decide, fun _ _ => rfl⟩
    · right
      right
      refine ⟨if_neg hc, nofun, fun env r => ?_, fun r _ => ?_⟩
      · rw [envsub, if_neg hc]
        rfl
      · rw [Option.eq_none_iff_forall_ne_some]
        intro name href
        obtain ⟨t, ht, -⟩ := reference_eq_some.mp href
        have htail := (List.cons.inj ht).2
        exact hc (List.cons.inj htail).1
  | name varname =>
    obtain ⟨hlen, hvar⟩ := hs
    by_cases hclose : c = 125
    · by_cases hnil : varname = []
      · right
        right
        subst hclose hnil
        refine ⟨rfl, nofun, fun env r => rfl, fun r _ => ?_⟩
        apply @reference_name (125 :: r) [] (by simp)
        intro d r' hd
        use fun _ => rfl
        intro hvar'
        rw [← (List.cons.inj hd).1] at hvar'
        exact absurd hvar' (by decide)
      · right
        left
        exact ⟨varname, rfl, hnil, hclose⟩
    · by_cases hend : isVarChar c = false ∨ nameLimit ≤ varname.length
      · right
        right
        have hend' : (!isVarChar c || decide (nameLimit ≤ varname.length)) = true := by
          simpa using hend
        refine ⟨?_, nofun, fun env r => ?_, fun r _ => ?_⟩
        · rw [SubState.next, Bool.or_assoc, hend', Bool.or_true, if_pos rfl]
        · rw [envsub, if_neg hclose, if_pos (by simpa using hend)]
          rfl
        · apply reference_name hvar
          intro d r' hd
          obtain ⟨rfl, -⟩ := List.cons.inj hd
          use fun h => absurd h hclose
          intro h
          apply hend.resolve_left
          rw [h]
          decide
      · left
        rw [not_or, Bool.not_eq_false, not_le] at hend
        have hnext : SubState.next (.name varname) c = .name (varname ++ [c]) := by
          rw [SubState.next, if_neg]
          simp [hclose, hend]
        rw [hnext]
        refine ⟨⟨?_, ?_⟩, rfl, fun _ => ne_of_isVarChar hend.1 (by decide), fun env r => ?_⟩
        · rw [List.length_append]
          exact hend.2
        · intro d hd
          obtain hd | hd := List.mem_append.mp hd
          · exact hvar d hd
          · rw [List.mem_singleton.mp hd]
            exact hend.1
        · rw [envsub, if_neg hclose, if_neg]
          simp [hend]

/-- What was read is written at the end of the input. -/
theorem envsub_nil (hs : s.Ok) :
  envsub env s [] = s.pending
  := by
  cases s with
  | text => rfl
  | dollar => rfl
  | name varname =>
    have hall := fputs_append (t := []) hs.2
    rw [List.append_nil] at hall
    rw [envsub, hall]
    exact congrArg _ (List.append_nil _)

theorem substituted_pending_nil (hs : s.Ok) :
  substituted env 0 s.pending = s.pending
  := by
  have h := @substituted_pending env s [] hs
  rw [List.append_nil] at h
  rw [h, substituted, List.append_nil]
  intro hne
  cases s with
  | text => exact absurd rfl hne
  | dollar => rfl
  | name varname =>
    have hname := @reference_name [] varname hs.2 (by simp)
    rwa [List.append_nil] at hname

/-! ### What is given back -/

theorem noReference_cons :
  NoReference s (c :: r)
    ↔ (s ≠ .text → reference (c :: r) = none) ∧ NoReference (s.next c) r
  := by
  constructor
  · intro h
    use h [] (c :: r) rfl
    intro a b hab
    apply h (c :: a) b
    rw [hab]
    rfl
  · rintro ⟨hhead, htail⟩ a b hab
    cases a with
    | nil =>
      rw [List.nil_append] at hab
      rw [← hab]
      exact hhead
    | cons d a =>
      rw [List.cons_append, List.cons.injEq] at hab
      obtain ⟨rfl, hab⟩ := hab
      exact htail a b hab

theorem noZero_cons :
  NoZero s (c :: r) ↔ ((∃ varname, s = .name varname) → c ≠ 0) ∧ NoZero (s.next c) r
  := by
  constructor
  · intro h
    constructor
    · rintro hname rfl
      exact h [] (0 :: r) rfl hname rfl
    · intro a b hab
      apply h (c :: a) b
      rw [hab]
      rfl
  · rintro ⟨hhead, htail⟩ a b hab
    cases a with
    | nil =>
      rw [List.nil_append] at hab
      rw [← hab]
      intro hname hzero
      exact hhead hname (Option.some.inj hzero)
    | cons d a =>
      rw [List.cons_append, List.cons.injEq] at hab
      obtain ⟨rfl, hab⟩ := hab
      exact htail a b hab

/-- What is written is what was read, unless a zero is lost. -/
theorem written_eq (hs : s.Ok) (h : (∃ varname, s = .name varname) → c ≠ 0) :
  s.written c = s.pending ++ [c]
  := by
  cases s with
  | text => rfl
  | dollar => rfl
  | name varname =>
    have hc : fputs [c] = [c] := List.takeWhile_eq_self_iff.mpr (by simpa using h ⟨varname, rfl⟩)
    rw [SubState.written, fputs_append hs.2, hc]
    rfl

theorem next_close :
  SubState.next (.name varname) 125 = .text
  := rfl

/-- The value of a variable is written in place of its reference. -/
theorem envsub_close (h : varname ≠ []) :
  envsub env (.name varname) (125 :: r) = env.value varname ++ envsub env .text r
  := by
  rw [envsub, if_pos rfl, if_neg h]

theorem substituted_close (hs : SubState.Ok (.name varname)) (h : varname ≠ []) :
  substituted env 0 (SubState.pending (.name varname) ++ 125 :: r)
    = env.value varname ++ substituted env 0 r
  := substituted_reference (reference_eq_some.mpr ⟨r, rfl, h, hs.1, hs.2⟩)

theorem noReference_text (h : s = .text → c ≠ 36) (href : s ≠ .text → reference (c :: r) = none) :
  reference (c :: r) = none
  := by
  by_cases hs : s = .text
  · exact reference_of_ne (h hs)
  · exact href hs

/-- Where all is given back, the text is substituted. -/
theorem envsub_eq (hs : s.Ok) (href : NoReference s r) (hzero : NoZero s r) :
  envsub env s r = substituted env 0 (s.pending ++ r)
  := by
  induction r generalizing s with
  | nil => rw [envsub_nil hs, List.append_nil, substituted_pending_nil hs]
  | cons c r ih =>
    rw [noReference_cons] at href
    rw [noZero_cons] at hzero
    obtain ⟨hok, hpending, -, hstep⟩ | ⟨varname, rfl, hne, rfl⟩ | ⟨htext, hdollar, hstep, hnone⟩ :=
      s.next_cases hs c
    · rw [hstep, ih hok href.2 hzero.2, hpending, List.append_assoc]
      rfl
    · rw [envsub_close hne, substituted_close hs hne, @ih .text trivial href.2 hzero.2]
      rfl
    · rw [htext] at href hzero
      rw [hstep, written_eq hs hzero.1, substituted_pending hs (hnone r),
        substituted_of_none (noReference_text hdollar href.1), @ih .text trivial href.2 hzero.2,
        List.append_assoc]
      rfl

/-! ### What is lost -/

theorem count_zero_name (h : ∀ c ∈ varname, isVarChar c = true) :
  varname.count 0 = 0
  := by
  rw [List.count_eq_zero]
  intro hmem
  exact absurd (h 0 hmem) (by decide)

theorem count_zero_pending (hs : s.Ok) :
  s.pending.count 0 = 0
  := by
  cases s with
  | text => rfl
  | dollar => rfl
  | name varname =>
    rw [SubState.pending, List.count_cons_of_ne (by decide), List.count_cons_of_ne (by decide)]
    exact count_zero_name hs.2

theorem count_zero_value :
  (env.value name).count 0 = 0
  := by
  rw [Environment.value]
  split
  · next ev _ => exact List.count_eq_zero.mpr ev.nonzero
  · rfl

/-- No zero is lost or made when references are replaced. -/
theorem count_zero_substituted (text : List UInt8) :
  (substituted env 0 text).count 0 = text.count 0
  := by
  obtain ⟨n, hn⟩ : ∃ n, n = text.length := ⟨_, rfl⟩
  induction n using Nat.strongRecOn generalizing text with
  | ind n ih =>
    cases text with
    | nil => rfl
    | cons c r =>
      cases href : reference (c :: r) with
      | none =>
        rw [substituted_of_none href, List.count_cons, List.count_cons,
          ih r.length (by rw [hn, List.length_cons]; omega) r rfl]
      | some name =>
        obtain ⟨t, ht, -, -, hvar⟩ := reference_eq_some.mp href
        rw [ht] at href
        have hlt : t.length < n := by
          rw [hn, ht]
          simp only [List.length_cons, List.length_append]
          omega
        rw [ht, substituted_reference href, List.count_append, ih t.length hlt t rfl,
          count_zero_value]
        rw [List.count_cons_of_ne (by decide), List.count_cons_of_ne (by decide), List.count_append,
          count_zero_name hvar, List.count_cons_of_ne (by decide)]

/-- A zero that ends a reference which is none is lost. -/
theorem count_zero_envsub (hs : s.Ok) :
  (envsub env s r).count 0 ≤ r.count 0
    ∧ (NoZero s r ∨ (envsub env s r).count 0 < r.count 0)
  := by
  induction r generalizing s with
  | nil =>
    rw [envsub_nil hs, count_zero_pending hs]
    use le_rfl
    left
    intro a b hab
    obtain ⟨-, rfl⟩ := List.append_eq_nil_iff.mp hab.symm
    intro _ h
    cases h
  | cons c r ih =>
    rw [noZero_cons]
    obtain ⟨hok, hpending, -, hstep⟩ | ⟨varname, rfl, hne, rfl⟩ | ⟨htext, -, hstep, -⟩ :=
      s.next_cases hs c
    · have hc : (∃ varname, s = .name varname) → c ≠ 0 := by
        rintro ⟨varname, rfl⟩ rfl
        have hzero := count_zero_pending hok
        rw [hpending, List.count_append, List.count_singleton_self] at hzero
        omega
      obtain ⟨hle, hcases⟩ := ih hok
      rw [hstep, List.count_cons]
      use by omega
      exact hcases.imp (fun h => ⟨hc, h⟩) (fun h => by omega)
    · obtain ⟨hle, hcases⟩ := @ih .text trivial
      rw [envsub_close hne, List.count_append, count_zero_value, Nat.zero_add,
        List.count_cons_of_ne (by decide)]
      use hle
      exact hcases.imp (fun h => ⟨fun _ => by decide, h⟩) id
    · obtain ⟨hle, hcases⟩ := @ih .text trivial
      rw [hstep, htext, List.count_append]
      by_cases hc : (∃ varname, s = .name varname) → c ≠ 0
      · rw [written_eq hs hc, List.count_append, count_zero_pending hs, Nat.zero_add,
          List.count_singleton, List.count_cons]
        use by omega
        exact hcases.imp (fun h => ⟨hc, h⟩) (fun h => by omega)
      · rw [Classical.not_imp, not_not] at hc
        obtain ⟨⟨varname, rfl⟩, rfl⟩ := hc
        have hlost : (SubState.written (.name varname) 0).count 0 = 0 := by
          rw [SubState.written, fputs_append hs.2]
          simp [fputs, count_zero_name hs.2]
        rw [hlost, List.count_cons_self]
        exact ⟨by omega, Or.inr (by omega)⟩

/-- A reference that is not seen makes the output longer, when no variable exists. -/
theorem length_envsub (hs : s.Ok) (hzero : NoZero s r) :
  (substituted (fun _ => none) 0 (s.pending ++ r)).length ≤ (envsub (fun _ => none) s r).length
    ∧ (NoReference s r
      ∨ (substituted (fun _ => none) 0 (s.pending ++ r)).length
        < (envsub (fun _ => none) s r).length)
  := by
  induction r generalizing s with
  | nil =>
    rw [envsub_nil hs, List.append_nil, substituted_pending_nil hs]
    use le_rfl
    left
    intro a b hab _
    obtain ⟨-, rfl⟩ := List.append_eq_nil_iff.mp hab.symm
    rfl
  | cons c r ih =>
    rw [noZero_cons] at hzero
    rw [noReference_cons]
    obtain ⟨hok, hpending, hgrow, hstep⟩ | ⟨varname, rfl, hne, rfl⟩ | ⟨htext, hdollar, hstep, hnone⟩ :=
      s.next_cases hs c
    · obtain ⟨hle, hcases⟩ := ih hok hzero.2
      rw [hpending, List.append_assoc, List.singleton_append] at hle hcases
      rw [hstep]
      use hle
      exact hcases.imp (fun h => ⟨fun hne => reference_of_ne (hgrow hne), h⟩) id
    · rw [next_close] at hzero ⊢
      obtain ⟨hle, hcases⟩ := @ih .text trivial hzero.2
      rw [SubState.pending, List.nil_append] at hle hcases
      rw [envsub_close hne, substituted_close hs hne, List.length_append, List.length_append]
      use by omega
      exact hcases.imp (fun h => ⟨fun _ => reference_of_ne (by decide), h⟩) (fun h => by omega)
    · rw [htext] at hzero ⊢
      obtain ⟨hle, hcases⟩ := @ih .text trivial hzero.2
      rw [hstep, written_eq hs hzero.1, substituted_pending hs (hnone r)]
      simp only [List.length_append, List.length_singleton, SubState.pending, List.nil_append]
        at hle hcases ⊢
      cases href : reference (c :: r) with
      | none =>
        rw [substituted_of_none href, List.length_cons]
        use by omega
        exact hcases.imp (fun h => ⟨fun _ => rfl, h⟩) (fun h => by omega)
      | some name =>
        obtain ⟨t, ht, -, -, hvar⟩ := reference_eq_some.mp href
        rw [ht] at href
        have hr : r = 123 :: (name ++ 125 :: t) := (List.cons.inj ht).2
        have hcopy : ∀ c ∈ 123 :: (name ++ [125]), c ≠ 36 := by
          intro c hc
          simp only [List.mem_cons, List.mem_append, List.not_mem_nil, or_false] at hc
          obtain rfl | hc | rfl := hc
          · decide
          · exact ne_of_isVarChar (hvar c hc) (by decide)
          · decide
        have hrest : substituted (fun _ => none) 0 r
            = 123 :: (name ++ [125]) ++ substituted (fun _ => none) 0 t := by
          rw [hr, ← substituted_append hcopy]
          simp
        rw [hrest, List.length_append] at hle
        rw [ht, substituted_reference href]
        have hempty : Environment.value (fun _ => none) name = [] := rfl
        rw [hempty, List.nil_append]
        rw [List.length_cons, List.length_append] at hle
        exact ⟨by omega, Or.inr (by omega)⟩

end Substitution

/-- The text is substituted in every environment exactly when all that was read after a `$` is given
back. -/
theorem envsubOk_iff (text : List UInt8) :
  EnvsubOk text ↔ GivenBack text
  := by
  constructor
  · intro h
    have hzero : NoZero .text text := by
      have hcount := congrArg (List.count 0) (h fun _ => none)
      rw [count_zero_substituted] at hcount
      obtain ⟨-, hcases⟩ := @count_zero_envsub (fun _ => none) .text text trivial
      apply hcases.resolve_right
      omega
    have href : NoReference .text text := by
      have hlength := congrArg List.length (h fun _ => none)
      obtain ⟨-, hcases⟩ := @length_envsub .text text trivial hzero
      rw [SubState.pending, List.nil_append] at hcases
      apply hcases.resolve_right
      omega
    exact ⟨href, hzero⟩
  · intro h env
    exact @envsub_eq env .text text trivial h.reference h.zero

/-- A reference right after a `$` is not replaced. -/
theorem not_envsubOk_dollar :
  ¬ EnvsubOk (ascii "$${A}")
  := by
  intro h
  have hnone := h fun _ => none
  revert hnone
  decide

end V1

end Vely
