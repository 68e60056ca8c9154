import Mathlib.Data.Nat.Find
import Vely.V1.Keyword

/-!
# Looking for a keyword

`findLoop` finds the first place where the keyword is seen: it is there, with blanks around it where
they are asked for, and all strings and parentheses before it are closed as the quotes and
parentheses are counted. What is seen in a part of a text does not depend on the parts around it,
when each is closed.
-/

namespace Vely

namespace V1

/-- `r` is the first place from `beg` on where `P` holds, none if there is none. -/
def FirstFrom (P : Nat → Prop) (beg : Nat) : Option Nat → Prop
  | some p => beg ≤ p ∧ P p ∧ ∀ q, beg ≤ q → q < p → ¬ P q
  | none => ∀ q, beg ≤ q → ¬ P q

section First

variable {P : Nat → Prop} {beg p : Nat} {r r' : Option Nat}

/-- Places where `P` does not hold may be passed. -/
theorem FirstFrom.pass {f : Nat} (h : FirstFrom P (f + 1) r)
    (hno : ∀ q, beg ≤ q → q ≤ f → ¬ P q) (hle : beg ≤ f) :
  FirstFrom P beg r
  := by
  cases r with
  | none =>
    intro q hq
    by_cases hf : q ≤ f
    · exact hno q hq hf
    · exact h q (by omega)
  | some p =>
    obtain ⟨hbeg, hp, hfirst⟩ := h
    use by omega, hp
    intro q hq hlt
    by_cases hf : q ≤ f
    · exact hno q hq hf
    · exact hfirst q (by omega) hlt

/-- There is a first place, or none. -/
theorem FirstFrom.exists (P : Nat → Prop) :
  ∃ r, FirstFrom P 0 r
  := by
  classical
  by_cases h : ∃ p, P p
  · use some (Nat.find h), Nat.zero_le _, Nat.find_spec h
    intro q _ hlt
    exact Nat.find_min h hlt
  · use none
    intro q _ hq
    exact h ⟨q, hq⟩

theorem FirstFrom.congr {Q : Nat → Prop} (h : ∀ q, P q ↔ Q q) :
  FirstFrom P beg r ↔ FirstFrom Q beg r
  := by
  rw [funext fun q => propext (h q)]

/-- There is one first place. -/
theorem FirstFrom.unique (h : FirstFrom P beg r) (h' : FirstFrom P beg r') :
  r = r'
  := by
  cases r with
  | none =>
    cases r' with
    | none => rfl
    | some p => exact absurd h'.2.1 (h p h'.1)
  | some p =>
    cases r' with
    | none => exact absurd h.2.1 (h' p h.1)
    | some p' =>
      congr 1
      apply le_antisymm
      · by_contra hlt
        exact h.2.2 p' h'.1 (not_le.mp hlt) h'.2.1
      · by_contra hlt
        exact h'.2.2 p h.1 (not_le.mp hlt) h.2.1

end First

/-! ## What is counted -/

section Counting

variable {paren : Bool} {n m : Count} {b b' : Option UInt8} {s t : List UInt8}

/-- Two counts that agree in whether a string is open, and in how many parentheses are. -/
def Count.Same (n m : Count) : Prop :=
  n.quotes % 2 = m.quotes % 2 ∧ n.left + m.right = m.left + n.right

theorem Count.outside_iff :
  n.outside = true ↔ n.Same Count.zero
  := by
  simp only [Count.outside, Count.within, Count.Same, Count.zero, Bool.and_eq_true, Bool.not_eq_true',
    decide_eq_false_iff_not, decide_eq_true_eq]
  omega

theorem Count.Same.outside (h : n.Same m) :
  n.outside = m.outside
  := by
  obtain ⟨hq, hp⟩ := h
  rw [Bool.eq_iff_iff, Count.outside_iff, Count.outside_iff]
  simp only [Count.Same, Count.zero]
  omega

theorem Count.Same.within (h : n.Same m) :
  n.within = m.within
  := by
  unfold Count.within
  rw [h.1]

theorem Count.Same.next (h : n.Same m) (c : UInt8) :
  (n.next paren b c).Same (m.next paren b c)
  := by
  have hpar : ∀ {n m : Count}, n.Same m →
      Count.Same
        (if paren && !n.within then
          if c = 40 then { n with left := n.left + 1 }
          else if c = 41 then { n with right := n.right + 1 }
          else n
        else n)
        (if paren && !m.within then
          if c = 40 then { m with left := m.left + 1 }
          else if c = 41 then { m with right := m.right + 1 }
          else m
        else m) := by
    intro n m h
    rw [h.within]
    have hpars := h.2
    split
    · split
      · exact ⟨h.1, by simp only; omega⟩
      · split
        · exact ⟨h.1, by simp only; omega⟩
        · exact h
    · exact h
  unfold Count.next
  apply hpar
  have hquotes := h.1
  split
  · exact ⟨by simp only; omega, h.2⟩
  · exact h

theorem Count.Same.all (h : n.Same m) :
  (n.all paren b s).Same (m.all paren b s)
  := by
  induction s generalizing n m b with
  | nil => exact h
  | cons c s ih => exact ih (h.next c)

/-- A byte before the text matters only if it is a backslash. -/
theorem Count.all_before (h : b = some 92 ↔ b' = some 92) :
  n.all paren b s = n.all paren b' s
  := by
  have hb : (b != some 92) = (b' != some 92) := by
    rw [Bool.eq_iff_iff, bne_iff_ne, bne_iff_ne, not_iff_not]
    exact h
  cases s with
  | nil => rfl
  | cons c s =>
    unfold Count.all Count.next
    rw [hb]

theorem Count.all_append :
  n.all paren b (s ++ t) = (n.all paren b s).all paren (s.getLast?.or b) t
  := by
  induction s generalizing n b with
  | nil => rfl
  | cons c s ih =>
    rw [List.cons_append, Count.all, ih, Count.all, List.getLast?_cons]
    cases s.getLast? with
    | none => rfl
    | some d => rfl

/-- A byte that is not a quote, a parenthesis, an apostrophe or a backslash. -/
def plain (c : UInt8) : Bool := c ≠ 34 && c ≠ 39 && c ≠ 40 && c ≠ 41 && c ≠ 92

theorem Count.next_plain {c : UInt8} (h : plain c = true) :
  n.next paren b c = n
  := by
  simp only [plain, Bool.and_eq_true, decide_eq_true_eq] at h
  simp [Count.next, h.1.1.1.1, h.1.1.2, h.1.2]

theorem Count.all_plain (h : ∀ c ∈ s, plain c = true) :
  n.all paren b s = n
  := by
  induction s generalizing b with
  | nil => rfl
  | cons c s ih =>
    rw [Count.all, Count.next_plain (h c List.mem_cons_self)]
    apply ih
    intro d hd
    exact h d (List.mem_cons_of_mem _ hd)

/-- A text after plain bytes is counted as from its beginning. -/
theorem Count.all_plain_append (h : ∀ c ∈ s, plain c = true) :
  n.all paren none (s ++ t) = n.all paren none t
  := by
  rw [Count.all_append, Count.all_plain h]
  apply Count.all_before
  simp only [Option.or_none, reduceCtorEq, iff_false]
  intro hlast
  have hmem := List.mem_of_getLast? hlast
  exact absurd (h 92 hmem) (by decide)

/-- A text is closed: its strings are, and its parentheses are balanced. -/
def Closed (s : List UInt8) : Prop := (count true s).outside = true

instance : Decidable (Closed s) := inferInstanceAs (Decidable (_ = true))

theorem closed_nil :
  Closed []
  := rfl

/-- A text starts with a blank, if with anything. -/
def Blank (s : List UInt8) : Prop := ∀ c ∈ s.head?, c = 32

instance : Decidable (Blank s) := inferInstanceAs (Decidable (∀ c ∈ s.head?, c = 32))

theorem blank_nil :
  Blank []
  := by simp [Blank]

theorem blank_cons :
  Blank (32 :: s)
  := by simp [Blank]

theorem Blank.take (h : Blank s) (q : Nat) :
  Blank (s.take q)
  := by
  cases q with
  | zero => simp [Blank]
  | succ q =>
    cases s with
    | nil => simp [Blank]
    | cons c s => exact h

/-- After a closed part, a text is counted as from its beginning. -/
theorem closed_append (hs : Closed s) (ht : Blank t) :
  Closed (s ++ t) ↔ Closed t
  := by
  unfold Closed
  rw [← Bool.eq_iff_iff, count, Count.all_append]
  have hbefore : (count true s).all true (s.getLast?.or none) t = (count true s).all true none t := by
    cases t with
    | nil => rfl
    | cons c t =>
      obtain rfl : c = 32 := ht c rfl
      rw [Count.all, Count.all, Count.next_plain (by decide), Count.next_plain (by decide)]
  rw [show Count.zero.all true none s = count true s from rfl, hbefore]
  apply Count.Same.outside
  exact (Count.outside_iff.mp hs).all

theorem closed_append_blank :
  Closed (s ++ [32]) ↔ Closed s
  := by
  unfold Closed count
  rw [Count.all_append, Count.all_plain (s := [32]) (by decide +kernel)]

/-- Plain bytes before a text do not matter. -/
theorem closed_plain_append (hs : ∀ c ∈ s, plain c = true) :
  Closed (s ++ t) ↔ Closed t
  := by
  unfold Closed count
  rw [Count.all_plain_append hs]

end Counting

/-! ## What is found -/

section Finding

variable {find str s t : List UInt8} {hasSpaces : Bool} {p q i : Nat}

theorem strstr_cons (c : UInt8) :
  strstr (c :: s) find = if find <+: c :: s then some 0 else (strstr s find).map (· + 1)
  := by
  unfold strstr
  rw [Substr.search]
  split
  · rfl
  · rw [Option.map_map, Option.map_map]
    rfl

/-- `strstr` finds the first occurrence. -/
theorem strstr_first (hfind : find ≠ []) :
  FirstFrom (fun i => find <+: s.drop i) 0 (strstr s find)
  := by
  induction s with
  | nil =>
    intro q _ h
    rw [List.drop_nil] at h
    exact hfind (List.prefix_nil.mp h)
  | cons c s ih =>
    rw [strstr_cons]
    split
    · next h =>
      use le_rfl, h
      intro q _ hq
      omega
    · next h =>
      cases hr : strstr s find with
      | none =>
        rw [hr] at ih
        intro q _
        cases q with
        | zero => exact h
        | succ q => exact ih q (Nat.zero_le q)
      | some i =>
        rw [hr] at ih
        use Nat.zero_le _, ih.2.1
        intro q _ hq
        cases q with
        | zero => exact h
        | succ q => exact ih.2.2 q (Nat.zero_le q) (Nat.lt_of_succ_lt_succ hq)

/-- The keyword `find` is seen at `p`. -/
structure Seen (str find : List UInt8) (hasSpaces : Bool) (p : Nat) : Prop where
  starts : find <+: str.drop p
  before : hasSpaces = true → p ≠ 0 → charAt str (p - 1) = 0 ∨ charAt str (p - 1) = 32
  after : hasSpaces = true → charAt str (p + find.length - 1) = 32 ∨ charAt str (p + find.length) = 0
    ∨ charAt str (p + find.length) = 32
  closed : Closed (str.take p)

/-- The keyword `find` is seen at `p`, where parentheses are counted or not. -/
structure SeenIn (paren : Bool) (str find : List UInt8) (hasSpaces : Bool) (p : Nat) : Prop where
  starts : find <+: str.drop p
  before : hasSpaces = true → p ≠ 0 → charAt str (p - 1) = 0 ∨ charAt str (p - 1) = 32
  after : hasSpaces = true → charAt str (p + find.length - 1) = 32
    ∨ charAt str (p + find.length) = 0 ∨ charAt str (p + find.length) = 32
  outside : (count paren (str.take p)).outside = true

theorem seen_iff_seenIn :
  SeenIn true str find hasSpaces p ↔ Seen str find hasSpaces p
  := by
  constructor
  · rintro ⟨h₁, h₂, h₃, h₄⟩
    exact ⟨h₁, h₂, h₃, h₄⟩
  · rintro ⟨h₁, h₂, h₃, h₄⟩
    exact ⟨h₁, h₂, h₃, h₄⟩

/-- A keyword that is not found twice in a row. -/
def Apart (find : List UInt8) : Prop := ∀ s, find <+: s → ¬ find <+: s.drop 1

theorem Apart.of_ne {a b : UInt8} {r : List UInt8} (h : a ≠ b) :
  Apart (a :: b :: r)
  := by
  rintro s ⟨u, rfl⟩ ⟨v, hv⟩
  simp only [List.cons_append, List.drop_succ_cons, List.drop_zero, List.cons.injEq] at hv
  exact h hv.1

/-- The loop finds the first place where the keyword is seen. -/
theorem findLoop_seenIn {paren : Bool} {fuel beg : Nat} (hfind : find ≠ [])
    (hapart : hasSpaces = true → Apart find)
    (hbeg : hasSpaces = true → beg ≠ 0 → ¬ find <+: str.drop beg)
    (hfuel : str.length < fuel + beg) :
  FirstFrom (SeenIn paren str find hasSpaces) beg (findLoop str find hasSpaces paren fuel beg)
  := by
  induction fuel generalizing beg with
  | zero =>
    intro q hq hseen
    have hstarts := hseen.starts
    rw [List.drop_of_length_le (by omega)] at hstarts
    exact hfind (List.prefix_nil.mp hstarts)
  | succ fuel ih =>
    have hfirst := strstr_first (s := str.drop beg) hfind
    unfold findLoop
    cases hr : strstr (str.drop beg) find with
    | none =>
      rw [hr] at hfirst
      intro q hq hseen
      apply hfirst (q - beg) (Nat.zero_le _)
      rw [List.drop_drop, Nat.add_sub_cancel' hq]
      exact hseen.starts
    | some i =>
      rw [hr] at hfirst
      obtain ⟨-, hi, hleast⟩ := hfirst
      rw [List.drop_drop] at hi
      have hbefore : ∀ q, beg ≤ q → q < beg + i → ¬ SeenIn paren str find hasSpaces q := by
        intro q hq hlt hseen
        apply hleast (q - beg) (Nat.zero_le _) (by omega)
        rw [List.drop_drop, Nat.add_sub_cancel' hq]
        exact hseen.starts
      have hnext : ¬ SeenIn paren str find hasSpaces (beg + i) →
          FirstFrom (SeenIn paren str find hasSpaces) beg
            (findLoop str find hasSpaces paren fuel (beg + i + 1)) := by
        intro hno
        apply FirstFrom.pass (f := beg + i)
        · apply ih
          · intro hs _ hstarts
            apply hapart hs _ hi
            rwa [List.drop_drop]
          · omega
        · intro q hq hle
          by_cases heq : q = beg + i
          · rw [heq]
            exact hno
          · exact hbefore q hq (by omega)
        · omega
      simp only
      split
      · next hprev =>
        obtain ⟨hne, hs, hzero, hblank⟩ := hprev
        apply hnext
        intro hseen
        obtain h | h := hseen.before hs (by omega)
        · exact hzero h
        · exact hblank h
      · next hprev =>
        split
        · next hafter =>
          obtain ⟨hs, hlast, hzero, hblank⟩ := hafter
          apply hnext
          intro hseen
          obtain h | h | h := hseen.after hs
          · exact hlast h
          · exact hzero h
          · exact hblank h
        · next hafter =>
          split
          · next hout =>
            use Nat.le_add_right beg i
            constructor
            · refine ⟨hi, ?_, ?_, hout⟩
              · intro hs hp
                have hne : beg + i ≠ beg := by
                  intro heq
                  rw [heq] at hi hp
                  exact hbeg hs hp hi
                by_contra hno
                rw [not_or] at hno
                exact hprev ⟨hne, hs, hno.1, hno.2⟩
              · intro hs
                by_contra hno
                rw [not_or, not_or] at hno
                exact hafter ⟨hs, hno.1, hno.2.1, hno.2.2⟩
            · exact hbefore
          · next hout =>
            apply hnext
            intro hseen
            exact hout hseen.outside

theorem findLoop_first (hfind : find ≠ []) (hapart : hasSpaces = true → Apart find) {fuel beg : Nat}
    (hbeg : hasSpaces = true → beg ≠ 0 → ¬ find <+: str.drop beg) (hfuel : str.length < fuel + beg) :
  FirstFrom (Seen str find hasSpaces) beg (findLoop str find hasSpaces true fuel beg)
  := (FirstFrom.congr fun _ => seen_iff_seenIn).mp (findLoop_seenIn hfind hapart hbeg hfuel)

/-- `find_keyword` finds the first place where the keyword is seen. -/
theorem findKeyword_iff (hfind : find ≠ []) (hapart : hasSpaces = true → Apart find) {r : Option Nat} :
  findKeyword str find hasSpaces = .ok r ↔ FirstFrom (Seen str find hasSpaces) 0 r
  := by
  have hfirst : FirstFrom (Seen str find hasSpaces) 0
      (findLoop str find hasSpaces true (str.length + 1) 0) :=
    findLoop_first hfind hapart (fun _ h => absurd rfl h) (by omega)
  unfold findKeyword velyFindKeyword0
  rw [if_neg hfind]
  constructor
  · intro h
    rw [← Except.ok.inj h]
    exact hfirst
  · intro h
    rw [hfirst.unique h]

/-- A keyword is looked for without errors. -/
theorem findKeyword_ok (hfind : find ≠ []) :
  ∃ r, findKeyword str find hasSpaces = .ok r
  := by
  unfold findKeyword velyFindKeyword0
  rw [if_neg hfind]
  exact ⟨_, rfl⟩

/-- A text whose end is looked for is closed. -/
theorem findKeyword_nil {r : Option Nat} :
  findKeyword str [] hasSpaces = .ok r ↔ Closed str ∧ r = some str.length
  := by
  unfold findKeyword velyFindKeyword0 Closed Count.outside
  rw [if_pos rfl]
  simp only
  split
  · next h => simp [h]
  · next h =>
    split
    · next h' => simp [h']
    · next h' =>
      rw [not_ne_iff] at h'
      simp [h, h', eq_comm]

end Finding

/-! ## Parts of a text -/

section Parts

variable {find s t : List UInt8} {hasSpaces : Bool} {q : Nat}

theorem charAt_append_add (s t : List UInt8) (i : Nat) :
  charAt (s ++ t) (s.length + i) = charAt t i
  := by
  unfold charAt
  rw [List.getElem?_append_right (Nat.le_add_right _ _), Nat.add_sub_cancel_left]

theorem charAt_append_lt {i : Nat} (h : i < s.length) (t : List UInt8) :
  charAt (s ++ t) i = charAt s i
  := by
  unfold charAt
  rw [List.getElem?_append_left h]

theorem charAt_length (s t : List UInt8) :
  charAt (s ++ t) s.length = charAt t 0
  := by
  have h := charAt_append_add s t 0
  rwa [Nat.add_zero] at h

/-- What is seen after a closed part. -/
theorem seen_append_right (hs : Closed s) (ht : Blank t) (hq : q ≠ 0) :
  Seen (s ++ t) find hasSpaces (s.length + q) ↔ Seen t find hasSpaces q
  := by
  have hstarts : (s ++ t).drop (s.length + q) = t.drop q := List.drop_length_add_append q
  have htake : (s ++ t).take (s.length + q) = s ++ t.take q := List.take_length_add_append q
  have hprev : charAt (s ++ t) (s.length + q - 1) = charAt t (q - 1) := by
    rw [Nat.add_sub_assoc (Nat.one_le_iff_ne_zero.mpr hq), charAt_append_add]
  have hlast : charAt (s ++ t) (s.length + q + find.length - 1) = charAt t (q + find.length - 1) := by
    rw [Nat.add_assoc, Nat.add_sub_assoc (by omega), charAt_append_add]
  have hnext : charAt (s ++ t) (s.length + q + find.length) = charAt t (q + find.length) := by
    rw [Nat.add_assoc, charAt_append_add]
  constructor
  · intro h
    obtain ⟨h₁, h₂, h₃, h₄⟩ := h
    rw [hstarts] at h₁
    rw [hprev] at h₂
    rw [hlast, hnext] at h₃
    rw [htake, closed_append hs (ht.take q)] at h₄
    exact ⟨h₁, fun hsp _ => h₂ hsp (by omega), h₃, h₄⟩
  · intro h
    obtain ⟨h₁, h₂, h₃, h₄⟩ := h
    use by rwa [hstarts], fun hsp _ => by rw [hprev]; exact h₂ hsp hq
    · intro hsp
      rw [hlast, hnext]
      exact h₃ hsp
    · rwa [htake, closed_append hs (ht.take q)]

/-- A word that has a blank at its end at most. -/
structure Word (find : List UInt8) : Prop where
  head : ∀ c ∈ find.head?, c ≠ 32
  noBlank : 32 ∉ find.dropLast
  nonempty : find ≠ []

/-- A word does not go over a blank. -/
theorem Word.starts_iff (h : Word find) :
  find <+: s ++ 32 :: t ↔ find <+: s ++ [32]
  := by
  constructor
  · intro hstarts
    apply List.prefix_of_prefix_length_le hstarts
    · use t
      simp
    · by_contra hlong
      have hlt : s.length + 1 < find.length := by simpa using hlong
      have hblank : s ++ [32] <+: s ++ 32 :: t := by
        use t
        simp
      have hpre : s ++ [32] <+: find := by
        apply List.prefix_of_prefix_length_le hblank hstarts
        simpa using hlt.le
      obtain ⟨u, hu⟩ := hpre
      have hne : u ≠ [] := by
        rintro rfl
        rw [← hu] at hlt
        simp at hlt
      apply h.noBlank
      rw [← hu, List.dropLast_append_of_ne_nil hne]
      simp
  · intro hstarts
    apply hstarts.trans
    use t
    simp

/-- No word starts with a blank. -/
theorem Word.not_seen_blank (h : Word find) :
  ¬ Seen (s ++ 32 :: t) find hasSpaces s.length
  := by
  intro hseen
  have hstarts := hseen.starts
  rw [List.drop_left] at hstarts
  obtain ⟨c, r, rfl⟩ := List.exists_cons_of_ne_nil h.nonempty
  obtain ⟨u, hu⟩ := hstarts
  exact h.head c rfl (List.cons.inj hu).1

/-- What is seen in a part that another one follows. -/
theorem Word.seen_append_left (h : Word find) (hq : q ≤ s.length) :
  Seen (s ++ 32 :: t) find hasSpaces q ↔ Seen (s ++ [32]) find hasSpaces q
  := by
  have hdrop : ∀ t, (s ++ 32 :: t).drop q = s.drop q ++ 32 :: t :=
    fun t => List.drop_append_of_le_length hq
  have htake : ∀ t, (s ++ 32 :: t).take q = s.take q :=
    fun t => List.take_append_of_le_length hq
  have hchar : ∀ i, i ≤ s.length → charAt (s ++ 32 :: t) i = charAt (s ++ [32]) i := by
    intro i hi
    obtain hlt | rfl := lt_or_eq_of_le hi
    · rw [charAt_append_lt hlt, charAt_append_lt hlt]
    · rw [charAt_length, charAt_length]
      rfl
  have hiff : find <+: (s ++ 32 :: t).drop q ↔ find <+: (s ++ [32]).drop q := by
    rw [hdrop, hdrop, h.starts_iff]
  have hafter : find <+: (s ++ [32]).drop q →
      ((charAt (s ++ 32 :: t) (q + find.length - 1) = 32 ∨ charAt (s ++ 32 :: t) (q + find.length) = 0
        ∨ charAt (s ++ 32 :: t) (q + find.length) = 32)
      ↔ (charAt (s ++ [32]) (q + find.length - 1) = 32 ∨ charAt (s ++ [32]) (q + find.length) = 0
        ∨ charAt (s ++ [32]) (q + find.length) = 32)) := by
    intro hstarts
    have hlen := hstarts.length_le
    rw [List.length_drop, List.length_append, List.length_singleton] at hlen
    rw [hchar (q + find.length - 1) (by omega)]
    obtain hle | heq : q + find.length ≤ s.length ∨ q + find.length = s.length + 1 := by omega
    · rw [hchar _ hle]
    · have hlast : charAt (s ++ [32]) (q + find.length - 1) = 32 := by
        rw [heq, Nat.add_sub_cancel, charAt_length]
        rfl
      simp [hlast]
  constructor
  · rintro ⟨h₁, h₂, h₃, h₄⟩
    rw [hiff] at h₁
    use h₁
    · intro hsp hne
      rw [← hchar _ (by omega)]
      exact h₂ hsp hne
    · intro hsp
      exact (hafter h₁).mp (h₃ hsp)
    · rwa [htake] at h₄ ⊢
  · rintro ⟨h₁, h₂, h₃, h₄⟩
    use hiff.mpr h₁
    · intro hsp hne
      rw [hchar _ (by omega)]
      exact h₂ hsp hne
    · intro hsp
      exact (hafter h₁).mpr (h₃ hsp)
    · rwa [htake] at h₄ ⊢

/-- What is seen is seen also when a blank follows. -/
theorem Seen.append_blank (h : Seen s find hasSpaces q) (hfind : find ≠ []) :
  Seen (s ++ [32]) find hasSpaces q
  := by
  obtain ⟨h₁, h₂, h₃, h₄⟩ := h
  have hpos := List.length_pos_of_ne_nil hfind
  have hlen := h₁.length_le
  rw [List.length_drop] at hlen
  have hchar : ∀ i, i < s.length → charAt (s ++ [32]) i = charAt s i := fun i hi => charAt_append_lt hi _
  use by
    rw [List.drop_append_of_le_length (by omega)]
    exact h₁.trans (List.prefix_append _ _)
  · intro hsp hne
    rw [hchar _ (by omega)]
    exact h₂ hsp hne
  · intro hsp
    rw [hchar _ (by omega)]
    obtain hlt | heq : q + find.length < s.length ∨ q + find.length = s.length := by omega
    · rw [hchar _ hlt]
      exact h₃ hsp
    · right
      right
      rw [heq, charAt_length]
      rfl
  · rwa [List.take_append_of_le_length (by omega)]

/-- A part where the word is not seen is passed. -/
theorem Word.first_pass (h : Word find) (hs : Closed s)
    (hno : ∀ q, ¬ Seen (s ++ [32]) find hasSpaces q) {r : Option Nat}
    (hr : FirstFrom (Seen (32 :: t) find hasSpaces) 0 r) :
  FirstFrom (Seen (s ++ 32 :: t) find hasSpaces) 0 (r.map (s.length + ·))
  := by
  have hleft : ∀ q, q ≤ s.length → ¬ Seen (s ++ 32 :: t) find hasSpaces q := by
    intro q hq hseen
    exact hno q ((h.seen_append_left hq).mp hseen)
  have hright : ∀ q, s.length < q → (Seen (s ++ 32 :: t) find hasSpaces q
      ↔ Seen (32 :: t) find hasSpaces (q - s.length)) := by
    intro q hq
    rw [← seen_append_right hs blank_cons (by omega), Nat.add_sub_cancel' hq.le]
  cases r with
  | none =>
    intro q _ hseen
    by_cases hq : q ≤ s.length
    · exact hleft q hq hseen
    · rw [hright q (by omega)] at hseen
      exact hr _ (Nat.zero_le _) hseen
  | some p =>
    obtain ⟨-, hp, hfirst⟩ := hr
    have hpos : p ≠ 0 := by
      rintro rfl
      exact h.not_seen_blank (s := []) hp
    use Nat.zero_le _
    constructor
    · rwa [seen_append_right hs blank_cons hpos]
    · intro q _ hlt hseen
      change q < s.length + p at hlt
      by_cases hq : q ≤ s.length
      · exact hleft q hq hseen
      · rw [hright q (by omega)] at hseen
        exact hfirst _ (Nat.zero_le _) (by omega) hseen

end Parts

end V1

end Vely
