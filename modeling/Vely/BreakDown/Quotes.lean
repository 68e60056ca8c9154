import Vely.BreakDown.Trim

/-!
# What the pieces are

What is left of a piece is the trimmed piece without the quotes around it, unless there is a quote
on one side only.  The places where the string is cut are those of the delimiters outside of quotes,
until a piece starts with a quote behind a backslash of the delimiter: from there on one of the two
counts sees every delimiter within quotes that the other sees outside.
-/

namespace Vely

namespace BreakDown

open V1

/-! ### What is left of a piece -/

section

variable {w c s : List UInt8}

theorem rdropWhile_quote_cons :
  (34 :: c).rdropWhile isspace = 34 :: c.rdropWhile isspace
  := by
  have hnospace : isspace 34 = false := by decide
  rw [List.rdropWhile, List.reverse_cons, List.dropWhile_append]
  split
  · next h =>
    rw [List.isEmpty_iff] at h
    rw [List.rdropWhile, h, List.dropWhile_cons_of_neg (by simp [hnospace])]
    rfl
  · rw [List.reverse_append]
    rfl

/-- What is left of a piece is what should be left of it when it has a quote on both sides or on
none. -/
theorem stripped_eq_iff (w : List UInt8) :
  stripped w = unquoted (trimmed w) ↔ Paired (trimmed w)
  := by
  have hhead := List.head?_dropWhile_not isspace w
  rw [stripped, trimmed]
  generalize w.dropWhile isspace = c at hhead ⊢
  cases c with
  | nil => simp [strippedFrom, unquoted, Paired]
  | cons x c =>
    have hx : isspace x = false := by simpa using hhead
    by_cases hquote : x = 34
    · subst hquote
      rw [rdropWhile_quote_cons, strippedFrom]
      simp only [List.head?_cons, if_true, List.tail_cons]
      by_cases hblank : c.rdropWhile isspace = []
      · rw [if_pos hblank, hblank]
        have hne : c ≠ [34] := by
          rintro rfl
          revert hblank
          decide
        simp [unquoted, Paired, hne]
      · rw [if_neg hblank]
        obtain hnil | ⟨t, y, ht⟩ := List.eq_nil_or_concat' (c.rdropWhile isspace)
        · exact absurd hnil hblank
        have hlast : (34 :: (t ++ [y])).getLast? = some y := by
          rw [← List.cons_append, List.getLast?_concat]
        rw [ht, List.getLast?_concat, unquoted, Paired, hlast]
        by_cases hy : y = 34
        · subst hy
          simp
        · have hlong : t ++ [y] ≠ 34 :: (t ++ [y]) := by
            intro h
            have hlength := congrArg List.length h
            simp at hlength
          simp [hy, hlong]
    · have hblank : (x :: c).rdropWhile isspace ≠ [] := by
        rw [ne_eq, List.rdropWhile_eq_nil_iff]
        intro h
        rw [h x List.mem_cons_self] at hx
        cases hx
      have hhead : (x :: c).head? ≠ some 34 := by simpa using hquote
      have hbegins := List.rdropWhile_prefix isspace (x :: c)
      rw [strippedFrom]
      simp only [if_neg hhead, if_neg hblank]
      generalize (x :: c).rdropWhile isspace = t at hblank hbegins ⊢
      obtain ⟨z, t, rfl⟩ := List.exists_cons_of_ne_nil hblank
      obtain rfl := (List.cons_prefix_cons.mp hbegins).1
      have hstart : (z :: t).head? ≠ some 34 := by simpa using hquote
      have hne : z :: t ≠ [34] := by
        intro h
        exact hquote (List.cons.inj h).1
      have hself : unquoted (z :: t) = z :: t := if_neg fun h => hstart h.2.1
      rw [hself, Paired]
      by_cases hlast : (z :: t).getLast? = some 34
      · have hshort : (z :: t).dropLast ≠ z :: t := by
          intro h
          have hlength := congrArg List.length h
          simp at hlength
        simp only [hlast, if_true, hshort, hstart, iff_true, and_false]
      · simp only [hlast, if_false, hstart, hne, ne_eq, not_false_eq_true, and_self]

/-- What the trimming takes away are whitespace and quotes. -/
theorem count_dropWhile (w : List UInt8) :
  (w.dropWhile isspace).count 92 = w.count 92
  := by
  conv_rhs => rw [← List.takeWhile_append_dropWhile (p := isspace) (l := w), List.count_append]
  have hzero : (w.takeWhile isspace).count 92 = 0 := by
    rw [List.count_eq_zero]
    intro hmem
    exact absurd (List.mem_takeWhile_imp hmem) (by decide)
  rw [hzero, Nat.zero_add]

theorem count_rdropWhile (w : List UInt8) :
  (w.rdropWhile isspace).count 92 = w.count 92
  := by
  rw [List.rdropWhile, List.count_reverse, count_dropWhile, List.count_reverse]

theorem count_tail_quote (h : c.head? = some 34) :
  c.tail.count 92 = c.count 92
  := by
  cases c with
  | nil => rfl
  | cons x c =>
    obtain rfl : x = 34 := Option.some.inj h
    simp

theorem count_dropLast_quote (h : c.getLast? = some 34) :
  c.dropLast.count 92 = c.count 92
  := by
  obtain rfl | ⟨t, y, rfl⟩ := List.eq_nil_or_concat' c
  · rfl
  · rw [List.getLast?_concat] at h
    obtain rfl := Option.some.inj h
    rw [List.dropLast_concat, List.count_append]
    rfl

theorem count_stripped (w : List UInt8) :
  (stripped w).count 92 = w.count 92
  := by
  rw [stripped, strippedFrom, ← count_dropWhile w]
  generalize w.dropWhile isspace = c
  have hd : (if c.head? = some 34 then c.tail else c).count 92 = c.count 92 := by
    split
    · next h => exact count_tail_quote h
    · rfl
  generalize (if c.head? = some 34 then c.tail else c) = d at hd
  split
  · exact hd
  · split
    · next h => rw [count_dropLast_quote h, count_rdropWhile, hd]
    · rw [count_rdropWhile, hd]

theorem count_unquoted (s : List UInt8) :
  (unquoted s).count 92 = s.count 92
  := by
  rw [unquoted]
  split
  · next h =>
    obtain ⟨hlen, hhead, hlast⟩ := h
    cases s with
    | nil => rfl
    | cons x s =>
      have hlast' : s.getLast? = some 34 := by
        cases s with
        | nil =>
          rw [List.length_singleton] at hlen
          omega
        | cons y s => rwa [List.getLast?_cons_cons] at hlast
      rw [List.tail_cons, count_dropLast_quote hlast', ← count_tail_quote hhead, List.tail_cons]
  · rfl

theorem count_trimmed (w : List UInt8) :
  (unquoted (trimmed w)).count 92 = w.count 92
  := by
  rw [count_unquoted, trimmed, count_rdropWhile, count_dropWhile]

end

/-! ### Where the string is cut -/

/-- The places where `P` holds, from `beg` on, each at least `dlen` behind the one before. -/
inductive Cuts (P : Nat → Prop) (dlen : Nat) : Nat → List Nat → Prop
  | last {beg : Nat} (h : FirstFrom P beg none) : Cuts P dlen beg []
  | cut {beg f : Nat} {fs : List Nat} (h : FirstFrom P beg (some f))
    (hfs : Cuts P dlen (f + dlen) fs) : Cuts P dlen beg (f :: fs)

section

variable {value delim : List UInt8} {P : Nat → Prop} {dlen beg : Nat} {fs : List Nat}

theorem Cuts.back (h : Cuts P dlen (beg + 1) fs) (hno : ¬ P beg) :
  Cuts P dlen beg fs
  := by
  have hback : ∀ {r}, FirstFrom P (beg + 1) r → FirstFrom P beg r := by
    intro r hr
    apply FirstFrom.pass hr
    · intro q hq hle
      obtain rfl : q = beg := Nat.le_antisymm hle hq
      exact hno
    · exact Nat.le_refl beg
  cases h with
  | last h => exact .last (hback h)
  | cut h hfs => exact .cut (hback h) hfs

/-- The delimiters among some places are where the string is to be cut. -/
theorem delimitersFrom_cuts (hdelim : delim ≠ []) (next k m : Nat) (hk : k + m = value.length) :
  Cuts (fun i => delimitsAt value delim i = true) delim.length (max next k)
    (delimitersFrom value delim next (List.range' k m))
  := by
  induction m generalizing next k with
  | zero =>
    apply Cuts.last
    intro q hq h
    simp only [delimitsAt, Bool.and_eq_true, List.isPrefixOf_iff_prefix] at h
    have hstarts := h.1
    rw [List.drop_of_length_le (by omega), List.prefix_nil] at hstarts
    exact hdelim hstarts
  | succ m ih =>
    rw [List.range'_succ, delimitersFrom]
    split
    · next h =>
      have hmax : max next k = k := Nat.max_eq_right h.1
      rw [hmax]
      apply Cuts.cut
      · exact ⟨Nat.le_refl k, h.2, fun q hq hlt => absurd hq (Nat.not_le.mpr hlt)⟩
      · have hpos := List.length_pos_of_ne_nil hdelim
        have hrest := ih (k + delim.length) (k + 1) (by omega)
        rwa [Nat.max_eq_left (by omega)] at hrest
    · next h =>
      have hrest := ih next (k + 1) (by omega)
      by_cases hle : next ≤ k
      · rw [Nat.max_eq_right (by omega)] at hrest ⊢
        exact hrest.back fun hp => h ⟨hle, hp⟩
      · rw [Nat.max_eq_left (by omega)] at hrest ⊢
        exact hrest

theorem delimiters_cuts (hdelim : delim ≠ []) :
  Cuts (fun i => delimitsAt value delim i = true) delim.length 0 (delimiters value delim)
  := by
  rw [delimiters, List.range_eq_range']
  exact delimitersFrom_cuts hdelim 0 0 value.length (Nat.zero_add _)

end

/-! ### The two counts of quotes -/

section

variable {value delim s : List UInt8} {before : Option UInt8}

/-- The byte before a text matters only if it is a backslash, and the text starts with a quote. -/
theorem quoted_before (h : before = some 92 → s.head? ≠ some 34) :
  quoted before s = quoted none s
  := by
  cases s with
  | nil => rfl
  | cons c s =>
    by_cases hc : c = 34
    · subst hc
      have hne : before ≠ some 92 := fun hb => h hb rfl
      simp [quoted, hne]
    · simp [quoted, hc]

/-- A quote behind a backslash is counted or not. -/
theorem quoted_escaped (h : s.head? = some 34) :
  quoted (some 92) s = !quoted none s
  := by
  cases s with
  | nil => cases h
  | cons c s =>
    obtain rfl := Option.some.inj h
    simp [quoted]

/-- What is seen in the string, from `beg` on, with the quotes before it counted. -/
theorem quoted_take_add {beg q : Nat} (hout : quoted none (value.take beg) = false) :
  quoted none (value.take (beg + q))
    = quoted ((value.take beg).getLast?) ((value.drop beg).take q)
  := by
  rw [List.take_add, quoted_append, hout, Bool.false_xor, Option.or_none]

/-- Where no quote is escaped at the beginning, both counts are the same. -/
theorem sees_iff {beg q : Nat} (hout : quoted none (value.take beg) = false)
    (hsync : (value.take beg).getLast? = some 92 → value[beg]? ≠ some 34) :
  Sees delim (value.drop beg) q ↔ delimitsAt value delim (beg + q) = true
  := by
  have hbefore : quoted ((value.take beg).getLast?) ((value.drop beg).take q)
      = quoted none ((value.drop beg).take q) := by
    apply quoted_before
    intro hlast hhead
    apply hsync hlast
    cases q with
    | zero => cases hhead
    | succ q => rwa [List.head?_take, if_neg (by simp), List.head?_drop] at hhead
  rw [Sees, delimitsAt, quoted_take_add hout, hbefore, List.drop_drop]
  simp

/-- Behind an escaped quote the counts are opposite. -/
theorem quoted_opposite {beg q : Nat} (hout : quoted none (value.take beg) = false)
    (hlast : (value.take beg).getLast? = some 92) (hquote : value[beg]? = some 34) (hq : q ≠ 0) :
  quoted none (value.take (beg + q)) = !quoted none ((value.drop beg).take q)
  := by
  rw [quoted_take_add hout, hlast]
  apply quoted_escaped
  rw [List.head?_take, if_neg hq, List.head?_drop, hquote]

/-- The first places are the same. -/
theorem firstFrom_shift {P Q : Nat → Prop} {beg : Nat} {r : Option Nat}
    (hPQ : ∀ q, Q q ↔ P (beg + q)) (h : FirstFrom Q 0 r) :
  FirstFrom P beg (r.map (beg + ·))
  := by
  cases r with
  | none =>
    intro q hq hp
    apply h (q - beg) (Nat.zero_le _)
    rwa [hPQ, Nat.add_sub_cancel' hq]
  | some i =>
    obtain ⟨-, hi, hleast⟩ := h
    use Nat.le_add_right beg i, (hPQ i).mp hi
    intro q hq hlt hp
    dsimp only at hlt
    apply hleast (q - beg) (Nat.zero_le _) (by omega)
    rwa [hPQ, Nat.add_sub_cancel' hq]

/-- A place of the delimiter that only one of the counts sees is not within the delimiter that the
other sees. -/
theorem prefix_take_of_quoted {i j : Nat} (hquote : 34 ∉ delim) (hi : delim <+: s.drop i)
    (hle : i ≤ j) (hne : quoted none (s.take i) ≠ quoted none (s.take j)) :
  s.take i ++ delim <+: s.take j
  := by
  obtain ⟨t, ht⟩ := hi
  have hs : s = s.take i ++ (delim ++ t) := by
    rw [ht, List.take_append_drop]
  have hj : s.take j = s.take i ++ (delim ++ t).take (j - i) := by
    obtain ⟨k, rfl⟩ := Nat.exists_eq_add_of_le hle
    rw [List.take_add, ht, Nat.add_sub_cancel_left]
  have hlong : delim.length ≤ j - i := by
    by_contra hshort
    apply hne
    rw [hj, List.take_append_of_le_length (by omega), quoted_append, Option.or_none]
    have hno : quoted (s.take i).getLast? (delim.take (j - i)) = false := by
      apply quoted_of_not_mem
      exact fun h => hquote (List.mem_of_mem_take h)
    rw [hno, Bool.xor_false]
  rw [hj, List.take_append, List.take_of_length_le hlong, ← List.append_assoc]
  apply List.prefix_append

end

/-! ### The pieces -/

section

variable {value delim : List UInt8} {beg : Nat} {fs : List Nat} {ws : List (List UInt8)}

/-- What should be left of the pieces between delimiters. -/
def wantedPieces (value delim : List UInt8) (beg : Nat) (fs : List Nat) : List (List UInt8) :=
  (between value delim.length beg fs).map fun w => unquoted (trimmed w)

/-- The first piece from `beg` on. -/
theorem wantedPieces_cons (beg : Nat) (fs : List Nat) :
  ∃ w rest, wantedPieces value delim beg fs = unquoted (trimmed w) :: rest
    ∧ w = (match fs with
      | [] => value.drop beg
      | f :: _ => (value.take f).drop beg)
  := by
  cases fs with
  | nil => exact ⟨_, [], rfl, rfl⟩
  | cons f fs => exact ⟨_, _, rfl, rfl⟩

/-- A piece that goes on behind a delimiter with a backslash is another one. -/
theorem ne_of_count {u w : List UInt8} (hbegins : u ++ delim <+: w)
    (hlast : delim.getLast? = some 92) :
  u.count 92 ≠ w.count 92
  := by
  obtain ⟨t, rfl⟩ := hbegins
  have hmem : 0 < delim.count 92 := List.count_pos_iff.mpr (List.mem_of_getLast? hlast)
  rw [List.count_append, List.count_append]
  omega

/-- A piece starts with a quote behind a backslash of the delimiter, and the first delimiter further
on is at `p`. -/
structure Escaped (value delim : List UInt8) (beg p : Nat) : Prop where
  out : quoted none (value.take beg) = false
  last : delim.getLast? = some 92
  before : (value.take beg).getLast? = some 92
  quote : value[beg]? = some 34
  starts : delim <+: (value.drop beg).drop p
  least : ∀ q, delim <+: (value.drop beg).drop q → p ≤ q
  pos : p ≠ 0

namespace Escaped

variable {p : Nat}

/-- From the first delimiter on the two counts are opposite. -/
theorem opposite (h : Escaped value delim beg p) {q : Nat} (hq : p ≤ q) :
  quoted none (value.take (beg + q)) = !quoted none ((value.drop beg).take q)
  := by
  have hpos := h.pos
  apply quoted_opposite h.out h.before h.quote
  omega

theorem delimits_iff (h : Escaped value delim beg p) {q : Nat} :
  delimitsAt value delim (beg + q) = true ↔
    delim <+: (value.drop beg).drop q ∧ quoted none ((value.drop beg).take q) = true
  := by
  simp only [delimitsAt, Bool.and_eq_true, List.isPrefixOf_iff_prefix, ← List.drop_drop,
    Bool.not_eq_true']
  constructor
  · rintro ⟨hstarts, hout⟩
    rw [h.opposite (h.least q hstarts), Bool.not_eq_false'] at hout
    exact ⟨hstarts, hout⟩
  · rintro ⟨hstarts, hin⟩
    rw [h.opposite (h.least q hstarts), hin]
    exact ⟨hstarts, rfl⟩

/-- A piece that goes on behind the first delimiter. -/
theorem goes_on (h : Escaped value delim beg p) (hquote : 34 ∉ delim) {q : Nat}
    (hq : delim <+: (value.drop beg).drop q)
    (hne : quoted none ((value.drop beg).take p) ≠ quoted none ((value.drop beg).take q)) :
  (value.drop beg).take p ++ delim <+: (value.drop beg).take q
  := prefix_take_of_quoted hquote h.starts (h.least q hq) hne

theorem whole (h : Escaped value delim beg p) :
  (value.drop beg).take p ++ delim <+: value.drop beg
  := by
  conv_rhs => rw [← List.take_append_drop p (value.drop beg)]
  exact (List.prefix_append_right_inj _).mpr h.starts

/-- The program cuts at the first delimiter, which is within quotes when all of them are counted. -/
theorem ne_of_out (h : Escaped value delim beg p) (hquote : 34 ∉ delim)
    (hout : quoted none ((value.drop beg).take p) = false)
    (hcuts : Cuts (fun i => delimitsAt value delim i = true) delim.length beg fs)
    (hpieces : Pieces delim (value.drop beg) ws) :
  ws.map stripped ≠ wantedPieces value delim beg fs
  := by
  obtain ⟨w, rest, hwanted, hw⟩ := @wantedPieces_cons value delim beg fs
  have hlong : (value.drop beg).take p ++ delim <+: w := by
    rw [hw]
    cases hcuts with
    | last hlast => exact h.whole
    | @cut _ f fs hfirst hfs =>
      obtain ⟨hle, hf, -⟩ := hfirst
      obtain ⟨j, rfl⟩ := Nat.exists_eq_add_of_le hle
      obtain ⟨hj, hin⟩ := h.delimits_iff.mp hf
      dsimp only
      rw [List.drop_take, Nat.add_sub_cancel_left]
      apply h.goes_on hquote hj
      rw [hout, hin]
      exact Bool.false_ne_true
  have hsees : FirstFrom (Sees delim (value.drop beg)) 0 (some p) :=
    ⟨Nat.zero_le p, ⟨h.starts, hout⟩, fun q _ hlt hq => absurd (h.least q hq.1) (not_le.mpr hlt)⟩
  cases hpieces with
  | last hlast => exact absurd ⟨h.starts, hout⟩ (hlast p (Nat.zero_le p))
  | cut hfirst hws =>
    obtain rfl := Option.some.inj (hfirst.unique hsees)
    rw [hwanted]
    intro heq
    rw [List.map_cons, List.cons.injEq] at heq
    apply ne_of_count hlong h.last
    rw [← count_stripped, heq.1, count_trimmed]

/-- The program goes on behind the first delimiter, which is outside of quotes when all of them are
counted. -/
theorem ne_of_in (h : Escaped value delim beg p) (hquote : 34 ∉ delim)
    (hin : quoted none ((value.drop beg).take p) = true)
    (hcuts : Cuts (fun i => delimitsAt value delim i = true) delim.length beg fs)
    (hpieces : Pieces delim (value.drop beg) ws) :
  ws.map stripped ≠ wantedPieces value delim beg fs
  := by
  obtain ⟨w, rest, hwanted, hw⟩ := @wantedPieces_cons value delim beg fs
  have hfirst : FirstFrom (fun i => delimitsAt value delim i = true) beg (some (beg + p)) := by
    use Nat.le_add_right beg p, h.delimits_iff.mpr ⟨h.starts, hin⟩
    intro q hq hlt hdelimits
    obtain ⟨j, rfl⟩ := Nat.exists_eq_add_of_le hq
    have hle := h.least j (h.delimits_iff.mp hdelimits).1
    omega
  have hshort : w = (value.drop beg).take p := by
    rw [hw]
    cases hcuts with
    | last hlast => exact absurd hfirst.2.1 (hlast (beg + p) hfirst.1)
    | cut hcut hfs =>
      obtain rfl := Option.some.inj (hcut.unique hfirst)
      dsimp only
      rw [List.drop_take, Nat.add_sub_cancel_left]
  rw [hwanted]
  cases hpieces with
  | last hlast =>
    intro heq
    rw [List.map_cons, List.cons.injEq] at heq
    apply ne_of_count h.whole h.last
    rw [← count_stripped (value.drop beg), heq.1, count_trimmed, hshort]
  | @cut _ i ws hcut hws =>
    obtain ⟨-, ⟨hi, hout⟩, -⟩ := hcut
    have hlong : (value.drop beg).take p ++ delim <+: (value.drop beg).take i := by
      apply h.goes_on hquote hi
      rw [hin, hout]
      exact Bool.false_ne_true.symm
    intro heq
    rw [List.map_cons, List.cons.injEq] at heq
    apply ne_of_count hlong h.last
    rw [← count_stripped ((value.drop beg).take i), heq.1, count_trimmed, hshort]

end Escaped

/-- Where a piece starts with a quote behind a backslash of the delimiter, and there is a delimiter
further on, the pieces are not what they should be. -/
theorem pieces_ne (hquote : 34 ∉ delim) (hdelim : delim ≠ [])
    (hout : quoted none (value.take beg) = false) (hlast : delim.getLast? = some 92)
    (hbefore : (value.take beg).getLast? = some 92) (hstart : value[beg]? = some 34)
    (hfound : delim <:+: value.drop beg)
    (hcuts : Cuts (fun i => delimitsAt value delim i = true) delim.length beg fs)
    (hpieces : Pieces delim (value.drop beg) ws) :
  ws.map stripped ≠ wantedPieces value delim beg fs
  := by
  have hfirst := strstr_first (s := value.drop beg) hdelim
  cases hp : strstr (value.drop beg) delim with
  | none =>
    rw [strstr, Option.map_eq_none_iff, Substr.search_eq_none_iff hdelim] at hp
    exact absurd hfound hp
  | some p =>
    rw [hp] at hfirst
    obtain ⟨-, hp, hleast⟩ := hfirst
    have hpos : p ≠ 0 := by
      rintro rfl
      obtain ⟨d, ds, rfl⟩ := List.exists_cons_of_ne_nil hdelim
      obtain ⟨t, ht⟩ := hp
      have hhead := congrArg List.head? ht
      rw [List.drop_zero, List.head?_drop, hstart, List.cons_append, List.head?_cons] at hhead
      exact hquote (by simp [Option.some.inj hhead])
    have hescaped : Escaped value delim beg p :=
      ⟨hout, hlast, hbefore, hstart, hp,
        fun q hq => not_lt.mp fun hlt => hleast q (Nat.zero_le q) hlt hq, hpos⟩
    cases hin : quoted none ((value.drop beg).take p) with
    | false => exact hescaped.ne_of_out hquote hin hcuts hpieces
    | true => exact hescaped.ne_of_in hquote hin hcuts hpieces

/-- A quote right behind a delimiter that ends with a backslash has no delimiter behind it. -/
def Clear (value delim : List UInt8) (f : Nat) : Prop :=
  delim.getLast? = some 92 → value[f + delim.length]? = some 34 →
    ¬ delim <:+: value.drop (f + delim.length)

/-- Where there is no delimiter any more there is one piece. -/
theorem pieces_iff_of_none (hfound : ¬ delim <:+: value.drop beg)
    (hcuts : Cuts (fun i => delimitsAt value delim i = true) delim.length beg fs)
    (hpieces : Pieces delim (value.drop beg) ws) :
  ws.map stripped = wantedPieces value delim beg fs ↔
    (∀ w ∈ between value delim.length beg fs, Paired (trimmed w)) ∧ ∀ f ∈ fs, Clear value delim f
  := by
  have hnot : ∀ q, ¬ delim <+: (value.drop beg).drop q := fun q h =>
    hfound (h.isInfix.trans (List.drop_suffix q _).isInfix)
  cases hcuts with
  | last h =>
    cases hpieces with
    | last h' => simp [wantedPieces, between, stripped_eq_iff]
    | cut h' hws => exact absurd h'.2.1.1 (hnot _)
  | cut h hfs =>
    obtain ⟨hle, hf, -⟩ := h
    obtain ⟨j, rfl⟩ := Nat.exists_eq_add_of_le hle
    simp only [delimitsAt, Bool.and_eq_true, List.isPrefixOf_iff_prefix] at hf
    rw [← List.drop_drop] at hf
    exact absurd hf.1 (hnot j)

/-- From a place that both counts see outside of quotes, the pieces are what they should be exactly
when those of the string are paired and clear. -/
theorem pieces_iff (hquote : 34 ∉ delim) (hdelim : delim ≠ [])
    (hcuts : Cuts (fun i => delimitsAt value delim i = true) delim.length beg fs)
    (hout : quoted none (value.take beg) = false)
    (hsync : (value.take beg).getLast? = some 92 → value[beg]? ≠ some 34)
    (hpieces : Pieces delim (value.drop beg) ws) :
  ws.map stripped = wantedPieces value delim beg fs ↔
    (∀ w ∈ between value delim.length beg fs, Paired (trimmed w)) ∧ ∀ f ∈ fs, Clear value delim f
  := by
  induction hcuts generalizing ws with
  | @last beg h =>
    cases hpieces with
    | last h' =>
      simp [wantedPieces, between, stripped_eq_iff]
    | @cut _ i ws h' hws =>
      exact absurd ((sees_iff hout hsync).mp h'.2.1) (h (beg + i) (Nat.le_add_right beg i))
  | @cut beg f fs h hfs ih =>
    cases hpieces with
    | last h' =>
      have hnone := firstFrom_shift (P := fun i => delimitsAt value delim i = true)
        (fun q => sees_iff hout hsync) h'
      exact absurd h.2.1 (hnone f h.1)
    | @cut _ i ws h' hws =>
      have hsome := firstFrom_shift (P := fun i => delimitsAt value delim i = true)
        (fun q => sees_iff hout hsync) h'
      obtain rfl := Option.some.inj (hsome.unique h)
      dsimp only at hfs ih h ⊢
      obtain ⟨-, hdelimits, -⟩ := h
      simp only [delimitsAt, Bool.and_eq_true, List.isPrefixOf_iff_prefix,
        Bool.not_eq_true'] at hdelimits
      obtain ⟨hstarts, hfout⟩ := hdelimits
      have htake : value.take (beg + i + delim.length) = value.take (beg + i) ++ delim := by
        rw [List.take_add, ← List.prefix_iff_eq_take.mp hstarts]
      have hout' : quoted none (value.take (beg + i + delim.length)) = false := by
        rw [htake, quoted_append, hfout, quoted_of_not_mem hquote]
        rfl
      have hlast : (value.take (beg + i + delim.length)).getLast? = delim.getLast? := by
        rw [htake, List.getLast?_append, List.getLast?_eq_some_getLast hdelim]
        rfl
      rw [List.drop_drop, ← Nat.add_assoc] at hws
      have hhead : (value.drop beg).take i = (value.take (beg + i)).drop beg := by
        rw [List.drop_take, Nat.add_sub_cancel_left]
      have htail : ws.map stripped = wantedPieces value delim (beg + i + delim.length) fs ↔
          (∀ w ∈ between value delim.length (beg + i + delim.length) fs, Paired (trimmed w))
            ∧ Clear value delim (beg + i) ∧ ∀ f ∈ fs, Clear value delim f := by
        by_cases hesc : delim.getLast? = some 92 ∧ value[beg + i + delim.length]? = some 34
        · by_cases hfound : delim <:+: value.drop (beg + i + delim.length)
          · constructor
            · intro heq
              exact absurd heq (pieces_ne hquote hdelim hout' hesc.1 (by rw [hlast, hesc.1]) hesc.2
                hfound hfs hws)
            · intro hall
              exact absurd hfound (hall.2.1 hesc.1 hesc.2)
          · rw [pieces_iff_of_none hfound hfs hws]
            have hclear : Clear value delim (beg + i) := fun _ _ => hfound
            simp only [hclear, true_and]
        · have hclear : Clear value delim (beg + i) := fun hback hstart =>
            absurd ⟨hback, hstart⟩ hesc
          have hsync' : (value.take (beg + i + delim.length)).getLast? = some 92 →
              value[beg + i + delim.length]? ≠ some 34 := by
            rw [hlast]
            exact fun hback hstart => hesc ⟨hback, hstart⟩
          rw [ih hout' hsync' hws]
          simp only [hclear, true_and]
      rw [List.map_cons, hhead]
      change stripped _ :: _ = unquoted (trimmed _) :: wantedPieces value delim _ fs ↔ _
      rw [List.cons.injEq, stripped_eq_iff, htail, between, List.forall_mem_cons,
        List.forall_mem_cons, and_assoc]

end

/-! ### The whole string -/

theorem length_between (value : List UInt8) (dlen beg : Nat) (fs : List Nat) :
  (between value dlen beg fs).length = fs.length + 1
  := by
  induction fs generalizing beg with
  | nil => rfl
  | cons f fs ih => rw [between, List.length_cons, List.length_cons, ih]

/-- The pieces are one list of texts. -/
theorem Broken.Reads.unique {broken : Broken} {ws ws' : List (List UInt8)} (h : broken.Reads ws)
    (h' : broken.Reads ws') :
  ws = ws'
  := by
  unfold Broken.Reads at h h'
  generalize broken.pieces = ps at h h'
  induction h generalizing ws' with
  | nil =>
    cases h'
    rfl
  | cons hw hws ih =>
    cases h' with
    | cons hw' hws' =>
      obtain ⟨s, hs, rfl⟩ := hw
      obtain ⟨s', hs', rfl⟩ := hw'
      rw [hs] at hs'
      rw [Except.ok.inj hs', ih hws']

/-- A string is broken down as it should be exactly when every trimmed piece has a quote on both
sides or on none, and no piece that starts with a quote behind a backslash of the delimiter has a
delimiter behind it. -/
theorem breakDownOk_iff {value delim : CString} (hdelim : delim.bytes ≠ [])
    (hquote : 34 ∉ delim.bytes) :
  BreakDownOk value delim ↔
    (∀ w ∈ between value.bytes delim.length 0 (delimiters value.bytes delim.bytes),
      Paired (trimmed w)) ∧ LastIfQuoted value.bytes delim.bytes
  := by
  obtain ⟨ws, broken, hws, hrun, hnum, hreads⟩ := @velyBreakDown_reads value delim hdelim
  have hiff := @pieces_iff value.bytes delim.bytes 0 _ ws hquote hdelim (delimiters_cuts hdelim) rfl
    (fun h => by cases h) (by simpa using hws)
  have hlast : LastIfQuoted value.bytes delim.bytes ↔
      ∀ f ∈ delimiters value.bytes delim.bytes, Clear value.bytes delim.bytes f := by
    constructor
    · intro h f hf hback
      exact h hback f hf
    · intro h hback f hf
      exact h f hf hback
  rw [hlast, CString.length, ← hiff]
  constructor
  · rintro ⟨broken', hrun', -, hreads'⟩
    rw [hrun] at hrun'
    obtain rfl := Except.ok.inj (Except.ok.inj hrun')
    exact hreads.unique hreads'
  · intro heq
    refine ⟨broken, hrun, ?_, ?_⟩
    · have hlength := congrArg List.length heq
      rw [wantedPieces, List.length_map, List.length_map, length_between] at hlength
      rw [hnum, hlength]
    · rw [heq] at hreads
      exact hreads

/-- A delimiter within quotes, and quotes around a piece. -/
theorem breakDownOk_quoted :
  BreakDownOk ⟨ascii " a + \"b+c\" ", by decide⟩ ⟨ascii "+", by decide⟩
  := by
  rw [breakDownOk_iff (by decide) (by decide)]
  constructor
  · unfold Paired
    decide +kernel
  · intro hback
    exact absurd hback (by decide)

/-- A quote at the beginning of a piece, but none at its end. -/
theorem not_breakDownOk_leading :
  ¬ BreakDownOk ⟨ascii "\"a\" b+c", by decide⟩ ⟨ascii "+", by decide⟩
  := by
  rintro ⟨broken, hrun, -, hreads⟩
  have hpieces : velyBreakDown ⟨ascii "\"a\" b+c", by decide⟩ ⟨ascii "+", by decide⟩
      = .ok (.ok ⟨⟨(ascii "\"a\" b" ++ 0 :: ascii "c\x00").map some⟩, 2, [1, 6]⟩) := by
    rfl
  rw [hpieces] at hrun
  obtain rfl := Except.ok.inj (Except.ok.inj hrun)
  cases hreads with
  | cons h _ =>
    obtain ⟨s, hs, hbytes⟩ := h
    have htext : Block.string ⟨(ascii "\"a\" b" ++ 0 :: ascii "c\x00").map some⟩ 1
        = .ok ⟨ascii "a\" b", by decide⟩ := by
      rfl
    rw [htext] at hs
    obtain rfl := Except.ok.inj hs
    revert hbytes
    decide +kernel

end BreakDown

end Vely
