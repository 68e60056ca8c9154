import Vely.BreakDown.Model
import Vely.V1.Scan

/-!
# Cutting a string

The delimiter is looked for in what is left of the string, with the quotes counted from its
beginning. A terminator is written where a piece ends; behind it the rest of the delimiter stays.
-/

namespace Vely

namespace BreakDown

open V1

/-! ### Counting quotes -/

section

variable {s t : List UInt8} {before : Option UInt8}

theorem quoted_append :
  quoted before (s ++ t) = (quoted before s ^^ quoted (s.getLast?.or before) t)
  := by
  induction s generalizing before with
  | nil => simp [quoted]
  | cons c s ih =>
    rw [List.cons_append, quoted, quoted, ih, List.getLast?_cons, Bool.xor_assoc]
    cases s.getLast? with
    | none => rfl
    | some d => rfl

/-- A text without quotes opens and closes nothing. -/
theorem quoted_of_not_mem (h : 34 ∉ s) :
  quoted before s = false
  := by
  induction s generalizing before with
  | nil => rfl
  | cons c s ih =>
    rw [List.mem_cons, not_or] at h
    rw [quoted, ih h.2]
    simp [Ne.symm h.1]

/-- The quotes are counted, and no parentheses. -/
theorem count_all_quoted (n : Count) :
  (n.all false before s).left = n.left ∧ (n.all false before s).right = n.right
    ∧ (n.all false before s).within = (n.within ^^ quoted before s)
  := by
  induction s generalizing n before with
  | nil => simp [Count.all, quoted]
  | cons c s ih =>
    obtain ⟨hleft, hright, hwithin⟩ := @ih (some c) (n.next false before c)
    rw [Count.all, quoted, hleft, hright, hwithin]
    by_cases hc : (c = 34 && before != some 92) = true
    · have hnext : n.next false before c = { n with quotes := n.quotes + 1 } := by
        rw [Count.next, if_pos hc]
        rfl
      have hquote : (decide (c = 34) && decide (before ≠ some 92)) = true := by
        simpa using hc
      rw [hnext, hquote]
      refine ⟨rfl, rfl, ?_⟩
      have hodd : ({ n with quotes := n.quotes + 1 } : Count).within = !n.within := by
        rw [Bool.eq_iff_iff]
        simp only [Count.within, decide_eq_true_eq, Bool.not_eq_true', decide_eq_false_iff_not]
        omega
      rw [hodd]
      simp
    · have hnext : n.next false before c = n := by
        rw [Count.next, if_neg hc]
        rfl
      have hquote : (decide (c = 34) && decide (before ≠ some 92)) = false := by
        simpa using hc
      rw [hnext, hquote]
      simp

theorem outside_count :
  (count false s).outside = !quoted none s
  := by
  obtain ⟨hleft, hright, hwithin⟩ := @count_all_quoted s none Count.zero
  rw [count, Count.outside, hleft, hright, hwithin]
  simp [Count.zero, Count.within]

end

/-! ### The delimiter that is found -/

section

variable {s delim : List UInt8}

/-- The delimiter is seen at `q` of what is left of the string. -/
def Sees (delim s : List UInt8) (q : Nat) : Prop :=
  delim <+: s.drop q ∧ quoted none (s.take q) = false

theorem findLoop_sees (hdelim : delim ≠ []) {n beg : Nat} (hfuel : s.length < n + beg) :
  FirstFrom (Sees delim s) beg (findLoop s delim false false n beg)
  := by
  induction n generalizing beg with
  | zero =>
    intro q hq hsees
    have hstarts := hsees.1
    rw [List.drop_of_length_le (by omega)] at hstarts
    exact hdelim (List.prefix_nil.mp hstarts)
  | succ n ih =>
    have hfirst := strstr_first (s := s.drop beg) hdelim
    rw [findLoop]
    cases hr : strstr (s.drop beg) delim with
    | none =>
      rw [hr] at hfirst
      intro q hq hsees
      apply hfirst (q - beg) (Nat.zero_le _)
      rw [List.drop_drop, Nat.add_sub_cancel' hq]
      exact hsees.1
    | some i =>
      rw [hr] at hfirst
      obtain ⟨-, hi, hleast⟩ := hfirst
      rw [List.drop_drop] at hi
      have hbefore : ∀ q, beg ≤ q → q < beg + i → ¬ Sees delim s q := by
        intro q hq hlt hsees
        apply hleast (q - beg) (Nat.zero_le _) (by omega)
        rw [List.drop_drop, Nat.add_sub_cancel' hq]
        exact hsees.1
      simp only [Bool.false_eq_true, false_and, and_false, if_false]
      rw [outside_count]
      split
      · next hout =>
        use Nat.le_add_right beg i
        constructor
        · exact ⟨hi, by simpa using hout⟩
        · exact hbefore
      · next hout =>
        apply FirstFrom.pass (f := beg + i)
        · apply ih
          omega
        · intro q hq hle
          by_cases heq : q = beg + i
          · rintro ⟨-, hquoted⟩
            rw [heq] at hquoted
            exact hout (by rw [hquoted, Bool.not_false])
          · exact hbefore q hq (by omega)
        · omega

/-- `vely_find_keyword0` finds the first delimiter outside of quotes. -/
theorem velyFindKeyword0_sees (hdelim : delim ≠ []) :
  ∃ r, velyFindKeyword0 s delim false false = .ok r ∧ FirstFrom (Sees delim s) 0 r
  := by
  refine ⟨_, if_neg hdelim, ?_⟩
  apply findLoop_sees hdelim
  omega

end

/-! ### The pieces -/

/-- The pieces that are cut from what is left of the string. -/
inductive Pieces (delim : List UInt8) : List UInt8 → List (List UInt8) → Prop
  | last {s : List UInt8} (h : FirstFrom (Sees delim s) 0 none) : Pieces delim s [s]
  | cut {s : List UInt8} {i : Nat} {ws : List (List UInt8)}
    (h : FirstFrom (Sees delim s) 0 (some i)) (hws : Pieces delim (s.drop (i + delim.length)) ws) :
    Pieces delim s (s.take i :: ws)

/-- The memory of the pieces. -/
def cellsOf (delim : List UInt8) : List (List UInt8) → List (Option UInt8)
  | [] => []
  | [w] => w.map some ++ [some 0]
  | w :: ws => w.map some ++ some 0 :: (delim.tail.map some ++ cellsOf delim ws)

/-- The places of the pieces. -/
def startsOf (dlen : Nat) : Nat → List (List UInt8) → List Nat
  | _, [] => []
  | i, w :: ws => i :: startsOf dlen (i + w.length + dlen) ws

theorem Pieces.ne_nil {delim s : List UInt8} {ws : List (List UInt8)} (h : Pieces delim s ws) :
  ws ≠ []
  := by
  cases h with
  | last h => exact List.cons_ne_nil _ _
  | cut h hws => exact List.cons_ne_nil _ _

theorem cellsOf_cons {delim w : List UInt8} {ws : List (List UInt8)} (h : ws ≠ []) :
  cellsOf delim (w :: ws) = w.map some ++ some 0 :: (delim.tail.map some ++ cellsOf delim ws)
  := by
  cases ws with
  | nil => exact absurd rfl h
  | cons w' ws => rfl

/-- What is left of the string is cut in its memory. -/
theorem cutFrom_pieces {delim s : List UInt8} (hdelim : delim ≠ []) {n : Nat} {b : Block}
    {l : List (Option UInt8)} (hzero : 0 ∉ s) (hcells : b.cells = l ++ (s.map some ++ [some 0]))
    (hfuel : s.length < n) :
  ∃ ws b', Pieces delim s ws
    ∧ cutFrom delim n b l.length = .ok (.ok (b', startsOf delim.length l.length ws))
    ∧ b'.cells = l ++ cellsOf delim ws
  := by
  induction n generalizing s b l with
  | zero => cases hfuel
  | succ n ih =>
    have hstring : b.string l.length = .ok ⟨s, hzero⟩ :=
      Block.string_of_cells ⟨s, hzero⟩ hcells rfl
    obtain ⟨r, hr, hfirst⟩ := @velyFindKeyword0_sees s delim hdelim
    rw [cutFrom, hstring, ok_bind, hr]
    cases r with
    | none => exact ⟨[s], b, .last hfirst, rfl, hcells⟩
    | some i =>
      have hsees := hfirst.2.1.1
      obtain ⟨t, ht⟩ := hsees
      obtain ⟨d, ds, rfl⟩ := List.exists_cons_of_ne_nil hdelim
      have hlen : (s.take i).length = i := by
        have hle := congrArg List.length ht
        simp only [List.length_append, List.length_cons, List.length_drop] at hle
        rw [List.length_take]
        omega
      have hs : s = s.take i ++ d :: (ds ++ t) := by
        rw [← List.cons_append, ht, List.take_append_drop]
      have hrest : s.drop (i + (d :: ds).length) = t := by
        rw [← List.drop_drop, ← ht, List.drop_left]
      generalize s.take i = x at hlen hs
      have hmem : b.cells = (l ++ x.map some) ++ some d :: ((ds ++ t).map some ++ [some 0]) := by
        rw [hcells, hs]
        simp
      have hput := Block.put_of_cells 0 hmem (i := l.length + i)
        (by simp only [List.length_append, List.length_map]; omega)
      have hbase : (l ++ x.map some ++ some 0 :: ds.map some).length
          = l.length + i + (d :: ds).length := by
        simp only [List.length_append, List.length_map, List.length_cons]
        omega
      obtain ⟨ws, b', hws, hcut, hcells'⟩ :=
        @ih t ⟨l ++ x.map some ++ some 0 :: ((ds ++ t).map some ++ [some 0])⟩
          (l ++ x.map some ++ some 0 :: ds.map some)
          (by
            intro hmem
            apply hzero
            rw [hs]
            simp [hmem])
          (by simp)
          (by
            have hlength := congrArg List.length hs
            simp only [List.length_append, List.length_cons] at hlength
            omega)
      rw [hbase] at hcut
      refine ⟨x :: ws, b', ?_, ?_, ?_⟩
      · have htake : s.take i = x := by
          rw [hs, List.take_left' hlen]
        rw [← htake]
        exact .cut hfirst (hrest ▸ hws)
      · simp only
        rw [hput, ok_bind, hcut, ok_bind, startsOf, hlen]
        rfl
      · rw [hcells', cellsOf_cons hws.ne_nil]
        simp

end BreakDown

end Vely
