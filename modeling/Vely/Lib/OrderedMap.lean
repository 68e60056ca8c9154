import Mathlib.Data.List.Basic
import Mathlib.Data.List.Pairwise
import Mathlib.Order.Basic

/-!
# Ordered maps

A comparator `cmp` orders keys; keys that compare equal stand for the same key.  A list
of entries is `SortedBy cmp key` when the keys of its entries increase strictly.  An
`OrderedMap cmp D` is such a list of pairs: a finite map from keys to data, listed in
order.  Looking up, inserting, removing and stepping to a neighbour split along
`xs ++ e :: ys`, by the side of `e` the key falls on.
-/

namespace Vely

open Std

section SortedBy

variable {K E : Type} (cmp : K → K → Ordering) (key : E → K)

/-- The keys of the entries increase strictly. -/
def SortedBy (es : List E) : Prop :=
  es.Pairwise (fun a b => cmp (key a) (key b) = .lt)

/-- The entry holding the key `k`. -/
def lookup (k : K) (es : List E) : Option E :=
  es.find? (fun e => cmp k (key e) == .eq)

/-- The entries not holding the key `k`. -/
def remove (k : K) (es : List E) : List E :=
  es.filter (fun e => cmp k (key e) != .eq)

/-- The entries with `e` put at its place. -/
def place (e : E) (es : List E) : List E :=
  es.filter (fun x => cmp (key e) (key x) == .gt)
    ++ e :: es.filter (fun x => cmp (key e) (key x) == .lt)

/-- The last entry with a key below `k`. -/
def lower (k : K) (es : List E) : Option E :=
  (es.filter (fun e => cmp k (key e) == .gt)).getLast?

/-- The first entry with a key above `k`. -/
def upper (k : K) (es : List E) : Option E :=
  (es.filter (fun e => cmp k (key e) == .lt)).head?

variable {cmp key} [TransCmp cmp] {k : K} {e : E} {xs ys : List E}

omit [TransCmp cmp] in
theorem sortedBy_append_cons :
  SortedBy cmp key (xs ++ e :: ys)
    ↔ SortedBy cmp key xs ∧ SortedBy cmp key ys
      ∧ (∀ x ∈ xs, cmp (key x) (key e) = .lt) ∧ (∀ y ∈ ys, cmp (key e) (key y) = .lt)
      ∧ ∀ x ∈ xs, ∀ y ∈ ys, cmp (key x) (key y) = .lt
  := by
  simp only [SortedBy, List.pairwise_append, List.pairwise_cons, List.mem_cons,
    forall_eq_or_imp, forall_and]
  tauto

/-- A key not above `e` is below everything after `e`. -/
theorem SortedBy.lt_after
    (h : SortedBy cmp key (xs ++ e :: ys)) (hk : cmp k (key e) ≠ .gt) {y : E} (hy : y ∈ ys) :
  cmp k (key y) = .lt
  := by
  obtain ⟨-, -, -, hafter, -⟩ := sortedBy_append_cons.mp h
  cases hc : cmp k (key e) with
  | lt => apply TransCmp.lt_trans hc (hafter y hy)
  | eq => apply TransCmp.lt_of_eq_of_lt hc (hafter y hy)
  | gt => apply absurd hc hk

/-- A key not below `e` is above everything before `e`. -/
theorem SortedBy.gt_before
    (h : SortedBy cmp key (xs ++ e :: ys)) (hk : cmp k (key e) ≠ .lt) {x : E} (hx : x ∈ xs) :
  cmp k (key x) = .gt
  := by
  obtain ⟨-, -, hbefore, -, -⟩ := sortedBy_append_cons.mp h
  have hex := OrientedCmp.gt_iff_lt.mpr (hbefore x hx)
  cases hc : cmp k (key e) with
  | lt => apply absurd hc hk
  | eq => rw [TransCmp.congr_left hc, hex]
  | gt => apply TransCmp.gt_trans hc hex

omit [TransCmp cmp] in
/-- The part of a list before an entry is sorted. -/
theorem SortedBy.before (h : SortedBy cmp key (xs ++ e :: ys)) :
  SortedBy cmp key xs
  := (sortedBy_append_cons.mp h).1

omit [TransCmp cmp] in
/-- The part of a list after an entry is sorted. -/
theorem SortedBy.after (h : SortedBy cmp key (xs ++ e :: ys)) :
  SortedBy cmp key ys
  := (sortedBy_append_cons.mp h).2.1

/-- The comparison of `k` with the entries on either side of `e`, when `k` is not above
`e`: a filter keeping only the entries above `k` keeps all of `e :: ys` but perhaps
`e`. -/
theorem SortedBy.filter_after
    (h : SortedBy cmp key (xs ++ e :: ys)) (hk : cmp k (key e) ≠ .gt) (p : Ordering → Bool) :
  ys.filter (fun y => p (cmp k (key y))) = if p .lt then ys else []
  := by
  split
  · next hp =>
    apply List.filter_eq_self.mpr
    intro y hy
    rw [h.lt_after hk hy, hp]
  · next hp =>
    apply List.filter_eq_nil_iff.mpr
    intro y hy
    rw [h.lt_after hk hy]
    apply hp

/-- The comparison of `k` with the entries before `e`, when `k` is not below `e`. -/
theorem SortedBy.filter_before
    (h : SortedBy cmp key (xs ++ e :: ys)) (hk : cmp k (key e) ≠ .lt) (p : Ordering → Bool) :
  xs.filter (fun x => p (cmp k (key x))) = if p .gt then xs else []
  := by
  split
  · next hp =>
    apply List.filter_eq_self.mpr
    intro x hx
    rw [h.gt_before hk hx, hp]
  · next hp =>
    apply List.filter_eq_nil_iff.mpr
    intro x hx
    rw [h.gt_before hk hx]
    apply hp

/-! ### Operations at a split -/

/-- A key not above `e` is not found after `e`. -/
theorem SortedBy.lookup_after
    (h : SortedBy cmp key (xs ++ e :: ys)) (hk : cmp k (key e) ≠ .gt) :
  lookup cmp key k ys = none
  := by
  apply List.find?_eq_none.mpr
  intro y hy
  simp [h.lt_after hk hy]

/-- A key not below `e` is not found before `e`. -/
theorem SortedBy.lookup_before
    (h : SortedBy cmp key (xs ++ e :: ys)) (hk : cmp k (key e) ≠ .lt) :
  lookup cmp key k xs = none
  := by
  apply List.find?_eq_none.mpr
  intro x hx
  simp [h.gt_before hk hx]

theorem lookup_lt (h : SortedBy cmp key (xs ++ e :: ys)) (hk : cmp k (key e) = .lt) :
  lookup cmp key k (xs ++ e :: ys) = lookup cmp key k xs
  := by
  have hys := h.lookup_after (k := k) (by simp [hk])
  rw [lookup] at hys
  simp [lookup, hk, hys]

theorem lookup_gt (h : SortedBy cmp key (xs ++ e :: ys)) (hk : cmp k (key e) = .gt) :
  lookup cmp key k (xs ++ e :: ys) = lookup cmp key k ys
  := by
  have hxs := h.lookup_before (k := k) (by simp [hk])
  rw [lookup] at hxs
  simp [lookup, hk, hxs]

theorem lookup_eq (h : SortedBy cmp key (xs ++ e :: ys)) (hk : cmp k (key e) = .eq) :
  lookup cmp key k (xs ++ e :: ys) = some e
  := by
  have hxs := h.lookup_before (k := k) (by simp [hk])
  rw [lookup] at hxs
  simp [lookup, hk, hxs]

theorem remove_eq (h : SortedBy cmp key (xs ++ e :: ys)) (hk : cmp k (key e) = .eq) :
  remove cmp key k (xs ++ e :: ys) = xs ++ ys
  := by
  have hxs := h.filter_before (k := k) (by simp [hk]) (· != .eq)
  have hys := h.filter_after (k := k) (by simp [hk]) (· != .eq)
  simp only [remove, List.filter_append, List.filter_cons, hk]
  simp only [hxs, hys]
  rfl

theorem place_lt {n : E}
    (h : SortedBy cmp key (xs ++ e :: ys)) (hk : cmp (key n) (key e) = .lt) :
  place cmp key n (xs ++ e :: ys) = place cmp key n xs ++ e :: ys
  := by
  have hgt := h.filter_after (k := key n) (by simp [hk]) (· == .gt)
  have hlt := h.filter_after (k := key n) (by simp [hk]) (· == .lt)
  simp only [place, List.filter_append, List.filter_cons, hk]
  simp only [hgt, hlt]
  simp

theorem place_gt {n : E}
    (h : SortedBy cmp key (xs ++ e :: ys)) (hk : cmp (key n) (key e) = .gt) :
  place cmp key n (xs ++ e :: ys) = xs ++ e :: place cmp key n ys
  := by
  have hgt := h.filter_before (k := key n) (by simp [hk]) (· == .gt)
  have hlt := h.filter_before (k := key n) (by simp [hk]) (· == .lt)
  simp only [place, List.filter_append, List.filter_cons, hk]
  simp only [hgt, hlt]
  simp

theorem lower_lt (h : SortedBy cmp key (xs ++ e :: ys)) (hk : cmp k (key e) ≠ .gt) :
  lower cmp key k (xs ++ e :: ys) = lower cmp key k xs
  := by
  have hys := h.filter_after hk (· == .gt)
  have he : (cmp k (key e) == .gt) = false := by simp [hk]
  simp only [lower, List.filter_append, List.filter_cons, he]
  simp only [hys]
  simp

omit [TransCmp cmp] in
theorem lower_gt (hk : cmp k (key e) = .gt) :
  lower cmp key k (xs ++ e :: ys) = (lower cmp key k ys).or (some e)
  := by
  simp only [lower, List.filter_append, List.filter_cons, hk]
  simp [List.getLast?_append, List.getLast?_cons]

theorem upper_gt (h : SortedBy cmp key (xs ++ e :: ys)) (hk : cmp k (key e) ≠ .lt) :
  upper cmp key k (xs ++ e :: ys) = upper cmp key k ys
  := by
  have hxs := h.filter_before hk (· == .lt)
  have he : (cmp k (key e) == .lt) = false := by simp [hk]
  simp only [upper, List.filter_append, List.filter_cons, he]
  simp only [hxs]
  simp

omit [TransCmp cmp] in
theorem upper_lt (hk : cmp k (key e) = .lt) :
  upper cmp key k (xs ++ e :: ys) = (upper cmp key k xs).or (some e)
  := by
  simp only [upper, List.filter_append, List.filter_cons, hk]
  simp [List.head?_append]

/-- The neighbours of the key at a split are the ends of the two parts. -/
theorem lower_at (h : SortedBy cmp key (xs ++ e :: ys)) (hk : cmp k (key e) = .eq) :
  lower cmp key k (xs ++ e :: ys) = xs.getLast?
  := by
  have hxs := h.filter_before (k := k) (by simp [hk]) (· == .gt)
  rw [lower_lt h (by simp [hk]), lower]
  simp only [hxs]
  rfl

theorem upper_at (h : SortedBy cmp key (xs ++ e :: ys)) (hk : cmp k (key e) = .eq) :
  upper cmp key k (xs ++ e :: ys) = ys.head?
  := by
  have hys := h.filter_after (k := k) (by simp [hk]) (· == .lt)
  rw [upper_gt h (by simp [hk]), upper]
  simp only [hys]
  rfl

/-! ### Operations keep the order -/

omit [TransCmp cmp] in
theorem SortedBy.filter (h : SortedBy cmp key xs) (p : E → Bool) :
  SortedBy cmp key (xs.filter p)
  := List.Pairwise.sublist List.filter_sublist h

theorem SortedBy.place (h : SortedBy cmp key xs) (n : E) :
  SortedBy cmp key (place cmp key n xs)
  := by
  have hgt : ∀ x ∈ xs.filter (fun x => cmp (key n) (key x) == .gt),
      cmp (key x) (key n) = .lt := by
    intro x hx
    have hc := (List.mem_filter.mp hx).2
    apply OrientedCmp.gt_iff_lt.mp (by simpa using hc)
  have hlt : ∀ x ∈ xs.filter (fun x => cmp (key n) (key x) == .lt),
      cmp (key n) (key x) = .lt := by
    intro x hx
    simpa using (List.mem_filter.mp hx).2
  apply sortedBy_append_cons.mpr
  refine ⟨h.filter _, h.filter _, hgt, hlt, ?_⟩
  intro x hx y hy
  apply TransCmp.lt_trans (hgt x hx) (hlt y hy)

omit [TransCmp cmp] in
theorem lookup_isSome :
  (lookup cmp key k xs).isSome ↔ ∃ x ∈ xs, cmp k (key x) = .eq
  := by
  simp [lookup]

omit [TransCmp cmp] in
theorem lookup_eq_none :
  lookup cmp key k xs = none ↔ ∀ x ∈ xs, cmp k (key x) ≠ .eq
  := by
  simp [lookup]

omit [TransCmp cmp] in
/-- What a lookup finds is an entry holding the key. -/
theorem lookup_some {x : E} (h : lookup cmp key k xs = some x) :
  x ∈ xs ∧ cmp k (key x) = .eq
  := by
  constructor
  · apply List.mem_of_find?_eq_some h
  · simpa using List.find?_some h

omit [TransCmp cmp] in
/-- Putting an entry with an absent key at its place adds it. -/
theorem place_perm {n : E} (h : lookup cmp key (key n) xs = none) :
  (place cmp key n xs).Perm (n :: xs)
  := by
  have hlt : xs.filter (fun x => cmp (key n) (key x) == .lt)
      = xs.filter (fun x => !(cmp (key n) (key x) == .gt)) := by
    apply List.filter_congr
    intro x hx
    have hc := lookup_eq_none.mp h x hx
    cases hc' : cmp (key n) (key x) <;> simp_all
  rw [place, hlt]
  apply List.perm_middle.trans
  apply List.Perm.cons
  apply List.filter_append_perm

/-- Two entries of a sorted list with equal keys are the same. -/
theorem SortedBy.eq_of_key {x y : E} (h : SortedBy cmp key xs) (hx : x ∈ xs) (hy : y ∈ xs)
    (hc : cmp (key x) (key y) = .eq) :
  x = y
  := by
  obtain ⟨as, bs, rfl⟩ := List.append_of_mem hx
  rcases List.mem_append.mp hy with hy | hy
  · have hgt := h.gt_before (k := key x) (by simp [ReflCmp.compare_self]) hy
    simp [hgt] at hc
  · rcases List.mem_cons.mp hy with rfl | hy
    · rfl
    · have hlt := h.lt_after (k := key x) (by simp [ReflCmp.compare_self]) hy
      simp [hlt] at hc

end SortedBy

/-- A finite map from keys, as `cmp` tells them apart, to data, listed in order. -/
structure OrderedMap {K : Type} (cmp : K → K → Ordering) (D : Type) where
  entries : List (K × D)
  sorted : SortedBy cmp Prod.fst entries

namespace OrderedMap

variable {K D : Type} {cmp : K → K → Ordering}

/-- An ordered map is determined by its entries. -/
@[ext]
theorem ext {m m' : OrderedMap cmp D} (h : m.entries = m'.entries) :
  m = m'
  := by
  cases m
  cases m'
  congr

/-- The map without keys. -/
def empty : OrderedMap cmp D := ⟨[], List.Pairwise.nil⟩

/-- The pair stored for the key `k`. -/
def find (m : OrderedMap cmp D) (k : K) : Option (K × D) :=
  lookup cmp Prod.fst k m.entries

/-- The map with the key `k` removed. -/
def erase (m : OrderedMap cmp D) (k : K) : OrderedMap cmp D :=
  ⟨remove cmp Prod.fst k m.entries, m.sorted.filter _⟩

/-- The map with the absent key `k` added. -/
def add [TransCmp cmp] (m : OrderedMap cmp D) (k : K) (d : D) : OrderedMap cmp D :=
  ⟨place cmp Prod.fst (k, d) m.entries, m.sorted.place _⟩

/-- The pair with the greatest key below `k`. -/
def pred (m : OrderedMap cmp D) (k : K) : Option (K × D) :=
  lower cmp Prod.fst k m.entries

/-- The pair with the least key above `k`. -/
def succ (m : OrderedMap cmp D) (k : K) : Option (K × D) :=
  upper cmp Prod.fst k m.entries

end OrderedMap

end Vely
