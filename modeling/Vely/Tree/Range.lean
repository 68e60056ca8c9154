import Vely.Tree.Cursor

/-!
# Range searches

After any run on a tree, sorted or not, the searches for the nearest key on one side of a key, with
the key itself or without it, and those for the extremal keys come to the right entry of the
ordered map, or report `VV_ERR_EXIST` when there is none.
-/

namespace Vely

open Std Vely.Tree

/-! ### What is searched for -/

/-- The searches: `get-tree` with `lesser`, `lesser-equal`, `greater`, `greater-equal`, and the
minimum and the maximum. -/
inductive RangeSearch (K : Type) where
  | lesser (key : K)
  | lesserEqual (key : K)
  | greater (key : K)
  | greaterEqual (key : K)
  | min
  | max

namespace RangeSearch

variable {K D : Type} (cmp : K → K → Ordering)

/-- The call a search makes. -/
def exec (lcurs : TreeCursor K D) (st : TreeState K D) :
    RangeSearch K → Except Stop (TreeState K D)
  | .lesser key => treeSearchLesserEqualF cmp lcurs false key st
  | .lesserEqual key => treeSearchLesserEqualF cmp lcurs true key st
  | .greater key => treeSearchGreaterEqualF cmp lcurs false key st
  | .greaterEqual key => treeSearchGreaterEqualF cmp lcurs true key st
  | .min => treeMinF lcurs st
  | .max => treeMaxF lcurs st

/-- The keys among which a search looks. -/
def Admits : RangeSearch K → K → Prop
  | .lesser key, x => cmp x key = .lt
  | .lesserEqual key, x => cmp x key ≠ .gt
  | .greater key, x => cmp x key = .gt
  | .greaterEqual key, x => cmp x key ≠ .lt
  | .min, _ => True
  | .max, _ => True

/-- Whether `x` is the largest of the keys, or the smallest, as far as `y` goes. -/
def Beats : RangeSearch K → K → K → Prop
  | .lesser _, x, y => cmp y x ≠ .gt
  | .lesserEqual _, x, y => cmp y x ≠ .gt
  | .greater _, x, y => cmp y x ≠ .lt
  | .greaterEqual _, x, y => cmp y x ≠ .lt
  | .min, x, y => cmp y x ≠ .lt
  | .max, x, y => cmp y x ≠ .gt

/-- A search finds the extremal one among the keys it looks among, or there is none. -/
def Finds (q : RangeSearch K) (es : List (K × D)) : Option (K × D) → Prop
  | some e => e ∈ es ∧ q.Admits cmp e.1 ∧ ∀ x ∈ es, q.Admits cmp x.1 → q.Beats cmp e.1 x.1
  | none => ∀ x ∈ es, ¬ q.Admits cmp x.1

variable {cmp}

/-- The entry of an ordered map that a search comes to. -/
def answer (m : OrderedMap cmp D) : RangeSearch K → Option (K × D)
  | .lesser key => m.pred key
  | .lesserEqual key => (m.find key).or (m.pred key)
  | .greater key => m.succ key
  | .greaterEqual key => (m.find key).or (m.succ key)
  | .min => m.entries.head?
  | .max => m.entries.getLast?

end RangeSearch

/-- The cursor is on the entry, or reports that there is none. -/
def TreeState.Reads {K D : Type} (st : TreeState K D) : Option (K × D) → Prop
  | some e => st.cursor.status = .okay ∧ cursorEntry st.cursor st = .ok (some e.1, some e.2)
  | none => st.cursor.status = .errExist

/-! ### The answers of an ordered map -/

section Answers

variable {K D : Type} {cmp : K → K → Ordering} [TransCmp cmp] {es : List (K × D)} {k : K}
  {e : K × D}

/-- The last entry of a sorted list has the largest key. -/
theorem SortedBy.getLast_largest (h : SortedBy cmp Prod.fst es) (he : es.getLast? = some e) :
  e ∈ es ∧ ∀ x ∈ es, cmp x.1 e.1 ≠ .gt
  := by
  obtain ⟨xs, rfl⟩ := List.getLast?_eq_some_iff.mp he
  obtain ⟨-, -, hbefore, -, -⟩ := sortedBy_append_cons.mp h
  constructor
  · simp
  · intro x hx
    rw [List.mem_append, List.mem_singleton] at hx
    obtain hx | rfl := hx
    · rw [hbefore x hx]
      decide
    · have heq : cmp x.1 x.1 = .eq := ReflCmp.compare_self
      rw [heq]
      decide

/-- The first entry of a sorted list has the smallest key. -/
theorem SortedBy.head_smallest (h : SortedBy cmp Prod.fst es) (he : es.head? = some e) :
  e ∈ es ∧ ∀ x ∈ es, cmp x.1 e.1 ≠ .lt
  := by
  obtain ⟨ys, rfl⟩ := List.head?_eq_some_iff.mp he
  obtain ⟨-, -, -, hafter, -⟩ := @sortedBy_append_cons _ _ cmp Prod.fst e [] ys |>.mp h
  constructor
  · simp
  · intro x hx
    obtain rfl | hx := List.mem_cons.mp hx
    · have heq : cmp x.1 x.1 = .eq := ReflCmp.compare_self
      rw [heq]
      decide
    · rw [OrientedCmp.gt_iff_lt.mpr (hafter x hx)]
      decide

/-- The entry with the largest key below `k`. -/
theorem lower_some (h : SortedBy cmp Prod.fst es) (he : lower cmp Prod.fst k es = some e) :
  e ∈ es ∧ cmp e.1 k = .lt ∧ ∀ x ∈ es, cmp x.1 k = .lt → cmp x.1 e.1 ≠ .gt
  := by
  obtain ⟨hmem, hlargest⟩ := (h.filter _).getLast_largest he
  rw [List.mem_filter] at hmem
  refine ⟨hmem.1, ?_, ?_⟩
  · apply OrientedCmp.gt_iff_lt.mp
    simpa using hmem.2
  · intro x hx hlt
    apply hlargest x (List.mem_filter.mpr ⟨hx, ?_⟩)
    simpa using OrientedCmp.gt_iff_lt.mpr hlt

theorem lower_none (he : lower cmp Prod.fst k es = none) :
  ∀ x ∈ es, cmp x.1 k ≠ .lt
  := by
  intro x hx hlt
  have hnil := List.getLast?_eq_none_iff.mp he
  have hmem : x ∈ es.filter (fun e => cmp k e.1 == .gt) := by
    apply List.mem_filter.mpr ⟨hx, ?_⟩
    simpa using OrientedCmp.gt_iff_lt.mpr hlt
  rw [hnil] at hmem
  cases hmem

/-- The entry with the smallest key above `k`. -/
theorem upper_some (h : SortedBy cmp Prod.fst es) (he : upper cmp Prod.fst k es = some e) :
  e ∈ es ∧ cmp e.1 k = .gt ∧ ∀ x ∈ es, cmp x.1 k = .gt → cmp x.1 e.1 ≠ .lt
  := by
  obtain ⟨hmem, hsmallest⟩ := (h.filter _).head_smallest he
  rw [List.mem_filter] at hmem
  refine ⟨hmem.1, ?_, ?_⟩
  · apply OrientedCmp.gt_iff_lt.mpr
    simpa using hmem.2
  · intro x hx hgt
    apply hsmallest x (List.mem_filter.mpr ⟨hx, ?_⟩)
    simpa using OrientedCmp.gt_iff_lt.mp hgt

theorem upper_none (he : upper cmp Prod.fst k es = none) :
  ∀ x ∈ es, cmp x.1 k ≠ .gt
  := by
  intro x hx hgt
  have hnil := List.head?_eq_none_iff.mp he
  have hmem : x ∈ es.filter (fun e => cmp k e.1 == .lt) := by
    apply List.mem_filter.mpr ⟨hx, ?_⟩
    simpa using OrientedCmp.gt_iff_lt.mp hgt
  rw [hnil] at hmem
  cases hmem

/-- An entry with the key `k` compares with every key as `k` does. -/
theorem find_compare {m : OrderedMap cmp D} (he : m.find k = some e) :
  e ∈ m.entries ∧ cmp e.1 k = .eq ∧ ∀ x, cmp x e.1 = cmp x k
  := by
  obtain ⟨hmem, hkey⟩ := lookup_some he
  refine ⟨hmem, OrientedCmp.eq_symm hkey, ?_⟩
  intro x
  apply (TransCmp.congr_right hkey).symm

/-- The answer of an ordered map is the extremal entry. -/
theorem RangeSearch.finds_answer (m : OrderedMap cmp D) (q : RangeSearch K) :
  q.Finds cmp m.entries (q.answer m)
  := by
  cases q with
  | lesser key =>
    cases he : m.pred key with
    | some e =>
      rw [answer, he]
      apply lower_some m.sorted he
    | none =>
      rw [answer, he]
      apply lower_none he
  | lesserEqual key =>
    rw [answer]
    cases hf : m.find key with
    | some e =>
      obtain ⟨hmem, heq, hcompare⟩ := find_compare hf
      refine ⟨hmem, ?_, ?_⟩
      · rw [Admits, heq]
        decide
      · intro x hx hadmits
        rwa [Beats, hcompare]
    | none =>
      have hne : ∀ x ∈ m.entries, cmp x.1 key ≠ .eq := by
        intro x hx heq
        apply lookup_eq_none.mp hf x hx
        apply OrientedCmp.eq_symm heq
      have hiff : ∀ x ∈ m.entries, cmp x.1 key ≠ .gt ↔ cmp x.1 key = .lt := by
        intro x hx
        have hx := hne x hx
        cases hc : cmp x.1 key <;> simp_all
      rw [Option.none_or]
      cases he : m.pred key with
      | some e =>
        obtain ⟨hmem, hlt, hlargest⟩ := lower_some m.sorted he
        refine ⟨hmem, (hiff e hmem).mpr hlt, ?_⟩
        intro x hx hadmits
        apply hlargest x hx ((hiff x hx).mp hadmits)
      | none =>
        intro x hx hadmits
        apply lower_none he x hx ((hiff x hx).mp hadmits)
  | greater key =>
    cases he : m.succ key with
    | some e =>
      rw [answer, he]
      apply upper_some m.sorted he
    | none =>
      rw [answer, he]
      apply upper_none he
  | greaterEqual key =>
    rw [answer]
    cases hf : m.find key with
    | some e =>
      obtain ⟨hmem, heq, hcompare⟩ := find_compare hf
      refine ⟨hmem, ?_, ?_⟩
      · rw [Admits, heq]
        decide
      · intro x hx hadmits
        rwa [Beats, hcompare]
    | none =>
      have hne : ∀ x ∈ m.entries, cmp x.1 key ≠ .eq := by
        intro x hx heq
        apply lookup_eq_none.mp hf x hx
        apply OrientedCmp.eq_symm heq
      have hiff : ∀ x ∈ m.entries, cmp x.1 key ≠ .lt ↔ cmp x.1 key = .gt := by
        intro x hx
        have hx := hne x hx
        cases hc : cmp x.1 key <;> simp_all
      rw [Option.none_or]
      cases he : m.succ key with
      | some e =>
        obtain ⟨hmem, hgt, hsmallest⟩ := upper_some m.sorted he
        refine ⟨hmem, (hiff e hmem).mpr hgt, ?_⟩
        intro x hx hadmits
        apply hsmallest x hx ((hiff x hx).mp hadmits)
      | none =>
        intro x hx hadmits
        apply upper_none he x hx ((hiff x hx).mp hadmits)
  | min =>
    rw [answer]
    cases he : m.entries.head? with
    | some e =>
      obtain ⟨hmem, hsmallest⟩ := m.sorted.head_smallest he
      exact ⟨hmem, trivial, fun x hx _ => hsmallest x hx⟩
    | none =>
      rw [List.head?_eq_none_iff.mp he]
      intro x hx
      cases hx
  | max =>
    rw [answer]
    cases he : m.entries.getLast? with
    | some e =>
      obtain ⟨hmem, hlargest⟩ := m.sorted.getLast_largest he
      exact ⟨hmem, trivial, fun x hx _ => hlargest x hx⟩
    | none =>
      rw [List.getLast?_eq_none_iff.mp he]
      intro x hx
      cases hx

end Answers

/-! ### Searches on a tree -/

section Searches

variable {K D : Type} {cmp : K → K → Ordering} [TransCmp cmp] {st : TreeState K D}
  {t : Tree (Entry K D)} {nodes : List Addr} {m : OrderedMap cmp D}

omit [TransCmp cmp] in
/-- The cursor reads the entry that it comes to. -/
theorem Represents.reads_found (h : Represents cmp st t nodes) (r : Option (Entry K D))
    (hr : ∀ e ∈ r, e ∈ t.toList) :
  (st.found (r.map Entry.addr)).Reads (r.map Entry.pair)
  := by
  cases r with
  | none => rfl
  | some e =>
    constructor
    · rfl
    · have hrep : Represents cmp (st.moveTo e.addr) t nodes := h.withCursor _
      apply cursorEntry_spec hrep (hr e rfl) rfl

omit [TransCmp cmp] in
/-- What a search for a neighbour comes to, as an entry of the tree. -/
theorem near_mem {near : Side} {equal : Bool} {k : K} :
  ∀ e ∈ (if equal then lookup cmp Entry.key k t.toList else none).or
    (nearest cmp Entry.key near k t.toList), e ∈ t.toList
  := by
  intro e he
  rw [Option.mem_def, Option.or_eq_some_iff] at he
  obtain he | ⟨-, he⟩ := he
  · cases equal with
    | false => cases he
    | true => apply (lookup_some he).1
  · apply nearest_mem he

omit [TransCmp cmp] in
/-- A search for a neighbour reads the entry of the map. -/
theorem near_reads (h : Represents cmp st t nodes) (hm : t.toList.map Entry.pair = m.entries)
    (near : Side) (equal : Bool) (lcurs : TreeCursor K D) (k : K) :
  ((st.useKey lcurs k).found
      (((if equal then lookup cmp Entry.key k t.toList else none).or
        (nearest cmp Entry.key near k t.toList)).map Entry.addr)).Reads
    ((if equal then m.find k else none).or (nearest cmp Prod.fst near k m.entries))
  := by
  have hanswer : (if equal then m.find k else none).or (nearest cmp Prod.fst near k m.entries)
      = ((if equal then lookup cmp Entry.key k t.toList else none).or
        (nearest cmp Entry.key near k t.toList)).map Entry.pair := by
    rw [find_eq hm, ← hm, nearest_pair, Option.map_or]
    cases equal <;> rfl
  rw [hanswer]
  have hrep : Represents cmp (st.useKey lcurs k) t nodes := h.withCursor _
  apply hrep.reads_found _ near_mem

/-- Every search reads the answer of the map, and only moves the cursor. -/
theorem Represents.range (h : Represents cmp st t nodes)
    (hm : t.toList.map Entry.pair = m.entries) (q : RangeSearch K) (lcurs : TreeCursor K D) :
  ∃ st', q.exec cmp lcurs st = .ok st' ∧ { st' with cursor := st.cursor } = st
    ∧ st'.Reads (q.answer m)
  := by
  have hkept : ∀ (r : Option Addr) (c : TreeCursor K D),
      { ({ st with cursor := c }.found r) with cursor := st.cursor } = st := by
    intro r c
    cases r <;> rfl
  have hextremal : ∀ s : Side, (({ st with cursor := lcurs } : TreeState K D).found
      ((extremal s t.toList).map Entry.addr)).Reads (extremal s m.entries) := by
    intro s
    have hrep : Represents cmp { st with cursor := lcurs } t nodes := h.withCursor _
    have hanswer : extremal s m.entries = (extremal s t.toList).map Entry.pair := by
      rw [← hm]
      cases s with
      | lesser => apply List.head?_map
      | greater => apply List.getLast?_map
    rw [hanswer]
    apply hrep.reads_found
    intro e he
    cases s with
    | lesser => apply List.mem_of_head? he
    | greater => apply List.mem_of_getLast? he
  cases q with
  | lesser key =>
    exact ⟨_, treeSearchLesserEqualF_spec h false lcurs key, hkept _ _,
      near_reads h hm .lesser false lcurs key⟩
  | lesserEqual key =>
    exact ⟨_, treeSearchLesserEqualF_spec h true lcurs key, hkept _ _,
      near_reads h hm .lesser true lcurs key⟩
  | greater key =>
    exact ⟨_, treeSearchGreaterEqualF_spec h false lcurs key, hkept _ _,
      near_reads h hm .greater false lcurs key⟩
  | greaterEqual key =>
    exact ⟨_, treeSearchGreaterEqualF_spec h true lcurs key, hkept _ _,
      near_reads h hm .greater true lcurs key⟩
  | min => exact ⟨_, treeExtremal_spec h .lesser lcurs, hkept _ _, hextremal .lesser⟩
  | max => exact ⟨_, treeExtremal_spec h .greater lcurs, hkept _ _, hextremal .greater⟩

end Searches

/-! ### Main result -/

/-- After a run on a tree, every range search comes to the entry with the extremal key among those
it looks among, or reports that there is none; the entry is that of the ordered map after the same
calls, whether the tree is sorted or not. -/
theorem runTree_ranges {K D : Type} (cmp : K → K → Ordering) [TransCmp cmp]
    (al : Allocator (TreeNode K D)) (sorted : Bool) (calls : List (TreeCall K D)) :
  Ends (runTree cmp al sorted calls) (fun r =>
    ∃ m : OrderedMap cmp D, (r.1, m) = specRun TreeCall.spec calls OrderedMap.empty
      ∧ ∀ (q : RangeSearch K) (lcurs : TreeCursor K D),
        q.Finds cmp m.entries (q.answer m)
        ∧ ∃ st', q.exec cmp lcurs r.2 = .ok st' ∧ { st' with cursor := r.2.cursor } = r.2
          ∧ st'.Reads (q.answer m))
  := by
  apply (runTree_holds cmp al sorted calls).mono
  rintro ⟨answers, st⟩ ⟨hanswers, -, t, nodes, hrep, hm⟩
  refine ⟨(specRun TreeCall.spec calls OrderedMap.empty).2, ?_, ?_⟩
  · simp only at hanswers
    rw [hanswers]
  · intro q lcurs
    exact ⟨q.finds_answer _, hrep.range hm q lcurs⟩

/-- On the sample run, the search for the largest key below 3 comes to 1. -/
theorem runTree_ranges_sample :
  Ends (runTree compare (Allocator.firstFit _ 8) true sampleCalls) (fun r =>
    ∃ st', treeSearchLesserEqualF compare TreeCursor.unset false 3 r.2 = .ok st'
      ∧ st'.cursor.status = .okay ∧ cursorEntry st'.cursor st' = .ok (some 1, some 10))
  := by
  apply (runTree_ranges compare (Allocator.firstFit _ 8) true sampleCalls).mono
  rintro ⟨answers, st⟩ ⟨m, hm, hall⟩
  obtain ⟨-, st', hok, -, hreads⟩ := hall (.lesser 3) TreeCursor.unset
  have hanswer : (RangeSearch.lesser 3).answer m = some (1, 10) :=
    congrArg (fun x => (RangeSearch.lesser 3).answer x.2) hm
  rw [hanswer] at hreads
  exact ⟨st', hok, hreads⟩

end Vely
