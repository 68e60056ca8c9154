import Vely.Lib.Run
import Vely.Tree.Calls
import Vely.Tree.Load

/-!
# Runs on a tree

A run starts with the creation of a tree, sorted or not, and makes insertions, deletions and
searches, each with a cursor of its own.  The tree answers every run as an ordered map does;
along every run it stays balanced and its heights right, and the list of a sorted tree
stays the in-order list of its nodes.
-/

namespace Vely

open Std Vely.Tree

variable {K D : Type}

/-- What is asked of a tree. -/
inductive TreeOp (K D : Type) where
  | insert (key : K) (data : D)
  | delete (key : K)
  | search (key : K)

/-- A call: what is asked, the cursor it is asked with, and where memory comes from. -/
structure TreeCall (K D : Type) where
  op : TreeOp K D
  lcurs : TreeCursor K D
  al : Allocator (TreeNode K D)

/-- The status of a call, with the key and the data it hands back. -/
abbrev TreeAnswer (K D : Type) := Status × Option (K × D)

/-- What a program reads after a call that hands a key and its data back. -/
def answerOf (status : Status) (pair : Except Stop (Option K × Option D)) :
    Except Stop (TreeAnswer K D) :=
  match status with
  | .okay => do
    let (k, d) ← pair
    return (.okay, some (← deref k, ← deref d))
  | .errExist => .ok (.errExist, none)

/-- Make a call and read its answer through the cursor. -/
def TreeCall.exec (cmp : K → K → Ordering) (c : TreeCall K D) (st : TreeState K D) :
    Except Stop (TreeAnswer K D × TreeState K D) :=
  match c.op with
  | .insert key data => do
    let st ← treeInsertF cmp c.al c.lcurs key data st
    return ((st.cursor.status, none), st)
  | .delete key => do
    let st ← treeDeleteF cmp c.al c.lcurs key st
    return (← answerOf st.cursor.status (.ok (st.cursor.rkey, st.cursor.res)), st)
  | .search key => do
    let st ← treeSearchF cmp c.lcurs key st
    return (← answerOf st.cursor.status (cursorEntry st.cursor st), st)

/-- The same call on an ordered map. -/
def TreeCall.spec {cmp : K → K → Ordering} [TransCmp cmp] (c : TreeCall K D)
    (m : OrderedMap cmp D) : TreeAnswer K D × OrderedMap cmp D :=
  match c.op with
  | .insert key data =>
    match m.find key with
    | some _ => ((.errExist, none), m)
    | none => ((.okay, none), m.add key data)
  | .delete key =>
    match m.find key with
    | some e => ((.okay, some e), m.erase key)
    | none => ((.errExist, none), m)
  | .search key =>
    match m.find key with
    | some e => ((.okay, some e), m)
    | none => ((.errExist, none), m)

/-- Create a tree and make calls on it. -/
def runTree (cmp : K → K → Ordering) (al : Allocator (TreeNode K D)) (sorted : Bool)
    (calls : List (TreeCall K D)) : Except Stop (List (TreeAnswer K D) × TreeState K D) := do
  run (TreeCall.exec cmp) calls (← treeCreate al sorted)

/-! ### Refinement of an ordered map -/

/-- The pair of an entry. -/
def Entry.pair (e : Entry K D) : K × D := (e.key, e.data)

/-- The state is that of a tree holding the pairs of `m`. -/
def Holds (cmp : K → K → Ordering) (sorted : Bool) (st : TreeState K D)
    (m : OrderedMap cmp D) : Prop :=
  st.sorted = sorted ∧ ∃ t nodes, Represents cmp st t nodes ∧ t.toList.map Entry.pair = m.entries

section Refines

variable {cmp : K → K → Ordering} {st : TreeState K D} {t : Tree (Entry K D)}
  {nodes : List Addr} {m : OrderedMap cmp D} {k : K} {sorted : Bool}

/-- Looking a key up among the pairs. -/
theorem lookup_pair (es : List (Entry K D)) :
  lookup cmp Prod.fst k (es.map Entry.pair) = (lookup cmp Entry.key k es).map Entry.pair
  := by
  rw [lookup, List.find?_map]
  rfl

theorem remove_pair (es : List (Entry K D)) :
  remove cmp Prod.fst k (es.map Entry.pair) = (remove cmp Entry.key k es).map Entry.pair
  := by
  rw [remove, List.filter_map]
  rfl

theorem place_pair (e : Entry K D) (es : List (Entry K D)) :
  place cmp Prod.fst e.pair (es.map Entry.pair) = (place cmp Entry.key e es).map Entry.pair
  := by
  rw [place, place, List.filter_map, List.filter_map, List.map_append, List.map_cons]
  rfl

/-- A key of the map is the key of an entry of the tree. -/
theorem find_eq (hm : t.toList.map Entry.pair = m.entries) :
  m.find k = (lookup cmp Entry.key k t.toList).map Entry.pair
  := by
  rw [OrderedMap.find, ← hm, lookup_pair]

/-- A cursor on an entry reads its key and data. -/
theorem cursorEntry_spec (h : Represents cmp st t nodes) {e : Entry K D} (he : e ∈ t.toList)
    {c : TreeCursor K D} (hc : c.current = some e.addr) :
  cursorEntry c st = .ok (some e.key, some e.data)
  := by
  obtain ⟨x, y, h', hcell⟩ := h.laidTop.cell_of_mem he
  rw [cursorEntry, hc, deref_some, ok_bind, Mem.read_of hcell]
  simp

variable [TransCmp cmp]

/-- A call on a tree is answered as on the ordered map it holds. -/
theorem exec_simulates :
  Simulates (Holds cmp sorted : TreeState K D → OrderedMap cmp D → Prop) (TreeCall.exec cmp) TreeCall.spec
  := by
  rintro ⟨op, lcurs, al⟩ st m ⟨hsorted, t, nodes, h, hm⟩
  cases op with
  | insert key data =>
    have hfind := find_eq (k := key) hm
    rw [TreeCall.exec, TreeCall.spec]
    cases hl : lookup cmp Entry.key key t.toList with
    | some e =>
      obtain ⟨st', hok, hrep, hcursor, hs⟩ := treeInsertF_present al h lcurs data
        (k := key) (by simp [hl])
      rw [hl] at hfind
      simp only [hok, ok_bind, pure_eq_ok, hcursor, hfind]
      exact ⟨rfl, hs.trans hsorted, t, nodes, hrep, hm⟩
    | none =>
      rw [hl] at hfind
      rcases treeInsertF_absent al h lcurs data hl with herr |
        ⟨st', a, hok, -, hrep, hcursor, hs⟩
      · simp only [herr]
        rfl
      · simp only [hok, ok_bind, pure_eq_ok, hcursor, hfind]
        refine ⟨rfl, hs.trans hsorted, _, _, hrep, ?_⟩
        rw [toList_insert h.sortedBy hl, ← place_pair, hm]
        rfl
  | delete key =>
    have hfind := find_eq (k := key) hm
    rw [TreeCall.exec, TreeCall.spec]
    cases hl : lookup cmp Entry.key key t.toList with
    | some e =>
      rw [hl] at hfind
      rcases treeDeleteF_present al lcurs h hl with herr |
        ⟨st', nodes', hok, hrep, hcursor, hs⟩
      · simp only [herr]
        rfl
      · simp only [hok, ok_bind, hcursor, hfind]
        refine ⟨rfl, hs.trans hsorted, _, _, hrep, ?_⟩
        rw [map_toList_erase Entry.move Entry.pair (fun _ _ => rfl) h.sortedBy hl, ← remove_pair, hm]
        rfl
    | none =>
      rw [hl] at hfind
      obtain ⟨st', hok, hrep, hcursor, hs⟩ := treeDeleteF_absent al lcurs h hl
      simp only [hok, ok_bind, hcursor, hfind]
      exact ⟨rfl, hs.trans hsorted, t, nodes, hrep, hm⟩
  | search key =>
    have hfind := find_eq (k := key) hm
    rw [TreeCall.exec, TreeCall.spec]
    simp only [treeSearchF_spec h lcurs key, ok_bind]
    cases hl : lookup cmp Entry.key key t.toList with
    | some e =>
      rw [hl] at hfind
      have hrep : Represents cmp ((st.useKey lcurs key).moveTo e.addr) t nodes := h.withCursor _
      have hentry := cursorEntry_spec hrep (lookup_some hl).1
        (c := ((st.useKey lcurs key).moveTo e.addr).cursor) rfl
      simp only [hfind, Option.map_some, TreeState.found, hentry]
      exact ⟨rfl, hsorted, t, nodes, hrep, hm⟩
    | none =>
      rw [hl] at hfind
      simp only [hfind]
      exact ⟨rfl, hsorted, t, nodes, h.withCursor _, hm⟩

variable (cmp) in
/-- Creating a tree and making calls on it ends in the state of a tree holding the pairs of the
map after the same calls. -/
theorem runTree_holds (al : Allocator (TreeNode K D)) (sorted : Bool)
    (calls : List (TreeCall K D)) :
  Ends (runTree cmp al sorted calls) (fun r =>
    r.1 = (specRun TreeCall.spec calls (OrderedMap.empty : OrderedMap cmp D)).1
      ∧ Holds cmp sorted r.2 (specRun TreeCall.spec calls (OrderedMap.empty : OrderedMap cmp D)).2)
  := by
  have hcreate : Ends (treeCreate al sorted)
      (fun st => Holds cmp sorted st (OrderedMap.empty : OrderedMap cmp D)) := by
    rcases treeCreate_spec cmp al sorted with herr | ⟨st, nodes, hok, hrep, hs⟩
    · rw [herr]
      rfl
    · rw [hok]
      exact ⟨hs, nil, nodes, hrep, rfl⟩
  apply hcreate.bind
  intro st hst
  apply exec_simulates.run calls hst

end Refines

/-! ### Main results -/

section Main

variable (cmp : K → K → Ordering) [TransCmp cmp] (al : Allocator (TreeNode K D))
  (calls : List (TreeCall K D))

/-- A run on a tree, sorted or not, is answered as on an ordered map; the keys and data in
memory are those of the map, the keys strictly increasing, and the count is their number. -/
theorem runTree_refines (sorted : Bool) :
  Ends (runTree cmp al sorted calls) (fun r =>
    ∃ m : OrderedMap cmp D, (r.1, m) = specRun TreeCall.spec calls OrderedMap.empty
      ∧ r.2.contents = .ok (m.entries.map (fun e => (some e.1, some e.2)))
      ∧ SortedBy cmp Prod.fst m.entries
      ∧ r.2.count = m.entries.length)
  := by
  apply (runTree_holds cmp al sorted calls).mono
  rintro ⟨answers, st⟩ ⟨hanswers, -, t, nodes, hrep, hm⟩
  refine ⟨(specRun TreeCall.spec calls OrderedMap.empty).2, ?_, ?_, ?_, ?_⟩
  · simp only at hanswers
    rw [hanswers]
  · rw [hrep.contents, ← hm, List.map_map]
    rfl
  · apply OrderedMap.sorted
  · rw [hrep.count, ← hm, List.length_map]

/-- A run on three keys, one of them deleted while it has both children. -/
def sampleCalls : List (TreeCall Nat Nat) :=
  [.insert 2 20, .insert 1 10, .insert 3 30, .insert 2 21, .delete 2, .search 3].map
    (fun op => ⟨op, TreeCursor.unset, Allocator.firstFit _ 8⟩)

example : (runTree compare (Allocator.firstFit _ 8) true sampleCalls).isOk = true := by
  decide +kernel

/-- On the sample run, the answers and the contents are those of the map. -/
theorem runTree_refines_sample :
  Ends (runTree compare (Allocator.firstFit _ 8) true sampleCalls) (fun r =>
    r.1 = [(.okay, none), (.okay, none), (.okay, none), (.errExist, none), (.okay, some (2, 20)),
      (.okay, some (3, 30))]
      ∧ r.2.contents = .ok [(some 1, some 10), (some 3, some 30)] ∧ r.2.count = 2)
  := by
  apply (runTree_refines compare (Allocator.firstFit _ 8) sampleCalls true).mono
  rintro ⟨answers, st⟩ ⟨m, hm, hcontents, -, hcount⟩
  have hanswers := congrArg Prod.fst hm
  have hentries : m.entries = [(1, 10), (3, 30)] := congrArg (fun x => x.2.entries) hm
  rw [hentries] at hcontents hcount
  exact ⟨hanswers, hcontents, hcount⟩

/-- After a run, the subtrees of every node differ in height by at most one, every node below
the root stores its height, and the depth is logarithmic in the number of keys. -/
theorem runTree_balanced (sorted : Bool) :
  Ends (runTree cmp al sorted calls) (fun r =>
    ∃ T keyed, r.2.load = .ok T ∧ r.2.keyed = .ok keyed ∧ T.Balanced
      ∧ (T.child .lesser).HeightsStored ∧ (T.child .greater).HeightsStored
      ∧ 2 ^ (T.depth / 2) ≤ keyed.length + 1)
  := by
  apply (runTree_holds cmp al sorted calls).mono
  rintro ⟨answers, st⟩ ⟨-, -, t, nodes, hrep, -⟩
  obtain ⟨T, hload, hb, hl, hg, hpow⟩ := hrep.load_balanced
  refine ⟨T, _, hload, hrep.keyed, hb, hl, hg, ?_⟩
  rw [List.length_map]
  rw [hrep.count] at hpow
  exact_mod_cast hpow

/-- After the sample run, the tree is balanced. -/
theorem runTree_balanced_sample :
  Ends (runTree compare (Allocator.firstFit _ 8) true sampleCalls) (fun r =>
    ∃ T, r.2.load = .ok T ∧ T.Balanced)
  := by
  apply (runTree_balanced compare (Allocator.firstFit _ 8) sampleCalls true).mono
  rintro r ⟨T, keyed, hload, -, hb, -⟩
  exact ⟨T, hload, hb⟩

/-- After a run on a sorted tree, the links on from the minimum lead through the nodes with a
key, in order of their keys, to NULL, those back from the maximum lead the other way, and
they answer each other; the minimum and the maximum are the ends; and no child or link of a live
node leads to a node that is not live. -/
theorem runTree_listed :
  Ends (runTree cmp al true calls) (fun r =>
    ∃ keyed, r.2.keyed = .ok keyed
      ∧ walk .greater r.2.list.links r.2.bound r.2.list.min = .ok (keyed.map Prod.fst)
      ∧ walk .lesser r.2.list.links r.2.bound r.2.list.max = .ok (keyed.map Prod.fst).reverse
      ∧ (∃ keys, keyed.map (fun x => x.2.key) = keys.map some ∧ SortedBy cmp id keys)
      ∧ (∀ a b, (∃ l, r.2.list.links a = some l ∧ l.greater = some b)
        ↔ ∃ l, r.2.list.links b = some l ∧ l.lesser = some a)
      ∧ r.2.list.min = (keyed.map Prod.fst).head? ∧ r.2.list.max = (keyed.map Prod.fst).getLast?
      ∧ (∀ a n s b, r.2.node a = some n → n.child s = some b → r.2.node b ≠ none)
      ∧ ∀ a l s b, r.2.list.links a = some l → l.get s = some b → r.2.node b ≠ none)
  := by
  apply (runTree_holds cmp al true calls).mono
  rintro ⟨answers, st⟩ ⟨-, hsorted, t, nodes, hrep, -⟩
  have haddrs : (t.toList.map (loaded st.node)).map Prod.fst = t.addrs := by
    rw [List.map_map]
    rfl
  obtain ⟨hl, -⟩ := hrep.lists hsorted
  obtain ⟨hnext, hprev⟩ := hrep.walk hsorted
  refine ⟨_, hrep.keyed, ?_, ?_, ⟨t.toList.map Entry.key, ?_, ?_⟩, hrep.link_iff hsorted, ?_, ?_,
    fun a n s b => hrep.child_live, fun a l s b => hrep.link_live hsorted⟩
  · rw [haddrs, hnext]
  · rw [haddrs, hprev]
  · rw [List.map_map, List.map_map]
    apply List.map_congr_left
    intro e he
    apply (hrep.key_loaded he).1
  · rw [SortedBy, List.pairwise_map]
    apply hrep.sortedBy
  · rw [haddrs, hl.min]
  · rw [haddrs, hl.max]

/-- After the sample run, the list ends in NULL both ways. -/
theorem runTree_listed_sample :
  Ends (runTree compare (Allocator.firstFit _ 8) true sampleCalls) (fun r =>
    ∃ xs, walk .greater r.2.list.links r.2.bound r.2.list.min = .ok xs
      ∧ walk .lesser r.2.list.links r.2.bound r.2.list.max = .ok xs.reverse)
  := by
  apply (runTree_listed compare (Allocator.firstFit _ 8) sampleCalls).mono
  rintro r ⟨keyed, -, hnext, hprev, -⟩
  exact ⟨keyed.map Prod.fst, hnext, hprev⟩

end Main

end Vely
