import Vely.Tree.Run

/-!
# Cursors

A cursor that is on a node moves to a neighbour: along the list of a sorted tree, by a search
from the root of an unsorted one.  Either way it comes to the entry with the nearest key in
the tree as it then is, also when keys have been inserted since it was put there.  A deletion
may leave it on a node that is freed: when the deleted key's node has a greater child,
it is the node of the next key that is freed.
-/

namespace Vely

open Std Vely.Tree

variable {K D : Type}

/-! ### Moves -/

section Moves

variable {cmp : K → K → Ordering} {st : TreeState K D} {t : Tree (Entry K D)}
  {nodes : List Addr} {s : Side} {k : K}

theorem nearest_pair (es : List (Entry K D)) :
  nearest cmp Prod.fst s k (es.map Entry.pair)
    = (nearest cmp Entry.key s k es).map Entry.pair
  := by
  cases s with
  | lesser =>
    rw [nearest, lower, List.filter_map, List.getLast?_map]
    rfl
  | greater =>
    rw [nearest, upper, List.filter_map, List.head?_map]
    rfl

/-- A neighbour is an entry of the list. -/
theorem nearest_mem {α : Type} {key : α → K} {es : List α} {e : α}
    (h : nearest cmp key s k es = some e) :
  e ∈ es
  := by
  cases s with
  | lesser => apply List.mem_of_mem_filter (List.mem_of_getLast? h)
  | greater => apply List.mem_of_mem_filter (List.mem_of_head? h)

variable [TransCmp cmp]

/-- On a sorted tree, the links of a node lead to its neighbours. -/
theorem Represents.link_nearest (h : Represents cmp st t nodes) (hsorted : st.sorted = true)
    {e : Entry K D} (he : e ∈ t.toList) (s : Side) :
  ∃ l, st.list.links e.addr = some l
    ∧ l.get s = (nearest cmp Entry.key s e.key t.toList).map Entry.addr
  := by
  obtain ⟨us, vs, hsplit⟩ := List.append_of_mem he
  obtain ⟨hl, -⟩ := h.lists hsorted
  have hlinked := hl.linked
  have hs := h.sortedBy
  rw [addrs, hsplit, List.map_append, List.map_cons] at hlinked
  rw [hsplit] at hs ⊢
  refine ⟨_, hlinked.at, ?_⟩
  cases s with
  | lesser =>
    simp only [nearest, lower_at hs ReflCmp.compare_self, Links.get, Option.or_none,
      List.getLast?_map]
  | greater =>
    simp only [nearest, upper_at hs ReflCmp.compare_self, Links.get, Option.or_none,
      List.head?_map]

/-- The search on a side that leaves out the key itself finds the nearest key on that side. -/
theorem search_nearest (h : Represents cmp st t nodes) (c : TreeCursor K D) (key : K) (s : Side) :
  (match s with
    | .lesser => treeSearchLesserEqualF cmp c false key st
    | .greater => treeSearchGreaterEqualF cmp c false key st)
    = .ok ((st.useKey c key).found ((nearest cmp Entry.key s key t.toList).map Entry.addr))
  := by
  cases s with
  | lesser => apply treeSearchLesserEqualF_spec h false c key
  | greater => apply treeSearchGreaterEqualF_spec h false c key

/-- A move of a cursor on the entry `e` comes to the entry with the nearest key, or leaves the
cursor where it is and reports `VV_ERR_EXIST`. -/
theorem useCursor_spec (h : Represents cmp st t nodes) {e : Entry K D} (he : e ∈ t.toList)
    {c : TreeCursor K D} (hc : c.current = some e.addr) (s : Side) :
  ∃ st', useCursor cmp s c st = .ok st' ∧ Represents cmp st' t nodes ∧ st'.sorted = st.sorted
    ∧ match nearest cmp Entry.key s e.key t.toList with
      | some f => st'.cursor.status = .okay ∧ st'.cursor.current = some f.addr
      | none => st'.cursor.status = .errExist ∧ st'.cursor.current = some e.addr
  := by
  rw [useCursor, hc]
  dsimp only
  by_cases hsorted : st.sorted = true
  · obtain ⟨l, hl, hnear⟩ := h.link_nearest hsorted he s
    rw [if_pos hsorted, Mem.read_of hl, ok_bind, hnear]
    cases nearest cmp Entry.key s e.key t.toList with
    | none => exact ⟨_, rfl, h.withCursor _, rfl, rfl, hc⟩
    | some f => exact ⟨_, rfl, h.withCursor _, rfl, rfl, rfl⟩
  · obtain ⟨x, y, h', hcell⟩ := h.laidTop.cell_of_mem he
    rw [if_neg hsorted, Mem.read_of hcell, ok_bind, key_cell, deref_some, ok_bind]
    refine ⟨_, search_nearest h c e.key s, ?_⟩
    cases nearest cmp Entry.key s e.key t.toList with
    | none => exact ⟨h.withCursor _, rfl, rfl, hc⟩
    | some f => exact ⟨h.withCursor _, rfl, rfl, rfl⟩

end Moves

/-! ### Walks -/

/-- What happens while a cursor walks: it moves, or a key is inserted with another cursor. -/
inductive WalkEvent (K D : Type) where
  | move (s : Side)
  | insert (key : K) (data : D) (lcurs : TreeCursor K D) (al : Allocator (TreeNode K D))

/-- The status of an event, and the key and data the walking cursor is on after it. -/
abbrev WalkAnswer (K D : Type) := Status × Option K × Option D

/-- An event, for a tree and the walking cursor. -/
def WalkEvent.exec (cmp : K → K → Ordering) (ev : WalkEvent K D)
    (x : TreeState K D × TreeCursor K D) :
    Except Stop (WalkAnswer K D × TreeState K D × TreeCursor K D) :=
  match ev with
  | .move s => do
    let st ← useCursor cmp s x.2 x.1
    return ((st.cursor.status, ← cursorEntry st.cursor st), st, st.cursor)
  | .insert key data lcurs al => do
    let st ← treeInsertF cmp al lcurs key data x.1
    return ((st.cursor.status, ← cursorEntry x.2 st), st, x.2)

/-- The pair with the nearest key on the side `s` of `k`. -/
def OrderedMap.neighbour {cmp : K → K → Ordering} (s : Side) (m : OrderedMap cmp D) (k : K) :
    Option (K × D) :=
  match s with
  | .lesser => m.pred k
  | .greater => m.succ k

/-- The same event for an ordered map and a pair of it. -/
def WalkEvent.spec {cmp : K → K → Ordering} [TransCmp cmp] (ev : WalkEvent K D)
    (y : OrderedMap cmp D × K × D) : WalkAnswer K D × OrderedMap cmp D × K × D :=
  match ev with
  | .move s =>
    match y.1.neighbour s y.2.1 with
    | some e => ((.okay, some e.1, some e.2), y.1, e)
    | none => ((.errExist, some y.2.1, some y.2.2), y)
  | .insert key data _ _ =>
    match y.1.find key with
    | some _ => ((.errExist, some y.2.1, some y.2.2), y)
    | none => ((.okay, some y.2.1, some y.2.2), y.1.add key data, y.2)

/-- How a cursor is put on a node. -/
inductive CursorStart (K D : Type) where
  | search (key : K)
  | min
  | max
  | insert (key : K) (data : D) (al : Allocator (TreeNode K D))

/-- Put the cursor `lcurs` on a node. -/
def CursorStart.exec (cmp : K → K → Ordering) (start : CursorStart K D)
    (lcurs : TreeCursor K D) (st : TreeState K D) : Except Stop (TreeState K D) :=
  match start with
  | .search key => treeSearchF cmp lcurs key st
  | .min => treeMinF lcurs st
  | .max => treeMaxF lcurs st
  | .insert key data al => treeInsertF cmp al lcurs key data st

/-- The pair of an ordered map that the cursor is put on, if any, and the map then. -/
def CursorStart.spec {cmp : K → K → Ordering} [TransCmp cmp] (start : CursorStart K D)
    (m : OrderedMap cmp D) : Option (K × D) × OrderedMap cmp D :=
  match start with
  | .search key => (m.find key, m)
  | .min => (m.entries.head?, m)
  | .max => (m.entries.getLast?, m)
  | .insert key data _ =>
    match m.find key with
    | some _ => (none, m)
    | none => (some (key, data), m.add key data)

/-- Build a tree, put a cursor on a node and walk: what the cursor is on at first, and the
answers to the events. -/
def walkTree (cmp : K → K → Ordering) (al : Allocator (TreeNode K D)) (sorted : Bool)
    (calls : List (TreeCall K D)) (start : CursorStart K D) (lcurs : TreeCursor K D)
    (events : List (WalkEvent K D)) :
    Except Stop (Option ((Option K × Option D) × List (WalkAnswer K D))) := do
  let (_, st) ← runTree cmp al sorted calls
  let st ← start.exec cmp lcurs st
  if st.cursor.status = .okay then
    let entry ← cursorEntry st.cursor st
    let (answers, _) ← run (WalkEvent.exec cmp) events (st, st.cursor)
    return some (entry, answers)
  else return none

/-- The same walk on an ordered map. -/
def walkSpec (cmp : K → K → Ordering) [TransCmp cmp] (calls : List (TreeCall K D))
    (start : CursorStart K D) (events : List (WalkEvent K D)) :
    Option ((Option K × Option D) × List (WalkAnswer K D)) :=
  match start.spec (specRun TreeCall.spec calls (OrderedMap.empty : OrderedMap cmp D)).2 with
  | (some e, m) => some ((some e.1, some e.2), (specRun WalkEvent.spec events (m, e)).1)
  | (none, _) => none

section Walks

variable {cmp : K → K → Ordering} [TransCmp cmp] {sorted : Bool} {st : TreeState K D}
  {m : OrderedMap cmp D}

/-- The tree holds the pairs of the map, and the cursor is on the entry of the pair. -/
def OnEntry (cmp : K → K → Ordering) (sorted : Bool) (x : TreeState K D × TreeCursor K D)
    (y : OrderedMap cmp D × K × D) : Prop :=
  x.1.sorted = sorted ∧ ∃ t nodes f, Represents cmp x.1 t nodes
    ∧ t.toList.map Entry.pair = y.1.entries ∧ f ∈ t.toList ∧ x.2.current = some f.addr
    ∧ f.pair = y.2

/-- A move of the cursor comes to the neighbouring pair of the map. -/
theorem move_spec (s : Side) {x : TreeState K D × TreeCursor K D}
    {y : OrderedMap cmp D × K × D} (h : OnEntry cmp sorted x y) :
  ∃ x', (WalkEvent.move s).exec cmp x = .ok (((WalkEvent.move s).spec y).1, x')
    ∧ OnEntry cmp sorted x' ((WalkEvent.move s).spec y).2
  := by
  obtain ⟨st, c⟩ := x
  obtain ⟨m, e⟩ := y
  obtain ⟨hsorted, t, nodes, f, h, hm, hf, hc, rfl⟩ := h
  obtain ⟨st', hok, hrep, hs, hmove⟩ := useCursor_spec h hf hc s
  have hnear : m.neighbour s f.key = (nearest cmp Entry.key s f.key t.toList).map Entry.pair := by
    rw [← nearest_pair, hm]
    cases s <;> rfl
  rw [WalkEvent.exec, WalkEvent.spec]
  simp only [hok, ok_bind, Entry.pair] at hm ⊢
  rw [hnear]
  cases hg : nearest cmp Entry.key s f.key t.toList with
  | some g =>
    rw [hg] at hmove
    obtain ⟨hstatus, hcurrent⟩ := hmove
    have hmem := nearest_mem hg
    rw [cursorEntry_spec hrep hmem hcurrent, ok_bind, hstatus]
    exact ⟨_, rfl, hs.trans hsorted, t, nodes, g, hrep, hm, hmem, hcurrent, rfl⟩
  | none =>
    rw [hg] at hmove
    obtain ⟨hstatus, hcurrent⟩ := hmove
    rw [cursorEntry_spec hrep hf hcurrent, ok_bind, hstatus]
    exact ⟨_, rfl, hs.trans hsorted, t, nodes, f, hrep, hm, hf, hcurrent, rfl⟩

/-- An event on a tree is answered as on the ordered map it holds. -/
theorem walk_simulates :
  Simulates (OnEntry cmp sorted : TreeState K D × TreeCursor K D → _) (WalkEvent.exec cmp)
    WalkEvent.spec
  := by
  intro ev x y hon
  cases ev with
  | move s =>
    obtain ⟨x', hok, hon'⟩ := move_spec s hon
    rw [hok]
    exact ⟨rfl, hon'⟩
  | insert key data lcurs al =>
    obtain ⟨st, c⟩ := x
    obtain ⟨m, e⟩ := y
    obtain ⟨hsorted, t, nodes, f, h, hm, hf, hc, rfl⟩ := hon
    have hfind := find_eq (k := key) hm
    rw [WalkEvent.exec, WalkEvent.spec]
    cases hl : lookup cmp Entry.key key t.toList with
    | some g =>
      rw [hl] at hfind
      obtain ⟨st', hok, hrep, hcursor, hs⟩ := treeInsertF_present al h lcurs data
        (k := key) (by simp [hl])
      have hentry := cursorEntry_spec hrep hf hc
      simp only [hok, ok_bind, hcursor, hentry, hfind]
      exact ⟨rfl, hs.trans hsorted, t, nodes, f, hrep, hm, hf, hc, rfl⟩
    | none =>
      rw [hl] at hfind
      rcases treeInsertF_absent al h lcurs data hl with herr |
        ⟨st', a, hok, -, hrep, hcursor, hs⟩
      · simp only [herr]
        rfl
      · have hlist := toList_insert (n := (⟨a, key, data⟩ : Entry K D)) h.sortedBy hl
        have hmem : f ∈ (Tree.insert cmp Entry.key ⟨a, key, data⟩ t).toList := by
          rw [hlist, (place_perm hl).mem_iff]
          simp [hf]
        have hentry := cursorEntry_spec hrep hmem hc
        simp only [hok, ok_bind, hcursor, hentry, hfind]
        refine ⟨rfl, hs.trans hsorted, _, _, f, hrep, ?_, hmem, hc, rfl⟩
        rw [hlist, ← place_pair, hm]
        rfl

/-- A cursor is put on the entry that the start asks for. -/
theorem start_spec (start : CursorStart K D) (lcurs : TreeCursor K D) (h : Holds cmp sorted st m) :
  Ends (start.exec cmp lcurs st) (fun st' =>
    match start.spec m with
    | (some e, m') => st'.cursor.status = .okay ∧ OnEntry cmp sorted (st', st'.cursor) (m', e)
    | (none, _) => st'.cursor.status = .errExist)
  := by
  obtain ⟨hsorted, t, nodes, h, hm⟩ := h
  have hfound : ∀ (c : TreeCursor K D) (r : Option (Entry K D)), (∀ e ∈ r, e ∈ t.toList) →
      match (r.map Entry.pair, m) with
      | (some e, m') =>
        ({ st with cursor := c }.found (r.map Entry.addr)).cursor.status = .okay
          ∧ OnEntry cmp sorted ({ st with cursor := c }.found (r.map Entry.addr),
            ({ st with cursor := c }.found (r.map Entry.addr)).cursor) (m', e)
      | (none, _) =>
        ({ st with cursor := c }.found (r.map Entry.addr)).cursor.status = .errExist := by
    intro c r hr
    cases r with
    | none => rfl
    | some e => exact ⟨rfl, hsorted, t, nodes, e, h.withCursor _, hm, hr e rfl, rfl, rfl⟩
  have hext : ∀ s, ∀ e ∈ extremal s t.toList, e ∈ t.toList := by
    intro s e he
    cases s with
    | lesser => apply List.mem_of_head? he
    | greater => apply List.mem_of_getLast? he
  cases start with
  | search key =>
    rw [CursorStart.exec, treeSearchF_spec h lcurs key, CursorStart.spec, find_eq (k := key) hm]
    apply hfound { lcurs with key := some key }
    intro e he
    apply (lookup_some he).1
  | min =>
    rw [CursorStart.exec, treeMinF, treeExtremal_spec h .lesser lcurs, CursorStart.spec, ← hm,
      List.head?_map]
    apply hfound lcurs (extremal .lesser t.toList) (hext .lesser)
  | max =>
    rw [CursorStart.exec, treeMaxF, treeExtremal_spec h .greater lcurs, CursorStart.spec, ← hm,
      List.getLast?_map]
    apply hfound lcurs (extremal .greater t.toList) (hext .greater)
  | insert key data al =>
    have hfind := find_eq (k := key) hm
    rw [CursorStart.exec, CursorStart.spec, hfind]
    cases hl : lookup cmp Entry.key key t.toList with
    | some e =>
      obtain ⟨st', hok, hrep, hcursor, hs⟩ := treeInsertF_present al h lcurs data
        (k := key) (by simp [hl])
      rw [hok]
      simp [hcursor]
    | none =>
      rcases treeInsertF_absent al h lcurs data hl with herr |
        ⟨st', a, hok, -, hrep, hcursor, hs⟩
      · rw [herr]
        rfl
      · have hlist := toList_insert (n := (⟨a, key, data⟩ : Entry K D)) h.sortedBy hl
        rw [hok]
        refine ⟨by rw [hcursor], hs.trans hsorted, _, _, ⟨a, key, data⟩, hrep, ?_, ?_,
          by rw [hcursor], rfl⟩
        · rw [hlist, ← place_pair, hm]
          rfl
        · rw [hlist, (place_perm hl).mem_iff]
          simp

variable (cmp) in
/-- A walk on a tree, sorted or not, is answered as on the ordered map it holds. -/
theorem walkTree_spec (al : Allocator (TreeNode K D)) (sorted : Bool)
    (calls : List (TreeCall K D)) (start : CursorStart K D) (lcurs : TreeCursor K D)
    (events : List (WalkEvent K D)) :
  Ends (walkTree cmp al sorted calls start lcurs events)
    (fun r => r = walkSpec cmp calls start events)
  := by
  apply (runTree_holds cmp al sorted calls).bind
  rintro ⟨answers, st⟩ ⟨-, hholds⟩
  apply (start_spec start lcurs hholds).bind
  intro st' hstart
  rw [walkSpec]
  simp only at hholds hstart ⊢
  split at hstart
  · next e m' _ =>
    obtain ⟨hstatus, hon⟩ := hstart
    rw [if_pos hstatus]
    obtain ⟨-, t, nodes, f, hrep, hm, hf, hc, rfl⟩ := id hon
    rw [cursorEntry_spec hrep hf hc, ok_bind]
    apply (walk_simulates.run events hon).bind
    rintro ⟨answers, x⟩ ⟨hanswers, -⟩
    simp only at hanswers
    rw [hanswers]
    rfl
  · next m' _ =>
    rw [if_neg (by simp [hstart])]
    rfl

end Walks

/-- Walks on sorted and on unsorted trees are answered as on the ordered map, and so alike. -/
theorem walkTree_agree (cmp : K → K → Ordering) [TransCmp cmp] (al al' : Allocator (TreeNode K D))
    (calls : List (TreeCall K D)) (start : CursorStart K D) (lcurs : TreeCursor K D)
    (events : List (WalkEvent K D)) :
  (∀ sorted, Ends (walkTree cmp al sorted calls start lcurs events)
      (fun r => r = walkSpec cmp calls start events))
    ∧ ∀ r r', walkTree cmp al true calls start lcurs events = .ok r →
      walkTree cmp al' false calls start lcurs events = .ok r' → r = r'
  := by
  refine ⟨fun sorted => walkTree_spec cmp al sorted calls start lcurs events, ?_⟩
  intro r r' hr hr'
  have h := walkTree_spec cmp al true calls start lcurs events
  have h' := walkTree_spec cmp al' false calls start lcurs events
  rw [hr, ends_ok] at h
  rw [hr', ends_ok] at h'
  rw [h, h']

/-- A walk on the sample tree: from the first key to one inserted behind the last, and
back. -/
theorem walkTree_agree_sample :
  Ends (walkTree compare (Allocator.firstFit _ 8) false sampleCalls .min TreeCursor.unset
      [.move .greater, .move .greater, .insert 5 50 TreeCursor.unset (Allocator.firstFit _ 8),
        .move .greater, .move .lesser])
    (fun r => r = some ((some 1, some 10), [(.okay, some 3, some 30),
      (.errExist, some 3, some 30), (.okay, some 3, some 30), (.okay, some 5, some 50),
      (.okay, some 3, some 30)]))
  := (walkTree_agree compare (Allocator.firstFit _ 8) (Allocator.firstFit _ 8) sampleCalls .min
    TreeCursor.unset [.move .greater, .move .greater,
      .insert 5 50 TreeCursor.unset (Allocator.firstFit _ 8), .move .greater, .move .lesser]).1
    false

/-! ### Deletion under a cursor -/

/-- The cursor `c` denotes the pair `e` of the map: it reads the key and data of `e`, and moves to
the neighbours of `e`. -/
def Denotes {cmp : K → K → Ordering} [TransCmp cmp] (st : TreeState K D) (c : TreeCursor K D)
    (m : OrderedMap cmp D) (e : K × D) : Prop :=
  cursorEntry c st = .ok (some e.1, some e.2)
    ∧ ∀ s, ∃ x, (WalkEvent.move s).exec cmp (st, c) = .ok (((WalkEvent.move s).spec (m, e)).1, x)

section Deletion

variable {cmp : K → K → Ordering} [TransCmp cmp] {st : TreeState K D} {t : Tree (Entry K D)}
  {nodes : List Addr} {m : OrderedMap cmp D} {k : K}

theorem OnEntry.denotes {c : TreeCursor K D} {e : K × D} (h : OnEntry cmp true (st, c) (m, e)) :
  Denotes st c m e
  := by
  constructor
  · obtain ⟨-, t, nodes, f, hrep, -, hf, hc, rfl⟩ := h
    apply cursorEntry_spec hrep hf hc
  · intro s
    obtain ⟨x, hok, -⟩ := move_spec s h
    exact ⟨x, hok⟩

/-- The greater child of the node of a key leads to its greater subtree. -/
theorem greaterNode_eq {mem : Mem (TreeNode K D)} (h : LaidTop mem t)
    (hs : SortedBy cmp Entry.key t.toList) {e : Entry K D} {n : TreeNode K D}
    (hl : lookup cmp Entry.key k t.toList = some e) (hn : mem e.addr = some n) :
  n.greaterNode = (greaterOf cmp Entry.key k t).ptr
  := by
  induction t using induction_sides with
  | nil => cases hl
  | node l f r ih =>
    obtain ⟨⟨h', hf⟩, -⟩ := id h
    cases hside : sideOf (cmp k f.key) with
    | none =>
      have hc := sideOf_eq_none.mp hside
      rw [toList_node, lookup_eq hs hc] at hl
      obtain rfl := Option.some.inj hl
      rw [hn] at hf
      obtain rfl := Option.some.inj hf
      simp only [greaterOf, hc]
      rfl
    | some s =>
      obtain ⟨x, y, hxy⟩ := exists_join_node s l f r
      rw [hxy] at h hs hl ⊢
      obtain ⟨-, hx, -⟩ := laidTop_join.mp h
      rw [lookup_join hs hside] at hl
      rw [greaterOf_join hside]
      apply ih s x y hxy hx.top (sortedBy_join hs) hl

/-- The entry a key is equal to is the one that is found. -/
theorem lookup_of_mem {α : Type} {key : α → K} {es : List α} {a : α}
    (hs : SortedBy cmp key es) (ha : a ∈ es) (hk : cmp k (key a) = .eq) :
  lookup cmp key k es = some a
  := by
  obtain ⟨us, vs, rfl⟩ := List.append_of_mem ha
  apply lookup_eq hs hk

omit [TransCmp cmp] in
/-- A node of the tree is not the dummy node. -/
theorem Represents.addr_ne_tree (h : Represents cmp st t nodes) {a : Addr} (ha : a ∈ t.addrs) :
  a ≠ st.tree
  := by
  have hne : t ≠ nil := by
    rintro rfl
    cases ha
  obtain ⟨hu, -, -⟩ := (rooted_of_ne_nil hne).mp h.rooted
  rintro rfl
  apply hu.notMem ha

/-- Deleting the key of `f` from a tree that holds another entry `f'` leaves the node of `f'` to
it, unless that is the node of the next key and `f` has a greater child; then it is freed. -/
theorem treeDeleteF_entry (al : Allocator (TreeNode K D)) (lcurs : TreeCursor K D)
    (h : Represents cmp st t nodes) {f f' : Entry K D}
    (hl : lookup cmp Entry.key k t.toList = some f) (hf' : f' ∈ t.toList)
    (hne : cmp k f'.key ≠ .eq) :
  ∃ st', treeDeleteF cmp al lcurs k st = .ok st' ∧ st'.sorted = st.sorted
    ∧ Represents cmp st' (erase cmp Entry.key Entry.move k t)
      (erase cmp Entry.key Entry.move k t).addrs
    ∧ (greaterOf cmp Entry.key k t ≠ nil ∧ upper cmp Entry.key k t.toList = some f' →
      st'.node f'.addr = none)
    ∧ (¬ (greaterOf cmp Entry.key k t ≠ nil ∧ upper cmp Entry.key k t.toList = some f') →
      f' ∈ (erase cmp Entry.key Entry.move k t).toList)
  := by
  have hs := h.sortedBy
  obtain ⟨us, ys, hsplit, hcase⟩ := toList_erase Entry.move hs hl
  have hk := (lookup_some hl).2
  have hff : f' ≠ f := by
    rintro rfl
    apply hne hk
  have hmem : f' ∈ us ∨ f' ∈ ys := by
    rw [hsplit, List.mem_append, List.mem_cons] at hf'
    tauto
  have hmore : erase cmp Entry.key Entry.move k t ≠ nil := by
    intro hnil
    rw [hnil] at hcase
    rcases hcase with ⟨-, -, herase⟩ | ⟨-, b, zs, -, -, herase⟩
    · obtain ⟨rfl, rfl⟩ := List.append_eq_nil_iff.mp herase.symm
      simp at hmem
    · simp at herase
  obtain ⟨st', hok, hrep, -, hsorted, htree⟩ := treeDeleteF_remaining al lcurs h hl hmore
  refine ⟨st', hok, hsorted, hrep, ?_⟩
  rcases hcase with ⟨hnil, -, herase⟩ | ⟨hnil, b, zs, rfl, htaken, herase⟩
  · refine ⟨fun hbad => absurd hnil hbad.1, fun _ => ?_⟩
    rw [herase, List.mem_append]
    apply hmem
  · have hupper : upper cmp Entry.key k t.toList = some b := by
      rw [hsplit] at hs ⊢
      apply upper_at hs hk
    rw [hupper, Option.some.injEq]
    constructor
    · rintro ⟨-, rfl⟩
      obtain ⟨a, htaken', hperm, -⟩ := addrs_erase hs hl
      obtain rfl : b = a := by simpa [htaken] using htaken'
      have hnd := List.nodup_cons.mp (hperm.nodup_iff.mp h.nodup)
      by_contra hlive
      rcases (hrep.live b.addr).mp hlive with heq | hin
      · apply h.addr_ne_tree (List.mem_map_of_mem hf')
        rw [heq, htree]
      · apply hnd.1 hin
    · intro hgood
      rw [herase, List.mem_append, List.mem_cons]
      rcases hmem with hmem | hmem
      · left
        apply hmem
      · right
        right
        apply (List.mem_cons.mp hmem).resolve_left
        rintro rfl
        apply hgood ⟨hnil, rfl⟩

/-- After a run on a sorted tree, let the cursor `c` be on the node of a pair `e`, and let
another key `k` be deleted. The cursor still denotes `e`, unless the node of `k` has a
greater child and `e` is the pair next to `k`. -/
theorem treeDeleteF_denotes_iff (cmp : K → K → Ordering) [TransCmp cmp]
    (al al' : Allocator (TreeNode K D)) (calls : List (TreeCall K D)) (lcurs c : TreeCursor K D)
    {answers : List (TreeAnswer K D)} {st : TreeState K D} {m : OrderedMap cmp D}
    {keyed : List (Addr × TreeNode K D)} {x x' : Addr × TreeNode K D} {k k0 : K} {e : K × D}
    (hrun : runTree cmp al true calls = .ok (answers, st))
    (hm : m = (specRun TreeCall.spec calls OrderedMap.empty).2)
    (hkeyed : st.keyed = .ok keyed) (hx : x ∈ keyed) (hk : x.2.key = some k0)
    (hkk : cmp k k0 = .eq) (hx' : x' ∈ keyed) (he : x'.2.key = some e.1)
    (hd : x'.2.data = some e.2) (hne : cmp k e.1 ≠ .eq) (hc : c.current = some x'.1) :
  ∃ st', treeDeleteF cmp al' lcurs k st = .ok st'
    ∧ (Denotes st' c (m.erase k) e ↔ ¬ (x.2.greaterNode ≠ none ∧ m.succ k = some e))
  := by
  have hholds := runTree_holds cmp al true calls
  rw [hrun, ends_ok, ← hm] at hholds
  obtain ⟨-, hsorted, t, nodes, hrep, hpairs⟩ := hholds
  simp only at hsorted hrep
  obtain rfl : t.toList.map (loaded st.node) = keyed := by
    have hkeyed' := hrep.keyed
    rw [hkeyed] at hkeyed'
    exact (Except.ok.inj hkeyed').symm
  obtain ⟨f, hf, rfl⟩ := List.mem_map.mp hx
  obtain ⟨f', hf', rfl⟩ := List.mem_map.mp hx'
  rw [(hrep.key_loaded hf).1, Option.some.injEq] at hk
  rw [(hrep.key_loaded hf').1, Option.some.injEq] at he
  rw [(hrep.key_loaded hf').2, Option.some.injEq] at hd
  obtain rfl : f'.pair = e := Prod.ext he hd
  have hl := lookup_of_mem (k := k) hrep.sortedBy hf (by rw [hk, hkk])
  have hgreater : (loaded st.node f).2.greaterNode ≠ none ↔ greaterOf cmp Entry.key k t ≠ nil := by
    obtain ⟨u, v, h', hcell⟩ := hrep.laidTop.cell_of_mem hf
    have hnode : (loaded st.node f).2 = cell .lesser f u v h' := by simp [loaded, hcell]
    rw [hnode, greaterNode_eq hrep.laidTop hrep.sortedBy hl hcell, ne_eq, ptr_eq_none]
  have hsucc : m.succ k = some f'.pair ↔ upper cmp Entry.key k t.toList = some f' := by
    have hnear : nearest cmp Prod.fst .greater k (t.toList.map Entry.pair)
        = (nearest cmp Entry.key .greater k t.toList).map Entry.pair := nearest_pair _
    rw [hpairs] at hnear
    have hmap : m.succ k = (upper cmp Entry.key k t.toList).map Entry.pair := hnear
    rw [hmap]
    constructor
    · intro h
      obtain ⟨b, hb, hpair⟩ := Option.map_eq_some_iff.mp h
      have hmem := nearest_mem (s := .greater) hb
      rw [hb, hrep.sortedBy.eq_of_key hmem hf' (by
        rw [show b.key = f'.key from congrArg Prod.fst hpair]
        apply ReflCmp.compare_self)]
    · intro h
      rw [h]
      rfl
  obtain ⟨st', hok, hsorted', hrep', hfreed, hkept⟩ :=
    treeDeleteF_entry al' lcurs hrep hl hf' hne
  refine ⟨st', hok, ?_⟩
  rw [hgreater, hsucc]
  constructor
  · rintro ⟨hentry, -⟩ hbad
    -- the node of `f'` is freed, and the cursor is left on it
    rw [cursorEntry, hc] at hentry
    simp only [loaded, ok_bind, Mem.read, hfreed hbad, deref, error_bind] at hentry
    cases hentry
  · intro hgood
    apply OnEntry.denotes
    refine ⟨hsorted'.trans hsorted, _, _, f', hrep', ?_, hkept hgood, hc, rfl⟩
    rw [map_toList_erase Entry.move Entry.pair (fun _ _ => rfl) hrep.sortedBy hl,
      ← remove_pair, hpairs]
    rfl

end Deletion

/-- Three keys, the middle one at the root. -/
def threeCalls : List (TreeCall Nat Nat) :=
  [.insert 2 20, .insert 1 10, .insert 3 30].map
    (fun op => ⟨op, TreeCursor.unset, Allocator.firstFit _ 8⟩)

/-- Put a cursor on the key `k'` of the tree of three keys and delete the key `k`: whether the
key was found, and what the cursor reads then. -/
def readAfterDelete (k' k : Nat) :
    Except Stop (Status × Except Stop (Option Nat × Option Nat)) := do
  let (_, st) ← runTree compare (Allocator.firstFit _ 8) true threeCalls
  let sc ← treeSearchF compare TreeCursor.unset k' st
  let st' ← treeDeleteF compare (Allocator.firstFit _ 8) TreeCursor.unset k sc
  return (sc.cursor.status, cursorEntry sc.cursor st')

/-- A cursor on the key 3 does not denote it after the deletion of the key 2, whose node has a
greater child: its node is freed. -/
theorem treeDeleteF_not_denotes :
  ¬ ∀ answers st sc st', runTree compare (Allocator.firstFit _ 8) true threeCalls
      = .ok (answers, st) →
    treeSearchF compare TreeCursor.unset 3 st = .ok sc → sc.cursor.status = .okay →
    treeDeleteF compare (Allocator.firstFit _ 8) TreeCursor.unset 2 sc = .ok st' →
    Denotes st' sc.cursor
      ((specRun TreeCall.spec threeCalls (OrderedMap.empty : OrderedMap compare Nat)).2.erase 2)
      (3, 30)
  := by
  intro h
  have hread : readAfterDelete 3 2 = .ok (.okay, .error .fault) := rfl
  rw [readAfterDelete] at hread
  cases hrun : runTree compare (Allocator.firstFit _ 8) true threeCalls with
  | error e =>
    rw [hrun] at hread
    cases hread
  | ok r =>
    obtain ⟨answers, st⟩ := r
    rw [hrun, ok_bind] at hread
    dsimp only at hread
    cases hsearch : treeSearchF compare TreeCursor.unset 3 st with
    | error e =>
      rw [hsearch] at hread
      cases hread
    | ok sc =>
      rw [hsearch, ok_bind] at hread
      cases hdelete : treeDeleteF compare (Allocator.firstFit _ 8) TreeCursor.unset 2 sc with
      | error e =>
        rw [hdelete] at hread
        cases hread
      | ok st' =>
        rw [hdelete, ok_bind, pure_eq_ok, Except.ok.injEq, Prod.mk.injEq] at hread
        have hentry := (h answers st sc st' hrun hsearch hread.1 hdelete).1
        rw [hread.2] at hentry
        cases hentry

/-- The three keys' nodes: those of the keys 1, 2 and 3 in order. -/
theorem threeCalls_keyed :
  ∃ answers st x1 x2 x3, runTree compare (Allocator.firstFit _ 8) true threeCalls
      = .ok (answers, st)
    ∧ st.keyed = .ok [x1, x2, x3] ∧ x1.2.key = some 1 ∧ x1.2.data = some 10
    ∧ x2.2.key = some 2
  := ⟨_, _, _, _, _, rfl, rfl, rfl, rfl, rfl⟩

/-- A cursor on the key 1 still denotes it after the deletion of the key 2. -/
theorem treeDeleteF_denotes_sample :
  ∃ answers st c st', runTree compare (Allocator.firstFit _ 8) true threeCalls
      = .ok (answers, st)
    ∧ treeDeleteF compare (Allocator.firstFit _ 8) TreeCursor.unset 2 st = .ok st'
    ∧ Denotes st' c
      ((specRun TreeCall.spec threeCalls (OrderedMap.empty : OrderedMap compare Nat)).2.erase 2)
      (1, 10)
  := by
  obtain ⟨answers, st, x1, x2, x3, hrun, hkeyed, hkey1, hdata1, hkey2⟩ := threeCalls_keyed
  obtain ⟨st', hok, hiff⟩ := treeDeleteF_denotes_iff compare (Allocator.firstFit _ 8)
    (Allocator.firstFit _ 8) threeCalls TreeCursor.unset
    { TreeCursor.unset with current := some x1.1 } (k := 2) (e := (1, 10)) hrun rfl hkeyed
    (show x2 ∈ [x1, x2, x3] by simp) hkey2 rfl (show x1 ∈ [x1, x2, x3] by simp) hkey1 hdata1
    (by decide) rfl
  refine ⟨answers, st, _, st', hrun, hok, hiff.mpr ?_⟩
  rintro ⟨-, hsucc⟩
  revert hsucc
  decide

end Vely
