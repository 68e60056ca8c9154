import Vely.Lib.Linked
import Vely.Header

/-!
# The in-memory tree (`tree.c`)

The nodes of a tree live in memory; a dummy node on top of the root makes the root a
lesser child like any other.  Functions that recurse or loop in the source take a bound on
the depth, and run into a fault when it is exceeded; the calls from outside pass one more
than the number of keys.  The state holds the fields of `vely_tree` and those of
the cursor `vv_cursor` points to.  Keys are compared by a comparator, as in
`VV_TREE_EVAL`: the key searched for first, the key of the node second.
-/

namespace Vely

/-- `vv_tree_node`, less its links of the sorted list. -/
structure TreeNode (K D : Type) where
  data : Option D
  lesserNode : Option Addr
  greaterNode : Option Addr
  height : BitVec 7
  keyPresent : Bool
  key : Option K

/-- `vely_tree_cursor`, less its tree. -/
structure TreeCursor (K D : Type) where
  current : Option Addr
  key : Option K
  status : Status
  res : Option D
  rkey : Option K

/-- The memory of the tree, the fields of `vely_tree`, and the cursor in use. The links of
`dlist` and the fields `min`, `max` make up `list`. -/
structure TreeState (K D : Type) where
  node : Mem (TreeNode K D)
  list : LinkedList
  tree : Addr
  count : Int
  sorted : Bool
  cursor : TreeCursor K D

variable {K D : Type}

namespace TreeNode

/-- A node all of whose bytes are zero. -/
def blank : TreeNode K D := ⟨none, none, none, 0, false, none⟩

/-- The child on the side `s`. -/
def child (s : Side) (n : TreeNode K D) : Option Addr :=
  match s with
  | .lesser => n.lesserNode
  | .greater => n.greaterNode

/-- Set the child on the side `s`. -/
def setChild (s : Side) (p : Option Addr) (n : TreeNode K D) : TreeNode K D :=
  match s with
  | .lesser => { n with lesserNode := p }
  | .greater => { n with greaterNode := p }

end TreeNode

/-- A cursor before its first use. -/
def TreeCursor.unset : TreeCursor K D := ⟨none, none, .errExist, none, none⟩

namespace TreeState

/-- Set the status of the cursor. -/
def setStatus (s : Status) (st : TreeState K D) : TreeState K D :=
  { st with cursor := { st.cursor with status := s } }

/-- Put the cursor on the node `a`. -/
def moveTo (a : Addr) (st : TreeState K D) : TreeState K D :=
  { st with cursor := { st.cursor with current := some a, status := .okay } }

/-- Use the cursor `lcurs` to look for `key`. -/
def useKey (lcurs : TreeCursor K D) (key : K) (st : TreeState K D) : TreeState K D :=
  { st with cursor := { lcurs with key := some key } }

/-- The bound on the depth of a recursion or a loop. -/
def bound (st : TreeState K D) : Nat := st.count.toNat + 1

end TreeState

/-! ### Nodes -/

/-- `vv_tree_node_create`: a new node, with links when the tree is sorted. -/
def treeNodeCreate (al : Allocator (TreeNode K D)) (st : TreeState K D) :
    Except Stop (Addr × TreeState K D) := do
  let (a, node) ← al.alloc st.node TreeNode.blank
  let links := if st.sorted then st.list.links.set a Links.null else st.list.links
  return (a, { st with node, list := { st.list with links } })

/-- `vv_tree_node_delete` -/
def treeNodeDelete (st : TreeState K D) (tree : Addr) : Except Stop (TreeState K D) := do
  let node ← st.node.free tree
  let links ← if st.sorted then st.list.links.free tree else .ok st.list.links
  return { st with node, list := { st.list with links } }

/-- `VV_TREE_SET_PARENT` -/
def setParent (m : Mem (TreeNode K D)) (p : Addr) (dir : Side) (r : Option Addr) :
    Except Stop (Mem (TreeNode K D)) :=
  m.modify p (TreeNode.setChild dir r)

/-- The stored height of a child, zero for NULL. -/
def childHeight (m : Mem (TreeNode K D)) (p : Option Addr) : Except Stop Nat :=
  match p with
  | some a => do return (← m.read a).height.toNat
  | none => .ok 0

/-- `vv_tree_height`: store the height of the node, and give its balance factor. -/
def treeHeight (m : Mem (TreeNode K D)) (tree : Addr) :
    Except Stop (Mem (TreeNode K D) × Int) := do
  let n ← m.read tree
  let leftHeight ← childHeight m n.lesserNode
  let rightHeight ← childHeight m n.greaterNode
  let height := if leftHeight > rightHeight then leftHeight + 1 else rightHeight + 1
  let m ← m.modify tree (fun n => { n with height := BitVec.ofNat 7 height })
  return (m, (leftHeight : Int) - rightHeight)

/-- Rotate the child of `tree` on the side `side` above it. -/
def treeRotate (side : Side) (m : Mem (TreeNode K D)) (parent : Addr) (dir : Side)
    (tree : Addr) : Except Stop (Mem (TreeNode K D)) := do
  let m ← setParent m parent dir ((← m.read tree).child side)
  let c ← deref ((← m.read tree).child side)
  let t := (← m.read c).child side.flip
  let m ← m.modify c (TreeNode.setChild side.flip (some tree))
  let m ← m.modify tree (TreeNode.setChild side t)
  let (m, _) ← treeHeight m tree
  let (m, _) ← treeHeight m parent
  return m

/-- `vv_tree_rotate_right` -/
def treeRotateRight (m : Mem (TreeNode K D)) (parent : Addr) (dir : Side) (tree : Addr) :
    Except Stop (Mem (TreeNode K D)) :=
  treeRotate .lesser m parent dir tree

/-- `vv_tree_rotate_left` -/
def treeRotateLeft (m : Mem (TreeNode K D)) (parent : Addr) (dir : Side) (tree : Addr) :
    Except Stop (Mem (TreeNode K D)) :=
  treeRotate .greater m parent dir tree

/-- The balancing of `tree` when its child on the side `side` is the taller one: the rotation
`outer` of `tree`, after the rotation `inner` of the child when its inner child is the
taller one. -/
def treeLift (side : Side)
    (inner outer : Mem (TreeNode K D) → Addr → Side → Addr →
      Except Stop (Mem (TreeNode K D)))
    (m : Mem (TreeNode K D)) (parent : Addr) (dir : Side) (tree : Addr) :
    Except Stop (Mem (TreeNode K D)) := do
  let m ← match (← m.read tree).child side with
    | some c => do
      let n ← m.read c
      if (← childHeight m (n.child side.flip)) > (← childHeight m (n.child side)) then
        inner m tree side c
      else pure m
    | none => pure m
  let m ← outer m parent dir tree
  let (m, _) ← treeHeight m tree
  return m

/-- `vv_tree_balance` -/
def treeBalance (m : Mem (TreeNode K D)) (parent : Addr) (dir : Side) (tree : Addr) :
    Except Stop (Mem (TreeNode K D)) := do
  let (m, balFactor) ← treeHeight m tree
  if balFactor ≥ 2 then treeLift .lesser treeRotateLeft treeRotateRight m parent dir tree
  else if balFactor ≤ -2 then treeLift .greater treeRotateRight treeRotateLeft m parent dir tree
  else return m

/-- Balance the child of `tree` on the side `side`, if there is one. -/
def treeBalanceChild (m : Mem (TreeNode K D)) (tree : Addr) (side : Side) :
    Except Stop (Mem (TreeNode K D)) := do
  match (← m.read tree).child side with
  | some c => treeBalance m tree side c
  | none => return m

/-! ### Insertion -/

/-- `vv_tree_insert` at a node without a key. -/
def treeFill (st : TreeState K D) (tree : Addr) (data : D) :
    Except Stop (TreeState K D) := do
  let key := st.cursor.key
  let node ← st.node.modify tree (fun n =>
    { n with key, data := some data, height := 1, keyPresent := true })
  let list ←
    if st.sorted then do
      let l ← st.list.links.read tree
      let list := if l.lesser = none then st.list.setEnd .lesser (some tree) else st.list
      pure (if l.greater = none then list.setEnd .greater (some tree) else list)
    else .ok st.list
  return { st with node, list, count := st.count + 1 }.moveTo tree

/-- The new child of `tree` on the side `side`, put beside it in the sorted list. -/
def treeAttach (al : Allocator (TreeNode K D)) (st : TreeState K D) (side : Side)
    (tree : Addr) : Except Stop (Addr × TreeState K D) := do
  let (a, st) ← treeNodeCreate al st
  let node ← st.node.modify tree (TreeNode.setChild side (some a))
  let links ← if st.sorted then insertBeside st.list.links side tree a else .ok st.list.links
  return (a, { st with node, list := { st.list with links } })

/-- `vv_tree_insert` -/
def treeInsert (cmp : K → K → Ordering) (al : Allocator (TreeNode K D)) :
    Nat → TreeState K D → Addr → Side → Addr → D → Except Stop (TreeState K D)
  | 0, _, _, _, _, _ => .error .fault
  | bound + 1, st, parent, dir, tree, data => do
    let n ← st.node.read tree
    if n.keyPresent = false then treeFill st tree data
    else
      match sideOf (cmp (← deref st.cursor.key) (← deref n.key)) with
      | none => return st.setStatus .errExist
      | some side =>
        match n.child side with
        | none => do
          -- no balancing after a leaf is added: the frame above does it
          let (a, st) ← treeAttach al st side tree
          treeInsert cmp al bound st tree side a data
        | some c => do
          let st ← treeInsert cmp al bound st tree side c data
          let node ← treeBalance st.node tree side (← deref ((← st.node.read tree).child side))
          let node ← treeBalance node parent dir tree
          return { st with node }

/-! ### Deletion -/

/-- `vv_tree_find_leaf_del`: move the key and the data of the lowest node from `tree` down
into `found`, and take that node out. -/
def treeFindLeafDel :
    Nat → TreeState K D → Addr → Side → Addr → Addr → Except Stop (TreeState K D)
  | 0, _, _, _, _, _ => .error .fault
  | bound + 1, st, parent, dir, tree, found => do
    let n ← st.node.read tree
    match n.lesserNode with
    | none => do
      let list ←
        if st.sorted then do
          let list ← st.list.unlink found
          list.replace found tree
        else .ok st.list
      let node ← st.node.modify found (fun f => { f with key := n.key, data := n.data })
      let node ← setParent node parent dir n.greaterNode
      treeNodeDelete { st with node, list } tree
    | some l => do
      let st ← treeFindLeafDel bound st tree .lesser l found
      let node ← treeBalanceChild st.node tree .lesser
      let node ← treeBalance node parent dir tree
      return { st with node }

/-- The part of `vv_tree_delete` that takes the key of `tree` out: the node itself when it has
no greater child, the lowest node of its greater subtree otherwise. -/
def treeTakeOut (bound : Nat) (st : TreeState K D) (parent : Addr) (dir : Side) (tree : Addr)
    (n : TreeNode K D) : Except Stop (TreeState K D) :=
  match n.greaterNode with
  | none => do
    let node ← setParent st.node parent dir n.lesserNode
    let list ← if st.sorted then st.list.unlink tree else .ok st.list
    treeNodeDelete { st with node, list } tree
  | some g => do
    let st ← treeFindLeafDel bound st tree .greater g tree
    let node ← treeBalanceChild st.node tree .greater
    let node ← treeBalance node parent dir tree
    return { st with node }

/-- `vv_tree_delete` -/
def treeDelete (cmp : K → K → Ordering) :
    Nat → TreeState K D → Addr → Side → Addr → Except Stop (TreeState K D)
  | 0, _, _, _, _ => .error .fault
  | bound + 1, st, parent, dir, tree => do
    let n ← st.node.read tree
    match sideOf (cmp (← deref st.cursor.key) (← deref n.key)) with
    | none => do
      let st ← treeTakeOut bound st parent dir tree n
      return { st with
        count := st.count - 1
        cursor := { st.cursor with status := .okay, res := n.data, rkey := n.key } }
    | some side =>
      match n.child side with
      | some c => do
        let st ← treeDelete cmp bound st tree side c
        let node ← treeBalanceChild st.node tree side
        let node ← treeBalance node parent dir tree
        return { st with node }
      | none => return st.setStatus .errExist

/-! ### Searches -/

/-- Whether there is a node at `tree` and it has a key. -/
def hasKey (m : Mem (TreeNode K D)) (tree : Option Addr) : Except Stop Bool :=
  match tree with
  | some a => do return (← m.read a).keyPresent
  | none => .ok false

/-- The loop of `vv_tree_search`. -/
def treeSearchLoop (cmp : K → K → Ordering) :
    Nat → TreeState K D → Option Addr → Except Stop (TreeState K D)
  | _, st, none => .ok (st.setStatus .errExist)
  | 0, _, some _ => .error .fault
  | bound + 1, st, some tree => do
    let n ← st.node.read tree
    match sideOf (cmp (← deref st.cursor.key) (← deref n.key)) with
    | none => return st.moveTo tree
    | some side => treeSearchLoop cmp bound st (n.child side)

/-- `vv_tree_search` -/
def treeSearch (cmp : K → K → Ordering) (st : TreeState K D) (tree : Option Addr) :
    Except Stop (TreeState K D) := do
  if ← hasKey st.node tree then treeSearchLoop cmp st.bound st tree
  else return st.setStatus .errExist

/-- The loop of the searches for the nearest key on the side `near` of the key looked for:
`prev` is the last node passed on that side. -/
def treeNearLoop (cmp : K → K → Ordering) (near : Side) (equal : Bool) :
    Nat → TreeState K D → Option Addr → Option Addr → Except Stop (TreeState K D)
  | _, st, some a, none => .ok (st.moveTo a)
  | _, st, none, none => .ok (st.setStatus .errExist)
  | 0, _, _, some _ => .error .fault
  | bound + 1, st, prev, some tree => do
    let n ← st.node.read tree
    match sideOf (cmp (← deref st.cursor.key) (← deref n.key)) with
    | none =>
      if equal then return st.moveTo tree
      else treeNearLoop cmp near equal bound st prev (n.child near)
    | some side =>
      treeNearLoop cmp near equal bound st (if side = near then prev else some tree)
        (n.child side)

/-- The search for the nearest key on the side `near`. -/
def treeSearchNear (cmp : K → K → Ordering) (near : Side) (st : TreeState K D)
    (tree : Option Addr) (equal : Bool) : Except Stop (TreeState K D) := do
  if ← hasKey st.node tree then treeNearLoop cmp near equal st.bound st none tree
  else return st.setStatus .errExist

/-- `vv_tree_search_lesser_equal` -/
def treeSearchLesserEqual (cmp : K → K → Ordering) (st : TreeState K D)
    (tree : Option Addr) (equal : Bool) : Except Stop (TreeState K D) :=
  treeSearchNear cmp .lesser st tree equal

/-- `vv_tree_search_greater_equal` -/
def treeSearchGreaterEqual (cmp : K → K → Ordering) (st : TreeState K D)
    (tree : Option Addr) (equal : Bool) : Except Stop (TreeState K D) :=
  treeSearchNear cmp .greater st tree equal

/-- The last node reached from `cur` by going to the side `s`. -/
def treeFarthest (m : Mem (TreeNode K D)) (s : Side) : Nat → Addr → Except Stop Addr
  | 0, _ => .error .fault
  | bound + 1, cur => do
    match (← m.read cur).child s with
    | some c => treeFarthest m s bound c
    | none => return cur

/-- The root: the lesser child of the dummy node. -/
def TreeState.root (st : TreeState K D) : Except Stop (Option Addr) := do
  return (← st.node.read st.tree).lesserNode

/-- The end of the list on the side `s`. -/
def LinkedList.endOf (s : Side) (l : LinkedList) : Option Addr :=
  match s with
  | .lesser => l.min
  | .greater => l.max

/-- The search for the extremal key on the side `s`. -/
def treeExtremal (s : Side) (lcurs : TreeCursor K D) (st : TreeState K D) :
    Except Stop (TreeState K D) := do
  let st := { st with cursor := lcurs }
  if st.sorted then
    if st.count = 0 then return st.setStatus .errExist
    else return { st with cursor :=
      { st.cursor with status := .okay, current := st.list.endOf s } }
  else
    let cur ← st.root
    if st.count = 0 then return st.setStatus .errExist
    else return st.moveTo (← treeFarthest st.node s st.bound (← deref cur))

/-- `vv_tree_min_f` -/
def treeMinF (lcurs : TreeCursor K D) (st : TreeState K D) : Except Stop (TreeState K D) :=
  treeExtremal .lesser lcurs st

/-- `vv_tree_max_f` -/
def treeMaxF (lcurs : TreeCursor K D) (st : TreeState K D) : Except Stop (TreeState K D) :=
  treeExtremal .greater lcurs st

/-! ### Calls from outside -/

/-- `vv_tree_create_root` -/
def treeCreateRoot (al : Allocator (TreeNode K D)) (st : TreeState K D) :
    Except Stop (TreeState K D) := do
  let (a, st) ← treeNodeCreate al st
  let node ← st.node.modify st.tree (fun n => { n with lesserNode := some a })
  return { st with node }

/-- `vv_tree_create` -/
def treeCreate (al : Allocator (TreeNode K D)) (sorted : Bool) :
    Except Stop (TreeState K D) := do
  let st : TreeState K D :=
    { node := Mem.empty, list := ⟨Mem.empty, none, none⟩, tree := ⟨0, addrSpace_pos⟩, count := 0,
      sorted, cursor := TreeCursor.unset }
  let (tree, st) ← treeNodeCreate al st
  treeCreateRoot al { st with tree }

/-- `vv_tree_search_f` -/
def treeSearchF (cmp : K → K → Ordering) (lcurs : TreeCursor K D) (key : K)
    (st : TreeState K D) : Except Stop (TreeState K D) := do
  let st := st.useKey lcurs key
  treeSearch cmp st (← st.root)

/-- `vv_tree_search_lesser_equal_f` -/
def treeSearchLesserEqualF (cmp : K → K → Ordering) (lcurs : TreeCursor K D) (equal : Bool)
    (key : K) (st : TreeState K D) : Except Stop (TreeState K D) := do
  let st := st.useKey lcurs key
  treeSearchLesserEqual cmp st (← st.root) equal

/-- `vv_tree_search_greater_equal_f` -/
def treeSearchGreaterEqualF (cmp : K → K → Ordering) (lcurs : TreeCursor K D) (equal : Bool)
    (key : K) (st : TreeState K D) : Except Stop (TreeState K D) := do
  let st := st.useKey lcurs key
  treeSearchGreaterEqual cmp st (← st.root) equal

/-- `vv_tree_delete_f` -/
def treeDeleteF (cmp : K → K → Ordering) (al : Allocator (TreeNode K D))
    (lcurs : TreeCursor K D) (key : K) (st : TreeState K D) :
    Except Stop (TreeState K D) := do
  let st := st.useKey lcurs key
  let root ← st.root
  if ← hasKey st.node root then
    let st ← treeDelete cmp st.bound st st.tree .lesser (← deref root)
    if (← st.root) = none then treeCreateRoot al st else return st
  else return st.setStatus .errExist

/-- `vv_tree_insert_f` -/
def treeInsertF (cmp : K → K → Ordering) (al : Allocator (TreeNode K D))
    (lcurs : TreeCursor K D) (key : K) (data : D) (st : TreeState K D) :
    Except Stop (TreeState K D) := do
  let st := st.useKey lcurs key
  let root ← st.root
  treeInsert cmp al st.bound st st.tree .lesser (← deref root) data

/-- The code `use-cursor` generates for `get-lesser` and `get-greater`: the cursor `c` moves to
the neighbour on the side `s`. -/
def useCursor (cmp : K → K → Ordering) (s : Side) (c : TreeCursor K D) (st : TreeState K D) :
    Except Stop (TreeState K D) :=
  match c.current with
  | none => .ok { st with cursor := c }
  | some a =>
    if st.sorted then do
      match (← st.list.links.read a).get s with
      | some b => return { st with cursor := c }.moveTo b
      | none => return { st with cursor := c }.setStatus .errExist
    else do
      let key ← deref (← st.node.read a).key
      match s with
      | .lesser => treeSearchLesserEqualF cmp c false key st
      | .greater => treeSearchGreaterEqualF cmp c false key st

/-- What the generated code reads through a cursor that is on a node: its key and its data. -/
def cursorEntry (c : TreeCursor K D) (st : TreeState K D) :
    Except Stop (Option K × Option D) := do
  let n ← st.node.read (← deref c.current)
  return (n.key, n.data)

end Vely
