/-
  RowStore/Tree/Search.lean
  =========================
  **Opening a tree and finding keys in it.**  The root is on page 0.  A search walks
  down from there: in a branch it takes the child that the separators choose, in a
  leaf it takes the place of the key among the cells.

  No sound tree has more nodes on a path than there are pages, so a walk that has
  seen that many nodes without reaching a leaf reports damage instead of going on.
-/
import RowStore.Tree.Access

namespace RowStore.Tree

/-! ## Opening and saving -/

/-- Makes an empty tree in an empty file, or checks that the root of a file is a node. -/
def establish : PagerM Unit := do
  if (← get).numPages = 0 then
    let root ← Pager.allocate
    Pager.edit root do
      Leaf.init
      Header.setRoot true
  else
    let _ ← kindOf PageId.root

/-- The tree in the file at a place, which is made if nothing stands there. -/
def openAt (location : Location) : Except Failure Pager := do
  match establish (← Pager.openAt location) with
  | .ok _ pager => pure pager
  | .error failure _ => throw failure

/-- Saves the tree, which ends its use. -/
def close : PagerM Unit := Pager.flushAll

/-! ## Walking down -/

/-- The place of `key` below a page: its leaf and its cell there. -/
def findBelow (key : UInt32) : (nodes : Nat) → PageId → PagerM (PageId × Nat)
  | 0, _ => refuse (.corrupted (.searchLost key))
  | nodes + 1, id => do
    match ← node id with
    | .leaf leaf => return (id, ← leaf.find key)
    | .branch branch => findBelow key nodes (← branch.child (← branch.findChild key))

/-- The leaf and the cell where `key` is, or where it would be inserted. -/
def find (key : UInt32) : PagerM (PageId × Nat) := findBelow key maxPages PageId.root

/-- The greatest key on the right edge below a page. -/
def maxKeyBelow : (nodes : Nat) → PageId → PagerM UInt32
  | 0, id => refuse (.corrupted (.spineLost id))
  | nodes + 1, id => do
    match ← node id with
    | .leaf leaf => leaf.maxKey
    | .branch branch => maxKeyBelow nodes (← branch.child branch.count)

/-- The greatest key below a page. -/
def maxKey (id : PageId) : PagerM UInt32 := maxKeyBelow maxPages id

/-- The number of levels on the left edge below a page that stands on level `level`.
    `levels` more may follow. -/
def depthBelow : (levels level : Nat) → PageId → PagerM Nat
  | 0, level, id => do
    match ← kindOf id with
    | .leaf => return level
    | .branch => refuse (.corrupted (.tooDeep id))
  | levels + 1, level, id => do
    match ← kindOf id with
    | .leaf => return level
    | .branch => depthBelow levels (level + 1) (← (← branch id).child 0)

/-- The number of levels of the tree; a root that is a leaf makes one. -/
def depth : PagerM Nat := depthBelow maxPages 1 PageId.root

end RowStore.Tree
