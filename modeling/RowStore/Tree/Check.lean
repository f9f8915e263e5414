/-
  RowStore/Tree/Check.lean
  ========================
  **Checking the structure of a tree.**  A tree is sound if page 0 is its only root, the
  keys of every node ascend, each separator is the greatest key below its child and the
  right child lies above them, parents are named rightly, all leaves stand on one level,
  and the chain of leaves visits them all in the order of their keys.  The check walks
  the tree once, gathering the leaves, and then walks the chain; the first thing that is
  wrong is its answer.
-/
import RowStore.Tree.Search

namespace RowStore.Tree

/-- What a walk has met so far: the leaves in order, and the level they stand on. -/
structure Walk where
  leaves : List PageId := []
  leafDepth : Option Nat := none

/-- Refuses keys that do not ascend. -/
def checkAscending (id : PageId) : List UInt32 → Except Failure Unit
  | key :: next :: rest =>
    if next ≤ key then refuse (.corrupted (.keysOutOfOrder id key next))
    else checkAscending id (next :: rest)
  | _ => pure ()

/-- Refuses a node that is flagged as the root or names a wrong parent. -/
def checkParent (id expected : PageId) : PagerM Unit := do
  if ← isRoot id then refuse (.corrupted (.strayRoot id))
  let actual ← parentOf id
  if actual ≠ expected then refuse (.corrupted (.wrongParent id actual expected))

/-- Takes a leaf with the given keys into the walk. -/
def Walk.visitLeaf (walk : Walk) (id : PageId) (isTop : Bool) (depth : Nat)
    (keys : List UInt32) : Except Failure Walk := do
  checkAscending id keys
  if let some others := walk.leafDepth then
    if others ≠ depth then refuse (.corrupted (.unevenLeaf id depth others))
  if keys = [] ∧ isTop = false then refuse (.corrupted (.emptyLeaf id))
  return { leaves := walk.leaves ++ [id], leafDepth := some (walk.leafDepth.getD depth) }

/-- Refuses a child whose greatest key does not fit the separators of its branch. -/
def checkSeparator (id : PageId) (keys : List UInt32) (index : Nat) (child : PageId)
    (childMax : UInt32) : Except Failure Unit :=
  match keys[index]? with
  | some key =>
    if key = childMax then pure ()
    else refuse (.corrupted (.wrongSeparator id index key child childMax))
  | none =>
    match keys.getLast? with
    | some last =>
      if childMax ≤ last then refuse (.corrupted (.lowRightChild id child childMax)) else pure ()
    | none => pure ()

/-- Checks the children of a branch from position `index` on.  `below` checks a child.
    The answer holds the greatest key of the last child. -/
def checkChildren (below : PageId → Walk → PagerM (Option UInt32 × Walk)) (id : PageId)
    (keys : List UInt32) :
    (index : Nat) → List PageId → Option UInt32 → Walk → PagerM (Option UInt32 × Walk)
  | _, [], greatest, walk => return (greatest, walk)
  | index, child :: rest, _, walk => do
    let (childMax, walk) ← below child walk
    match childMax with
    | none => refuse (.corrupted (.emptyChild child id))
    | some childMax =>
      checkSeparator id keys index child childMax
      checkChildren below id keys (index + 1) rest (some childMax) walk

/-- Checks the node on a page, which stands on level `depth` below `parent`; `levels`
    more may follow, this one included.  The answer holds the greatest key of the node,
    or none for an empty root. -/
def checkNode : (levels depth : Nat) → (parent : Option PageId) → PageId → Walk →
    PagerM (Option UInt32 × Walk)
  | 0, _, _, id, _ => refuse (.corrupted (.tooDeep id))
  | levels + 1, depth, parent, id, walk => do
    if let some expected := parent then checkParent id expected
    match ← node id with
    | .leaf leaf =>
      let keys ← leaf.keys
      let walk ← walk.visitLeaf id parent.isNone depth keys
      return (keys.getLast?, walk)
    | .branch branch =>
      let keys ← branch.keys
      let children ← branch.children
      checkAscending id keys
      checkChildren (checkNode levels (depth + 1) (some id)) id keys 0 children none walk

/-- Refuses keys that are not greater than all before them; the answer is the last key. -/
def checkAbove (id : PageId) : (previous : Option UInt32) → List UInt32 →
    Except Failure (Option UInt32)
  | previous, [] => pure previous
  | previous, key :: rest =>
    if previous.any (key ≤ ·) then refuse (.corrupted (.leavesOutOfOrder id key))
    else checkAbove id (some key) rest

/-- Checks that the chain runs through the leaves in order and ends with the last. -/
def checkChain : (previous : Option UInt32) → List PageId → PagerM Unit
  | _, [] => return ()
  | previous, id :: rest => do
    let leaf ← leaf id
    let last ← checkAbove id previous (← leaf.keys)
    if leaf.next ≠ rest.head? then refuse (.corrupted (.wrongNext id leaf.next rest.head?))
    checkChain last rest

/-- Checks the whole tree. -/
def check : PagerM Unit := do
  if !(← isRoot PageId.root) then refuse (.corrupted (.rootUnflagged PageId.root))
  let (_, walk) ← checkNode maxPages 1 none PageId.root {}
  checkChain none walk.leaves

end RowStore.Tree
