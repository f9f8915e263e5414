/-
  RowStore/Tree/Insert.lean
  =========================
  **Inserting keys.**  A key goes into the leaf that a search for it ends in.  A full
  leaf is split in two halves, and the new half has to be linked into the parent; a
  full parent is split in turn, and so on upwards.  When the split reaches the root,
  the contents of page 0 move to a new page, and page 0 becomes a branch over the two
  halves, so that the root never leaves its page.

  Nothing is ever undone.  Before a leaf is split, the pages that the whole cascade
  will take are counted, and the key is refused if they are not there.

  The cascade climbs through parent fields, which lead anywhere in a damaged file.  It
  ends all the same, because every split that gets through takes a page: of the branches
  that it comes to, all but the last are split.  `linkWithin` is given the number of
  branches that it may come to, and `link` gives one more than there are free pages.
-/
import RowStore.Tree.Search

namespace RowStore.Tree

/-! ## Room for a split -/

/-- The pages that a split takes from `id` on upwards, on top of `needed`: one for every
    full branch above, and one more if it reaches the root. -/
def countSplits : (nodes needed : Nat) → PageId → PagerM Nat
  | 0, needed, _ => return needed
  | nodes + 1, needed, id => do
    if ← isRoot id then return needed + 1
    let parent ← parentOf id
    if (← branch parent).count < Branch.maxKeys then return needed
    countSplits nodes (needed + 1) parent

/-- Refuses to split a leaf if the pages for it might run out. -/
def ensureRoom (id : PageId) : PagerM Unit := do
  let needed ← countSplits maxPages 1 id
  if (← get).freePages < needed then refuse .tableFull

/-! ## A new root -/

/-- Names `parent` as the parent of all the pages. -/
def adopt (parent : PageId) (children : List PageId) : PagerM Unit :=
  children.forM fun child => setParent child parent

/-- Moves the contents of the root to a new page, and makes the root a branch over that
    page and `right`. -/
def growRoot (right : PageId) : PagerM Unit := do
  let left ← Pager.allocate
  let (_, root) ← Pager.requestPair left PageId.root
  Pager.change left root (Header.setRoot false)
  if (← kindOf left) = .branch then
    adopt left (← (← branch left).children)
  let leftMax ← maxKey left
  Pager.edit PageId.root do
    Branch.init
    Header.setRoot true
    Branch.insertCell PageId.root 0 left leftMax
    Branch.setRight right
  setParent left PageId.root
  setParent right PageId.root

/-! ## Linking a child -/

/-- Links `child` into a branch that has room and was read as `node`. -/
def attach (node : Branch) (child : PageId) : PagerM Unit := do
  let parent := node.id
  if node.right.isValid then
    let childMax ← maxKey child
    let rightMax ← maxKey node.right
    editBranch parent do
      if rightMax < childMax then
        Branch.insertCell parent node.count node.right rightMax
        Branch.setRight child
      else
        let here : Branch := { id := parent, page := ← get }
        Branch.insertCell parent (← here.findChild childMax) child childMax
  else
    editBranch parent (Branch.setRight child)
  setParent child parent

/-- Links `child` into a branch that has to have room. -/
def attachTo (parent child : PageId) : PagerM Unit := do
  attach (← branch parent) child

/-- Puts an empty sibling beside a branch that is to be split.  The answer holds the branch
    that keeps the lower half and the parent of both.  If the branch is the root, a new root
    is grown first, and the lower half stays with the page that its contents moved to. -/
def prepareSplit (parent new : PageId) (splittingRoot : Bool) : PagerM (PageId × PageId) := do
  if splittingRoot then
    growRoot new
    return (← (← branch PageId.root).cellChild 0, PageId.root)
  else
    let grandparent ← parentOf parent
    setParent new grandparent
    return (parent, grandparent)

/-- A number of keys less one.  In a damaged file a branch that is split may have run out of
    keys. -/
def oneLess : Nat → Except Failure Nat
  | 0 => crash .overflow
  | n + 1 => .ok n

/-- Moves the upper half of the children of `old` to its empty sibling `new`: the right
    child and the one before it.  The next one becomes the right child of `old`. -/
def moveUpperHalf (old new : PageId) : PagerM Unit := do
  attachTo new (← branch old).right
  editBranch old (Branch.setRight PageId.invalid)
  attachTo new (← (← branch old).cellChild (Branch.maxKeys - 1))
  editBranch old do
    Branch.setCount (← oneLess (Branch.countIn (← get)))
  editBranch old do
    let here : Branch := { id := old, page := ← get }
    let last ← oneLess here.count
    Branch.setRight (← here.cellChild last)
    Branch.setCount last

/-- Splits a full branch and links `child` into the half that it belongs to.  The answer
    is what is still to be linked: the grandparent and the new sibling, or nothing if the
    root was split. -/
def splitBranch (parent child : PageId) : PagerM (Option (PageId × PageId)) := do
  let childMax ← maxKey child
  let splittingRoot ← isRoot parent
  let new ← Pager.allocate
  Pager.edit new Branch.init
  let (old, grandparent) ← prepareSplit parent new splittingRoot
  moveUpperHalf old new
  let destination := if childMax < (← maxKey old) then old else new
  attachTo destination child
  let splitMax ← maxKey old
  if splittingRoot then
    editBranch PageId.root (Branch.setKey 0 splitMax)
    return none
  else
    -- The right edge of the old half may have shrunk before, so its separator is found
    -- by the child and not by the key.
    editBranch grandparent (Branch.replaceKeyOf grandparent old splitMax)
    return some (grandparent, new)

/-- Links `child` into `parent`, coming to at most `branches` branches on the way up. -/
def linkWithin : (branches : Nat) → (parent child : PageId) → PagerM Unit
  | 0, _, _ => throw .endless
  | branches + 1, parent, child => do
    let node ← branch parent
    if node.count < Branch.maxKeys then attach node child
    else
      match ← splitBranch parent child with
      | none => return ()
      | some (grandparent, new) => linkWithin branches grandparent new

/-- Links `child` into `parent`. -/
def link (parent child : PageId) : PagerM Unit := do
  linkWithin ((← get).freePages + 1) parent child

/-! ## Leaves -/

/-- The cell of a key and its value. -/
def cellOf (key : UInt32) (value : List UInt8) : List UInt8 := Word.toBytes key ++ value

/-- Splits a full leaf around a new cell at index `cell`, and links the new half. -/
def splitLeaf (old : PageId) (cell : Nat) (key : UInt32) (value : List UInt8) :
    PagerM Unit := do
  let oldMax ← maxKey old
  let before ← leaf old
  let cells := (← before.cells).insertIdx cell (cellOf key value)
  let new ← Pager.allocate
  let (lower, upper) := cells.splitAt Leaf.lowerHalf
  Pager.edit new do
    Leaf.init
    Header.setParent before.parent
    Leaf.setNext before.next
    Leaf.setCells upper
    Leaf.setCount upper.length
  editLeaf old do
    Leaf.setCells lower
    Leaf.setCount lower.length
    Leaf.setNext (some new)
  if before.isRoot then growRoot new
  else
    let newMax ← maxKey old
    editBranch before.parent (Branch.replaceKey before.parent oldMax newMax)
    link before.parent new

/-- Puts a key into the leaf on page `id` at index `cell`, which has to be the place that
    `find` gives.  Whether the key is there already is not looked at. -/
def insertAt (id : PageId) (cell : Nat) (key : UInt32) (value : List UInt8) : PagerM Unit := do
  if value.length ≠ Leaf.valueSize then
    refuse (.valueSizeMismatch Leaf.valueSize value.length)
  let count := (← leaf id).count
  if count < cell then refuse (.cellOutOfRange id cell count)
  if Leaf.maxCells ≤ count then
    ensureRoom id
    splitLeaf id cell key value
  else
    editLeaf id (Leaf.insertCell id cell key value)

end RowStore.Tree
