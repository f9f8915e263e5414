/-
  RowStore/Tree/Access.lean
  =========================
  **Nodes as the tree sees them.**  The tree is made of page numbers: every link is
  followed through the pager, and nothing of a node is kept between two steps.  So a
  node is read by requesting its page, and read again when it is needed again.

  A node whose kind is not known yet takes two requests, one to learn the kind and
  one to accept the page as a node of that kind.
-/
import RowStore.Node.Leaf
import RowStore.Node.Branch
import RowStore.Pager.Basic

namespace RowStore.Tree

/-! ## Parts of the header -/

/-- The kind of the node on a page. -/
def kindOf (id : PageId) : PagerM NodeKind := do
  Header.readKind id (← Pager.request id)

/-- Whether a page is flagged as the root. -/
def isRoot (id : PageId) : PagerM Bool := do
  return Header.rootFlag (← Pager.request id)

/-- The parent that a page names. -/
def parentOf (id : PageId) : PagerM PageId := do
  return Header.parentOf (← Pager.request id)

def setParent (id parent : PageId) : PagerM Unit := Pager.edit id (Header.setParent parent)

/-! ## Whole nodes -/

/-- The page as a leaf. -/
def leaf (id : PageId) : PagerM Leaf := do
  Leaf.ofPage id (← Pager.request id)

/-- The page as a branch. -/
def branch (id : PageId) : PagerM Branch := do
  Branch.ofPage id (← Pager.request id)

/-- Changes a page that has to be a leaf. -/
def editLeaf {α : Type} (id : PageId) (edit : Edit pageSize α) : PagerM α := do
  let leaf ← leaf id
  Pager.change id leaf.page edit

/-- Changes a page that has to be a branch. -/
def editBranch {α : Type} (id : PageId) (edit : Edit pageSize α) : PagerM α := do
  let branch ← branch id
  Pager.change id branch.page edit

/-- A node of either kind. -/
inductive Node where
  | leaf (leaf : Leaf)
  | branch (branch : Branch)

/-- The node on a page. -/
def node (id : PageId) : PagerM Node := do
  match ← kindOf id with
  | .leaf => return .leaf (← leaf id)
  | .branch => return .branch (← branch id)

end RowStore.Tree
