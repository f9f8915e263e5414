/-
  RowStore/Node/Branch.lean
  =========================
  **Branches.**  A branch holds cells of a child and the separator that bounds it,
  and one more child on the right, above the last separator.

      header (6) | count (4) | right child (4) | cell 0 | … | cell (count - 1) | unused
      cell = child (4) | separator (4)

  In a sound tree separator `i` is the greatest key below child `i`.  A branch that
  was initialised but has no child yet keeps `PageId.invalid` as its right child.
  As for leaves, accepting a page checks its kind and its count, nothing else.
-/
import RowStore.Node.Header
import RowStore.Bisect

namespace RowStore

/-- A page read as a branch. -/
structure Branch where
  id : PageId
  page : Page

namespace Branch

/-! ## Places -/

/-- Where cell `i` starts. -/
def cellStart (i : Nat) : Nat := headerSize + i * cellSize

/-- Where cell `i` starts, if a branch can have such a cell. -/
def cellOffset (i : Nat) : Except Failure Nat :=
  if i < maxKeys then pure (cellStart i) else crash (.branchCell i)

/-- Every cell ends inside the page. -/
theorem cellStart_add_le {i : Nat} (h : i < maxKeys) : cellStart i + cellSize ≤ pageSize := by
  have : i < 3 := h
  change 14 + i * 8 + 8 ≤ 4096
  omega

/-! ## Reading -/

/-- The number of separators that a page claims to hold as a branch. -/
def countIn (page : Page) : Nat := (page.word countOffset).toNat

/-- Accepts a page as a branch. -/
def ofPage (id : PageId) (page : Page) : Except Failure Branch := do
  match ← Header.readKind id page with
  | .leaf => refuse (.corrupted (.branchExpected id))
  | .branch =>
    if countIn page ≤ maxKeys then pure { id, page }
    else refuse (.corrupted (.tooManyKeys id (countIn page) maxKeys))

/-- A page is accepted exactly if its kind and its count are right, and it is not changed. -/
theorem ofPage_eq_ok_iff {id : PageId} {page : Page} {branch : Branch} :
    ofPage id page = .ok branch ↔
      Header.readKind id page = .ok .branch ∧ countIn page ≤ maxKeys ∧ branch = { id, page } := by
  rw [ofPage]
  cases h : Header.readKind id page with
  | error failure => simp [bind, Except.bind]
  | ok kind =>
    cases kind with
    | leaf => simp [bind, Except.bind, refuse, throw, throwThe, MonadExceptOf.throw]
    | branch =>
      by_cases hc : countIn page ≤ maxKeys
      · simp [bind, Except.bind, pure, Except.pure, hc, eq_comm]
      · simp [bind, Except.bind, refuse, throw, throwThe, MonadExceptOf.throw, hc]

def isRoot (branch : Branch) : Bool := Header.rootFlag branch.page

def parent (branch : Branch) : PageId := Header.parentOf branch.page

/-- The number of separators. -/
def count (branch : Branch) : Nat := countIn branch.page

/-- The right child as it is stored, perhaps `PageId.invalid`. -/
def right (branch : Branch) : PageId := ⟨branch.page.word rightOffset⟩

/-- A separator. -/
def key (branch : Branch) (i : Nat) : Except Failure UInt32 := do
  return branch.page.word ((← cellOffset i) + childSize)

/-- The child of a cell as it is stored. -/
def cellChild (branch : Branch) (i : Nat) : Except Failure PageId := do
  return ⟨branch.page.word (← cellOffset i)⟩

/-- The child at a position; the one behind the last cell is the right child. -/
def child (branch : Branch) (i : Nat) : Except Failure PageId := do
  if branch.count < i then refuse (.childIndexOutOfRange branch.id i branch.count)
  let child ← if i = branch.count then pure branch.right else branch.cellChild i
  if child.isValid then pure child else refuse (.invalidChildPointer branch.id i)

/-- The position of the child that `key` belongs to: the first whose separator is not
    smaller, or else the right child. -/
def findChild (branch : Branch) (key : UInt32) : Except Failure Nat :=
  bisect branch.count fun i => do
    let here ← branch.key i
    return if key ≤ here then .lt else .gt

/-- All children in order, the right one last. -/
def children (branch : Branch) : Except Failure (List PageId) :=
  (List.range (branch.count + 1)).mapM branch.child

/-- All separators in order. -/
def keys (branch : Branch) : Except Failure (List UInt32) :=
  (List.range branch.count).mapM branch.key

/-- All cells in order, children as they are stored. -/
def cells (branch : Branch) : Except Failure (List (PageId × UInt32)) :=
  (List.range branch.count).mapM fun i => do return (← branch.cellChild i, ← branch.key i)

/-! ## Writing -/

/-- Makes the page a branch without children.  The parent field stays. -/
def init : Edit pageSize Unit := do
  Header.setKind .branch
  Header.setRoot false
  Edit.writeWord countOffset 0
  Edit.writeWord rightOffset PageId.invalid.number

def setCount (count : Nat) : Edit pageSize Unit := do
  if maxKeys < count then crash (.branchCount count)
  Edit.writeWord countOffset (UInt32.ofNat count)

def setRight (child : PageId) : Edit pageSize Unit := Edit.writeWord rightOffset child.number

def setKey (i : Nat) (key : UInt32) : Edit pageSize Unit := do
  Edit.writeWord ((← cellOffset i) + childSize) key

def setCellChild (i : Nat) (child : PageId) : Edit pageSize Unit := do
  Edit.writeWord (← cellOffset i) child.number

/-- Puts a new cell at index `i` of the branch on page `id`; later cells move up by one. -/
def insertCell (id : PageId) (i : Nat) (child : PageId) (key : UInt32) : Edit pageSize Unit := do
  let count := countIn (← get)
  if maxKeys ≤ count then crash (.branchFull id)
  if count < i then crash (.insertPosition i)
  if i < count then
    let start ← cellOffset i
    let stop ← cellOffset count
    Edit.update (·.move start (stop - start) (start + cellSize))
  setCount (count + 1)
  setCellChild i child
  setKey i key

/-! ## Repairing separators -/

/-- Gives the first cell whose separator is `old` the separator `new`, on page `id`. -/
def replaceKey (id : PageId) (old new : UInt32) : Edit pageSize Unit := do
  let branch : Branch := { id, page := ← get }
  let i ← branch.findChild old
  if i < branch.count then
    if (← branch.key i) = old then setKey i new

/-- The index of the first of the `todo` cells from index `i` on that holds `child`. -/
def indexOfChildFrom (branch : Branch) (child : PageId) :
    (todo i : Nat) → Except Failure (Option Nat)
  | 0, _ => pure none
  | todo + 1, i => do
    if (← branch.cellChild i) = child then pure (some i)
    else branch.indexOfChildFrom child todo (i + 1)

/-- The index of the first cell that holds `child`; the right child is in no cell. -/
def indexOfChild (branch : Branch) (child : PageId) : Except Failure (Option Nat) :=
  branch.indexOfChildFrom child branch.count 0

/-- Gives the first cell of `child` the separator `new`, on page `id`. -/
def replaceKeyOf (id child : PageId) (new : UInt32) : Edit pageSize Unit := do
  let branch : Branch := { id, page := ← get }
  match ← branch.indexOfChild child with
  | some i => setKey i new
  | none => pure ()

end Branch
end RowStore
