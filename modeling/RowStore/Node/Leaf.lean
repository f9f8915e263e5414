/-
  RowStore/Node/Leaf.lean
  =======================
  **Leaves.**  A leaf holds cells in ascending order of their keys and the page of
  the next leaf to the right, where 0 stands for none.

      header (6) | count (4) | next leaf (4) | cell 0 | … | cell (count - 1) | unused
      cell = key (4) | value (291)

  A `Leaf` is a page that was accepted as a leaf, together with its number, which
  messages need.  Accepting checks the kind and the count, nothing else: keys may
  stand in any order in a damaged file, and links may lead anywhere.  Cells are
  reached through their index, and an index that no leaf can have is a fault.
-/
import RowStore.Node.Header
import RowStore.Bisect

namespace RowStore

/-- A page read as a leaf. -/
structure Leaf where
  id : PageId
  page : Page

namespace Leaf

/-! ## Places -/

/-- Where cell `i` starts. -/
def cellStart (i : Nat) : Nat := headerSize + i * cellSize

/-- Where cell `i` starts, if a leaf can have such a cell. -/
def cellOffset (i : Nat) : Except Failure Nat :=
  if i < maxCells then pure (cellStart i) else crash (.leafCell i)

/-- Every cell ends inside the page. -/
theorem cellStart_add_le {i : Nat} (h : i < maxCells) : cellStart i + cellSize ≤ pageSize := by
  have : i < 13 := h
  change 14 + i * 295 + 295 ≤ 4096
  omega

/-! ## Reading -/

/-- The number of cells that a page claims to hold as a leaf. -/
def countIn (page : Page) : Nat := (page.word countOffset).toNat

/-- Accepts a page as a leaf. -/
def ofPage (id : PageId) (page : Page) : Except Failure Leaf := do
  match ← Header.readKind id page with
  | .branch => refuse (.corrupted (.leafExpected id))
  | .leaf =>
    if countIn page ≤ maxCells then pure { id, page }
    else refuse (.corrupted (.tooManyCells id (countIn page) maxCells))

/-- A page is accepted exactly if its kind and its count are right, and it is not changed. -/
theorem ofPage_eq_ok_iff {id : PageId} {page : Page} {leaf : Leaf} :
    ofPage id page = .ok leaf ↔
      Header.readKind id page = .ok .leaf ∧ countIn page ≤ maxCells ∧ leaf = { id, page } := by
  rw [ofPage]
  cases h : Header.readKind id page with
  | error failure => simp [bind, Except.bind]
  | ok kind =>
    cases kind with
    | branch => simp [bind, Except.bind, refuse, throw, throwThe, MonadExceptOf.throw]
    | leaf =>
      by_cases hc : countIn page ≤ maxCells
      · simp [bind, Except.bind, pure, Except.pure, hc, eq_comm]
      · simp [bind, Except.bind, refuse, throw, throwThe, MonadExceptOf.throw, hc]

def isRoot (leaf : Leaf) : Bool := Header.rootFlag leaf.page

def parent (leaf : Leaf) : PageId := Header.parentOf leaf.page

/-- The number of cells. -/
def count (leaf : Leaf) : Nat := countIn leaf.page

/-- The next leaf to the right. -/
def next (leaf : Leaf) : Option PageId :=
  match leaf.page.word nextOffset with
  | 0 => none
  | number => some ⟨number⟩

/-- The bytes of a cell, key and value. -/
def cell (leaf : Leaf) (i : Nat) : Except Failure (List UInt8) := do
  return leaf.page.slice (← cellOffset i) cellSize

def key (leaf : Leaf) (i : Nat) : Except Failure UInt32 := do
  return leaf.page.word (← cellOffset i)

def value (leaf : Leaf) (i : Nat) : Except Failure (List UInt8) := do
  return leaf.page.slice ((← cellOffset i) + keySize) valueSize

/-- The keys in the order of the cells. -/
def keys (leaf : Leaf) : Except Failure (List UInt32) := (List.range leaf.count).mapM leaf.key

/-- The cells in order, as bytes. -/
def cells (leaf : Leaf) : Except Failure (List (List UInt8)) :=
  (List.range leaf.count).mapM leaf.cell

/-- The key of the last cell. -/
def maxKey (leaf : Leaf) : Except Failure UInt32 :=
  match leaf.count with
  | 0 => refuse (.emptyLeaf leaf.id)
  | last + 1 => leaf.key last

/-- The cell that holds `key`, or else the first one with a greater key, or else the
    place behind the last cell.  That is where `key` belongs. -/
def find (leaf : Leaf) (key : UInt32) : Except Failure Nat :=
  bisect leaf.count fun i => do
    let here ← leaf.key i
    return if key = here then .eq else if key < here then .lt else .gt

/-! ## Writing -/

/-- Makes the page an empty leaf without a next one.  The parent field stays. -/
def init : Edit pageSize Unit := do
  Header.setKind .leaf
  Header.setRoot false
  Edit.writeWord countOffset 0
  Edit.writeWord nextOffset 0

def setCount (count : Nat) : Edit pageSize Unit := do
  if maxCells < count then crash (.leafCount count)
  Edit.writeWord countOffset (UInt32.ofNat count)

def setNext (next : Option PageId) : Edit pageSize Unit :=
  Edit.writeWord nextOffset (next.elim 0 PageId.number)

def setKey (i : Nat) (key : UInt32) : Edit pageSize Unit := do
  Edit.writeWord (← cellOffset i) key

def setValue (i : Nat) (value : List UInt8) : Edit pageSize Unit := do
  Edit.fill ((← cellOffset i) + keySize) valueSize value

/-- Overwrites a whole cell. -/
def setCell (i : Nat) (cell : List UInt8) : Edit pageSize Unit := do
  Edit.fill (← cellOffset i) cellSize cell

/-- Overwrites the first cells. -/
def setCells (cells : List (List UInt8)) : Edit pageSize Unit :=
  cells.zipIdx.forM fun (cell, i) => setCell i cell

/-- Puts a new cell at index `i` of the leaf on page `id`; later cells move up by one.
    The value is written last. -/
def insertCell (id : PageId) (i : Nat) (key : UInt32) (value : List UInt8) :
    Edit pageSize Unit := do
  let count := countIn (← get)
  if maxCells ≤ count then crash (.leafFull id)
  if count < i then crash (.insertPosition i)
  if i < count then
    let start ← cellOffset i
    let stop ← cellOffset count
    Edit.update (·.move start (stop - start) (start + cellSize))
  setCount (count + 1)
  setKey i key
  setValue i value

end Leaf
end RowStore
