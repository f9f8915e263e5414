/-
  RowStore/Tree/Cursor.lean
  =========================
  **Cursors and scans.**  A cursor is a place in the row of leaves: a leaf, a cell of
  it, and whether the cursor has left the last cell of the last leaf.  It holds no
  page, so reading through it is a step on the pager like any other.

  A `Scan` keeps a cursor and its pager together, for callers that move the cursor
  step by step and look at it in between, also after a failed step.

  The leaves of a damaged file may be chained into a circle, and a scan along it does
  not end.  There are only so many different places, and a scan that has left more of
  them than there are is on such a circle; it is reported as endless.
-/
import RowStore.Tree.Insert

namespace RowStore

/-- A place in the row of leaves. -/
structure Cursor where
  page : PageId
  cell : Nat
  atEnd : Bool
deriving DecidableEq

namespace Cursor

/-- The key under the cursor, or none behind the last cell of the leaf. -/
def key (cursor : Cursor) : PagerM (Option UInt32) := do
  let leaf ← Tree.leaf cursor.page
  if cursor.cell < leaf.count then return some (← leaf.key cursor.cell) else return none

/-- The value under the cursor. -/
def value (cursor : Cursor) : PagerM (List UInt8) := do
  let leaf ← Tree.leaf cursor.page
  if leaf.count ≤ cursor.cell then
    refuse (.cellOutOfRange cursor.page cursor.cell leaf.count)
  leaf.value cursor.cell

/-- The cursor one cell further in the same leaf; at the end it stays. -/
def stepped (cursor : Cursor) : Cursor :=
  if cursor.atEnd then cursor else { cursor with cell := cursor.cell + 1 }

/-- The cursor at the next cell, in the next leaf if this one has no more cells. -/
def advance (cursor : Cursor) : PagerM Cursor := do
  if cursor.atEnd then return cursor
  let moved := cursor.stepped
  let leaf ← Tree.leaf moved.page
  if moved.cell < leaf.count then return moved
  match leaf.next with
  | none => return { moved with atEnd := true }
  | some next => return { moved with page := next, cell := 0 }

/-- Puts a key at the cursor, see `Tree.insertAt`. -/
def insert (cursor : Cursor) (key : UInt32) (value : List UInt8) : PagerM Unit :=
  Tree.insertAt cursor.page cursor.cell key value

end Cursor

namespace Tree

/-- A cursor at the place of a key. -/
def findKey (key : UInt32) : PagerM Cursor := do
  let (page, cell) ← find key
  return { page, cell, atEnd := false }

/-- A cursor at the smallest key. -/
def start : PagerM Cursor := do
  let (page, cell) ← find 0
  return { page, cell, atEnd := (← leaf page).count = 0 }

/-- The value of a key, if it is there. -/
def get (key : UInt32) : PagerM (Option (List UInt8)) := do
  let cursor ← findKey key
  if (← cursor.key) = some key then return some (← cursor.value) else return none

/-- Adds a new key.  A key that is there already is refused. -/
def insert (key : UInt32) (value : List UInt8) : PagerM Unit := do
  let cursor ← findKey key
  if (← cursor.key) = some key then refuse (.duplicateKey key)
  cursor.insert key value

/-! ## Scanning all cells -/

/-- The number of different places that a cursor can be at. -/
def maxPlaces : Nat := maxPages * (Leaf.maxCells + 1)

/-- What `visit` gives at each place from a cursor on, for at most `places` of them. -/
def scanWithin {α : Type} (visit : Cursor → PagerM α) : (places : Nat) → Cursor → PagerM (List α)
  | 0, cursor => if cursor.atEnd then return [] else throw .endless
  | places + 1, cursor => do
    if cursor.atEnd then return []
    let here ← visit cursor
    return here :: (← scanWithin visit places (← cursor.advance))

/-- What `visit` gives at each place from the smallest key to the end. -/
def scan {α : Type} (visit : Cursor → PagerM α) : PagerM (List α) := do
  scanWithin visit maxPlaces (← start)

/-- All keys, in the order of the leaves. -/
def keys : PagerM (List UInt32) := do
  return (← scan Cursor.key).filterMap id

end Tree

/-! ## Scans that keep their cursor -/

/-- A pager and a cursor into it. -/
structure Scan where
  cursor : Cursor
  pager : Pager

/-- A step on a scan. -/
abbrev ScanM := EStateM Failure Scan

namespace ScanM

/-- A step on the pager, seen from the cursor. -/
def look {α : Type} (visit : Cursor → PagerM α) : ScanM α := fun scan =>
  match visit scan.cursor scan.pager with
  | .ok a pager => .ok a { scan with pager }
  | .error failure pager => .error failure { scan with pager }

/-- Moves the cursor on.  If the leaf cannot be read, the cursor has left its cell all
    the same. -/
def advance : ScanM Unit := fun scan =>
  match scan.cursor.advance scan.pager with
  | .ok cursor pager => .ok () { cursor, pager }
  | .error failure pager => .error failure { cursor := scan.cursor.stepped, pager }

/-- Visits at most `n` places, with the page, the cell and the key of each, and moves on. -/
def walk : Nat → ScanM (List (PageId × Nat × Option UInt32))
  | 0 => return []
  | n + 1 => do
    let cursor := (← get).cursor
    if cursor.atEnd then return []
    let key ← look Cursor.key
    advance
    return (cursor.page, cursor.cell, key) :: (← walk n)

end ScanM
end RowStore
