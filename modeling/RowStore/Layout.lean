/-
  RowStore/Layout.lean
  ====================
  **The fixed sizes of the store.**  A store is one file of equally sized pages.
  Each page is a node of a search tree: a *leaf* holds cells of a key and a row,
  a *branch* holds cells of a child page and the separator key that bounds it.

      page    | header (6) | count (4) | link (4) | cells …            | 4096
      leaf    link = next leaf,      cell = key (4) + row (291)
      branch  link = right child,    cell = child (4) + separator (4)
      row     id (4) | username (32) | email (255)

  All positions are counted from the start of the page, the header, the cell or
  the row they belong to.
-/
namespace RowStore

/-- Bytes in a page. -/
abbrev pageSize : Nat := 4096

/-- Pages in a full store. -/
abbrev maxPages : Nat := 100

/-- Bytes in the file of a full store. -/
abbrev maxFileSize : Nat := maxPages * pageSize

/-! ## Rows -/

namespace Row

abbrev idSize : Nat := 4
abbrev usernameSize : Nat := 32
abbrev emailSize : Nat := 255

abbrev idOffset : Nat := 0
abbrev usernameOffset : Nat := idOffset + idSize
abbrev emailOffset : Nat := usernameOffset + usernameSize

/-- Bytes in an encoded row. -/
abbrev size : Nat := idSize + usernameSize + emailSize

end Row

/-! ## Nodes -/

namespace Header

abbrev kindOffset : Nat := 0
abbrev rootOffset : Nat := 1
abbrev parentOffset : Nat := 2

/-- Bytes that every node starts with. -/
abbrev size : Nat := 6

end Header

namespace Leaf

abbrev countOffset : Nat := Header.size
abbrev nextOffset : Nat := countOffset + 4
abbrev headerSize : Nat := Header.size + 4 + 4
abbrev keySize : Nat := 4
abbrev valueSize : Nat := Row.size
abbrev cellSize : Nat := keySize + valueSize
abbrev spaceForCells : Nat := pageSize - headerSize

/-- Cells in a full leaf. -/
abbrev maxCells : Nat := spaceForCells / cellSize

/-- Cells of the upper half when a full leaf and one new cell are shared out. -/
abbrev upperHalf : Nat := (maxCells + 1) / 2

/-- Cells of the lower half when a full leaf and one new cell are shared out. -/
abbrev lowerHalf : Nat := maxCells + 1 - upperHalf

end Leaf

namespace Branch

abbrev countOffset : Nat := Header.size
abbrev rightOffset : Nat := countOffset + 4
abbrev headerSize : Nat := Header.size + 4 + 4
abbrev childSize : Nat := 4
abbrev keySize : Nat := 4
abbrev cellSize : Nat := childSize + keySize

/-- Separators in a full branch, which then has one child more. -/
abbrev maxKeys : Nat := 3

end Branch

/-! ## The numbers that follow -/

example : Row.size = 291 ∧ Leaf.cellSize = 295 ∧ Leaf.maxCells = 13 := by decide
example : Leaf.lowerHalf = 7 ∧ Leaf.upperHalf = 7 := by decide

/-- A full leaf fits its page. -/
theorem Leaf.cells_fit : Leaf.headerSize + Leaf.maxCells * Leaf.cellSize ≤ pageSize := by decide

/-- A full branch fits its page. -/
theorem Branch.cells_fit : Branch.headerSize + Branch.maxKeys * Branch.cellSize ≤ pageSize := by
  decide

end RowStore
