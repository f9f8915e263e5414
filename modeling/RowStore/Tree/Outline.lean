/-
  RowStore/Tree/Outline.lean
  ==========================
  **The outline of a tree,** one line per node, key and separator, from left to right
  and indented by level:

      - internal (size 1)
        - leaf (size 7)
          - 1
          …
        - key 7
        - leaf (size 7)
          …

  The outline is a list of lines with a meaning; their text is made at the end.

  Memory is taken as unbounded.  The guard against cycles bounds the levels, and not how often
  a page is come to: in a damaged file all four children of a branch may be the same page.
  Ninety-nine such branches, each above the next one, lead to the last page in 4^99 ways, and
  the outline has lines for each of them.
-/
import RowStore.Tree.Search

namespace RowStore

/-- A line of an outline, with the level of the node that it belongs to. -/
inductive OutlineLine where
  | leaf (level size : Nat)
  | cell (level : Nat) (key : UInt32)
  | branch (level size : Nat)
  | separator (level : Nat) (key : UInt32)
deriving DecidableEq

/-- Two blanks for each level. -/
def OutlineLine.indent (level : Nat) : String := String.ofList (List.replicate (2 * level) ' ')

def OutlineLine.text : OutlineLine → String
  | .leaf level size => indent level ++ s!"- leaf (size {size})"
  | .cell level key => indent (level + 1) ++ s!"- {key}"
  | .branch level size => indent level ++ s!"- internal (size {size})"
  | .separator level key => indent (level + 1) ++ s!"- key {key}"

namespace Tree

/-- The children of a branch but the right one, each followed by its separator.  `below`
    gives the lines of a child. -/
def outlineCells (below : PageId → PagerM (List OutlineLine)) (level : Nat) :
    List (PageId × UInt32) → PagerM (List OutlineLine)
  | [] => return []
  | (child, key) :: rest => do
    let lines ← below child
    return lines ++ .separator level key :: (← outlineCells below level rest)

/-- The lines of the node on a page that stands on level `level`; `levels` more may
    follow. -/
def outlineBelow : (levels level : Nat) → PageId → PagerM (List OutlineLine)
  | 0, _, id => refuse (.corrupted (.tooDeep id))
  | levels + 1, level, id => do
    match ← node id with
    | .leaf leaf => return .leaf level leaf.count :: (← leaf.keys).map (.cell level)
    | .branch branch =>
      let children ← branch.children
      let keys ← branch.keys
      let below := outlineBelow levels (level + 1)
      let lines ← outlineCells below level (children.zip keys)
      let right ← match children.getLast? with
        | some right => below right
        | none => pure []
      return .branch level branch.count :: lines ++ right

/-- The lines of the whole tree. -/
def outline : PagerM (List OutlineLine) := outlineBelow (maxPages + 1) 0 PageId.root

/-- The outline as text; every line ends with a newline.  It is as long as it has to be, whether
    or not there is memory for it. -/
def outlineText : PagerM String := do
  return String.join ((← outline).map fun line => line.text ++ "\n")

end Tree
end RowStore
