/-
  RowStore/Shell.lean
  ===================
  **The console of the shell.**  Backspaces in a line are obeyed before the shell sees it,
  and what the log quotes of a line is written so that a screen takes it for text.
-/
import RowStore.Shell.Basic
import RowStore.Text.Backspace
import RowStore.Text.Visible

namespace RowStore.Shell

/-- A line as its writer left it. -/
def finished (line : String) : Except Failure String :=
  match Text.applyBackspaces line with
  | some line => .ok line
  | none => crash .bounds

/-- The editor and the log that the program has. -/
def console : Terminal := { edited := finished, shown := Text.visible }

/-- A line without backspaces comes in as it is. -/
theorem console_edited {line : String} (h : Text.backspace ∉ line.toList) :
    console.edited line = .ok line := by
  change finished line = .ok line
  rw [finished, Text.applyBackspaces_of_not_mem h]

/-- Runs a session on the store at a place, at the console. -/
def session (location : Location) (lines : List String) : Transcript :=
  console.session location lines

end RowStore.Shell
