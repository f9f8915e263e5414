/-
  RowStore/Command/Dot.lean
  =========================
  **Dot commands:** lines of the shell that start with a point and speak to the shell
  itself.

      .exit     save and leave
      .btree    show the outline of the tree
      .stats    show the counters of the pager
-/
import RowStore.Text.Blank
import RowStore.Tree.Outline

namespace RowStore

/-- A dot command. -/
inductive DotCommand where
  | exit
  | outline
  | counters
deriving DecidableEq

/-- Why a line is no dot command. -/
inductive DotError where
  | unrecognized (line : String)
deriving DecidableEq

def DotError.message : DotError → String
  | .unrecognized line => s!"unrecognized command '{line}'"

namespace DotCommand

/-- The dot command on a line. -/
def parse (line : String) : Except DotError DotCommand :=
  match Text.trim line with
  | ".exit" => pure exit
  | ".btree" => pure outline
  | ".stats" => pure counters
  | other => throw (.unrecognized other)

/-- What a dot command asks of the shell. -/
inductive Outcome where
  | leave
  | print (text : String)
deriving DecidableEq

/-- The counters of a pager and the pages it has left. -/
def countersText (pager : Pager) : String :=
  pager.counters.text ++ s!"\npages: {pager.numPages} used, {pager.freePages} free"

def run : DotCommand → PagerM Outcome
  | exit => return .leave
  | outline => return .print (← Tree.outlineText)
  | counters => return .print (countersText (← get))

end DotCommand
end RowStore
