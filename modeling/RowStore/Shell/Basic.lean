/-
  RowStore/Shell/Basic.lean
  =========================
  **A session of the shell.**  The shell opens a store, answers line by line, and saves
  the store when it is told to leave or when the input ends.

    * Blank lines are passed over.
    * A line that is no command is answered with a warning, which quotes it.
    * A duplicate key or a full table is reported, and the session goes on.
    * Any other error ends the session, and what it did is not saved.

  What one line does is a step on the pager (`Terminal.answer`); a session is the steps of
  its lines in order, so that a program can run the same steps as the lines come in.

  The lines are typed in an editor, and the warnings and errors go to a log.  Neither is
  part of the shell.  A `Terminal` says what they do with a text, and all steps are given
  one, so that whatever is proved of them holds at every terminal.
-/
import RowStore.Command.Statement
import RowStore.Command.Dot

namespace RowStore.Shell

/-! ## Talking -/

/-- How grave a log line is. -/
inductive Level where
  | warn
  | error
deriving DecidableEq

def Level.text : Level → String
  | .warn => "WARN"
  | .error => "ERROR"

instance : ToString Level := ⟨Level.text⟩

/-- What the shell writes: to the output, and to its log. -/
structure Reply where
  output : String := ""
  log : List (Level × String) := []
deriving DecidableEq

namespace Reply

def print (output : String) : Reply := { output }

instance : Append Reply where
  append a b := { output := a.output ++ b.output, log := a.log ++ b.log }

end Reply

/-- What stands between the shell and who uses it. -/
structure Terminal where
  /-- What the editor hands on of a line that was typed. -/
  edited : String → Except Failure String
  /-- How the log shows a message. -/
  shown : String → String

namespace Terminal

variable (terminal : Terminal)

def warn (message : String) : Reply := { log := [(.warn, terminal.shown message)] }

def error (message : String) : Reply := { log := [(.error, terminal.shown message)] }

end Terminal

/-- What a session starts with. -/
def banner : Reply := .print "QuarryDB v0.1.0\nEnter .exit to quit.\n\n"

/-! ## One line -/

/-- Whether the session goes on after a line. -/
inductive Flow where
  | next
  | leave
deriving DecidableEq

/-- The lines that report what a statement has done. -/
def outcomeText : Statement.Outcome → String
  | .inserted key => s!"Executed. (inserted {key})\n"
  | .rows rows =>
    String.join (rows.map fun row => row.text ++ "\n") ++ s!"Executed. ({rows.length} rows)\n"

/-- A text that ends with a newline. -/
def closeLine (text : String) : String := if text.endsWith "\n" then text else text ++ "\n"

namespace Terminal

variable (terminal : Terminal)

/-- Runs a statement; recoverable errors become replies. -/
def answerStatement (statement : Statement) : PagerM Reply := fun pager =>
  match statement.run pager with
  | .ok outcome pager => .ok (.print (outcomeText outcome)) pager
  | .error failure pager =>
    match failure with
    | .error e =>
      if e.isRecoverable then .ok (terminal.error e.message) pager else .error failure pager
    | _ => .error failure pager

/-- Answers a line that has no blanks around it. -/
def respond (line : String) : PagerM (Reply × Flow) := do
  if line = "" then return ({}, .next)
  if line.startsWith "." then
    match DotCommand.parse line with
    | .error e => return (terminal.warn e.message, .next)
    | .ok command =>
      match ← command.run with
      | .leave => return ({}, .leave)
      | .print text => return (.print (closeLine text), .next)
  else
    match Statement.parse line with
    | .error e => return (terminal.warn e.message, .next)
    | .ok statement => return (← terminal.answerStatement statement, .next)

/-- Answers a line as it comes in. -/
def answer (line : String) : PagerM (Reply × Flow) := do
  terminal.respond (Text.trim (← terminal.edited line))

end Terminal

/-! ## Whole sessions -/

/-- How a session ends. -/
inductive Ending where
  | saved
  | failed (failure : Failure)
deriving DecidableEq

/-- The exit code of the process; a session that never ends has none. -/
def Ending.exitCode : Ending → Option UInt32
  | .saved => some 0
  | .failed (.error _) => some 1
  | .failed (.fault _) => some 101
  | .failed .endless => none

/-- Saves the store at the end of a session. -/
def finish (pager : Pager) : Ending × Image :=
  match Tree.close pager with
  | .ok _ pager => (.saved, pager.file)
  | .error failure pager => (.failed failure, pager.file)

/-- What a session leaves behind. -/
structure Transcript where
  reply : Reply
  ending : Ending
  location : Location

namespace Terminal

variable (terminal : Terminal)

/-- The last words of a session. -/
def lastWords : Ending → Reply
  | .failed (.error e) => terminal.error e.message
  | _ => {}

/-- Answers the lines and then saves the store.  The result holds what was written, how
    it ended, and the file. -/
def converse : List String → Pager → Reply × Ending × Image
  | [], pager => ({}, finish pager)
  | line :: rest, pager =>
    match terminal.answer line pager with
    | .ok (reply, .next) pager =>
      let (replies, ending) := converse rest pager
      (reply ++ replies, ending)
    | .ok (reply, .leave) pager => (reply, finish pager)
    | .error failure pager => ({}, .failed failure, pager.file)

/-- Runs a session on the store at a place. -/
def session (location : Location) (lines : List String) : Transcript :=
  match Tree.openAt location with
  | .error failure =>
    let ending := .failed failure
    { reply := banner ++ terminal.lastWords ending, ending, location }
  | .ok pager =>
    let (replies, ending, file) := terminal.converse lines pager
    { reply := banner ++ replies ++ terminal.lastWords ending, ending, location := .file file }

end Terminal

/-- The lines of an input text; what follows the last newline is a line unless it is
    empty. -/
def linesOf (input : String) : List String :=
  let lines := (input.splitToList (· = '\n'))
  if lines.getLast? = some "" then lines.dropLast else lines

end RowStore.Shell
