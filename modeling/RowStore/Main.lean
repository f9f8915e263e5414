/-
  RowStore/Main.lean
  ==================
  **The shell as a program.**  It takes the path of the file, reads lines from the
  standard input, answers on the standard output and logs on the standard error.  What
  it answers is decided in `RowStore/Shell/Basic.lean`, at the terminal of
  `RowStore/Shell.lean`; here are only the system calls.
-/
import RowStore.Shell

namespace RowStore.Main

open Shell

/-- The path after `-d` or `--database`.  Asking for more log lines changes nothing that
    this program writes. -/
def databasePath? : List String → Option String
  | "-d" :: path :: _ => some path
  | "--database" :: path :: _ => some path
  | argument :: rest =>
    if argument.startsWith "--database=" then some (argument.drop 11).toString
    else databasePath? rest
  | [] => none

/-- What stands at a path.  Where nothing stands, an empty file is made. -/
def locate (path : String) : IO Location := do
  try
    let _ ← IO.FS.Handle.mk path .append
    return .file (← IO.FS.readBinFile path).data
  catch
    | .noFileOrDirectory .. => return .unreachable
    | .inappropriateType .. => return .directory
    | error => throw error

def say (reply : Reply) : IO Unit := do
  let out ← IO.getStdout
  out.putStr reply.output
  out.flush
  for (level, message) in reply.log do
    IO.eprintln s!"{level} {message}"

/-- Ends the process as a session ends. -/
def leave (ending : Ending) : IO UInt32 := do
  say (console.lastWords ending)
  return ending.exitCode.getD 101

/-- Saves the store and ends the process. -/
def save (path : String) (pager : Pager) : IO UInt32 := do
  let (ending, file) := finish pager
  IO.FS.writeBinFile path ⟨file⟩
  leave ending

/-- Answers lines until the input ends or the session does. -/
partial def converse (path : String) (input : IO.FS.Stream) (pager : Pager) : IO UInt32 := do
  let line ← input.getLine
  if line.isEmpty then
    save path pager
  else
    match console.answer line pager with
    | .ok (reply, .next) pager => do
      say reply
      converse path input pager
    | .ok (reply, .leave) pager => do
      say reply
      save path pager
    | .error failure _ => leave (.failed failure)

/-- Runs a session on the file at a path. -/
def run (path : String) : IO UInt32 := do
  say banner
  match Tree.openAt (← locate path) with
  | .error failure => leave (.failed failure)
  | .ok pager => converse path (← IO.getStdin) pager

end RowStore.Main

def main (arguments : List String) : IO UInt32 := do
  match RowStore.Main.databasePath? arguments with
  | some path => RowStore.Main.run path
  | none =>
    IO.eprintln "error: the following required arguments were not provided: --database <DATABASE>"
    return 2
