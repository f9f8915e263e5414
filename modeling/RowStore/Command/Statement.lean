/-
  RowStore/Command/Statement.lean
  ===============================
  **Statements.**  A line is read as its words.  There are two statements:

      insert <id> <username> <email>
      select

  An id is written in decimal digits, with a sign if one likes.  Ids below zero are
  refused with a reason of their own as long as they fit 64 bits with a sign; all
  other numbers that no id can have are no ids at all.  The id is looked at before
  the texts.
-/
import RowStore.Row
import RowStore.Text.Blank
import RowStore.Tree.Cursor

namespace RowStore

/-- A statement that is ready to run. -/
inductive Statement where
  | insert (row : Row)
  | select
deriving DecidableEq

/-- Why a line is no statement. -/
inductive StatementError where
  | syntaxError
  | negativeId
  | stringTooLong
  | unrecognized (line : String)
deriving DecidableEq

def StatementError.message : StatementError → String
  | .syntaxError => "syntax error, could not parse statement"
  | .negativeId => "id must be positive"
  | .stringTooLong => "string is too long"
  | .unrecognized line => s!"unrecognized keyword at start of '{line}'"

namespace Statement

/-! ## Reading -/

/-- The natural written by at least one decimal digit. -/
def natOfDigits? (digits : List Char) : Option Nat :=
  if digits ≠ [] ∧ digits.all Char.isDigit then
    some (digits.foldl (fun n c => 10 * n + (c.toNat - '0'.toNat)) 0)
  else none

/-- The size of the numeral in a word, and whether a minus stands before it. -/
def signed? (word : String) : Option (Bool × Nat) :=
  match word.toList with
  | '-' :: digits => (natOfDigits? digits).map (true, ·)
  | '+' :: digits => (natOfDigits? digits).map (false, ·)
  | digits => (natOfDigits? digits).map (false, ·)

/-- The greatest size of a negative number of 64 bits. -/
def maxNegative : Nat := 9223372036854775808

/-- The number of different ids. -/
def idCount : Nat := 4294967296

/-- The id that a word names. -/
def parseId (word : String) : Except StatementError UInt32 :=
  match signed? word with
  | none => throw .syntaxError
  | some (minus, n) =>
    if minus ∧ 0 < n then throw (if n ≤ maxNegative then .negativeId else .syntaxError)
    else if n < idCount then pure (UInt32.ofNat n)
    else throw .syntaxError

/-- The row that the words after `insert` name. -/
def parseRow : List String → Except StatementError Row
  | [id, username, email] => do
    let id ← parseId id
    match Row.ofFields? id username email with
    | some row => pure row
    | none => throw .stringTooLong
  | _ => throw .syntaxError

/-- The statement on a line. -/
def parse (line : String) : Except StatementError Statement :=
  match Text.words line with
  | "insert" :: fields => insert <$> parseRow fields
  | ["select"] => pure select
  | _ => throw (.unrecognized (Text.trim line))

/-! ## Running -/

/-- What a statement has done. -/
inductive Outcome where
  | inserted (key : UInt32)
  | rows (rows : List Row)
deriving DecidableEq

/-- All rows, in the order of the leaves. -/
def selectRows : PagerM (List Row) :=
  Tree.scan fun cursor => do Row.decode (← cursor.value)

def run : Statement → PagerM Outcome
  | insert row => do
    Tree.insert row.id (← row.encode)
    return .inserted row.id
  | select => return .rows (← selectRows)

end Statement
end RowStore
