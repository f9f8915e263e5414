/-
  RowStore/Text/Visible.lean
  ==========================
  **Messages that a terminal takes for text.**  A message may quote what somebody has
  typed.  The control characters with which a terminal can be steered are written by
  their numbers in it: bell, backspace, form feed, escape and delete with two digits, and
  the controls from 80 to 9F, which older terminals obey, in braces.  Other characters
  stand for themselves.
-/
namespace RowStore.Text

/-- Two hexadecimal digits. -/
def hexPair (n : Nat) : List Char := [Nat.digitChar (n / 16), Nat.digitChar (n % 16)]

/-- A character as a message shows it. -/
def visibleChar (c : Char) : List Char :=
  let n := c.toNat
  if n ∈ [0x07, 0x08, 0x0C, 0x1B, 0x7F] then '\\' :: 'x' :: hexPair n
  else if 0x80 ≤ n ∧ n ≤ 0x9F then '\\' :: 'u' :: '{' :: hexPair n ++ ['}']
  else [c]

/-- A message as it is shown. -/
def visible (message : String) : String := String.ofList (message.toList.flatMap visibleChar)

example : visible "a\x1b[31m\u0085\t" = "a\\x1b[31m\\u\x7b85\x7d\t" := by decide +kernel

end RowStore.Text
