/-
  RowStore/Text/Blank.lean
  ========================
  **Blanks and words.**  A blank is a character with the Unicode property
  `White_Space`.  A line of input is read as its words, the maximal stretches
  without blanks, and quoted in messages without the blanks around it.
-/
namespace RowStore.Text

/-- The characters with the property `White_Space`. -/
def isBlank (c : Char) : Bool :=
  let n := c.toNat
  (0x09 ≤ n && n ≤ 0x0D) || n == 0x20 || n == 0x85 || n == 0xA0 || n == 0x1680 ||
    (0x2000 ≤ n && n ≤ 0x200A) || n == 0x2028 || n == 0x2029 || n == 0x202F || n == 0x205F ||
    n == 0x3000

/-- Puts a word in front of others, unless it is empty. -/
def consWord (word : List Char) (others : List (List Char)) : List (List Char) :=
  if word = [] then others else word :: others

/-- The characters before the first blank, and the words after it. -/
def splitWords : List Char → List Char × List (List Char)
  | [] => ([], [])
  | c :: rest =>
    let (word, others) := splitWords rest
    if isBlank c then ([], consWord word others) else (c :: word, others)

/-- The words of a line, in order. -/
def words (line : String) : List String :=
  let (word, others) := splitWords line.toList
  (consWord word others).map String.ofList

/-- A line without the blanks around it. -/
def trim (line : String) : String :=
  String.ofList
    (((line.toList.dropWhile isBlank).reverse.dropWhile isBlank).reverse)

example : words " insert  1\ta b " = ["insert", "1", "a", "b"] := by decide
example : trim "\t a b\n" = "a b" := by decide

end RowStore.Text
