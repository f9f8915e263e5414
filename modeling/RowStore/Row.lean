/-
  RowStore/Row.lean
  =================
  **Rows and their bytes.**  A row has an id and two texts.  Encoded it always has the
  same size: the id as a word, then each text in a column of fixed width, padded with
  zero bytes.

      id (4) | username (32) | email (255)

  A text that fills its column has no zero behind it.  Reading a column stops at the
  first zero byte, so a text with the character NUL comes back cut.
-/
import RowStore.Edit
import RowStore.Text.Utf8

namespace RowStore

/-- A record of the store. -/
structure Row where
  id : UInt32
  username : String
  email : String
deriving DecidableEq

namespace Row

/-- Whether both texts fit their columns. -/
def fits (row : Row) : Bool :=
  row.username.utf8ByteSize ≤ usernameSize && row.email.utf8ByteSize ≤ emailSize

/-- The row with the given fields, if they fit. -/
def ofFields? (id : UInt32) (username email : String) : Option Row :=
  let row : Row := { id, username, email }
  if row.fits then some row else none

/-- How rows are shown. -/
def text (row : Row) : String := s!"({row.id}, {row.username}, {row.email})"

/-! ## Encoding -/

/-- The bytes of a column, or a fault if the text is too long for it. -/
def encodeColumn (width : Nat) (text : String) : Except Failure (List UInt8) :=
  let bytes := Utf8.encode text
  if bytes.length ≤ width then pure (bytes ++ List.replicate (width - bytes.length) 0)
  else crash .bounds

/-- The bytes of a row. -/
def encode (row : Row) : Except Failure (List UInt8) := do
  return Word.toBytes row.id ++ (← encodeColumn usernameSize row.username) ++
    (← encodeColumn emailSize row.email)

/-! ## Decoding -/

/-- The text of a column: its bytes before the first zero. -/
def decodeColumn (column : List UInt8) : Except Failure String :=
  match Utf8.decode (column.takeWhile (· ≠ 0)) with
  | .ok text => pure text
  | .error defect => refuse (.corrupted (.columnText defect))

/-- The word in the first four bytes. -/
def decodeId : List UInt8 → UInt32
  | a :: b :: c :: d :: _ => Word.ofBytes a b c d
  | _ => 0

/-- The row with the given bytes. -/
def decode (bytes : List UInt8) : Except Failure Row := do
  if bytes.length ≠ size then refuse (.valueSizeMismatch size bytes.length)
  let username ← decodeColumn ((bytes.drop usernameOffset).take usernameSize)
  let email ← decodeColumn ((bytes.drop emailOffset).take emailSize)
  return { id := decodeId bytes, username, email }

/-- An encoded row always has the same size. -/
theorem length_encode {row : Row} {bytes : List UInt8} (h : row.encode = .ok bytes) :
    bytes.length = size := by
  have column {width : Nat} {text : String} {b : List UInt8}
      (hb : encodeColumn width text = .ok b) : b.length = width := by
    simp only [encodeColumn] at hb
    split at hb
    · cases hb
      simp only [List.length_append, List.length_replicate]
      omega
    · cases hb
  rw [encode] at h
  cases hu : encodeColumn usernameSize row.username with
  | error f => simp [hu, bind, Except.bind] at h
  | ok u =>
    cases he : encodeColumn emailSize row.email with
    | error f => simp [hu, he, bind, Except.bind] at h
    | ok e =>
      simp only [hu, he, bind, Except.bind, pure, Except.pure, Except.ok.injEq] at h
      rw [← h, List.length_append, List.length_append, column hu, column he, Word.length_toBytes]

end Row
end RowStore
