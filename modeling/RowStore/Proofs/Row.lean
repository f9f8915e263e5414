/-
  RowStore/Proofs/Row.lean
  ========================
  **Rows come back from their bytes.**  A row whose texts fit has bytes of the fixed size,
  and decoding them gives the row again, with each text cut at its first NUL.
-/
import RowStore.Proofs.Run
import RowStore.Proofs.Text.Utf8
import RowStore.Row

namespace RowStore.Row

variable {row : Row} {width : Nat} {text : String}

/-- The row with each text cut at its first NUL. -/
def cut (row : Row) : Row :=
  { row with username := Utf8.beforeNul row.username, email := Utf8.beforeNul row.email }

/-! ## Columns -/

/-- The bytes of a text that fits its column. -/
def columnBytes (width : Nat) (text : String) : List UInt8 :=
  Utf8.encode text ++ List.replicate (width - (Utf8.encode text).length) 0

theorem length_columnBytes (h : text.utf8ByteSize ≤ width) :
    (columnBytes width text).length = width := by
  rw [← Utf8.length_encode] at h
  rw [columnBytes, List.length_append, List.length_replicate]
  omega

theorem encodeColumn_eq (h : text.utf8ByteSize ≤ width) :
    encodeColumn width text = .ok (columnBytes width text) := by
  rw [← Utf8.length_encode] at h
  rw [encodeColumn, if_pos h, columnBytes]
  rfl

theorem decodeColumn_columnBytes (width : Nat) (text : String) :
    decodeColumn (columnBytes width text) = .ok (Utf8.beforeNul text) := by
  rw [decodeColumn, columnBytes, Utf8.takeWhile_encode, Utf8.decode_encode]
  rfl

/-! ## Rows -/

theorem fits_iff : row.fits = true ↔
    row.username.utf8ByteSize ≤ usernameSize ∧ row.email.utf8ByteSize ≤ emailSize := by
  rw [fits, Bool.and_eq_true, decide_eq_true_eq, decide_eq_true_eq]

/-- The bytes of a row whose texts fit. -/
def bytes (row : Row) : List UInt8 :=
  Word.toBytes row.id ++ columnBytes usernameSize row.username ++ columnBytes emailSize row.email

theorem encode_eq (h : row.fits = true) : row.encode = .ok row.bytes := by
  obtain ⟨husername, hemail⟩ := fits_iff.mp h
  rw [encode, encodeColumn_eq husername, encodeColumn_eq hemail]
  rfl

theorem length_bytes (h : row.fits = true) : row.bytes.length = size :=
  length_encode (encode_eq h)

/-- A row comes back from its bytes, with each text cut at its first NUL. -/
theorem decode_bytes (h : row.fits = true) : decode row.bytes = .ok row.cut := by
  obtain ⟨husername, hemail⟩ := fits_iff.mp h
  have husername := length_columnBytes husername
  have hemail := length_columnBytes hemail
  have hword : (Word.toBytes row.id).length = usernameOffset := Word.length_toBytes _
  have hfront : (Word.toBytes row.id ++ columnBytes usernameSize row.username).length =
      emailOffset := by
    rw [List.length_append, hword, husername]
  have hfirst : (row.bytes.drop usernameOffset).take usernameSize =
      columnBytes usernameSize row.username := by
    rw [bytes, List.append_assoc, List.drop_left' hword, List.take_left' husername]
  have hsecond : (row.bytes.drop emailOffset).take emailSize =
      columnBytes emailSize row.email := by
    rw [bytes, List.drop_left' hfront, List.take_of_length_le (Nat.le_of_eq hemail)]
  have hid : decodeId row.bytes = row.id := Word.ofBytes_toBytes row.id
  rw [decode, if_neg (not_not_intro (length_bytes h)), hfirst, hsecond, decodeColumn_columnBytes,
    decodeColumn_columnBytes, hid]
  rfl

/-- A row without NUL is not cut. -/
theorem cut_of_not_mem (husername : '\x00' ∉ row.username.toList)
    (hemail : '\x00' ∉ row.email.toList) : row.cut = row := by
  rw [cut, Utf8.beforeNul_of_not_mem husername, Utf8.beforeNul_of_not_mem hemail]

end RowStore.Row
