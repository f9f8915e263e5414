/-
  RowStore/Proofs/Columns.lean
  ============================
  **Rows, column by column.**  A column holds a text and zeros behind it, and the text is
  read up to the first zero.  So there is one thing that a row can lose: a text with NUL in it
  fits its column like any other, is stored with all its bytes, and comes back cut.

  The other way round, all strings of the right size are read in the same way, whoever wrote
  them.  What stands in a column behind the first zero is not looked at.  Without it, that is
  with zeros in its place, the bytes are those that the row is stored as: its *canonical*
  bytes.
-/
import Mathlib.Data.Nat.Digits.Defs
import RowStore.Proofs.Node.Reading
import RowStore.Proofs.Row
import RowStore.Proofs.Text.Valid

namespace RowStore

/-! ## NUL -/

namespace Utf8

theorem zero_mem_encode_iff {s : String} : 0 ∈ encode s ↔ '\x00' ∈ s.toList := by
  rw [encode, List.mem_flatMap]
  constructor
  · rintro ⟨c, hc, hzero⟩
    by_cases hnul : c = '\x00'
    · exact hnul ▸ hc
    · exact absurd rfl (ne_zero_of_mem hnul hzero)
  · intro h
    exact ⟨'\x00', h, List.mem_singleton.mpr rfl⟩

theorem notMem_of_beforeNul {s : String} (h : beforeNul s = s) : '\x00' ∉ s.toList := by
  intro hnul
  rw [← h, beforeNul, String.toList_ofList] at hnul
  have hne := List.mem_takeWhile_imp hnul
  exact of_decide_eq_true hne rfl

end Utf8

namespace Row

variable {row : Row} {bytes column : List UInt8} {text : String} {width : Nat}

/-! ## Accepted rows -/

theorem ofFields?_eq_some {id : UInt32} {username email : String}
    (h : ofFields? id username email = some row) :
    row.fits = true ∧ row = ⟨id, username, email⟩ := by
  simp only [ofFields?] at h
  split_ifs at h with hfits
  cases h
  exact ⟨hfits, rfl⟩

theorem ofFields?_of_fits (h : row.fits = true) :
    ofFields? row.id row.username row.email = some row := if_pos h

theorem cut_eq_self_iff :
    row.cut = row ↔ '\x00' ∉ row.username.toList ∧ '\x00' ∉ row.email.toList := by
  constructor
  · intro h
    exact ⟨Utf8.notMem_of_beforeNul (congrArg Row.username h),
      Utf8.notMem_of_beforeNul (congrArg Row.email h)⟩
  · rintro ⟨husername, hemail⟩
    exact cut_of_not_mem husername hemail

/-- **An accepted row comes back from its bytes just if there is no NUL in its texts.**  It is
    always stored, and always read as the row with each text cut at its first NUL. -/
theorem accepted_row_comes_back_cut {id : UInt32} {username email : String}
    (h : ofFields? id username email = some row) :
    row = ⟨id, username, email⟩ ∧ ∃ bytes, row.encode = .ok bytes ∧ bytes.length = size ∧
      decode bytes = .ok row.cut ∧
      (decode bytes = .ok row ↔ '\x00' ∉ username.toList ∧ '\x00' ∉ email.toList) := by
  obtain ⟨hfits, rfl⟩ := ofFields?_eq_some h
  have hdecode := decode_bytes hfits
  refine ⟨rfl, _, encode_eq hfits, length_bytes hfits, hdecode, ?_⟩
  rw [hdecode, Except.ok.injEq, cut_eq_self_iff]

/-- A row with NUL in its first text loses the rest of that text. -/
theorem accepted_row_comes_back_cut_nul : ∃ bytes,
    ofFields? 7 "a\x00b" "c" = some ⟨7, "a\x00b", "c"⟩ ∧
    encode ⟨7, "a\x00b", "c"⟩ = .ok bytes ∧ decode bytes = .ok ⟨7, "a", "c"⟩ ∧
    decode bytes ≠ .ok ⟨7, "a\x00b", "c"⟩ := by
  have haccepted : ofFields? 7 "a\x00b" "c" = some ⟨7, "a\x00b", "c"⟩ := by decide
  obtain ⟨-, bytes, hencode, -, hcut, hself⟩ := accepted_row_comes_back_cut haccepted
  refine ⟨bytes, haccepted, hencode, hcut, fun h => ?_⟩
  exact (hself.mp h).1 (by decide)

/-! ## Columns -/

/-- The bytes of a column before its first zero. -/
def textBytes (column : List UInt8) : List UInt8 := column.takeWhile (· ≠ 0)

/-- The bytes before the first zero are those of a text. -/
def HoldsText (column : List UInt8) : Prop := (textBytes column).toByteArray.IsValidUTF8

/-- The column with zeros for all that stands behind its first zero. -/
def cleared (column : List UInt8) : List UInt8 :=
  textBytes column ++ List.replicate (column.length - (textBytes column).length) 0

theorem length_textBytes_le (column : List UInt8) : (textBytes column).length ≤ column.length :=
  (List.takeWhile_sublist _).length_le

theorem zero_notMem_textBytes (column : List UInt8) : 0 ∉ textBytes column := by
  intro h
  have hne := List.mem_takeWhile_imp h
  exact of_decide_eq_true hne rfl

theorem HoldsText.exists_encode (h : HoldsText column) :
    ∃ text, Utf8.encode text = textBytes column := Utf8.isValidUTF8_iff.mp h

theorem decodeColumn_of_encode (h : Utf8.encode text = textBytes column) :
    decodeColumn column = .ok text := by
  have hdecode := Utf8.decode_eq_ok_iff.mpr h
  rw [textBytes] at hdecode
  rw [decodeColumn, hdecode]
  rfl

theorem exists_decodeColumn_error (h : ¬HoldsText column) :
    ∃ defect, decodeColumn column = .error (.error (.corrupted (.columnText defect))) := by
  obtain ⟨defect, hdecode⟩ := Utf8.exists_decode_error h
  rw [textBytes] at hdecode
  refine ⟨defect, ?_⟩
  rw [decodeColumn, hdecode]
  rfl

/-- A text that a column was read as fills it up to the first zero. -/
theorem columnBytes_eq_cleared (h : Utf8.encode text = textBytes column)
    (hlength : column.length = width) : columnBytes width text = cleared column := by
  rw [columnBytes, cleared, h, hlength]

theorem utf8ByteSize_le (h : Utf8.encode text = textBytes column)
    (hlength : column.length = width) : text.utf8ByteSize ≤ width := by
  rw [← Utf8.length_encode, h, ← hlength]
  exact length_textBytes_le column

theorem nul_notMem (h : Utf8.encode text = textBytes column) : '\x00' ∉ text.toList := by
  rw [← Utf8.zero_mem_encode_iff, h]
  exact zero_notMem_textBytes column

/-! ## Bytes of the right size -/

def usernameColumn (bytes : List UInt8) : List UInt8 :=
  (bytes.drop usernameOffset).take usernameSize

def emailColumn (bytes : List UInt8) : List UInt8 := (bytes.drop emailOffset).take emailSize

/-- The bytes with both columns cleared behind their texts. -/
def canonical (bytes : List UInt8) : List UInt8 :=
  bytes.take idSize ++ cleared (usernameColumn bytes) ++ cleared (emailColumn bytes)

section Sized

variable (hsize : bytes.length = size)

include hsize

theorem length_usernameColumn : (usernameColumn bytes).length = usernameSize := by
  rw [usernameColumn, List.length_take, List.length_drop, hsize]
  rfl

theorem length_emailColumn : (emailColumn bytes).length = emailSize := by
  rw [emailColumn, List.length_take, List.length_drop, hsize]
  rfl

theorem exists_id_bytes : ∃ a b c d rest, bytes = a :: b :: c :: d :: rest := by
  match bytes, hsize with
  | a :: b :: c :: d :: rest, _ => exact ⟨a, b, c, d, rest, rfl⟩

theorem toBytes_decodeId : Word.toBytes (decodeId bytes) = bytes.take idSize := by
  obtain ⟨a, b, c, d, rest, rfl⟩ := exists_id_bytes hsize
  exact RowStore.toBytes_ofBytes a b c d

/-- The first byte of an id counts least. -/
theorem toNat_decodeId :
    (decodeId bytes).toNat = Nat.ofDigits 256 ((bytes.take idSize).map UInt8.toNat) := by
  obtain ⟨a, b, c, d, rest, rfl⟩ := exists_id_bytes hsize
  have ha := a.toNat_lt
  have hb := b.toNat_lt
  have hc := c.toNat_lt
  have hd := d.toNat_lt
  simp only [decodeId, Word.ofBytes, UInt32.toNat_ofNat', idSize, List.take_succ_cons,
    List.take_zero, List.map_cons, List.map_nil, Nat.ofDigits_cons, Nat.ofDigits_nil]
  omega

theorem decode_of_length : decode bytes = do
    let username ← decodeColumn (usernameColumn bytes)
    let email ← decodeColumn (emailColumn bytes)
    return { id := decodeId bytes, username, email } := by
  rw [decode, if_neg (not_not_intro hsize)]
  rfl

theorem decode_of_encode {username email : String}
    (husername : Utf8.encode username = textBytes (usernameColumn bytes))
    (hemail : Utf8.encode email = textBytes (emailColumn bytes)) :
    decode bytes = .ok { id := decodeId bytes, username, email } := by
  rw [decode_of_length hsize, decodeColumn_of_encode husername, decodeColumn_of_encode hemail]
  rfl

theorem exists_decode_ok (hfirst : HoldsText (usernameColumn bytes))
    (hsecond : HoldsText (emailColumn bytes)) : ∃ row, decode bytes = .ok row ∧
      row.id = decodeId bytes ∧ Utf8.encode row.username = textBytes (usernameColumn bytes) ∧
      Utf8.encode row.email = textBytes (emailColumn bytes) := by
  obtain ⟨username, husername⟩ := hfirst.exists_encode
  obtain ⟨email, hemail⟩ := hsecond.exists_encode
  exact ⟨_, decode_of_encode hsize husername hemail, rfl, husername, hemail⟩

/-- A column without a text is reported, the first one if both are. -/
theorem exists_decode_error
    (h : ¬HoldsText (usernameColumn bytes) ∨ ¬HoldsText (emailColumn bytes)) :
    ∃ defect, decode bytes = .error (.error (.corrupted (.columnText defect))) := by
  rw [decode_of_length hsize]
  by_cases hfirst : HoldsText (usernameColumn bytes)
  · obtain ⟨username, husername⟩ := hfirst.exists_encode
    obtain ⟨defect, hemail⟩ := exists_decodeColumn_error (h.resolve_left (not_not_intro hfirst))
    rw [decodeColumn_of_encode husername, hemail]
    exact ⟨defect, rfl⟩
  · obtain ⟨defect, husername⟩ := exists_decodeColumn_error hfirst
    rw [husername]
    exact ⟨defect, rfl⟩

/-- A row that has the id and the texts of a string is stored as its canonical bytes. -/
theorem bytes_eq_canonical (hid : row.id = decodeId bytes)
    (husername : Utf8.encode row.username = textBytes (usernameColumn bytes))
    (hemail : Utf8.encode row.email = textBytes (emailColumn bytes)) :
    row.bytes = canonical bytes := by
  rw [Row.bytes, canonical, hid, toBytes_decodeId hsize,
    columnBytes_eq_cleared husername (length_usernameColumn hsize),
    columnBytes_eq_cleared hemail (length_emailColumn hsize)]

end Sized

/-- **Every string is read in one way.**  It is refused if it has the wrong size, and else if one
    of its columns does not begin with a text.  Otherwise it is read as the row of its id and of
    these two texts.  That row is accepted like one that was typed in, it is stored as the
    canonical bytes, and it comes back from them. -/
theorem decode_by_columns (bytes : List UInt8) :
    (decode bytes = .error (.error (.valueSizeMismatch size bytes.length)) ↔
      bytes.length ≠ size) ∧
    (bytes.length = size →
      ((∃ defect, decode bytes = .error (.error (.corrupted (.columnText defect)))) ↔
        ¬HoldsText (usernameColumn bytes) ∨ ¬HoldsText (emailColumn bytes)) ∧
      (HoldsText (usernameColumn bytes) → HoldsText (emailColumn bytes) → ∃ row,
        decode bytes = .ok row ∧
        row.id.toNat = Nat.ofDigits 256 ((bytes.take idSize).map UInt8.toNat) ∧
        Utf8.encode row.username = textBytes (usernameColumn bytes) ∧
        Utf8.encode row.email = textBytes (emailColumn bytes) ∧
        ofFields? row.id row.username row.email = some row ∧
        row.encode = .ok (canonical bytes) ∧ decode (canonical bytes) = .ok row)) := by
  by_cases hsize : bytes.length = size
  · refine ⟨⟨fun h => ?_, fun h => absurd hsize h⟩, fun _ => ⟨⟨fun h => ?_, ?_⟩, ?_⟩⟩
    · by_cases htexts : HoldsText (usernameColumn bytes) ∧ HoldsText (emailColumn bytes)
      · obtain ⟨row, hdecode, -⟩ := exists_decode_ok hsize htexts.1 htexts.2
        cases hdecode.symm.trans h
      · obtain ⟨defect, hdecode⟩ := exists_decode_error hsize (not_and_or.mp htexts)
        cases hdecode.symm.trans h
    · obtain ⟨defect, h⟩ := h
      by_contra htexts
      rw [not_or, not_not, not_not] at htexts
      obtain ⟨row, hdecode, -⟩ := exists_decode_ok hsize htexts.1 htexts.2
      cases hdecode.symm.trans h
    · exact exists_decode_error hsize
    · intro hfirst hsecond
      obtain ⟨row, hdecode, hid, husername, hemail⟩ := exists_decode_ok hsize hfirst hsecond
      have hfits : row.fits = true := fits_iff.mpr
        ⟨utf8ByteSize_le husername (length_usernameColumn hsize),
          utf8ByteSize_le hemail (length_emailColumn hsize)⟩
      have hbytes := bytes_eq_canonical hsize hid husername hemail
      have hagain := decode_bytes hfits
      rw [hbytes, cut_of_not_mem (nul_notMem husername) (nul_notMem hemail)] at hagain
      refine ⟨row, hdecode, ?_, husername, hemail, ofFields?_of_fits hfits, ?_, hagain⟩
      · rw [hid, toNat_decodeId hsize]
      · rw [← hbytes]
        exact encode_eq hfits
  · refine ⟨⟨fun _ => hsize, fun h => ?_⟩, fun h => absurd h hsize⟩
    rw [decode, if_pos h]
    rfl

/-- The bytes of the row 263, a, c, but for one byte in each column behind the text. -/
def littered : List UInt8 :=
  [7, 1, 0, 0] ++ ([97, 0, 98] ++ List.replicate 29 0) ++ ([99, 0, 255] ++ List.replicate 252 0)

/-- What stands behind the texts is not read, and not stored again. -/
theorem decode_by_columns_littered : littered.length = size ∧
    decode littered = .ok ⟨263, "a", "c"⟩ ∧ canonical littered ≠ littered ∧
    encode ⟨263, "a", "c"⟩ = .ok (canonical littered) ∧
    decode (canonical littered) = .ok ⟨263, "a", "c"⟩ := by
  have hsize : littered.length = size := by
    simp only [littered, List.length_append, List.length_cons, List.length_nil,
      List.length_replicate]
  have husername : Utf8.encode "a" = textBytes (usernameColumn littered) := by decide
  have hemail : Utf8.encode "c" = textBytes (emailColumn littered) := by decide
  have hid : decodeId littered = 263 := by decide
  have hread := decode_of_encode hsize husername hemail
  rw [hid] at hread
  obtain ⟨row, hdecode, -, -, -, -, hencode, hagain⟩ := ((decode_by_columns littered).2 hsize).2
    (Utf8.isValidUTF8_iff.mpr ⟨_, husername⟩) (Utf8.isValidUTF8_iff.mpr ⟨_, hemail⟩)
  obtain rfl := Except.ok.inj (hdecode.symm.trans hread)
  refine ⟨hsize, hread, fun h => ?_, hencode, hagain⟩
  have hbyte := congrArg (fun bytes => bytes[6]?) h
  exact absurd hbyte (by decide)

end Row
end RowStore
