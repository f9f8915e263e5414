/-
  RowStore/Proofs/Text/Valid.lean
  ===============================
  **Which bytes are text.**  Decoding succeeds on the encodings of texts and on no other
  bytes, so that nothing has two spellings.  One half is that encoded text is read back; here
  is the other one: a character that was decoded has just the bytes that it was read from.
  The first byte tells how many these are, and the ranges of the others leave out all bytes
  that some other character could have been read from.
-/
import RowStore.Proofs.Text.Utf8

namespace RowStore.Utf8

/-! ## One character -/

theorem ofNat_eq {n : Nat} {b : UInt8} (h : n = b.toNat) : UInt8.ofNat n = b := by
  rw [h, UInt8.ofNat_toNat]

theorem val_ofNat {v : Nat} (h : v < 55296 ∨ 57343 < v ∧ v < 1114112) :
    (Char.ofNat v).val.toNat = v := by
  rw [Char.ofNat, dif_pos h]
  rfl

section Characters

variable {a b c d : UInt8}

theorem utf8EncodeChar_one (ha : width a = 1) :
    String.utf8EncodeChar (Char.ofNat a.toNat) = [a] := by
  have hlt : a.toNat < 128 := by
    rw [width_eq] at ha
    split_ifs at ha <;> omega
  rw [String.utf8EncodeChar, val_ofNat (.inl (by omega)), if_pos (by omega), UInt8.ofNat_toNat]

theorem utf8EncodeChar_char2 (ha : width a = 2) (hb : isTail b = true) :
    String.utf8EncodeChar (char2 a b) = [a, b] := by
  have hfirst : 194 ≤ a.toNat ∧ a.toNat < 224 := by
    rw [width_eq] at ha
    split_ifs at ha <;> omega
  rw [isTail_iff] at hb
  rw [char2, String.utf8EncodeChar, val_ofNat (.inl (by omega)), if_neg (by omega),
    if_pos (by omega)]
  rw [ofNat_eq (b := a) (by omega), ofNat_eq (b := b) (by omega)]

theorem utf8EncodeChar_char3 (ha : width a = 3) (hb : isSecond a b = true) (hc : isTail c = true) :
    String.utf8EncodeChar (char3 a b c) = [a, b, c] := by
  have hfirst : 224 ≤ a.toNat ∧ a.toNat < 240 := by
    rw [width_eq] at ha
    split_ifs at ha <;> omega
  rw [isTail_iff] at hc
  rw [isSecond_eq, decide_eq_true_eq] at hb
  -- The range of the second byte keeps the number above 7FF and off the surrogates.
  have hsecond : 128 ≤ b.toNat ∧ b.toNat ≤ 191 ∧ (a.toNat = 224 → 160 ≤ b.toNat) ∧
      (a.toNat = 237 → b.toNat ≤ 159) := by
    split_ifs at hb <;> omega
  rw [char3, String.utf8EncodeChar, val_ofNat (by omega), if_neg (by omega), if_neg (by omega),
    if_pos (by omega)]
  rw [ofNat_eq (b := a) (by omega), ofNat_eq (b := b) (by omega), ofNat_eq (b := c) (by omega)]

theorem utf8EncodeChar_char4 (ha : width a = 4) (hb : isSecond a b = true) (hc : isTail c = true)
    (hd : isTail d = true) : String.utf8EncodeChar (char4 a b c d) = [a, b, c, d] := by
  have hfirst : 240 ≤ a.toNat ∧ a.toNat < 245 := by
    rw [width_eq] at ha
    split_ifs at ha <;> omega
  rw [isTail_iff] at hc hd
  rw [isSecond_eq, decide_eq_true_eq] at hb
  -- The range of the second byte keeps the number between FFFF and 110000.
  have hsecond : 128 ≤ b.toNat ∧ b.toNat ≤ 191 ∧ (a.toNat = 240 → 144 ≤ b.toNat) ∧
      (a.toNat = 244 → b.toNat ≤ 143) := by
    split_ifs at hb <;> omega
  rw [char4, String.utf8EncodeChar, val_ofNat (by omega), if_neg (by omega), if_neg (by omega),
    if_neg (by omega)]
  rw [ofNat_eq (b := a) (by omega), ofNat_eq (b := b) (by omega), ofNat_eq (b := c) (by omega),
    ofNat_eq (b := d) (by omega)]

end Characters

/-! ## Whole texts -/

theorem flatMap_cons_of_map {index : Nat} {code rest : List UInt8} {front : Char}
    {chars : List Char} (hcode : String.utf8EncodeChar front = code)
    (hrest : ∀ {chars}, decodeFrom index rest = .ok chars →
      chars.flatMap String.utf8EncodeChar = rest)
    (h : (front :: ·) <$> decodeFrom index rest = .ok chars) :
    chars.flatMap String.utf8EncodeChar = code ++ rest := by
  cases hfound : decodeFrom index rest with
  | error defect =>
    rw [hfound] at h
    cases h
  | ok found =>
    rw [hfound] at h
    cases h
    rw [List.flatMap_cons, hcode, hrest hfound]

/-- What was decoded has just the bytes that it was decoded from. -/
theorem flatMap_of_decodeFrom {index : Nat} {bytes : List UInt8} {chars : List Char}
    (h : decodeFrom index bytes = .ok chars) : chars.flatMap String.utf8EncodeChar = bytes := by
  fun_induction decodeFrom index bytes generalizing chars
  case case1 =>
    cases h
    rfl
  case case2 ha ih => exact flatMap_cons_of_map (utf8EncodeChar_one ha) ih h
  case case4 ha _ _ hb ih => exact flatMap_cons_of_map (utf8EncodeChar_char2 ha hb) ih h
  case case8 ha _ hb _ _ hc ih => exact flatMap_cons_of_map (utf8EncodeChar_char3 ha hb hc) ih h
  case case14 ha _ hb _ hc _ _ hd ih =>
    exact flatMap_cons_of_map (utf8EncodeChar_char4 ha hb hc hd) ih h
  -- The others are the defects.
  all_goals cases h

/-- Bytes are decoded to a text just if they are the bytes of that text. -/
theorem decode_eq_ok_iff {bytes : List UInt8} {s : String} :
    decode bytes = .ok s ↔ encode s = bytes := by
  constructor
  · intro h
    rw [decode] at h
    cases hchars : decodeFrom 0 bytes with
    | error defect =>
      rw [hchars] at h
      cases h
    | ok chars =>
      rw [hchars] at h
      cases h
      rw [encode, String.toList_ofList]
      exact flatMap_of_decodeFrom hchars
  · rintro rfl
    exact decode_encode s

/-- Bytes are valid in the sense of the core library just if they are the bytes of a text. -/
theorem isValidUTF8_iff {bytes : List UInt8} :
    bytes.toByteArray.IsValidUTF8 ↔ ∃ s, encode s = bytes := by
  constructor
  · rintro ⟨chars, h⟩
    refine ⟨String.ofList chars, ?_⟩
    rw [encode, String.toList_ofList]
    exact (List.toByteArray_inj.mp h).symm
  · rintro ⟨s, rfl⟩
    exact ⟨s.toList, rfl⟩

/-- The bytes of no text have a defect. -/
theorem exists_decode_error {bytes : List UInt8} (h : ¬bytes.toByteArray.IsValidUTF8) :
    ∃ defect, decode bytes = .error defect := by
  cases hdecode : decode bytes with
  | error defect => exact ⟨defect, rfl⟩
  | ok s => exact absurd (isValidUTF8_iff.mpr ⟨s, decode_eq_ok_iff.mp hdecode⟩) h

end RowStore.Utf8
