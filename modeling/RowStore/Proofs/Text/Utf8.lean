/-
  RowStore/Proofs/Text/Utf8.lean
  ==============================
  **Encoded text is read back.**  Decoding what was encoded gives the text again: each
  character is found at the front of its bytes, and decoding goes on behind them.  The cases
  are the four lengths that a character can have.  The zero byte is the code of NUL and part
  of no other character's code, so cutting the bytes at the first zero cuts the text at the
  first NUL.
-/
import Mathlib.Data.List.TakeWhile
import Mathlib.Tactic.Common
import RowStore.Text.Utf8

namespace RowStore.Utf8

/-! ## Bytes as numbers -/

theorem toNat_ofNat {n : Nat} (h : n < 256) : (UInt8.ofNat n).toNat = n := by
  rw [UInt8.toNat_ofNat']
  exact Nat.mod_eq_of_lt h

theorem isTail_iff {b : UInt8} : isTail b = true ↔ 128 ≤ b.toNat ∧ b.toNat ≤ 191 := by
  simp [isTail, UInt8.le_iff_toNat_le]

theorem toNat_tail (n : Nat) : (UInt8.ofNat (n % 64 + 128)).toNat = n % 64 + 128 :=
  toNat_ofNat (by omega)

/-- Six bits more make a byte that continues a character. -/
theorem isTail_tail (n : Nat) : isTail (UInt8.ofNat (n % 64 + 128)) = true := by
  rw [isTail_iff, toNat_tail]
  omega

theorem width_eq (a : UInt8) : width a =
    if a.toNat < 128 then 1 else if a.toNat < 194 then 0 else if a.toNat < 224 then 2
    else if a.toNat < 240 then 3 else if a.toNat < 245 then 4 else 0 := by
  simp [width, UInt8.lt_iff_toNat_lt]

theorem isSecond_eq (a b : UInt8) : isSecond a b =
    decide (if a.toNat = 224 then 160 ≤ b.toNat ∧ b.toNat ≤ 191
      else if a.toNat = 237 then 128 ≤ b.toNat ∧ b.toNat ≤ 159
      else if a.toNat = 240 then 144 ≤ b.toNat ∧ b.toNat ≤ 191
      else if a.toNat = 244 then 128 ≤ b.toNat ∧ b.toNat ≤ 143
      else 128 ≤ b.toNat ∧ b.toNat ≤ 191) := by
  simp [isSecond, isTail, UInt8.le_iff_toNat_le, ← UInt8.toNat_inj]

/-! ## One character -/

section Characters

variable {v : Nat} (index : Nat) (rest : List UInt8)

theorem decodeFrom_one (h : v < 128) :
    decodeFrom index (UInt8.ofNat v :: rest) =
      (Char.ofNat v :: ·) <$> decodeFrom (index + 1) rest := by
  have ha : (UInt8.ofNat v).toNat = v := toNat_ofNat (by omega)
  have hwidth : width (UInt8.ofNat v) = 1 := by rw [width_eq, ha, if_pos h]
  rw [decodeFrom.eq_def]
  simp only [hwidth, ha]

theorem decodeFrom_two (h : 128 ≤ v) (h' : v < 2048) :
    decodeFrom index (UInt8.ofNat (v / 64 % 32 + 192) :: UInt8.ofNat (v % 64 + 128) :: rest) =
      (Char.ofNat v :: ·) <$> decodeFrom (index + 2) rest := by
  have ha : (UInt8.ofNat (v / 64 % 32 + 192)).toNat = v / 64 % 32 + 192 := toNat_ofNat (by omega)
  have hwidth : width (UInt8.ofNat (v / 64 % 32 + 192)) = 2 := by
    rw [width_eq, ha, if_neg (by omega), if_neg (by omega), if_pos (by omega)]
  have hchar : char2 (UInt8.ofNat (v / 64 % 32 + 192)) (UInt8.ofNat (v % 64 + 128)) =
      Char.ofNat v := by
    rw [char2, ha, toNat_tail]
    exact congrArg Char.ofNat (by omega)
  rw [decodeFrom.eq_def]
  simp only [hwidth, isTail_tail, hchar, if_true]

theorem decodeFrom_three (h : 2048 ≤ v) (h' : v < 65536) (hv : v < 55296 ∨ 57343 < v) :
    decodeFrom index (UInt8.ofNat (v / 4096 % 16 + 224) :: UInt8.ofNat (v / 64 % 64 + 128) ::
        UInt8.ofNat (v % 64 + 128) :: rest) =
      (Char.ofNat v :: ·) <$> decodeFrom (index + 3) rest := by
  have ha : (UInt8.ofNat (v / 4096 % 16 + 224)).toNat = v / 4096 % 16 + 224 :=
    toNat_ofNat (by omega)
  have hwidth : width (UInt8.ofNat (v / 4096 % 16 + 224)) = 3 := by
    rw [width_eq, ha, if_neg (by omega), if_neg (by omega), if_neg (by omega), if_pos (by omega)]
  -- The first byte narrows the second one just where overlong forms and surrogates begin.
  have hsecond : isSecond (UInt8.ofNat (v / 4096 % 16 + 224)) (UInt8.ofNat (v / 64 % 64 + 128)) =
      true := by
    rw [isSecond_eq, decide_eq_true_eq, ha, toNat_tail]
    split_ifs <;> omega
  have hchar : char3 (UInt8.ofNat (v / 4096 % 16 + 224)) (UInt8.ofNat (v / 64 % 64 + 128))
      (UInt8.ofNat (v % 64 + 128)) = Char.ofNat v := by
    rw [char3, ha, toNat_tail, toNat_tail]
    exact congrArg Char.ofNat (by omega)
  rw [decodeFrom.eq_def]
  simp only [hwidth, hsecond, isTail_tail, hchar, if_true]

theorem decodeFrom_four (h : 65536 ≤ v) (h' : v < 1114112) :
    decodeFrom index (UInt8.ofNat (v / 262144 % 8 + 240) :: UInt8.ofNat (v / 4096 % 64 + 128) ::
        UInt8.ofNat (v / 64 % 64 + 128) :: UInt8.ofNat (v % 64 + 128) :: rest) =
      (Char.ofNat v :: ·) <$> decodeFrom (index + 4) rest := by
  have ha : (UInt8.ofNat (v / 262144 % 8 + 240)).toNat = v / 262144 % 8 + 240 :=
    toNat_ofNat (by omega)
  have hwidth : width (UInt8.ofNat (v / 262144 % 8 + 240)) = 4 := by
    rw [width_eq, ha, if_neg (by omega), if_neg (by omega), if_neg (by omega), if_neg (by omega),
      if_pos (by omega)]
  have hsecond : isSecond (UInt8.ofNat (v / 262144 % 8 + 240))
      (UInt8.ofNat (v / 4096 % 64 + 128)) = true := by
    rw [isSecond_eq, decide_eq_true_eq, ha, toNat_tail]
    split_ifs <;> omega
  have hchar : char4 (UInt8.ofNat (v / 262144 % 8 + 240)) (UInt8.ofNat (v / 4096 % 64 + 128))
      (UInt8.ofNat (v / 64 % 64 + 128)) (UInt8.ofNat (v % 64 + 128)) = Char.ofNat v := by
    rw [char4, ha, toNat_tail, toNat_tail, toNat_tail]
    exact congrArg Char.ofNat (by omega)
  rw [decodeFrom.eq_def]
  simp only [hwidth, hsecond, isTail_tail, hchar, if_true]

/-- A character is found at the front of its bytes. -/
theorem decodeFrom_utf8EncodeChar (c : Char) :
    decodeFrom index (String.utf8EncodeChar c ++ rest) =
      (c :: ·) <$> decodeFrom (index + (String.utf8EncodeChar c).length) rest := by
  have hvalid : c.val.toNat < 55296 ∨ 57343 < c.val.toNat ∧ c.val.toNat < 1114112 := c.valid
  have hself : Char.ofNat c.val.toNat = c := Char.ofNat_toNat c
  rw [String.utf8EncodeChar]
  generalize c.val.toNat = v at hvalid hself
  subst hself
  split_ifs with h1 h2 h3
  · exact decodeFrom_one index rest (by omega)
  · exact decodeFrom_two index rest (by omega) (by omega)
  · exact decodeFrom_three index rest (by omega) (by omega) (by omega)
  · exact decodeFrom_four index rest (by omega) (by omega)

end Characters

/-! ## Whole texts -/

theorem decodeFrom_flatMap (index : Nat) (chars : List Char) :
    decodeFrom index (chars.flatMap String.utf8EncodeChar) = .ok chars := by
  induction chars generalizing index with
  | nil => rfl
  | cons c chars ih =>
    rw [List.flatMap_cons, decodeFrom_utf8EncodeChar, ih]
    rfl

/-- Text comes back from its bytes. -/
theorem decode_encode (s : String) : decode (encode s) = .ok s := by
  rw [decode, encode, decodeFrom_flatMap]
  exact congrArg Except.ok String.ofList_toList

theorem length_encode (s : String) : (encode s).length = s.utf8ByteSize := by
  rw [← String.size_toByteArray, ← String.utf8Encode_toList]
  exact List.size_toByteArray.symm

/-! ## Zero bytes -/

/-- The bytes of any other character than NUL are not zero. -/
theorem ne_zero_of_mem {c : Char} (hc : c ≠ '\x00') {b : UInt8}
    (hb : b ∈ String.utf8EncodeChar c) : b ≠ 0 := by
  have hpos : c.val.toNat ≠ 0 := fun h => hc (Char.ext (UInt32.toNat_inj.mp h))
  have hne {n : Nat} (h : n < 256) (h' : n ≠ 0) : UInt8.ofNat n ≠ 0 := by
    intro hzero
    have := congrArg UInt8.toNat hzero
    rw [toNat_ofNat h] at this
    exact h' this
  rw [String.utf8EncodeChar] at hb
  generalize c.val.toNat = v at hpos hb
  split_ifs at hb with h1 h2 h3
  all_goals
    simp only [List.mem_cons, List.not_mem_nil, or_false] at hb
  · subst hb
    exact hne (by omega) hpos
  · rcases hb with rfl | rfl <;> exact hne (by omega) (by omega)
  · rcases hb with rfl | rfl | rfl <;> exact hne (by omega) (by omega)
  · rcases hb with rfl | rfl | rfl | rfl <;> exact hne (by omega) (by omega)

/-- The text before the first NUL. -/
def beforeNul (s : String) : String := String.ofList (s.toList.takeWhile (· ≠ '\x00'))

/-- Text with zeros behind it, cut at the first zero. -/
theorem takeWhile_encode (s : String) (zeros : Nat) :
    (encode s ++ List.replicate zeros 0).takeWhile (· ≠ 0) = encode (beforeNul s) := by
  rw [encode, encode, beforeNul, String.toList_ofList]
  induction s.toList with
  | nil =>
    cases zeros <;> rfl
  | cons c chars ih =>
    rw [List.flatMap_cons, List.append_assoc]
    by_cases hc : c = '\x00'
    · subst hc
      rfl
    · have hcons : (c :: chars).takeWhile (· ≠ '\x00') = c :: chars.takeWhile (· ≠ '\x00') :=
        List.takeWhile_cons_of_pos (decide_eq_true hc)
      rw [List.takeWhile_append_of_pos fun b hb => decide_eq_true (ne_zero_of_mem hc hb), ih,
        hcons, List.flatMap_cons]

/-- Text without NUL is not cut. -/
theorem beforeNul_of_not_mem {s : String} (h : '\x00' ∉ s.toList) : beforeNul s = s := by
  have hall : s.toList.takeWhile (· ≠ '\x00') = s.toList :=
    List.takeWhile_eq_self_iff.mpr fun c hc => decide_eq_true fun he => h (he ▸ hc)
  rw [beforeNul, hall, String.ofList_toList]

end RowStore.Utf8
