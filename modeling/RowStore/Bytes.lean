/-
  RowStore/Bytes.lean
  ===================
  **Buffers of a fixed number of bytes.**  A page is a `Vector` of bytes, so its
  size is known to the type checker and never has to be carried along as a side
  condition.  The functions here are total: past the end a buffer reads as zero
  and swallows what is written.  Callers that must refuse such positions check
  them first (`RowStore/Edit.lean`); what stays here is plain byte arithmetic,
  and each writing function has one lemma that says what every byte is afterwards.

  Byte strings of any length, such as the value of a row, are lists.
-/
import RowStore.Layout

namespace RowStore

/-- A buffer of `n` bytes. -/
abbrev Bytes (n : Nat) := Vector UInt8 n

/-- A page of the store. -/
abbrev Page := Bytes pageSize

/-! ## Words

A word is stored in four bytes, the least significant first. -/

namespace Word

/-- The four bytes of a word. -/
def toBytes (w : UInt32) : List UInt8 :=
  [ UInt8.ofNat (w.toNat % 256), UInt8.ofNat (w.toNat / 256 % 256),
    UInt8.ofNat (w.toNat / 65536 % 256), UInt8.ofNat (w.toNat / 16777216 % 256) ]

/-- The word with the given four bytes. -/
def ofBytes (a b c d : UInt8) : UInt32 :=
  UInt32.ofNat (a.toNat + 256 * b.toNat + 65536 * c.toNat + 16777216 * d.toNat)

@[simp] theorem length_toBytes (w : UInt32) : (toBytes w).length = 4 := rfl

/-- A word is read back as it was written. -/
theorem ofBytes_toBytes (w : UInt32) :
    ofBytes (UInt8.ofNat (w.toNat % 256)) (UInt8.ofNat (w.toNat / 256 % 256))
      (UInt8.ofNat (w.toNat / 65536 % 256)) (UInt8.ofNat (w.toNat / 16777216 % 256)) = w := by
  have h := w.toNat_lt
  apply UInt32.toNat.inj
  simp only [ofBytes, UInt32.toNat_ofNat', UInt8.toNat_ofNat']
  omega

end Word

/-! ## Overwriting a stretch of an array -/

/-- Writes `data` over the bytes from `off` on, as far as the array reaches. -/
def overwrite (a : Array UInt8) (off : Nat) : List UInt8 → Array UInt8
  | [] => a
  | x :: rest => overwrite (a.setIfInBounds off x) (off + 1) rest

@[simp] theorem size_overwrite (a : Array UInt8) (off : Nat) (data : List UInt8) :
    (overwrite a off data).size = a.size := by
  induction data generalizing a off with
  | nil => rfl
  | cons x rest ih => simp [overwrite, ih]

theorem getElem?_overwrite (a : Array UInt8) (off : Nat) (data : List UInt8) (i : Nat) :
    (overwrite a off data)[i]? =
      if off ≤ i ∧ i < off + data.length ∧ i < a.size then data[i - off]? else a[i]? := by
  induction data generalizing a off with
  | nil => simp [overwrite]; omega
  | cons x rest ih =>
    rw [overwrite, ih]
    simp only [Array.size_setIfInBounds, List.length_cons, Array.getElem?_setIfInBounds]
    by_cases hi : i ≤ off
    · rw [if_neg (by omega)]
      by_cases he : off = i
      · subst he
        by_cases hs : off < a.size <;> simp [hs]
      · rw [if_neg he, if_neg (by omega)]
    · obtain ⟨k, rfl⟩ : ∃ k, i = off + 1 + k := ⟨i - off - 1, by omega⟩
      have e1 : off + 1 + k - (off + 1) = k := by omega
      have e2 : off + 1 + k - off = k + 1 := by omega
      simp only [e1, e2, List.getElem?_cons_succ, if_neg (show ¬off = off + 1 + k by omega)]
      congr 1
      simp only [eq_iff_iff]
      omega

/-! ## Reading and writing buffers -/

namespace Bytes

variable {n : Nat}

/-- The buffer of zero bytes. -/
def zero : Bytes n := Vector.replicate n 0

/-- The byte at `i`, zero past the end. -/
def byte (b : Bytes n) (i : Nat) : UInt8 := b[i]?.getD 0

/-- The `len` bytes from `off` on. -/
def slice (b : Bytes n) (off len : Nat) : List UInt8 :=
  (List.range len).map fun i => b.byte (off + i)

/-- Writes `data` over the bytes from `off` on. -/
def put (b : Bytes n) (off : Nat) (data : List UInt8) : Bytes n :=
  ⟨overwrite b.toArray off data, by simp⟩

/-- The word in the four bytes from `off` on. -/
def word (b : Bytes n) (off : Nat) : UInt32 :=
  Word.ofBytes (b.byte off) (b.byte (off + 1)) (b.byte (off + 2)) (b.byte (off + 3))

/-- Writes a word into the four bytes from `off` on. -/
def putWord (b : Bytes n) (off : Nat) (w : UInt32) : Bytes n := b.put off (Word.toBytes w)

/-- Copies the `len` bytes from `src` on to `dst`, as if through a scratch buffer. -/
def move (b : Bytes n) (src len dst : Nat) : Bytes n := b.put dst (b.slice src len)

@[simp] theorem byte_zero (i : Nat) : (zero : Bytes n).byte i = 0 := by
  simp only [byte, zero, Vector.getElem?_replicate]
  split <;> rfl

theorem byte_of_le (b : Bytes n) {i : Nat} (h : n ≤ i) : b.byte i = 0 := by
  simp [byte, Vector.getElem?_eq_none h]

/-- Two buffers with the same bytes are equal. -/
theorem ext_byte {a b : Bytes n} (h : ∀ i, i < n → a.byte i = b.byte i) : a = b := by
  apply Vector.ext
  intro i hi
  have := h i hi
  simpa [byte, hi] using this

@[simp] theorem length_slice (b : Bytes n) (off len : Nat) : (b.slice off len).length = len := by
  simp [slice]

theorem getElem?_slice (b : Bytes n) (off len i : Nat) :
    (b.slice off len)[i]? = if i < len then some (b.byte (off + i)) else none := by
  simp only [slice, List.getElem?_map]
  by_cases h : i < len <;> simp [h]

/-- After a write, the bytes written stand in their range, and all others as before. -/
theorem byte_put (b : Bytes n) (off : Nat) (data : List UInt8) (i : Nat) :
    (b.put off data).byte i =
      if off ≤ i ∧ i < off + data.length ∧ i < n then data[i - off]?.getD 0 else b.byte i := by
  have h := getElem?_overwrite b.toArray off data i
  simp only [Vector.size_toArray] at h
  simp only [byte, put, Vector.getElem?_mk, h]
  split <;> simp

theorem byte_put_add (b : Bytes n) {off k : Nat} {data : List UInt8} (hk : k < data.length)
    (hn : off + k < n) : (b.put off data).byte (off + k) = data[k] := by
  rw [byte_put, if_pos (by omega)]
  simp [hk]

theorem byte_put_of_not_mem (b : Bytes n) {off i : Nat} {data : List UInt8}
    (h : i < off ∨ off + data.length ≤ i) : (b.put off data).byte i = b.byte i := by
  rw [byte_put, if_neg (by omega)]

/-- What was written is read back. -/
theorem slice_put (b : Bytes n) (off : Nat) (data : List UInt8) (h : off + data.length ≤ n) :
    (b.put off data).slice off data.length = data := by
  apply List.ext_getElem?
  intro i
  rw [getElem?_slice]
  by_cases hi : i < data.length
  · rw [if_pos hi, byte_put, if_pos (by omega)]
    simp [hi]
  · rw [if_neg hi, List.getElem?_eq_none (by omega)]

theorem word_putWord (b : Bytes n) (off : Nat) (w : UInt32) (h : off + 4 ≤ n) :
    (b.putWord off w).word off = w := by
  simp only [word, putWord]
  rw [byte_put_add b (k := 1) (by simp) (by omega), byte_put_add b (k := 2) (by simp) (by omega),
    byte_put_add b (k := 3) (by simp) (by omega),
    show (b.put off (Word.toBytes w)).byte off = (Word.toBytes w)[0] from
      byte_put_add b (k := 0) (by simp) (by omega)]
  exact Word.ofBytes_toBytes w

theorem word_put_of_disjoint (b : Bytes n) {off off' : Nat} {data : List UInt8}
    (h : off' + 4 ≤ off ∨ off + data.length ≤ off') :
    (b.put off data).word off' = b.word off' := by
  simp only [word]
  rw [byte_put_of_not_mem b (by omega), byte_put_of_not_mem b (by omega),
    byte_put_of_not_mem b (by omega), byte_put_of_not_mem b (by omega)]

theorem word_putWord_of_disjoint (b : Bytes n) {off off' : Nat} {w : UInt32}
    (h : off' + 4 ≤ off ∨ off + 4 ≤ off') : (b.putWord off w).word off' = b.word off' :=
  word_put_of_disjoint b (by simpa using h)

end Bytes
end RowStore
