/-
  RowStore/Edit.lean
  ==================
  **Guarded access to buffers.**  The functions of `RowStore/Bytes.lean` are total;
  here are the ones that refuse a position past the end.  Reading is a check, so
  it lives in `Except Failure`.  Writing is an *edit*: a step that changes a buffer
  and may fail.  What a failing edit has written by then stays written, which is
  why an edit carries the buffer as a state and gives it back in both cases.
-/
import RowStore.Bytes
import RowStore.Failure

namespace RowStore

/-- A change of a buffer of `n` bytes that may fail half way. -/
abbrev Edit (n : Nat) := EStateM Failure (Bytes n)

namespace Bytes

variable {n : Nat}

def readByte (b : Bytes n) (i : Nat) : Except Failure UInt8 :=
  if i < n then pure (b.byte i) else crash .bounds

def readWord (b : Bytes n) (off : Nat) : Except Failure UInt32 :=
  if off + 4 ≤ n then pure (b.word off) else crash (.readPastEnd off)

theorem readByte_of_lt (b : Bytes n) {i : Nat} (h : i < n) : b.readByte i = .ok (b.byte i) := by
  rw [readByte, if_pos h]; rfl

theorem readWord_of_le (b : Bytes n) {off : Nat} (h : off + 4 ≤ n) :
    b.readWord off = .ok (b.word off) := by
  rw [readWord, if_pos h]; rfl

end Bytes

namespace Edit

variable {n : Nat}

/-- Changes the whole buffer by a total function. -/
def update (f : Bytes n → Bytes n) : Edit n Unit := modify f

def writeByte (i : Nat) (x : UInt8) : Edit n Unit :=
  if i < n then update (·.put i [x]) else crash .bounds

def writeWord (off : Nat) (w : UInt32) : Edit n Unit :=
  if off + 4 ≤ n then update (·.putWord off w) else crash (.writePastEnd off)

/-- Puts `data` in place of the `len` bytes from `off` on, which it has to fill exactly. -/
def fill (off len : Nat) (data : List UInt8) : Edit n Unit :=
  if data.length = len then update (·.put off data) else crash .bounds

/-! ### What an edit does, where it is allowed -/

@[simp] theorem run_update (f : Bytes n → Bytes n) (b : Bytes n) :
    (update f).run b = .ok () (f b) := rfl

theorem run_writeByte (b : Bytes n) (x : UInt8) {i : Nat} (h : i < n) :
    (writeByte i x).run b = .ok () (b.put i [x]) := by
  rw [writeByte, if_pos h, run_update]

theorem run_writeWord (b : Bytes n) (w : UInt32) {off : Nat} (h : off + 4 ≤ n) :
    (writeWord off w).run b = .ok () (b.putWord off w) := by
  rw [writeWord, if_pos h, run_update]

theorem run_fill (b : Bytes n) (off : Nat) {len : Nat} {data : List UInt8}
    (h : data.length = len) : (fill off len data).run b = .ok () (b.put off data) := by
  rw [fill, if_pos h, run_update]

end Edit
end RowStore
