/-
  RowStore/Image.lean
  ===================
  **The bytes of a file, and what stands at a path.**  A file is an array of bytes.
  Writing behind its end fills the gap with zeros; writing nothing changes nothing,
  wherever it is done.
-/
import RowStore.Bytes
import RowStore.Failure

namespace RowStore

/-- The contents of a file. -/
abbrev Image := Array UInt8

namespace Image

/-- The byte at `i`, zero past the end. -/
def byte (file : Image) (i : Nat) : UInt8 := file[i]?.getD 0

/-- Cuts the file to `len` bytes, or extends it with zeros. -/
def truncate (file : Image) (len : Nat) : Image :=
  file.take len ++ Array.replicate (len - file.size) 0

/-- Writes `data` from `off` on. -/
def write (file : Image) (off : Nat) (data : List UInt8) : Image :=
  if data = [] then file
  else overwrite (file ++ Array.replicate (off + data.length - file.size) 0) off data

/-- A page with the `len` bytes of the file from `off` on, and zeros behind them. -/
def pageAt (file : Image) (off len : Nat) : Page :=
  Vector.ofFn fun i => if i.val < len then file.byte (off + i.val) else 0

theorem byte_of_le (file : Image) {i : Nat} (h : file.size ≤ i) : file.byte i = 0 := by
  simp [byte, Array.getElem?_eq_none h]

/-- A write makes the file as long as it has to be. -/
theorem size_write (file : Image) (off : Nat) (data : List UInt8) (h : data ≠ []) :
    (file.write off data).size = max file.size (off + data.length) := by
  simp only [write, if_neg h, size_overwrite, Array.size_append, Array.size_replicate]
  omega

/-- After a write, the bytes written stand in their range, and all others as before. -/
theorem byte_write (file : Image) (off : Nat) (data : List UInt8) (i : Nat) :
    (file.write off data).byte i =
      if off ≤ i ∧ i < off + data.length then data[i - off]?.getD 0 else file.byte i := by
  by_cases h : data = []
  · subst h
    rw [write, if_pos rfl, if_neg (by simp)]
  · simp only [write, if_neg h, byte, getElem?_overwrite, Array.size_append, Array.size_replicate]
    by_cases hi : off ≤ i ∧ i < off + data.length
    · rw [if_pos (by omega), if_pos hi]
    · rw [if_neg (by omega), if_neg hi, Array.getElem?_append]
      split
      · rfl
      · rename_i hs
        have none_of_le : file[i]? = none := Array.getElem?_eq_none (by omega)
        rw [Array.getElem?_replicate, none_of_le]
        split <;> rfl

/-- A page of the file, byte by byte. -/
theorem byte_pageAt (file : Image) (off len : Nat) {i : Nat} (h : i < pageSize) :
    (file.pageAt off len).byte i = if i < len then file.byte (off + i) else 0 := by
  simp [pageAt, Bytes.byte, h]

end Image

/-! ## Opening -/

/-- What stands at a path. -/
inductive Location where
  | nothing
  | file (contents : Image)
  | directory
  /-- The directory that should hold the file is missing. -/
  | unreachable

/-- The contents of the file at a place; where nothing stands, an empty file is made. -/
def Location.openFile : Location → Except Failure Image
  | .nothing => pure #[]
  | .file contents => pure contents
  | .directory => refuse (.io .isDirectory)
  | .unreachable => refuse (.io .notFound)

end RowStore
