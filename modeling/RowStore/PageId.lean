/-
  RowStore/PageId.lean
  ====================
  **Page numbers.**  A page is named by a 32-bit number, which is also what the
  links inside nodes store.  The largest number names no page: a branch that has
  no right child yet stores it there.  Page 0 is the root of the tree, so it is
  nobody's sibling, and a stored 0 can mean "no next leaf".
-/
import RowStore.Layout

namespace RowStore

/-- The number of a page, as nodes store it. -/
structure PageId where
  number : UInt32
deriving DecidableEq, Inhabited

namespace PageId

/-- The number that names no page. -/
def invalid : PageId := ⟨4294967295⟩

/-- The page of the tree's root. -/
def root : PageId := ⟨0⟩

def ofNat (n : Nat) : PageId := ⟨UInt32.ofNat n⟩

/-- Place of the page in the page table. -/
def index (id : PageId) : Nat := id.number.toNat

def isValid (id : PageId) : Bool := id != invalid

/-- Where the page starts in the file. -/
def fileOffset (id : PageId) : Nat := id.index * pageSize

/-- How messages name the page. -/
def text (id : PageId) : String :=
  if id = invalid then "Page(INVALID)" else s!"Page({id.number})"

instance : ToString PageId := ⟨text⟩

/-- How messages about links name a page that may be missing. -/
def linkText : Option PageId → String
  | none => "None"
  | some id => s!"Some(PageId({id.number}))"

theorem index_ofNat {n : Nat} (h : n < 4294967296) : (ofNat n).index = n := by
  simp only [ofNat, index, UInt32.toNat_ofNat']
  exact Nat.mod_eq_of_lt h

theorem ofNat_index (id : PageId) : ofNat id.index = id := by
  simp [ofNat, index]

theorem ext_index {a b : PageId} (h : a.index = b.index) : a = b := by
  rw [← ofNat_index a, ← ofNat_index b, h]

end PageId
end RowStore
