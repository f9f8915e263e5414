/-
  RowStore/Node/Header.lean
  =========================
  **What every node starts with:** its kind, whether it is the root of the tree,
  and the page of its parent.  The parent field of the root means nothing.

      kind (1) | root flag (1) | parent (4)

  A zeroed buffer reads as a branch, so a new page has to be initialised before it
  is used.  Fields can be read and written one at a time in buffers of any size; a
  field that the buffer cannot hold is a fault.
-/
import RowStore.Edit

namespace RowStore

/-- The two kinds of node. -/
inductive NodeKind where
  | branch
  | leaf
deriving DecidableEq

namespace NodeKind

def ofByte? : UInt8 → Option NodeKind
  | 0 => some .branch
  | 1 => some .leaf
  | _ => none

def toByte : NodeKind → UInt8
  | .branch => 0
  | .leaf => 1

theorem ofByte?_toByte (k : NodeKind) : ofByte? k.toByte = some k := by cases k <;> rfl

end NodeKind

/-- The common part of all nodes. -/
structure Header where
  kind : NodeKind
  isRoot : Bool
  parent : PageId
deriving DecidableEq

namespace Header

variable {n : Nat}

/-! ## Reading -/

/-- The root flag; any byte but zero sets it. -/
def rootFlag (b : Bytes n) : Bool := b.byte rootOffset != 0

def parentOf (b : Bytes n) : PageId := ⟨b.word parentOffset⟩

/-- The kind of the node in the buffer of page `id`. -/
def readKind (id : PageId) (b : Bytes n) : Except Failure NodeKind := do
  let value ← b.readByte kindOffset
  match NodeKind.ofByte? value with
  | some kind => pure kind
  | none => refuse (.unknownNodeType id value)

/-- A page that is read as a node of some kind starts with the byte of that kind. -/
theorem readKind_eq_ok_iff {id : PageId} {page : Page} {kind : NodeKind} :
    readKind id page = .ok kind ↔ NodeKind.ofByte? (page.byte kindOffset) = some kind := by
  rw [readKind, Bytes.readByte_of_lt page (by decide)]
  cases h : NodeKind.ofByte? (page.byte kindOffset) with
  | none => simp [h, bind, Except.bind, refuse, throw, throwThe, MonadExceptOf.throw]
  | some k => simp [h, bind, Except.bind, pure, Except.pure]

def readRoot (b : Bytes n) : Except Failure Bool := do
  return (← b.readByte rootOffset) != 0

def readParent (b : Bytes n) : Except Failure PageId := do
  return ⟨← b.readWord parentOffset⟩

/-- The header in the buffer of page `id`. -/
def decode (id : PageId) (b : Bytes n) : Except Failure Header := do
  return { kind := ← readKind id b, isRoot := ← readRoot b, parent := ← readParent b }

/-! ## Writing -/

def setKind (kind : NodeKind) : Edit n Unit := Edit.writeByte kindOffset kind.toByte

def setRoot (isRoot : Bool) : Edit n Unit := Edit.writeByte rootOffset (if isRoot then 1 else 0)

def setParent (parent : PageId) : Edit n Unit := Edit.writeWord parentOffset parent.number

/-- Writes a whole header, for which the buffer must have room. -/
def encode (h : Header) : Edit n Unit := do
  if n < size then crash .headerTooShort
  setKind h.kind
  setRoot h.isRoot
  setParent h.parent

end Header
end RowStore
