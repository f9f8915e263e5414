/-
  RowStore/Failure.lean
  =====================
  **How an operation can fail.**  There are three ways, and they are kept apart:

    * an *error* is an answer: the request, the file or the operating system did
      not allow the operation, and the caller is told why.  Errors carry causes;
      their wording is in `Error.message` alone;
    * a *fault* is a broken promise inside the program: a position, a count or a
      length that the code takes for granted was wrong.  It ends the process;
    * an *endless* operation never answers at all.

  Duplicate keys and a full table are recoverable: a shell goes on after them.
-/
import RowStore.PageId
import RowStore.Text.Utf8

namespace RowStore

/-! ## Causes -/

/-- What the operating system refused. -/
inductive IoCause where
  /-- The file ends before the bytes that were asked for. -/
  | endOfFile
  | notFound
  | isDirectory
  | other (text : String)
deriving DecidableEq

/-- What is wrong with the contents of a file. -/
inductive Corruption where
  | leafExpected (page : PageId)
  | branchExpected (page : PageId)
  | tooManyCells (page : PageId) (count max : Nat)
  | tooManyKeys (page : PageId) (count max : Nat)
  /-- One page was asked for as two different ones. -/
  | samePair (page : PageId)
  | searchLost (key : UInt32)
  | spineLost (page : PageId)
  | rootUnflagged (page : PageId)
  | strayRoot (page : PageId)
  | wrongParent (page actual expected : PageId)
  | keysOutOfOrder (page : PageId) (key next : UInt32)
  | unevenLeaf (page : PageId) (depth others : Nat)
  | emptyLeaf (page : PageId)
  | emptyChild (child page : PageId)
  | wrongSeparator (page : PageId) (index : Nat) (key : UInt32) (child : PageId) (max : UInt32)
  | lowRightChild (page child : PageId) (max : UInt32)
  | leavesOutOfOrder (page : PageId) (key : UInt32)
  | wrongNext (page : PageId) (actual expected : Option PageId)
  | tooDeep (page : PageId)
  | columnText (defect : Utf8.Defect)
  | other (text : String)
deriving DecidableEq

/-- Why an operation was refused. -/
inductive Error where
  | io (cause : IoCause)
  | pageOutOfBounds (page : PageId) (max : Nat)
  | pageNotLoaded (page : PageId)
  | invalidFlushSize (size pageSize : Nat)
  | unknownNodeType (page : PageId) (value : UInt8)
  | childIndexOutOfRange (page : PageId) (index numKeys : Nat)
  | invalidChildPointer (page : PageId) (index : Nat)
  | cellOutOfRange (page : PageId) (cell numCells : Nat)
  | emptyLeaf (page : PageId)
  | valueSizeMismatch (expected actual : Nat)
  | corrupted (what : Corruption)
  | duplicateKey (key : UInt32)
  | tableFull
deriving DecidableEq

/-- Which promise the program broke. -/
inductive Fault where
  | readPastEnd (offset : Nat)
  | writePastEnd (offset : Nat)
  | headerTooShort
  | leafCell (cell : Nat)
  | leafCount (count : Nat)
  | leafFull (page : PageId)
  | branchCell (cell : Nat)
  | branchCount (count : Nat)
  | branchFull (page : PageId)
  | insertPosition (position : Nat)
  /-- A position or a length that no message tells. -/
  | bounds
  /-- A number that left its range. -/
  | overflow
deriving DecidableEq

/-- The end of an operation that gives no result. -/
inductive Failure where
  | error (error : Error)
  | fault (fault : Fault)
  | endless
deriving DecidableEq

/-! ## Wording -/

def IoCause.message : IoCause → String
  | .endOfFile => "failed to fill whole buffer"
  | .notFound => "No such file or directory (os error 2)"
  | .isDirectory => "Is a directory (os error 21)"
  | .other text => text

def Corruption.message : Corruption → String
  | .leafExpected page => s!"expected leaf node at {page}, found internal"
  | .branchExpected page => s!"expected internal node at {page}, found leaf"
  | .tooManyCells page count max => s!"leaf {page} holds {count} cells (max {max})"
  | .tooManyKeys page count max => s!"internal node {page} holds {count} keys (max {max})"
  | .samePair page => s!"page pair requested for {page} twice"
  | .searchLost key => s!"search for key {key} did not reach a leaf"
  | .spineLost page => s!"right spine below {page} did not reach a leaf"
  | .rootUnflagged page => s!"{page} is not flagged as root"
  | .strayRoot page => s!"non-root {page} is flagged as root"
  | .wrongParent page actual expected => s!"{page} has parent {actual}, expected {expected}"
  | .keysOutOfOrder page key next => s!"{page} keys out of order: {key} then {next}"
  | .unevenLeaf page depth others => s!"leaf {page} at depth {depth}, other leaves at depth {others}"
  | .emptyLeaf page => s!"non-root leaf {page} is empty"
  | .emptyChild child page => s!"child {child} of {page} is empty"
  | .wrongSeparator page index key child max =>
    s!"{page} key {index} is {key}, child {child} max is {max}"
  | .lowRightChild page child max => s!"{page} right child {child} max {max} not above separators"
  | .leavesOutOfOrder page key => s!"leaf {page} key {key} out of order across leaves"
  | .wrongNext page actual expected =>
    s!"leaf {page} links to {PageId.linkText actual}, expected {PageId.linkText expected}"
  | .tooDeep page => s!"tree too deep at {page}, page links form a cycle"
  | .columnText defect => "row column is not UTF-8: " ++ defect.message
  | .other text => text

def Error.message : Error → String
  | .io cause => "I/O error: " ++ cause.message
  | .pageOutOfBounds page max => s!"{page} out of bounds (max pages: {max})"
  | .pageNotLoaded page => s!"tried to flush {page}, which is not loaded"
  | .invalidFlushSize size pageSize => s!"cannot flush {size} bytes of a {pageSize}-byte page"
  | .unknownNodeType page value => s!"{page} has unknown node type {value}"
  | .childIndexOutOfRange page index numKeys =>
    s!"child index {index} out of range for internal node {page} (num_keys: {numKeys})"
  | .invalidChildPointer page index =>
    s!"internal node {page} has an invalid child pointer at index {index}"
  | .cellOutOfRange page cell numCells =>
    s!"cell {cell} out of range for leaf {page} (num_cells: {numCells})"
  | .emptyLeaf page => s!"leaf {page} has no cells"
  | .valueSizeMismatch expected actual => s!"value is {actual} bytes, expected {expected}"
  | .corrupted what => "corrupted database: " ++ what.message
  | .duplicateKey key => s!"duplicate key {key}"
  | .tableFull => "table full"

/-- What the fault says before the process ends, if it says anything of its own. -/
def Fault.message : Fault → Option String
  | .readPastEnd offset => some s!"u32 read at {offset} past end of buffer"
  | .writePastEnd offset => some s!"u32 write at {offset} past end of buffer"
  | .headerTooShort => some "buffer too small for NodeHeader"
  | .leafCell cell => some s!"leaf cell {cell} out of bounds (max cells: {Leaf.maxCells})"
  | .leafCount count => some s!"leaf cell count {count} over capacity"
  | .leafFull page => some s!"insert into full leaf {page}"
  | .branchCell cell => some s!"internal cell {cell} out of bounds (max keys: {Branch.maxKeys})"
  | .branchCount count => some s!"internal key count {count} over capacity"
  | .branchFull page => some s!"insert into full internal node {page}"
  | .insertPosition position => some s!"insert position {position} past end"
  | .bounds | .overflow => none

/-- A shell goes on after such an error. -/
def Error.isRecoverable : Error → Bool
  | .duplicateKey _ | .tableFull => true
  | _ => false

/-! ## Failing -/

/-- Ends an operation with an error. -/
def refuse {m : Type → Type} {α : Type} [MonadExceptOf Failure m] (e : Error) : m α :=
  throw (.error e)

/-- Ends an operation with a fault. -/
def crash {m : Type → Type} {α : Type} [MonadExceptOf Failure m] (f : Fault) : m α :=
  throw (.fault f)

/-- A check that may fail is a step of any operation that may fail. -/
instance {σ : Type} : MonadLift (Except Failure) (EStateM Failure σ) where
  monadLift
    | .ok a => pure a
    | .error f => throw f

end RowStore
