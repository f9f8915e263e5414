/-
  RowStore/Pager/Basic.lean
  =========================
  **The pages of a store in memory.**  A pager stands between the tree and the file.
  A page is loaded when it is first requested and then stays in its slot, where it is
  changed; the file is written by `flush` and `flushAll` alone.  A pager that is
  dropped without them leaves the file as it was.

      file        the bytes of the file
      fileLength  its length as the pager knows it: taken at opening, raised by flushes
      numPages    how many pages exist, in the file or in memory
      slots       the loaded pages

  A request for a page behind the last one makes it, zeroed, and all pages before it
  count as existing from then on.  The last page of the file may be short; what it
  lacks reads as zero.  If the file was cut behind the pager's back, the bytes that it
  should hold cannot be read, which is an error.

  The operating system is taken to do what it is asked for: that a read, a write or a sync
  of the file fails for a reason of its own, such as a full disk, is not in the model.

  Every operation is a step on the pager (`PagerM`); a failing step keeps what it has
  done so far.  Each `request` counts as one hit or one miss, so the order and the
  number of requests are part of what an operation does.
-/
import RowStore.Image
import RowStore.Edit
import RowStore.Pager.Counters

namespace RowStore

/-- A file and its pages in memory. -/
structure Pager where
  file : Image
  fileLength : Nat
  numPages : Nat
  slots : Vector (Option Page) maxPages
  counters : Counters

/-- A step on a pager. -/
abbrev PagerM := EStateM Failure Pager

namespace Pager

/-! ## Opening and looking -/

/-- How many pages a file of `len` bytes has, as a 32-bit number. -/
def pagesIn (len : Nat) : Nat := (len + (pageSize - 1)) / pageSize % 4294967296

/-- A pager on a file, with no page loaded. -/
def ofImage (file : Image) : Pager :=
  { file, fileLength := file.size, numPages := pagesIn file.size
    slots := Vector.replicate maxPages none, counters := {} }

/-- A pager on the file at a place. -/
def openAt (location : Location) : Except Failure Pager := do
  return ofImage (← location.openFile)

/-- The page in memory, if it is loaded. -/
def slot (pager : Pager) (id : PageId) : Option Page := pager.slots[id.index]?.join

theorem slot_ofImage (file : Image) (id : PageId) : (ofImage file).slot id = none := by
  simp only [slot, ofImage, Vector.getElem?_replicate]
  split <;> rfl

def isLoaded (pager : Pager) (id : PageId) : Bool := (pager.slot id).isSome

/-- The numbers of the loaded pages, ascending. -/
def loaded (pager : Pager) : List Nat :=
  (List.range maxPages).filter fun i => pager.isLoaded (PageId.ofNat i)

/-- How many pages can still be allocated. -/
def freePages (pager : Pager) : Nat := maxPages - pager.numPages

/-- The page that the next allocation takes. -/
def unusedPage (pager : Pager) : PageId := PageId.ofNat pager.numPages

/-! ## Requesting pages -/

/-- Adds to the counters. -/
def tally (work : Counters) : PagerM Unit :=
  modify fun pager => { pager with counters := pager.counters + work }

def resetCounters : PagerM Unit := modify fun pager => { pager with counters := {} }

/-- Puts a page into its slot.  This is how a loaded page is changed; it is no request. -/
def store (id : PageId) (page : Page) : PagerM Unit :=
  modify fun pager => { pager with slots := pager.slots.setIfInBounds id.index (some page) }

/-- What a slot holds after a page was put into one. -/
theorem slot_store {id : PageId} {page : Page} {pager after : Pager}
    (h : store id page pager = .ok () after) (hid : id.index < maxPages) (other : PageId) :
    after.slot other = if other = id then some page else pager.slot other := by
  cases h
  simp only [slot, Vector.getElem?_setIfInBounds]
  by_cases he : other = id
  · subst he
    simp [hid]
  · have hne : id.index ≠ other.index := fun hi => he (PageId.ext_index hi.symm)
    rw [if_neg hne, if_neg he]

/-- Refuses page numbers that no store has. -/
def checkBounds (id : PageId) : Except Failure Unit :=
  if id.index < maxPages then pure () else refuse (.pageOutOfBounds id maxPages)

/-- The page as the file has it, or a new one. -/
def load (id : PageId) : PagerM Page := do
  let pager ← get
  if id.index < pager.numPages then
    let available := min (pager.fileLength - id.fileOffset) pageSize
    if 0 < available ∧ pager.file.size < id.fileOffset + available then refuse (.io .endOfFile)
    tally .read
    return pager.file.pageAt id.fileOffset available
  else
    set { pager with numPages := id.index + 1 }
    return Bytes.zero

/-- The page, which is loaded if it has to be. -/
def request (id : PageId) : PagerM Page := do
  checkBounds id
  match (← get).slot id with
  | some page =>
    tally .hit
    return page
  | none =>
    tally .miss
    let page ← load id
    store id page
    return page

/-- The page in a slot of a part of the page table. -/
def pageIn (part : List (Option Page)) (i : Nat) (id : PageId) : Except Failure Page :=
  match part[i]? with
  | none => crash .bounds
  | some none => refuse (.pageNotLoaded id)
  | some (some page) => pure page

/-- Two different pages.  Both are loaded first, and then the table is cut before the later
    one, so that each of them is in a part of its own. -/
def requestPair (a b : PageId) : PagerM (Page × Page) := do
  if a = b then refuse (.corrupted (.samePair a))
  let _ ← request a
  let _ ← request b
  let (low, high) := if a.index < b.index then (a, b) else (b, a)
  let (head, tail) := (← get).slots.toList.splitAt high.index
  let lowPage ← pageIn head low.index low
  let highPage ← pageIn tail 0 high
  return if a.index < b.index then (lowPage, highPage) else (highPage, lowPage)

/-- Changes a page that was requested as `page`. -/
def change {α : Type} (id : PageId) (page : Page) (edit : Edit pageSize α) : PagerM α :=
  match edit.run page with
  | .ok a page => do
    store id page
    return a
  | .error failure page => do
    store id page
    throw failure

/-- Requests a page and changes it. -/
def edit {α : Type} (id : PageId) (edit : Edit pageSize α) : PagerM α := do
  change id (← request id) edit

/-- A new zeroed page behind the last one. -/
def allocate : PagerM PageId := do
  let id := (← get).unusedPage
  if maxPages ≤ id.index then refuse .tableFull
  edit id (Edit.update fun _ => Bytes.zero)
  return id

/-! ## Writing the file -/

/-- Writes the first `size` bytes of a loaded page to the file.  It is refused for what it is
    asked to write; once the operating system is asked, the write succeeds. -/
def flush (id : PageId) (size : Nat) : PagerM Unit := do
  checkBounds id
  if pageSize < size then refuse (.invalidFlushSize size pageSize)
  match (← get).slot id with
  | none => refuse (.pageNotLoaded id)
  | some page =>
    modify fun pager =>
      { pager with
        file := pager.file.write id.fileOffset (page.toList.take size)
        fileLength := max pager.fileLength (id.fileOffset + size) }
    tally .write

/-- Writes every loaded page in full.  As all that could be refused is known to be right, only
    the operating system could make it fail, and does not here. -/
def flushAll : PagerM Unit :=
  (List.range maxPages).forM fun i => do
    if (← get).isLoaded (PageId.ofNat i) then flush (PageId.ofNat i) pageSize

end Pager
end RowStore
