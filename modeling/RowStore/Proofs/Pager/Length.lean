/-
  RowStore/Proofs/Pager/Length.lean
  =================================
  **The length of the file as the pager knows it.**  A pager asks for the length of its file
  when it is opened, and from then on keeps it in step with what it writes.  Pages are read
  by it: what lies behind the length is not asked for, and what lies before it has to be
  there.

  Each write moves the length and the end of the file to the same place, but for one kind.
  A flush of no bytes of a page writes nothing, wherever the page stands, and yet the length
  is raised to the place where the page starts.  So the length is the greater of two: the
  real one, and the furthest place that was flushed so.  While the second is no greater than
  the first, every page can be read.
-/
import RowStore.Proofs.Pager.Calls

namespace RowStore

variable {α β : Type}

namespace Pager

variable {pager after : Pager} {id : PageId} {z : Nat}

/-! ## Steps that leave the file alone -/

/-- However the step ends, the file is as before, and so is its length for the pager. -/
def LeavesFile (m : PagerM α) : Prop :=
  ∀ (pager after : Pager) (r : Except Failure α), m.run pager = outcome r after →
    after.file = pager.file ∧ after.fileLength = pager.fileLength

namespace LeavesFile

theorem pure (a : α) : LeavesFile (Pure.pure a : PagerM α) := by
  intro pager after r hrun
  obtain ⟨-, rfl⟩ := outcome_inj (r := .ok a) hrun
  exact ⟨rfl, rfl⟩

theorem refuse (e : Error) : LeavesFile (RowStore.refuse e : PagerM α) := by
  intro pager after r hrun
  obtain ⟨-, rfl⟩ := outcome_inj (r := .error (.error e)) hrun
  exact ⟨rfl, rfl⟩

theorem bind {m : PagerM α} {f : α → PagerM β} (hm : LeavesFile m) (hf : ∀ a, LeavesFile (f a)) :
    LeavesFile (m >>= f) := by
  intro pager after r hrun
  obtain ⟨s, middle, hfirst⟩ := exists_outcome m pager
  obtain ⟨hfile, hlength⟩ := hm _ _ _ hfirst
  cases s with
  | ok a =>
    rw [bind_run hfirst] at hrun
    obtain ⟨hfile', hlength'⟩ := hf a _ _ _ hrun
    exact ⟨hfile'.trans hfile, hlength'.trans hlength⟩
  | error failure =>
    rw [bind_run_error hfirst] at hrun
    obtain ⟨-, rfl⟩ := outcome_inj (r := .error failure) hrun
    exact ⟨hfile, hlength⟩

theorem store (id : PageId) (page : Page) : LeavesFile (Pager.store id page) := by
  intro pager after r hrun
  obtain ⟨-, rfl⟩ := outcome_inj (r := .ok ()) hrun
  exact ⟨rfl, rfl⟩

theorem request (id : PageId) : LeavesFile (Pager.request id) := by
  intro pager after r hrun
  cases requested hrun with
  | refused => exact ⟨rfl, rfl⟩
  | found => exact ⟨rfl, rfl⟩
  | loaded => exact ⟨rfl, rfl⟩

theorem requestPair (a b : PageId) : LeavesFile (Pager.requestPair a b) := by
  rw [requestPair_eq]
  split
  · exact (refuse _).bind fun _ => (request a).bind fun _ => (request b).bind fun _ => .pure _
  · exact (request a).bind fun _ => (request b).bind fun _ => .pure _

theorem allocate : LeavesFile Pager.allocate := by
  intro pager after r hrun
  have hedit : LeavesFile (edit pager.unusedPage (Edit.update fun _ => Bytes.zero)) :=
    (request _).bind fun _ => (store _ _).bind fun _ => .pure _
  rw [Pager.allocate, get_bind_run] at hrun
  dsimp only at hrun
  split at hrun
  · exact (refuse _).bind (fun _ => hedit.bind fun _ => .pure _) _ _ _ hrun
  · exact hedit.bind (fun _ => .pure _) _ _ _ hrun

end LeavesFile

/-! ## Flushing a part of a page -/

/-- The pager after the first `size` bytes of a page have been written. -/
def wrote (pager : Pager) (id : PageId) (page : Page) (size : Nat) : Pager :=
  { pager with
    file := pager.file.write id.fileOffset (page.toList.take size)
    fileLength := max pager.fileLength (id.fileOffset + size)
    counters := pager.counters + .write }

theorem flushed_eq_wrote (pager : Pager) (id : PageId) (page : Page) :
    pager.flushed id page = pager.wrote id page pageSize := by
  rw [flushed, wrote, List.take_of_length_le (Nat.le_of_eq Vector.length_toList)]

theorem run_flush_of_slot {page : Page} {size : Nat} (hsize : size ≤ pageSize)
    (hslot : pager.slot id = some page) :
    (flush id size).run pager = .ok () (pager.wrote id page size) := by
  rw [flush, lift_bind_run (checkBounds_of_lt (index_lt_of_slot hslot)),
    if_neg (Nat.not_lt.mpr hsize)]
  change (get >>= _ : PagerM Unit).run pager = _
  rw [get_bind_run, hslot]
  rfl

/-- Only pages in memory are flushed, and of these at most the bytes that they have. -/
theorem exists_slot_of_flush {size : Nat} (h : (flush id size).run pager = .ok () after) :
    size ≤ pageSize ∧ ∃ page, pager.slot id = some page ∧ after = pager.wrote id page size := by
  by_cases hmax : id.index < maxPages
  · have hfull := h
    rw [flush, lift_bind_run (checkBounds_of_lt hmax)] at h
    split at h
    · cases h
    · rename_i hsize
      replace hsize := Nat.not_lt.mp hsize
      change (get >>= _ : PagerM Unit).run pager = _ at h
      rw [get_bind_run] at h
      split at h
      · cases h
      · rename_i page hslot
        cases hfull.symm.trans (run_flush_of_slot hsize hslot)
        exact ⟨hsize, page, hslot, rfl⟩
  · rw [flush, checkBounds_of_le (Nat.not_lt.mp hmax)] at h
    cases h

section Wrote

variable {page : Page} {size : Nat}

theorem length_take_page (page : Page) (hsize : size ≤ pageSize) :
    (page.toList.take size).length = size := by
  rw [List.length_take, Vector.length_toList, Nat.min_eq_left hsize]

/-- The bytes that were flushed stand in the file.  All others are as before; those between
    the old end of the file and the page read as zero, now as then. -/
theorem byte_wrote (pager : Pager) (id : PageId) (page : Page) (hsize : size ≤ pageSize) (i : Nat) :
    (pager.wrote id page size).file.byte i =
      if id.fileOffset ≤ i ∧ i < id.fileOffset + size then page.byte (i - id.fileOffset)
      else pager.file.byte i := by
  rw [wrote, Image.byte_write, length_take_page page hsize]
  split
  · rename_i hi
    have hlt : i - id.fileOffset < size := by omega
    have hpage : i - id.fileOffset < pageSize := Nat.lt_of_lt_of_le hlt hsize
    rw [List.getElem?_take_of_lt hlt, Vector.getElem?_toList]
    rfl
  · rfl

theorem size_wrote (pager : Pager) (id : PageId) (page : Page) (hsize : size ≤ pageSize) :
    (pager.wrote id page size).file.size =
      if size = 0 then pager.file.size else max pager.file.size (id.fileOffset + size) := by
  have hlen := length_take_page page hsize
  rw [wrote]
  split
  · rename_i hzero
    subst hzero
    rw [Image.write, if_pos (List.eq_nil_of_length_eq_zero hlen)]
  · rename_i hpos
    have hne : page.toList.take size ≠ [] := by
      intro hnil
      rw [hnil] at hlen
      exact hpos hlen.symm
    rw [Image.size_write _ _ _ hne, hlen]

end Wrote

/-! ## The length after any calls -/

/-- How far the pager takes the file to reach because a flush of no bytes was asked for. -/
def Call.emptyReach (pager : Pager) : Call → Nat
  | .flush id 0 => if pager.isLoaded id then id.fileOffset else 0
  | _ => 0

/-- The furthest place that one of the calls has flushed no bytes to. -/
def emptyReach : List Call → Pager → Nat
  | [], _ => 0
  | call :: calls, pager => max (call.emptyReach pager) (emptyReach calls (afterCall call pager))

/-- The pager takes the file to reach to its end, or to `z` if that is further. -/
def Measures (z : Nat) (pager : Pager) : Prop := pager.fileLength = max pager.file.size z

theorem Measures.of_leavesFile {m : PagerM α} {r : Except Failure α} (h : pager.Measures z)
    (hm : LeavesFile m) (hrun : m.run pager = outcome r after) : after.Measures z := by
  obtain ⟨hfile, hlength⟩ := hm _ _ _ hrun
  rw [Measures, hfile, hlength]
  exact h

theorem Measures.wrote {page : Page} {size : Nat} (h : pager.Measures z) (hsize : size ≤ pageSize) :
    (pager.wrote id page size).Measures (max z (if size = 0 then id.fileOffset else 0)) := by
  have hlength : (pager.wrote id page size).fileLength =
      max pager.fileLength (id.fileOffset + size) := rfl
  rw [Measures, size_wrote pager id page hsize, hlength, show pager.fileLength = _ from h]
  split
  · omega
  · omega

/-- A call adds to the reach of the empty flushes what it reaches itself. -/
theorem Measures.afterCall (h : pager.Measures z) (call : Call) :
    (Pager.afterCall call pager).Measures (max z (call.emptyReach pager)) := by
  obtain ⟨r, after, hrun⟩ := exists_outcome call.run pager
  rw [afterCall_of_run hrun]
  have hkeep (hreach : call.emptyReach pager = 0) (hafter : after.Measures z) :
      after.Measures (max z (call.emptyReach pager)) := by
    rwa [hreach, Nat.max_zero]
  cases call with
  | request id write =>
    exact hkeep rfl (h.of_leavesFile ((LeavesFile.request id).bind fun _ => .store _ _) hrun)
  | requestPair a b write =>
    exact hkeep rfl (h.of_leavesFile
      ((LeavesFile.requestPair a b).bind fun _ => (LeavesFile.store _ _).bind fun _ => .store _ _)
      hrun)
  | allocate =>
    exact hkeep rfl (h.of_leavesFile (LeavesFile.allocate.bind fun _ => .pure _) hrun)
  | flush id size =>
    cases r with
    | ok a =>
      obtain ⟨hsize, page, hslot, rfl⟩ := exists_slot_of_flush hrun
      have hloaded : pager.isLoaded id = true := isLoaded_iff.mpr ⟨page, hslot⟩
      have hreach : Call.emptyReach pager (.flush id size) =
          if size = 0 then id.fileOffset else 0 := by
        cases size with
        | zero => rw [Call.emptyReach, if_pos hloaded, if_pos rfl]
        | succ n => rfl
      rw [hreach]
      exact h.wrote hsize
    | error failure =>
      obtain rfl := flush_error hrun
      refine hkeep ?_ h
      cases size with
      | zero =>
        -- What is loaded could have been flushed.
        rw [Call.emptyReach, if_neg]
        intro hloaded
        obtain ⟨page, hslot⟩ := isLoaded_iff.mp hloaded
        cases hrun.symm.trans (run_flush_of_slot (Nat.zero_le _) hslot)
      | succ n => rfl
  | flushAll =>
    have hwrite : ∀ {pager : Pager} {id : PageId} {page : Page}, pager.slot id = some page →
        pager.Measures z → (pager.flushed id page).Measures z := by
      intro pager id page _ h
      have hwrote : (pager.wrote id page pageSize).Measures _ := h.wrote (Nat.le_refl pageSize)
      rw [if_neg (by decide), Nat.max_zero] at hwrote
      rwa [flushed_eq_wrote]
    obtain ⟨last, hrun', hlast⟩ := exists_flushAll_of hwrite h
    obtain ⟨-, rfl⟩ := outcome_inj (r := .ok ()) (hrun'.symm.trans hrun)
    exact hkeep rfl hlast

theorem Measures.afterCalls (h : pager.Measures z) (calls : List Call) :
    (Pager.afterCalls calls pager).Measures (max z (emptyReach calls pager)) := by
  induction calls generalizing pager z with
  | nil =>
    rw [emptyReach, Nat.max_zero]
    exact h
  | cons call calls ih =>
    rw [afterCalls_cons, emptyReach, ← Nat.max_assoc]
    exact ih (h.afterCall call)

/-- Without a flush of no bytes nothing is reached. -/
theorem emptyReach_eq_zero {calls : List Call} (h : ∀ id, .flush id 0 ∉ calls) (pager : Pager) :
    emptyReach calls pager = 0 := by
  induction calls generalizing pager with
  | nil => rfl
  | cons call calls ih =>
    have hrest : ∀ id, .flush id 0 ∉ calls := fun id hmem => h id (List.mem_cons_of_mem _ hmem)
    have hcall : call.emptyReach pager = 0 := by
      unfold Call.emptyReach
      split
      · rename_i id
        exact absurd List.mem_cons_self (h id)
      · rfl
    rw [emptyReach, hcall, ih hrest]
    rfl

/-- A request that is in bounds is granted, unless the file does not reach as far as the pager
    takes it to. -/
theorem request_ok_or_unreadable (pager : Pager) (hmax : id.index < maxPages) :
    (∃ page after, (request id).run pager = .ok page after) ∨
      pager.slot id = none ∧
      pager.file.size < min pager.fileLength (id.fileOffset + pageSize) ∧
      ∃ after, (request id).run pager = .error (.error (.io .endOfFile)) after := by
  cases hrun : (request id).run pager with
  | ok page after => exact .inl ⟨page, after, rfl⟩
  | error failure after =>
    right
    cases request_error hrun with
    | outOfBounds hle => exact absurd hmax (Nat.not_lt.mpr hle)
    | unreadable hslot hshort => exact ⟨hslot, hshort, _, rfl⟩

/-- **The length that a pager knows.**  Whatever a pager has been called for since it was opened,
    its length of the file is the real one, or the furthest place that was flushed with no
    bytes, if that is further.  If all flushes wrote something, it is the real one, and every
    page in bounds can be requested.  A flush changes the bytes that it writes and no others.
    A page in bounds that is refused is not in memory, and the file ends before the page does
    and before the length. -/
theorem fileLength_counts_empty_flushes {location : Location} {file : Image}
    (hfile : location.openFile = .ok file) (calls : List Call) : ∃ opened last : Pager,
    openAt location = .ok opened ∧ last = afterCalls calls opened ∧
    last.fileLength = max last.file.size (emptyReach calls opened) ∧
    ((∀ id, .flush id 0 ∉ calls) → last.fileLength = last.file.size ∧
      ∀ id : PageId, id.index < maxPages → ∃ page after, (request id).run last = .ok page after) ∧
    (∀ id size after, (flush id size).run last = .ok () after → size ≤ pageSize ∧
      ∃ page, last.slot id = some page ∧
        after.file.size =
          (if size = 0 then last.file.size else max last.file.size (id.fileOffset + size)) ∧
        ∀ i, after.file.byte i =
          if id.fileOffset ≤ i ∧ i < id.fileOffset + size then page.byte (i - id.fileOffset)
          else last.file.byte i) ∧
    (∀ id : PageId, id.index < maxPages →
      (∃ page after, (request id).run last = .ok page after) ∨
      last.slot id = none ∧ last.file.size < min last.fileLength (id.fileOffset + pageSize) ∧
        ∃ after, (request id).run last = .error (.error (.io .endOfFile)) after) := by
  have hopened : (ofImage file).Measures 0 := (Nat.max_zero _).symm
  have hlast := hopened.afterCalls calls
  rw [Nat.zero_max] at hlast
  refine ⟨ofImage file, _, by rw [openAt, hfile]; rfl, rfl, hlast, fun h => ?_, ?_, ?_⟩
  · have hlength : (afterCalls calls (ofImage file)).fileLength = _ := hlast
    rw [emptyReach_eq_zero h, Nat.max_zero] at hlength
    refine ⟨hlength, fun id hmax => ?_⟩
    rcases request_ok_or_unreadable _ hmax with hok | ⟨-, hshort, -⟩
    · exact hok
    · omega
  · intro id size after hrun
    obtain ⟨hsize, page, hslot, rfl⟩ := exists_slot_of_flush hrun
    exact ⟨hsize, page, hslot, size_wrote _ id page hsize, byte_wrote _ id page hsize⟩
  · intro id hmax
    exact request_ok_or_unreadable _ hmax

/-- The second page of an empty store is requested, and no bytes of it are flushed.  The file
    is still empty, but the pager takes it to be one page long, and cannot read that page. -/
theorem fileLength_counts_empty_flushes_second_page : ∃ opened last : Pager,
    openAt (.file #[]) = .ok opened ∧
    last = afterCalls [.request ⟨1⟩ fun page => page, .flush ⟨1⟩ 0] opened ∧
    last.file.size = 0 ∧ last.fileLength = 4096 ∧
    ∃ after, (request ⟨0⟩).run last = .error (.error (.io .endOfFile)) after := by
  have hfile : (Location.file #[]).openFile = .ok #[] := rfl
  obtain ⟨opened, last, hopen, rfl, hlength, -, -, hrequest⟩ :=
    fileLength_counts_empty_flushes hfile [.request ⟨1⟩ fun page => page, .flush ⟨1⟩ 0]
  cases hopen
  have hreach : emptyReach [.request ⟨1⟩ fun page => page, .flush ⟨1⟩ 0] (ofImage #[]) = 4096 := rfl
  rw [hreach] at hlength
  refine ⟨_, _, rfl, rfl, rfl, hlength, ?_⟩
  rcases hrequest ⟨0⟩ (by decide) with ⟨page, after, hok⟩ | ⟨-, -, herror⟩
  · cases hok
  · exact herror

end Pager
end RowStore
