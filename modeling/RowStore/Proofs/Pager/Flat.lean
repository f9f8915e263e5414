/-
  RowStore/Proofs/Pager/Flat.lean
  ===============================
  **A pager is a flat array of pages.**  What its callers see of it is a number of pages and
  the bytes of each, and neither which pages are loaded nor what the file has of them by
  now.  A `Flat` is just that much.

  `Flat.Request` lists what is asked of a pager: one page or two, with whatever is then written
  into them, a new page, saving, and opening again what was saved.  A pager replies to each
  request as the array does, also where the request fails, and is left as the array is.
  So the same holds of any number of requests.
-/
import RowStore.Proofs.Pager.Memory
import RowStore.Proofs.Pager.Save

namespace RowStore

/-! ## Requests to an array -/

/-- So many pages, one after the other.  Pages behind the last one are there to come. -/
structure Flat where
  numPages : Nat
  page : PageId → Page

namespace Flat

/-- What is asked of a pager.  Who gets a page may write anything into it. -/
inductive Request where
  | page (id : PageId) (write : Page → Page)
  | pair (a b : PageId) (write : Page × Page → Page × Page)
  | allocate
  | save
  | reopen

/-- What is given in reply, pages as they are before they are written into. -/
inductive Reply where
  | page (page : Page)
  | pair (first second : Page)
  | allocated (id : PageId)
  | done

def put (flat : Flat) (id : PageId) (page : Page) : Flat :=
  { flat with page := fun other => if other = id then page else flat.page other }

/-- The array in which page `id` exists, and so do all before it. -/
def reach (flat : Flat) (id : PageId) : Flat :=
  { flat with numPages := max flat.numPages (id.index + 1) }

/-- The reply of an array, and what becomes of it. -/
def perform (flat : Flat) : Request → Except Failure Reply × Flat
  | .page id write =>
    if id.index < maxPages then
      (.ok (.page (flat.page id)), (flat.reach id).put id (write (flat.page id)))
    else (.error (.error (.pageOutOfBounds id maxPages)), flat)
  | .pair a b write =>
    if a = b then (.error (.error (.corrupted (.samePair a))), flat)
    else if maxPages ≤ a.index then (.error (.error (.pageOutOfBounds a maxPages)), flat)
    else if maxPages ≤ b.index then
      (.error (.error (.pageOutOfBounds b maxPages)), flat.reach a)
    else
      let written := write (flat.page a, flat.page b)
      (.ok (.pair (flat.page a) (flat.page b)),
        (((flat.reach a).reach b).put a written.1).put b written.2)
  | .allocate =>
    if maxPages ≤ flat.numPages then (.error (.error .tableFull), flat)
    else
      let new := PageId.ofNat flat.numPages
      (.ok (.allocated new), { flat with numPages := flat.numPages + 1 }.put new Bytes.zero)
  | .save | .reopen => (.ok .done, flat)

def serve : List Request → Flat → List (Except Failure Reply) × Flat
  | [], flat => ([], flat)
  | request :: rest, flat =>
    let (reply, after) := flat.perform request
    let (replies, last) := serve rest after
    (reply :: replies, last)

end Flat

/-! ## Requests to a pager -/

namespace Flat.Request

open Pager

def run : Request → PagerM Reply
  | page id write => do
    let page ← request id
    store id (write page)
    return .page page
  | pair a b write => do
    let pages ← requestPair a b
    let written := write pages
    store a written.1
    store b written.2
    return .pair pages.1 pages.2
  | allocate => return .allocated (← Pager.allocate)
  | save => do
    flushAll
    return .done
  | reopen => do
    flushAll
    set (← openAt (.file (← get).file))
    return .done

/-- The reply of a pager, and what becomes of it. -/
def perform (request : Request) (pager : Pager) : Except Failure Reply × Pager :=
  match request.run pager with
  | .ok reply after => (.ok reply, after)
  | .error failure after => (.error failure, after)

theorem perform_of_run {request : Request} {pager after : Pager} {r : Except Failure Reply}
    (hrun : request.run.run pager = outcome r after) : request.perform pager = (r, after) := by
  replace hrun : request.run pager = outcome r after := hrun
  cases r with
  | ok reply => simp only [perform, hrun, outcome]
  | error failure => simp only [perform, hrun, outcome]

end Flat.Request

namespace Pager

open Flat (Request Reply)

def serve : List Request → Pager → List (Except Failure Reply) × Pager
  | [], pager => ([], pager)
  | request :: rest, pager =>
    let (reply, after) := request.perform pager
    let (replies, last) := serve rest after
    (reply :: replies, last)

/-- What the callers see. -/
def flat (pager : Pager) : Flat := { numPages := pager.numPages, page := pager.content }

/-- A coherent pager whose page numbers have not run out. -/
structure Numbered (pager : Pager) : Prop where
  coherent : pager.Coherent
  numPages_lt : pager.view.numPages < 4294967296

/-! ## Pairs of pages -/

section Pair

variable {a b : PageId}

theorem requestPair_same (a : PageId) (v : View) :
    Leads view (requestPair a a) v (.error (.error (.corrupted (.samePair a)))) v := by
  rw [requestPair_eq, if_pos rfl]
  exact (Leads.refuse _).bind_error

theorem requestPair_refused (hab : a ≠ b) (ha : maxPages ≤ a.index) (v : View) :
    Leads view (requestPair a b) v (.error (.error (.pageOutOfBounds a maxPages))) v := by
  rw [requestPair_eq, if_neg hab]
  exact (request_refused ha v).bind_error

/-- If only the second page is refused, the first has been requested. -/
theorem requestPair_half (hab : a ≠ b) (ha : a.index < maxPages) (hb : maxPages ≤ b.index)
    (v : View) : Leads view (requestPair a b) v (.error (.error (.pageOutOfBounds b maxPages)))
      (v.reach a) := by
  rw [requestPair_eq, if_neg hab]
  exact (request_leads ha v).bind (request_refused hb (v.reach a)).bind_error

/-- Two pages come in the order in which they were asked for. -/
theorem requestPair_leads (hab : a ≠ b) (ha : a.index < maxPages) (hb : b.index < maxPages)
    (v : View) : Leads view (requestPair a b) v (.ok (v.page a, v.page b))
      ((v.reach a).reach b) := by
  rw [requestPair_eq, if_neg hab]
  exact (request_leads ha v).bind ((request_leads hb (v.reach a)).bind (.pure _))

end Pair

/-! ## One request -/

section OneRequest

variable {pager : Pager}

/-- What a step does to a view it does to the array. -/
theorem Numbered.of_leads {m : PagerM Reply} {r : Except Failure Reply} {w : View}
    (hp : pager.Numbered) (hm : Leads view m pager.view r w) (hw : w.numPages < 4294967296) :
    ∃ after : Pager, m.run pager = outcome r after ∧ after.Numbered ∧
      after.flat = ⟨w.numPages, w.page⟩ := by
  obtain ⟨after, hrun, hafter, rfl⟩ := hm pager hp.coherent rfl
  exact ⟨after, hrun, ⟨hafter, hw⟩, rfl⟩

theorem numPages_reach_lt {v : View} {id : PageId} (hv : v.numPages < 4294967296)
    (hid : id.index < maxPages) : (v.reach id).numPages < 4294967296 :=
  Nat.max_lt.mpr ⟨hv, Nat.lt_of_le_of_lt hid (by decide)⟩

theorem exists_run_page (hp : pager.Numbered) (id : PageId) (write : Page → Page) :
    ∃ after : Pager, (Request.page id write).run.run pager =
        outcome (pager.flat.perform (.page id write)).1 after ∧ after.Numbered ∧
      after.flat = (pager.flat.perform (.page id write)).2 := by
  by_cases hid : id.index < maxPages
  · have hreach : id.index < (pager.view.reach id).numPages := Nat.le_max_right _ _
    have hrun : Leads view (Request.page id write).run pager.view (.ok (.page (pager.content id)))
        ((pager.view.reach id).set id (write (pager.content id))) :=
      (request_leads hid pager.view).bind ((store_leads _ hid hreach).bind (.pure _))
    rw [Flat.perform, if_pos hid]
    exact hp.of_leads hrun (numPages_reach_lt hp.numPages_lt hid)
  · rw [Flat.perform, if_neg hid]
    exact hp.of_leads (request_refused (Nat.not_lt.mp hid) pager.view).bind_error hp.numPages_lt

theorem exists_run_pair (hp : pager.Numbered) (a b : PageId) (write : Page × Page → Page × Page) :
    ∃ after : Pager, (Request.pair a b write).run.run pager =
        outcome (pager.flat.perform (.pair a b write)).1 after ∧ after.Numbered ∧
      after.flat = (pager.flat.perform (.pair a b write)).2 := by
  rw [Flat.perform]
  by_cases hab : a = b
  · subst hab
    rw [if_pos rfl]
    exact hp.of_leads (requestPair_same a pager.view).bind_error hp.numPages_lt
  rw [if_neg hab]
  by_cases ha : a.index < maxPages
  · rw [if_neg (Nat.not_le.mpr ha)]
    have hreachA := numPages_reach_lt hp.numPages_lt ha
    by_cases hb : b.index < maxPages
    · rw [if_neg (Nat.not_le.mpr hb)]
      have hlast : b.index < ((pager.view.reach a).reach b).numPages := Nat.le_max_right _ _
      have hfirst : a.index < ((pager.view.reach a).reach b).numPages :=
        Nat.lt_of_lt_of_le (Nat.le_max_right pager.view.numPages _) (Nat.le_max_left _ _)
      have hstores (x y : Page) : Leads view (do
            store a x
            store b y
            return Reply.pair (pager.content a) (pager.content b)) ((pager.view.reach a).reach b)
          (.ok (Reply.pair (pager.content a) (pager.content b)))
          ((((pager.view.reach a).reach b).set a x).set b y) :=
        (store_leads x ha hfirst).bind
          ((store_leads (v := ((pager.view.reach a).reach b).set a x) y hb hlast).bind (.pure _))
      have hrun : Leads view (Request.pair a b write).run pager.view _ _ :=
        Leads.bind (requestPair_leads hab ha hb pager.view) (hstores _ _)
      exact hp.of_leads hrun (numPages_reach_lt hreachA hb)
    · have hb := Nat.not_lt.mp hb
      rw [if_pos hb]
      exact hp.of_leads (requestPair_half hab ha hb pager.view).bind_error hreachA
  · have ha := Nat.not_lt.mp ha
    rw [if_pos ha]
    exact hp.of_leads (requestPair_refused hab ha pager.view).bind_error hp.numPages_lt

theorem exists_run_allocate (hp : pager.Numbered) :
    ∃ after : Pager, Request.allocate.run.run pager =
        outcome (pager.flat.perform .allocate).1 after ∧ after.Numbered ∧
      after.flat = (pager.flat.perform .allocate).2 := by
  by_cases hfull : maxPages ≤ pager.numPages
  · rw [Flat.perform, if_pos (show maxPages ≤ pager.flat.numPages from hfull)]
    exact hp.of_leads (allocate_refused hfull hp.numPages_lt).bind_error hp.numPages_lt
  · have hroom : pager.view.numPages < maxPages := Nat.not_le.mp hfull
    have hnum : pager.view.numPages + 1 < 4294967296 := Nat.lt_of_le_of_lt hroom (by decide)
    have hrun : Leads view Request.allocate.run pager.view
        (.ok (.allocated (PageId.ofNat pager.numPages)))
        ({ pager.view with numPages := pager.numPages + 1 }.set (PageId.ofNat pager.numPages)
          Bytes.zero) :=
      (allocate_leads hroom).bind (.pure _)
    rw [Flat.perform, if_neg (show ¬maxPages ≤ pager.flat.numPages from hfull)]
    exact hp.of_leads hrun hnum

theorem exists_run_save (hp : pager.Numbered) :
    ∃ after : Pager, Request.save.run.run pager = outcome (.ok .done) after ∧ after.Numbered ∧
      after.flat = pager.flat := by
  obtain ⟨after, hrun, hkeeps, -⟩ := exists_flushAll hp.coherent
  have hnum : after.view.numPages = pager.view.numPages := hkeeps.numPages_eq
  refine ⟨after, bind_run hrun, ⟨hkeeps.coherent, hnum ▸ hp.numPages_lt⟩, ?_⟩
  rw [flat, hkeeps.numPages_eq, hkeeps.content_eq]
  rfl

theorem exists_run_reopen (hp : pager.Numbered) :
    ∃ after : Pager, Request.reopen.run.run pager = outcome (.ok .done) after ∧ after.Numbered ∧
      after.flat = pager.flat := by
  obtain ⟨saved, hrun, hkeeps, hbacked⟩ := exists_flushAll hp.coherent
  obtain ⟨hafter, hnum, hcontent⟩ := ofImage_of_flushed hp.numPages_lt hkeeps hbacked
  have hview : (ofImage saved.file).view.numPages = pager.view.numPages := hnum
  refine ⟨ofImage saved.file, (bind_run hrun).trans rfl, ⟨hafter, hview ▸ hp.numPages_lt⟩, ?_⟩
  rw [flat, hnum, hcontent]
  rfl

/-- A pager replies to a request as the array that it shows, and shows what that becomes. -/
theorem perform_flat (hp : pager.Numbered) (request : Request) :
    (request.perform pager).1 = (pager.flat.perform request).1 ∧
      (request.perform pager).2.Numbered ∧
      (request.perform pager).2.flat = (pager.flat.perform request).2 := by
  have hrun : ∃ after : Pager, request.run.run pager =
      outcome (pager.flat.perform request).1 after ∧ after.Numbered ∧
        after.flat = (pager.flat.perform request).2 := by
    cases request with
    | page id write => exact exists_run_page hp id write
    | pair a b write => exact exists_run_pair hp a b write
    | allocate => exact exists_run_allocate hp
    | save => exact exists_run_save hp
    | reopen => exact exists_run_reopen hp
  obtain ⟨after, hrun, hafter, hflat⟩ := hrun
  rw [Request.perform_of_run hrun]
  exact ⟨rfl, hafter, hflat⟩

end OneRequest

/-! ## Runs of requests -/

theorem serve_flat {pager : Pager} (hp : pager.Numbered) (requests : List Request) :
    (serve requests pager).1 = (Flat.serve requests pager.flat).1 ∧
      (serve requests pager).2.Numbered ∧
      (serve requests pager).2.flat = (Flat.serve requests pager.flat).2 := by
  induction requests generalizing pager with
  | nil => exact ⟨rfl, hp, rfl⟩
  | cons request rest ih =>
    obtain ⟨hreply, hafter, hflat⟩ := perform_flat hp request
    obtain ⟨hreplies, hlast, hflat'⟩ := ih hafter
    rw [hflat] at hreplies hflat'
    simp only [serve, Flat.serve]
    exact ⟨by rw [hreply, hreplies], hlast, hflat'⟩

/-- Behind the last page nothing is loaded and nothing is in the file. -/
theorem Coherent.fresh {pager : Pager} (hp : pager.Coherent) {id : PageId}
    (hid : pager.numPages ≤ id.index) :
    pager.isLoaded id = false ∧ pager.file.size ≤ id.fileOffset := by
  refine ⟨?_, Nat.le_trans hp.file_le (Nat.mul_le_mul_right pageSize hid)⟩
  rw [Bool.eq_false_iff]
  exact fun hloaded => Nat.not_lt.mpr hid (hp.loaded_lt id hloaded)

theorem numbered_ofImage {file : Image}
    (hsize : (file.size + (pageSize - 1)) / pageSize < 4294967296) : (ofImage file).Numbered :=
  ⟨coherent_ofImage hsize, Nat.mod_lt _ (by decide)⟩

/-- **A pager is a flat array.**  Opened on a file, it has as many pages as the file, with
    the bytes of the file and zeros behind its end.  Whatever is asked of it from then on, its
    replies are those of the array, and it is left as the array is: no page changes but
    what is written into, and saving and opening again change nothing.  A page that is still
    to be allocated is neither loaded nor in the file. -/
theorem serves_as_flat_array {location : Location} {file : Image}
    (hfile : location.openFile = .ok file)
    (hsize : (file.size + (pageSize - 1)) / pageSize < 4294967296) :
    ∃ pager : Pager, openAt location = .ok pager ∧
      pager.numPages = (file.size + (pageSize - 1)) / pageSize ∧
      (∀ id, pager.content id = file.pageAt id.fileOffset pageSize) ∧
      ∀ requests : List Request,
        (serve requests pager).1 = (Flat.serve requests pager.flat).1 ∧
        (serve requests pager).2.flat = (Flat.serve requests pager.flat).2 ∧
        ∀ id : PageId, (serve requests pager).2.numPages ≤ id.index →
          (serve requests pager).2.isLoaded id = false ∧
            (serve requests pager).2.file.size ≤ id.fileOffset := by
  refine ⟨ofImage file, by rw [openAt, hfile]; rfl, Nat.mod_eq_of_lt hsize, fun id => ?_,
    fun requests => ?_⟩
  · exact content_of_not_loaded (slot_ofImage file id)
  · obtain ⟨hreplies, hlast, hflat⟩ := serve_flat (numbered_ofImage hsize) requests
    exact ⟨hreplies, hflat, fun id => hlast.coherent.fresh⟩

/-- A file of one byte has one page.  A pair with a page that no store has is refused, and
    new pages are the second and, after saving and opening again, the third. -/
theorem serves_as_flat_array_short : ∃ pager : Pager, openAt (.file #[7]) = .ok pager ∧
    pager.numPages = 1 ∧ (pager.content PageId.root).byte 0 = 7 ∧
    (serve [.pair ⟨0⟩ ⟨100⟩ id, .allocate, .reopen, .allocate] pager).1 =
      [.error (.error (.pageOutOfBounds ⟨100⟩ maxPages)), .ok (.allocated ⟨1⟩), .ok .done,
        .ok (.allocated ⟨2⟩)] := by
  have hfile : (Location.file #[7]).openFile = .ok #[7] := rfl
  obtain ⟨pager, hopen, hnum, hcontent, hserve⟩ := serves_as_flat_array hfile (by decide)
  have hone : pager.numPages = 1 := hnum
  refine ⟨pager, hopen, hone, ?_, ?_⟩
  · rw [hcontent, Image.byte_pageAt _ _ _ (by decide), if_pos (by decide)]
    simp [Image.byte, PageId.fileOffset, PageId.root, PageId.index]
  · rw [(hserve _).1, flat, hone]
    rfl

end Pager
end RowStore
