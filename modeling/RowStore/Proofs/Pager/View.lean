/-
  RowStore/Proofs/Pager/View.lean
  ===============================
  **What a pager shows.**  The counters of a pager and the choice of loaded pages are
  nobody's business but the pager's.  What the layers above rely on is a *view*: the
  file, the number of pages, and the bytes of every page, whether they are in memory
  or still in the file.

  A view says everything only if the pager is *coherent*: it knows the true length of
  its file, its pages reach to the end of the file, and the last of them is backed by
  memory or by the file.  Pagers are opened coherent, and every step keeps them so.

  `Leads look m s r t` says what a step `m` does as far as `look` can see: from every
  coherent pager that looks like `s` it ends with `r` and leaves one that looks like `t`.
  Programs are run on views (or on coarser looks) by the rules for `pure` and `>>=` and
  one rule for each operation of the pager.
-/
import Mathlib.Tactic.Common
import RowStore.Proofs.Run
import RowStore.Pager.Basic

namespace RowStore

variable {α β σ τ : Type}

/-! ## Looking at a pager -/

/-- A pager without what only the pager needs to know. -/
structure View where
  file : Image
  numPages : Nat
  page : PageId → Page

namespace Pager

/-- The bytes of a page: those in memory, or else those in the file, with zeros behind
    its end. -/
def content (pager : Pager) (id : PageId) : Page :=
  (pager.slot id).getD (pager.file.pageAt id.fileOffset pageSize)

/-- What a pager shows. -/
def view (pager : Pager) : View :=
  { file := pager.file, numPages := pager.numPages, page := pager.content }

/-- Length, page count and loaded pages of a pager fit its file. -/
structure Coherent (pager : Pager) : Prop where
  fileLength_eq : pager.fileLength = pager.file.size
  file_le : pager.file.size ≤ pager.numPages * pageSize
  loaded_lt : ∀ id, pager.isLoaded id = true → id.index < pager.numPages
  last_backed : ∀ id : PageId, id.index + 1 = pager.numPages →
    pager.isLoaded id = true ∨ id.fileOffset < pager.file.size

theorem isLoaded_iff {pager : Pager} {id : PageId} :
    pager.isLoaded id = true ↔ ∃ page, pager.slot id = some page := by
  rw [isLoaded, Option.isSome_iff_exists]

/-- Nobody has loaded a page number that no store has. -/
theorem slot_of_le (pager : Pager) {id : PageId} (h : maxPages ≤ id.index) :
    pager.slot id = none := by
  rw [slot, Vector.getElem?_eq_none h]
  rfl

theorem content_of_slot {pager : Pager} {id : PageId} {page : Page}
    (h : pager.slot id = some page) : pager.content id = page := by
  rw [content, h, Option.getD_some]

theorem content_of_not_loaded {pager : Pager} {id : PageId} (h : pager.slot id = none) :
    pager.content id = pager.file.pageAt id.fileOffset pageSize := by
  rw [content, h, Option.getD_none]

/-- A page behind the last one is blank. -/
theorem Coherent.content_of_le {pager : Pager} (hp : pager.Coherent) {id : PageId}
    (h : pager.numPages ≤ id.index) : pager.content id = Bytes.zero := by
  have hslot : pager.slot id = none := by
    cases hs : pager.slot id with
    | none => rfl
    | some page =>
      have := hp.loaded_lt id (isLoaded_iff.mpr ⟨page, hs⟩)
      omega
  rw [content_of_not_loaded hslot]
  apply Bytes.ext_byte
  intro i hi
  have hfile := hp.file_le
  have hmul : pager.numPages * pageSize ≤ id.index * pageSize := Nat.mul_le_mul_right _ h
  rw [Image.byte_pageAt _ _ _ hi, if_pos hi, Bytes.byte_zero]
  exact Image.byte_of_le _ (Nat.le_trans hfile (Nat.le_trans hmul (Nat.le_add_right _ _)))

end Pager

/-! ## Steps as they look -/

/-- A step that ends with `r` on the state `s`. -/
def outcome (r : Except Failure α) (s : σ) : EStateM.Result Failure σ α :=
  match r with
  | .ok a => .ok a s
  | .error failure => .error failure s

theorem outcome_inj {r r' : Except Failure α} {s s' : σ} (h : outcome r s = outcome r' s') :
    r = r' ∧ s = s' := by
  cases r <;> cases r' <;> cases h <;> exact ⟨rfl, rfl⟩

theorem run_map {m : EStateM Failure σ α} {s t : σ} {r : Except Failure α}
    (hrun : m.run s = outcome r t) (f : α → β) :
    (m >>= fun a => Pure.pure (f a)).run s = outcome (r.map f) t := by
  cases r with
  | ok a => exact bind_run hrun
  | error failure => exact bind_run_error hrun

/-- What a step does as far as `look` can see. -/
def Leads (look : Pager → σ) (m : PagerM α) (s : σ) (r : Except Failure α) (t : σ) : Prop :=
  ∀ pager : Pager, pager.Coherent → look pager = s →
    ∃ after : Pager, m.run pager = outcome r after ∧ after.Coherent ∧ look after = t

namespace Leads

variable {look : Pager → σ} {s t u : σ}

theorem pure (a : α) : Leads look (Pure.pure a) s (.ok a) s :=
  fun pager hp hs => ⟨pager, rfl, hp, hs⟩

theorem throw (failure : Failure) : Leads look (α := α) (throw failure) s (.error failure) s :=
  fun pager hp hs => ⟨pager, rfl, hp, hs⟩

theorem refuse (e : Error) : Leads look (α := α) (refuse e) s (.error (.error e)) s :=
  throw _

/-- A check leaves everything as it is. -/
theorem lift (check : Except Failure α) : Leads look (liftM check) s check s := by
  intro pager hp hs
  refine ⟨pager, ?_, hp, hs⟩
  cases check <;> rfl

theorem bind {m : PagerM α} {f : α → PagerM β} {a : α} {r : Except Failure β}
    (hm : Leads look m s (.ok a) t) (hf : Leads look (f a) t r u) :
    Leads look (m >>= f) s r u := by
  intro pager hp hs
  obtain ⟨middle, hrun, hmiddle, ht⟩ := hm pager hp hs
  obtain ⟨after, hrun', hafter, hu⟩ := hf middle hmiddle ht
  exact ⟨after, (bind_run hrun).trans hrun', hafter, hu⟩

theorem bind_error {m : PagerM α} {f : α → PagerM β} {failure : Failure}
    (hm : Leads look m s (.error failure) t) :
    Leads look (m >>= f) s (.error failure) t := by
  intro pager hp hs
  obtain ⟨after, hrun, hafter, ht⟩ := hm pager hp hs
  exact ⟨after, bind_run_error hrun, hafter, ht⟩

/-- A program that asks for the pager has to go on alike for all that look alike. -/
theorem get_bind {f : Pager → PagerM β} {r : Except Failure β}
    (hf : ∀ pager : Pager, look pager = s → Leads look (f pager) s r t) :
    Leads look (get >>= f) s r t :=
  fun pager hp hs => hf pager hs pager hp hs

end Leads

/-! ## Operations on views -/

namespace View

/-- The view with other bytes for one page. -/
def set (v : View) (id : PageId) (page : Page) : View :=
  { v with page := fun other => if other = id then page else v.page other }

/-- The view in which page `id` exists, and so do all before it. -/
def reach (v : View) (id : PageId) : View :=
  { v with numPages := max v.numPages (id.index + 1) }

@[simp] theorem set_page_self (v : View) (id : PageId) (page : Page) :
    (v.set id page).page id = page := by
  simp [set]

theorem set_page_of_ne (v : View) {id other : PageId} (page : Page) (h : other ≠ id) :
    (v.set id page).page other = v.page other := by
  simp [set, h]

/-- Setting a page to what it shows changes nothing. -/
@[simp] theorem set_page (v : View) (id : PageId) : v.set id (v.page id) = v := by
  have h : (fun other => if other = id then v.page id else v.page other) = v.page := by
    funext other
    split
    · rename_i he
      rw [he]
    · rfl
  rw [set, h]

/-- A page that exists is reached already. -/
theorem reach_of_lt {v : View} {id : PageId} (h : id.index < v.numPages) : v.reach id = v := by
  simp only [reach, Nat.max_eq_left (show id.index + 1 ≤ v.numPages from h)]

end View

namespace Pager

open Leads

/-- Putting a page into its slot changes what is shown of it, and nothing else. -/
theorem view_store {pager after : Pager} {id : PageId} {page : Page} (hmax : id.index < maxPages)
    (h : (store id page).run pager = .ok () after) : after.view = pager.view.set id page := by
  have hslot := slot_store h hmax
  cases h
  simp only [view, View.set, View.mk.injEq, true_and]
  funext other
  rw [content, hslot]
  by_cases he : other = id
  · simp [he]
  · simp only [if_neg he]
    rfl

/-- Putting a page into its slot backs this page. -/
theorem exists_store (pager : Pager) {id : PageId} (page : Page) (hmax : id.index < maxPages)
    (hid : id.index < pager.numPages) (hlength : pager.fileLength = pager.file.size)
    (hfile : pager.file.size ≤ pager.numPages * pageSize)
    (hloaded : ∀ other, pager.isLoaded other = true → other.index < pager.numPages)
    (hlast : ∀ other : PageId, other ≠ id → other.index + 1 = pager.numPages →
      pager.isLoaded other = true ∨ other.fileOffset < pager.file.size) :
    ∃ after : Pager, (store id page).run pager = .ok () after ∧ after.Coherent ∧
      after.view = pager.view.set id page := by
  have hslot := slot_store (show store id page pager = .ok () _ from rfl) hmax
  refine ⟨_, rfl, ⟨hlength, hfile, ?_, ?_⟩, view_store hmax rfl⟩
  · intro other hother
    rw [isLoaded, hslot] at hother
    by_cases he : other = id
    · exact he ▸ hid
    · exact hloaded other (by simpa [he, isLoaded] using hother)
  · intro other hother
    by_cases he : other = id
    · left
      rw [isLoaded, hslot, if_pos he]
      rfl
    · rcases hlast other he hother with h | h
      · left
        rw [isLoaded, hslot, if_neg he]
        exact h
      · exact .inr h

theorem store_leads {id : PageId} (page : Page) {v : View} (hmax : id.index < maxPages)
    (hid : id.index < v.numPages) :
    Leads view (store id page) v (.ok ()) (v.set id page) := by
  intro pager hp hs
  subst hs
  exact exists_store pager page hmax hid hp.fileLength_eq hp.file_le hp.loaded_lt
    fun other _ hother => hp.last_backed other hother

/-- The file has all the bytes that a coherent pager counts on, so that a page that it
    knows of is read in full. -/
theorem load_of_lt {pager : Pager} (hp : pager.Coherent) {id : PageId}
    (hid : id.index < pager.numPages) :
    (load id).run pager = .ok (pager.file.pageAt id.fileOffset pageSize)
      { pager with counters := pager.counters + .read } := by
  have hlen := hp.fileLength_eq
  have hshort : ¬(0 < min (pager.fileLength - id.fileOffset) pageSize ∧
      pager.file.size < id.fileOffset + min (pager.fileLength - id.fileOffset) pageSize) := by
    rw [hlen]
    omega
  have hpage : pager.file.pageAt id.fileOffset (min (pager.fileLength - id.fileOffset) pageSize) =
      pager.file.pageAt id.fileOffset pageSize := by
    apply Bytes.ext_byte
    intro i hi
    rw [Image.byte_pageAt _ _ _ hi, Image.byte_pageAt _ _ _ hi, if_pos hi]
    split
    · rfl
    · exact (Image.byte_of_le _ (by omega)).symm
  rw [← hpage, load]
  simp only [get_bind_run, if_pos hid, if_neg hshort]
  rfl

theorem load_of_le (pager : Pager) {id : PageId} (hid : pager.numPages ≤ id.index) :
    (load id).run pager = .ok Bytes.zero { pager with numPages := id.index + 1 } := by
  rw [load]
  simp only [get_bind_run, if_neg (Nat.not_lt.mpr hid)]
  rfl

theorem checkBounds_of_lt {id : PageId} (hmax : id.index < maxPages) : checkBounds id = .ok () :=
  if_pos hmax

theorem checkBounds_of_le {id : PageId} (hmax : maxPages ≤ id.index) :
    checkBounds id = .error (.error (.pageOutOfBounds id maxPages)) :=
  if_neg (Nat.not_lt.mpr hmax)

theorem request_of_slot {pager : Pager} {id : PageId} {page : Page} (hmax : id.index < maxPages)
    (hslot : pager.slot id = some page) :
    (request id).run pager = .ok page { pager with counters := pager.counters + .hit } := by
  rw [request, lift_bind_run (checkBounds_of_lt hmax), get_bind_run, hslot]
  rfl

/-- A page that is not in memory is loaded and put into its slot. -/
theorem request_of_not_loaded {pager : Pager} {id : PageId} (hmax : id.index < maxPages)
    (hslot : pager.slot id = none) :
    (request id).run pager = (do let page ← load id; store id page; return page : PagerM Page).run
      { pager with counters := pager.counters + .miss } := by
  rw [request, lift_bind_run (checkBounds_of_lt hmax), get_bind_run, hslot]
  rfl

/-- A request returns the bytes that are shown and changes none of them. -/
theorem request_leads {id : PageId} (hmax : id.index < maxPages) (v : View) :
    Leads view (request id) v (.ok (v.page id)) (v.reach id) := by
  intro pager hp hs
  subst hs
  cases hslot : pager.slot id with
  | some page =>
    have hid : id.index < pager.view.numPages := hp.loaded_lt id (isLoaded_iff.mpr ⟨page, hslot⟩)
    have hpage : pager.view.page id = page := content_of_slot hslot
    rw [View.reach_of_lt hid, hpage, request_of_slot hmax hslot]
    exact ⟨_, rfl, ⟨hp.1, hp.2, hp.3, hp.4⟩, rfl⟩
  | none =>
    have hself : pager.view.set id (pager.content id) = pager.view := View.set_page pager.view id
    rw [request_of_not_loaded hmax hslot]
    by_cases hid : id.index < pager.numPages
    · have hmissed : Coherent { pager with counters := pager.counters + .miss } :=
        ⟨hp.1, hp.2, hp.3, hp.4⟩
      obtain ⟨after, hstore, hafter, hview⟩ := store_leads (pager.content id) hmax
        (v := pager.view) hid { pager with counters := pager.counters + .miss + .read }
        ⟨hp.1, hp.2, hp.3, hp.4⟩ rfl
      refine ⟨after, ?_, hafter, ?_⟩
      · rw [bind_run (load_of_lt hmissed hid), ← content_of_not_loaded hslot, bind_run hstore]
        rfl
      · rw [hview, hself, View.reach_of_lt hid]
    · have hle : pager.numPages ≤ id.index := Nat.le_of_not_lt hid
      obtain ⟨after, hstore, hafter, hview⟩ := exists_store
        { pager with counters := pager.counters + .miss, numPages := id.index + 1 }
        (pager.content id) hmax (Nat.lt_succ_self _) hp.fileLength_eq
        (Nat.le_trans hp.file_le (Nat.mul_le_mul_right _ (Nat.le_succ_of_le hle)))
        (fun other hother => Nat.lt_succ_of_lt (Nat.lt_of_lt_of_le (hp.loaded_lt other hother) hle))
        fun other hne hother => absurd (PageId.ext_index (Nat.succ.inj hother)) hne
      refine ⟨after, ?_, hafter, ?_⟩
      · have hload := load_of_le { pager with counters := pager.counters + .miss } hle
        rw [← hp.content_of_le hle] at hload
        rw [bind_run hload, bind_run hstore]
        rfl
      · rw [hview]
        conv_rhs => rw [← hself]
        simp only [View.set, View.reach, view, View.mk.injEq, true_and]
        exact ⟨(Nat.max_eq_right (Nat.le_succ_of_le hle)).symm, rfl⟩

/-- A page number that no store has is refused before anything is counted. -/
theorem request_refused {id : PageId} (h : maxPages ≤ id.index) (v : View) :
    Leads view (request id) v (.error (.error (.pageOutOfBounds id maxPages))) v := by
  rw [request, checkBounds_of_le h]
  exact (lift _).bind_error

/-- A request for a page that exists. -/
theorem request_existing {id : PageId} {v : View} (hv : v.numPages ≤ maxPages)
    (hid : id.index < v.numPages) : Leads view (request id) v (.ok (v.page id)) v := by
  have h := request_leads (Nat.lt_of_lt_of_le hid hv) v
  rwa [View.reach_of_lt hid] at h

theorem change_leads {e : Edit pageSize α} {a : α} {id : PageId} {before after : Page} {v : View}
    (hv : v.numPages ≤ maxPages) (hid : id.index < v.numPages) (he : e.run before = .ok a after) :
    Leads view (change id before e) v (.ok a) (v.set id after) := by
  rw [change, he]
  exact (store_leads after (Nat.lt_of_lt_of_le hid hv) hid).bind (pure a)

/-- Allocation takes the page behind the last one. -/
theorem allocate_leads {v : View} (hv : v.numPages < maxPages) :
    Leads view allocate v (.ok (PageId.ofNat v.numPages))
      ({ v with numPages := v.numPages + 1 }.set (PageId.ofNat v.numPages) Bytes.zero) := by
  have hindex : (PageId.ofNat v.numPages).index = v.numPages :=
    PageId.index_ofNat (Nat.lt_trans hv (by decide))
  have hmax : (PageId.ofNat v.numPages).index < maxPages := by rwa [hindex]
  refine get_bind fun pager hs => ?_
  have hunused : pager.unusedPage = PageId.ofNat v.numPages := by
    rw [unusedPage, ← hs]
    rfl
  have hreach : v.reach (PageId.ofNat v.numPages) = { v with numPages := v.numPages + 1 } := by
    rw [View.reach, hindex, Nat.max_eq_right (Nat.le_succ _)]
  simp only [hunused, if_neg (Nat.not_le.mpr hmax)]
  refine bind (a := ()) (bind (request_leads hmax v) ?_) (pure _)
  rw [hreach]
  have hid : (PageId.ofNat v.numPages).index < v.numPages + 1 := by omega
  exact (store_leads (v := { v with numPages := v.numPages + 1 }) _ hmax hid).bind (pure ())

/-- A full store has no page to give. -/
theorem allocate_refused {v : View} (hv : maxPages ≤ v.numPages)
    (hsmall : v.numPages < 4294967296) :
    Leads view allocate v (.error (.error .tableFull)) v := by
  refine get_bind fun pager hs => ?_
  have hunused : pager.unusedPage.index = v.numPages := by
    rw [unusedPage, ← hs]
    exact PageId.index_ofNat (by rw [← hs] at hsmall; exact hsmall)
  have hfull : maxPages ≤ pager.unusedPage.index := by rwa [hunused]
  simp only [if_pos hfull]
  exact bind_error (Leads.refuse _)

end Pager
end RowStore
