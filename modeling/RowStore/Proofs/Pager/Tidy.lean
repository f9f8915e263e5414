/-
  RowStore/Proofs/Pager/Tidy.lean
  ===============================
  **What a step can do to a pager.**  The tree reaches its pages in two ways: it requests
  them, and it puts back a page that it has requested and changed.  A *stride* is one of
  these, and whatever every stride keeps is kept by all that is built of them.

  `Tidy W K m` says that `m` is built so, and that all changes it makes to pages are
  allowed by `W`, which is told the page, its bytes before and its bytes after.  `K` lists
  what `m` may count on being in memory when it starts.  It is shown along the program,
  whatever the pages say.  Two things follow for every tidy step: it goes by the pages
  alone (`Tidy.steady`), and from any pager, however it ends, it leads along strides
  (`Tidy.strides`).

  `Attests last m Q` reads a successful walk `m` from its end: if `last` has in memory all
  that the walk has left there, then the answer of the walk satisfies `Q`, which may speak
  of the pages that `last` has.  Nothing is asked of the pager that the walk starts from,
  and two requests for one page are known to have met the same bytes.
-/
import Mathlib.Logic.Relation
import RowStore.Proofs.Pager.Steady

namespace RowStore

variable {α β : Type}

/-- Every step ends in some way. -/
theorem exists_outcome {σ : Type} (m : EStateM Failure σ α) (s : σ) :
    ∃ r t, m.run s = outcome r t := by
  cases hrun : m.run s with
  | ok a t => exact ⟨.ok a, t, rfl⟩
  | error failure t => exact ⟨.error failure, t, rfl⟩

namespace Pager

/-! ## Requests on any pager -/

/-- What a page is loaded as. -/
def loadedAs (pager : Pager) (id : PageId) : Page :=
  if id.index < pager.numPages then
    pager.file.pageAt id.fileOffset (min (pager.fileLength - id.fileOffset) pageSize)
  else Bytes.zero

/-- A request is refused, or it finds the page in memory, or it puts the page there. -/
inductive Requested (id : PageId) (pager : Pager) : Except Failure Page → Pager → Prop where
  | refused (e : Error) (counters : Counters) :
      Requested id pager (.error (.error e)) { pager with counters }
  | found {page : Page} (counters : Counters) (hslot : pager.slot id = some page) :
      Requested id pager (.ok page) { pager with counters }
  | loaded (counters : Counters) (hmax : id.index < maxPages) (hslot : pager.slot id = none) :
      Requested id pager (.ok (pager.loadedAs id))
        { pager with
          numPages := max pager.numPages (id.index + 1)
          slots := pager.slots.setIfInBounds id.index (some (pager.loadedAs id))
          counters }

theorem exists_requested (id : PageId) (pager : Pager) :
    ∃ r after, (request id).run pager = outcome r after ∧ Requested id pager r after := by
  by_cases hmax : id.index < maxPages
  · cases hslot : pager.slot id with
    | some page => exact ⟨.ok page, _, request_of_slot hmax hslot, .found _ hslot⟩
    | none =>
      rw [request_of_not_loaded hmax hslot]
      have hloaded := fun counters => Requested.loaded counters hmax hslot
      by_cases hid : id.index < pager.numPages
      · rw [load, bind_assoc, get_bind_run]
        simp only [loadedAs, if_pos hid, Nat.max_eq_left hid] at hloaded ⊢
        split
        · exact ⟨.error (.error (.io .endOfFile)), _, rfl, .refused _ _⟩
        · exact ⟨.ok _, _, rfl, hloaded _⟩
      · replace hid := Nat.not_lt.mp hid
        simp only [loadedAs, if_neg (Nat.not_lt.mpr hid),
          Nat.max_eq_right (Nat.le_succ_of_le hid)] at hloaded
        rw [bind_run (load_of_le { pager with counters := pager.counters + .miss } hid)]
        exact ⟨.ok _, _, rfl, hloaded _⟩
  · rw [request, checkBounds_of_le (Nat.not_lt.mp hmax)]
    exact ⟨.error _, pager, rfl, .refused _ pager.counters⟩

theorem requested {id : PageId} {pager after : Pager} {r : Except Failure Page}
    (hrun : (request id).run pager = outcome r after) : Requested id pager r after := by
  obtain ⟨r', after', hrun', h⟩ := exists_requested id pager
  obtain ⟨rfl, rfl⟩ := outcome_inj (hrun'.symm.trans hrun)
  exact h

/-- The pagers differ in their counters only. -/
def Recounts (pager other : Pager) : Prop := ∃ counters, other = { pager with counters }

theorem Recounts.refl (pager : Pager) : pager.Recounts pager := ⟨pager.counters, rfl⟩

theorem Recounts.trans {pager middle other : Pager} (h : pager.Recounts middle)
    (h' : middle.Recounts other) : pager.Recounts other := by
  obtain ⟨_, rfl⟩ := h
  obtain ⟨counters, rfl⟩ := h'
  exact ⟨counters, rfl⟩

theorem Recounts.slot_eq {pager other : Pager} (h : pager.Recounts other) (id : PageId) :
    other.slot id = pager.slot id := by
  obtain ⟨_, rfl⟩ := h
  rfl

theorem exists_request_of_slot {pager : Pager} {id : PageId} {page : Page}
    (hslot : pager.slot id = some page) :
    ∃ after, (request id).run pager = .ok page after ∧ pager.Recounts after :=
  ⟨_, request_of_slot (index_lt_of_slot hslot) hslot, _, rfl⟩

/-- A request does not look at the counters. -/
theorem request_recount {id : PageId} {pager after other : Pager} {r : Except Failure Page}
    (hrun : (request id).run pager = outcome r after) (hother : pager.Recounts other) :
    ∃ last, (request id).run other = outcome r last ∧ after.Recounts last := by
  obtain ⟨counters, rfl⟩ := hother
  by_cases hmax : id.index < maxPages
  · cases hslot : pager.slot id with
    | some page =>
      obtain ⟨rfl, rfl⟩ := outcome_inj (r := .ok page)
        ((request_of_slot hmax hslot).symm.trans hrun)
      refine ⟨_, request_of_slot hmax ?_, _, rfl⟩
      exact hslot
    | none =>
      rw [request_of_not_loaded hmax hslot] at hrun
      have hslot' : slot { pager with counters } id = none := hslot
      rw [request_of_not_loaded hmax hslot']
      by_cases hid : id.index < pager.numPages
      · rw [load, bind_assoc, get_bind_run] at hrun ⊢
        simp only [if_pos hid] at hrun ⊢
        split at hrun
        · rename_i hshort
          obtain ⟨rfl, rfl⟩ := outcome_inj (r := .error (.error (.io .endOfFile))) hrun
          exact ⟨_, by rw [if_pos hshort]; rfl, _, rfl⟩
        · rename_i hfull
          obtain ⟨rfl, rfl⟩ := outcome_inj (r := .ok _) hrun
          exact ⟨_, by rw [if_neg hfull]; rfl, _, rfl⟩
      · replace hid := Nat.not_lt.mp hid
        rw [bind_run (load_of_le { pager with counters := pager.counters + .miss } hid)] at hrun
        obtain ⟨rfl, rfl⟩ := outcome_inj (r := .ok Bytes.zero) hrun
        exact ⟨_, bind_run (load_of_le { pager with counters := counters + .miss } hid), _, rfl⟩
  · rw [request, checkBounds_of_le (Nat.not_lt.mp hmax)] at hrun ⊢
    obtain ⟨rfl, rfl⟩ := outcome_inj (r := .error (.error (.pageOutOfBounds id maxPages))) hrun
    exact ⟨_, rfl, counters, rfl⟩

/-! ## Strides -/

/-- A page is requested, or a page in memory is changed as `W` allows. -/
inductive Stride (W : PageId → Page → Page → Prop) (pager : Pager) : Pager → Prop where
  | request {id : PageId} {r : Except Failure Page} {after : Pager}
      (hrun : (Pager.request id).run pager = outcome r after) : Stride W pager after
  | store {id : PageId} {before page : Page} (hslot : pager.slot id = some before)
      (hpage : W id before page) :
      Stride W pager { pager with slots := pager.slots.setIfInBounds id.index (some page) }

/-- One comes from the one pager to the other along strides. -/
abbrev Strides (W : PageId → Page → Page → Prop) : Pager → Pager → Prop :=
  Relation.ReflTransGen (Stride W)

end Pager

namespace Pager

/-! ### What every stride keeps -/

/-- The file is as it was, pages that existed exist, and what was in memory is there. -/
structure Onward (pager after : Pager) : Prop where
  file_eq : after.file = pager.file
  fileLength_eq : after.fileLength = pager.fileLength
  numPages_le : pager.numPages ≤ after.numPages
  isLoaded : ∀ id, pager.isLoaded id = true → after.isLoaded id = true

theorem Onward.refl (pager : Pager) : pager.Onward pager := ⟨rfl, rfl, Nat.le_refl _, fun _ h => h⟩

theorem Onward.trans {pager middle after : Pager} (h : pager.Onward middle)
    (h' : middle.Onward after) : pager.Onward after where
  file_eq := h'.file_eq.trans h.file_eq
  fileLength_eq := h'.fileLength_eq.trans h.fileLength_eq
  numPages_le := Nat.le_trans h.numPages_le h'.numPages_le
  isLoaded id hid := h'.isLoaded id (h.isLoaded id hid)

/-- All loaded pages exist, and pages are counted by 32-bit numbers. -/
structure Counted (pager : Pager) : Prop where
  loaded_lt : ∀ id, pager.isLoaded id = true → id.index < pager.numPages
  numPages_lt : pager.numPages < 4294967296

/-- What the slots hold when one of them has been set. -/
theorem slot_setSlot (pager : Pager) {after : Pager} {id : PageId} {page : Page}
    (hslots : after.slots = pager.slots.setIfInBounds id.index (some page))
    (hid : id.index < maxPages) (other : PageId) :
    after.slot other = if other = id then some page else pager.slot other := by
  have hstore := slot_store (show store id page pager = .ok () _ from rfl) hid other
  rw [slot, hslots]
  exact hstore

theorem isLoaded_setSlot (pager : Pager) {after : Pager} {id : PageId} {page : Page}
    (hslots : after.slots = pager.slots.setIfInBounds id.index (some page))
    (hid : id.index < maxPages) {other : PageId} :
    after.isLoaded other = true ↔ other = id ∨ pager.isLoaded other = true := by
  rw [isLoaded, slot_setSlot pager hslots hid, isLoaded]
  by_cases he : other = id
  · simp [he]
  · simp [he]

theorem Counted.of_slots {pager after : Pager} (h : pager.Counted)
    (hslots : after.slots = pager.slots) (hnum : after.numPages = pager.numPages) :
    after.Counted := by
  refine ⟨fun id hid => ?_, hnum ▸ h.numPages_lt⟩
  rw [Pager.isLoaded, slot, hslots] at hid
  exact hnum ▸ h.loaded_lt id hid

theorem counted_ofImage (file : Image) : (ofImage file).Counted := by
  refine ⟨fun id hid => ?_, Nat.mod_lt _ (by decide)⟩
  rw [Pager.isLoaded, slot_ofImage] at hid
  cases hid

namespace Stride

variable {W : PageId → Page → Page → Prop} {pager after : Pager}

theorem mono {W' : PageId → Page → Page → Prop}
    (hW : ∀ id before page, W id before page → W' id before page) (h : Stride W pager after) :
    Stride W' pager after := by
  cases h with
  | request hrun => exact .request hrun
  | store hslot hpage => exact .store hslot (hW _ _ _ hpage)

theorem onward (h : Stride W pager after) : pager.Onward after := by
  cases h with
  | request hrun =>
    cases requested hrun with
    | refused => exact ⟨rfl, rfl, Nat.le_refl _, fun _ h => h⟩
    | found => exact ⟨rfl, rfl, Nat.le_refl _, fun _ h => h⟩
    | loaded counters hmax hslot =>
      exact ⟨rfl, rfl, Nat.le_max_left _ _, fun id hid =>
        (isLoaded_setSlot pager rfl hmax).mpr (.inr hid)⟩
  | store hslot _ =>
    exact ⟨rfl, rfl, Nat.le_refl _, fun id hid =>
      (isLoaded_setSlot pager rfl (index_lt_of_slot hslot)).mpr (.inr hid)⟩

theorem counted (h : Stride W pager after) (hp : pager.Counted) : after.Counted := by
  cases h with
  | request hrun =>
    cases requested hrun with
    | refused => exact hp.of_slots rfl rfl
    | found => exact hp.of_slots rfl rfl
    | loaded counters hmax hslot =>
      have hsmall : maxPages < 4294967296 := by decide
      refine ⟨fun other hother => ?_,
        Nat.max_lt.mpr ⟨hp.numPages_lt, Nat.lt_of_le_of_lt hmax hsmall⟩⟩
      rcases (isLoaded_setSlot pager rfl hmax).mp hother with rfl | hother
      · exact Nat.lt_of_lt_of_le (Nat.lt_succ_self _) (Nat.le_max_right _ _)
      · exact Nat.lt_of_lt_of_le (hp.loaded_lt other hother) (Nat.le_max_left _ _)
  | @store id before page hslot _ =>
    refine ⟨fun other hother => ?_, hp.numPages_lt⟩
    rcases (isLoaded_setSlot pager rfl (index_lt_of_slot hslot)).mp hother with
      rfl | hother
    · exact hp.loaded_lt other (isLoaded_iff.mpr ⟨before, hslot⟩)
    · exact hp.loaded_lt other hother

end Stride

namespace Strides

variable {W : PageId → Page → Page → Prop} {pager after : Pager}

theorem onward (h : Strides W pager after) : pager.Onward after := by
  induction h with
  | refl => exact .refl pager
  | tail _ hlast ih => exact ih.trans hlast.onward

theorem counted (h : Strides W pager after) (hp : pager.Counted) : after.Counted := by
  induction h with
  | refl => exact hp
  | tail _ hlast ih => exact hlast.counted ih

end Strides

/-! ### Strides that change no page -/

/-- No page may be changed. -/
def NoChange : PageId → Page → Page → Prop := fun _ _ _ => False

theorem Strides.retains {pager after : Pager} (h : Strides NoChange pager after) :
    after.Retains pager := by
  induction h with
  | refl => exact .refl pager
  | @tail middle after _ hlast ih =>
    refine Retains.trans ?_ ih
    cases hlast with
    | @request id _ _ hrun =>
      cases requested hrun with
      | refused => exact fun _ _ h => h
      | found => exact fun _ _ h => h
      | loaded counters hmax hslot =>
        intro other page hother
        have hne : other ≠ id := by
          rintro rfl
          cases hslot.symm.trans hother
        rw [slot_setSlot middle rfl hmax, if_neg hne]
        exact hother
    | store _ hpage => exact hpage.elim

/-- A request changes no page. -/
theorem preserves_of_request {id : PageId} {pager after : Pager} {r : Except Failure Page}
    (hrun : (request id).run pager = outcome r after) : pager.Preserves after := by
  intro hp
  by_cases hmax : id.index < maxPages
  · obtain ⟨_, hrun', hafter, hview⟩ := request_leads hmax pager.view pager hp rfl
    obtain ⟨-, rfl⟩ := outcome_inj (hrun'.symm.trans hrun)
    exact ⟨hafter, congrArg View.page hview⟩
  · obtain ⟨_, hrun', hafter, hview⟩ :=
      request_refused (Nat.not_lt.mp hmax) pager.view pager hp rfl
    obtain ⟨-, rfl⟩ := outcome_inj (hrun'.symm.trans hrun)
    exact ⟨hafter, congrArg View.page hview⟩

theorem Strides.preserves {pager after : Pager} (h : Strides NoChange pager after) :
    pager.Preserves after := by
  induction h with
  | refl => exact .refl pager
  | @tail middle after _ hlast ih =>
    refine ih.trans ?_
    cases hlast with
    | request hrun => exact preserves_of_request hrun
    | store _ hpage => exact hpage.elim

/-! ### Strides that change pages -/

/-- What relates the bytes of a page before and after each change relates them before and
    after all strides. -/
theorem Strides.related {W : PageId → Page → Page → Prop} {pager after : Pager}
    (hrefl : ∀ id page, W id page page)
    (htrans : ∀ id a b c, W id a b → W id b c → W id a c)
    (h : Strides W pager after) (hp : pager.Coherent) :
    after.Coherent ∧ ∀ id, W id (pager.content id) (after.content id) := by
  induction h with
  | refl => exact ⟨hp, fun id => hrefl id _⟩
  | @tail middle after _ hlast ih =>
    obtain ⟨hmiddle, hleft⟩ := ih
    cases hlast with
    | request hrun =>
      obtain ⟨hafter, hsame⟩ := preserves_of_request hrun hmiddle
      exact ⟨hafter, hsame ▸ hleft⟩
    | @store id before page hslot hpage =>
      have hmax := index_lt_of_slot hslot
      have hid : id.index < middle.view.numPages :=
        hmiddle.loaded_lt id (isLoaded_iff.mpr ⟨before, hslot⟩)
      obtain ⟨_, hrun, hafter, hview⟩ := store_leads page hmax hid middle hmiddle rfl
      cases hrun
      refine ⟨hafter, fun other => ?_⟩
      change W other _ (View.page (Pager.view _) other)
      rw [hview]
      by_cases he : other = id
      · subst he
        rw [View.set_page_self]
        have hbefore := hleft other
        rw [content_of_slot hslot] at hbefore
        exact htrans other _ _ _ hbefore hpage
      · rw [View.set_page_of_ne _ _ he]
        exact hleft other

end Pager

/-! ## Steps built of strides -/

/-- The step requests pages and changes pages that were requested, as `W` allows, and does
    nothing else.  When it starts, the pages `K` are in memory. -/
inductive Tidy (W : PageId → Page → Page → Prop) :
    {α : Type} → List (PageId × Page) → PagerM α → Prop where
  | pure {α : Type} {K : List (PageId × Page)} (a : α) : Tidy W K (Pure.pure a : PagerM α)
  | throw {α : Type} {K : List (PageId × Page)} (failure : Failure) :
      Tidy W K (MonadExcept.throw failure : PagerM α)
  | bind {α β : Type} {K : List (PageId × Page)} {m : PagerM α} {f : α → PagerM β}
      (hm : Tidy W K m) (hf : ∀ a, Tidy W [] (f a)) : Tidy W K (m >>= f)
  | lift_bind {α β : Type} {K : List (PageId × Page)} {check : Except Failure α}
      {f : α → PagerM β} (hf : ∀ a, check = .ok a → Tidy W K (f a)) : Tidy W K (liftM check >>= f)
  /-- Of the pager itself the step looks at the number of pages only. -/
  | get_bind {β : Type} {K : List (PageId × Page)} {g : Pager → PagerM β}
      (hsame : ∀ a b : Pager, a.numPages = b.numPages → g a = g b)
      (hg : ∀ pager, Tidy W K (g pager)) : Tidy W K (get >>= g)
  | request_bind {β : Type} {K : List (PageId × Page)} {id : PageId} {g : Page → PagerM β}
      (hg : ∀ page, Tidy W ((id, page) :: K) (g page)) : Tidy W K (Pager.request id >>= g)
  | store {K : List (PageId × Page)} {id : PageId} {before page : Page} (hid : (id, before) ∈ K)
      (hpage : W id before page) : Tidy W K (Pager.store id page)
  /-- What is answered may be a function of how the step ended. -/
  | answer {α β : Type} {K : List (PageId × Page)} {m : PagerM α} {m' : PagerM β}
      {f : Except Failure α → Except Failure β} (hm : Tidy W K m)
      (hrun : ∀ pager r after, m.run pager = outcome r after → m'.run pager = outcome (f r) after) :
      Tidy W K m'

namespace Tidy

variable {W : PageId → Page → Page → Prop} {K : List (PageId × Page)}
variable {m : PagerM α} {f : α → PagerM β}

/-- A tidy step goes by the pages and their number. -/
theorem steady (h : Tidy W K m) : Steady (K.map Prod.fst) m := by
  induction h with
  | pure a => exact .pure a
  | throw failure => exact .throw failure
  | bind _ _ ihm ihf => exact ihm.bind fun a => (ihf a).mono (List.nil_subset _)
  | @lift_bind _ _ _ check f _ ih =>
    cases check with
    | ok a => exact ih a rfl
    | error failure => exact .throw failure
  | get_bind hsame _ ih => exact .get_bind hsame ih
  | request_bind _ ih => exact .request_bind ih
  | store hid _ => exact .store (List.mem_map_of_mem hid) _
  | answer _ hrun ih => exact ih.answer hrun

/-- However a tidy step ends, it has come there along strides. -/
theorem strides_of_loaded (h : Tidy W K m) {pager after : Pager} {r : Except Failure α}
    (hK : ∀ x ∈ K, pager.slot x.1 = some x.2) (hrun : m.run pager = outcome r after) :
    Pager.Strides W pager after := by
  induction h generalizing pager after with
  | pure a =>
    obtain ⟨-, rfl⟩ := outcome_inj (r := .ok a) hrun
    exact .refl
  | throw failure =>
    obtain ⟨-, rfl⟩ := outcome_inj (r := .error failure) hrun
    exact .refl
  | @bind _ _ _ m f _ _ ihm ihf =>
    obtain ⟨s, middle, hfirst⟩ := exists_outcome m pager
    have hleft := ihm hK hfirst
    cases s with
    | ok a =>
      rw [bind_run hfirst] at hrun
      exact hleft.trans (ihf a nofun hrun)
    | error failure =>
      rw [bind_run_error hfirst] at hrun
      obtain ⟨-, rfl⟩ := outcome_inj (r := .error failure) hrun
      exact hleft
  | @lift_bind _ _ _ check f _ ih =>
    cases check with
    | ok a => exact ih a rfl hK hrun
    | error failure =>
      obtain ⟨-, rfl⟩ := outcome_inj (r := .error failure) hrun
      exact .refl
  | get_bind _ _ ih => exact ih pager hK hrun
  | @request_bind _ _ id g _ ih =>
    obtain ⟨s, middle, hfirst⟩ := exists_outcome (Pager.request id) pager
    have hleft : Pager.Strides W pager middle := .single (.request hfirst)
    cases s with
    | ok page =>
      rw [bind_run hfirst] at hrun
      obtain ⟨hretains, hslot⟩ := Pager.request_ok hfirst
      refine hleft.trans (ih page (fun x hx => ?_) hrun)
      rcases List.mem_cons.mp hx with rfl | hx
      · exact hslot
      · exact hretains _ _ (hK x hx)
    | error failure =>
      rw [bind_run_error hfirst] at hrun
      obtain ⟨-, rfl⟩ := outcome_inj (r := .error failure) hrun
      exact hleft
  | store hid hpage =>
    obtain ⟨-, rfl⟩ := outcome_inj (r := .ok ()) hrun
    exact .single (.store (hK _ hid) hpage)
  | @answer _ _ _ m m' f _ hsame ih =>
    obtain ⟨s, end', hfirst⟩ := exists_outcome m pager
    obtain ⟨-, rfl⟩ := outcome_inj ((hsame _ _ _ hfirst).symm.trans hrun)
    exact ih hK hfirst

theorem strides (h : Tidy W [] m) {pager after : Pager} {r : Except Failure α}
    (hrun : m.run pager = outcome r after) : Pager.Strides W pager after :=
  h.strides_of_loaded nofun hrun

/-! ### Rules -/

theorem lift (check : Except Failure α) : Tidy W K (liftM check : PagerM α) := by
  rw [← bind_pure (liftM check : PagerM α)]
  exact .lift_bind fun a _ => .pure a

theorem refuse (e : Error) : Tidy W K (RowStore.refuse e : PagerM α) := .throw _

theorem refuse_bind (e : Error) (f : α → PagerM β) : Tidy W K (RowStore.refuse e >>= f) :=
  .throw (.error e)

theorem ite {c : Prop} [Decidable c] {m' : PagerM α} (hm : Tidy W K m) (hm' : Tidy W K m') :
    Tidy W K (if c then m else m') := by
  split
  · exact hm
  · exact hm'

/-- A step that may be refused before it. -/
theorem guard {c : Prop} [Decidable c] (e : Error) (hm : Tidy W K m) :
    Tidy W K (if c then (RowStore.refuse e : PagerM PUnit) >>= fun _ => m else m) :=
  ite (refuse_bind e _) hm

theorem forM {γ : Type} {g : γ → PagerM PUnit} (hg : ∀ c, Tidy W [] (g c)) (l : List γ) :
    Tidy W [] (l.forM g) := by
  induction l with
  | nil => exact .pure _
  | cons c l ih => exact (hg c).bind fun _ => ih

theorem request (id : PageId) : Tidy W K (Pager.request id) := by
  rw [← bind_pure (Pager.request id)]
  exact .request_bind fun page => .pure page

/-- A page that is in memory as `before` gets the bytes that an edit of `page` makes. -/
theorem change {id : PageId} {before page : Page} {e : Edit pageSize α} (hid : (id, before) ∈ K)
    (he : ∀ r after, e.run page = outcome r after → W id before after) :
    Tidy W K (Pager.change id page e) := by
  rw [Pager.change]
  cases hrun : e.run page with
  | ok a after => exact (Tidy.store hid (he (.ok a) after hrun)).bind fun _ => .pure a
  | error failure after =>
    exact (Tidy.store hid (he (.error failure) after hrun)).bind fun _ => .throw failure

theorem edit {id : PageId} {e : Edit pageSize α}
    (he : ∀ page r after, e.run page = outcome r after → W id page after) :
    Tidy W K (Pager.edit id e) :=
  .request_bind fun page => .change List.mem_cons_self (he page)

theorem allocate (hblank : ∀ id page, W id page Bytes.zero) : Tidy W K Pager.allocate := by
  refine .get_bind (fun a b hnum => ?_) fun pager => ?_
  · dsimp only
    rw [show a.unusedPage = b.unusedPage from congrArg PageId.ofNat hnum]
  · refine .guard _ (.bind (edit fun page r after hrun => ?_) fun _ => .pure _)
    obtain ⟨-, rfl⟩ := outcome_inj (r := .ok ()) hrun
    exact hblank _ page

theorem requestPair_bind {g : Page × Page → PagerM β} {first second : PageId}
    (hg : ∀ a b, Tidy W ((second, b) :: (first, a) :: K) (g (a, b))) :
    Tidy W K (Pager.requestPair first second >>= g) := by
  have hboth : Tidy W K ((do
      let a ← Pager.request first
      let b ← Pager.request second
      return (a, b) : PagerM (Page × Page)) >>= g) := by
    simp only [bind_assoc, pure_bind]
    exact .request_bind fun a => .request_bind fun b => hg a b
  rw [Pager.requestPair_eq]
  split
  · rw [bind_assoc]
    exact refuse_bind _ _
  · exact hboth

end Tidy

/-! ## Walks, read from their ends -/

namespace Pager

/-- What a successful step says of its answer and of the pages that `last` has. -/
def Attests (last : Pager) (m : PagerM α) (Q : α → Prop) : Prop :=
  ∀ (pager : Pager) (a : α) (after : Pager), m.run pager = .ok a after → last.Retains after → Q a

namespace Attests

variable {last : Pager} {m : PagerM α} {f : α → PagerM β} {P Q : α → Prop} {R : β → Prop}

theorem pure {a : α} (h : Q a) : Attests last (Pure.pure a) Q := by
  intro pager b after hrun _
  cases hrun
  exact h

theorem refuse (e : Error) : Attests last (RowStore.refuse e) Q := by
  intro pager a after hrun
  cases hrun

theorem lift {check : Except Failure α} (h : ∀ a, check = .ok a → Q a) :
    Attests last (liftM check) Q := by
  intro pager a after hrun _
  cases check with
  | error failure => cases hrun
  | ok b =>
    cases hrun
    exact h a rfl

theorem bind (hm : Attests last m P) (hf : ∀ a, Tidy NoChange [] (f a))
    (hrest : ∀ a, P a → Attests last (f a) R) : Attests last (m >>= f) R := by
  intro pager b after hrun hlast
  obtain ⟨a, middle, hfirst, hsecond⟩ := exists_of_bind_run hrun
  have hstrides := (hf a).strides (r := .ok b) hsecond
  have ha : P a := hm pager a middle hfirst (hlast.trans hstrides.retains)
  exact hrest a ha middle b after hsecond hlast

theorem ite {c : Prop} [Decidable c] {m m' : PagerM α} (hm : c → Attests last m Q)
    (hm' : ¬c → Attests last m' Q) : Attests last (if c then m else m') Q := by
  split
  · exact hm ‹_›
  · exact hm' ‹_›

theorem guard {c : Prop} [Decidable c] {e : Error} (hm : ¬c → Attests last m Q) :
    Attests last (if c then (RowStore.refuse e : PagerM Unit) >>= fun _ => m else m) Q :=
  ite (fun _ _ _ _ hrun => by cases hrun) hm

theorem mono (hm : Attests last m P) (h : ∀ a, P a → Q a) : Attests last m Q :=
  fun pager a after hrun hlast => h a (hm pager a after hrun hlast)

theorem request (id : PageId) :
    Attests last (Pager.request id) fun page => last.slot id = some page :=
  fun _ _ _ hrun hlast => hlast id _ (request_ok hrun).2

end Attests

end Pager
end RowStore
