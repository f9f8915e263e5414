/-
  RowStore/Proofs/Pager/Calls.lean
  ================================
  **What a pager is called for, and what a failed call leaves.**  A `Call` is one use of a
  pager from outside: pages are requested and written into, a page is allocated, a page is
  flushed in part, or all pages are flushed in full.

  Each call looks at what it is asked for before it does anything, so that a call which
  fails leaves the pager as it was; at most a miss is counted.  The exception is a pair of
  pages.  That both numbers are the same is noticed at once, but each of them is looked at
  only when its page is requested.  If the second page is refused, the first one is already
  in memory, and all page numbers up to it count as taken.

  Failures of the operating system are not in the model (`RowStore/Pager/Basic.lean`).  A
  flush whose write is cut short by one of them is nothing that is spoken of here.
-/
import RowStore.Proofs.Pager.Flat
import RowStore.Proofs.Pager.Tidy

namespace RowStore

variable {σ α β : Type}

/-- A program fails where its first statement fails, or behind it. -/
theorem error_of_bind_run {m : EStateM Failure σ α} {f : α → EStateM Failure σ β} {s t : σ}
    {failure : Failure} (h : (m >>= f).run s = .error failure t) :
    m.run s = .error failure t ∨
      ∃ a middle, m.run s = .ok a middle ∧ (f a).run middle = .error failure t := by
  cases hm : m.run s with
  | ok a middle =>
    rw [bind_run hm] at h
    exact .inr ⟨a, middle, rfl, h⟩
  | error failure' middle =>
    rw [bind_run_error hm] at h
    cases h
    exact .inl rfl

namespace Counters

theorem add_hit (c : Counters) : c + .hit = { c with hits := c.hits + 1 } := by
  change Counters.mk (c.hits + 1) (c.misses + 0) (c.reads + 0) (c.writes + 0) = _
  simp only [UInt64.add_zero]

theorem add_miss (c : Counters) : c + .miss = { c with misses := c.misses + 1 } := by
  change Counters.mk (c.hits + 0) (c.misses + 1) (c.reads + 0) (c.writes + 0) = _
  simp only [UInt64.add_zero]

end Counters

namespace Pager

/-! ## Calls -/

/-- One use of a pager.  Who gets a page may write anything into it. -/
inductive Call where
  | request (id : PageId) (write : Page → Page)
  | requestPair (a b : PageId) (write : Page × Page → Page × Page)
  | allocate
  | flush (id : PageId) (size : Nat)
  | flushAll

def Call.run : Call → PagerM Unit
  | .request id write => do store id (write (← Pager.request id))
  | .requestPair a b write => do
    let written := write (← Pager.requestPair a b)
    store a written.1
    store b written.2
  | .allocate => do let _ ← Pager.allocate
  | .flush id size => Pager.flush id size
  | .flushAll => Pager.flushAll

/-- The pager that a call leaves, however it ends. -/
def afterCall (call : Call) (pager : Pager) : Pager :=
  match call.run pager with
  | .ok _ after | .error _ after => after

def afterCalls (calls : List Call) (pager : Pager) : Pager :=
  calls.foldl (fun pager call => afterCall call pager) pager

theorem afterCall_of_run {call : Call} {pager after : Pager} {r : Except Failure Unit}
    (hrun : call.run.run pager = outcome r after) : afterCall call pager = after := by
  replace hrun : call.run pager = outcome r after := hrun
  cases r <;> simp only [afterCall, hrun, outcome]

theorem afterCalls_cons (call : Call) (calls : List Call) (pager : Pager) :
    afterCalls (call :: calls) pager = afterCalls calls (afterCall call pager) := rfl

variable {pager middle after : Pager} {id : PageId} {failure : Failure}

/-! ## Refused requests -/

/-- How a request fails: the number is too great, which is noticed before anything is counted,
    or the file does not have the bytes that it should have. -/
inductive Refused (id : PageId) (pager : Pager) : Failure → Pager → Prop where
  | outOfBounds (hmax : maxPages ≤ id.index) :
      Refused id pager (.error (.pageOutOfBounds id maxPages)) pager
  | unreadable (hslot : pager.slot id = none)
      (hshort : pager.file.size < min pager.fileLength (id.fileOffset + pageSize)) :
      Refused id pager (.error (.io .endOfFile)) { pager with counters := pager.counters + .miss }

theorem load_error (h : (load id).run pager = .error failure after) :
    failure = .error (.io .endOfFile) ∧ after = pager ∧
      pager.file.size < min pager.fileLength (id.fileOffset + pageSize) := by
  rw [load] at h
  simp only [get_bind_run] at h
  split at h
  · split at h
    · rename_i hshort
      cases h
      refine ⟨rfl, rfl, ?_⟩
      omega
    · cases h
  · cases h

theorem request_error (h : (request id).run pager = .error failure after) :
    Refused id pager failure after := by
  by_cases hmax : id.index < maxPages
  · cases hslot : pager.slot id with
    | some page =>
      rw [request_of_slot hmax hslot] at h
      cases h
    | none =>
      rw [request_of_not_loaded hmax hslot] at h
      cases hload : (load id).run { pager with counters := pager.counters + .miss } with
      | ok page middle =>
        rw [bind_run hload] at h
        cases h
      | error failure middle =>
        rw [bind_run_error hload] at h
        cases h
        obtain ⟨rfl, rfl, hshort⟩ := load_error hload
        exact .unreadable hslot hshort
  · replace hmax := Nat.not_lt.mp hmax
    rw [request, checkBounds_of_le hmax] at h
    cases h
    exact .outOfBounds hmax

/-! ## What a failed call leaves -/

/-- The pagers are the same but for their counts of hits and misses. -/
def SameButHits (pager after : Pager) : Prop :=
  ∃ hits misses, after = { pager with counters := { pager.counters with hits, misses } }

theorem SameButHits.refl (pager : Pager) : pager.SameButHits pager := ⟨_, _, rfl⟩

theorem SameButHits.trans (h : pager.SameButHits middle) (h' : middle.SameButHits after) :
    pager.SameButHits after := by
  obtain ⟨_, _, rfl⟩ := h
  obtain ⟨hits, misses, rfl⟩ := h'
  exact ⟨hits, misses, rfl⟩

theorem sameButHits_hit (pager : Pager) :
    pager.SameButHits { pager with counters := pager.counters + .hit } := by
  rw [Counters.add_hit]
  exact ⟨_, _, rfl⟩

theorem sameButHits_miss (pager : Pager) :
    pager.SameButHits { pager with counters := pager.counters + .miss } := by
  rw [Counters.add_miss]
  exact ⟨_, _, rfl⟩

theorem Refused.sameButHits (h : Refused id pager failure after) : pager.SameButHits after := by
  cases h with
  | outOfBounds => exact .refl pager
  | unreadable => exact sameButHits_miss pager

/-- A flush looks at all that it is asked for before it writes. -/
theorem flush_error {size : Nat} (h : (flush id size).run pager = .error failure after) :
    after = pager := by
  by_cases hmax : id.index < maxPages
  · rw [flush, lift_bind_run (checkBounds_of_lt hmax)] at h
    split at h
    · cases h
      rfl
    · change (get >>= _ : PagerM Unit).run pager = _ at h
      rw [get_bind_run] at h
      split at h
      · cases h
        rfl
      · cases h
  · rw [flush, checkBounds_of_le (Nat.not_lt.mp hmax)] at h
    cases h
    rfl

/-- An allocation fails because the store is full, or as the request for the new page does. -/
theorem allocate_error (h : allocate.run pager = .error failure after) :
    pager.SameButHits after := by
  rw [allocate, get_bind_run] at h
  dsimp only at h
  split at h
  · cases h
    exact .refl pager
  · rcases error_of_bind_run h with h | ⟨_, _, -, h⟩
    · rcases error_of_bind_run h with h | ⟨_, _, -, h⟩
      · exact (request_error h).sameButHits
      · cases h
    · cases h

/-- The pager with a page that was not in memory before. -/
def loading (pager : Pager) (id : PageId) : Pager :=
  { pager with
    numPages := max pager.numPages (id.index + 1)
    slots := pager.slots.setIfInBounds id.index (some (pager.loadedAs id)) }

/-- A request that is granted is a hit, or it brings its page into memory. -/
theorem request_granted {page : Page} (h : (request id).run pager = .ok page after) :
    pager.SameButHits after ∨ pager.slot id = none ∧ page = pager.loadedAs id ∧
      ∃ counters, after = { pager.loading id with counters } := by
  cases hslot : pager.slot id with
  | some there =>
    rw [request_of_slot (index_lt_of_slot hslot) hslot] at h
    cases h
    exact .inl (sameButHits_hit pager)
  | none =>
    refine .inr ⟨rfl, ?_⟩
    cases requested (r := .ok page) h with
    | found counters hfound =>
      rw [hslot] at hfound
      cases hfound
    | loaded counters => exact ⟨rfl, counters, rfl⟩

/-- A pair fails as a request does, or because the second page is refused when the first one
    has come into memory. -/
theorem requestPair_error {a b : PageId} (h : (requestPair a b).run pager = .error failure after) :
    pager.SameButHits after ∨ a ≠ b ∧ pager.isLoaded a = false ∧ ∃ middle counters,
      (request a).run pager = .ok (pager.loadedAs a) middle ∧
      (request b).run middle = .error failure after ∧
      after = { pager.loading a with counters } := by
  rw [requestPair_eq] at h
  split at h
  · cases h
    exact .inl (.refl pager)
  · rename_i hab
    rcases error_of_bind_run h with ha | ⟨pageA, middle, ha, h⟩
    · exact .inl (request_error ha).sameButHits
    rcases error_of_bind_run h with hb | ⟨pageB, last, -, h⟩
    · have hafter := (request_error hb).sameButHits
      rcases request_granted ha with hmiddle | ⟨hslot, rfl, counters, rfl⟩
      · exact .inl (hmiddle.trans hafter)
      · obtain ⟨hits, misses, hafter⟩ := hafter
        exact .inr ⟨hab, by rw [isLoaded, hslot]; rfl, _, _, ha, hb, hafter⟩
    · cases h

/-- **A failed call leaves the pager as it was,** with all pages in memory, the number of pages,
    the file and its length as the pager knows it.  Only hits and misses may have been counted.
    The one exception is a pair of different pages whose first was not in memory and whose
    second is refused: then the first one has been loaded, and counts as existing.

    The failures are those of the pager.  Writes and syncs are taken to succeed, and for this
    reason alone there is nothing to show for `flushAll`, which does not fail then. -/
theorem failed_call_keeps_pager {call : Call} (h : call.run.run pager = .error failure after) :
    pager.SameButHits after ∨ ∃ a b write middle counters, call = .requestPair a b write ∧
      a ≠ b ∧ pager.isLoaded a = false ∧
      (request a).run pager = .ok (pager.loadedAs a) middle ∧
      (request b).run middle = .error failure after ∧
      after = { pager.loading a with counters } := by
  cases call with
  | request id write =>
    rcases error_of_bind_run h with h | ⟨_, _, -, h⟩
    · exact .inl (request_error h).sameButHits
    · cases h
  | requestPair a b write =>
    rcases error_of_bind_run h with h | ⟨_, _, -, h⟩
    · rcases requestPair_error h with h | ⟨hab, hslot, middle, counters, ha, hb, hafter⟩
      · exact .inl h
      · exact .inr ⟨a, b, write, middle, counters, rfl, hab, hslot, ha, hb, hafter⟩
    · cases h
  | allocate =>
    rcases error_of_bind_run h with h | ⟨_, _, -, h⟩
    · exact .inl (allocate_error h)
    · cases h
  | flush id size =>
    obtain rfl := flush_error h
    exact .inl (.refl after)
  | flushAll =>
    obtain ⟨last, hrun⟩ := exists_flushAll_ok pager
    cases hrun.symm.trans h

/-- In an empty store a pair is refused because of its second page.  The first page is in
    memory then, and of the 100 pages of the store 51 are taken. -/
theorem failed_call_keeps_pager_except : ∃ after : Pager,
    (Call.requestPair ⟨50⟩ ⟨100⟩ fun pages => pages).run.run (ofImage #[]) =
      .error (.error (.pageOutOfBounds ⟨100⟩ maxPages)) after ∧
    ¬(ofImage #[]).SameButHits after ∧ (ofImage #[]).isLoaded ⟨50⟩ = false ∧
    after.isLoaded ⟨50⟩ = true ∧ (ofImage #[]).freePages = 100 ∧ after.freePages = 49 := by
  have hcoherent : (ofImage #[]).Coherent := coherent_ofImage (by decide)
  obtain ⟨after, hrun, -, hview⟩ := (requestPair_half (a := ⟨50⟩) (b := ⟨100⟩) (by decide)
    (by decide) (by decide) _).bind_error (ofImage #[]) hcoherent rfl
  replace hrun : (Call.requestPair ⟨50⟩ ⟨100⟩ fun pages => pages).run.run (ofImage #[]) =
    .error (.error (.pageOutOfBounds ⟨100⟩ maxPages)) after := hrun
  have hnum : after.numPages = 51 := congrArg View.numPages hview
  have hmoved : ¬(ofImage #[]).SameButHits after := by
    rintro ⟨_, _, rfl⟩
    cases hnum
  refine ⟨after, hrun, hmoved, ?_⟩
  rcases failed_call_keeps_pager hrun with h | ⟨_, _, _, _, _, hcall, -, hslot, -, -, rfl⟩
  · exact absurd h hmoved
  · cases hcall
    refine ⟨hslot, ?_, rfl, ?_⟩
    · rw [isLoaded, slot]
      simp [loading, PageId.index, maxPages]
    · rw [freePages, hnum]
      rfl

end Pager
end RowStore
