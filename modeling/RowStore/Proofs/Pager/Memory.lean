/-
  RowStore/Proofs/Pager/Memory.lean
  =================================
  **What was met stays in memory.**  A page that is requested stays in its slot, so that
  what a walk over pages has met can be looked up when the walk has ended.  In particular
  two pages that are requested one after the other are both there.
-/
import RowStore.Proofs.Pager.View

namespace RowStore

variable {α β : Type}

namespace Pager

/-- All that `pager` has in memory `last` has there too. -/
def Retains (last pager : Pager) : Prop :=
  ∀ id page, pager.slot id = some page → last.slot id = some page

theorem Retains.refl (pager : Pager) : pager.Retains pager := fun _ _ h => h

theorem Retains.trans {last middle pager : Pager} (h : last.Retains middle)
    (h' : middle.Retains pager) : last.Retains pager :=
  fun id page hslot => h id page (h' id page hslot)

theorem index_lt_of_slot {pager : Pager} {id : PageId} {page : Page}
    (h : pager.slot id = some page) : id.index < maxPages := by
  by_contra hle
  rw [slot_of_le pager (Nat.not_lt.mp hle)] at h
  cases h

/-- Loading a page puts nothing into memory yet. -/
theorem slot_load {pager after : Pager} {id : PageId} {page : Page}
    (h : (load id).run pager = .ok page after) (other : PageId) :
    after.slot other = pager.slot other := by
  rw [load] at h
  simp only [get_bind_run] at h
  split at h
  · split at h
    · cases h
    · obtain ⟨-, rfl⟩ := EStateM.Result.ok.inj h
      rfl
  · obtain ⟨-, rfl⟩ := EStateM.Result.ok.inj h
    rfl

/-- A page that was requested is in memory. -/
theorem request_ok {pager after : Pager} {id : PageId} {page : Page}
    (h : (request id).run pager = .ok page after) :
    after.Retains pager ∧ after.slot id = some page := by
  by_cases hmax : id.index < maxPages
  · cases hslot : pager.slot id with
    | some there =>
      rw [request_of_slot hmax hslot] at h
      cases h
      exact ⟨fun _ _ h => h, hslot⟩
    | none =>
      rw [request_of_not_loaded hmax hslot] at h
      cases hload : (load id).run { pager with counters := pager.counters + .miss } with
      | error failure middle =>
        rw [bind_run_error hload] at h
        cases h
      | ok loaded middle =>
        have hsame := slot_load hload
        have hstore := slot_store (show store id loaded middle = .ok () _ from rfl) hmax
        rw [bind_run hload] at h
        cases h
        refine ⟨fun other there hother => ?_, by rw [hstore, if_pos rfl]⟩
        have hne : other ≠ id := by
          rintro rfl
          rw [hslot] at hother
          cases hother
        rw [hstore, if_neg hne, hsame]
        exact hother
  · rw [request, checkBounds_of_le (Nat.not_lt.mp hmax)] at h
    cases h

theorem pageIn_eq {part : List (Option Page)} {i : Nat} {page : Page} (id : PageId)
    (h : part[i]? = some (some page)) : pageIn part i id = .ok page := by
  rw [pageIn, h]
  rfl

/-- The table is cut so that each of two loaded pages is found in its part. -/
theorem pageIn_splitAt {pager : Pager} {low high : PageId} {lowPage highPage : Page}
    (hlt : low.index < high.index) (hlow : pager.slot low = some lowPage)
    (hhigh : pager.slot high = some highPage) :
    pageIn (pager.slots.toList.splitAt high.index).1 low.index low = .ok lowPage ∧
      pageIn (pager.slots.toList.splitAt high.index).2 0 high = .ok highPage := by
  have hslot {id : PageId} {page : Page} (h : pager.slot id = some page) :
      pager.slots.toList[id.index]? = some (some page) := by
    rw [slot, Option.join_eq_some_iff] at h
    rw [← h, ← Vector.getElem?_toList]
  rw [List.splitAt_eq]
  refine ⟨pageIn_eq low ?_, pageIn_eq high ?_⟩
  · rw [List.getElem?_take_of_lt hlt]
    exact hslot hlow
  · rw [List.getElem?_drop, Nat.add_zero]
    exact hslot hhigh

/-- Two pages are requested one after the other and come in the order that was asked for. -/
theorem requestPair_eq (a b : PageId) : requestPair a b = (do
    if a = b then refuse (.corrupted (.samePair a))
    let pageA ← request a
    let pageB ← request b
    return (pageA, pageB)) := by
  funext pager
  rw [requestPair]
  by_cases hab : a = b
  · rw [if_pos hab, if_pos hab]
    rfl
  rw [if_neg hab, if_neg hab]
  cases ha : (request a).run pager with
  | error failure after => exact (bind_run_error ha).trans (bind_run_error ha).symm
  | ok pageA middle =>
    refine (bind_run ha).trans (Eq.trans ?_ (bind_run ha).symm)
    cases hb : (request b).run middle with
    | error failure after => exact (bind_run_error hb).trans (bind_run_error hb).symm
    | ok pageB after =>
      obtain ⟨hretains, hslotB⟩ := request_ok hb
      have hslotA : after.slot a = some pageA := hretains a pageA (request_ok ha).2
      have hne : a.index ≠ b.index := fun hindex => hab (PageId.ext_index hindex)
      refine (bind_run hb).trans (Eq.trans ?_ (bind_run hb).symm)
      rw [get_bind_run]
      by_cases hlt : a.index < b.index
      · obtain ⟨hlow, hhigh⟩ := pageIn_splitAt hlt hslotA hslotB
        simp only [if_pos hlt]
        rw [lift_bind_run hlow, lift_bind_run hhigh]
      · obtain ⟨hlow, hhigh⟩ := pageIn_splitAt (by omega) hslotB hslotA
        simp only [if_neg hlt]
        rw [lift_bind_run hlow, lift_bind_run hhigh]

/-! ## Walks -/

/-- From a coherent pager one comes to one with the same bytes on its pages. -/
def Preserves (pager after : Pager) : Prop :=
  pager.Coherent → after.Coherent ∧ after.content = pager.content

theorem Preserves.refl (pager : Pager) : pager.Preserves pager := fun h => ⟨h, rfl⟩

theorem Preserves.trans {pager middle after : Pager} (h : pager.Preserves middle)
    (h' : middle.Preserves after) : pager.Preserves after := by
  intro hp
  obtain ⟨hmiddle, hsame⟩ := h hp
  obtain ⟨hafter, hsame'⟩ := h' hmiddle
  exact ⟨hafter, hsame'.trans hsame⟩

end Pager
end RowStore
