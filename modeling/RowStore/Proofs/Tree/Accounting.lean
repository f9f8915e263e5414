/-
  RowStore/Proofs/Tree/Accounting.lean
  ====================================
  **Every page has its place.**  The pages that can be reached from page 0 are exactly the
  pages of the store, and each of them but page 0 hangs from one slot of one branch.  The
  slot is unique for two reasons: a page names its parent, and the children of one branch
  are different pages.
-/
import RowStore.Proofs.Tree.Milestones
import RowStore.Proofs.Tree.Occupancy
import RowStore.Proofs.Tree.Slots

namespace RowStore.Tree

/-- In a session the pages that can be reached from page 0 are just the pages of the store,
    of which there are not too many.  Each but page 0 hangs from just one slot, and page 0
    from none. -/
theorem session_accounts_for_pages {pager : Pager} {M : Contents} (h : Reached pager M) :
    (∀ id : PageId, Reachable pager.view id ↔ id.index < pager.numPages) ∧
    (∀ id : PageId, id.index < pager.numPages → id ≠ PageId.root →
      ∃! place : PageId × Nat, Reachable pager.view place.1 ∧
        PointsTo pager.view place.1 place.2 id) ∧
    (∀ (parent : PageId) (slot : Nat), Reachable pager.view parent →
      ¬PointsTo pager.view parent slot PageId.root) ∧
    pager.numPages ≤ maxPages := by
  obtain ⟨H, t, q, hstores, -, hsize, -⟩ := h.exists_filled
  have hs := hstores.sound
  have hshows := hstores.holds.shows
  have hspells := hshows.spells
  have hdistinct := hstores.holds.distinct
  have hlt : ∀ x ∈ t.heap true q, x.1.index < pager.numPages := fun x hx => (hshows x hx).1
  have hall : ∀ id : PageId, id.index < pager.numPages → ∃ x ∈ t.heap true q, x.1 = id :=
    fun id hid => Heap.exists_mem hdistinct hlt ((t.length_heap true q).trans hsize) hid
  have hbelow : ∀ {parent slot id}, Reachable pager.view parent →
      PointsTo pager.view parent slot id → ∃ y ∈ t.below, y.1 = id ∧ y.2.parent = parent := by
    intro parent slot id hparent hslot
    obtain ⟨x, hx, rfl⟩ := mem_of_reachable hs hspells hparent
    exact pointsTo_below hs.formed hspells hx hslot
  have hnamed : ∀ {parent slot id}, Reachable pager.view parent →
      PointsTo pager.view parent slot id → Header.parentOf (pager.view.page id) = parent := by
    intro parent slot id hparent hslot
    obtain ⟨y, hy, rfl, rfl⟩ := hbelow hparent hslot
    have hmem : y ∈ t.heap true q := by
      rw [Subtree.heap_eq_cons]
      exact List.mem_cons_of_mem _ hy
    exact congrArg Reading.parent (hshows y hmem).2
  have hreach : ∀ x ∈ t.heap true q, Reachable pager.view x.1 := fun x hx =>
    reachable_of_mem hs.formed hspells (hs.root ▸ .root) hx
  refine ⟨fun id => ⟨fun hid => ?_, fun hid => ?_⟩, ?_, ?_, hstores.holds.le_maxPages⟩
  · obtain ⟨x, hx, rfl⟩ := mem_of_reachable hs hspells hid
    exact hlt x hx
  · obtain ⟨x, hx, rfl⟩ := hall id hid
    exact hreach x hx
  · intro id hid hne
    obtain ⟨y, hy, rfl⟩ := hall id hid
    rw [Subtree.heap_eq_cons] at hy
    rcases List.mem_cons.mp hy with rfl | hy
    · exact absurd hs.root hne
    obtain ⟨x, hx, slot, hslot⟩ := exists_pointsTo hs.formed hspells hy
    refine ⟨(x.1, slot), ⟨hreach x hx, hslot⟩, ?_⟩
    rintro ⟨parent, slot'⟩ ⟨hparent, hslot'⟩
    obtain rfl : parent = x.1 := (hnamed hparent hslot').symm.trans (hnamed (hreach x hx) hslot)
    exact congrArg (Prod.mk x.1) (slot_unique hs.formed hspells hdistinct hx hslot' hslot)
  · intro parent slot hparent hslot
    obtain ⟨y, hy, hid, -⟩ := hbelow hparent hslot
    rw [Subtree.heap_eq_cons] at hdistinct
    exact (List.nodup_cons.mp hdistinct).1
      (List.mem_map.mpr ⟨y, hy, hid.trans hs.root.symm⟩)

/-- After the first split both leaves hang from page 0, each from one slot. -/
theorem session_accounts_for_pages_fourteen : ∃ full split : Pager, FirstSplit full split ∧
    (∀ id : PageId, Reachable split.view id ↔ id.index < 3) ∧
    (∃! place : PageId × Nat, Reachable split.view place.1 ∧
      PointsTo split.view place.1 place.2 ⟨1⟩) ∧
    (∃! place : PageId × Nat, Reachable split.view place.1 ∧
      PointsTo split.view place.1 place.2 ⟨2⟩) ∧
    ∀ slot : Nat, ¬PointsTo split.view PageId.root slot PageId.root := by
  obtain ⟨full, split, h⟩ := exists_firstSplit
  obtain ⟨hreach, hslot, hroot, -⟩ := session_accounts_for_pages h.reached_split
  rw [h.three] at hreach hslot
  exact ⟨full, split, h, hreach, hslot ⟨1⟩ (by decide) (by decide),
    hslot ⟨2⟩ (by decide) (by decide), fun slot => hroot PageId.root slot .root⟩

end RowStore.Tree
