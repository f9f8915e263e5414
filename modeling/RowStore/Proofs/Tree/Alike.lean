/-
  RowStore/Proofs/Tree/Alike.lean
  ===============================
  **Bytes that mean nothing.**  Much of what stands on a page is left over: cells behind the
  last one, the rest of the page, the parent field of the root.  Splits leave old cells
  behind, and the page of the root is copied with all that is on it.

  Two pagers are *alike* if they have as many pages and the pages of their trees say the
  same.  Whatever is done with two trees that were checked and are alike is answered alike,
  and leaves them alike, so that nothing that is left over is ever looked at.
-/
import RowStore.Proofs.Tree.Distinct

namespace RowStore

open RowStore.Tree (Reachable)

variable {H : Nat} {t : Subtree H} {q q' : PageId} {F F' : Heap} {a b : Pager}

/-- On which pages a tree stands does not depend on what is above it. -/
theorem Subtree.ids_heap {h : Nat} (t : Subtree h) (isRoot isRoot' : Bool) (q q' : PageId) :
    (t.heap isRoot q).map Prod.fst = (t.heap isRoot' q').map Prod.fst := by
  rw [heap_eq_cons, heap_eq_cons, List.map_cons, List.map_cons]

/-- The pagers have as many pages, and those of the tree say the same: their kind, root flag,
    links and live cells, and whose children they are.  What stands in the parent field of
    the root does not count. -/
structure Pager.Alike (a b : Pager) : Prop where
  numPages_eq : a.numPages = b.numPages
  body_eq : ∀ id, Reachable a.view id → body? (a.content id) = body? (b.content id)
  parent_eq : ∀ id, Reachable a.view id → id ≠ PageId.root →
    Header.parentOf (a.content id) = Header.parentOf (b.content id)

namespace Pager

namespace Bears

theorem reachable (h : a.Bears t q F) {x : PageId × Reading} (hx : x ∈ t.heap true q) :
    Reachable a.view x.1 := by
  refine Tree.reachable_of_mem h.sound.formed h.spells ?_ hx
  rw [h.sound.root]
  exact .root

theorem reachable_iff (h : a.Bears t q F) {id : PageId} :
    Reachable a.view id ↔ id ∈ (t.heap true q).map Prod.fst := by
  constructor
  · intro hid
    obtain ⟨x, hx, rfl⟩ := Tree.mem_of_reachable h.sound h.spells hid
    exact List.mem_map_of_mem hx
  · intro hid
    obtain ⟨x, hx, rfl⟩ := List.mem_map.mp hid
    exact h.reachable hx

/-- The root stands on its page alone. -/
theorem ne_root (h : a.Bears t q F) {x : PageId × Reading} (hx : x ∈ t.below) :
    x.1 ≠ PageId.root := by
  intro hroot
  have hdistinct := h.sound.nodup_heap h.spells
  rw [Subtree.heap_eq_cons, List.map_cons, List.nodup_cons, h.sound.root] at hdistinct
  exact hdistinct.1 (List.mem_map.mpr ⟨x, hx, hroot⟩)

/-- A page that is of no tree, with what it says. -/
theorem beside (h : a.Bears t q []) {id : PageId} (hid : id.index < a.numPages)
    (hout : ¬Reachable a.view id) : a.Bears t q [(id, reading (a.content id))] where
  sound := h.sound
  coherent := h.coherent
  index_lt := h.index_lt
  distinct := by
    rw [List.map_append, List.nodup_append]
    refine ⟨h.sound.nodup_heap h.spells, List.nodup_singleton _, ?_⟩
    intro page hpage page' hpage' he
    obtain rfl : page' = id := List.mem_singleton.mp hpage'
    exact hout (h.reachable_iff.mpr (he ▸ hpage))
  shows := by
    intro x hx
    rcases List.mem_append.mp hx with hx | hx
    · exact h.shows x (List.mem_append_left [] hx)
    · obtain rfl := List.mem_singleton.mp hx
      exact ⟨hid, rfl⟩

/-- What is known of a page that is of no tree. -/
theorem of_beside {id : PageId} {x : Reading} (h : a.Bears t q [(id, x)]) :
    ¬Reachable a.view id ∧ reading (a.content id) = x := by
  refine ⟨fun hid => ?_, (h.shows (id, x) (List.mem_append_right _ List.mem_cons_self)).2⟩
  have hdistinct := h.distinct
  rw [List.map_append, List.nodup_append] at hdistinct
  exact hdistinct.2.2 id (h.reachable_iff.mp hid) id List.mem_cons_self rfl

/-- Pagers that bear one tree are alike. -/
theorem alike (ha : a.Bears t q F) (hb : b.Bears t q' F') (hnum : a.numPages = b.numPages) :
    a.Alike b := by
  have hsame : ∀ id, Reachable a.view id → body? (a.content id) = body? (b.content id) ∧
      (id ≠ PageId.root → Header.parentOf (a.content id) = Header.parentOf (b.content id)) := by
    intro id hid
    obtain ⟨x, hx, rfl⟩ := Tree.mem_of_reachable ha.sound ha.spells hid
    have hreading : reading (a.content x.1) = x.2 := ha.spells x hx
    rw [Subtree.heap_eq_cons] at hx
    rcases List.mem_cons.mp hx with rfl | hx
    · have htop : reading (b.content t.id) = ⟨some (t.body true), q'⟩ :=
        hb.spells (t.id, _) (t.heap_eq_cons true q' ▸ List.mem_cons_self)
      refine ⟨?_, fun hne => absurd ha.sound.root hne⟩
      exact (congrArg Reading.body hreading).trans (congrArg Reading.body htop).symm
    · have hreading' : reading (b.content x.1) = x.2 :=
        hb.spells x (t.heap_eq_cons true q' ▸ List.mem_cons_of_mem _ hx)
      have heq := hreading.trans hreading'.symm
      exact ⟨congrArg Reading.body heq, fun _ => congrArg Reading.parent heq⟩
  exact ⟨hnum, fun id hid => (hsame id hid).1, fun id hid => (hsame id hid).2⟩

end Bears

/-- A pager that is alike bears the same tree. -/
theorem Alike.bears (h : a.Alike b) (ha : a.Bears t q []) (hb : b.Coherent) :
    b.Bears t (Header.parentOf (b.content PageId.root)) [] := by
  have hpages : ∀ x ∈ t.heap true (Header.parentOf (b.content PageId.root)),
      ∃ y ∈ t.heap true q, y.1 = x.1 ∧ reading (b.content x.1) = x.2 := by
    intro x hx
    rw [Subtree.heap_eq_cons] at hx
    rcases List.mem_cons.mp hx with rfl | hx
    · have hmem : (t.id, ⟨some (t.body true), q⟩) ∈ t.heap true q :=
        t.heap_eq_cons true q ▸ List.mem_cons_self
      refine ⟨_, hmem, rfl, ?_⟩
      have hbody : body? (a.content t.id) = some (t.body true) :=
        congrArg Reading.body (ha.spells _ hmem)
      rw [h.body_eq _ (ha.reachable hmem)] at hbody
      dsimp only
      rw [reading, hbody, ha.sound.root]
    · have hmem : x ∈ t.heap true q := t.heap_eq_cons true q ▸ List.mem_cons_of_mem _ hx
      have hreading : reading (a.content x.1) = x.2 := ha.spells x hmem
      refine ⟨x, hmem, rfl, ?_⟩
      rw [← hreading, reading, reading, h.body_eq _ (ha.reachable hmem),
        h.parent_eq _ (ha.reachable hmem) (ha.ne_root hx)]
  refine ⟨ha.sound, hb, ?_, ?_, ?_⟩
  · intro x hx
    obtain ⟨y, hy, hid, -⟩ := hpages x hx
    rw [← hid]
    exact ha.index_lt y hy
  · rw [List.append_nil, t.ids_heap true true _ q]
    exact ha.sound.nodup_heap ha.spells
  · rw [List.append_nil]
    intro x hx
    obtain ⟨y, hy, hid, hreading⟩ := hpages x hx
    have hlt := (ha.shows y (List.mem_append_left [] hy)).1
    refine ⟨?_, hreading⟩
    rw [← hid]
    exact Nat.lt_of_lt_of_eq hlt h.numPages_eq

end Pager

namespace Tree

/-- **Bytes that mean nothing never matter.**  If a pager passes its check, and another one is
    alike, then all operations are answered alike on both, greatest keys being asked for
    below pages of the tree only.  The pagers are alike afterwards, and every page that is
    of no tree says what it said.  Pagers are coherent from the opening of a file on. -/
theorem dead_bytes_never_matter {checked : Pager} (ha : a.Coherent) (hb : b.Coherent)
    (hcheck : check.run a = .ok () checked) (halike : a.Alike b) {ops : List Operation}
    (htree : InTree ops a) :
    (replay ops a).1 = (replay ops b).1 ∧ (replay ops a).2.Alike (replay ops b).2 ∧
      ∀ id : PageId, id.index < a.numPages → ¬Reachable a.view id →
        ¬Reachable (replay ops a).2.view id ∧
        reading ((replay ops a).2.content id) = reading (a.content id) ∧
        reading ((replay ops b).2.content id) = reading (b.content id) := by
  obtain ⟨H, t, q, hbears⟩ := ha.exists_bears hcheck
  have hbears' := halike.bears hbears hb
  obtain ⟨reports, n, H', t', hreplay⟩ := exists_replay_bears hbears htree
  obtain ⟨last, hlast, hnum, hafter⟩ := hreplay a _ [] hbears rfl
  obtain ⟨last', hlast', hnum', hafter'⟩ := hreplay b _ [] hbears' halike.numPages_eq.symm
  refine ⟨?_, ?_, fun id hid hout => ?_⟩
  · rw [hlast, hlast']
  · rw [hlast, hlast']
    exact hafter.alike hafter' (hnum.trans hnum'.symm)
  · have hout' : ¬Reachable b.view id := by
      rw [hbears'.reachable_iff, t.ids_heap true true _ q, ← hbears.reachable_iff]
      exact hout
    obtain ⟨_, hrun, -, hkept⟩ := hreplay a _ _ (hbears.beside hid hout) rfl
    obtain ⟨_, hrun', -, hkept'⟩ := hreplay b _ _
      (hbears'.beside (Nat.lt_of_lt_of_eq hid halike.numPages_eq) hout') halike.numPages_eq.symm
    rw [hrun, hrun']
    exact ⟨hkept.of_beside.1, hkept.of_beside.2, hkept'.of_beside.2⟩

/-- A new tree, and the same one with another page number in the parent field of its root. -/
theorem dead_bytes_never_matter_new : ∃ a b : Pager, openAt .nothing = .ok a ∧
    (setParent PageId.root (PageId.ofNat 7)).run a = .ok () b ∧
    (replay [.insert 5 (List.replicate Leaf.valueSize 1), .maxKey PageId.root, .check] a).1 =
      (replay [.insert 5 (List.replicate Leaf.valueSize 1), .maxKey PageId.root, .check] b).1 := by
  obtain ⟨a, hopen, hstores, -⟩ := exists_openAt_empty (.inl rfl)
  obtain ⟨b, hrun, -, hholds⟩ := takes_setParent _ (PageId.ofNat 7) a [] hstores.holds
  have hstores' : b.Stores (.leaf PageId.root none []) (PageId.ofNat 7) :=
    ⟨sound_empty, hholds.numPages_eq.symm ▸ hholds⟩
  have halike := hstores.bears.alike hstores'.bears hholds.numPages_eq.symm
  obtain ⟨checked, hcheck, -, -⟩ :=
    hstores.run_reads (reads_check hstores.sound hstores.height_lt blank.parent)
  have htree : InTree [.insert 5 (List.replicate Leaf.valueSize 1), .maxKey PageId.root, .check]
      a := ⟨trivial, .root, trivial, trivial⟩
  have hsame := dead_bytes_never_matter hstores.holds.coherent hholds.coherent hcheck halike htree
  exact ⟨a, b, hopen, hrun, hsame.1⟩

end Tree
end RowStore
