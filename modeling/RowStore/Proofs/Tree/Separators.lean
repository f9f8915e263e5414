/-
  RowStore/Proofs/Tree/Separators.lean
  ====================================
  **Two ways to a separator.**  A separator is replaced in two ways: it is looked up by its
  value, or by the child that it bounds.  The first way halves the separators, the second goes
  through the children.

  In a checked tree they come to the same cell.  The separators ascend strictly and each is the
  greatest key below its child, so that the greatest key below any child has its place at the
  child's own index.  And no child stands twice, so that this index is also the one at which the
  child is found.  The right child has no cell, and neither way finds one for it.
-/
import RowStore.Proofs.Tree.Distinct
import RowStore.Proofs.Tree.Milestones

namespace RowStore

variable {H h : Nat} {v : View}

/-! ## Children and their separators -/

/-- A key of an ascending list has its place at its index, also if the list lacks the last one. -/
theorem rank_dropLast {keys : List UInt32} (hkeys : keys.Pairwise (· < ·)) {i : Nat}
    (hi : i < keys.length) : rank keys[i] keys.dropLast = i := by
  have hlen : keys.dropLast.length = keys.length - 1 := List.length_dropLast
  have hle := rank_le keys[i] keys.dropLast
  rcases Nat.lt_trichotomy (rank keys[i] keys.dropLast) i with h | h | h
  · have hge := le_getElem_rank (show rank keys[i] keys.dropLast < keys.dropLast.length by omega)
    rw [List.getElem_dropLast] at hge
    exact absurd (List.pairwise_iff_getElem.mp hkeys _ _ _ hi h) (UInt32.not_lt.mpr hge)
  · exact h
  · have hlt := lt_of_lt_rank (show i < keys.dropLast.length by omega) h
    rw [List.getElem_dropLast] at hlt
    exact absurd hlt (UInt32.lt_irrefl _)

namespace Siblings

variable {children : List (Subtree h)} {i : Nat} {child : Subtree h}

/-- The greatest key below a child has its place at the index of the child. -/
theorem rank_greatest (hs : Siblings children) (hchild : children[i]? = some child) :
    rank child.greatest (children.map Subtree.greatest).dropLast = i := by
  obtain ⟨hlt, rfl⟩ := List.getElem?_eq_some_iff.mp hchild
  have hrank := rank_dropLast hs.greatest (show i < _ by rwa [List.length_map])
  rwa [List.getElem_map] at hrank

/-- On the page of a branch both ways change the separator of the child, if it has one. -/
theorem run_replace {page : Page} {isRoot : Bool} (hs : Siblings children)
    (hids : (children.map Subtree.id).Nodup)
    (hnode : Branch.Says page isRoot (children.map Subtree.greatest).dropLast
      (children.map Subtree.id))
    (hchild : children[i]? = some child) (id : PageId) (new : UInt32) {after : Page}
    (hafter : after = if i < Branch.count ⟨id, page⟩ then
      page.putWord (Branch.cellStart i + Branch.childSize) new else page) :
    (Branch.replaceKey id child.greatest new).run page = .ok () after ∧
      (Branch.replaceKeyOf id child.id new).run page = .ok () after := by
  have hrank := hs.rank_greatest hchild
  have hindex : (children.map Subtree.id).idxOf child.id = i := by
    obtain ⟨hlt, rfl⟩ := List.getElem?_eq_some_iff.mp hchild
    have hfound := hids.idxOf_getElem i (by rwa [List.length_map])
    rwa [List.getElem_map] at hfound
  have hold : (children.map Subtree.greatest).dropLast[i]? = some child.greatest ↔
      i < (children.map Subtree.greatest).dropLast.length := by
    refine ⟨fun h => (List.getElem?_eq_some_iff.mp h).1, fun h => ?_⟩
    have hget := List.getElem?_eq_getElem h
    rw [hget, separator_eq hget hchild]
  rw [Branch.run_replaceKey id _ new hnode (hs.greatest.sublist (List.dropLast_sublist _)),
    Branch.run_replaceKeyOf id _ new hnode, hrank, hindex, hafter, hnode.count_eq]
  simp only [hold, and_self]

end Siblings

/-! ## Branches of a checked tree -/

namespace Tree

/-- A tree that has a branch has a key in every leaf. -/
theorem formed_of_branch {t : Subtree H} {q : PageId} (hf : t.Formed true)
    (hspells : v.Spells (t.heap true q)) {x : PageId × Reading} (hx : x ∈ t.heap true q)
    {isRoot : Bool} {keys : List UInt32} {children : List PageId}
    (hnode : Branch.Says (v.page x.1) isRoot keys children) : t.Formed false := by
  induction H, t using Subtree.ind with
  | leaf id next entries =>
    obtain rfl := List.mem_singleton.mp hx
    have hleaf : Leaf.Says (v.page id) true next entries :=
      (reading_eq_leaf_iff.mp (hspells _ hx)).1
    exact absurd hnode hleaf.not_branch
  | branch h id children _ => exact hf

/-- A branch that one comes to has the subtrees of a checked tree for its children, and has
    none of them twice. -/
theorem exists_siblings {t : Subtree H} {q id : PageId} (hs : t.Sound)
    (hspells : v.Spells (t.heap true q)) (hid : Reachable v id) {isRoot : Bool}
    {keys : List UInt32} {ids : List PageId} (hnode : Branch.Says (v.page id) isRoot keys ids) :
    ∃ (h : Nat) (children : List (Subtree h)), h < H ∧ Siblings children ∧
      keys = (children.map Subtree.greatest).dropLast ∧ ids = children.map Subtree.id ∧
      ids.Nodup ∧ ∀ child ∈ children, child.heap false id ⊆ t.heap true q := by
  obtain ⟨x, hx, rfl⟩ := mem_of_reachable hs hspells hid
  have hf := formed_of_branch hs.formed hspells hx hnode
  obtain ⟨h, t', b, p, hle, hid', hf', hsub, hkeys⟩ := exists_subtree hf hx
  have hspells' := hspells.mono hsub
  induction h, t' using Subtree.ind with
  | leaf id next entries =>
    have hleaf : Leaf.Says (v.page id) b next entries :=
      (reading_eq_leaf_iff.mp (hspells' _ List.mem_cons_self)).1
    obtain rfl : id = x.1 := hid'
    exact absurd hnode hleaf.not_branch
  | branch h id children _ =>
    obtain rfl : id = x.1 := hid'
    obtain ⟨-, rfl, rfl⟩ := hnode.unique (says_branch (ne_nil_of_formed hf') hspells')
    have hascending := hs.ascending.sublist hkeys
    have hsiblings : Siblings children :=
      ⟨((Subtree.formed_branch ..).mp hf').2.2, Subtree.keys_branch x.1 children ▸ hascending⟩
    have hdistinct := (List.nodup_cons.mp (nodup_heap hf' hascending hspells')).2
    exact ⟨h, children, hle, hsiblings, rfl, rfl,
      hdistinct.sublist (ids_sublist x.1 children), fun child hchild =>
        List.Subset.trans (Subtree.heap_subset_of_mem hchild x.1 p b) hsub⟩

/-! ## The two ways agree -/

/-- Let `id` be the page of a branch of the tree, `child` one of its children, and `greatest`
    the greatest key below the child.  To replace the separator `greatest` by `new`, and to
    replace the separator of `child` by it, is the same: both succeed and leave the same pager.
    Just the four bytes of the child's own separator are written, and nothing if it is the right
    child. -/
def UpdatesAgree (pager : Pager) : Prop :=
  ∀ (id child : PageId) (branch : Branch) (i : Nat) (new : UInt32), Reachable pager.view id →
    Branch.ofPage id (pager.view.page id) = .ok branch → branch.child i = .ok child →
    ∃ (greatest : UInt32) (later done : Pager), (maxKey child).run pager = .ok greatest later ∧
      (editBranch id (Branch.replaceKey id greatest new)).run pager = .ok () done ∧
      (editBranch id (Branch.replaceKeyOf id child new)).run pager = .ok () done ∧
      done.view = pager.view.set id
        (if i < branch.count then
          branch.page.putWord (Branch.cellStart i + Branch.childSize) new
        else branch.page)

/-- How a branch came to its new bytes leaves no trace. -/
theorem exists_changed {pager middle : Pager} {id : PageId} {page : Page}
    (hmax : id.index < maxPages) (hrequest : (Pager.request id).run pager = .ok page middle)
    (hbranch : Branch.ofPage id page = .ok ⟨id, page⟩) (after : Page) :
    ∃ done : Pager, done.view = middle.view.set id after ∧
      ∀ e : Edit pageSize Unit, e.run page = .ok () after →
        (editBranch id e).run pager = .ok () done := by
  have hfound : (branch id).run pager = .ok ⟨id, page⟩ middle := by
    rw [branch, bind_run hrequest, hbranch]
    rfl
  refine ⟨_, @Pager.view_store middle _ id after hmax rfl, fun e he => ?_⟩
  rw [editBranch, bind_run hfound, Pager.change, he]
  rfl

/-- The two ways agree where the pages of a sound tree are handed out as they are shown. -/
theorem updatesAgree_of_sound {pager : Pager} {t : Subtree H} {q : PageId} (hs : t.Sound)
    (hH : H < maxPages) (hspells : pager.view.Spells (t.heap true q)) {S : Pager → Prop}
    (hgives : Gives S (t.heap true q)) (hS : S pager)
    (hrequest : ∀ x ∈ t.heap true q, ∃ middle : Pager,
      (Pager.request x.1).run pager = .ok (pager.view.page x.1) middle ∧
        middle.view = pager.view) : UpdatesAgree pager := by
  intro id child branch i new hid hbranch hchild
  obtain ⟨rfl, isRoot, keys, ids, hnode⟩ := Branch.ofPage_ok hbranch
  obtain ⟨x, hx, rfl⟩ := mem_of_reachable hs hspells hid
  obtain ⟨h, children, hlt, hsiblings, rfl, rfl, hids, hsub⟩ :=
    exists_siblings hs hspells hid hnode
  have hget := hnode.child_ok hchild
  rw [List.getElem?_map] at hget
  obtain ⟨c, hc, rfl⟩ := Option.map_eq_some_iff.mp hget
  have hmem := List.mem_of_getElem? hc
  obtain ⟨hkey, hkeyOf⟩ := hsiblings.run_replace hids hnode hc x.1 new rfl
  obtain ⟨later, hmax, -⟩ := (reads_maxKeyBelow (hsiblings.formed c hmem) false x.1
    (Nat.lt_trans hlt hH)).mono (hsub c hmem) S hgives pager hS
  obtain ⟨middle, hrun, hview⟩ := hrequest x hx
  obtain ⟨done, hdone, hedit⟩ := exists_changed (hgives x hx).1 hrun hnode.ofPage_eq _
  exact ⟨c.greatest, later, done, hmax, hedit _ hkey, hedit _ hkeyOf, hview ▸ hdone⟩

/-- Whatever a store holds, if its check succeeds then the two ways to replace a separator
    agree in it: as it stands, and as long as what the check has met stays in memory. -/
theorem updates_agree {pager after : Pager} (hcheck : check.run pager = .ok () after) :
    (pager.Coherent → UpdatesAgree pager) ∧ ∀ now : Pager, now.Retains after → UpdatesAgree now := by
  constructor
  · intro hp
    obtain ⟨H, t, q, hbears⟩ := hp.exists_bears hcheck
    refine updatesAgree_of_sound hbears.sound hbears.height_lt hbears.spells hbears.gives
      ⟨hp, rfl⟩ fun x hx => ?_
    have hrequest := Pager.request_leads (hbears.index_lt x hx) pager.view
    rw [View.reach_of_lt (hbears.shows x (List.mem_append_left _ hx)).1] at hrequest
    obtain ⟨middle, hrun, -, hview⟩ := hrequest pager hp rfl
    exact ⟨middle, hrun, hview⟩
  · intro now hnow
    obtain ⟨H, hH, t, q, hs, hhas⟩ := attests_check pager () after hcheck hnow
    have hgives := Pager.Has.gives (t.heap true q) hhas.index_lt
    refine updatesAgree_of_sound hs hH hhas.spells hgives hhas fun x hx => ?_
    obtain ⟨page, hslot, -⟩ := hhas x hx
    have hrun := Pager.request_of_slot (hhas.index_lt x hx) hslot
    rw [← Pager.content_of_slot hslot] at hrun
    exact ⟨_, hrun, rfl⟩

/-- Fourteen keys are too many for one leaf.  The separator of the left half is 6, and becomes 5
    in both ways. -/
theorem updates_agree_fourteen : ∃ (pager checked done : Pager) (left : PageId),
    pager.Coherent ∧ check.run pager = .ok () checked ∧
      (∃ later, (maxKey left).run pager = .ok 6 later) ∧
      (editBranch PageId.root (Branch.replaceKey PageId.root 6 5)).run pager = .ok () done ∧
      (editBranch PageId.root (Branch.replaceKeyOf PageId.root left 5)).run pager = .ok () done ∧
      done.view.page PageId.root = (pager.view.page PageId.root).putWord 18 5 := by
  obtain ⟨_, pager, h⟩ := exists_firstSplit
  obtain ⟨q, hstores⟩ := h.stores
  obtain ⟨left, right, hsplit, hid, hgreatest⟩ : ∃ left right : Subtree 0,
      fourteen = .branch PageId.root [left, right] ∧ left.id = ⟨2⟩ ∧ left.greatest = 6 :=
    ⟨_, _, rfl, rfl, rfl⟩
  rw [hsplit] at hstores
  have hformed := ((Subtree.formed_branch ..).mp hstores.sound.formed).2.2
  have hspells := hstores.holds.shows.spells
  have hroot := says_branch (List.cons_ne_nil left [right]) hspells
  have hchild : Branch.child ⟨PageId.root, pager.view.page PageId.root⟩ 0 = .ok left.id :=
    hroot.child_eq rfl (by rw [hid]; decide)
  obtain ⟨checked, hcheck, -, -⟩ :=
    hstores.run_reads (reads_check hstores.sound hstores.height_lt q)
  have hreads : Reads (maxKey left.id) (left.heap false PageId.root) (.ok left.greatest) :=
    reads_maxKeyBelow (hformed left List.mem_cons_self) false PageId.root (by decide)
  obtain ⟨later, hmax, -⟩ :=
    hstores.run_reads (hreads.mono (Subtree.heap_subset_of_mem List.mem_cons_self _ q true))
  obtain ⟨greatest, _, done, hmax', hkey, hkeyOf, hview⟩ :=
    (updates_agree hcheck).1 hstores.holds.coherent _ _ _ 0 5 .root hroot.ofPage_eq hchild
  replace hmax : (maxKey left.id).run pager = .ok left.greatest later := hmax
  cases hmax'.symm.trans hmax
  rw [hgreatest] at hkey hmax
  have hcount : Branch.count ⟨PageId.root, pager.view.page PageId.root⟩ = 1 := hroot.count_eq
  rw [hcount] at hview
  exact ⟨pager, checked, done, left.id, hstores.holds.coherent, hcheck, ⟨later, hmax⟩, hkey,
    hkeyOf, by rw [hview, View.set_page_self]; rfl⟩

end Tree
end RowStore
