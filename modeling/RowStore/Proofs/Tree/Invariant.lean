/-
  RowStore/Proofs/Tree/Invariant.lean
  ===================================
  **What holds of the pages.**  `Ordered` says of the pages themselves that a node and all
  below it are in order, node by node and field by field.  The pages of a sound tree are,
  and a session never has others.
-/
import RowStore.Proofs.Tree.Milestones

namespace RowStore.Tree

variable {h : Nat}

/-- The node on page `id` and all below it are in order.  It stands `height` levels above its
    leaves, of which `leaves` has all from left to right.  It names `parent`, and is flagged as
    a root or not; no node below it is.  Its keys are not more than it has room for. -/
inductive Ordered (v : View) :
    (height : Nat) → (isRoot : Bool) → (parent id : PageId) → Leaves → Prop where
  | leaf {isRoot : Bool} {parent id : PageId} {next : Option PageId} {entries : List Entry}
    (hexists : id.index < v.numPages)
    (hnode : Leaf.Says (v.page id) isRoot next entries)
    (hparent : Header.parentOf (v.page id) = parent)
    (hlen : entries.length ≤ Leaf.maxCells)
    (hkeys : (entries.map Entry.key).Pairwise (· < ·)) :
    Ordered v 0 isRoot parent id [⟨id, next, entries⟩]
  /-- Each key is the greatest below its child.  The right child has no key, and its greatest
      one is greater than all keys of the branch. -/
  | branch {height : Nat} {isRoot : Bool} {parent id : PageId} {keys : List UInt32}
    {children : List (PageId × Leaves)}
    (hexists : id.index < v.numPages)
    (hnode : Branch.Says (v.page id) isRoot keys (children.map Prod.fst))
    (hparent : Header.parentOf (v.page id) = parent)
    (hlen : keys.length ≤ Branch.maxKeys)
    (hkeys : keys.Pairwise (· < ·))
    (hbelow : ∀ child ∈ children, Ordered v height false id child.1 child.2)
    (hseparator : ∀ (i : Nat) (key : UInt32) (child : PageId × Leaves), keys[i]? = some key →
      children[i]? = some child → key ∈ child.2.keys ∧ ∀ k ∈ child.2.keys, k ≤ key)
    (hright : ∀ right, children.getLast? = some right → ∃ greatest ∈ right.2.keys,
      (∀ k ∈ right.2.keys, k ≤ greatest) ∧ ∀ key ∈ keys, key < greatest) :
    Ordered v (height + 1) isRoot parent id (children.flatMap Prod.snd)

/-- The pages of a formed tree with ascending keys are in order. -/
theorem ordered_of_shows {v : View} {t : Subtree h} {isRoot : Bool} {parent : PageId}
    (hf : t.Formed isRoot) (hkeys : t.keys.Pairwise (· < ·))
    (hshows : v.Shows (t.heap isRoot parent)) : Ordered v h isRoot parent t.id t.leaves := by
  induction h, t using Subtree.ind generalizing isRoot parent with
  | leaf id next entries =>
    obtain ⟨hlen, -, -⟩ := (Subtree.formed_leaf ..).mp hf
    obtain ⟨hexists, hreading⟩ := hshows _ List.mem_cons_self
    obtain ⟨hnode, hparent⟩ := reading_eq_leaf_iff.mp hreading
    rw [Subtree.keys_leaf] at hkeys
    exact .leaf hexists hnode hparent hlen hkeys
  | branch h id children ih =>
    obtain ⟨hlen, hle, hchildren⟩ := (Subtree.formed_branch ..).mp hf
    rw [Subtree.keys_branch] at hkeys
    have hsiblings : Siblings children := ⟨hchildren, hkeys⟩
    have hne : children ≠ [] := List.ne_nil_of_length_pos (by omega)
    obtain ⟨hexists, hreading⟩ := hshows _ (Subtree.mem_heap_branch hne id parent isRoot)
    obtain ⟨hnode, hparent⟩ := reading_eq_branch_iff.mp hreading
    have hgreatest : ∀ child ∈ children, child.greatest ∈ child.leaves.keys ∧
        ∀ k ∈ child.leaves.keys, k ≤ child.greatest := fun child hchild =>
      ⟨Subtree.greatest_mem_keys (hchildren child hchild), fun k hk =>
        Subtree.le_greatest (hchildren child hchild)
          ((List.pairwise_flatMap.mp hkeys).1 child hchild) hk⟩
    have hleaves : (Subtree.branch id children).leaves =
        (children.map fun child => (child.id, child.leaves)).flatMap Prod.snd := by
      rw [List.flatMap_map]
      rfl
    rw [hleaves]
    refine .branch hexists (by simpa [Function.comp_def] using hnode) hparent hnode.length_le
      (hsiblings.greatest.sublist (List.dropLast_sublist _)) ?_ ?_ ?_
    · intro child hchild
      obtain ⟨c, hc, rfl⟩ := List.mem_map.mp hchild
      exact ih c hc (hchildren c hc) ((List.pairwise_flatMap.mp hkeys).1 c hc)
        (hshows.mono (Subtree.heap_subset_of_mem hc id parent isRoot))
    · intro i key child hkey hchild
      rw [List.getElem?_map, Option.map_eq_some_iff] at hchild
      obtain ⟨c, hc, rfl⟩ := hchild
      obtain rfl := Siblings.separator_eq hkey hc
      exact hgreatest c (List.mem_of_getElem? hc)
    · intro right hright
      rw [List.getLast?_map, Option.map_eq_some_iff] at hright
      obtain ⟨c, hc, rfl⟩ := hright
      obtain ⟨hmem, hle⟩ := hgreatest c (List.mem_of_getLast? hc)
      exact ⟨c.greatest, hmem, hle, hsiblings.lt_greatest_of_mem hc⟩

/-- In a session the tree passes its check, and its pages are in order: page 0 is its root
    and the only page flagged so, all its leaves stand on one level, and the chain runs
    through them from left to right, with ascending keys, and ends with the last. -/
theorem session_keeps_order {pager : Pager} {M : Contents} (h : Reached pager M) :
    (∃ later, check.run pager = .ok () later) ∧
      ∃ height parent leaves, Ordered pager.view height true parent PageId.root leaves ∧
        leaves.keys.Pairwise (· < ·) ∧ leaves.Chained := by
  obtain ⟨H, t, q, hstores, -⟩ := h.exists_stores
  have hs := hstores.sound
  obtain ⟨later, hrun, -, -⟩ := hstores.run_reads (reads_check hs hstores.height_lt q)
  have hordered := ordered_of_shows hs.formed hs.ascending hstores.holds.shows
  rw [hs.root] at hordered
  exact ⟨⟨later, hrun⟩, H, q, t.leaves, hordered, hs.ascending, hs.chained⟩

theorem session_keeps_order_fourteen : ∃ full split : Pager, FirstSplit full split ∧
    (∃ later, check.run split = .ok () later) ∧
      ∃ height parent leaves, Ordered split.view height true parent PageId.root leaves ∧
        leaves.keys.Pairwise (· < ·) ∧ leaves.Chained := by
  obtain ⟨full, split, h⟩ := exists_firstSplit
  exact ⟨full, split, h, session_keeps_order h.reached_split⟩

end RowStore.Tree
