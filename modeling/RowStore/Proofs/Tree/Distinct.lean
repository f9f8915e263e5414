/-
  RowStore/Proofs/Tree/Distinct.lean
  ==================================
  **No page stands twice.**  A check compares the keys of all leaves, and not the numbers of
  their pages.  That is enough: two subtrees on one page read the same bytes, so that they
  have as many levels and share a key, but no key of a checked tree stands twice.

  Therefore a coherent pager whose check succeeds bears a sound tree, and it has all of the
  pages: a page behind the last one is blank, and a blank page is a branch over the root.
-/
import RowStore.Proofs.Tree.Bears
import RowStore.Proofs.Tree.Lookups

namespace RowStore

variable {H h h' : Nat} {v : View} {b b' : Bool} {q q' : PageId}

namespace Tree

/-- Subtrees on one page have as many levels and share a key. -/
theorem shared_key {t : Subtree h} {t' : Subtree h'} (hf : t.Formed false) (hf' : t'.Formed false)
    (hspells : v.Spells (t.heap b q)) (hspells' : v.Spells (t'.heap b' q')) (hid : t.id = t'.id) :
    h = h' ∧ ∃ key ∈ t.keys, key ∈ t'.keys := by
  induction h, t using Subtree.ind generalizing h' b b' q q' with
  | leaf id next entries =>
    have hnode : Leaf.Says (v.page id) b next entries :=
      (reading_eq_leaf_iff.mp (hspells _ List.mem_cons_self)).1
    induction h', t' using Subtree.ind with
    | leaf id' next' entries' =>
      have hnode' : Leaf.Says (v.page id') b' next' entries' :=
        (reading_eq_leaf_iff.mp (hspells' _ List.mem_cons_self)).1
      obtain rfl : id = id' := hid
      obtain ⟨-, -, rfl⟩ := hnode.unique hnode'
      obtain ⟨entry, hentry⟩ := List.exists_mem_of_ne_nil _ (hf.2.1 rfl)
      have hkey : entry.key ∈ entries.map Entry.key := List.mem_map_of_mem hentry
      rw [Subtree.keys_leaf, Subtree.keys_leaf]
      exact ⟨rfl, entry.key, hkey, hkey⟩
    | branch h' id' children' _ =>
      obtain rfl : id = id' := hid
      exact absurd (says_branch (ne_nil_of_formed hf') hspells') hnode.not_branch
  | branch h id children ih =>
    have hnode := says_branch (ne_nil_of_formed hf) hspells
    induction h', t' using Subtree.ind with
    | leaf id' next' entries' =>
      obtain rfl : id = id' := hid
      have hnode' : Leaf.Says (v.page id) b' next' entries' :=
        (reading_eq_leaf_iff.mp (hspells' _ List.mem_cons_self)).1
      exact absurd hnode hnode'.not_branch
    | branch h' id' children' _ =>
      obtain rfl : id = id' := hid
      have hnode' := says_branch (ne_nil_of_formed hf') hspells'
      have hids : children.map Subtree.id = children'.map Subtree.id :=
        (hnode.unique hnode').2.2
      -- The first children stand on one page.
      obtain ⟨child, rest, rfl⟩ := List.exists_cons_of_ne_nil (ne_nil_of_formed hf)
      obtain ⟨child', rest', rfl⟩ := List.exists_cons_of_ne_nil (ne_nil_of_formed hf')
      have hmem : child ∈ child :: rest := List.mem_cons_self
      have hmem' : child' ∈ child' :: rest' := List.mem_cons_self
      have hchild := ((Subtree.formed_branch ..).mp hf).2.2 child hmem
      have hchild' := ((Subtree.formed_branch ..).mp hf').2.2 child' hmem'
      obtain ⟨rfl, key, hkey, hkey'⟩ := ih child hmem hchild hchild'
        (hspells.mono (Subtree.heap_subset_of_mem hmem id q b))
        (hspells'.mono (Subtree.heap_subset_of_mem hmem' id q' b')) (List.cons.inj hids).1
      rw [Subtree.keys_branch, Subtree.keys_branch]
      exact ⟨rfl, key, List.mem_flatMap.mpr ⟨child, hmem, hkey⟩,
        List.mem_flatMap.mpr ⟨child', hmem', hkey'⟩⟩

/-- Where the keys ascend, no page stands twice in a tree. -/
theorem nodup_heap {t : Subtree h} (hf : t.Formed false) (hkeys : t.keys.Pairwise (· < ·))
    (hspells : v.Spells (t.heap b q)) : ((t.heap b q).map Prod.fst).Nodup := by
  induction h, t using Subtree.ind generalizing b q with
  | leaf id next entries => exact List.nodup_singleton _
  | branch h id children ih =>
    have hchildren := ((Subtree.formed_branch ..).mp hf).2.2
    have hbelow : ∀ child ∈ children, v.Spells (child.heap false id) := fun child hchild =>
      hspells.mono (Subtree.heap_subset_of_mem hchild id q b)
    have hpair := hkeys
    rw [Subtree.keys_branch, List.pairwise_flatMap] at hpair
    rw [Subtree.heap_branch, List.map_cons, List.nodup_cons]
    constructor
    · intro hmem
      obtain ⟨x, hx, hid⟩ := List.mem_map.mp hmem
      obtain ⟨child, hchild, hx⟩ := List.mem_flatMap.mp hx
      obtain ⟨k, t', b', q', hle, hid', hf', hsub, -⟩ := exists_subtree (hchildren child hchild) hx
      obtain ⟨hlevels, -⟩ := shared_key hf hf' hspells ((hbelow child hchild).mono hsub)
        (hid.symm.trans hid'.symm)
      omega
    · rw [List.map_flatMap, List.nodup_flatMap]
      refine ⟨fun child hchild => ih child hchild (hchildren child hchild)
        (hpair.1 child hchild) (hbelow child hchild), ?_⟩
      refine hpair.2.imp_of_mem ?_
      intro left right hleft hright hlt page hpage hpage'
      obtain ⟨x, hx, rfl⟩ := List.mem_map.mp hpage
      obtain ⟨y, hy, hid⟩ := List.mem_map.mp hpage'
      obtain ⟨_, t₁, _, _, -, hid₁, hf₁, hsub₁, hkeys₁⟩ := exists_subtree (hchildren _ hleft) hx
      obtain ⟨_, t₂, _, _, -, hid₂, hf₂, hsub₂, hkeys₂⟩ := exists_subtree (hchildren _ hright) hy
      obtain ⟨-, key, hkey, hkey'⟩ := shared_key hf₁ hf₂ ((hbelow _ hleft).mono hsub₁)
        ((hbelow _ hright).mono hsub₂) (by rw [hid₁, hid₂, hid])
      exact UInt32.lt_irrefl key (hlt key (hkeys₁.subset hkey) key (hkeys₂.subset hkey'))

end Tree

namespace Subtree.Sound

open RowStore.Tree (PointsTo pointsTo_below)

variable {t : Subtree H} {pager : Pager}

theorem nodup_heap (hs : t.Sound) (hspells : v.Spells (t.heap true q)) :
    ((t.heap true q).map Prod.fst).Nodup := by
  cases H with
  | zero => exact List.nodup_singleton _
  | succ H =>
    have hf : t.Formed false := hs.formed
    exact Tree.nodup_heap hf hs.ascending hspells

/-- A page that is not there cannot be read as a page of a tree. -/
theorem index_lt_numPages (hs : t.Sound) (hp : pager.Coherent)
    (hspells : pager.view.Spells (t.heap true q)) {x : PageId × Reading}
    (hx : x ∈ t.heap true q) : x.1.index < pager.numPages := by
  by_contra hle
  have hblank : pager.view.page x.1 = Bytes.zero := hp.content_of_le (Nat.not_lt.mp hle)
  have hslot : PointsTo pager.view x.1 0 PageId.root :=
    ⟨false, [], _, hblank ▸ Branch.says_blank, rfl⟩
  obtain ⟨y, hy, hid, -⟩ := pointsTo_below hs.formed hspells hx hslot
  have hdistinct := hs.nodup_heap hspells
  rw [Subtree.heap_eq_cons, List.map_cons, List.nodup_cons, hs.root] at hdistinct
  exact hdistinct.1 (List.mem_map.mpr ⟨y, hy, hid⟩)

end Subtree.Sound

/-- A coherent pager whose check succeeds bears a tree. -/
theorem Pager.Coherent.exists_bears {pager checked : Pager} (hp : pager.Coherent)
    (hcheck : Tree.check.run pager = .ok () checked) :
    ∃ (H : Nat) (t : Subtree H) (q : PageId), pager.Bears t q [] := by
  obtain ⟨H, -, t, q, hs, hhas⟩ := Tree.attests_check pager () checked hcheck (.refl checked)
  have hwalk : Pager.Strides Pager.NoChange pager checked :=
    Tree.tidy_check.strides (r := .ok ()) hcheck
  obtain ⟨-, hcontent⟩ := hwalk.preserves hp
  have hspells : pager.view.Spells (t.heap true q) := by
    intro x hx
    have hreading : reading (checked.content x.1) = x.2 := hhas.spells x hx
    rw [hcontent] at hreading
    exact hreading
  refine ⟨H, t, q, hs, hp, hhas.index_lt, ?_, ?_⟩
  · rw [List.append_nil]
    exact hs.nodup_heap hspells
  · rw [List.append_nil]
    exact fun x hx => ⟨hs.index_lt_numPages hp hspells hx, hspells x hx⟩

end RowStore
