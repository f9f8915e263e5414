/-
  RowStore/Proofs/Tree/Lookups.lean
  =================================
  **What a checked tree answers.**  Nothing is known of the bytes of a store but that its
  check succeeds.  Then its leaves hold ascending keys, and lookups, scans and searches
  answer for just these leaves, as long as what the check has met stays in memory.
-/
import RowStore.Proofs.Tree.Milestones
import RowStore.Proofs.Tree.Slots
import RowStore.Proofs.Tree.Verdict

namespace RowStore

variable {α : Type} {H h : Nat}

namespace Pager.Has

variable {pager : Pager} {K : Heap}

theorem index_lt (h : pager.Has K) : ∀ x ∈ K, x.1.index < maxPages := by
  intro x hx
  obtain ⟨page, hslot, -⟩ := h x hx
  exact index_lt_of_slot hslot

/-- Pages in memory are found there, and stay. -/
theorem gives (K : Heap) (hlt : ∀ x ∈ K, x.1.index < maxPages) : Gives (·.Has K) K := by
  intro x hx
  refine ⟨hlt x hx, fun pager hp => ?_⟩
  obtain ⟨page, hslot, hreading⟩ := hp x hx
  exact ⟨page, _, request_of_slot (hlt x hx) hslot, hreading, hp⟩

theorem run_reads (h : pager.Has K) {m : PagerM α} {r : Except Failure α} (hm : Reads m K r) :
    ∃ later : Pager, m.run pager = outcome r later := by
  obtain ⟨later, hrun, -⟩ := hm _ (gives K h.index_lt) pager h
  exact ⟨later, hrun⟩

theorem spells (h : pager.Has K) : pager.view.Spells K := by
  intro x hx
  obtain ⟨page, hslot, hreading⟩ := h x hx
  rw [show pager.view.page x.1 = page from content_of_slot hslot]
  exact hreading

end Pager.Has

namespace Tree

/-! ## Leaves and places -/

/-- The leaves below page `id` from left to right, each with its level, where `id` itself
    stands on `level`. -/
inductive Spans (v : View) : (level : Nat) → (id : PageId) → List (Nat × LeafNode) → Prop where
  | leaf {level : Nat} {id : PageId} {isRoot : Bool} {next : Option PageId} {entries : List Entry}
    (hnode : Leaf.Says (v.page id) isRoot next entries) :
    Spans v level id [(level, ⟨id, next, entries⟩)]
  | branch {level : Nat} {id : PageId} {isRoot : Bool} {keys : List UInt32}
    {children : List (PageId × List (Nat × LeafNode))}
    (hnode : Branch.Says (v.page id) isRoot keys (children.map Prod.fst))
    (hbelow : ∀ child ∈ children, Spans v (level + 1) child.1 child.2) :
    Spans v level id (children.flatMap Prod.snd)

/-- The place of the first entry whose key is not smaller than `key`: its leaf and its cell.
    If all keys are smaller, it is the end of the last leaf. -/
def FirstFrom (leaves : Leaves) (key : UInt32) (place : PageId × Nat) : Prop :=
  ∃ (before : Leaves) (leaf : LeafNode) (after : Leaves), leaves = before ++ leaf :: after ∧
    place.1 = leaf.id ∧
    (∀ k ∈ before.keys ++ (leaf.entries.take place.2).map Entry.key, k < key) ∧
    ((∃ entry, leaf.entries[place.2]? = some entry ∧ key ≤ entry.key) ∨
      place.2 = leaf.entries.length ∧ after = [])

theorem spans_of_spells {v : View} {t : Subtree h} {b b' : Bool} {q : PageId}
    (hf : t.Formed b) (hspells : v.Spells (t.heap b' q)) (level : Nat) :
    Spans v level t.id (t.leaves.map fun leaf => (level + h, leaf)) := by
  induction h, t using Subtree.ind generalizing b b' q level with
  | leaf id next entries =>
    exact .leaf (reading_eq_leaf_iff.mp (hspells _ List.mem_cons_self)).1
  | branch h id children ih =>
    have hnode := says_branch (ne_nil_of_formed hf) hspells
    have hleaves : (Subtree.branch id children).leaves.map (fun leaf => (level + (h + 1), leaf)) =
        (children.map fun child => (child.id, child.leaves.map fun leaf =>
          (level + 1 + h, leaf))).flatMap Prod.snd := by
      rw [Subtree.leaves_branch, List.map_flatMap, List.flatMap_map, Nat.add_assoc level 1 h,
        Nat.add_comm 1 h]
    rw [hleaves]
    refine .branch (by simpa [Function.comp_def] using hnode) fun child hchild => ?_
    obtain ⟨c, hc, rfl⟩ := List.mem_map.mp hchild
    exact ih c hc (((Subtree.formed_branch ..).mp hf).2.2 c hc)
      (hspells.mono (Subtree.heap_subset_of_mem hc id q b')) (level + 1)

theorem Locates.firstFrom {key : UInt32} {t : Subtree H} {place : Trail H 0} {id : PageId}
    {next : Option PageId} {a b : List Entry} (hl : Locates key t place id next a b) :
    FirstFrom t.leaves key (id, a.length) := by
  refine ⟨place.before, ⟨id, next, a ++ b⟩, place.after, ?_, rfl, ?_, ?_⟩
  · rw [← hl.fill_eq, Trail.leaves_fill, List.append_assoc]
    rfl
  · intro k hk
    rcases List.mem_append.mp hk with hk | hk
    · exact hl.before k hk
    · rw [List.take_left] at hk
      exact hl.low k hk
  · cases b with
    | nil =>
      have hlast : place.IsLast := hl.last.resolve_right fun hne => hne rfl
      exact .inr ⟨by rw [List.append_nil], Trail.after_eq_nil hlast⟩
    | cons entry b =>
      refine .inl ⟨entry, ?_, hl.high _ List.mem_cons_self⟩
      rw [List.getElem?_append_right (Nat.le_refl _), Nat.sub_self, List.getElem?_cons_zero]

/-- Every page of a tree is the top of a subtree. -/
theorem exists_subtree {t : Subtree h} {b : Bool} {q : PageId} (hf : t.Formed false)
    {x : PageId × Reading} (hx : x ∈ t.heap b q) :
    ∃ (h' : Nat) (t' : Subtree h') (b' : Bool) (q' : PageId), h' ≤ h ∧ t'.id = x.1 ∧
      t'.Formed false ∧ t'.heap b' q' ⊆ t.heap b q ∧ t'.keys.Sublist t.keys := by
  induction h, t using Subtree.ind generalizing b q with
  | leaf id next entries =>
    obtain rfl := List.mem_singleton.mp hx
    exact ⟨0, _, b, q, Nat.le_refl 0, rfl, hf, List.Subset.refl _, .refl _⟩
  | branch h id children ih =>
    rcases List.mem_cons.mp hx with rfl | hx
    · exact ⟨h + 1, _, b, q, Nat.le_refl _, rfl, hf, List.Subset.refl _, .refl _⟩
    · obtain ⟨child, hchild, hx⟩ := List.mem_flatMap.mp hx
      obtain ⟨h', t', b', q', hle, hid, hformed, hsub, hkeys⟩ :=
        ih child hchild (((Subtree.formed_branch ..).mp hf).2.2 child hchild) hx
      refine ⟨h', t', b', q', Nat.le_succ_of_le hle, hid, hformed,
        List.Subset.trans hsub (Subtree.heap_subset_of_mem hchild id q b), hkeys.trans ?_⟩
      rw [Subtree.keys_branch, ← List.flatMap_singleton Subtree.keys child]
      exact (List.singleton_sublist.mpr hchild).flatMap Subtree.keys

/-- A tree that has a key has one in every leaf. -/
theorem formed_of_keys_ne_nil {t : Subtree h} (hf : t.Formed true) (hne : t.keys ≠ []) :
    t.Formed false := by
  induction h, t using Subtree.ind with
  | leaf id next entries =>
    rw [Subtree.keys_leaf] at hne
    exact ⟨hf.1, fun _ hnil => hne (List.map_eq_nil_iff.mpr hnil), hf.2.2⟩
  | branch h id children => exact hf

/-- Whatever a store holds, if its check succeeds then as long as what it has met stays in
    memory the tree answers for its leaves: their keys ascend and are the ones that are
    listed; a search ends at the first key that is not smaller, and a lookup gives the value
    there; the greatest key below a node is found, unless there is none at all; and every
    leaf stands on the level that is the depth of the tree. -/
theorem checked_tree_answers {pager after now : Pager} (hcheck : check.run pager = .ok () after)
    (hnow : now.Retains after) :
    ∃ (levels : Nat) (leaves : Leaves),
      Spans now.view 1 PageId.root (leaves.map fun leaf => (levels, leaf)) ∧
      leaves.keys.Pairwise (· < ·) ∧
      (∃ later, keys.run now = .ok leaves.keys later) ∧
      (∀ key, ∃ place later, (find key).run now = .ok place later ∧ FirstFrom leaves key place) ∧
      (∀ key, ∃ later, (Tree.get key).run now = .ok (lookup leaves.entries key) later) ∧
      (leaves.keys ≠ [] → ∀ id, Reachable now.view id →
        ∃ (level : Nat) (below : List (Nat × LeafNode)) (greatest : UInt32) (later : Pager),
          Spans now.view level id below ∧ (maxKey id).run now = .ok greatest later ∧
          greatest ∈ Leaves.keys (below.map Prod.snd) ∧
          ∀ k ∈ Leaves.keys (below.map Prod.snd), k ≤ greatest) ∧
      ∃ later, depth.run now = .ok levels later := by
  obtain ⟨H, hH, t, q, hs, hhas⟩ := attests_check pager () after hcheck hnow
  have hspells := hhas.spells
  have hspans := spans_of_spells hs.formed hspells 1
  rw [hs.root] at hspans
  refine ⟨1 + H, t.leaves, hspans, hs.ascending,
    hhas.run_reads (reads_keys hs hH (hs.length_leaves_le hhas)), fun key => ?_,
    fun key => hhas.run_reads (reads_get hs hH key q), fun hne id hid => ?_,
    hhas.run_reads (hs.root ▸ reads_depthBelow hs.formed true q (Nat.le_of_lt hH) 1)⟩
  · obtain ⟨place, leaf, next, a, b, hl⟩ := exists_locates hs key
    obtain ⟨later, hrun⟩ := hhas.run_reads (hl.reads_find hs hH q)
    exact ⟨_, later, hrun, hl.firstFrom⟩
  · obtain ⟨x, hx, rfl⟩ := mem_of_reachable hs hspells hid
    obtain ⟨h, t', b, q', hle, hid', hf, hsub, hkeys⟩ :=
      exists_subtree (formed_of_keys_ne_nil hs.formed hne) hx
    have hspans := spans_of_spells hf (hspells.mono hsub) 1
    obtain ⟨later, hrun⟩ := hhas.run_reads
      ((reads_maxKeyBelow hf b q' (Nat.lt_of_le_of_lt hle hH)).mono hsub)
    rw [hid'] at hspans hrun
    have hbelow : (t'.leaves.map fun leaf => (1 + h, leaf)).map Prod.snd = t'.leaves := by
      rw [List.map_map]
      exact List.map_id _
    refine ⟨1, _, t'.greatest, later, hspans, hrun, ?_⟩
    rw [hbelow]
    exact ⟨Subtree.greatest_mem_keys hf, fun k hk =>
      Subtree.le_greatest hf (hs.ascending.sublist hkeys) hk⟩

/-- After the first split there are two levels, with seven keys in each leaf. -/
theorem checked_tree_answers_fourteen : ∃ full split after : Pager, FirstSplit full split ∧
    check.run split = .ok () after ∧ ∃ leaves : Leaves,
      leaves.keys = [0, 1, 2, 3, 4, 5, 6, 7, 8, 9, 10, 11, 12, 13] ∧
      (∃ later, keys.run after = .ok leaves.keys later) ∧
      (∀ key, ∃ place later, (find key).run after = .ok place later ∧
        FirstFrom leaves key place) ∧
      (∀ key, ∃ later, (Tree.get key).run after = .ok (lookup leaves.entries key) later) ∧
      ∃ later, depth.run after = .ok 2 later := by
  obtain ⟨full, split, h⟩ := exists_firstSplit
  obtain ⟨q, hstores⟩ := h.stores
  have hs := hstores.sound
  have hH := hstores.height_lt
  obtain ⟨after, hcheck, hcoherent, hview⟩ := hstores.run_reads (reads_check hs hH q)
  obtain ⟨levels, leaves, -, -, ⟨listed, hlist⟩, hfind, hget, -, ⟨last, hdepth⟩⟩ :=
    checked_tree_answers hcheck (Pager.Retains.refl after)
  have hafter := hstores.of_view hcoherent hview
  obtain ⟨listed', hlist', -⟩ :=
    hafter.run_reads (reads_keys hs hH hstores.length_leaves_le)
  obtain ⟨last', hdepth', -⟩ := hafter.run_reads
    (reads_depthBelow hs.formed true q (Nat.le_of_lt hH) 1)
  have hkeys : leaves.keys = fourteen.keys :=
    Except.ok.inj (outcome_inj (r := .ok leaves.keys) (hlist.symm.trans hlist')).1
  obtain rfl : levels = 2 :=
    Except.ok.inj (outcome_inj (r := .ok levels) (hdepth.symm.trans hdepth')).1
  exact ⟨full, split, after, h, hcheck, leaves, hkeys, ⟨listed, hlist⟩, hfind, hget, last, hdepth⟩

end Tree
end RowStore
