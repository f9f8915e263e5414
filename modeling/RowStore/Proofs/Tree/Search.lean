/-
  RowStore/Proofs/Tree/Search.lean
  ================================
  **Searches find their place.**  A walk down a formed tree reaches a leaf: on the right
  edge the one that ends with the greatest key, and by a key the one that the key belongs
  into.  The place of that leaf is a trail, with smaller keys before it and greater keys
  behind it.
-/
import RowStore.Proofs.Tree.Shape
import RowStore.Tree.Search

namespace RowStore.Tree

variable {h H : Nat}

/-- The child at a position is reached by a valid page number. -/
theorem child_eq {page : Page} {isRoot : Bool} {keys : List UInt32} {children : List (Subtree h)}
    {id parent : PageId} {b : Bool} (hnode : Branch.Says page b keys (children.map Subtree.id))
    (hlt : ∀ x ∈ (Subtree.branch id children).heap isRoot parent, x.1.index < maxPages) {i : Nat}
    {child : Subtree h} (hchild : children[i]? = some child) :
    Branch.child { id, page } i = .ok child.id := by
  have hsub := Subtree.heap_subset_of_mem (List.mem_of_getElem? hchild) id parent isRoot
  exact hnode.child_eq (by rw [List.getElem?_map, hchild]; rfl) (child.isValid_id hsub hlt)

/-- The right edge ends with the greatest key. -/
theorem reads_maxKeyBelow {t : Subtree h} (hf : t.Formed false) (isRoot : Bool)
    (parent : PageId) {nodes : Nat} (hnodes : h < nodes) :
    Reads (maxKeyBelow nodes t.id) (t.heap isRoot parent) (.ok t.greatest) := by
  induction h, t using Subtree.ind generalizing isRoot parent nodes with
  | leaf id next entries =>
    obtain ⟨nodes, rfl⟩ := Nat.exists_eq_add_one_of_ne_zero (Nat.ne_zero_of_lt hnodes)
    obtain ⟨-, hne, -⟩ := (Subtree.formed_leaf ..).mp hf
    refine Reads.sees_bind (sees_node_leaf List.mem_cons_self) ?_
    rintro _ ⟨page, rfl, hnode, -⟩
    have hlast := List.getLast?_eq_some_getLast (hne rfl)
    have hmax : Leaf.maxKey { id, page } = .ok _ := hnode.maxKey_eq hlast
    simp only [Subtree.id_leaf]
    rw [hmax, Subtree.greatest_leaf, List.getLast?_map, hlast]
    exact Reads.lift _
  | branch h id children ih =>
    obtain ⟨nodes, rfl⟩ := Nat.exists_eq_add_one_of_ne_zero (Nat.ne_zero_of_lt hnodes)
    obtain ⟨hlen, -, hchildren⟩ := (Subtree.formed_branch ..).mp hf
    have hne : children ≠ [] := List.ne_nil_of_length_pos (by omega)
    have hlast := List.getLast?_eq_some_getLast hne
    have hmem := List.getLast_mem hne
    refine Reads.of_index_lt fun hlt => ?_
    refine Reads.sees_bind (sees_node_branch (Subtree.mem_heap_branch hne id parent isRoot)) ?_
    rintro _ ⟨page, rfl, hnode, -⟩
    have hcount : Branch.count { id, page } = children.length - 1 := by
      rw [hnode.count_eq, List.length_dropLast, List.length_map]
    have hchild := child_eq hnode hlt (List.getLast?_eq_getElem? ▸ hlast)
    simp only [Subtree.id_branch]
    rw [hcount]
    refine Reads.lift_bind hchild ?_
    rw [Subtree.greatest_branch, List.getLast?_map, hlast]
    exact (ih _ hmem (hchildren _ hmem) false id (by omega)).mono
      (Subtree.heap_subset_of_mem hmem id parent isRoot)

/-- An empty leaf has no greatest key. -/
theorem reads_maxKeyBelow_empty {K : Heap} {id parent : PageId} {isRoot : Bool}
    {next : Option PageId} (hleaf : (id, ⟨some (.leaf isRoot next []), parent⟩) ∈ K)
    (nodes : Nat) : Reads (maxKeyBelow (nodes + 1) id) K (.error (.error (.emptyLeaf id))) := by
  refine Reads.sees_bind (sees_node_leaf hleaf) ?_
  rintro _ ⟨page, rfl, hnode, -⟩
  have hcount : Leaf.count { id, page } = 0 := hnode.count_eq
  simp only [Leaf.maxKey, hcount]
  exact Reads.lift _

/-- The right edge of a whole tree may also end in a root without keys. -/
theorem exists_maxKeyBelow {t : Subtree h} {b : Bool} (hf : t.Formed b) {nodes : Nat}
    (hnodes : h < nodes) : ∃ r, (r = .ok t.greatest ∨ r = .error (.error (.emptyLeaf t.id))) ∧
      ∀ (isRoot : Bool) (parent : PageId),
        Reads (maxKeyBelow nodes t.id) (t.heap isRoot parent) r := by
  by_cases hne : t.Formed false
  · exact ⟨_, .inl rfl, fun isRoot parent => reads_maxKeyBelow hne isRoot parent hnodes⟩
  · cases h with
    | succ h => exact absurd hf hne
    | zero =>
      obtain ⟨id, next, entries⟩ := t
      obtain rfl : entries = [] := by
        by_contra hnil
        exact hne ⟨hf.1, fun _ => hnil, hf.2.2⟩
      obtain ⟨nodes, rfl⟩ := Nat.exists_eq_add_one_of_ne_zero (Nat.ne_zero_of_lt hnodes)
      exact ⟨_, .inr rfl, fun isRoot parent =>
        reads_maxKeyBelow_empty List.mem_cons_self nodes⟩

/-- The left edge comes by every level. -/
theorem reads_depthBelow {t : Subtree h} {b : Bool} (hf : t.Formed b) (isRoot : Bool)
    (parent : PageId) {levels : Nat} (hlevels : h ≤ levels) (level : Nat) :
    Reads (depthBelow levels level t.id) (t.heap isRoot parent) (.ok (level + h)) := by
  induction h, t using Subtree.ind generalizing b isRoot parent levels level with
  | leaf id next entries =>
    cases levels with
    | zero => exact Reads.bind (reads_kindOf_leaf List.mem_cons_self) (Reads.pure _)
    | succ levels => exact Reads.bind (reads_kindOf_leaf List.mem_cons_self) (Reads.pure _)
  | branch h id children ih =>
    obtain ⟨levels, rfl⟩ := Nat.exists_eq_add_one_of_ne_zero (show levels ≠ 0 by omega)
    obtain ⟨hlen, -, hchildren⟩ := (Subtree.formed_branch ..).mp hf
    obtain ⟨first, rest, rfl⟩ := List.exists_cons_of_length_pos hlen
    have hmem := Subtree.mem_heap_branch (List.cons_ne_nil first rest) id parent isRoot
    refine Reads.of_index_lt fun hlt => ?_
    refine Reads.bind (reads_kindOf_branch hmem) ?_
    refine Reads.sees_bind (sees_branch hmem) ?_
    rintro _ ⟨page, rfl, hnode, -⟩
    refine Reads.lift_bind (child_eq hnode hlt (List.getElem?_cons_zero ..)) ?_
    rw [← Nat.add_assoc, Nat.add_right_comm]
    exact (ih first List.mem_cons_self (hchildren first List.mem_cons_self) false id
      (Nat.le_of_succ_le_succ hlevels) (level + 1)).mono
        (Subtree.heap_subset_of_mem List.mem_cons_self id parent isRoot)

/-! ## The way down -/

/-- The search for `key` comes from a subtree at some place to the leaf `last` at `place`. -/
inductive Descends (key : UInt32) {H : Nat} (place : Trail H 0) (last : Subtree 0) :
    {h : Nat} → Trail H h → Subtree h → Prop where
  | here : Descends key place last place last
  | step {h : Nat} {z : Trail H (h + 1)} (id : PageId) (left right : List (Subtree h))
      (child : Subtree h)
      (hrank : rank key ((left ++ child :: right).map Subtree.greatest).dropLast = left.length)
      (hchild : Descends key place last (.down id left right z) child) :
      Descends key place last z (Subtree.branch id (left ++ child :: right))

/-- A search in a formed tree reaches a leaf. -/
theorem exists_descends (key : UInt32) {t : Subtree h} {isRoot : Bool} (hf : t.Formed isRoot)
    (z : Trail H h) : ∃ place last, Descends key place last z t := by
  induction h, t using Subtree.ind generalizing isRoot with
  | leaf id next entries => exact ⟨z, _, .here⟩
  | branch h id children ih =>
    obtain ⟨hlen, -, hchildren⟩ := (Subtree.formed_branch ..).mp hf
    have hle := rank_le key (children.map Subtree.greatest).dropLast
    rw [List.length_dropLast, List.length_map] at hle
    have hlt : rank key (children.map Subtree.greatest).dropLast < children.length := by omega
    have hsplit : children = children.take (rank key (children.map Subtree.greatest).dropLast) ++
        children[rank key (children.map Subtree.greatest).dropLast] ::
          children.drop (rank key (children.map Subtree.greatest).dropLast + 1) := by
      rw [← List.drop_eq_getElem_cons, List.take_append_drop]
    obtain ⟨place, last, hbelow⟩ := ih _ (List.getElem_mem hlt)
      (hchildren _ (List.getElem_mem hlt)) (.down id
        (children.take (rank key (children.map Subtree.greatest).dropLast))
        (children.drop (rank key (children.map Subtree.greatest).dropLast + 1)) z)
    refine ⟨place, last, ?_⟩
    rw [hsplit]
    refine .step id _ _ _ ?_ hbelow
    rw [← hsplit, List.length_take_of_le (Nat.le_of_lt hlt)]

/-- With a child to the right, the child on the way has a separator. -/
theorem le_greatest_of_rank {key : UInt32} {left right : List (Subtree h)} {child : Subtree h}
    (hgreatest : ((left ++ child :: right).map Subtree.greatest).Pairwise (· < ·))
    (hrank : rank key ((left ++ child :: right).map Subtree.greatest).dropLast = left.length)
    (hright : right ≠ []) : key ≤ child.greatest := by
  have hpos := List.length_pos_of_ne_nil hright
  have hlt : left.length < ((left ++ child :: right).map Subtree.greatest).dropLast.length := by
    simp only [List.length_dropLast, List.length_map, List.length_append, List.length_cons]
    omega
  have hpair : (((left ++ child :: right).map Subtree.greatest).dropLast).Pairwise (· < ·) :=
    hgreatest.sublist (List.dropLast_sublist _)
  have hsep := le_of_rank_le hpair hlt (Nat.le_of_eq hrank)
  rw [List.getElem_dropLast, List.getElem_map] at hsep
  simpa only [List.getElem_append_right (Nat.le_refl _), Nat.sub_self,
    List.getElem_cons_zero] using hsep

namespace Descends

variable {key : UInt32} {place : Trail H 0} {last : Subtree 0} {z : Trail H h} {t : Subtree h}

theorem fill_eq (hd : Descends key place last z t) : place.fill last = z.fill t := by
  induction hd with
  | here => rfl
  | step id left right child _ _ ih => exact ih

/-- Separators keep smaller keys to the left of the way and greater keys to the right. -/
theorem around (hd : Descends key place last z t) {isRoot : Bool} (hf : t.Formed isRoot)
    (hkeys : t.keys.Pairwise (· < ·)) (hbefore : ∀ k ∈ z.before.keys, k < key)
    (hafter : ∀ k ∈ z.after.keys, key < k) :
    (∀ k ∈ place.before.keys, k < key) ∧ ∀ k ∈ place.after.keys, key < k := by
  induction hd generalizing isRoot with
  | here => exact ⟨hbefore, hafter⟩
  | @step h z id left right child hrank _ ih =>
    obtain ⟨-, -, hchildren⟩ := (Subtree.formed_branch ..).mp hf
    rw [Subtree.keys_branch] at hkeys
    have hgreatest := Siblings.greatest ⟨hchildren, hkeys⟩
    have hparts := List.pairwise_flatMap.mp hkeys
    refine ih (hchildren child (by simp)) (hparts.1 child (by simp)) ?_ ?_
    · intro k hk
      rw [Trail.before, Leaves.keys_append, Subtree.keys_flatMap_leaves] at hk
      rcases List.mem_append.mp hk with hk | hk
      · exact hbefore k hk
      · -- A child to the left has a separator, which is smaller than the key.
        obtain ⟨c, hc, hkc⟩ := List.mem_flatMap.mp hk
        have hmem : c ∈ left ++ child :: right := List.mem_append_left _ hc
        obtain ⟨i, hi, rfl⟩ := List.getElem_of_mem hc
        have hlt : i < ((left ++ child :: right).map Subtree.greatest).dropLast.length := by
          simp only [List.length_dropLast, List.length_map, List.length_append, List.length_cons]
          omega
        have hsep := lt_of_lt_rank hlt (hrank ▸ hi)
        rw [List.getElem_dropLast, List.getElem_map, List.getElem_append_left hi] at hsep
        exact UInt32.lt_of_le_of_lt
          (Subtree.le_greatest (hchildren _ hmem) (hparts.1 _ hmem) hkc) hsep
    · intro k hk
      rw [Trail.after, Leaves.keys_append, Subtree.keys_flatMap_leaves] at hk
      rcases List.mem_append.mp hk with hk | hk
      · obtain ⟨c, hc, hkc⟩ := List.mem_flatMap.mp hk
        have hsep := le_greatest_of_rank hgreatest hrank (List.ne_nil_of_mem hc)
        have hlast := List.pairwise_append.mp hparts.2
        have hnext := (List.pairwise_cons.mp hlast.2.1).1 c hc
        exact UInt32.lt_of_le_of_lt hsep
          (hnext _ (Subtree.greatest_mem_keys (hchildren child (by simp))) k hkc)
      · exact hafter k hk

/-- Only at the right edge of the tree the way may end before a greater key. -/
theorem isLast_or_le (hd : Descends key place last z t) {isRoot : Bool} (hf : t.Formed isRoot)
    (hkeys : t.keys.Pairwise (· < ·)) (hz : z.IsLast ∨ key ≤ t.greatest) :
    place.IsLast ∨ key ≤ last.greatest := by
  induction hd generalizing isRoot with
  | here => exact hz
  | @step h z id left right child hrank _ ih =>
    obtain ⟨-, -, hchildren⟩ := (Subtree.formed_branch ..).mp hf
    rw [Subtree.keys_branch] at hkeys
    refine ih (hchildren child (by simp)) ((List.pairwise_flatMap.mp hkeys).1 child (by simp)) ?_
    by_cases hright : right = []
    · subst hright
      refine hz.imp (fun hlast => ⟨rfl, hlast⟩) fun hle => ?_
      simpa using hle
    · exact .inr (le_greatest_of_rank (Siblings.greatest ⟨hchildren, hkeys⟩) hrank hright)

/-- A search by key reaches its leaf and its place there. -/
theorem reads_findBelow (hd : Descends key place last z t) {isRoot : Bool} (hf : t.Formed isRoot)
    (hkeys : t.keys.Pairwise (· < ·)) (b : Bool) (parent : PageId) {nodes : Nat}
    (hnodes : h < nodes) :
    Reads (findBelow key nodes t.id) (t.heap b parent)
      (.ok (last.id, rank key last.keys)) := by
  induction hd generalizing isRoot b parent nodes with
  | here =>
    obtain ⟨nodes, rfl⟩ := Nat.exists_eq_add_one_of_ne_zero (Nat.ne_zero_of_lt hnodes)
    obtain ⟨id, next, entries⟩ := last
    change (Subtree.leaf id next entries).keys.Pairwise (· < ·) at hkeys
    change Reads (findBelow key (nodes + 1) id) ((Subtree.leaf id next entries).heap b parent)
      (.ok (id, rank key (Subtree.leaf id next entries).keys))
    rw [Subtree.keys_leaf] at hkeys ⊢
    refine Reads.sees_bind (sees_node_leaf List.mem_cons_self) ?_
    rintro _ ⟨page, rfl, hnode, -⟩
    exact Reads.lift_bind (hnode.find_eq hkeys key) (Reads.pure _)
  | @step h z id left right child hrank _ ih =>
    obtain ⟨nodes, rfl⟩ := Nat.exists_eq_add_one_of_ne_zero (Nat.ne_zero_of_lt hnodes)
    obtain ⟨-, -, hchildren⟩ := (Subtree.formed_branch ..).mp hf
    rw [Subtree.keys_branch] at hkeys
    have hpair : (((left ++ child :: right).map Subtree.greatest).dropLast).Pairwise (· < ·) :=
      (Siblings.greatest ⟨hchildren, hkeys⟩).sublist (List.dropLast_sublist _)
    have hmem : child ∈ left ++ child :: right := by simp
    have hget : (left ++ child :: right)[left.length]? = some child := by simp
    refine Reads.of_index_lt fun hlt => ?_
    refine Reads.sees_bind (sees_node_branch
      (Subtree.mem_heap_branch (List.ne_nil_of_mem hmem) id parent b)) ?_
    rintro _ ⟨page, rfl, hnode, -⟩
    refine Reads.lift_bind (hnode.findChild_eq hpair key) ?_
    rw [hrank]
    refine Reads.lift_bind (child_eq hnode hlt hget) ?_
    exact (ih (hchildren child hmem) ((List.pairwise_flatMap.mp hkeys).1 child hmem) false id
      (by omega)).mono (Subtree.heap_subset_of_mem hmem id parent b)

end Descends

end RowStore.Tree
