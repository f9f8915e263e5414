/-
  RowStore/Proofs/Tree/Check.lean
  ===============================
  **A sound tree passes its check.**  The check walks down the tree and then along the
  chain of leaves.  On a formed tree with ascending keys the walk gathers the leaves in
  their order, and the chain of a sound tree runs through them in that order.
-/
import RowStore.Proofs.Tree.Search
import RowStore.Tree.Check

namespace RowStore.Tree

variable {H h : Nat}

/-! ## Keys -/

theorem checkAscending_eq (id : PageId) {keys : List UInt32} (hkeys : keys.Pairwise (· < ·)) :
    checkAscending id keys = .ok () := by
  induction keys with
  | nil => rfl
  | cons key rest ih =>
    cases rest with
    | nil => rfl
    | cons next rest =>
      obtain ⟨hkey, hrest⟩ := List.pairwise_cons.mp hkeys
      rw [checkAscending, if_neg (UInt32.not_le.mpr (hkey next List.mem_cons_self))]
      exact ih hrest

theorem checkAbove_eq (id : PageId) {previous : Option UInt32} {keys : List UInt32}
    (hkeys : (previous.toList ++ keys).Pairwise (· < ·)) :
    checkAbove id previous keys = .ok (keys.getLast?.or previous) := by
  induction keys generalizing previous with
  | nil => rfl
  | cons key rest ih =>
    have hprevious : ¬previous.any (key ≤ ·) = true := by
      cases previous with
      | none => exact Bool.false_ne_true
      | some last =>
        have hlt := (List.pairwise_cons.mp hkeys).1 key List.mem_cons_self
        simpa using UInt32.not_le.mpr hlt
    have hrest : ((some key).toList ++ rest).Pairwise (· < ·) :=
      (List.pairwise_append.mp hkeys).2.1
    rw [checkAbove, if_neg hprevious, ih hrest, List.getLast?_cons]
    cases rest.getLast? <;> rfl

/-- The separators of a branch are the greatest keys of all its children but the last. -/
theorem checkSeparator_eq {before after : List (Subtree h)} {child : Subtree h} (id : PageId)
    (hgreatest : ((before ++ child :: after).map Subtree.greatest).Pairwise (· < ·)) :
    checkSeparator id ((before ++ child :: after).map Subtree.greatest).dropLast before.length
      child.id child.greatest = .ok () := by
  rw [List.map_append, List.map_cons] at hgreatest ⊢
  rw [checkSeparator]
  cases after with
  | nil =>
    have hnone : (before.map Subtree.greatest)[before.length]? = none :=
      List.getElem?_eq_none (Nat.le_of_eq (List.length_map _))
    rw [List.map_nil, List.dropLast_concat, hnone]
    cases hlast : (before.map Subtree.greatest).getLast? with
    | none => rfl
    | some last =>
      have hlt := (List.pairwise_append.mp hgreatest).2.2 last (List.mem_of_getLast? hlast)
        child.greatest List.mem_cons_self
      exact if_neg (UInt32.not_le.mpr hlt)
  | cons next after =>
    have hsome : (before.map Subtree.greatest ++ (child.greatest ::
        (next :: after).map Subtree.greatest).dropLast)[before.length]? = some child.greatest := by
      rw [List.getElem?_append_right (Nat.le_of_eq (List.length_map _)), List.length_map,
        Nat.sub_self]
      rfl
    rw [List.dropLast_append_cons, hsome]
    exact if_pos rfl

/-! ## The walk down -/

theorem visitLeaf_eq {walk : Walk} {isTop : Bool} {depth : Nat} {keys : List UInt32} (id : PageId)
    (hkeys : keys.Pairwise (· < ·)) (hdepth : walk.leafDepth.getD depth = depth)
    (hne : isTop = false → keys ≠ []) :
    walk.visitLeaf id isTop depth keys =
      .ok { leaves := walk.leaves ++ [id], leafDepth := some depth } := by
  have hleaf : ¬(keys = [] ∧ isTop = false) := fun h => hne h.2 h.1
  rw [Walk.visitLeaf, checkAscending_eq id hkeys]
  cases hwalk : walk.leafDepth with
  | none => simp [hleaf]
  | some others =>
    rw [hwalk, Option.getD_some] at hdepth
    simp [hleaf, hdepth]

theorem reads_isRoot (t : Subtree h) (b : Bool) (parent : PageId) :
    Reads (isRoot t.id) (t.heap b parent) (.ok b) := by
  cases h with
  | zero => exact reads_isRoot_leaf List.mem_cons_self
  | succ h => exact reads_isRoot_branch List.mem_cons_self

theorem reads_checkParent (t : Subtree h) (parent : PageId) :
    Reads (checkParent t.id parent) (t.heap false parent) (.ok ()) := by
  refine Reads.bind (reads_isRoot t false parent) ?_
  refine Reads.bind (a := parent) ?_ ?_
  · rw [Subtree.heap_eq_cons]
    exact reads_parentOf List.mem_cons_self
  · simp only [ne_eq, not_true_eq_false, if_false]
    exact Reads.pure _

/-- The check of a node whose parent field has been looked at. -/
def checkBody (levels depth : Nat) (parent : Option PageId) (id : PageId) (walk : Walk) :
    Node → PagerM (Option UInt32 × Walk)
  | .leaf leaf => do
    let keys ← leaf.keys
    let walk ← walk.visitLeaf id parent.isNone depth keys
    return (keys.getLast?, walk)
  | .branch branch => do
    let keys ← branch.keys
    let children ← branch.children
    checkAscending id keys
    checkChildren (checkNode levels (depth + 1) (some id)) id keys 0 children none walk

/-- The parent is checked before the node. -/
theorem checkNode_eq (levels depth : Nat) (parent : Option PageId) (id : PageId) (walk : Walk) :
    checkNode (levels + 1) depth parent id walk = (do
      (match parent with
        | some expected => checkParent id expected
        | none => pure ())
      checkBody levels depth parent id walk (← node id)) := by
  cases parent <;> rfl

theorem reads_checkTop (t : Subtree h) (parent : Option PageId) (q : PageId) :
    Reads (match parent with
        | some expected => checkParent t.id expected
        | none => pure ()) (t.heap parent.isNone (parent.getD q)) (.ok ()) := by
  cases parent with
  | none => exact Reads.pure ()
  | some expected => exact reads_checkParent t expected

/-- What a check below a node answers, if the node is right. -/
def Gathers (below : PageId → Walk → PagerM (Option UInt32 × Walk)) (level : Nat) (t : Subtree h)
    (K : Heap) : Prop :=
  ∀ walk : Walk, walk.leafDepth.getD level = level →
    Reads (below t.id walk) K (.ok (t.keys.getLast?,
      { leaves := walk.leaves ++ t.leaves.map LeafNode.id, leafDepth := some level }))

theorem reads_checkChildren {below : PageId → Walk → PagerM (Option UInt32 × Walk)} {K : Heap}
    {level : Nat} {before after : List (Subtree h)} {child : Subtree h} {walk : Walk} (id : PageId)
    (greatest : Option UInt32) (hs : Siblings (before ++ child :: after))
    (hbelow : ∀ c ∈ child :: after, Gathers below level c K)
    (hlevel : walk.leafDepth.getD level = level) :
    Reads (checkChildren below id ((before ++ child :: after).map Subtree.greatest).dropLast
        before.length ((child :: after).map Subtree.id) greatest walk) K
      (.ok (((child :: after).map Subtree.greatest).getLast?,
        { leaves := walk.leaves ++ ((child :: after).flatMap Subtree.leaves).map LeafNode.id
          leafDepth := some level })) := by
  induction after generalizing before child greatest walk with
  | nil =>
    rw [List.map_singleton, checkChildren]
    refine Reads.bind (hbelow child List.mem_cons_self walk hlevel) ?_
    rw [Subtree.getLast?_keys (hs.formed child (by simp))]
    dsimp only
    refine Reads.lift_bind (checkSeparator_eq id hs.greatest) ?_
    rw [checkChildren]
    simpa using Reads.pure _
  | cons next after ih =>
    rw [List.map_cons, checkChildren]
    refine Reads.bind (hbelow child List.mem_cons_self walk hlevel) ?_
    rw [Subtree.getLast?_keys (hs.formed child (by simp))]
    dsimp only
    refine Reads.lift_bind (checkSeparator_eq id hs.greatest) ?_
    rw [List.append_cons before child] at hs ⊢
    have hrest : Reads (checkChildren below id
        ((before ++ [child] ++ next :: after).map Subtree.greatest).dropLast
        (before ++ [child]).length ((next :: after).map Subtree.id) (some child.greatest)
        { leaves := walk.leaves ++ child.leaves.map LeafNode.id, leafDepth := some level }) K _ :=
      ih (some child.greatest) hs (fun c hc => hbelow c (List.mem_cons_of_mem _ hc)) rfl
    rw [List.length_append, List.length_singleton] at hrest
    have hleaves : walk.leaves ++
        ((child :: next :: after).flatMap Subtree.leaves).map LeafNode.id =
        walk.leaves ++ child.leaves.map LeafNode.id ++
          ((next :: after).flatMap Subtree.leaves).map LeafNode.id := by
      rw [List.flatMap_cons, List.map_append, List.append_assoc]
    rw [hleaves]
    exact hrest

/-- A leaf gathers itself. -/
theorem gathers_leaf {id : PageId} {next : Option PageId} {entries : List Entry}
    {parent : Option PageId} {depth : Nat} (levels : Nat) (q : PageId)
    (hf : (Subtree.leaf id next entries).Formed parent.isNone)
    (hkeys : (Subtree.leaf id next entries).keys.Pairwise (· < ·)) :
    Gathers (checkNode (levels + 1) depth parent) depth (.leaf id next entries)
      ((Subtree.leaf id next entries).heap parent.isNone (parent.getD q)) := by
  intro walk hwalk
  obtain ⟨-, hne, -⟩ := (Subtree.formed_leaf ..).mp hf
  rw [Subtree.keys_leaf] at hkeys ⊢
  rw [checkNode_eq]
  refine Reads.bind (reads_checkTop (.leaf id next entries) parent q) ?_
  refine Reads.sees_bind (sees_node_leaf List.mem_cons_self) ?_
  rintro _ ⟨page, rfl, hnode, -⟩
  refine Reads.lift_bind hnode.keys_eq ?_
  refine Reads.lift_bind (visitLeaf_eq id hkeys hwalk fun htop he => ?_) (Reads.pure _)
  exact hne htop (List.map_eq_nil_iff.mp he)

/-- A branch gathers what its children do. -/
theorem gathers_branch {id : PageId} {children : List (Subtree h)} {parent : Option PageId}
    {levels depth level : Nat} (q : PageId)
    (hf : (Subtree.branch id children).Formed parent.isNone)
    (hkeys : (children.flatMap Subtree.keys).Pairwise (· < ·))
    (hbelow : ∀ child ∈ children,
      Gathers (checkNode levels (depth + 1) (some id)) level child (child.heap false id)) :
    Gathers (checkNode (levels + 1) depth parent) level (.branch id children)
      ((Subtree.branch id children).heap parent.isNone (parent.getD q)) := by
  intro walk hwalk
  obtain ⟨hlen, -, hchildren⟩ := (Subtree.formed_branch ..).mp hf
  have hsiblings : Siblings children := ⟨hchildren, hkeys⟩
  have hne : children ≠ [] := List.ne_nil_of_length_pos (by omega)
  have hlast : (Subtree.branch id children).keys.getLast? =
      (children.map Subtree.greatest).getLast? := by
    rw [Subtree.getLast?_keys (hsiblings.formed_branch id false hlen
      ((Subtree.formed_branch ..).mp hf).2.1), Subtree.greatest_branch,
      List.getLast?_eq_some_getLast (by simpa using hne)]
    rfl
  rw [checkNode_eq, hlast]
  refine Reads.of_index_lt fun hlt => ?_
  refine Reads.bind (reads_checkTop (.branch id children) parent q) ?_
  refine Reads.sees_bind (sees_node_branch
    (Subtree.mem_heap_branch hne id (parent.getD q) parent.isNone)) ?_
  rintro _ ⟨page, rfl, hnode, -⟩
  refine Reads.lift_bind hnode.keys_eq ?_
  refine Reads.lift_bind (hnode.children_eq ?_) ?_
  · intro number hnumber
    obtain ⟨child, hchild, rfl⟩ := List.mem_map.mp hnumber
    exact child.isValid_id (Subtree.heap_subset_of_mem hchild id _ _) hlt
  refine Reads.lift_bind (checkAscending_eq id
    (hsiblings.greatest.sublist (List.dropLast_sublist _))) ?_
  obtain ⟨first, rest, rfl⟩ := List.exists_cons_of_ne_nil hne
  refine @reads_checkChildren h _ _ level [] rest first walk id none hsiblings ?_ hwalk
  exact fun child hchild walk hwalk =>
    (hbelow child hchild walk hwalk).mono (Subtree.heap_subset_of_mem hchild id _ _)

/-- The walk below a node gathers its leaves. -/
theorem gathers_checkNode {t : Subtree h} {parent : Option PageId} {levels depth : Nat}
    (q : PageId) (hf : t.Formed parent.isNone) (hkeys : t.keys.Pairwise (· < ·))
    (hlevels : h < levels) :
    Gathers (checkNode levels depth parent) (depth + h) t
      (t.heap parent.isNone (parent.getD q)) := by
  induction h, t using Subtree.ind generalizing parent levels depth q with
  | leaf id next entries =>
    obtain ⟨levels, rfl⟩ := Nat.exists_eq_add_one_of_ne_zero (Nat.ne_zero_of_lt hlevels)
    exact gathers_leaf levels q hf hkeys
  | branch h id children ih =>
    obtain ⟨levels, rfl⟩ := Nat.exists_eq_add_one_of_ne_zero (Nat.ne_zero_of_lt hlevels)
    obtain ⟨-, -, hchildren⟩ := (Subtree.formed_branch ..).mp hf
    rw [Subtree.keys_branch] at hkeys
    rw [← Nat.add_assoc, Nat.add_right_comm]
    refine gathers_branch q hf hkeys fun child hchild => ?_
    have hascending := (List.pairwise_flatMap.mp hkeys).1 child hchild
    exact @ih child hchild (some id) levels (depth + 1) id (hchildren child hchild) hascending
      (Nat.lt_of_succ_lt_succ hlevels)

/-! ## The chain -/

theorem getLast?_or_sublist (previous : Option UInt32) (keys : List UInt32) :
    (keys.getLast?.or previous).toList.Sublist (previous.toList ++ keys) := by
  rcases List.eq_nil_or_concat' keys with rfl | ⟨front, last, rfl⟩
  · rw [List.append_nil]
    exact .refl _
  · rw [List.getLast?_concat, ← List.append_assoc]
    exact List.sublist_append_right _ [last]

theorem reads_checkChain {K : Heap} {previous : Option UInt32} {leaves : Leaves}
    (hpages : ∀ leaf ∈ leaves, ∃ b p, (leaf.id, ⟨some (.leaf b leaf.next leaf.entries), p⟩) ∈ K)
    (hchained : leaves.Chained) (hkeys : (previous.toList ++ leaves.keys).Pairwise (· < ·)) :
    Reads (checkChain previous (leaves.map LeafNode.id)) K (.ok ()) := by
  induction leaves generalizing previous with
  | nil => exact Reads.pure ()
  | cons first rest ih =>
    obtain ⟨b, p, hpage⟩ := hpages first List.mem_cons_self
    have hnext : first.next = (rest.map LeafNode.id).head? := by
      cases rest with
      | nil => exact hchained
      | cons second rest => exact hchained.1
    rw [Leaves.keys_cons, ← List.append_assoc] at hkeys
    rw [List.map_cons, checkChain]
    refine Reads.sees_bind (sees_leaf hpage) ?_
    rintro _ ⟨page, rfl, hnode, -⟩
    refine Reads.lift_bind hnode.keys_eq ?_
    refine Reads.lift_bind (checkAbove_eq first.id (List.pairwise_append.mp hkeys).1) ?_
    rw [show Leaf.next { id := first.id, page } = first.next from hnode.next, hnext]
    simp only [ne_eq, not_true_eq_false, if_false]
    refine ih (fun leaf hleaf => hpages leaf (List.mem_cons_of_mem _ hleaf)) ?_
      (hkeys.sublist ((getLast?_or_sublist _ _).append (.refl _)))
    cases rest with
    | nil => trivial
    | cons second rest => exact hchained.2

theorem reads_check {t : Subtree H} (hs : t.Sound) (hH : H < maxPages) (q : PageId) :
    Reads check (t.heap true q) (.ok ()) := by
  have hgathers : Gathers (checkNode maxPages 1 none) (1 + H) t (t.heap true q) :=
    @gathers_checkNode H t none maxPages 1 q hs.formed hs.ascending hH
  have hwalk := hgathers {} rfl
  rw [hs.root] at hwalk
  have hroot := reads_isRoot t true q
  rw [hs.root] at hroot
  refine Reads.bind hroot ?_
  refine Reads.bind hwalk ?_
  exact reads_checkChain (fun leaf hleaf => t.exists_leaf_mem_heap hleaf true q) hs.chained
    hs.ascending

end RowStore.Tree
