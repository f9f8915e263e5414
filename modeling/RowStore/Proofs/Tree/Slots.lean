/-
  RowStore/Proofs/Tree/Slots.lean
  ===============================
  **What hangs where.**  The branches of a tree have their children in slots.  In a formed
  tree every page but the top hangs from a slot, and every slot leads to a page that names
  the page of the slot as its parent.  One comes to all pages of a tree from its top, and
  to no others.
-/
import RowStore.Proofs.Tree.Shape

namespace RowStore

/-- The pages of a heap say what they should. -/
def View.Spells (v : View) (H : Heap) : Prop := ∀ x ∈ H, reading (v.page x.1) = x.2

theorem View.Shows.spells {v : View} {H : Heap} (h : v.Shows H) : v.Spells H :=
  fun x hx => (h x hx).2

theorem View.Spells.mono {v : View} {H K : Heap} (h : v.Spells K) (hsub : H ⊆ K) : v.Spells H :=
  fun x hx => h x (hsub hx)

namespace Tree

variable {H h : Nat} {v : View}

/-! ## Slots -/

/-- The branch on page `parent` has the child `id` in its slot `slot`.  The right child has
    the last slot. -/
def PointsTo (v : View) (parent : PageId) (slot : Nat) (id : PageId) : Prop :=
  ∃ isRoot keys children, Branch.Says (v.page parent) isRoot keys children ∧
    children[slot]? = some id

/-- A page that one comes to by going down from page 0. -/
inductive Reachable (v : View) : PageId → Prop where
  | root : Reachable v PageId.root
  | child {parent id : PageId} {slot : Nat} (h : Reachable v parent)
    (hslot : PointsTo v parent slot id) : Reachable v id

theorem says_branch {id parent : PageId} {isRoot : Bool} {children : List (Subtree h)}
    (hne : children ≠ [])
    (hspells : v.Spells ((Subtree.branch id children).heap isRoot parent)) :
    Branch.Says (v.page id) isRoot (children.map Subtree.greatest).dropLast
      (children.map Subtree.id) :=
  (reading_eq_branch_iff.mp (hspells _ (Subtree.mem_heap_branch hne id parent isRoot))).1

theorem pointsTo_branch {id parent : PageId} {isRoot : Bool} {children : List (Subtree h)}
    (hne : children ≠ []) (hspells : v.Spells ((Subtree.branch id children).heap isRoot parent))
    {slot : Nat} {c : PageId} :
    PointsTo v id slot c ↔ ∃ child, children[slot]? = some child ∧ child.id = c := by
  have hnode := says_branch hne hspells
  constructor
  · rintro ⟨b, keys, cs, hcs, hslot⟩
    obtain ⟨-, -, rfl⟩ := hcs.unique hnode
    rwa [List.getElem?_map, Option.map_eq_some_iff] at hslot
  · rintro ⟨child, hchild, rfl⟩
    exact ⟨isRoot, _, _, hnode, by rw [List.getElem?_map, hchild]; rfl⟩

/-- No slot is on the page of a leaf. -/
theorem not_pointsTo_leaf {id parent : PageId} {isRoot : Bool} {next : Option PageId}
    {entries : List Entry} (hspells : v.Spells ((Subtree.leaf id next entries).heap isRoot parent))
    (slot : Nat) (c : PageId) : ¬PointsTo v id slot c := by
  rintro ⟨b, keys, cs, hcs, -⟩
  have hnode : Leaf.Says (v.page id) isRoot next entries :=
    (reading_eq_leaf_iff.mp (hspells _ List.mem_cons_self)).1
  exact hnode.not_branch hcs

theorem ne_nil_of_formed {id : PageId} {children : List (Subtree h)} {isRoot : Bool}
    (hf : (Subtree.branch id children).Formed isRoot) : children ≠ [] :=
  List.ne_nil_of_length_pos ((Subtree.formed_branch ..).mp hf).1

/-- A slot leads to a page below that names the page of the slot as its parent. -/
theorem pointsTo_below {t : Subtree h} {isRoot : Bool} {parent : PageId} (hf : t.Formed isRoot)
    (hspells : v.Spells (t.heap isRoot parent)) {x : PageId × Reading}
    (hx : x ∈ t.heap isRoot parent) {slot : Nat} {c : PageId} (hslot : PointsTo v x.1 slot c) :
    ∃ y ∈ t.below, y.1 = c ∧ y.2.parent = x.1 := by
  induction h, t using Subtree.ind generalizing isRoot parent with
  | leaf id next entries =>
    obtain rfl : x = _ := List.mem_singleton.mp hx
    exact absurd hslot (not_pointsTo_leaf hspells slot c)
  | branch h id children ih =>
    have hchildren := ((Subtree.formed_branch ..).mp hf).2.2
    rcases List.mem_cons.mp hx with rfl | hx
    · obtain ⟨child, hchild, rfl⟩ := (pointsTo_branch (ne_nil_of_formed hf) hspells).mp hslot
      have hmem : child ∈ children := List.mem_of_getElem? hchild
      refine ⟨(child.id, ⟨some (child.body false), id⟩),
        List.mem_flatMap.mpr ⟨child, hmem, ?_⟩, rfl, rfl⟩
      rw [Subtree.id_branch, Subtree.heap_eq_cons]
      exact List.mem_cons_self
    · obtain ⟨child, hmem, hx⟩ := List.mem_flatMap.mp hx
      obtain ⟨y, hy, hid, hparent⟩ := ih child hmem (hchildren child hmem)
        (hspells.mono (Subtree.heap_subset_of_mem hmem id parent isRoot)) hx
      refine ⟨y, List.mem_flatMap.mpr ⟨child, hmem, ?_⟩, hid, hparent⟩
      rw [Subtree.heap_eq_cons]
      exact List.mem_cons_of_mem _ hy

/-- Each page below the top of a tree hangs from a slot in the tree. -/
theorem exists_pointsTo {t : Subtree h} {isRoot : Bool} {parent : PageId} (hf : t.Formed isRoot)
    (hspells : v.Spells (t.heap isRoot parent)) {y : PageId × Reading} (hy : y ∈ t.below) :
    ∃ x ∈ t.heap isRoot parent, ∃ slot, PointsTo v x.1 slot y.1 := by
  induction h, t using Subtree.ind generalizing isRoot parent with
  | leaf id next entries => cases hy
  | branch h id children ih =>
    obtain ⟨child, hmem, hy⟩ := List.mem_flatMap.mp hy
    have hsub := Subtree.heap_subset_of_mem hmem id parent isRoot
    rw [Subtree.id_branch, Subtree.heap_eq_cons] at hy
    rcases List.mem_cons.mp hy with rfl | hy
    · obtain ⟨slot, hslot⟩ := List.mem_iff_getElem?.mp hmem
      exact ⟨_, List.mem_cons_self, slot,
        (pointsTo_branch (ne_nil_of_formed hf) hspells).mpr ⟨child, hslot, rfl⟩⟩
    · obtain ⟨x, hx, hslot⟩ := ih child hmem
        (((Subtree.formed_branch ..).mp hf).2.2 child hmem) (hspells.mono hsub) hy
      exact ⟨x, hsub hx, hslot⟩

/-- The pages of the children are among those below a branch. -/
theorem ids_sublist (id : PageId) (children : List (Subtree h)) :
    (children.map Subtree.id).Sublist
      ((children.flatMap (Subtree.heap false id)).map Prod.fst) := by
  induction children with
  | nil => exact .slnil
  | cons child children ih =>
    rw [List.map_cons, List.flatMap_cons, Subtree.heap_eq_cons, List.cons_append, List.map_cons,
      List.map_append]
    exact (ih.trans (List.sublist_append_right _ _)).cons_cons _

/-- Where no page stands twice, no branch has a child twice. -/
theorem slot_unique {t : Subtree h} {isRoot : Bool} {parent : PageId} (hf : t.Formed isRoot)
    (hspells : v.Spells (t.heap isRoot parent))
    (hdistinct : ((t.heap isRoot parent).map Prod.fst).Nodup) {x : PageId × Reading}
    (hx : x ∈ t.heap isRoot parent) {i j : Nat} {c : PageId} (hi : PointsTo v x.1 i c)
    (hj : PointsTo v x.1 j c) : i = j := by
  induction h, t using Subtree.ind generalizing isRoot parent with
  | leaf id next entries =>
    obtain rfl : x = _ := List.mem_singleton.mp hx
    exact absurd hi (not_pointsTo_leaf hspells i c)
  | branch h id children ih =>
    have hne := ne_nil_of_formed hf
    have hbelow := (List.nodup_cons.mp hdistinct).2
    rcases List.mem_cons.mp hx with rfl | hx
    · obtain ⟨a, ha, rfl⟩ := (pointsTo_branch hne hspells).mp hi
      obtain ⟨b, hb, hab⟩ := (pointsTo_branch hne hspells).mp hj
      have hlt : i < (children.map Subtree.id).length := by
        rw [List.length_map]
        exact (List.getElem?_eq_some_iff.mp ha).1
      refine (List.getElem?_inj hlt (hbelow.sublist (ids_sublist id children))).mp ?_
      rw [List.getElem?_map, List.getElem?_map, ha, hb, Option.map_some, Option.map_some, hab]
    · obtain ⟨child, hmem, hx⟩ := List.mem_flatMap.mp hx
      rw [List.map_flatMap] at hbelow
      exact ih child hmem (((Subtree.formed_branch ..).mp hf).2.2 child hmem)
        (hspells.mono (Subtree.heap_subset_of_mem hmem id parent isRoot))
        ((List.nodup_flatMap.mp hbelow).1 child hmem) hx

/-! ## Reachable pages -/

/-- One comes to every page of a tree from its top. -/
theorem reachable_of_mem {t : Subtree h} {isRoot : Bool} {parent : PageId} (hf : t.Formed isRoot)
    (hspells : v.Spells (t.heap isRoot parent)) (htop : Reachable v t.id) {x : PageId × Reading}
    (hx : x ∈ t.heap isRoot parent) : Reachable v x.1 := by
  induction h, t using Subtree.ind generalizing isRoot parent with
  | leaf id next entries =>
    obtain rfl : x = _ := List.mem_singleton.mp hx
    exact htop
  | branch h id children ih =>
    rcases List.mem_cons.mp hx with rfl | hx
    · exact htop
    · obtain ⟨child, hmem, hx⟩ := List.mem_flatMap.mp hx
      obtain ⟨slot, hslot⟩ := List.mem_iff_getElem?.mp hmem
      exact ih child hmem (((Subtree.formed_branch ..).mp hf).2.2 child hmem)
        (hspells.mono (Subtree.heap_subset_of_mem hmem id parent isRoot))
        (htop.child ((pointsTo_branch (ne_nil_of_formed hf) hspells).mpr ⟨child, hslot, rfl⟩)) hx

theorem mem_of_reachable {t : Subtree H} {q : PageId} (hs : t.Sound)
    (hspells : v.Spells (t.heap true q)) {id : PageId} (hid : Reachable v id) :
    ∃ x ∈ t.heap true q, x.1 = id := by
  induction hid with
  | root =>
    obtain ⟨x, hx⟩ := t.exists_mem_heap true q
    exact ⟨_, hx, hs.root⟩
  | child _ hslot ih =>
    obtain ⟨x, hx, rfl⟩ := ih
    obtain ⟨y, hy, hid, -⟩ := pointsTo_below hs.formed hspells hx hslot
    rw [Subtree.heap_eq_cons]
    exact ⟨y, List.mem_cons_of_mem _ hy, hid⟩

end Tree
end RowStore
