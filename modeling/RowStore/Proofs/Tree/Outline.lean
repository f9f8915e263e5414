/-
  RowStore/Proofs/Tree/Outline.lean
  =================================
  **Outlines of formed trees.**  The outline of a formed tree can always be made, and it is
  a function of the tree: the lines of the children one after the other, with the greatest
  key of each child but the last behind its lines.
-/
import RowStore.Proofs.Tree.Search
import RowStore.Tree.Outline

namespace RowStore

variable {h : Nat}

namespace Subtree

/-- The lines of a tree that stands on level `level`. -/
def outline (level : Nat) : {h : Nat} → Subtree h → List OutlineLine
  | 0, t => .leaf level t.entries.length :: (t.entries.map Entry.key).map (.cell level)
  | _ + 1, t =>
    .branch level (t.children.length - 1) ::
      t.children.dropLast.flatMap (fun child =>
        outline (level + 1) child ++ [.separator level child.greatest]) ++
      (t.children.getLast?.map (outline (level + 1))).getD []

theorem outline_leaf (level : Nat) (id : PageId) (next : Option PageId) (entries : List Entry) :
    (leaf id next entries).outline level =
      .leaf level entries.length :: (entries.map Entry.key).map (.cell level) := rfl

theorem outline_branch_concat (level : Nat) (id : PageId) (front : List (Subtree h))
    (last : Subtree h) : (branch id (front ++ [last])).outline level =
      .branch level front.length :: (front.flatMap fun child =>
        child.outline (level + 1) ++ [.separator level child.greatest]) ++
          last.outline (level + 1) := by
  simp [outline, branch]

end Subtree

namespace Tree

variable {K : Heap} {level : Nat}

theorem reads_outlineCells {below : PageId → PagerM (List OutlineLine)} {front : List (Subtree h)}
    (hbelow : ∀ child ∈ front, Reads (below child.id) K (.ok (child.outline (level + 1)))) :
    Reads (outlineCells below level (front.map Subtree.link)) K
      (.ok (front.flatMap fun child =>
        child.outline (level + 1) ++ [.separator level child.greatest])) := by
  induction front with
  | nil => exact Reads.pure []
  | cons child rest ih =>
    have hrest := ih fun c hc => hbelow c (List.mem_cons_of_mem _ hc)
    rw [List.map_cons, Subtree.link_eq, outlineCells, List.flatMap_cons, List.append_assoc]
    refine Reads.bind (hbelow child List.mem_cons_self) ?_
    refine Reads.bind hrest ?_
    exact Reads.pure _

/-- The outline of a formed tree, read through the pager. -/
theorem reads_outlineBelow {t : Subtree h} {b : Bool} (hf : t.Formed b) (isRoot : Bool)
    (parent : PageId) {levels : Nat} (hlevels : h < levels) (level : Nat) :
    Reads (outlineBelow levels level t.id) (t.heap isRoot parent) (.ok (t.outline level)) := by
  induction h, t using Subtree.ind generalizing b isRoot parent levels level with
  | leaf id next entries =>
    obtain ⟨levels, rfl⟩ := Nat.exists_eq_add_one_of_ne_zero (Nat.ne_zero_of_lt hlevels)
    refine Reads.sees_bind (sees_node_leaf List.mem_cons_self) ?_
    rintro _ ⟨page, rfl, hnode, -⟩
    have hcount : Leaf.count { id, page } = entries.length := hnode.count_eq
    refine Reads.lift_bind hnode.keys_eq ?_
    simp only [Subtree.id_leaf]
    rw [hcount, Subtree.outline_leaf]
    exact Reads.pure _
  | branch h id children ih =>
    obtain ⟨levels, rfl⟩ := Nat.exists_eq_add_one_of_ne_zero (Nat.ne_zero_of_lt hlevels)
    obtain ⟨hlen, -, hchildren⟩ := (Subtree.formed_branch ..).mp hf
    have hne : children ≠ [] := List.ne_nil_of_length_pos hlen
    have hbelow : ∀ child ∈ children, Reads (outlineBelow levels (level + 1) child.id)
        ((Subtree.branch id children).heap isRoot parent) (.ok (child.outline (level + 1))) := by
      intro child hchild
      exact (ih child hchild (hchildren child hchild) false id (by omega) (level + 1)).mono
        (Subtree.heap_subset_of_mem hchild id parent isRoot)
    refine Reads.of_index_lt fun hlt => ?_
    refine Reads.sees_bind (sees_node_branch (Subtree.mem_heap_branch hne id parent isRoot)) ?_
    rintro _ ⟨page, rfl, hnode, -⟩
    have hvalid : ∀ c ∈ children.map Subtree.id, c.isValid = true := by
      intro c hc
      obtain ⟨child, hchild, rfl⟩ := List.mem_map.mp hc
      exact child.isValid_id (Subtree.heap_subset_of_mem hchild id parent isRoot) hlt
    have hcount : Branch.count { id, page } = children.length - 1 := by
      rw [hnode.count_eq, List.length_dropLast, List.length_map]
    refine Reads.lift_bind (hnode.children_eq hvalid) ?_
    refine Reads.lift_bind hnode.keys_eq ?_
    simp only [Subtree.id_branch]
    rw [hcount]
    -- All children but the last come with a separator.
    obtain ⟨front, last, rfl⟩ := (List.eq_nil_or_concat' children).resolve_left hne
    have hcells : ((front ++ [last]).map Subtree.id).zip
        ((front ++ [last]).map Subtree.greatest).dropLast = front.map Subtree.link := by
      rw [List.map_append, List.map_append, List.map_singleton, List.map_singleton,
        List.dropLast_concat, ← List.append_nil (front.map Subtree.greatest),
        List.zip_append (by simp), List.zip_nil_right, List.append_nil, List.zip_map']
      rfl
    have hlast : ((front ++ [last]).map Subtree.id).getLast? = some last.id := by simp
    rw [hcells, hlast, Subtree.outline_branch_concat, List.length_append, List.length_singleton,
      Nat.add_sub_cancel]
    refine Reads.bind (reads_outlineCells fun child hchild =>
      hbelow child (List.mem_append_left _ hchild)) ?_
    refine Reads.bind (hbelow last (by simp)) ?_
    exact Reads.pure _

variable {H : Nat} {t : Subtree H}

theorem reads_outline (hs : t.Sound) (hH : H < maxPages) (q : PageId) :
    Reads outline (t.heap true q) (.ok (t.outline 0)) := by
  have h := reads_outlineBelow hs.formed true q (Nat.lt_succ_of_lt hH) 0
  rwa [hs.root] at h

theorem reads_outlineText (hs : t.Sound) (hH : H < maxPages) (q : PageId) :
    Reads outlineText (t.heap true q)
      (.ok (String.join ((t.outline 0).map fun line => line.text ++ "\n"))) :=
  Reads.bind (reads_outline hs hH q) (Reads.pure _)

end Tree
end RowStore
