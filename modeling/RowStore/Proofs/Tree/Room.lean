/-
  RowStore/Proofs/Tree/Room.lean
  ==============================
  **Room for a split.**  `countSplits` climbs from a full leaf and counts the pages that
  the cascade will take.  It comes to the same number as the cascade, which climbs
  later and by another way: `Trail.cost`.
-/
import RowStore.Proofs.Tree.Cascade

namespace RowStore.Tree

variable {H h : Nat}

/-- The count climbs over full branches, by their parent fields. -/
theorem reads_countSplits {z : Trail H h} {id q : PageId} {hole : PageId × UInt32} {K : Heap}
    {nodes : Nat} (needed : Nat) (hz : z.Formed) (hroot : Reads (isRoot id) K (.ok z.isTop))
    (hparent : Reads (parentOf id) K (.ok (z.parent q))) (hsub : z.heap q hole ⊆ K)
    (hnodes : H < nodes + h) :
    Reads (countSplits nodes needed id) K (.ok (needed + z.cost)) := by
  induction z generalizing id hole nodes needed with
  | top =>
    obtain ⟨nodes, rfl⟩ := Nat.exists_eq_add_one_of_ne_zero (show nodes ≠ 0 by omega)
    rw [countSplits]
    exact Reads.bind hroot (Reads.pure _)
  | @down h parent left right up ih =>
    have hle := up.le
    obtain ⟨nodes, rfl⟩ := Nat.exists_eq_add_one_of_ne_zero (show nodes ≠ 0 by omega)
    have hmem : (parent, _) ∈ K := hsub List.mem_cons_self
    have hup : up.heap q (parent, _) ⊆ K :=
      List.Subset.trans (List.subset_append_right _ _) hsub
    replace hparent : Reads (parentOf id) K (.ok parent) := hparent
    rw [countSplits]
    refine Reads.bind hroot ?_
    refine Reads.bind hparent ?_
    refine Reads.sees_bind (sees_branch hmem) ?_
    rintro _ ⟨page, rfl, hnode, -⟩
    have hcount : Branch.count { id := parent, page } = left.length + right.length := by
      rw [hnode.count_eq, Links.length_keys]
      simp
    rw [hcount, Trail.cost]
    by_cases hroom : left.length + right.length < Branch.maxKeys
    · rw [if_pos hroom, if_pos hroom]
      exact Reads.pure _
    · rw [if_neg hroom, if_neg hroom, ← Nat.add_assoc]
      exact ih (needed + 1) hz.2.2 (reads_isRoot_branch hmem) (reads_parentOf hmem) hup
        (by omega)

section EnsureRoom

variable {id : PageId} {K : Heap} {needed n : Nat}

theorem takes_ensureRoom (hcount : Reads (countSplits maxPages 1 id) K (.ok needed))
    (hroom : n + needed ≤ maxPages) : Takes (ensureRoom id) n K (.ok ()) n K := by
  refine Takes.reads_bind hcount (Takes.get_bind fun pager hpager => ?_)
  rw [Pager.freePages, hpager, if_neg (by omega)]
  exact Takes.pure ()

theorem ensureRoom_refused {v : View} (hgives : Gives v.Shown K)
    (hcount : Reads (countSplits maxPages 1 id) K (.ok needed))
    (hfull : maxPages - v.numPages < needed) :
    Leads Pager.view (ensureRoom id) v (.error (.error .tableFull)) v := by
  refine (hcount.leads hgives).bind (Leads.get_bind fun pager hpager => ?_)
  have hpages : pager.numPages = v.numPages := congrArg View.numPages hpager
  rw [Pager.freePages, hpages, if_pos hfull]
  exact Leads.refuse _

end EnsureRoom

end RowStore.Tree
