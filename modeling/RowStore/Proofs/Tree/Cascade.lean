/-
  RowStore/Proofs/Tree/Cascade.lean
  =================================
  **Linking a new sibling upwards.**  Below a place stand two subtrees, `low`, which is
  linked, and `high`, which is not.  `Trail.linked` is the tree that has both: the branch
  above takes `high` in if it has room, or is split and hands its own new sibling up, and
  a root that is split gets a new root above it.  `Trail.cost` counts the pages that this
  takes.  `linkWithin` makes the pages say just this, and stops in time.

  While the cascade climbs, the separators above it are already right for the subtree that
  the cascade will leave behind, whose greatest key is that of `high`.  Only the branch
  right above the place has the greatest key of `low` as its separator there.
-/
import RowStore.Proofs.Tree.Split

namespace RowStore

variable {H h : Nat}

namespace Trail

/-- The pages that a split at the place takes upwards, after the new sibling itself. -/
def cost : {h : Nat} → Trail H h → Nat
  | _, top => 1
  | _, down _ left right up =>
    if left.length + right.length < Branch.maxKeys then 0 else 1 + up.cost

/-- The page of the root, where `id` is the page at the place. -/
def rootId : {h : Nat} → Trail H h → PageId → PageId
  | _, top, id => id
  | _, down id _ _ up, _ => up.rootId id

/-- The tree with `high` linked behind `low`, where `n` is the next page to be taken. -/
def linked (n : Nat) : {h : Nat} → Trail H h → Subtree h → Subtree h → Σ K : Nat, Subtree K
  | _, top, low, high => ⟨H + 1, Subtree.branch PageId.root [low.moved (PageId.ofNat n), high]⟩
  | _, down id left right up, low, high =>
    if left.length + right.length < Branch.maxKeys then
      ⟨H, up.fill (Subtree.branch id (left ++ low :: high :: right))⟩
    else
      up.linked (n + 1)
        (Subtree.branch id ((left ++ low :: high :: right).take (Tree.staying left)))
        (Subtree.branch (PageId.ofNat n)
          ((left ++ low :: high :: right).drop (Tree.staying left)))

variable {n : Nat} {low high : Subtree h}

theorem id_fill (z : Trail H h) (t : Subtree h) : (z.fill t).id = z.rootId t.id := by
  induction z with
  | top => rfl
  | down id left right up ih => exact ih _

theorem id_linked (n : Nat) (z : Trail H h) (low high : Subtree h)
    (hroot : z.rootId low.id = PageId.root) : (z.linked n low high).2.id = PageId.root := by
  induction z generalizing n with
  | top => rfl
  | down id left right up ih =>
    rw [linked]
    by_cases hroom : left.length + right.length < Branch.maxKeys
    · rw [if_pos hroom]
      exact (id_fill _ _).trans hroot
    · rw [if_neg hroom]
      exact ih _ _ _ hroot

/-- Linking puts the leaves of `high` behind those of `low`.  Only a leaf that was the root
    is another one afterwards. -/
theorem leaves_linked (n : Nat) (z : Trail H h) (low high : Subtree h)
    (hmoved : z.isTop = true → ∀ new, (low.moved new).leaves = low.leaves) :
    (z.linked n low high).2.leaves = z.before ++ low.leaves ++ high.leaves ++ z.after := by
  induction z generalizing n with
  | top => simp [linked, before, after, hmoved rfl]
  | down id left right up ih =>
    rw [linked]
    by_cases hroom : left.length + right.length < Branch.maxKeys
    · rw [if_pos hroom]
      simp [leaves_fill, before, after]
    · rw [if_neg hroom, ih _ _ _ fun _ _ => rfl, Subtree.leaves_branch, Subtree.leaves_branch,
        List.append_assoc up.before, ← List.flatMap_append, List.take_append_drop]
      simp [before, after]

theorem leaves_linked_down (n : Nat) (id : PageId) (left right : List (Subtree h))
    (up : Trail H (h + 1)) (low high : Subtree h) :
    ((down id left right up).linked n low high).2.leaves = (down id left right up).before ++
      low.leaves ++ high.leaves ++ (down id left right up).after :=
  leaves_linked n (down id left right up) low high fun htop => (Bool.false_ne_true htop).elim

theorem entries_linked (n : Nat) (z : Trail H h) (low high : Subtree h) :
    (z.linked n low high).2.leaves.entries =
      z.before.entries ++ (low.leaves.entries ++ high.leaves.entries) ++ z.after.entries := by
  cases z with
  | top => simp [linked, before, after]
  | down id left right up =>
    rw [leaves_linked_down]
    simp only [Leaves.entries_append, List.append_assoc]

theorem formed_linked (n : Nat) {z : Trail H h} (hz : z.Formed) (hlow : low.Formed false)
    (hhigh : high.Formed false) : (z.linked n low high).2.Formed true := by
  induction z generalizing n with
  | top =>
    refine (Subtree.formed_branch ..).mpr ⟨Nat.two_pos, show 2 ≤ 4 by decide, fun t ht => ?_⟩
    rcases List.mem_cons.mp ht with rfl | ht
    · exact (Subtree.formed_moved _).mpr hlow
    · rw [List.mem_singleton.mp ht]
      exact hhigh
  | down id left right up ih =>
    obtain ⟨hle, hsiblings, hup⟩ := hz
    have hall : ∀ t ∈ left ++ low :: high :: right, t.Formed false := by
      intro t ht
      simp only [List.mem_append, List.mem_cons] at ht hsiblings
      rcases ht with ht | rfl | rfl | ht
      · exact hsiblings t (.inl ht)
      · exact hlow
      · exact hhigh
      · exact hsiblings t (.inr ht)
    have hlen : (left ++ low :: high :: right).length = left.length + right.length + 2 := by
      simp only [List.length_append, List.length_cons]
      omega
    rw [linked]
    by_cases hroom : left.length + right.length < Branch.maxKeys
    · rw [if_pos hroom, formed_fill]
      exact ⟨(Subtree.formed_branch ..).mpr ⟨by omega, by rw [hlen]; omega, hall⟩, hup⟩
    · rw [if_neg hroom]
      have hfull : (left ++ low :: right).length = Branch.maxKeys + 1 := by
        rw [List.length_append, List.length_cons]
        omega
      exact ih _ hup (Tree.formed_staying hfull hall _ _) (Tree.formed_moving hfull hall _ _)

end Trail

/-! ## The cascade -/

namespace Tree

open Trail (down)

section Step

variable {n : Nat} {id q above : PageId} {left right : List (Subtree h)} {low high : Subtree h}

/-- A branch that has room takes the child in, and nothing above it changes. -/
theorem takes_attach_fill {up : Trail H (h + 1)} {page : Page}
    (hpage : reading page =
      ⟨some (Links.body up.isTop ((left ++ low :: right).map Subtree.link)), up.parent q⟩)
    (hs : Siblings (left ++ low :: high :: right))
    (hlen : left.length + right.length < Branch.maxKeys) (hh : h < maxPages) :
    Takes (attach { id, page } high.id) n
      ((Subtree.branch id (left ++ low :: right)).heap up.isTop (up.parent q) ++
        high.heap false above ++
        up.heap q (id, (Subtree.branch id (left ++ high :: right)).greatest))
      (.ok ()) n ((up.fill (Subtree.branch id (left ++ low :: high :: right))).heap true q) := by
  rw [List.append_cons left low] at hpage hs ⊢
  rw [List.append_cons left low (high :: right)]
  refine (takes_attach hpage hs ?_ hh).among
    (up.heap q (id, (Subtree.branch id (left ++ high :: right)).greatest)) (.refl _) ?_
  · simp only [List.length_append, List.length_singleton]
    omega
  · rw [Subtree.greatest_append_cons id id left (left ++ [low])]
    exact (up.heap_fill q _).symm

/-- A branch without room is split, and its new sibling is left to the branch above. -/
theorem takes_splitBranch_down {gid : PageId} {gl gr : List (Subtree (h + 1))}
    {up : Trail H (h + 2)} (hfull : (left ++ low :: right).length = Branch.maxKeys + 1)
    (hs : Siblings (left ++ low :: high :: right)) (hh : h + 1 < maxPages) (hn : n < maxPages) :
    Takes (splitBranch id high.id) n
      ((Subtree.branch id (left ++ low :: right)).heap false gid ++ high.heap false above ++
        (down gid gl gr up).heap q (id, (Subtree.branch id (left ++ high :: right)).greatest))
      (.ok (some (gid, PageId.ofNat n))) (n + 1)
      ((Subtree.branch gid (gl ++ Subtree.branch id
          ((left ++ low :: high :: right).take (staying left)) :: gr)).heap up.isTop
          (up.parent q) ++
        (Subtree.branch (PageId.ofNat n)
          ((left ++ low :: high :: right).drop (staying left))).heap false gid ++
        up.heap q (gid, (Subtree.branch gid (gl ++ Subtree.branch (PageId.ofNat n)
          ((left ++ low :: high :: right).drop (staying left)) :: gr)).greatest)) := by
  have hgreatest : (Subtree.branch id (left ++ high :: right)).greatest =
      (Subtree.branch (PageId.ofNat n)
        ((left ++ low :: high :: right).drop (staying left))).greatest := by
    have hlt : staying left < (left ++ low :: high :: right).length := by
      rw [length_five hfull]
      exact Nat.lt_of_le_of_lt (staying_le left) (by decide)
    rw [Subtree.greatest_drop _ id hlt, List.append_cons left low,
      Subtree.greatest_append_cons id id left (left ++ [low])]
  refine Takes.of_holds fun hdistinct _ _ => ?_
  have hid : id ∉ (gl.map Subtree.link).map Prod.fst := by
    refine Subtree.notMem_map_link (fun x (hx : x ∈ gl.flatMap (Subtree.heap false gid)) => ?_)
      (List.nodup_cons.mp hdistinct).1
    refine List.mem_append_right _ (List.mem_cons_of_mem _ (List.mem_append_left _ ?_))
    rw [List.flatMap_append]
    exact List.mem_append_left _ hx
  have hsplit : Takes (splitBranch id high.id) n
      ((Subtree.branch id (left ++ low :: right)).heap false gid ++ high.heap false above ++
        [(gid, ⟨some (Links.body up.isTop (gl.map Subtree.link ++
          (id, (Subtree.branch id (left ++ high :: right)).greatest) :: gr.map Subtree.link)),
          up.parent q⟩)]) (.ok (some (gid, PageId.ofNat n))) (n + 1) _ :=
    takes_splitBranch hid hfull hs hh hn
  refine hsplit.among
    ((gl ++ gr).flatMap (Subtree.heap false gid) ++ up.heap q (gid, (Subtree.branch gid
      (gl ++ Subtree.branch (PageId.ofNat n)
        ((left ++ low :: high :: right).drop (staying left)) :: gr)).greatest)) ?_ ?_
  · rw [Trail.heap, hgreatest, Subtree.greatest_branch gid, List.map_append, List.map_cons,
      List.perm_iff_count]
    intro x
    simp only [List.count_append, List.count_cons, List.count_nil]
    omega
  · rw [Subtree.heap_branch gid, List.perm_iff_count]
    intro x
    simp only [List.map_append, List.map_cons, List.flatMap_append, List.flatMap_cons,
      List.count_append, List.count_cons, List.count_nil]
    omega

end Step

section Climb

variable {id new : PageId} {left right : List (Subtree h)} {up : Trail H (h + 1)}
variable {low high : Subtree h}

theorem siblings_link (hz : (down id left right up).Formed) (hlow : low.Formed false)
    (hhigh : high.Formed false)
    (hkeys : ((down id left right up).before.keys ++ low.keys ++ high.keys ++
      (down id left right up).after.keys).Pairwise (· < ·)) :
    Siblings (left ++ low :: high :: right) := by
  have h : Siblings (left ++ [low, high] ++ right) :=
    Trail.siblings hz (by simp [hlow, hhigh]) (by simpa using hkeys)
  simpa using h

/-- A branch with a linked child at the place has a key for each of the others. -/
theorem count_of_reading {page : Page} {isRoot : Bool} {parent : PageId}
    (hpage : reading page =
      ⟨some (Links.body isRoot ((left ++ low :: right).map Subtree.link)), parent⟩) :
    Branch.count { id, page } = left.length + right.length := by
  rw [(reading_eq_branch_iff.mp hpage).1.count_eq, Links.length_keys]
  simp

/-- The halves of a split branch have its keys. -/
theorem keys_halves
    (hkeys : ((down id left right up).before.keys ++ low.keys ++ high.keys ++
      (down id left right up).after.keys).Pairwise (· < ·)) :
    (up.before.keys ++
      (Subtree.branch id ((left ++ low :: high :: right).take (staying left))).keys ++
      (Subtree.branch new ((left ++ low :: high :: right).drop (staying left))).keys ++
      up.after.keys).Pairwise (· < ·) := by
  rw [Trail.keys_before_down, Trail.keys_after_down] at hkeys
  rw [Subtree.keys_branch, Subtree.keys_branch, List.append_assoc (Leaves.keys _),
    ← List.flatMap_append, List.take_append_drop]
  simpa using hkeys

end Climb

theorem takes_linkWithin {branches n : Nat} {id q above : PageId} {left right : List (Subtree h)}
    {up : Trail H (h + 1)} {low high : Subtree h} (hz : (down id left right up).Formed)
    (hlow : low.Formed false) (hhigh : high.Formed false)
    (hkeys : ((down id left right up).before.keys ++ low.keys ++ high.keys ++
      (down id left right up).after.keys).Pairwise (· < ·))
    (hroot : up.rootId id = PageId.root) (hH : H < maxPages)
    (hcost : n + (down id left right up).cost ≤ maxPages) (hbranches : maxPages < n + branches) :
    Takes (linkWithin branches id high.id) n
      ((Subtree.branch id (left ++ low :: right)).heap up.isTop (up.parent q) ++
        high.heap false above ++
        up.heap q (id, (Subtree.branch id (left ++ high :: right)).greatest))
      (.ok ()) (n + (down id left right up).cost)
      (((down id left right up).linked n low high).2.heap true q) := by
  induction branches generalizing h n id above left right up low high with
  | zero => omega
  | succ branches ih =>
    have hs := siblings_link hz hlow hhigh hkeys
    have hlen : left.length + right.length ≤ Branch.maxKeys := hz.1
    have hh : h + 1 < maxPages := Nat.lt_of_le_of_lt up.le hH
    rw [linkWithin]
    refine Takes.sees_bind (sees_branch List.mem_cons_self) ?_
    rintro _ ⟨page, rfl, hnode⟩
    rw [count_of_reading (reading_eq_branch_iff.mpr hnode)]
    by_cases hroom : left.length + right.length < Branch.maxKeys
    · rw [if_pos hroom, Trail.cost, if_pos hroom, Trail.linked, if_pos hroom]
      exact takes_attach_fill (reading_eq_branch_iff.mpr hnode) hs hroom (Nat.lt_of_succ_lt hh)
    · have hfull : (left ++ low :: right).length = Branch.maxKeys + 1 := by
        rw [List.length_append, List.length_cons]
        omega
      rw [Trail.cost, if_neg hroom] at hcost
      rw [if_neg hroom, Trail.cost, if_neg hroom, Trail.linked, if_neg hroom]
      cases up with
      | top =>
        obtain rfl : id = PageId.root := hroot
        rw [Trail.heap, List.append_nil]
        exact Takes.bind (takes_splitBranch_root hfull hs hh hcost) (Takes.pure ())
      | down gid gl gr up =>
        -- The split has taken a page, so that one branch less may be come to from here.
        rw [← Nat.add_assoc] at hcost ⊢
        refine Takes.bind (takes_splitBranch_down hfull hs hh (by omega)) ?_
        exact ih hz.2.2 (formed_staying hfull hs.formed _ _)
          (formed_moving hfull hs.formed _ _) (keys_halves hkeys) hroot hcost (by omega)

end Tree
end RowStore
