/-
  RowStore/Proofs/Tree/Guarantee.lean
  ===================================
  **How many keys a tree is sure to take.**  Every branch has two children at least, and
  one that a cascade of splits runs through has four.  So more than half of the pages of a
  tree are leaves, and there are more of them still if it has no room for one more cascade.
  All of them are half full, and one is full.
-/
import Mathlib.Data.Set.Card
import RowStore.Proofs.Tree.Milestones
import RowStore.Proofs.Tree.Occupancy

namespace RowStore

variable {H h : Nat}

/-! ## Leaves among the pages -/

namespace Subtree

theorem sum_size_le {children : List (Subtree h)}
    (hf : ∀ child ∈ children, child.size < 2 * child.leaves.length) :
    (children.map size).sum + children.length ≤ 2 * (children.flatMap leaves).length := by
  induction children with
  | nil => exact Nat.le_refl 0
  | cons child children ih =>
    have hchild := hf child List.mem_cons_self
    have hrest := ih fun c hc => hf c (List.mem_cons_of_mem _ hc)
    simp only [List.map_cons, List.sum_cons, List.length_cons, List.flatMap_cons,
      List.length_append]
    omega

/-- More than half of the pages are leaves. -/
theorem size_lt_leaves {t : Subtree h} {isRoot : Bool} (hf : t.Filled isRoot) :
    t.size < 2 * t.leaves.length := by
  induction h, t using ind generalizing isRoot with
  | leaf id next entries => exact Nat.lt_succ_self 1
  | branch h id children ih =>
    obtain ⟨htwo, hchildren⟩ := (filled_branch ..).mp hf
    have hsum := sum_size_le fun child hchild => ih child hchild (hchildren child hchild)
    rw [size_branch, leaves_branch]
    omega

theorem lowerHalf_le_of_mem_leaves {t : Subtree h} (hf : t.Filled false) {leaf : LeafNode}
    (hleaf : leaf ∈ t.leaves) : Leaf.lowerHalf ≤ leaf.entries.length := by
  induction h, t using ind with
  | leaf id next entries =>
    obtain rfl := List.mem_singleton.mp hleaf
    exact hf rfl
  | branch h id children ih =>
    obtain ⟨child, hchild, hmem⟩ := List.mem_flatMap.mp hleaf
    exact ih child hchild (hf.2 child hchild) hmem

end Subtree

namespace Trail

/-- The leaves around the place. -/
def around (z : Trail H h) : Leaves := z.before ++ z.after

theorem length_around_down (id : PageId) (left right : List (Subtree h)) (up : Trail H (h + 1)) :
    (down id left right up).around.length =
      ((left ++ right).flatMap Subtree.leaves).length + up.around.length := by
  simp only [around, before, after, List.length_append, List.flatMap_append]
  omega

theorem lowerHalf_le_of_mem_around {z : Trail H h} (hz : z.Filled) {leaf : LeafNode}
    (hleaf : leaf ∈ z.around) : Leaf.lowerHalf ≤ leaf.entries.length := by
  induction z with
  | top => cases hleaf
  | down id left right up ih =>
    have hcases : leaf ∈ (left ++ right).flatMap Subtree.leaves ∨ leaf ∈ up.around := by
      simp only [around, before, after, List.mem_append, List.flatMap_append] at hleaf ⊢
      tauto
    rcases hcases with hmem | hmem
    · obtain ⟨t, ht, hmem⟩ := List.mem_flatMap.mp hmem
      exact Subtree.lowerHalf_le_of_mem_leaves (hz.2.1 t ht) hmem
    · exact ih hz.2.2 hmem

/-- The trees beside a place have more leaves than other pages. -/
theorem sum_size_beside {id : PageId} {left right : List (Subtree h)} {up : Trail H (h + 1)}
    (hz : (down id left right up).Filled) : ((left ++ right).map Subtree.size).sum +
      (left.length + right.length) ≤ 2 * ((left ++ right).flatMap Subtree.leaves).length := by
  rw [← List.length_append]
  exact Subtree.sum_size_le fun t ht => Subtree.size_lt_leaves (hz.2.1 t ht)

theorem size_le_around {z : Trail H h} (hz : z.Filled) : z.size ≤ 2 * z.around.length := by
  induction z with
  | top => exact Nat.le_refl 0
  | down id left right up ih =>
    have hsum := sum_size_beside hz
    have hone := hz.1
    have hup := ih hz.2.2
    rw [size, length_around_down]
    omega

/-- A branch that a cascade runs through has so many leaves beside the place that they make
    up for the page that its split takes. -/
theorem size_add_cost_le {z : Trail H h} (hz : z.Filled) :
    z.size + z.cost ≤ 2 * z.around.length + if z.isTop then 1 else 0 := by
  induction z with
  | top => exact Nat.le_refl 1
  | down id left right up ih =>
    have hsum := sum_size_beside hz
    rw [size, cost, length_around_down, isTop]
    by_cases hroom : left.length + right.length < Branch.maxKeys
    · have hone := hz.1
      have hup := size_le_around hz.2.2
      rw [if_pos hroom]
      omega
    · have hthree : 3 ≤ left.length + right.length := Nat.not_lt.mp hroom
      have hup := ih hz.2.2
      rw [if_neg hroom]
      split at hup <;> omega

end Trail

/-! ## Keys in the leaves -/

theorem Leaves.le_length_entries {leaves : Leaves} {n : Nat}
    (h : ∀ leaf ∈ leaves, n ≤ leaf.entries.length) :
    leaves.length * n ≤ leaves.entries.length := by
  induction leaves with
  | nil => exact Nat.le_of_eq (Nat.zero_mul n)
  | cons first rest ih =>
    have hfirst := h first List.mem_cons_self
    have hrest := ih fun leaf hleaf => h leaf (List.mem_cons_of_mem _ hleaf)
    rw [entries_cons, List.length_append, List.length_cons, Nat.succ_mul]
    omega

namespace Tree

/-- A tree that has no room for one more key has many. -/
theorem lt_length_entries_of_full {place : Trail H 0} {id : PageId} {next : Option PageId}
    {a b : List Entry} (hf : (place.fill (.leaf id next (a ++ b))).Filled true)
    (hle : (place.fill (.leaf id next (a ++ b))).size ≤ maxPages)
    (hfull : maxPages <
      (place.fill (.leaf id next (a ++ b))).size + place.needed (a ++ b).length) :
    362 < (place.before.entries ++ (a ++ b) ++ place.after.entries).length := by
  have hplace := (Trail.filled_fill.mp hf).2
  have hcost := Trail.size_add_cost_le hplace
  have haround : place.around.length * 7 ≤ place.around.entries.length :=
    Leaves.le_length_entries fun _ => Trail.lowerHalf_le_of_mem_around hplace
  have hentries : place.around.entries.length =
      place.before.entries.length + place.after.entries.length := by
    rw [Trail.around, Leaves.entries_append, List.length_append]
  have hmax : maxPages = 100 := rfl
  have hcells : Leaf.maxCells = 13 := rfl
  rw [Trail.size_fill, Subtree.size_leaf] at hle hfull
  rw [Trail.needed] at hfull
  rw [List.length_append, List.length_append]
  by_cases hroom : (a ++ b).length < Leaf.maxCells
  · rw [if_pos hroom] at hfull
    omega
  · rw [if_neg hroom] at hfull
    cases place with
    | top =>
      replace hfull : maxPages < 0 + 1 + (1 + 1) := hfull
      omega
    | down above left right up =>
      replace hcost : _ ≤ 2 * _ + 0 := hcost
      omega

/-- As long as a session has put in fewer than 363 keys, another one is taken in. -/
theorem session_takes_next_key {pager : Pager} {M : Contents} (h : Reached pager M)
    (hfew : {key | M key ≠ none}.ncard ≤ 362) {key : UInt32} {value : List UInt8}
    (hkey : M key = none) (hvalue : value.length = Leaf.valueSize) :
    ∃ after, (insert key value).run pager = .ok () after := by
  obtain ⟨H, t, q, hstores, hcontents, hsize, hfilled⟩ := h.exists_filled
  obtain ⟨r, after, hrun, -, hinserted⟩ := exists_insert hstores key value
  have hkeys : {key | M key ≠ none} = (t.keys.toFinset : Set UInt32) := by
    ext k
    simp only [Set.mem_ofPred_eq, hcontents, ne_eq, lookup_eq_none_iff, not_not, List.coe_toFinset]
    rfl
  have hcount : t.leaves.entries.length ≤ 362 := by
    rw [hkeys, Set.ncard_coe_finset, List.toFinset_card_of_nodup
      (hstores.sound.ascending.imp UInt32.ne_of_lt), Subtree.keys, Leaves.keys,
      List.length_map] at hfew
    exact hfew
  rw [hcontents] at hkey
  cases hinserted with
  | duplicate hpresent =>
    rw [hkey] at hpresent
    cases hpresent
  | mismatch _ hlength => exact absurd hvalue hlength
  | full _ _ hplace hfull =>
    have hle := hstores.holds.le_maxPages
    rw [← hsize] at hle hfull
    rw [hplace.entries_eq] at hcount
    rw [← hplace.fill_eq] at hfilled hle hfull
    exact absurd hcount (Nat.not_le.mpr (lt_length_entries_of_full hfilled hle hfull))
  | taken => exact ⟨after, hrun⟩

theorem session_takes_next_key_fourteen : ∃ full split after : Pager, FirstSplit full split ∧
    (insert 14 (sample 14).value).run split = .ok () after := by
  obtain ⟨full, split, h⟩ := exists_firstSplit
  have hsub : {key | lookup (samples 14) key ≠ none} ⊆
      (((samples 14).map Entry.key).toFinset : Set UInt32) := by
    intro key hkey
    rw [List.coe_toFinset]
    by_contra hnot
    exact hkey (lookup_eq_none_iff.mpr hnot)
  have hfew := Set.ncard_le_ncard hsub (Finset.finite_toSet _)
  rw [Set.ncard_coe_finset] at hfew
  have hcard : (((samples 14).map Entry.key).toFinset).card ≤ 362 :=
    Nat.le_trans (List.toFinset_card_le _) (by decide)
  obtain ⟨after, hrun⟩ := session_takes_next_key h.reached_split (Nat.le_trans hfew hcard)
    (show lookup (samples 14) 14 = none from rfl) (length_sample 14)
  exact ⟨full, split, after, h, hrun⟩

end Tree
end RowStore
