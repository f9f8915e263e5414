/-
  RowStore/Proofs/Node/Halving.lean
  =================================
  **Where the searches of a node look, and where they end.**  A search halves a range of
  cells until nothing is left of it, or until it stands on the key.  `Halving` is its course:
  the cells that it looks at one after the other, and the place that it ends at.  A course
  is finite and no step of it is cut short, so that to have one is more than to have an answer:
  the number of steps that `bisect` allows plays no part in it.

  On every page that is accepted as a node both searches have a course.  It stays below the
  count, in whatever order the keys stand there.  Where they are sorted, the two searches end
  alike, although only the one in a leaf stops at an equal key: the place is the number of
  smaller keys.
-/
import RowStore.Proofs.Node.Writing

namespace RowStore

variable {ε : Type}

/-! ## Ranks in sorted keys -/

theorem rank_cons (key k : UInt32) (keys : List UInt32) :
    rank key (k :: keys) = if key ≤ k then 0 else rank key keys + 1 := by
  rw [rank, List.findIdx_cons]
  by_cases h : key ≤ k
  · rw [decide_eq_true h, cond_true, if_pos h]
  · rw [decide_eq_false h, cond_false, if_neg h, rank]

/-- Among sorted keys, those in front of a place are those that are smaller. -/
theorem rank_eq_countP {keys : List UInt32} (hkeys : keys.Pairwise (· ≤ ·)) (key : UInt32) :
    rank key keys = keys.countP (· < key) := by
  induction keys with
  | nil => rfl
  | cons k keys ih =>
    obtain ⟨hfirst, hrest⟩ := List.pairwise_cons.mp hkeys
    rw [rank_cons]
    split
    · rename_i hle
      refine (List.countP_eq_zero.mpr fun other hother => ?_).symm
      rw [decide_eq_true_eq, UInt32.not_lt]
      rcases List.mem_cons.mp hother with rfl | hother
      · exact hle
      · exact UInt32.le_trans hle (hfirst other hother)
    · rename_i hlt
      have hkey : decide (k < key) = true := decide_eq_true (UInt32.not_le.mp hlt)
      rw [ih hrest, List.countP_cons, if_pos hkey]

/-! ## The course of a search -/

/-- From the range `[lo, hi)` a search looks at the positions `looked` in turn, and ends at
    `place`. -/
inductive Halving (probe : Nat → Except ε Ordering) :
    (lo hi : Nat) → (looked : List Nat) → (place : Nat) → Prop where
  | nothing (lo : Nat) : Halving probe lo lo [] lo
  | here {lo hi mid : Nat} (hne : lo ≠ hi) (hmid : (lo + hi) / 2 = mid)
    (hprobe : probe mid = .ok .eq) : Halving probe lo hi [mid] mid
  | lower {lo hi mid place : Nat} {looked : List Nat} (hne : lo ≠ hi) (hmid : (lo + hi) / 2 = mid)
    (hprobe : probe mid = .ok .lt) (hrest : Halving probe lo mid looked place) :
    Halving probe lo hi (mid :: looked) place
  | upper {lo hi mid place : Nat} {looked : List Nat} (hne : lo ≠ hi) (hmid : (lo + hi) / 2 = mid)
    (hprobe : probe mid = .ok .gt) (hrest : Halving probe (mid + 1) hi looked place) :
    Halving probe lo hi (mid :: looked) place

/-- A search looks at nothing outside its range, and ends in it or right behind it. -/
theorem Halving.within {probe : Nat → Except ε Ordering} {lo hi place : Nat} {looked : List Nat}
    (h : Halving probe lo hi looked place) (hlo : lo ≤ hi) :
    (∀ i ∈ looked, lo ≤ i ∧ i < hi) ∧ lo ≤ place ∧ place ≤ hi := by
  induction h with
  | nothing lo => exact ⟨nofun, Nat.le_refl lo, Nat.le_refl lo⟩
  | here hne hmid _ =>
    refine ⟨fun i hi' => ?_, by omega, by omega⟩
    obtain rfl := List.mem_singleton.mp hi'
    omega
  | lower hne hmid _ _ ih =>
    obtain ⟨hlooked, hplace⟩ := ih (by omega)
    refine ⟨fun i hi' => ?_, hplace.1, by omega⟩
    rcases List.mem_cons.mp hi' with rfl | hi'
    · omega
    · have := hlooked i hi'
      omega
  | upper hne hmid _ _ ih =>
    obtain ⟨hlooked, hplace⟩ := ih (by omega)
    refine ⟨fun i hi' => ?_, by omega, hplace.2⟩
    rcases List.mem_cons.mp hi' with rfl | hi'
    · omega
    · have := hlooked i hi'
      omega

/-- Where every look succeeds, a search comes to its end before its steps run out. -/
theorem exists_halving {probe : Nat → Except ε Ordering} {steps lo hi : Nat} (hlo : lo ≤ hi)
    (hsteps : hi - lo ≤ steps) (hprobe : ∀ i, lo ≤ i → i < hi → ∃ side, probe i = .ok side) :
    ∃ looked place, Halving probe lo hi looked place ∧
      bisectWithin probe steps lo hi = .ok place := by
  induction steps generalizing lo hi with
  | zero =>
    obtain rfl : lo = hi := by omega
    exact ⟨[], lo, .nothing lo, rfl⟩
  | succ steps ih =>
    by_cases hne : lo = hi
    · subst hne
      exact ⟨[], lo, .nothing lo, by rw [bisectWithin, if_pos rfl]; rfl⟩
    · obtain ⟨mid, hmid⟩ : ∃ mid, (lo + hi) / 2 = mid := ⟨_, rfl⟩
      obtain ⟨side, hside⟩ := hprobe mid (by omega) (by omega)
      rw [bisectWithin, if_neg hne]
      simp only [hmid, hside, bind, Except.bind]
      cases side with
      | eq => exact ⟨[mid], mid, .here hne hmid hside, rfl⟩
      | lt =>
        obtain ⟨looked, place, hrest, hrun⟩ := @ih lo mid (by omega) (by omega)
          fun i hi hlt => hprobe i hi (by omega)
        exact ⟨mid :: looked, place, .lower hne hmid hside hrest, hrun⟩
      | gt =>
        obtain ⟨looked, place, hrest, hrun⟩ := @ih (mid + 1) hi (by omega) (by omega)
          fun i hi hlt => hprobe i (by omega) hlt
        exact ⟨mid :: looked, place, .upper hne hmid hside hrest, hrun⟩

/-! ## Searches in nodes -/

/-- On which side of cell `i` a key belongs, or that it stands right there. -/
def Leaf.side (leaf : Leaf) (key : UInt32) (i : Nat) : Except Failure Ordering := do
  let here ← leaf.key i
  return if key = here then .eq else if key < here then .lt else .gt

/-- On which side of the separator of cell `i` a key belongs; an equal one is on the lower. -/
def Branch.side (branch : Branch) (key : UInt32) (i : Nat) : Except Failure Ordering := do
  let here ← branch.key i
  return if key ≤ here then .lt else .gt

theorem Leaf.Says.exists_side {id : PageId} {page : Page} {isRoot : Bool} {next : Option PageId}
    {entries : List Entry} (h : Says page isRoot next entries) (key : UInt32) {i : Nat}
    (hi : i < entries.length) : ∃ side, Leaf.side { id, page } key i = .ok side := by
  rw [side, h.key_eq hi]
  exact ⟨_, rfl⟩

theorem Branch.Says.exists_side {id : PageId} {page : Page} {isRoot : Bool} {keys : List UInt32}
    {children : List PageId} (h : Says page isRoot keys children) (key : UInt32) {i : Nat}
    (hi : i < keys.length) : ∃ side, Branch.side { id, page } key i = .ok side := by
  rw [side, h.key_eq hi]
  exact ⟨_, rfl⟩

/-- On every page that is accepted as a node, its search for a key comes to an end, has looked
    at none but its cells, and ends at one of them or right behind them.  Where the keys ascend,
    and in a branch also where they only do not descend, it ends behind just the smaller ones. -/
theorem searches_count_smaller (id : PageId) (page : Page) (key : UInt32) :
    (∀ leaf, Leaf.ofPage id page = .ok leaf → ∃ keys looked place,
      leaf.keys = .ok keys ∧ leaf.find key = .ok place ∧
      Halving (leaf.side key) 0 leaf.count looked place ∧
      (∀ i ∈ looked, i < leaf.count) ∧ place ≤ leaf.count ∧
      (keys.Pairwise (· < ·) → place = keys.countP (· < key))) ∧
    (∀ branch, Branch.ofPage id page = .ok branch → ∃ keys looked place,
      branch.keys = .ok keys ∧ branch.findChild key = .ok place ∧
      Halving (branch.side key) 0 branch.count looked place ∧
      (∀ i ∈ looked, i < branch.count) ∧ place ≤ branch.count ∧
      (keys.Pairwise (· ≤ ·) → place = keys.countP (· < key))) := by
  constructor
  · intro leaf hleaf
    obtain ⟨rfl, isRoot, next, entries, hnode⟩ := Leaf.ofPage_ok hleaf
    obtain ⟨looked, place, hcourse, hrun⟩ := exists_halving (Nat.zero_le _) (Nat.le_refl _)
      fun i _ (hi : i < Leaf.count { id, page }) => hnode.exists_side key (hnode.count_eq ▸ hi)
    have hfind : Leaf.find { id, page } key = .ok place := hrun
    obtain ⟨hlooked, -, hplace⟩ := hcourse.within (Nat.zero_le _)
    refine ⟨_, looked, place, hnode.keys_eq, hfind, hcourse, fun i hi => (hlooked i hi).2, hplace,
      fun hkeys => ?_⟩
    rw [← rank_eq_countP (hkeys.imp UInt32.le_of_lt)]
    exact Except.ok.inj (hfind.symm.trans (hnode.find_eq hkeys key))
  · intro branch hbranch
    obtain ⟨rfl, isRoot, keys, children, hnode⟩ := Branch.ofPage_ok hbranch
    obtain ⟨looked, place, hcourse, hrun⟩ := exists_halving (Nat.zero_le _) (Nat.le_refl _)
      fun i _ (hi : i < Branch.count { id, page }) => hnode.exists_side key (hnode.count_eq ▸ hi)
    have hfind : Branch.findChild { id, page } key = .ok place := hrun
    obtain ⟨hlooked, -, hplace⟩ := hcourse.within (Nat.zero_le _)
    refine ⟨_, looked, place, hnode.keys_eq, hfind, hcourse, fun i hi => (hlooked i hi).2, hplace,
      fun hkeys => ?_⟩
    rw [← rank_eq_countP hkeys]
    exact Except.ok.inj (hfind.symm.trans (hnode.findChild_eq_of_le hkeys key))

/-- A leaf with the keys 10, 20 and 30, and a branch with two equal separators. -/
theorem searches_count_smaller_three : ∃ leaf branch : Page,
    (Leaf.keys ⟨PageId.root, leaf⟩ = .ok [10, 20, 30] ∧
      Leaf.find ⟨PageId.root, leaf⟩ 20 = .ok 1) ∧
    Branch.keys ⟨PageId.root, branch⟩ = .ok [10, 10, 30] ∧
      Branch.findChild ⟨PageId.root, branch⟩ 20 = .ok 2 := by
  let entry (key : UInt32) : Entry := ⟨key, List.replicate Leaf.valueSize 0⟩
  have hvalue : ∀ e ∈ [entry 10, entry 20, entry 30], e.value.length = Leaf.valueSize := by
    simp [entry]
  obtain ⟨leaf, hleaf⟩ := Leaf.exists_page true none [entry 10, entry 20, entry 30] PageId.root
    nofun (by decide) hvalue
  obtain ⟨branch, hbranch⟩ := Branch.exists_page false [(⟨1⟩, 10), (⟨2⟩, 10), (⟨3⟩, 30)] ⟨4⟩
    PageId.root (by decide)
  have hleafSays := (reading_eq_leaf_iff.mp hleaf).1
  have hbranchSays := (reading_eq_branch_iff.mp hbranch).1
  obtain ⟨keys, -, place, hkeys, hfind, -, -, -, hplace⟩ :=
    (searches_count_smaller PageId.root leaf 20).1 _ hleafSays.ofPage_eq
  obtain ⟨keys', -, place', hkeys', hfind', -, -, -, hplace'⟩ :=
    (searches_count_smaller PageId.root branch 20).2 _ hbranchSays.ofPage_eq
  obtain rfl : keys = [10, 20, 30] := Except.ok.inj (hkeys.symm.trans hleafSays.keys_eq)
  obtain rfl : keys' = [10, 10, 30] := Except.ok.inj (hkeys'.symm.trans hbranchSays.keys_eq)
  obtain rfl : place = 1 := hplace (by decide)
  obtain rfl : place' = 2 := hplace' (by decide)
  exact ⟨leaf, branch, ⟨hkeys, hfind⟩, hkeys', hfind'⟩

end RowStore
