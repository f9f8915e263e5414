/-
  RowStore/Proofs/Tree/Occupancy.lean
  ===================================
  **How many pages a tree has, and how full they are.**  A tree that takes an entry grows
  by just the pages that are taken for it: none is lost and none is used twice.  Its leaves
  stay half full and its branches keep two children, the root apart.  So a tree whose
  pages are all in use has many leaves, and these have many entries.
-/
import Mathlib.Algebra.Ring.Nat
import RowStore.Proofs.Tree.Session

namespace RowStore

variable {H h : Nat}

/-! ## Numbers of pages -/

namespace Subtree

/-- The number of pages. -/
def size : {h : Nat} → Subtree h → Nat
  | 0, _ => 1
  | _ + 1, t => 1 + (t.children.map size).sum

@[simp] theorem size_leaf (id : PageId) (next : Option PageId) (entries : List Entry) :
    (leaf id next entries).size = 1 := rfl

@[simp] theorem size_branch (id : PageId) (children : List (Subtree h)) :
    (branch id children).size = 1 + (children.map size).sum := rfl

@[simp] theorem size_moved (t : Subtree h) (id : PageId) : (t.moved id).size = t.size := by
  cases h <;> rfl

theorem length_heap (t : Subtree h) (isRoot : Bool) (parent : PageId) :
    (t.heap isRoot parent).length = t.size := by
  induction h, t using ind generalizing isRoot parent with
  | leaf id next entries => rfl
  | branch h id children ih =>
    have hmap : children.map (fun child => (heap false id child).length) = children.map size :=
      List.map_congr_left fun child hchild => ih child hchild false id
    rw [heap_branch, List.length_cons, List.length_flatMap, hmap, size_branch, Nat.add_comm]

theorem sum_take_drop (k : Nat) (children : List (Subtree h)) :
    ((children.take k).map size).sum + ((children.drop k).map size).sum =
      (children.map size).sum := by
  rw [← List.sum_append, ← List.map_append, List.take_append_drop]

end Subtree

namespace Trail

/-- The number of pages above the place and beside it. -/
def size : {h : Nat} → Trail H h → Nat
  | _, top => 0
  | _, down _ left right up => 1 + ((left ++ right).map Subtree.size).sum + up.size

theorem size_fill (z : Trail H h) (t : Subtree h) : (z.fill t).size = z.size + t.size := by
  induction z with
  | top => exact (Nat.zero_add _).symm
  | down id left right up ih =>
    rw [fill, ih, size, Subtree.size_branch]
    simp only [List.map_append, List.map_cons, List.sum_append, List.sum_cons]
    omega

/-- Linking takes the pages that it costs, and no others. -/
theorem size_linked (n : Nat) (z : Trail H h) (low high : Subtree h) :
    (z.linked n low high).2.size = z.size + low.size + high.size + z.cost := by
  induction z generalizing n with
  | top =>
    simp only [linked, size, cost, Subtree.size_branch, List.map_cons, List.map_nil, List.sum_cons,
      List.sum_nil, Subtree.size_moved]
    omega
  | down id left right up ih =>
    rw [linked, cost]
    by_cases hroom : left.length + right.length < Branch.maxKeys
    · rw [if_pos hroom, if_pos hroom, size_fill]
      simp only [size, Subtree.size_branch, List.map_append, List.map_cons, List.sum_append,
        List.sum_cons]
      omega
    · have hall := Subtree.sum_take_drop (Tree.staying left) (left ++ low :: high :: right)
      rw [if_neg hroom, if_neg hroom, ih, Subtree.size_branch, Subtree.size_branch]
      simp only [size, List.map_append, List.map_cons, List.sum_append, List.sum_cons] at hall ⊢
      omega

theorem size_grown (place : Trail H 0) (n : Nat) (id : PageId) (next : Option PageId)
    (a b : List Entry) (x : Entry) : (place.grown n id next a b x).2.size =
      (place.fill (.leaf id next (a ++ b))).size + place.needed (a ++ b).length := by
  rw [needed, size_fill]
  by_cases hroom : (a ++ b).length < Leaf.maxCells
  · rw [grown_of_room n hroom, if_pos hroom, size_fill]
    rfl
  · rw [grown_of_full n hroom, if_neg hroom, size_linked]
    simp only [Subtree.lowerLeaf, Subtree.upperLeaf, Subtree.size_leaf]
    omega

end Trail

/-! ## Half full -/

/-- The leaves are half full and the branches have two children.  A root is free to have
    fewer entries. -/
def Subtree.Filled (isRoot : Bool) : {h : Nat} → Subtree h → Prop
  | 0, t => isRoot = false → Leaf.lowerHalf ≤ t.entries.length
  | _ + 1, t => 2 ≤ t.children.length ∧ ∀ child ∈ t.children, Filled false child

namespace Subtree

theorem filled_leaf (isRoot : Bool) (id : PageId) (next : Option PageId) (entries : List Entry) :
    (leaf id next entries).Filled isRoot ↔ (isRoot = false → Leaf.lowerHalf ≤ entries.length) :=
  Iff.rfl

theorem filled_branch (isRoot : Bool) (id : PageId) (children : List (Subtree h)) :
    (branch id children).Filled isRoot ↔
      2 ≤ children.length ∧ ∀ child ∈ children, child.Filled false := Iff.rfl

theorem filled_moved {isRoot : Bool} {t : Subtree h} (id : PageId) :
    (t.moved id).Filled isRoot ↔ t.Filled isRoot := by
  cases h <;> rfl

end Subtree

namespace Trail

/-- The branches above the place have another child, and all beside it is filled. -/
def Filled : {h : Nat} → Trail H h → Prop
  | _, top => True
  | _, down _ left right up =>
    1 ≤ left.length + right.length ∧ (∀ t ∈ left ++ right, t.Filled false) ∧ up.Filled

theorem filled_fill {z : Trail H h} {t : Subtree h} :
    (z.fill t).Filled true ↔ t.Filled z.isTop ∧ z.Filled := by
  induction z with
  | top => simp [fill, isTop, Filled]
  | down id left right up ih =>
    rw [fill, ih, Subtree.filled_branch, Filled, isTop]
    simp only [List.length_append, List.length_cons, List.mem_append, List.mem_cons]
    constructor
    · rintro ⟨⟨htwo, hall⟩, hup⟩
      exact ⟨hall t (.inr (.inl rfl)), by omega, fun c hc => hall c (hc.imp_right .inr), hup⟩
    · rintro ⟨ht, hone, hall, hup⟩
      refine ⟨⟨by omega, fun c hc => ?_⟩, hup⟩
      rcases hc with hc | rfl | hc
      · exact hall c (.inl hc)
      · exact ht
      · exact hall c (.inr hc)

theorem filled_linked (n : Nat) {z : Trail H h} (hf : z.Formed) (hz : z.Filled)
    {low high : Subtree h}
    (hlow : low.Filled false) (hhigh : high.Filled false) :
    (z.linked n low high).2.Filled true := by
  induction z generalizing n with
  | top =>
    refine (Subtree.filled_branch ..).mpr ⟨Nat.le_refl 2, fun t ht => ?_⟩
    rcases List.mem_cons.mp ht with rfl | ht
    · exact (Subtree.filled_moved _).mpr hlow
    · rw [List.mem_singleton.mp ht]
      exact hhigh
  | down id left right up ih =>
    obtain ⟨hone, hsiblings, hup⟩ := hz
    have hall : ∀ t ∈ left ++ low :: high :: right, t.Filled false := by
      intro t ht
      simp only [List.mem_append, List.mem_cons] at ht hsiblings
      rcases ht with ht | rfl | rfl | ht
      · exact hsiblings t (.inl ht)
      · exact hlow
      · exact hhigh
      · exact hsiblings t (.inr ht)
    rw [linked]
    by_cases hroom : left.length + right.length < Branch.maxKeys
    · rw [if_pos hroom, filled_fill]
      refine ⟨(Subtree.filled_branch ..).mpr ⟨?_, hall⟩, hup⟩
      rw [List.length_append, List.length_cons, List.length_cons]
      omega
    · have hfive : (left ++ low :: high :: right).length = 5 := by
        refine Tree.length_five ?_
        have hle : left.length + right.length ≤ Branch.maxKeys := hf.1
        rw [List.length_append, List.length_cons]
        omega
      have htwo := Tree.two_le_staying left
      have hthree := Tree.staying_le left
      rw [if_neg hroom]
      refine ih _ hf.2.2 hup ?_ ?_
      · refine (Subtree.filled_branch ..).mpr ⟨?_, fun t ht => hall t (List.mem_of_mem_take ht)⟩
        rw [List.length_take, hfive]
        omega
      · refine (Subtree.filled_branch ..).mpr ⟨?_, fun t ht => hall t (List.mem_of_mem_drop ht)⟩
        rw [List.length_drop, hfive]
        omega

end Trail

namespace Tree

/-- A full leaf is split in the middle of what it then has. -/
theorem Fits.filled_grown {place : Trail H 0} {id : PageId} {next : Option PageId}
    {a b : List Entry} {x : Entry} (hf : Fits place id next a b x)
    (h : (place.fill (.leaf id next (a ++ b))).Filled true) (n : Nat) :
    (place.grown n id next a b x).2.Filled true := by
  obtain ⟨hleaf, hplace⟩ := Trail.filled_fill.mp h
  by_cases hroom : (a ++ b).length < Leaf.maxCells
  · rw [Trail.grown_of_room n hroom]
    refine Trail.filled_fill.mpr ⟨(Subtree.filled_leaf ..).mpr fun htop => ?_, hplace⟩
    have hold := (Subtree.filled_leaf ..).mp hleaf htop
    rw [List.length_append] at hold
    rw [List.length_append, List.length_cons]
    omega
  · have hlen := length_split (x := x) (Nat.le_antisymm hf.whole.1 (Nat.not_lt.mp hroom))
    rw [Trail.grown_of_full n hroom]
    refine Trail.filled_linked _ hf.formed hplace ?_ ?_
    · refine (Subtree.filled_leaf ..).mpr fun _ => ?_
      rw [List.length_take, hlen]
      decide
    · refine (Subtree.filled_leaf ..).mpr fun _ => ?_
      rw [List.length_drop, hlen]
      decide

/-- In a session no page is lost, and no node is less than half full. -/
theorem Reached.exists_filled {pager : Pager} {M : Contents} (h : Reached pager M) :
    ∃ (H : Nat) (t : Subtree H) (q : PageId), pager.Stores t q ∧
      (∀ key, M key = lookup t.leaves.entries key) ∧ t.size = pager.numPages ∧ t.Filled true := by
  refine h.exists_kept (P := fun n _ t => t.size = n ∧ t.Filled true)
    ⟨⟨rfl, fun hroot => Bool.noConfusion hroot⟩, ?_⟩
  intro n H t key value place id next a b hs hnew hvalue hplace hkept
  rw [← hplace.fill_eq] at hkept
  refine ⟨?_, (hplace.fits hs hnew hvalue).filled_grown hkept.2 n⟩
  rw [Trail.size_grown, hkept.1]

end Tree
end RowStore
