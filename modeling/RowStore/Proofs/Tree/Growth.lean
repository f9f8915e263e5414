/-
  RowStore/Proofs/Tree/Growth.lean
  ================================
  **A leaf takes an entry.**  An entry goes between the entries `a` and `b` of a leaf at
  some place of the tree.  A leaf with room grows by it; a full leaf is split around it,
  and the upper half is linked upwards, if there are pages for that.
-/
import RowStore.Proofs.Tree.Room

namespace RowStore

variable {H h n m : Nat}

/-! ## Linking the upper half -/

namespace Tree

open Trail (down)

section Halves

variable {id q : PageId} {left right : List (Subtree h)} {whole low high : Subtree h}

/-- What linking two halves needs: their keys stand where those of the whole stood. -/
structure Halves (z : Trail H h) (whole low high : Subtree h) : Prop where
  place : z.Formed
  formed_whole : whole.Formed false
  formed_low : low.Formed false
  formed_high : high.Formed false
  id_whole : whole.id = low.id
  root : z.rootId low.id = PageId.root
  keys_whole : (z.before.keys ++ whole.keys ++ z.after.keys).Pairwise (· < ·)
  keys : (z.before.keys ++ low.keys ++ high.keys ++ z.after.keys).Pairwise (· < ·)
  greatest : z.IsLast ∨ high.greatest = whole.greatest

/-- The branch above gets the greatest key of the lower half as a separator. -/
theorem takes_relinkHalf {up : Trail H (h + 1)}
    (hs : Halves (down id left right up) whole low high) :
    Takes (editBranch id (Branch.replaceKey id whole.greatest low.greatest)) n
      (low.heap false id ++ high.heap false id ++ (down id left right up).heap q whole.link)
      (.ok ()) n
      ((Subtree.branch id (left ++ low :: right)).heap up.isTop (up.parent q) ++
        high.heap false id ++
        up.heap q (id, (Subtree.branch id (left ++ high :: right)).greatest)) := by
  have hsiblings : Siblings (left ++ [whole] ++ right) :=
    Trail.siblings hs.place (by simp [hs.formed_whole]) (by simpa using hs.keys_whole)
  have hgreatest : ((left.map Subtree.link ++ (low.id, whole.greatest) ::
      right.map Subtree.link).map Prod.snd).Pairwise (· < ·) := by
    have h := hsiblings.greatest
    simpa [Function.comp_def, Subtree.link_eq] using h
  have hedit : Takes (editBranch id (Branch.replaceKey id whole.greatest low.greatest)) n
      [(id, ⟨some (Links.body up.isTop (left.map Subtree.link ++ (low.id, whole.greatest) ::
        right.map Subtree.link)), up.parent q⟩)] (.ok ()) n _ :=
    takes_editBranch (turns_relinkByKey id hgreatest)
  have hup : up.heap q (id, ((left.map Subtree.greatest ++ whole.greatest ::
      right.map Subtree.greatest).getLast?).getD 0) =
      up.heap q (id, (Subtree.branch id (left ++ high :: right)).greatest) := by
    rcases hs.greatest with hlast | heq
    · exact Trail.heap_of_isLast hlast.2 q id _ _
    · rw [Subtree.greatest_branch, List.map_append, List.map_cons, heq]
  refine hedit.among (low.heap false id ++ high.heap false id ++
    (left ++ right).flatMap (Subtree.heap false id) ++
      up.heap q (id, (Subtree.branch id (left ++ high :: right)).greatest)) ?_ ?_
  · rw [Trail.heap, Subtree.link_eq, hs.id_whole, hup, List.perm_iff_count]
    intro x
    simp only [List.count_append, List.count_cons, List.count_nil]
    omega
  · rw [Subtree.heap_branch, List.perm_iff_count]
    intro x
    simp only [List.map_append, List.map_cons, List.flatMap_append, List.flatMap_cons,
      Subtree.link_eq low, List.count_append, List.count_cons, List.count_nil]
    omega

theorem Halves.reads_maxKey {z : Trail H h} (hs : Halves z whole low high) (hH : H < maxPages)
    (parent : PageId) : Reads (maxKey low.id) (low.heap false parent) (.ok low.greatest) :=
  reads_maxKeyBelow hs.formed_low false parent (Nat.lt_of_le_of_lt z.le hH)

/-- After that, the rest is left to the cascade. -/
theorem takes_linkHalf {up : Trail H (h + 1)} (hs : Halves (down id left right up) whole low high)
    (hH : H < maxPages) (hcost : n + (down id left right up).cost ≤ maxPages) :
    Takes (do
        let newMax ← maxKey low.id
        editBranch id (Branch.replaceKey id whole.greatest newMax)
        link id high.id)
      n (low.heap false id ++ high.heap false id ++ (down id left right up).heap q whole.link)
      (.ok ()) (n + (down id left right up).cost)
      (((down id left right up).linked n low high).2.heap true q) := by
  refine Takes.reads_bind ((hs.reads_maxKey hH id).mono (by simp)) ?_
  refine Takes.bind (a := ()) (takes_relinkHalf hs) (Takes.get_bind fun pager hpager => ?_)
  exact takes_linkWithin hs.place hs.formed_low hs.formed_high hs.keys hs.root hH hcost
    (by rw [Pager.freePages, hpager]; omega)

theorem takes_linkHalves {z : Trail H h} (hs : Halves z whole low high) (hH : H < maxPages)
    (hcost : n + z.cost ≤ maxPages) :
    Takes (if z.isTop = true then growRoot high.id
      else do
        let newMax ← maxKey low.id
        editBranch (z.parent q) (Branch.replaceKey (z.parent q) whole.greatest newMax)
        link (z.parent q) high.id)
      n (low.heap z.isTop (z.parent q) ++ high.heap false (z.parent q) ++ z.heap q whole.link)
      (.ok ()) (n + z.cost) ((z.linked n low high).2.heap true q) := by
  cases z with
  | top =>
    rw [Trail.heap, List.append_nil]
    exact takes_growRoot hs.root hs.formed_low hcost hH
  | down id left right up => exact takes_linkHalf hs hH hcost

end Halves

end Tree

/-! ## Splitting a leaf -/

namespace Leaf

theorem Says.next_ne_root {page : Page} {isRoot : Bool} {next : Option PageId}
    {entries : List Entry} (h : Says page isRoot next entries) : next ≠ some PageId.root := by
  rw [← h.next, nextIn]
  split
  · exact (Option.some_ne_none _).symm
  · rename_i hne
    exact fun he => hne (congrArg PageId.number (Option.some.inj he))

section Fill

variable {next : Option PageId} {entries : List Entry}

/-- Filling a leaf anew. -/
theorem turns_refill {isRoot : Bool} {old : Option PageId} {whole : List Entry} {parent : PageId}
    (hnext : next ≠ some PageId.root) (hlen : entries.length ≤ maxCells)
    (hvalue : ∀ entry ∈ entries, entry.value.length = valueSize) :
    Turns (do
        setCells (entries.map Entry.bytes)
        setCount entries.length
        setNext next)
      ⟨some (.leaf isRoot old whole), parent⟩ () ⟨some (.leaf isRoot next entries), parent⟩ := by
  have hcells : Turns (setCells (entries.map Entry.bytes) >>= fun _ => setCount entries.length)
      ⟨some (.leaf isRoot old whole), parent⟩ () ⟨some (.leaf isRoot old entries), parent⟩ :=
    turns_setCells_setCount entries hlen hvalue
  have h : Turns (_ >>= fun _ => setNext next) _ () ⟨some (.leaf isRoot next entries), parent⟩ :=
    hcells.bind (turns_setNext hnext)
  rwa [bind_assoc] at h

end Fill
end Leaf

namespace Subtree

def lowerLeaf (id new : PageId) (entries : List Entry) : Subtree 0 :=
  leaf id (some new) (entries.take Leaf.lowerHalf)

def upperLeaf (new : PageId) (next : Option PageId) (entries : List Entry) : Subtree 0 :=
  leaf new next (entries.drop Leaf.lowerHalf)

theorem id_lowerLeaf (id new : PageId) (entries : List Entry) :
    (lowerLeaf id new entries).id = id := rfl

theorem id_upperLeaf (new : PageId) (next : Option PageId) (entries : List Entry) :
    (upperLeaf new next entries).id = new := rfl

end Subtree

namespace Tree

/-- The entry `x` belongs between `a` and `b`, in the leaf that holds them. -/
structure Fits (place : Trail H 0) (id : PageId) (next : Option PageId) (a b : List Entry)
    (x : Entry) : Prop where
  formed : place.Formed
  whole : (Subtree.leaf id next (a ++ b)).Formed place.isTop
  root : place.rootId id = PageId.root
  keys : (place.before.keys ++ (a ++ x :: b).map Entry.key ++ place.after.keys).Pairwise (· < ·)
  last : place.IsLast ∨ b ≠ []
  value : x.value.length = Leaf.valueSize

namespace Fits

variable {place : Trail H 0} {id : PageId} {next : Option PageId} {a b : List Entry} {x : Entry}

theorem values (hf : Fits place id next a b x) :
    ∀ entry ∈ a ++ x :: b, entry.value.length = Leaf.valueSize := by
  intro entry hentry
  rcases List.mem_append.mp hentry with h | h
  · exact hf.whole.2.2 entry (List.mem_append_left _ h)
  · rcases List.mem_cons.mp h with rfl | h
    · exact hf.value
    · exact hf.whole.2.2 entry (List.mem_append_right _ h)

theorem length_split (hfull : (a ++ b).length = Leaf.maxCells) : (a ++ x :: b).length = 14 := by
  replace hfull : (a ++ b).length = 13 := hfull
  simp only [List.length_append, List.length_cons] at hfull ⊢
  omega

theorem halves (hf : Fits place id next a b x) (hfull : (a ++ b).length = Leaf.maxCells)
    (new : PageId) : Halves place (.leaf id next (a ++ b)) (.lowerLeaf id new (a ++ x :: b))
      (.upperLeaf new next (a ++ x :: b)) where
  place := hf.formed
  formed_whole := by
    refine (Subtree.formed_leaf ..).mpr ⟨Nat.le_of_eq hfull, fun _ => ?_, hf.whole.2.2⟩
    exact List.ne_nil_of_length_pos (by rw [hfull]; decide)
  formed_low := by
    have hlen : ((a ++ x :: b).take Leaf.lowerHalf).length = 7 := by
      rw [List.length_take, length_split hfull]
      rfl
    refine (Subtree.formed_leaf ..).mpr ⟨by rw [hlen]; decide, fun _ => ?_, fun entry hentry => ?_⟩
    · exact List.ne_nil_of_length_pos (by omega)
    · exact hf.values entry (List.mem_of_mem_take hentry)
  formed_high := by
    have hlen : ((a ++ x :: b).drop Leaf.lowerHalf).length = 7 := by
      rw [List.length_drop, length_split hfull]
      rfl
    refine (Subtree.formed_leaf ..).mpr ⟨by rw [hlen]; decide, fun _ => ?_, fun entry hentry => ?_⟩
    · exact List.ne_nil_of_length_pos (by omega)
    · exact hf.values entry (List.mem_of_mem_drop hentry)
  id_whole := rfl
  root := hf.root
  keys_whole := by
    refine hf.keys.sublist ?_
    rw [Subtree.keys_leaf]
    refine (List.Sublist.append (.refl _) ?_).append (.refl _)
    exact ((List.Sublist.refl a).append (List.sublist_cons_self x b)).map Entry.key
  keys := by
    rw [Subtree.lowerLeaf, Subtree.upperLeaf, Subtree.keys_leaf, Subtree.keys_leaf,
      List.append_assoc place.before.keys, ← List.map_append, List.take_append_drop]
    exact hf.keys
  greatest := by
    refine hf.last.imp_right fun hb => ?_
    rw [Subtree.upperLeaf, Subtree.greatest_leaf, Subtree.greatest_leaf, List.map_drop,
      List.getLast?_drop, List.length_map, length_split hfull, if_neg (by decide)]
    obtain ⟨front, last, rfl⟩ := (List.eq_nil_or_concat' b).resolve_left hb
    simp [List.getLast?_cons]

end Fits

section SplitLeaf

/-- Only the first page that is ever taken is the root. -/
theorem ofNat_ne_root (hpos : 0 < n) (hn : n < maxPages) : PageId.ofNat n ≠ PageId.root := by
  intro he
  have hindex : (PageId.ofNat n).index = n := PageId.index_ofNat (Nat.lt_trans hn (by decide))
  rw [he] at hindex
  exact absurd hindex (Nat.ne_of_lt hpos)

theorem insertIdx_cells (a b : List Entry) (x : Entry) :
    ((a ++ b).map Entry.bytes).insertIdx a.length (cellOf x.key x.value) =
      (a ++ x :: b).map Entry.bytes := by
  rw [List.map_append, List.map_append, List.map_cons]
  have h := insertIdx_append_length (a.map Entry.bytes) (b.map Entry.bytes) x.bytes
  rwa [List.length_map] at h

variable {place : Trail H 0} {id q : PageId} {next : Option PageId} {a b : List Entry} {x : Entry}

/-- The upper half fills a new page. -/
theorem takes_freshLeaf (hf : Fits place id next a b x) (hfull : (a ++ b).length = Leaf.maxCells)
    (hnext : next ≠ some PageId.root) (new parent : PageId) :
    Takes (Pager.edit new do
        Leaf.init
        Header.setParent parent
        Leaf.setNext next
        Leaf.setCells (((a ++ x :: b).drop Leaf.lowerHalf).map Entry.bytes)
        Leaf.setCount ((a ++ x :: b).drop Leaf.lowerHalf).length)
      n [(new, blank)] (.ok ()) n
      ((Subtree.upperLeaf new next (a ++ x :: b)).heap false parent) :=
  have hhigh := (hf.halves hfull new).formed_high
  Takes.edit (Leaf.turns_fresh blank parent hnext hhigh.1 hhigh.2.2)

theorem takes_refillLeaf (hf : Fits place id next a b x) (hfull : (a ++ b).length = Leaf.maxCells)
    {new : PageId} (hnew : some new ≠ some PageId.root) (isRoot : Bool) (parent : PageId) :
    Takes (editLeaf id do
        Leaf.setCells (((a ++ x :: b).take Leaf.lowerHalf).map Entry.bytes)
        Leaf.setCount ((a ++ x :: b).take Leaf.lowerHalf).length
        Leaf.setNext (some new))
      n ((Subtree.leaf id next (a ++ b)).heap isRoot parent) (.ok ()) n
      ((Subtree.lowerLeaf id new (a ++ x :: b)).heap isRoot parent) :=
  have hlow := (hf.halves hfull new).formed_low
  takes_editLeaf (Leaf.turns_refill hnew hlow.1 hlow.2.2)

theorem takes_splitLeaf (hf : Fits place id next a b x) (hfull : (a ++ b).length = Leaf.maxCells)
    (hH : H < maxPages) (hcost : n + 1 + place.cost ≤ maxPages) :
    Takes (splitLeaf id a.length x.key x.value) n
      ((Subtree.leaf id next (a ++ b)).heap place.isTop (place.parent q) ++
        place.heap q (Subtree.leaf id next (a ++ b)).link)
      (.ok ()) (n + 1 + place.cost)
      ((place.linked (n + 1) (.lowerLeaf id (PageId.ofNat n) (a ++ x :: b))
        (.upperLeaf (PageId.ofNat n) next (a ++ x :: b))).2.heap true q) := by
  have hhalves := hf.halves hfull (PageId.ofNat n)
  refine Takes.of_holds fun _ hlt _ => ?_
  have hpos : 0 < n := Nat.lt_of_le_of_lt (Nat.zero_le _) (hlt (id, _) List.mem_cons_self)
  have hn : n < maxPages := by omega
  have hnew : some (PageId.ofNat n) ≠ some PageId.root :=
    fun he => ofNat_ne_root hpos hn (Option.some.inj he)
  have hmax : Reads (maxKey id) _ (.ok (Subtree.leaf id next (a ++ b)).greatest) :=
    reads_maxKeyBelow hhalves.formed_whole place.isTop (place.parent q) (by decide)
  have hlink := takes_linkHalves (q := q) hhalves hH hcost
  rw [Subtree.id_lowerLeaf, Subtree.id_upperLeaf] at hlink
  rw [splitLeaf]
  refine Takes.reads_bind (hmax.mono (List.subset_append_left _ _)) ?_
  refine Takes.sees_bind (sees_leaf List.mem_cons_self) ?_
  rintro _ ⟨page, rfl, hnode, hparent⟩
  change Leaf.Says page place.isTop next (a ++ b) at hnode
  have hfresh := takes_freshLeaf (n := n + 1) hf hfull hnode.next_ne_root (PageId.ofNat n)
    (place.parent q)
  have hrefill := takes_refillLeaf (n := n + 1) hf hfull hnew place.isTop (place.parent q)
  dsimp only
  refine Takes.lift_bind hnode.cells_eq ?_
  rw [insertIdx_cells, List.splitAt_eq, ← List.map_take, ← List.map_drop, List.length_map,
    List.length_map,
    show Leaf.parent { id, page } = place.parent q from hparent,
    show Leaf.next { id, page } = next from hnode.next,
    show Leaf.isRoot { id, page } = place.isTop from hnode.root]
  refine Takes.bind (a := PageId.ofNat n) ((Takes.allocate hn).among _ (.refl _) (.refl _)) ?_
  refine Takes.bind (a := ()) (hfresh.frame
    ((Subtree.leaf id next (a ++ b)).heap place.isTop (place.parent q) ++
      place.heap q (Subtree.leaf id next (a ++ b)).link)) ?_
  refine Takes.bind (a := ()) (hrefill.among
    ((Subtree.upperLeaf (PageId.ofNat n) next (a ++ x :: b)).heap false (place.parent q) ++
      place.heap q (Subtree.leaf id next (a ++ b)).link) ?_
    (List.Perm.of_eq (List.append_assoc _ _ _).symm)) hlink
  rw [List.perm_iff_count]
  intro z
  simp only [List.count_append]
  omega

end SplitLeaf

end Tree

/-! ## The grown tree -/

namespace Trail

/-- The pages that one more entry takes in a leaf of `count` entries at the place. -/
def needed (place : Trail H 0) (count : Nat) : Nat :=
  if count < Leaf.maxCells then 0 else 1 + place.cost

/-- The tree with the entry `x` between `a` and `b` in the leaf at the place, where `n` is the
    next page to be taken. -/
def grown (place : Trail H 0) (n : Nat) (id : PageId) (next : Option PageId) (a b : List Entry)
    (x : Entry) : Σ K : Nat, Subtree K :=
  if (a ++ b).length < Leaf.maxCells then ⟨H, place.fill (.leaf id next (a ++ x :: b))⟩
  else place.linked (n + 1) (.lowerLeaf id (PageId.ofNat n) (a ++ x :: b))
    (.upperLeaf (PageId.ofNat n) next (a ++ x :: b))

section Grown

variable {place : Trail H 0} {id : PageId} {next : Option PageId} {a b : List Entry} {x : Entry}

theorem grown_of_room (n : Nat) (hroom : (a ++ b).length < Leaf.maxCells) :
    place.grown n id next a b x = ⟨H, place.fill (.leaf id next (a ++ x :: b))⟩ :=
  if_pos hroom

theorem grown_of_full (n : Nat) (hfull : ¬(a ++ b).length < Leaf.maxCells) :
    place.grown n id next a b x = place.linked (n + 1)
      (.lowerLeaf id (PageId.ofNat n) (a ++ x :: b))
      (.upperLeaf (PageId.ofNat n) next (a ++ x :: b)) :=
  if_neg hfull

theorem entries_grown (place : Trail H 0) (n : Nat) (id : PageId) (next : Option PageId)
    (a b : List Entry) (x : Entry) : (place.grown n id next a b x).2.leaves.entries =
      place.before.entries ++ (a ++ x :: b) ++ place.after.entries := by
  by_cases hroom : (a ++ b).length < Leaf.maxCells
  · rw [grown_of_room n hroom]
    simp [leaves_fill]
  · rw [grown_of_full n hroom, entries_linked, Subtree.lowerLeaf, Subtree.upperLeaf,
      Subtree.leaves_leaf, Subtree.leaves_leaf, Leaves.entries_cons, Leaves.entries_cons,
      Leaves.entries_nil, List.append_nil, List.append_nil, List.take_append_drop]

/-- The two halves follow each other where the whole leaf stood. -/
theorem chained_grown (n : Nat) (x : Entry)
    (h : (place.fill (.leaf id next (a ++ b))).leaves.Chained) :
    (place.grown n id next a b x).2.leaves.Chained := by
  rw [leaves_fill, Subtree.leaves_leaf, List.append_assoc, List.singleton_append] at h
  by_cases hroom : (a ++ b).length < Leaf.maxCells
  · rw [grown_of_room n hroom, leaves_fill, Subtree.leaves_leaf, List.append_assoc,
      List.singleton_append]
    exact h.splice rfl fun hwhole => hwhole.head rfl
  · rw [grown_of_full n hroom]
    cases place with
    | top => exact ⟨rfl, h⟩
    | down above left right up =>
      rw [leaves_linked_down, List.append_assoc, List.append_assoc, Subtree.lowerLeaf,
        Subtree.upperLeaf, Subtree.leaves_leaf, Subtree.leaves_leaf, List.singleton_append,
        List.singleton_append]
      exact h.splice rfl fun hwhole => ⟨rfl, hwhole.head rfl⟩

end Grown

end Trail

theorem Tree.Fits.sound_grown {place : Trail H 0} {id : PageId} {next : Option PageId}
    {a b : List Entry} {x : Entry} (hf : Tree.Fits place id next a b x) (n : Nat)
    (h : (place.fill (.leaf id next (a ++ b))).leaves.Chained) :
    (place.grown n id next a b x).2.Sound where
  root := by
    by_cases hroom : (a ++ b).length < Leaf.maxCells
    · rw [Trail.grown_of_room n hroom]
      exact (Trail.id_fill _ _).trans hf.root
    · rw [Trail.grown_of_full n hroom]
      exact Trail.id_linked _ _ _ _ hf.root
  formed := by
    by_cases hroom : (a ++ b).length < Leaf.maxCells
    · rw [Trail.grown_of_room n hroom]
      refine Trail.formed_fill.mpr
        ⟨(Subtree.formed_leaf ..).mpr ⟨?_, fun _ => ?_, hf.values⟩, hf.formed⟩
      · rw [List.length_append, List.length_cons, ← Nat.add_assoc, ← List.length_append]
        exact hroom
      · exact List.append_ne_nil_of_right_ne_nil a (List.cons_ne_nil x b)
    · have hfull : (a ++ b).length = Leaf.maxCells :=
        Nat.le_antisymm hf.whole.1 (Nat.not_lt.mp hroom)
      have hhalves := hf.halves hfull (PageId.ofNat n)
      rw [Trail.grown_of_full n hroom]
      exact Trail.formed_linked _ hf.formed hhalves.formed_low hhalves.formed_high
  ascending := by
    rw [Subtree.keys, Leaves.keys, Trail.entries_grown, List.map_append, List.map_append]
    exact hf.keys
  chained := Trail.chained_grown n x h

namespace Tree

section InsertAt

variable {place : Trail H 0} {id q : PageId} {next : Option PageId} {a b : List Entry} {x : Entry}

theorem reads_countSplits_leaf (hf : Fits place id next a b x) (hH : H < maxPages) :
    Reads (countSplits maxPages 1 id)
      ((Subtree.leaf id next (a ++ b)).heap place.isTop (place.parent q) ++
        place.heap q (Subtree.leaf id next (a ++ b)).link) (.ok (1 + place.cost)) := by
  refine reads_countSplits 1 hf.formed ?_ ?_ (List.subset_append_right _ _) hH
  · exact reads_isRoot_leaf List.mem_cons_self
  · exact reads_parentOf List.mem_cons_self

theorem turns_insertCell (hf : Fits place id next a b x) (hlen : (a ++ b).length < Leaf.maxCells)
    (isRoot : Bool) (parent : PageId) : Turns (Leaf.insertCell id a.length x.key x.value)
      ⟨some (.leaf isRoot next (a ++ b)), parent⟩ ()
      ⟨some (.leaf isRoot next (a ++ x :: b)), parent⟩ := by
  rw [← insertIdx_append_length]
  exact Leaf.turns_insertCell id hlen (by simp) hf.value

/-- The new entry is not the greatest of its leaf, or no separator tells of that. -/
theorem heap_link_insert (hf : Fits place id next a b x) (q : PageId) :
    place.heap q (Subtree.leaf id next (a ++ x :: b)).link =
      place.heap q (Subtree.leaf id next (a ++ b)).link := by
  rcases hf.last with hlast | hb
  · exact Trail.heap_of_isLast hlast q id _ _
  · obtain ⟨front, last, rfl⟩ := (List.eq_nil_or_concat' b).resolve_left hb
    simp [Subtree.link_eq, List.getLast?_cons]

theorem takes_insertCell (hf : Fits place id next a b x) (hlen : (a ++ b).length < Leaf.maxCells) :
    Takes (editLeaf id (Leaf.insertCell id a.length x.key x.value)) n
      ((Subtree.leaf id next (a ++ b)).heap place.isTop (place.parent q) ++
        place.heap q (Subtree.leaf id next (a ++ b)).link)
      (.ok ()) n ((place.fill (.leaf id next (a ++ x :: b))).heap true q) := by
  have hedit : Takes (editLeaf id (Leaf.insertCell id a.length x.key x.value)) n
      ((Subtree.leaf id next (a ++ b)).heap place.isTop (place.parent q)) (.ok ()) n
      ((Subtree.leaf id next (a ++ x :: b)).heap place.isTop (place.parent q)) :=
    takes_editLeaf (turns_insertCell hf hlen place.isTop (place.parent q))
  rw [← heap_link_insert hf q]
  exact (hedit.frame _).perm (.refl _) (place.heap_fill q _).symm

/-- With enough free pages the entry is taken in. -/
theorem takes_insertAt (hf : Fits place id next a b x) (hH : H < maxPages)
    (hroom : n + place.needed (a ++ b).length ≤ maxPages) :
    Takes (insertAt id a.length x.key x.value) n
      ((Subtree.leaf id next (a ++ b)).heap place.isTop (place.parent q) ++
        place.heap q (Subtree.leaf id next (a ++ b)).link)
      (.ok ()) (n + place.needed (a ++ b).length)
      ((place.grown n id next a b x).2.heap true q) := by
  rw [insertAt]
  simp only [hf.value, ne_eq, not_true_eq_false, if_false]
  refine Takes.sees_bind (sees_leaf List.mem_cons_self) ?_
  rintro _ ⟨page, rfl, hnode, hparent⟩
  have hcount : Leaf.count { id, page } = (a ++ b).length := hnode.count_eq
  have hplace : ¬(a ++ b).length < a.length := by
    rw [List.length_append]
    omega
  rw [hcount, if_neg hplace, Trail.needed, Trail.grown]
  rw [Trail.needed] at hroom
  by_cases hlen : (a ++ b).length < Leaf.maxCells
  · rw [if_neg (Nat.not_le.mpr hlen), if_pos hlen, if_pos hlen, Nat.add_zero]
    exact takes_insertCell hf hlen
  · have hfull : (a ++ b).length = Leaf.maxCells := Nat.le_antisymm hf.whole.1 (Nat.not_lt.mp hlen)
    rw [if_neg hlen, ← Nat.add_assoc] at hroom
    rw [if_pos (Nat.not_lt.mp hlen), if_neg hlen, if_neg hlen, ← Nat.add_assoc]
    refine Takes.bind (a := ()) (takes_ensureRoom (reads_countSplits_leaf hf hH) ?_)
      (takes_splitLeaf hf hfull hH hroom)
    rwa [← Nat.add_assoc]

/-- Without them it is refused, before any page is changed. -/
theorem insertAt_refused {v : View} (hf : Fits place id next a b x) (hH : H < maxPages)
    (hgives : Gives v.Shown
      ((Subtree.leaf id next (a ++ b)).heap place.isTop (place.parent q) ++
        place.heap q (Subtree.leaf id next (a ++ b)).link))
    (hfull : maxPages - v.numPages < place.needed (a ++ b).length) :
    Leads Pager.view (insertAt id a.length x.key x.value) v (.error (.error .tableFull)) v := by
  rw [insertAt]
  simp only [hf.value, ne_eq, not_true_eq_false, if_false]
  have hmem : (id, ⟨some (.leaf place.isTop next (a ++ b)), place.parent q⟩) ∈
      (Subtree.leaf id next (a ++ b)).heap place.isTop (place.parent q) ++
        place.heap q (Subtree.leaf id next (a ++ b)).link := List.mem_cons_self
  refine (sees_leaf hmem).bind_leads hgives ?_
  rintro _ ⟨page, rfl, hnode, hparent⟩
  have hcount : Leaf.count { id, page } = (a ++ b).length := hnode.count_eq
  have hplace : ¬(a ++ b).length < a.length := by
    rw [List.length_append]
    omega
  rw [hcount, if_neg hplace]
  rw [Trail.needed] at hfull
  by_cases hlen : (a ++ b).length < Leaf.maxCells
  · rw [if_pos hlen] at hfull
    omega
  · rw [if_neg hlen] at hfull
    rw [if_pos (Nat.not_lt.mp hlen)]
    exact (ensureRoom_refused hgives (reads_countSplits_leaf hf hH) hfull).bind_error

end InsertAt

end Tree
end RowStore
