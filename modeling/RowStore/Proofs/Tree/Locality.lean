/-
  RowStore/Proofs/Tree/Locality.lean
  ==================================
  **How far an insert reaches.**  An insert into a leaf with room changes the page of this
  leaf and no other, and on this page the count of cells and the cells from the new one on.
  A split changes the pages that it takes, the page of the leaf, and those of the branches
  above it up to the first that has room.  Whatever else there was stays byte for byte as it
  was, but that children which have moved name another parent.
-/
import RowStore.Proofs.Tree.Bears
import RowStore.Proofs.Tree.Spares
import RowStore.Proofs.Tree.SplitShape

namespace RowStore

variable {H h n : Nat}

/-! ## One more cell -/

namespace Leaf

/-- A new cell changes the count and the cells from its own to the last one. -/
theorem byte_insertCell {page after : Page} {count i : Nat} {id : PageId} {key : UInt32}
    {value : List UInt8} (hcount : countIn page = count) (hroom : count < maxCells) (hi : i ≤ count)
    (hvalue : value.length = valueSize)
    (hrun : (insertCell id i key value).run page = .ok () after) :
    countIn after = count + 1 ∧ ∀ k, ¬(countOffset ≤ k ∧ k < countOffset + 4) →
      ¬(cellStart i ≤ k ∧ k < cellStart (count + 1)) → after.byte k = page.byte k := by
  obtain ⟨_, hrun', hafter, -, hbefore, -, hrest⟩ :=
    exists_insertCell id key hcount hroom hi hvalue
  cases hrun'.symm.trans hrun
  refine ⟨hafter, fun k hfield hcells => ?_⟩
  change ¬(6 ≤ k ∧ k < 10) at hfield
  rw [cellStart_eq, cellStart_eq] at hcells
  by_cases hk : 14 ≤ k ∧ k < 14 + 295 * i
  · -- The byte is in a cell before the new one.
    have hcell : k = cellStart ((k - 14) / 295) + (k - 14) % 295 := by
      rw [cellStart_eq]
      omega
    rw [hcell]
    exact hbefore _ _ (by omega) (Nat.mod_lt _ (by decide))
  · refine hrest k ?_
    rw [cellStart_eq]
    omega

end Leaf

/-- The page of one leaf has changed, and nothing else.  On this page there are other bytes
    only in the count, and from cell `cell` to the end of cell `count`, now the last one. -/
def CellAdded (v w : View) (id : PageId) (cell count : Nat) : Prop :=
  ∃ page : Page, w = v.set id page ∧ page ≠ v.page id ∧
    ∀ k, ¬(Leaf.countOffset ≤ k ∧ k < Leaf.countOffset + 4) →
      ¬(Leaf.cellStart cell ≤ k ∧ k < Leaf.cellStart (count + 1)) →
      page.byte k = (v.page id).byte k

namespace Tree

section Place

variable {pager after : Pager} {t : Subtree H} {q : PageId} {key : UInt32} {value : List UInt8}
variable {place : Trail H 0} {id : PageId} {next : Option PageId} {a b : List Entry}

theorem cellAdded_of_room (hl : Locates key t place id next a b) (h : pager.Stores t q)
    (hnew : lookup t.leaves.entries key = none) (hvalue : value.length = Leaf.valueSize)
    (hroom : (a ++ b).length < Leaf.maxCells)
    (hrun : (insert key value).run pager = .ok () after) :
    CellAdded pager.view after.view id a.length (a ++ b).length := by
  have hnode := (hl.target h hnew).node
  obtain ⟨page, hedit, -, hleads⟩ := insert_leads h.bears hl hnew hvalue hroom
  obtain ⟨_, hrun', -, hview⟩ := hleads pager h.holds.coherent rfl
  cases hrun'.symm.trans hrun
  obtain ⟨hcount, hbytes⟩ := Leaf.byte_insertCell hnode.count hroom
    (List.sublist_append_left a b).length_le hvalue hedit
  refine ⟨page, hview, fun he => ?_, hbytes⟩
  rw [he, hnode.count] at hcount
  exact absurd hcount (Nat.ne_of_lt (Nat.lt_succ_self _))

/-! ## The way of a split -/

/-- The branch on page `id` has no room for another child. -/
def NoRoom (v : View) (id : PageId) : Prop :=
  ∃ isRoot keys children, Branch.Says (v.page id) isRoot keys children ∧
    Branch.maxKeys < children.length

/-- The leaf on page `leaf`, and the branches above it up to the first that has room. -/
inductive Spine (v : View) (leaf : PageId) : PageId → Prop where
  | leaf : Spine v leaf leaf
  | above {id parent : PageId} {slot : Nat} (hid : Spine v leaf id)
    (hfull : id = leaf ∨ NoRoom v id) (hparent : Reachable v parent)
    (hslot : PointsTo v parent slot id) : Spine v leaf parent

theorem spine_of_mem {v : View} {leaf : PageId} {z : Trail H h} {t : Subtree h}
    (hspells : v.Spells ((z.fill t).heap true q))
    (hreach : ∀ x ∈ (z.fill t).heap true q, Reachable v x.1) (ht : Spine v leaf t.id)
    (hfull : t.id = leaf ∨ NoRoom v t.id) {x : PageId} (hx : x ∈ z.spine) : Spine v leaf x := by
  induction z with
  | top => cases hx
  | @down h id left right up ih =>
    have hne : left ++ t :: right ≠ [] := by simp
    have hbranch : v.Spells ((Subtree.branch id (left ++ t :: right)).heap up.isTop (up.parent q)) :=
      View.Spells.of_fill hspells
    have hmem := Subtree.mem_heap_branch hne id (up.parent q) up.isTop
    have hparent := hreach _ ((up.heap_fill q _).symm.subset (List.mem_append_left _ hmem))
    have hslot : PointsTo v id left.length t.id :=
      (pointsTo_branch hne hbranch).mpr ⟨t, by simp, rfl⟩
    have hid : Spine v leaf id := .above ht hfull hparent hslot
    rw [Trail.spine] at hx
    rcases List.mem_cons.mp hx with rfl | hx
    · exact hid
    · by_cases hroom : left.length + right.length < Branch.maxKeys
      · rw [if_pos hroom] at hx
        cases hx
      · rw [if_neg hroom] at hx
        refine ih hspells hreach hid (.inr ⟨_, _, _, says_branch hne hbranch, ?_⟩) hx
        simp only [List.length_map, List.length_append, List.length_cons]
        omega

theorem sameButParent_of_full (hl : Locates key t place id next a b) (h : pager.Stores t q)
    (hnew : lookup t.leaves.entries key = none) (hvalue : value.length = Leaf.valueSize)
    (hfull : (a ++ b).length = Leaf.maxCells)
    (hpages : pager.numPages + place.needed (a ++ b).length ≤ maxPages)
    (hrun : (insert key value).run pager = .ok () after) {other : PageId}
    (hother : other.index < pager.numPages) (hspine : ¬Spine pager.view id other) :
    SameButParent (pager.view.page other) (after.view.page other) := by
  have hspells := h.holds.shows.spells
  rw [Trail.needed, if_neg (Nat.not_lt.mpr (Nat.le_of_eq hfull.symm)), ← Nat.add_assoc] at hpages
  have hreach : ∀ x ∈ t.heap true q, Reachable pager.view x.1 := fun x hx =>
    reachable_of_mem h.sound.formed hspells (h.sound.root ▸ .root) hx
  have hspares : Spares (fun x => Spine pager.view id x ∨ pager.numPages ≤ x.index)
      (insert key value) pager.numPages (t.heap true q) := by
    refine spares_insert hl h.sound h.height_lt hnew hvalue hfull hpages (.inl .leaf) ?_ ?_
    · intro x hx
      rw [← hl.fill_eq] at hspells hreach
      exact .inl (spine_of_mem hspells hreach .leaf (.inl rfl) hx)
    · intro k hk hmax
      rw [PageId.index_ofNat (Nat.lt_trans hmax (by decide))]
      exact .inr hk
  have hholds := h.holds
  rw [← List.append_nil (t.heap true q)] at hholds
  have hstrides := hspares pager [] hholds (.ok ()) after hrun
  exact (hstrides.within h.holds.coherent other).resolve_left
    (not_or.mpr ⟨hspine, Nat.not_le.mpr hother⟩)

end Place

/-- **An insert stays local.**  If there is room in the leaf that the key belongs to, no other
    page changes, and on its page the count and the cells from the new one on.  If the leaf is
    split, a page that was there before is as it was, apart from its parent, unless it is the
    page of the leaf or of a branch above it up to the first that has room. -/
theorem insert_is_local {pager after : Pager} {M : Contents} (h : Reached pager M) {key : UInt32}
    {value : List UInt8} (hrun : (insert key value).run pager = .ok () after) :
    ∃ (id : PageId) (cell : Nat) (isRoot : Bool) (next : Option PageId) (entries : List Entry),
      Target pager key id cell isRoot next entries ∧
      (entries.length < Leaf.maxCells ∧ CellAdded pager.view after.view id cell entries.length ∨
        entries.length = Leaf.maxCells ∧ ∀ other : PageId, other.index < pager.numPages →
          ¬Spine pager.view id other →
            SameButParent (pager.view.page other) (after.view.page other)) := by
  obtain ⟨H, t, q, hstores, -⟩ := h.exists_stores
  obtain ⟨r, after', hrun', -, hinserted⟩ := exists_insert hstores key value
  obtain ⟨rfl, rfl⟩ := outcome_inj (r := .ok ()) (hrun.symm.trans hrun')
  cases hinserted with
  | @taken place id next a b hnew hvalue hl hroom hnum hgrown =>
    refine ⟨id, a.length, place.isTop, next, a ++ b, hl.target hstores hnew, ?_⟩
    by_cases hlen : (a ++ b).length < Leaf.maxCells
    · exact .inl ⟨hlen, cellAdded_of_room hl hstores hnew hvalue hlen hrun⟩
    · have hfull : (a ++ b).length = Leaf.maxCells :=
        Nat.le_antisymm (hl.fits hstores.sound hnew hvalue).whole.1 (Nat.not_lt.mp hlen)
      exact .inr ⟨hfull, fun _ => sameButParent_of_full hl hstores hnew hvalue hfull hroom hrun⟩

/-- A key between the two that are there. -/
theorem insert_is_local_between :
    ∃ (pager after : Pager) (low high : Entry) (value : List UInt8), low.key = 5 ∧ high.key = 9 ∧
      Reached pager (lookup [low, high]) ∧ (insert 7 value).run pager = .ok () after ∧
      CellAdded pager.view after.view PageId.root 1 2 := by
  let low : Entry := { key := 5, value := List.replicate Leaf.valueSize 0 }
  let high : Entry := { key := 9, value := List.replicate Leaf.valueSize 1 }
  have hnew : (7 : UInt32) ∉ [low, high].map Entry.key := by decide
  obtain ⟨pager, q, hreached, hstores, hone⟩ := exists_reached_leaf
    (show [low, high].length ≤ _ by decide) (by decide) (by simp [low, high])
  obtain ⟨after, place, id, next, a, b, hrun, hl, -⟩ := exists_inserted hstores hone hnew
    (List.length_replicate (n := Leaf.valueSize) (a := 2))
  have hplace := hl.target hstores (lookup_leaf_eq_none hnew)
  obtain ⟨-, rfl, -, hentries⟩ := hl.of_leaf
  obtain ⟨id, cell, isRoot, next, entries, htarget, hlocal⟩ := insert_is_local hreached hrun
  obtain ⟨rfl, -, rfl⟩ := htarget.unique hplace
  have hcell : cell ≤ 2 := by simpa [hentries] using htarget.le
  have hascending := htarget.ascending
  rw [hentries] at hascending hlocal
  have hmiddle : ∀ i ≤ 2, (List.insertIdx [5, 9] i (7 : UInt32)).Pairwise (· < ·) → i = 1 := by
    decide
  obtain rfl := hmiddle cell hcell hascending
  rcases hlocal with ⟨-, hadded⟩ | ⟨hfull, -⟩
  · exact ⟨pager, after, low, high, _, rfl, rfl, hreached, hrun, hadded⟩
  · exact absurd hfull (by decide)

end Tree
end RowStore
