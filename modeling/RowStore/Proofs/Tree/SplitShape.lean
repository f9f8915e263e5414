/-
  RowStore/Proofs/Tree/SplitShape.lean
  ====================================
  **What a split leaves behind.**  A full leaf and one new cell are shared out evenly, the
  lower half staying.  The upper half is linked into the branch above, right behind the lower
  one.  If that branch has four children already, it is split as well: the first two stay,
  the last two move to a new sibling, and the new child goes where its neighbour is.  So the
  branch keeps three children if the first of them was split, and two otherwise.  A root that
  is split becomes a branch over its two halves, the lower of which is on a new page.

  `Cascade` says this of the pages before an insert and after it, from one level to the next.
-/
import RowStore.Proofs.Tree.Milestones
import RowStore.Proofs.Tree.Slots

namespace RowStore

variable {H h n : Nat}

namespace Tree

/-! ## Shares -/

/-- The four children of a full branch and a page `p` that was split off the child in slot
    `slot`, shared out: the pages that stay and the pages that move to the new sibling. -/
def shares (c₀ c₁ c₂ c₃ p : PageId) (slot : Fin 4) : List PageId × List PageId :=
  match slot with
  | 0 => ([c₀, p, c₁], [c₂, c₃])
  | 1 => ([c₀, c₁], [p, c₂, c₃])
  | 2 => ([c₀, c₁], [c₂, p, c₃])
  | 3 => ([c₀, c₁], [c₂, c₃, p])

theorem exists_shares (left right : List PageId) (low high : PageId)
    (hlen : left.length + right.length = Branch.maxKeys) : ∃ (c₀ c₁ c₂ c₃ : PageId) (slot : Fin 4),
      left ++ low :: right = [c₀, c₁, c₂, c₃] ∧ [c₀, c₁, c₂, c₃][slot.val]? = some low ∧
      (left ++ low :: high :: right).take (staying left) = (shares c₀ c₁ c₂ c₃ high slot).1 ∧
      (left ++ low :: high :: right).drop (staying left) = (shares c₀ c₁ c₂ c₃ high slot).2 := by
  change _ = 3 at hlen
  match left with
  | [] =>
    obtain ⟨b, c, d, rfl⟩ := List.length_eq_three.mp (show right.length = 3 by simpa using hlen)
    exact ⟨low, b, c, d, 0, rfl, rfl, rfl, rfl⟩
  | [a] =>
    obtain ⟨c, d, rfl⟩ := List.length_eq_two.mp (show right.length = 2 by
      simp only [List.length_singleton] at hlen
      omega)
    exact ⟨a, low, c, d, 1, rfl, rfl, rfl, rfl⟩
  | [a, b] =>
    obtain ⟨d, rfl⟩ := List.length_eq_one_iff.mp (show right.length = 1 by
      simp only [List.length_cons, List.length_nil] at hlen
      omega)
    exact ⟨a, b, low, d, 2, rfl, rfl, rfl, rfl⟩
  | [a, b, c] =>
    obtain rfl := List.length_eq_zero_iff.mp (show right.length = 0 by
      simp only [List.length_cons, List.length_nil] at hlen
      omega)
    exact ⟨a, b, c, low, 3, rfl, rfl, rfl, rfl⟩
  | _ :: _ :: _ :: _ :: left =>
    simp only [List.length_cons] at hlen
    omega

/-! ## The cascade on the pages -/

/-- The node on page `low` was split, and its upper half is on page `high`.  The next new page
    is page `n`.  This is what becomes of the branches above, where `v` shows the pages before
    and `w` those after, and the lower half ends up on page `home`. -/
inductive Cascade (v w : View) : (n : Nat) → (low high home : PageId) → Prop where
  /-- The root was split. -/
  | root {n : Nat} {high : PageId} {key : UInt32}
    (hafter : Branch.Says (w.page PageId.root) true [key] [PageId.ofNat n, high])
    (hnum : w.numPages = n + 1) : Cascade v w n PageId.root high (PageId.ofNat n)
  /-- The branch above has room. -/
  | room {n : Nat} {low high parent : PageId} {isRoot : Bool} {keys keys' : List UInt32}
    {left right : List PageId}
    (hbefore : Branch.Says (v.page parent) isRoot keys (left ++ low :: right))
    (hroom : (left ++ low :: right).length ≤ Branch.maxKeys)
    (hafter : Branch.Says (w.page parent) isRoot keys' (left ++ low :: high :: right))
    (hnum : w.numPages = n) : Cascade v w n low high low
  /-- The branch above is full, and is split in turn. -/
  | full {n : Nat} {low high parent home c₀ c₁ c₂ c₃ : PageId} {slot : Fin 4} {isRoot : Bool}
    {keys lowerKeys upperKeys : List UInt32}
    (hbefore : Branch.Says (v.page parent) isRoot keys [c₀, c₁, c₂, c₃])
    (hslot : [c₀, c₁, c₂, c₃][slot.val]? = some low)
    (hlower : Branch.Says (w.page home) false lowerKeys (shares c₀ c₁ c₂ c₃ high slot).1)
    (hupper : Branch.Says (w.page (PageId.ofNat n)) false upperKeys
      (shares c₀ c₁ c₂ c₃ high slot).2)
    (habove : Cascade v w (n + 1) parent (PageId.ofNat n) home) : Cascade v w n low high low

end Tree

theorem Subtree.moved_id (t : Subtree h) : t.moved t.id = t := by
  cases h <;> rfl

theorem View.Spells.of_fill {v : View} {z : Trail H h} {t : Subtree h} {q : PageId}
    (hv : v.Spells ((z.fill t).heap true q)) : v.Spells (t.heap z.isTop (z.parent q)) :=
  hv.mono fun _ hx => (z.heap_fill q t).symm.subset (List.mem_append_left _ hx)

namespace Tree

/-- The children of a branch hang below its page. -/
theorem spells_child {w : View} {id parent : PageId} {isRoot : Bool} {children : List (Subtree h)}
    (hw : w.Spells ((Subtree.branch id children).heap isRoot parent)) {t : Subtree h}
    (ht : t ∈ children) : w.Spells (t.heap false id) :=
  hw.mono (Subtree.heap_subset_of_mem ht id parent isRoot)

theorem ids_append_cons (left right : List (Subtree h)) (t : Subtree h) :
    (left ++ t :: right).map Subtree.id = left.map Subtree.id ++ t.id :: right.map Subtree.id := by
  rw [List.map_append, List.map_cons]

theorem staying_map {α β : Type} (f : α → β) (left : List α) :
    staying (left.map f) = staying left := by
  cases left <;> rfl

section Nonempty

variable {left right : List (Subtree h)} {low high : Subtree h}

theorem ne_nil_staying (hlen : (left ++ low :: right).length = Branch.maxKeys + 1) :
    (left ++ low :: high :: right).take (staying left) ≠ [] := by
  have htwo := two_le_staying left
  refine List.ne_nil_of_length_pos ?_
  rw [List.length_take, length_five hlen]
  omega

theorem ne_nil_moving (hlen : (left ++ low :: right).length = Branch.maxKeys + 1) :
    (left ++ low :: high :: right).drop (staying left) ≠ [] := by
  have hthree := staying_le left
  refine List.ne_nil_of_length_pos ?_
  rw [List.length_drop, length_five hlen]
  omega

end Nonempty

/-- What a cascade leaves on the pages.  Both halves are in the tree, each below some page. -/
theorem exists_cascade {v w : View} {z : Trail H h} {whole low high : Subtree h} {q : PageId}
    (hz : z.Formed) (hid : whole.id = low.id) (hroot : z.rootId low.id = PageId.root)
    (hv : v.Spells ((z.fill whole).heap true q))
    (hw : w.Spells ((z.linked n low high).2.heap true q)) (hnum : w.numPages = n + z.cost) :
    ∃ home above above', Cascade v w n low.id high.id home ∧
      w.Spells ((low.moved home).heap false above) ∧ w.Spells (high.heap false above') := by
  induction z generalizing n with
  | top =>
    rw [show low.id = PageId.root from hroot]
    rw [Trail.linked] at hw
    have hnode := says_branch (List.cons_ne_nil _ _) hw
    simp only [List.map_cons, List.map_nil, Subtree.id_moved] at hnode
    exact ⟨_, _, _, .root hnode hnum, spells_child hw (by simp), spells_child hw (by simp)⟩
  | @down h id left right up ih =>
    obtain ⟨hle, -, hup⟩ := hz
    rw [Trail.fill] at hv
    have hbefore := says_branch (by simp) hv.of_fill
    rw [ids_append_cons, hid] at hbefore
    rw [Trail.linked] at hw
    rw [Trail.cost] at hnum
    by_cases hroom : left.length + right.length < Branch.maxKeys
    · rw [if_pos hroom] at hw hnum
      have hafter := says_branch (by simp) hw.of_fill
      rw [ids_append_cons, List.map_cons] at hafter
      refine ⟨low.id, id, id, .room hbefore ?_ hafter hnum, ?_, spells_child hw.of_fill (by simp)⟩
      · simp only [List.length_append, List.length_cons, List.length_map]
        omega
      · rw [Subtree.moved_id]
        exact spells_child hw.of_fill (by simp)
    · rw [if_neg hroom] at hw hnum
      have hfull : left.length + right.length = Branch.maxKeys :=
        Nat.le_antisymm hle (Nat.not_lt.mp hroom)
      obtain ⟨c₀, c₁, c₂, c₃, slot, hchildren, hslot, hstay, hmove⟩ :=
        exists_shares (left.map Subtree.id) (right.map Subtree.id) low.id high.id
          (by rwa [List.length_map, List.length_map])
      rw [staying_map, ← List.map_cons, ← ids_append_cons] at hstay hmove
      rw [← List.map_take] at hstay
      rw [← List.map_drop] at hmove
      have hbranch : (Subtree.branch id (left ++ whole :: right)).id = (Subtree.branch id
          ((left ++ low :: high :: right).take (staying left))).id := rfl
      obtain ⟨home, above, above', hcascade, hlower, hupper⟩ :=
        ih (n := n + 1) hup hbranch hroot hv hw (by omega)
      have hlen : (left ++ low :: right).length = Branch.maxKeys + 1 := by
        rw [List.length_append, List.length_cons]
        omega
      have hlow := says_branch (ne_nil_staying hlen) hlower
      have hhigh := says_branch (ne_nil_moving hlen) hupper
      rw [hstay] at hlow
      rw [hmove] at hhigh
      rw [hchildren] at hbefore
      -- Each of the two is in the half that stays or in the half that moves.
      have hchild : ∀ t ∈ left ++ low :: high :: right, ∃ page, w.Spells (t.heap false page) := by
        intro t ht
        rw [← List.take_append_drop (staying left) (left ++ low :: high :: right)] at ht
        rcases List.mem_append.mp ht with ht | ht
        · exact ⟨_, spells_child hlower ht⟩
        · exact ⟨_, spells_child hupper ht⟩
      obtain ⟨below, hlowSpells⟩ := hchild low (by simp)
      obtain ⟨below', hhighSpells⟩ := hchild high (by simp)
      exact ⟨low.id, below, below', .full hbefore hslot hlow hhigh hcascade,
        by rwa [Subtree.moved_id], hhighSpells⟩

/-! ## The place of an insert -/

/-- The search for `key` ends in front of cell `cell` of the leaf on page `id`, which holds
    the given entries.  The key belongs there. -/
structure Target (pager : Pager) (key : UInt32) (id : PageId) (cell : Nat) (isRoot : Bool)
    (next : Option PageId) (entries : List Entry) : Prop where
  found : ∃ after : Pager, (find key).run pager = .ok (id, cell) after
  node : Leaf.Says (pager.view.page id) isRoot next entries
  le : cell ≤ entries.length
  ascending : ((entries.map Entry.key).insertIdx cell key).Pairwise (· < ·)

theorem Locates.target {pager : Pager} {t : Subtree H} {q : PageId} {key : UInt32}
    {place : Trail H 0} {id : PageId} {next : Option PageId} {a b : List Entry}
    (hl : Locates key t place id next a b) (h : pager.Stores t q)
    (hnew : lookup t.leaves.entries key = none) :
    Target pager key id a.length place.isTop next (a ++ b) := by
  have hfits := hl.fits h.sound hnew (List.length_replicate (n := Leaf.valueSize) (a := 0))
  obtain ⟨after, hfind, -, -⟩ := h.run_reads (hl.reads_find h.sound h.height_lt q)
  refine ⟨⟨after, hfind⟩, ?_, ?_, ?_⟩
  · exact (reading_eq_leaf_iff.mp (h.holds.shows _ (hl.mem_heap q)).2).1
  · rw [List.length_append]
    exact Nat.le_add_right _ _
  · have hkeys := (List.pairwise_append.mp (List.pairwise_append.mp hfits.keys).1).2.1
    rw [List.map_append, List.map_cons, ← insertIdx_append_length] at hkeys
    have hlen : (a.map Entry.key).length = a.length := List.length_map _
    rwa [List.map_append, ← hlen]

/-- A key belongs to one place only. -/
theorem Target.unique {pager : Pager} {key : UInt32} {id id' : PageId} {cell cell' : Nat}
    {isRoot isRoot' : Bool} {next next' : Option PageId} {entries entries' : List Entry}
    (h : Target pager key id cell isRoot next entries)
    (h' : Target pager key id' cell' isRoot' next' entries') :
    id = id' ∧ cell = cell' ∧ entries = entries' := by
  obtain ⟨after, hfind⟩ := h.found
  obtain ⟨after', hfind'⟩ := h'.found
  cases hfind.symm.trans hfind'
  exact ⟨rfl, rfl, (h.node.unique h'.node).2.2⟩

/-! ## Split leaves -/

/-- The full leaf on page `id` was split, where `cells` are its entries and the new one.  The
    upper half is on a new page, behind the lower one in the chain of leaves. -/
def Halved (v w : View) (id : PageId) (next : Option PageId) (cells : List Entry) : Prop :=
  ∃ home, Leaf.Says (w.page home) false (some (PageId.ofNat v.numPages))
      (cells.take Leaf.lowerHalf) ∧
    Leaf.Says (w.page (PageId.ofNat v.numPages)) false next (cells.drop Leaf.lowerHalf) ∧
    Cascade v w (v.numPages + 1) id (PageId.ofNat v.numPages) home

theorem halved_of_stores {pager after : Pager} {t : Subtree H} {q : PageId} {key : UInt32}
    {value : List UInt8} {place : Trail H 0} {id : PageId} {next : Option PageId}
    {a b : List Entry} (hl : Locates key t place id next a b) (h : pager.Stores t q)
    (hnew : lookup t.leaves.entries key = none) (hvalue : value.length = Leaf.valueSize)
    (hfull : ¬(a ++ b).length < Leaf.maxCells)
    (hnum : after.numPages = pager.numPages + place.needed (a ++ b).length)
    (hafter : after.Stores (place.grown pager.numPages id next a b { key, value }).2 q) :
    Halved pager.view after.view id next (a ++ { key, value } :: b) := by
  have hfits := hl.fits h.sound hnew hvalue
  have hbefore := h.holds.shows.spells
  have hshows := hafter.holds.shows.spells
  rw [← hl.fill_eq] at hbefore
  rw [Trail.grown_of_full _ hfull] at hshows
  rw [Trail.needed, if_neg hfull, ← Nat.add_assoc] at hnum
  have hid : (Subtree.leaf id next (a ++ b)).id = (Subtree.lowerLeaf id
      (PageId.ofNat pager.numPages) (a ++ { key, value } :: b)).id := rfl
  obtain ⟨home, above, above', hcascade, hlower, hupper⟩ :=
    exists_cascade hfits.formed hid hfits.root hbefore hshows hnum
  exact ⟨home, (reading_eq_leaf_iff.mp (hlower _ List.mem_cons_self)).1,
    (reading_eq_leaf_iff.mp (hupper _ List.mem_cons_self)).1, hcascade⟩

/-- **A split leaves exact shapes.**  An insert into a leaf with room takes no page.  If the
    leaf is full, the lower seven of its fourteen entries form the lower half, and the upper
    seven a new leaf behind it that has the link of the old one.  From there on the cascade
    makes its way up, to a branch with room or to a root that is split. -/
theorem split_shapes {pager after : Pager} {M : Contents} (h : Reached pager M) {key : UInt32}
    {value : List UInt8} (hrun : (insert key value).run pager = .ok () after) :
    ∃ (id : PageId) (cell : Nat) (isRoot : Bool) (next : Option PageId) (entries : List Entry),
      Target pager key id cell isRoot next entries ∧
      (entries.length < Leaf.maxCells ∧ after.numPages = pager.numPages ∨
        entries.length = Leaf.maxCells ∧
          Halved pager.view after.view id next (entries.insertIdx cell { key, value })) := by
  obtain ⟨H, t, q, hstores, -⟩ := h.exists_stores
  obtain ⟨r, after', hrun', -, hinserted⟩ := exists_insert hstores key value
  obtain ⟨rfl, rfl⟩ := outcome_inj (r := .ok ()) (hrun.symm.trans hrun')
  cases hinserted with
  | @taken place id next a b hnew hvalue hl hroom hnum hgrown =>
    refine ⟨id, a.length, place.isTop, next, a ++ b, hl.target hstores hnew, ?_⟩
    by_cases hlen : (a ++ b).length < Leaf.maxCells
    · rw [Trail.needed, if_pos hlen] at hnum
      exact .inl ⟨hlen, hnum⟩
    · rw [insertIdx_append_length]
      exact .inr ⟨Nat.le_antisymm (hl.fits hstores.sound hnew hvalue).whole.1 (Nat.not_lt.mp hlen),
        halved_of_stores hl hstores hnew hvalue hlen hnum hgrown⟩

theorem split_shapes_full_root : ∃ (pager after : Pager) (M : Contents) (value : List UInt8),
    Reached pager M ∧ (insert 13 value).run pager = .ok () after ∧
    ∃ (id : PageId) (cell : Nat) (isRoot : Bool) (next : Option PageId) (entries : List Entry),
      Target pager 13 id cell isRoot next entries ∧ entries.length = Leaf.maxCells ∧
        Halved pager.view after.view id next (entries.insertIdx cell { key := 13, value }) := by
  obtain ⟨full, split, h⟩ := exists_firstSplit
  obtain ⟨id, cell, isRoot, next, entries, htarget, hroom | hfull⟩ := split_shapes h.reached h.run
  · rw [h.one, h.three] at hroom
    exact absurd hroom.2 (by decide)
  · exact ⟨full, split, _, _, h.reached, h.run, id, cell, isRoot, next, entries, htarget, hfull⟩

end Tree
end RowStore
