/-
  RowStore/Proofs/Tree/Scan.lean
  ==============================
  **Scanning a sound tree.**  A cursor has a list of entries ahead of it: what stands from its
  cell on in its leaf, and in the leaves behind.  The first of them is what a visit sees, and
  a move takes it away.

  A scan starts at the leaf where the smallest key would be and follows the chain of leaves.
  On a sound tree it comes by every entry once, and it ends before it is taken for endless.
-/
import RowStore.Proofs.Tree.Insert

namespace RowStore.Tree

variable {α : Type} {H : Nat}

/-! ## One step -/

section Advance

variable {K : Heap} {id parent : PageId} {isRoot : Bool} {next : Option PageId}
variable {entries : List Entry} {cell : Nat}

theorem reads_advance (h : (id, ⟨some (.leaf isRoot next entries), parent⟩) ∈ K) (cell : Nat) :
    Reads (Cursor.advance { page := id, cell, atEnd := false }) K
      (.ok (if cell + 1 < entries.length then { page := id, cell := cell + 1, atEnd := false }
        else next.elim { page := id, cell := cell + 1, atEnd := true }
          fun next => { page := next, cell := 0, atEnd := false })) := by
  refine Reads.sees_bind (sees_leaf h) ?_
  rintro _ ⟨page, rfl, hnode, -⟩
  have hcount : Leaf.count { id, page } = entries.length := hnode.count_eq
  have hnext : Leaf.next { id, page } = next := hnode.next
  simp only [Cursor.stepped, Bool.false_eq_true, if_false]
  rw [hcount, hnext]
  by_cases hcell : cell + 1 < entries.length
  · rw [if_pos hcell, if_pos hcell]
    exact Reads.pure _
  · rw [if_neg hcell, if_neg hcell]
    cases next with
    | none => exact Reads.pure _
    | some next => exact Reads.pure _

end Advance

/-! ## What is ahead of a cursor -/

/-- A leaf and the leaves behind it, as the pages have them.  Those behind it have entries. -/
structure LeafRow (K : Heap) (first : LeafNode) (rest : Leaves) : Prop where
  pages : ∀ leaf ∈ first :: rest, ∃ b p, (leaf.id, ⟨some (.leaf b leaf.next leaf.entries), p⟩) ∈ K
  chained : Leaves.Chained (first :: rest)
  filled : ∀ leaf ∈ rest, leaf.entries ≠ []

namespace LeafRow

variable {K : Heap} {first next : LeafNode} {rest : Leaves}

theorem page (h : LeafRow K first rest) :
    ∃ b p, (first.id, ⟨some (.leaf b first.next first.entries), p⟩) ∈ K :=
  h.pages first List.mem_cons_self

theorem tail (h : LeafRow K first (next :: rest)) : LeafRow K next rest where
  pages leaf hleaf := h.pages leaf (List.mem_cons_of_mem _ hleaf)
  chained := h.chained.2
  filled leaf hleaf := h.filled leaf (List.mem_cons_of_mem _ hleaf)

end LeafRow

/-- The entries from a cursor on.  A cursor is on an entry and not at its end, or it stands
    behind all cells of the last leaf, where it may or may not be at its end. -/
inductive Facing (K : Heap) : Cursor → List Entry → Prop where
  | inside {first : LeafNode} {rest : Leaves} {cell : Nat} (hrow : LeafRow K first rest)
      (hcell : cell < first.entries.length) :
      Facing K ⟨first.id, cell, false⟩ (first.entries.drop cell ++ rest.entries)
  | behind {last : LeafNode} {cell : Nat} (hrow : LeafRow K last [])
      (hcell : last.entries.length ≤ cell) (atEnd : Bool) : Facing K ⟨last.id, cell, atEnd⟩ []

theorem drop_append_eq_cons {entries others : List Entry} {cell : Nat}
    (h : cell < entries.length) :
    entries.drop cell ++ others = entries[cell] :: (entries.drop (cell + 1) ++ others) := by
  rw [List.drop_eq_getElem_cons h]
  rfl

namespace Facing

variable {K : Heap} {cursor : Cursor} {ahead : List Entry}

theorem eq_nil_of_atEnd (h : Facing K cursor ahead) (hend : cursor.atEnd = true) : ahead = [] := by
  cases h with
  | inside hrow hcell => cases hend
  | behind hrow hcell atEnd => rfl

/-- A move from the last cell of the last leaf, or from behind it, leads to the end. -/
theorem reads_advance_last {last : LeafNode} {cell : Nat} (hrow : LeafRow K last [])
    (hcell : last.entries.length ≤ cell + 1) :
    Reads (Cursor.advance ⟨last.id, cell, false⟩) K (.ok ⟨last.id, cell + 1, true⟩) := by
  obtain ⟨b, p, hpage⟩ := hrow.page
  have hadvance := Tree.reads_advance hpage cell
  rwa [if_neg (Nat.not_lt.mpr hcell), show last.next = none from hrow.chained] at hadvance

/-- A move from the last cell of any other leaf leads to the first entry of the next one. -/
theorem reads_advance_next {first next : LeafNode} {rest : Leaves} {cell : Nat}
    (hrow : LeafRow K first (next :: rest)) (hcell : first.entries.length ≤ cell + 1) :
    Reads (Cursor.advance ⟨first.id, cell, false⟩) K (.ok ⟨next.id, 0, false⟩) := by
  obtain ⟨b, p, hpage⟩ := hrow.page
  have hadvance := Tree.reads_advance hpage cell
  rwa [if_neg (Nat.not_lt.mpr hcell), hrow.chained.1] at hadvance

/-- A move takes the first entry away, and tells whether there is another. -/
theorem reads_advance (h : Facing K cursor ahead) : ∃ next,
    Reads cursor.advance K (.ok next) ∧ Facing K next ahead.tail ∧
      (next.atEnd = true ↔ ahead.tail = []) := by
  cases h with
  | @inside first rest cell hrow hcell =>
    rw [drop_append_eq_cons hcell, List.tail_cons]
    by_cases hmore : cell + 1 < first.entries.length
    · -- The next entry stands in the same leaf.
      obtain ⟨b, p, hpage⟩ := hrow.page
      have hadvance := Tree.reads_advance hpage cell
      rw [if_pos hmore] at hadvance
      refine ⟨_, hadvance, .inside hrow hmore, iff_of_false Bool.false_ne_true ?_⟩
      rw [drop_append_eq_cons hmore]
      exact List.cons_ne_nil _ _
    · replace hmore := Nat.not_lt.mp hmore
      rw [List.drop_of_length_le hmore, List.nil_append]
      cases rest with
      | nil =>
        exact ⟨_, reads_advance_last hrow hmore, .behind hrow hmore true, iff_of_true rfl rfl⟩
      | cons next rest =>
        have hsome : next.entries ≠ [] := hrow.filled next List.mem_cons_self
        refine ⟨_, reads_advance_next hrow hmore,
          .inside hrow.tail (List.length_pos_iff.mpr hsome), iff_of_false Bool.false_ne_true ?_⟩
        intro hnil
        exact hsome (List.append_eq_nil_iff.mp hnil).1
  | @behind last cell hrow hcell atEnd =>
    cases atEnd with
    | true => exact ⟨_, Reads.pure _, .behind hrow hcell true, iff_of_true rfl rfl⟩
    | false =>
      have hpast := Nat.le_succ_of_le hcell
      exact ⟨_, reads_advance_last hrow hpast, .behind hrow hpast true, iff_of_true rfl rfl⟩

end Facing

/-! ## The whole scan -/

/-- A visit that gives the same for an entry wherever it stands. -/
def Visits (visit : Cursor → PagerM α) (f : Entry → α) (K : Heap) : Prop :=
  ∀ (id parent : PageId) (isRoot : Bool) (next : Option PageId) (entries : List Entry) (cell : Nat)
    (entry : Entry), (id, ⟨some (.leaf isRoot next entries), parent⟩) ∈ K →
      entries[cell]? = some entry →
      Reads (visit { page := id, cell, atEnd := false }) K (.ok (f entry))

theorem visits_key (K : Heap) : Visits Cursor.key (fun entry => some entry.key) K := by
  intro id parent isRoot next entries cell entry h hentry
  have hkey := reads_key h cell false
  rwa [hentry] at hkey

theorem reads_scanWithin_end (visit : Cursor → PagerM α) (places : Nat) (page : PageId) (cell : Nat)
    (K : Heap) : Reads (scanWithin visit places { page, cell, atEnd := true }) K (.ok []) := by
  cases places with
  | zero => exact Reads.pure []
  | succ places => exact Reads.pure []

namespace Facing

variable {visit : Cursor → PagerM α} {f : Entry → α} {K : Heap} {cursor : Cursor}
variable {ahead : List Entry} {places : Nat}

/-- The first entry ahead is the one that a visit sees. -/
theorem reads_visit (hvisit : Visits visit f K) (h : Facing K cursor ahead) {entry : Entry}
    (hentry : ahead.head? = some entry) : Reads (visit cursor) K (.ok (f entry)) := by
  cases h with
  | inside hrow hcell =>
    obtain ⟨b, p, hpage⟩ := hrow.page
    rw [drop_append_eq_cons hcell] at hentry
    cases hentry
    exact hvisit _ _ _ _ _ _ _ hpage (List.getElem?_eq_getElem hcell)
  | behind hrow hcell atEnd => cases hentry

/-- A scan visits all that is ahead, if its cursor is at its end where that is nothing. -/
theorem reads_scanWithin (hvisit : Visits visit f K) (h : Facing K cursor ahead)
    (hend : ahead = [] → cursor.atEnd = true) (hplaces : ahead.length ≤ places) :
    Reads (scanWithin visit places cursor) K (.ok (ahead.map f)) := by
  induction places generalizing cursor ahead with
  | zero =>
    obtain rfl := List.eq_nil_of_length_eq_zero (Nat.le_zero.mp hplaces)
    rw [scanWithin, if_pos (hend rfl)]
    exact Reads.pure _
  | succ places ih =>
    rw [scanWithin]
    cases ahead with
    | nil =>
      rw [if_pos (hend rfl)]
      exact Reads.pure _
    | cons entry others =>
      have hgoes : ¬cursor.atEnd = true := fun hend =>
        List.cons_ne_nil _ _ (h.eq_nil_of_atEnd hend)
      obtain ⟨next, hnext, hface, hflag⟩ := h.reads_advance
      rw [if_neg hgoes]
      refine Reads.bind (h.reads_visit hvisit rfl) (Reads.bind hnext ?_)
      exact Reads.bind (ih hface hflag.mpr (Nat.le_of_succ_le_succ hplaces)) (Reads.pure _)

end Facing

/-! ## All keys -/

/-- Nothing stands before the place of the smallest key. -/
theorem Locates.of_zero {t : Subtree H} {place : Trail H 0} {id : PageId} {next : Option PageId}
    {a b : List Entry} (hl : Locates 0 t place id next a b) :
    place.before.entries = [] ∧ a = [] := by
  have hnil : ∀ entries : List Entry, (∀ k ∈ entries.map Entry.key, k < 0) → entries = [] := by
    intro entries h
    cases entries with
    | nil => rfl
    | cons x entries => exact absurd (h x.key List.mem_cons_self) (UInt32.not_lt.mpr UInt32.zero_le)
  exact ⟨hnil _ hl.before, hnil _ hl.low⟩

/-- A scan starts at the first cell of the leftmost leaf. -/
theorem Locates.reads_start {t : Subtree H} {place : Trail H 0} {id : PageId}
    {next : Option PageId} {b : List Entry} (hl : Locates 0 t place id next [] b) (hs : t.Sound)
    (hH : H < maxPages) (q : PageId) :
    Reads start (t.heap true q)
      (.ok { page := id, cell := 0, atEnd := decide (b.length = 0) }) := by
  refine Reads.bind (hl.reads_find hs hH q) ?_
  refine Reads.sees_bind (sees_leaf (hl.mem_heap q)) ?_
  rintro _ ⟨page, rfl, hnode, -⟩
  have hcount : Leaf.count { id, page } = b.length := hnode.count_eq
  rw [← hcount]
  exact Reads.pure _

/-- A scan is not taken for endless before it has come by all entries. -/
theorem length_entries_le_maxPlaces {t : Subtree H} (hf : t.Formed true)
    (hleaves : t.leaves.length ≤ maxPages) : t.leaves.entries.length ≤ maxPlaces := by
  have hentries := Leaves.length_entries_le fun leaf hleaf =>
    (Subtree.formed_of_mem_leaves hf hleaf).1
  exact Nat.le_trans hentries (Nat.mul_le_mul hleaves (Nat.le_succ Leaf.maxCells))

section Located

variable {key : UInt32} {t : Subtree H} {place : Trail H 0} {id q : PageId} {next : Option PageId}
variable {a b : List Entry}

/-- A leaf that is too short for the key is the last of the tree. -/
theorem Locates.after_eq_nil (hl : Locates key t place id next a []) : place.after = [] :=
  Trail.after_eq_nil (hl.last.resolve_right fun h => h rfl)

/-- The leaf of a key and the leaves behind it are a chain of leaves of the tree. -/
theorem Locates.chained (hl : Locates key t place id next a b) (hs : t.Sound) :
    Leaves.Chained (LeafNode.mk id next (a ++ b) :: place.after) ∧
      ∀ leaf ∈ LeafNode.mk id next (a ++ b) :: place.after, leaf ∈ t.leaves := by
  have hleaves : t.leaves = place.before ++ (LeafNode.mk id next (a ++ b) :: place.after) := by
    rw [← hl.fill_eq, Trail.leaves_fill, List.append_assoc]
    rfl
  have hchained := hs.chained
  rw [hleaves] at hchained
  exact ⟨hchained.suffix, fun leaf hleaf => hleaves ▸ List.mem_append_right _ hleaf⟩

theorem Locates.row (hl : Locates key t place id next a b) (hs : t.Sound) (q : PageId) :
    LeafRow (t.heap true q) ⟨id, next, a ++ b⟩ place.after where
  pages leaf hleaf := t.exists_leaf_mem_heap ((hl.chained hs).2 leaf hleaf) true q
  chained := (hl.chained hs).1
  filled leaf hleaf := by
    have hformed := hs.formed
    rw [← hl.fill_eq, Trail.formed_fill] at hformed
    exact Trail.ne_nil_of_mem_after hformed.2 hleaf

/-- At the place of a key, the entries from there on are ahead. -/
theorem Locates.facing (hl : Locates key t place id next a b) (hs : t.Sound) (q : PageId)
    {atEnd : Bool} (hend : atEnd = true → b = []) :
    Facing (t.heap true q) ⟨id, a.length, atEnd⟩ (b ++ place.after.entries) := by
  have hrow := hl.row hs q
  cases b with
  | nil =>
    -- Only the last leaf of the tree may be too short for the key.
    have hafter := hl.after_eq_nil
    rw [hafter, List.append_nil] at hrow
    rw [hafter]
    exact .behind hrow (Nat.le_refl a.length) atEnd
  | cons entry others =>
    obtain rfl : atEnd = false := Bool.eq_false_iff.mpr fun h => List.cons_ne_nil _ _ (hend h)
    have hcell : a.length < (a ++ entry :: others).length := by
      rw [List.length_append, List.length_cons]
      omega
    have hface := Facing.inside hrow hcell
    rwa [List.drop_left] at hface

/-- From the place of a key on, a scan comes by all entries that stand behind it. -/
theorem Locates.reads_scanWithin {visit : Cursor → PagerM α} {f : Entry → α}
    (hl : Locates key t place id next a b) (hvisit : Visits visit f (t.heap true q)) (hs : t.Sound)
    (hleaves : t.leaves.length ≤ maxPages) {atEnd : Bool} (hend : atEnd = true ↔ b = []) :
    Reads (scanWithin visit maxPlaces ⟨id, a.length, atEnd⟩) (t.heap true q)
      (.ok ((b ++ place.after.entries).map f)) := by
  have hplaces := length_entries_le_maxPlaces hs.formed hleaves
  rw [hl.entries_eq, List.append_assoc, List.append_assoc, List.length_append,
    List.length_append] at hplaces
  refine (hl.facing hs q hend.mp).reads_scanWithin hvisit (fun hnil => ?_) (by omega)
  exact hend.mpr (List.append_eq_nil_iff.mp hnil).1

end Located

theorem reads_scan {visit : Cursor → PagerM α} {f : Entry → α} {t : Subtree H} {q : PageId}
    (hvisit : Visits visit f (t.heap true q)) (hs : t.Sound) (hH : H < maxPages)
    (hleaves : t.leaves.length ≤ maxPages) :
    Reads (scan visit) (t.heap true q) (.ok (t.leaves.entries.map f)) := by
  obtain ⟨place, id, next, a, b, hl⟩ := exists_locates hs 0
  obtain ⟨hbefore, rfl⟩ := hl.of_zero
  have hend : decide (b.length = 0) = true ↔ b = [] :=
    decide_eq_true_iff.trans List.length_eq_zero_iff
  refine Reads.bind (hl.reads_start hs hH q) ?_
  rw [hl.entries_eq, hbefore]
  exact hl.reads_scanWithin hvisit hs hleaves hend

/-- All keys, in ascending order. -/
theorem reads_keys {t : Subtree H} {q : PageId} (hs : t.Sound) (hH : H < maxPages)
    (hleaves : t.leaves.length ≤ maxPages) :
    Reads keys (t.heap true q) (.ok t.keys) := by
  have hscan := reads_scan (q := q) (visits_key _) hs hH hleaves
  refine Reads.bind hscan ?_
  rw [Subtree.keys, Leaves.keys, List.filterMap_map]
  simpa [Function.comp_def] using Reads.pure _

end RowStore.Tree
