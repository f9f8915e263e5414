/-
  RowStore/Proofs/Tree/OneLeaf.lean
  =================================
  **Trees of one leaf.**  As long as the keys fit one leaf, the root is that leaf.  Any
  ascending entries that fit can be put there, one after the other, and the tree is then on
  one page.
-/
import Mathlib.Data.List.Induction
import RowStore.Proofs.Tree.Session

namespace RowStore.Tree

/-- In a tree of one leaf every place is in this leaf. -/
theorem Locates.of_leaf {key : UInt32} {root id : PageId} {first next : Option PageId}
    {entries a b : List Entry} {place : Trail 0 0}
    (hl : Locates key (.leaf root first entries) place id next a b) :
    place = .top ∧ id = root ∧ next = first ∧ a ++ b = entries := by
  have hfill := hl.fill_eq
  cases place with
  | top =>
    cases hfill
    exact ⟨rfl, rfl, rfl, rfl⟩
  | down _ _ _ up => exact absurd up.le (Nat.not_succ_le_self 0)

/-- A key that is greater than all of them belongs behind the last one. -/
theorem Locates.of_leaf_of_lt {key : UInt32} {root id : PageId} {first next : Option PageId}
    {entries a b : List Entry} {place : Trail 0 0}
    (hl : Locates key (.leaf root first entries) place id next a b)
    (hless : ∀ k ∈ entries.map Entry.key, k < key) :
    place = .top ∧ id = root ∧ next = first ∧ a = entries ∧ b = [] := by
  obtain ⟨rfl, rfl, rfl, rfl⟩ := hl.of_leaf
  have hb : b = [] := by
    refine List.eq_nil_iff_forall_not_mem.mpr fun y hy => ?_
    have hle : key ≤ y.key := hl.high y.key (List.mem_map_of_mem hy)
    exact UInt32.not_lt.mpr hle
      (hless y.key (List.mem_map_of_mem (List.mem_append_right a hy)))
  exact ⟨rfl, rfl, rfl, by rw [hb, List.append_nil], hb⟩

theorem lookup_leaf_eq_none {id : PageId} {next : Option PageId} {entries : List Entry}
    {key : UInt32} (hnew : key ∉ entries.map Entry.key) :
    lookup (Subtree.leaf id next entries).leaves.entries key = none := by
  rw [Subtree.leaves_leaf, Leaves.entries_cons, Leaves.entries_nil, List.append_nil]
  exact lookup_eq_none_iff.mpr hnew

/-- An entry with a new key comes behind the others. -/
theorem after_lookup {entries : List Entry} {x : Entry} (hnew : x.key ∉ entries.map Entry.key) :
    Contents.after (lookup entries) x.key x.value (.ok ()) = lookup (entries ++ [x]) := by
  funext key
  rw [← List.append_nil entries] at hnew
  rw [lookup_insert hnew, List.append_nil]
  rfl

section Inserted

variable {pager : Pager} {entries : List Entry} {q : PageId}

/-- A tree on one page takes in every new key.  If its leaf is full, it takes two more pages. -/
theorem exists_inserted {key : UInt32} {value : List UInt8}
    (h : pager.Stores (.leaf PageId.root none entries) q) (hone : pager.numPages = 1)
    (hnew : key ∉ entries.map Entry.key) (hvalue : value.length = Leaf.valueSize) :
    ∃ (after : Pager) (place : Trail 0 0) (id : PageId) (next : Option PageId) (a b : List Entry),
      (insert key value).run pager = .ok () after ∧
      Locates key (.leaf PageId.root none entries) place id next a b ∧
      after.numPages = (if entries.length < Leaf.maxCells then 1 else 3) ∧
      after.Stores (place.grown 1 id next a b { key, value }).2 q := by
  have hpages : ∀ {place : Trail 0 0} {id : PageId} {next : Option PageId} {a b : List Entry},
      Locates key (.leaf PageId.root none entries) place id next a b →
      1 + place.needed (a ++ b).length = if entries.length < Leaf.maxCells then 1 else 3 := by
    intro place id next a b hl
    obtain ⟨rfl, -, -, rfl⟩ := hl.of_leaf
    rw [Trail.needed]
    split <;> rfl
  obtain ⟨r, after, hrun, -, hinserted⟩ := exists_insert h key value
  cases hinserted with
  | duplicate hkey =>
    rw [lookup_leaf_eq_none hnew] at hkey
    cases hkey
  | mismatch _ hlength => exact absurd hvalue hlength
  | full _ _ hl hfull =>
    rw [hone, hpages hl] at hfull
    split at hfull <;> exact absurd hfull (by decide)
  | @taken place id next a b _ _ hl _ hnum hgrown =>
    rw [hone] at hnum hgrown
    exact ⟨after, place, id, next, a, b, hrun, hl, hnum.trans (hpages hl), hgrown⟩

/-- An entry behind all others goes to the end. -/
theorem exists_appended {x : Entry} (h : pager.Stores (.leaf PageId.root none entries) q)
    (hone : pager.numPages = 1) (hlen : entries.length < Leaf.maxCells)
    (hless : ∀ k ∈ entries.map Entry.key, k < x.key) (hvalue : x.value.length = Leaf.valueSize) :
    ∃ after : Pager, (insert x.key x.value).run pager = .ok () after ∧
      after.Stores (.leaf PageId.root none (entries ++ [x])) q ∧ after.numPages = 1 := by
  obtain ⟨after, place, id, next, a, b, hrun, hl, hnum, hgrown⟩ :=
    exists_inserted h hone (fun hmem => UInt32.lt_irrefl _ (hless _ hmem)) hvalue
  obtain ⟨rfl, rfl, rfl, rfl, rfl⟩ := hl.of_leaf_of_lt hless
  rw [if_pos hlen] at hnum
  rw [Trail.grown_of_room _ (by rwa [List.append_nil])] at hgrown
  exact ⟨after, hrun, hgrown, hnum⟩

end Inserted

/-- Ascending entries that fit one leaf are put there by a session. -/
theorem exists_reached_leaf {entries : List Entry} (hlen : entries.length ≤ Leaf.maxCells)
    (hkeys : (entries.map Entry.key).Pairwise (· < ·))
    (hvalue : ∀ entry ∈ entries, entry.value.length = Leaf.valueSize) :
    ∃ (pager : Pager) (q : PageId), Reached pager (lookup entries) ∧
      pager.Stores (.leaf PageId.root none entries) q ∧ pager.numPages = 1 := by
  induction entries using List.reverseRecOn with
  | nil =>
    obtain ⟨pager, hopen, hstores, hnum⟩ := exists_openAt_empty (.inl rfl)
    exact ⟨pager, _, .opened (.inl rfl) hopen, hstores, hnum⟩
  | append_singleton entries x ih =>
    rw [List.length_append, List.length_singleton] at hlen
    rw [List.map_append, List.pairwise_append] at hkeys
    have hless : ∀ k ∈ entries.map Entry.key, k < x.key :=
      fun k hk => hkeys.2.2 k hk x.key (by simp)
    obtain ⟨pager, q, hreached, hstores, hnum⟩ := ih (Nat.le_of_succ_le hlen) hkeys.1
      fun entry hentry => hvalue entry (List.mem_append_left _ hentry)
    obtain ⟨after, hrun, hafter, hone⟩ :=
      exists_appended hstores hnum hlen hless (hvalue x (by simp))
    refine ⟨after, q, ?_, hafter, hone⟩
    rw [← after_lookup fun hmem => UInt32.lt_irrefl _ (hless _ hmem)]
    exact .inserted hreached x.key x.value hrun

end RowStore.Tree
