/-
  RowStore/Proofs/Tree/Range.lean
  ===============================
  **Scanning from a key on.**  A search ends at the first entry whose key is not smaller, or
  behind the last cell of the last leaf.  From there a scan comes by just the entries with
  keys that are not smaller, because the chain of leaves has the order of the tree.

  A search leaves its cursor before the end even if nothing is there.  Such a scan visits one
  place without an entry, and then ends.  A scan from the smallest key knows an empty tree for
  what it is, and visits nothing.
-/
import RowStore.Proofs.Tree.OneLeaf

namespace RowStore

variable {H : Nat}

/-- The entry under the cursor, or none behind the last cell of the leaf. -/
def Cursor.entry (cursor : Cursor) : PagerM (Option Entry) := do
  match ← cursor.key with
  | some key => return some { key, value := ← cursor.value }
  | none => return none

/-- In a list without a key that stands twice, every entry is found by its key. -/
theorem mem_iff_lookup {entries : List Entry}
    (hkeys : (entries.map Entry.key).Pairwise (· < ·)) (e : Entry) :
    e ∈ entries ↔ lookup entries e.key = some e.value := by
  induction entries with
  | nil => simp [lookup]
  | cons x entries ih =>
    obtain ⟨hx, hrest⟩ := List.pairwise_cons.mp hkeys
    rw [List.mem_cons, ih hrest, lookup_cons]
    by_cases he : x.key = e.key
    · -- Behind `x` no entry has its key.
      have hnone : lookup entries e.key = none :=
        lookup_eq_none_iff.mpr fun hmem => UInt32.lt_irrefl _ (he ▸ hx _ hmem)
      rw [if_pos he, hnone]
      refine ⟨fun h => ?_, fun h => .inl ?_⟩
      · rcases h with rfl | h
        · rfl
        · cases h
      · obtain ⟨key, value⟩ := x
        obtain rfl : key = e.key := he
        obtain rfl := Option.some.inj h
        rfl
    · rw [if_neg he]
      exact ⟨fun h => h.resolve_left fun h => he (congrArg Entry.key h.symm), .inr⟩

/-- Ascending entries are the same if they are as a set. -/
theorem eq_of_mem_iff {a b : List Entry} (ha : (a.map Entry.key).Pairwise (· < ·))
    (hb : (b.map Entry.key).Pairwise (· < ·)) (h : ∀ e, e ∈ a ↔ e ∈ b) : a = b := by
  have hnodup : ∀ {l : List Entry}, (l.map Entry.key).Pairwise (· < ·) → l.Nodup :=
    fun hl => List.Nodup.of_map Entry.key (hl.imp UInt32.ne_of_lt)
  rw [List.pairwise_map] at ha hb
  refine List.Perm.eq_of_pairwise (fun x y _ _ hxy hyx => ?_) ha hb
    ((List.perm_ext_iff_of_nodup (hnodup (List.pairwise_map.mpr ha))
      (hnodup (List.pairwise_map.mpr hb))).mpr h)
  exact absurd (UInt32.lt_trans hxy hyx) (UInt32.lt_irrefl _)

namespace Tree

/-! ## Entries -/

theorem reads_entry {K : Heap} {id parent : PageId} {isRoot : Bool} {next : Option PageId}
    {entries : List Entry} (h : (id, ⟨some (.leaf isRoot next entries), parent⟩) ∈ K) (cell : Nat) :
    Reads (Cursor.entry { page := id, cell, atEnd := false }) K (.ok entries[cell]?) := by
  refine Reads.bind (reads_key h cell false) ?_
  cases hentry : entries[cell]? with
  | none => exact Reads.pure _
  | some entry => exact Reads.bind (reads_value h hentry false) (Reads.pure _)

theorem visits_entry (K : Heap) : Visits Cursor.entry some K := by
  intro id parent isRoot next entries cell entry h hentry
  exact hentry ▸ reads_entry h cell

/-! ## Scans from a key on -/

/-- The entries whose keys are not smaller than `key`. -/
def entriesFrom (key : UInt32) (entries : List Entry) : List Entry :=
  entries.filter fun entry => key ≤ entry.key

theorem entriesFrom_of_lt {key : UInt32} {entries : List Entry}
    (h : ∀ k ∈ entries.map Entry.key, k < key) : entriesFrom key entries = [] :=
  List.filter_eq_nil_iff.mpr fun entry hentry => by
    simpa using h entry.key (List.mem_map_of_mem hentry)

theorem entriesFrom_of_le {key : UInt32} {entries : List Entry}
    (h : ∀ k ∈ entries.map Entry.key, key ≤ k) : entriesFrom key entries = entries :=
  List.filter_eq_self.mpr fun entry hentry =>
    decide_eq_true (h entry.key (List.mem_map_of_mem hentry))

section Located

variable {key : UInt32} {t : Subtree H} {place : Trail H 0} {id : PageId} {next : Option PageId}
variable {a b : List Entry}

/-- Behind the place of a key stand just the entries whose keys are not smaller. -/
theorem Locates.entriesFrom_eq (hl : Locates key t place id next a b) :
    entriesFrom key t.leaves.entries = b ++ place.after.entries := by
  have hafter : ∀ k ∈ place.after.entries.map Entry.key, key ≤ k :=
    fun k hk => UInt32.le_of_lt (hl.after k hk)
  have happend (x y : List Entry) :
      entriesFrom key (x ++ y) = entriesFrom key x ++ entriesFrom key y := List.filter_append ..
  rw [hl.entries_eq, happend, happend, happend, entriesFrom_of_lt hl.before,
    entriesFrom_of_lt hl.low, entriesFrom_of_le hl.high, entriesFrom_of_le hafter]
  simp

theorem reads_scanFrom (hl : Locates key t place id next a b) (hs : t.Sound) (hH : H < maxPages)
    (hleaves : t.leaves.length ≤ maxPages) (q : PageId) :
    Reads (do scanWithin Cursor.entry maxPlaces (← findKey key)) (t.heap true q)
      (.ok (if entriesFrom key t.leaves.entries = [] then [none]
        else (entriesFrom key t.leaves.entries).map some)) := by
  refine Reads.bind (hl.reads_findKey hs hH q) ?_
  rw [hl.entriesFrom_eq]
  cases b with
  | nil =>
    -- The cursor is behind the last cell of the tree.
    have hchained := (hl.chained hs).1
    have hempty : [] ++ Leaves.entries [] = [] := rfl
    rw [hl.after_eq_nil] at hchained ⊢
    obtain rfl : next = none := hchained
    have hpage := hl.mem_heap q
    rw [if_pos hempty, show maxPlaces = (maxPlaces - 1) + 1 from rfl, scanWithin]
    simp only [Bool.false_eq_true, if_false]
    refine Reads.bind (reads_entry hpage a.length) ?_
    refine Reads.bind (reads_advance hpage a.length) ?_
    rw [List.append_nil, if_neg (Nat.not_succ_lt_self), List.getElem?_eq_none (Nat.le_refl _)]
    exact Reads.bind (reads_scanWithin_end _ _ _ _ _) (Reads.pure _)
  | cons entry todo =>
    have hsome : entry :: todo ++ place.after.entries ≠ [] := List.cons_ne_nil _ _
    rw [if_neg hsome]
    exact hl.reads_scanWithin (visits_entry _) hs hleaves
      (iff_of_false Bool.false_ne_true (List.cons_ne_nil _ _))

end Located

/-! ## Scans of what a session has put in -/

/-- **A scan visits a range of the keys.**  In a session there is one list of all entries, in
    ascending order and each with its value.  A scan from any key on, be it there or not,
    visits those of the list whose keys are not smaller, and comes to its end without an
    error.  If there are none, it visits one place that has no entry.  A scan from the
    smallest key visits the whole list, which a scan from 0 on does as well. -/
theorem range_scans {pager : Pager} {M : Contents} (h : Reached pager M) : ∃ all : List Entry,
    (all.map Entry.key).Pairwise (· < ·) ∧
    (∀ e, e ∈ all ↔ M e.key = some e.value) ∧
    (∀ key, ∃ after, (do scanWithin Cursor.entry maxPlaces (← findKey key)).run pager =
      .ok (if entriesFrom key all = [] then [none] else (entriesFrom key all).map some) after) ∧
    (∃ after, (scan Cursor.entry).run pager = .ok (all.map some) after) ∧
    entriesFrom 0 all = all := by
  obtain ⟨H, t, q, hstores, hcontents⟩ := h.exists_stores
  have hH := hstores.height_lt
  have hleaves := hstores.length_leaves_le
  refine ⟨t.leaves.entries, hstores.sound.ascending, fun e => ?_, fun key => ?_, ?_,
    entriesFrom_of_le fun _ _ => UInt32.zero_le⟩
  · rw [hcontents]
    exact mem_iff_lookup hstores.sound.ascending e
  · obtain ⟨place, id, next, a, b, hl⟩ := exists_locates hstores.sound key
    obtain ⟨after, hrun, -⟩ := hstores.run_reads (reads_scanFrom hl hstores.sound hH hleaves q)
    exact ⟨after, hrun⟩
  · obtain ⟨after, hrun, -⟩ :=
      hstores.run_reads (reads_scan (visits_entry _) hstores.sound hH hleaves)
    exact ⟨after, hrun⟩

/-- Between two keys, and behind both of them. -/
theorem range_scans_two : ∃ (pager : Pager) (low high : Entry), low.key = 5 ∧ high.key = 9 ∧
    Reached pager (lookup [low, high]) ∧
    (∃ after, (do scanWithin Cursor.entry maxPlaces (← findKey 7)).run pager =
      .ok [some high] after) ∧
    (∃ after, (do scanWithin Cursor.entry maxPlaces (← findKey 10)).run pager =
      .ok [none] after) ∧
    ∃ after, (scan Cursor.entry).run pager = .ok [some low, some high] after := by
  let low : Entry := { key := 5, value := List.replicate Leaf.valueSize 0 }
  let high : Entry := { key := 9, value := List.replicate Leaf.valueSize 1 }
  have hascending : ([low, high].map Entry.key).Pairwise (· < ·) := by decide
  obtain ⟨pager, -, hreached, -⟩ := exists_reached_leaf (show [low, high].length ≤ _ by decide)
    hascending (by simp [low, high])
  obtain ⟨all, hkeys, hmem, hfrom, hscan, -⟩ := range_scans hreached
  obtain rfl : all = [low, high] := eq_of_mem_iff hkeys hascending fun e =>
    (hmem e).trans (mem_iff_lookup hascending e).symm
  exact ⟨pager, low, high, rfl, rfl, hreached, hfrom 7, hfrom 10, hscan⟩

end Tree
end RowStore
