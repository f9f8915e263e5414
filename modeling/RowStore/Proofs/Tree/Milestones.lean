/-
  RowStore/Proofs/Tree/Milestones.lean
  ====================================
  **How far a session gets.**  A session that inserts 0, 1, 2, … comes by two points that
  matter.  The first thirteen keys fill the root, and the next one splits it, so that there
  are two leaves below a branch.  And however well the keys are spread, the pages have places
  for only so many, so that at some key the table is full.
-/
import RowStore.Proofs.Tree.OneLeaf

namespace RowStore.Tree

/-! ## The keys -/

/-- A key with a value that is made of it. -/
def sample (key : UInt32) : Entry :=
  { key, value := List.replicate Leaf.valueSize key.toUInt8 }

theorem length_sample (key : UInt32) : (sample key).value.length = Leaf.valueSize :=
  List.length_replicate

/-- The first `n` keys. -/
def samples (n : Nat) : List Entry := (List.range n).map fun k => sample k.toUInt32

theorem length_value_of_mem_samples {n : Nat} {x : Entry} (hx : x ∈ samples n) :
    x.value.length = Leaf.valueSize := by
  obtain ⟨k, -, rfl⟩ := List.mem_map.mp hx
  exact length_sample _

theorem samples_succ (n : Nat) : samples (n + 1) = samples n ++ [sample n.toUInt32] := by
  rw [samples, List.range_succ, List.map_append]
  rfl

theorem map_key_samples (n : Nat) :
    (samples n).map Entry.key = (List.range n).map Nat.toUInt32 := by
  rw [samples, List.map_map]
  rfl

theorem nodup_samples {n : Nat} (hn : n ≤ UInt32.size) : ((samples n).map Entry.key).Nodup := by
  rw [map_key_samples]
  refine List.nodup_range.map_on fun i hi j hj he => ?_
  have hi : i < UInt32.size := Nat.lt_of_lt_of_le (List.mem_range.mp hi) hn
  have hj : j < UInt32.size := Nat.lt_of_lt_of_le (List.mem_range.mp hj) hn
  replace he := congrArg UInt32.toNat he
  rwa [UInt32.toNat_ofNat_of_lt' hi, UInt32.toNat_ofNat_of_lt' hj] at he

/-- The next key is new. -/
theorem notMem_samples {n : Nat} (hn : n < UInt32.size) :
    n.toUInt32 ∉ (samples n).map Entry.key := by
  have h := nodup_samples (show n + 1 ≤ UInt32.size from hn)
  rw [samples_succ, List.map_append, List.nodup_append] at h
  exact fun hmem => h.2.2 _ hmem _ List.mem_cons_self rfl

/-! ## The first split -/

/-- Two leaves below the root, with seven keys each. -/
def fourteen : Subtree 1 :=
  .branch PageId.root [.leaf ⟨2⟩ (some ⟨1⟩) (samples 7), .leaf ⟨1⟩ none ((samples 14).drop 7)]

/-- A session whose root is a full leaf, and what it comes to with the next key. -/
structure FirstSplit (full split : Pager) : Prop where
  reached : Reached full (lookup (samples 13))
  one : full.numPages = 1
  run : (insert 13 (sample 13).value).run full = .ok () split
  stores : ∃ q, split.Stores fourteen q
  three : split.numPages = 3

theorem exists_firstSplit : ∃ full split : Pager, FirstSplit full split := by
  obtain ⟨full, q, hreached, hstores, hone⟩ := exists_reached_leaf
    (show (samples 13).length ≤ Leaf.maxCells by decide) (by decide)
    fun _ => length_value_of_mem_samples
  obtain ⟨split, place, id, next, a, b, hrun, hl, hthree, hsplit⟩ := exists_inserted hstores hone
    (show (13 : UInt32) ∉ _ by decide) (length_sample 13)
  have hless : ((samples 13).map Entry.key).all (· < 13) = true := rfl
  obtain ⟨rfl, rfl, rfl, rfl, rfl⟩ := hl.of_leaf_of_lt fun k hk =>
    of_decide_eq_true (List.all_eq_true.mp hless k hk)
  exact ⟨full, split, hreached, hone, hrun, ⟨q, hsplit⟩, hthree⟩

theorem FirstSplit.reached_split {full split : Pager} (h : FirstSplit full split) :
    Reached split (lookup (samples 14)) := by
  rw [samples_succ 13, ← after_lookup (notMem_samples (by decide))]
  exact h.reached.inserted (r := .ok ()) 13 _ h.run

/-! ## The full table -/

/-- As long as the table is never full, the next key is taken in. -/
theorem exists_reached_samples {n : Nat} (hn : n < UInt32.size)
    (hroom : ∀ k < n, ∀ pager after : Pager, Reached pager (lookup (samples k)) →
      (insert k.toUInt32 (sample k.toUInt32).value).run pager ≠
        .error (.error .tableFull) after) :
    ∃ pager : Pager, Reached pager (lookup (samples n)) := by
  induction n with
  | zero =>
    obtain ⟨pager, hopen, -⟩ := exists_openAt_empty (.inl rfl)
    exact ⟨pager, .opened (.inl rfl) hopen⟩
  | succ n ih =>
    have hnew := notMem_samples (Nat.lt_of_succ_lt hn)
    obtain ⟨pager, hreached⟩ := ih (Nat.lt_of_succ_lt hn) fun k hk => hroom k (Nat.lt_succ_of_lt hk)
    obtain ⟨H, t, q, hstores, hcontents⟩ := hreached.exists_stores
    obtain ⟨r, after, hrun, -, hinserted⟩ :=
      exists_insert hstores n.toUInt32 (sample n.toUInt32).value
    cases hinserted with
    | duplicate hkey =>
      rw [← hcontents, lookup_eq_none_iff.mpr hnew] at hkey
      cases hkey
    | mismatch _ hvalue => exact absurd (length_sample _) hvalue
    | full => exact absurd hrun (hroom n (Nat.lt_succ_self n) pager after hreached)
    | taken =>
      rw [samples_succ, ← after_lookup hnew]
      exact ⟨after, hreached.inserted (r := .ok ()) _ _ hrun⟩

/-- No session has as many keys. -/
theorem not_reached_samples (pager : Pager) :
    ¬Reached pager (lookup (samples (maxPlaces + 1))) := by
  intro hreached
  obtain ⟨H, t, q, hstores, hcontents⟩ := hreached.exists_stores
  have hle := length_entries_le_maxPlaces hstores.sound.formed hstores.length_leaves_le
  have hsub : (samples (maxPlaces + 1)).map Entry.key ⊆ t.keys := by
    intro key hkey
    by_contra hnot
    rw [Subtree.keys, Leaves.keys, ← lookup_eq_none_iff, ← hcontents] at hnot
    exact lookup_eq_none_iff.mp hnot hkey
  have hlen := ((nodup_samples (by decide)).subperm hsub).length_le
  rw [map_key_samples, List.length_map, List.length_range, Subtree.keys, Leaves.keys,
    List.length_map] at hlen
  omega

/-- At some key a session finds the table full. -/
theorem exists_tableFull : ∃ (n : Nat) (pager after : Pager), n ≤ maxPlaces ∧
    Reached pager (lookup (samples n)) ∧
    (insert n.toUInt32 (sample n.toUInt32).value).run pager = .error (.error .tableFull) after := by
  by_contra hnone
  obtain ⟨pager, hreached⟩ := exists_reached_samples (n := maxPlaces + 1) (by decide)
    fun n hn pager after hreached hrun =>
      hnone ⟨n, pager, after, Nat.le_of_lt_succ hn, hreached, hrun⟩
  exact not_reached_samples pager hreached

/-- The key that finds the table full is new. -/
theorem lookup_samples_next {n : Nat} (hn : n ≤ maxPlaces) :
    lookup (samples n) n.toUInt32 = none :=
  lookup_eq_none_iff.mpr (notMem_samples (Nat.lt_of_le_of_lt hn (by decide)))

end RowStore.Tree
