/-
  RowStore/Proofs/Tree/Contract.lean
  ==================================
  **What a session can rely on.**  To its callers a tree is a map from keys to values: an
  insert is taken in, or refused for one of three reasons, and every other operation
  succeeds and answers for the map.  An insert that was refused has changed nothing.
-/
import RowStore.Proofs.Tree.Milestones

namespace RowStore.Tree

variable {pager after : Pager} {M : Contents}

namespace Reached

theorem run_get (h : Reached pager M) (key : UInt32) :
    ∃ later, (Tree.get key).run pager = .ok (M key) later := by
  obtain ⟨H, t, q, hstores, hcontents⟩ := h.exists_stores
  obtain ⟨later, hrun, -, -⟩ :=
    hstores.run_reads (reads_get hstores.sound hstores.height_lt key q)
  rw [← hcontents] at hrun
  exact ⟨later, hrun⟩

theorem run_findKey (h : Reached pager M) (key : UInt32) :
    ∃ cursor later, (findKey key).run pager = .ok cursor later := by
  obtain ⟨H, t, q, hstores, -⟩ := h.exists_stores
  obtain ⟨cursor, hfind⟩ := reads_findKey hstores.sound hstores.height_lt key
  obtain ⟨later, hrun, -, -⟩ := hstores.run_reads (hfind q)
  exact ⟨cursor, later, hrun⟩

theorem run_keys (h : Reached pager M) : ∃ ks later, keys.run pager = .ok ks later ∧
    ks.Pairwise (· < ·) ∧ ∀ key : UInt32, key ∈ ks ↔ M key ≠ none := by
  obtain ⟨H, t, q, hstores, hcontents⟩ := h.exists_stores
  obtain ⟨later, hrun, -, -⟩ := hstores.run_reads
    (reads_keys hstores.sound hstores.height_lt hstores.length_leaves_le)
  refine ⟨t.keys, later, hrun, hstores.sound.ascending, fun key => ?_⟩
  rw [hcontents, ne_eq, lookup_eq_none_iff, not_not]
  rfl

theorem run_reopen (h : Reached pager M) : ∃ closed later,
    close.run pager = .ok () closed ∧ openAt (.file closed.file) = .ok later := by
  obtain ⟨H, t, q, hstores, -⟩ := h.exists_stores
  obtain ⟨closed, later, hclose, hopen, -⟩ := exists_reopen hstores
  exact ⟨closed, later, hclose, hopen⟩

theorem run_insert (h : Reached pager M) (key : UInt32) (value : List UInt8) :
    ∃ (r : Except Failure Unit) (after : Pager), (insert key value).run pager = outcome r after ∧
      (r = .error (.error (.duplicateKey key)) ↔ M key ≠ none) ∧
      (r = .error (.error (.valueSizeMismatch Leaf.valueSize value.length)) ↔
        M key = none ∧ value.length ≠ Leaf.valueSize) ∧
      (r = .ok () ∨ r = .error (.error .tableFull) ↔
        M key = none ∧ value.length = Leaf.valueSize) := by
  obtain ⟨H, t, q, hstores, hcontents⟩ := h.exists_stores
  obtain ⟨r, after, hrun, -, hinserted⟩ := exists_insert hstores key value
  refine ⟨r, after, hrun, ?_⟩
  rw [hcontents]
  cases hinserted with
  | duplicate hkey => simp [hkey]
  | mismatch hkey hvalue => simp [hkey, hvalue]
  | full hkey hvalue => simp [hkey, hvalue]
  | taken hkey hvalue => simp [hkey, hvalue]

/-- A key that is there is not taken in again. -/
theorem run_insert_duplicate (h : Reached pager M) {key : UInt32} (hkey : M key ≠ none)
    (value : List UInt8) :
    ∃ after, (insert key value).run pager = .error (.error (.duplicateKey key)) after := by
  obtain ⟨r, after, hrun, hduplicate, -⟩ := h.run_insert key value
  rw [hduplicate.mpr hkey] at hrun
  exact ⟨after, hrun⟩

end Reached

/-- A session refines a map.  An insert is refused as a duplicate exactly if the key is
    there, else for its length exactly if that is wrong, and else it is taken in or the
    table is full.  All other operations succeed. -/
theorem session_refines_map (h : Reached pager M) :
    (∀ (key : UInt32) (value : List UInt8), ∃ (r : Except Failure Unit) (after : Pager),
      (insert key value).run pager = outcome r after ∧
      (r = .error (.error (.duplicateKey key)) ↔ M key ≠ none) ∧
      (r = .error (.error (.valueSizeMismatch Leaf.valueSize value.length)) ↔
        M key = none ∧ value.length ≠ Leaf.valueSize) ∧
      (r = .ok () ∨ r = .error (.error .tableFull) ↔
        M key = none ∧ value.length = Leaf.valueSize) ∧
      ∀ k : UInt32, ∃ later, (Tree.get k).run after = .ok (M.after key value r k) later) ∧
    (∀ key : UInt32, ∃ later, (Tree.get key).run pager = .ok (M key) later) ∧
    (∀ key : UInt32, ∃ cursor later, (findKey key).run pager = .ok cursor later) ∧
    (∃ ks later, keys.run pager = .ok ks later ∧ ks.Pairwise (· < ·) ∧
      ∀ key : UInt32, key ∈ ks ↔ M key ≠ none) ∧
    ∃ closed later, close.run pager = .ok () closed ∧ openAt (.file closed.file) = .ok later := by
  refine ⟨fun key value => ?_, h.run_get, h.run_findKey, h.run_keys, h.run_reopen⟩
  obtain ⟨r, after, hrun, hduplicate, hmismatch, htaken⟩ := h.run_insert key value
  exact ⟨r, after, hrun, hduplicate, hmismatch, htaken, (h.inserted key value hrun).run_get⟩

/-- The key that splits the root is there afterwards.  It is not taken in again, and neither
    is a value of the wrong length. -/
theorem session_refines_map_fourteen : ∃ full split : Pager, FirstSplit full split ∧
    (∃ later, (Tree.get 13).run split = .ok (some (sample 13).value) later) ∧
    (∃ later, (Tree.get 14).run split = .ok none later) ∧
    (∃ after, (insert 13 []).run split = .error (.error (.duplicateKey 13)) after) ∧
    (∃ after, (insert 14 []).run split =
      .error (.error (.valueSizeMismatch Leaf.valueSize 0)) after) ∧
    ∃ ks later, keys.run split = .ok ks later ∧ ks.Pairwise (· < ·) ∧
      ∀ key : UInt32, key ∈ ks ↔ lookup (samples 14) key ≠ none := by
  obtain ⟨full, split, h⟩ := exists_firstSplit
  have hmissing : lookup (samples 14) 14 = none := rfl
  obtain ⟨hinsert, -⟩ := session_refines_map h.reached
  obtain ⟨r, after, hrun, -, -, -, hget⟩ := hinsert 13 (sample 13).value
  obtain ⟨rfl, rfl⟩ := outcome_inj (r := .ok ()) (h.run.symm.trans hrun)
  obtain ⟨hinsert', hget', -, hkeys, -⟩ := session_refines_map h.reached_split
  obtain ⟨r, twice, htwice, hduplicate, -⟩ := hinsert' 13 []
  rw [hduplicate.mpr (by decide)] at htwice
  obtain ⟨r, short, hshort, -, hmismatch, -⟩ := hinsert' 14 []
  rw [hmismatch.mpr ⟨hmissing, by decide⟩] at hshort
  exact ⟨full, split, h, hget 13, hmissing ▸ hget' 14, ⟨twice, htwice⟩, ⟨short, hshort⟩, hkeys⟩

/-- An insert that fails, for whatever reason, leaves every page, the number of pages and
    the file as they were. -/
theorem failed_insert_changes_nothing {failure : Failure} {key : UInt32} {value : List UInt8}
    (h : Reached pager M) (hrun : (insert key value).run pager = .error failure after) :
    after.content = pager.content ∧ after.numPages = pager.numPages ∧ after.file = pager.file := by
  obtain ⟨H, t, q, hstores, -⟩ := h.exists_stores
  obtain ⟨r, after', hrun', -, hinserted⟩ := exists_insert hstores key value
  have houtcome : outcome (.error failure) after = outcome r after' := hrun.symm.trans hrun'
  obtain ⟨rfl, rfl⟩ := outcome_inj houtcome
  have hview : after.view = pager.view := by
    cases hinserted with
    | duplicate _ hview => exact hview
    | mismatch _ _ hview => exact hview
    | full _ _ _ _ hview => exact hview
  exact ⟨congrArg View.page hview, congrArg View.numPages hview, congrArg View.file hview⟩

/-- A key that is there, in a tree of two leaves, and a key that finds the table full. -/
theorem failed_insert_changes_nothing_full :
    (∃ full split after : Pager, FirstSplit full split ∧
      (insert 7 (sample 7).value).run split = .error (.error (.duplicateKey 7)) after ∧
      after.content = split.content ∧ after.numPages = split.numPages ∧
      after.file = split.file) ∧
    ∃ (n : Nat) (pager after : Pager), Reached pager (lookup (samples n)) ∧
      (insert n.toUInt32 (sample n.toUInt32).value).run pager =
        .error (.error .tableFull) after ∧
      after.content = pager.content ∧ after.numPages = pager.numPages ∧
      after.file = pager.file := by
  constructor
  · obtain ⟨full, split, h⟩ := exists_firstSplit
    obtain ⟨after, hrun⟩ :=
      h.reached_split.run_insert_duplicate (show lookup (samples 14) 7 ≠ none by decide)
        (sample 7).value
    exact ⟨full, split, after, h, hrun, failed_insert_changes_nothing h.reached_split hrun⟩
  · obtain ⟨n, pager, after, -, hreached, hrun⟩ := exists_tableFull
    exact ⟨n, pager, after, hreached, hrun, failed_insert_changes_nothing hreached hrun⟩

end RowStore.Tree
