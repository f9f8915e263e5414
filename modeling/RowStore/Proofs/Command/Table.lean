/-
  RowStore/Proofs/Command/Table.lean
  ==================================
  **Rows in a tree.**  A pager is a *table* of rows if its pages are those of a sound tree
  whose entries are the rows, each with its id for a key and its bytes for a value.  New
  trees are tables of nothing.  An insert adds its row to a table unless the id is there or
  the table is full, and a select gives all rows back, cut at NUL, in the order of their ids.
-/
import RowStore.Command.Statement
import RowStore.Proofs.Row
import RowStore.Proofs.Tree.Replay

namespace RowStore

open RowStore.Tree

/-! ## Rows and entries -/

/-- The entry that a row is stored as. -/
def Row.entry (row : Row) : Entry := { key := row.id, value := row.bytes }

/-- The row that an entry is read as. -/
def Entry.row (entry : Entry) : Row :=
  (Row.decode entry.value).toOption.getD { id := entry.key, username := "", email := "" }

theorem Row.row_entry {row : Row} (h : row.fits = true) : row.entry.row = row.cut := by
  rw [Entry.row, entry, decode_bytes h]
  rfl

theorem Row.map_key_entry (rows : List Row) :
    (rows.map entry).map Entry.key = rows.map Row.id := by
  rw [List.map_map]
  rfl

/-- A leaf whose page is one of a tree is a leaf of the tree. -/
theorem Subtree.mem_leaves {h : Nat} {t : Subtree h} {b isRoot : Bool} {q parent id : PageId}
    {next : Option PageId} {entries : List Entry}
    (hpage : (id, Reading.mk (some (.leaf isRoot next entries)) parent) ∈ t.heap b q) :
    LeafNode.mk id next entries ∈ t.leaves := by
  induction h, t using Subtree.ind generalizing b q with
  | leaf id next entries =>
    cases List.mem_singleton.mp hpage
    exact List.mem_cons_self
  | branch h id children ih =>
    rcases List.mem_cons.mp hpage with hpage | hpage
    · cases hpage
    · obtain ⟨child, hchild, hpage⟩ := List.mem_flatMap.mp hpage
      exact List.mem_flatMap.mpr ⟨child, hchild, ih child hchild hpage⟩

theorem Statement.run_insert {pager after : Pager} {row : Row} {r : Except Failure Unit}
    (hrow : row.fits = true) (hrun : (Tree.insert row.id row.bytes).run pager = outcome r after) :
    (run (.insert row)).run pager = outcome (r.map fun _ => .inserted row.id) after := by
  rw [run, Row.encode_eq hrow]
  exact (lift_bind_run rfl).trans (run_map hrun _)

theorem Statement.reads_selectRows {H : Nat} {t : Subtree H} {q : PageId} (hs : t.Sound)
    (hH : H < maxPages) (hleaves : t.leaves.length ≤ maxPages)
    (hrows : ∀ entry ∈ t.leaves.entries, Row.decode entry.value = .ok entry.row) :
    Reads selectRows (t.heap true q) (.ok (t.leaves.entries.map Entry.row)) := by
  refine reads_scan ?_ hs hH hleaves
  intro id parent isRoot next entries cell entry hpage hentry
  have hmem : entry ∈ t.leaves.entries := List.mem_flatMap.mpr
    ⟨_, Subtree.mem_leaves hpage, List.mem_of_getElem? hentry⟩
  exact Reads.bind (reads_value hpage hentry false) (hrows entry hmem ▸ Reads.lift _)

/-! ## Tables -/

/-- The pages are those of a sound tree that holds the rows, and the file is made of whole
    pages. -/
structure Table (pager : Pager) (rows : List Row) : Prop where
  stores : ∃ (H : Nat) (t : Subtree H) (q : PageId), pager.Stores t q ∧
    t.leaves.entries.Perm (rows.map Row.entry)
  fits : ∀ row ∈ rows, row.fits = true
  whole : pageSize ∣ pager.file.size

namespace Table

variable {pager after : Pager} {rows : List Row} {row : Row}

theorem settled (h : Table pager rows) : pager.Settled := by
  obtain ⟨H, t, q, hstores, -⟩ := h.stores
  exact ⟨⟨H, t, q, hstores⟩, h.whole⟩

theorem coherent (h : Table pager rows) : pager.Coherent := by
  obtain ⟨H, t, q, hstores, -⟩ := h.stores
  exact hstores.holds.coherent

theorem of_view (h : Table pager rows) (hafter : after.Coherent)
    (hview : after.view = pager.view) : Table after rows := by
  obtain ⟨H, t, q, hstores, hrows⟩ := h.stores
  exact ⟨⟨H, t, q, hstores.of_view hafter hview, hrows⟩, h.fits,
    (h.settled.of_view hafter hview).whole⟩

/-! ### Opening and saving -/

theorem exists_openAt {location : Location}
    (hlocation : location = .nothing ∨ location = .file #[]) :
    ∃ pager : Pager, openAt location = .ok pager ∧ Table pager [] ∧ pager.file = #[] := by
  obtain ⟨pager, hopen, hstores, -⟩ := exists_openAt_empty hlocation
  have hempty : location.openFile = .ok #[] := by
    rcases hlocation with rfl | rfl <;> rfl
  have hfile := file_of_openAt hempty hopen
  refine ⟨pager, hopen, ⟨⟨0, _, _, hstores, .nil⟩, fun _ h => absurd h List.not_mem_nil, ?_⟩, hfile⟩
  rw [hfile]
  exact Nat.dvd_zero pageSize

/-- A table that was saved and opened again has the same rows. -/
theorem exists_reopen (h : Table pager rows) : ∃ closed opened : Pager,
    close.run pager = .ok () closed ∧ openAt (.file closed.file) = .ok opened ∧
      Table opened rows ∧ opened.file = closed.file := by
  obtain ⟨H, t, q, hstores, hrows⟩ := h.stores
  obtain ⟨closed, opened, hclose, hopen, htwins, hopened⟩ := exists_reopen_settled h.settled
  exact ⟨closed, opened, hclose, hopen, ⟨⟨H, t, q, hstores.of_twins htwins, hrows⟩, h.fits,
    hopened.whole⟩, file_of_openAt rfl hopen⟩

/-! ### Statements -/

theorem perm_insert_entry (before a b after : List Entry) (x : Entry) :
    (before ++ (a ++ x :: b) ++ after).Perm (before ++ (a ++ b) ++ after ++ [x]) := by
  have hmiddle := @List.perm_middle _ x (before ++ a) (b ++ after)
  have hlast := (List.perm_append_singleton x (before ++ (a ++ b) ++ after)).symm
  simp only [List.append_assoc, List.cons_append] at hmiddle hlast ⊢
  exact hmiddle.trans hlast

/-- What can come of inserting a row into a table. -/
inductive Admits (pager after : Pager) (rows : List Row) (row : Row) :
    Except Failure Statement.Outcome → Prop where
  | duplicate (hid : row.id ∈ rows.map Row.id) (hview : after.view = pager.view) :
    Admits pager after rows row (.error (.error (.duplicateKey row.id)))
  | full (hid : row.id ∉ rows.map Row.id) (hview : after.view = pager.view) :
    Admits pager after rows row (.error (.error .tableFull))
  | taken (hid : row.id ∉ rows.map Row.id) (hafter : Table after (rows ++ [row])) :
    Admits pager after rows row (.ok (.inserted row.id))

theorem exists_insert (h : Table pager rows) (hrow : row.fits = true) :
    ∃ (r : Except Failure Statement.Outcome) (after : Pager),
      (Statement.run (.insert row)).run pager = outcome r after ∧ after.Coherent ∧
        after.file = pager.file ∧ Admits pager after rows row r := by
  obtain ⟨H, t, q, hstores, hrows⟩ := h.stores
  obtain ⟨r, after, hrun, hafter, hinserted⟩ := Tree.exists_insert hstores row.id row.bytes
  have hfile : after.file = pager.file := by
    obtain ⟨_, _, _, hrun', -, -, hfile, -⟩ :=
      (Pager.Twins.refl h.coherent).exists_run (steady_insert row.id row.bytes)
    obtain ⟨-, rfl⟩ := outcome_inj (hrun.symm.trans hrun')
    exact hfile
  have hids : ∀ key, lookup t.leaves.entries key = none ↔ key ∉ rows.map Row.id := by
    intro key
    rw [lookup_eq_none_iff, (hrows.map Entry.key).mem_iff, Row.map_key_entry]
  refine ⟨r.map fun _ => .inserted row.id, after, Statement.run_insert hrow hrun, hafter,
    hfile, ?_⟩
  cases hinserted with
  | duplicate hkey hview =>
    refine .duplicate ?_ hview
    by_contra hid
    rw [(hids _).mpr hid] at hkey
    cases hkey
  | mismatch _ hvalue => exact absurd (Row.length_bytes hrow) hvalue
  | full hkey _ _ _ hview => exact .full ((hids _).mp hkey) hview
  | taken hkey hvalue hplace _ _ hgrown =>
    refine .taken ((hids _).mp hkey) ⟨⟨_, _, q, hgrown, ?_⟩, ?_, hfile ▸ h.whole⟩
    · rw [Trail.entries_grown, List.map_append]
      rw [hplace.entries_eq] at hrows
      exact (perm_insert_entry _ _ _ _ _).trans (hrows.append_right _)
    · intro other hother
      rcases List.mem_append.mp hother with hother | hother
      · exact h.fits other hother
      · exact List.mem_singleton.mp hother ▸ hrow

/-- A new tree takes its first row. -/
theorem exists_insert_new {location : Location}
    (hlocation : location = .nothing ∨ location = .file #[]) (hrow : row.fits = true) :
    ∃ pager taken : Pager, openAt location = .ok pager ∧
      (Statement.run (.insert row)).run pager = .ok (.inserted row.id) taken := by
  obtain ⟨pager, hopen, hstores, hnum⟩ := exists_openAt_empty hlocation
  obtain ⟨r, taken, hrun, -, hinserted⟩ := Tree.exists_insert hstores row.id row.bytes
  have hok : r = .ok () := by
    cases hinserted with
    | duplicate hkey => cases hkey
    | mismatch _ hvalue => exact absurd (Row.length_bytes hrow) hvalue
    | full _ _ hplace hfull =>
      have hnil := List.append_eq_nil_iff.mp hplace.entries_eq.symm
      rw [(List.append_eq_nil_iff.mp hnil.1).2, hnum, Trail.needed, if_pos (by decide)] at hfull
      exact absurd hfull (by decide)
    | taken => rfl
  subst hok
  exact ⟨pager, taken, hopen, Statement.run_insert hrow hrun⟩

/-- Every entry of a table is read as one of its rows. -/
theorem exists_of_mem_entries {entries : List Entry} (hrows : entries.Perm (rows.map Row.entry))
    (hfits : ∀ row ∈ rows, row.fits = true) {entry : Entry} (hentry : entry ∈ entries) :
    ∃ row : Row, row.fits = true ∧ entry = row.entry := by
  obtain ⟨row, hrow, rfl⟩ := List.mem_map.mp (hrows.subset hentry)
  exact ⟨row, hfits row hrow, rfl⟩

theorem exists_select (h : Table pager rows) : ∃ (found : List Row) (after : Pager),
    (Statement.run .select).run pager = outcome (.ok (.rows found)) after ∧ after.Coherent ∧
      after.view = pager.view ∧ found.Perm (rows.map Row.cut) ∧
      (found.map Row.id).Pairwise (· < ·) := by
  obtain ⟨H, t, q, hstores, hrows⟩ := h.stores
  have hentry : ∀ entry ∈ t.leaves.entries,
      Row.decode entry.value = .ok entry.row ∧ entry.row.id = entry.key := by
    intro entry hmem
    obtain ⟨row, hrow, rfl⟩ := exists_of_mem_entries hrows h.fits hmem
    rw [Row.row_entry hrow]
    exact ⟨Row.decode_bytes hrow, rfl⟩
  obtain ⟨after, hrun, hafter, hview⟩ := hstores.run_reads (Statement.reads_selectRows hstores.sound
    hstores.height_lt hstores.length_leaves_le fun entry hmem => (hentry entry hmem).1)
  refine ⟨t.leaves.entries.map Entry.row, after, run_map hrun _, hafter, hview, ?_, ?_⟩
  · have hcut : (rows.map Row.entry).map Entry.row = rows.map Row.cut := by
      rw [List.map_map]
      exact List.map_congr_left fun row hrow => Row.row_entry (h.fits row hrow)
    rw [← hcut]
    exact hrows.map Entry.row
  · have hkeys : (t.leaves.entries.map Entry.row).map Row.id = t.keys := by
      rw [List.map_map]
      exact List.map_congr_left fun entry hmem => (hentry entry hmem).2
    rw [hkeys]
    exact hstores.sound.ascending

end Table

/-! ## Statements one after the other -/

namespace Statement

theorem fits_of_parseRow {fields : List String} {row : Row} (h : parseRow fields = .ok row) :
    row.fits = true := by
  rw [parseRow.eq_def] at h
  split at h
  · obtain ⟨id, -, h⟩ := exists_of_bind_eq_ok h
    simp only [Row.ofFields?] at h
    split_ifs at h with hfits
    cases h
    exact hfits
  · cases h

/-- The texts of a row that was read fit their columns. -/
theorem fits_of_parse {line : String} {row : Row} (h : parse line = .ok (.insert row)) :
    row.fits = true := by
  rw [parse] at h
  split at h
  · rename_i fields _
    cases hfields : parseRow fields with
    | error e =>
      rw [hfields] at h
      cases h
    | ok found =>
      rw [hfields] at h
      cases h
      exact fits_of_parseRow hfields
  · cases h
  · cases h

/-- The rows that a statement has added, given what came of it. -/
def added : Statement → Except Failure Outcome → List Row
  | insert row, .ok _ => [row]
  | _, _ => []

/-- The pagers that one comes to by running statements from a new tree on, with the rows of
    the inserts that succeeded.  The tree may be saved and opened again in between. -/
inductive Ran : Pager → List Row → Prop where
  | opened {location : Location} {pager : Pager}
    (hlocation : location = .nothing ∨ location = .file #[]) (hopen : openAt location = .ok pager) :
    Ran pager []
  | run {pager after : Pager} {rows : List Row} {line : String} {statement : Statement}
    {r : Except Failure Outcome} (h : Ran pager rows)
    (hparse : Statement.parse line = .ok statement)
    (hrun : statement.run.run pager = outcome r after) : Ran after (rows ++ statement.added r)
  | reopened {pager closed after : Pager} {rows : List Row} (h : Ran pager rows)
    (hclose : close.run pager = .ok () closed) (hopen : openAt (.file closed.file) = .ok after) :
    Ran after rows

theorem Ran.table {pager : Pager} {rows : List Row} (h : Ran pager rows) : Table pager rows := by
  induction h with
  | opened hlocation hopen =>
    obtain ⟨pager, hopen', htable, -⟩ := Table.exists_openAt hlocation
    obtain rfl := Except.ok.inj (hopen.symm.trans hopen')
    exact htable
  | @run pager after rows line statement r _ hparse hrun ih =>
    cases statement with
    | insert row =>
      obtain ⟨r', after', hrun', hafter, -, hadmits⟩ := ih.exists_insert (fits_of_parse hparse)
      obtain ⟨rfl, rfl⟩ := outcome_inj (hrun.symm.trans hrun')
      cases hadmits with
      | duplicate _ hview => exact (List.append_nil rows).symm ▸ ih.of_view hafter hview
      | full _ hview => exact (List.append_nil rows).symm ▸ ih.of_view hafter hview
      | taken _ htable => exact htable
    | select =>
      obtain ⟨found, after', hrun', hafter, hview, -⟩ := ih.exists_select
      obtain ⟨rfl, rfl⟩ := outcome_inj (hrun.symm.trans hrun')
      exact (List.append_nil rows).symm ▸ ih.of_view hafter hview
  | reopened _ hclose hopen ih =>
    obtain ⟨closed, opened, hclose', hopen', htable, -⟩ := ih.exists_reopen
    obtain ⟨-, rfl⟩ := EStateM.Result.ok.inj (hclose.symm.trans hclose')
    obtain rfl := Except.ok.inj (hopen.symm.trans hopen')
    exact htable

/-- **Statements keep a table of rows.**  Whatever statements were run before, an insert is
    refused as a duplicate exactly if an earlier insert of its id succeeded, and else it
    succeeds or finds the table full.  A select gives each row that was inserted, once, with
    its texts cut at their first NUL, in ascending order of the ids.  And the tree can be
    saved and opened again. -/
theorem statements_keep_rows {pager : Pager} {rows : List Row} (h : Ran pager rows) :
    (∀ (line : String) (row : Row), Statement.parse line = .ok (.insert row) →
      ∃ (r : Except Failure Outcome) (after : Pager),
        (run (.insert row)).run pager = outcome r after ∧
        (r = .error (.error (.duplicateKey row.id)) ↔ row.id ∈ rows.map Row.id) ∧
        (r = .ok (.inserted row.id) ∨ r = .error (.error .tableFull) ↔
          row.id ∉ rows.map Row.id)) ∧
    (∃ (found : List Row) (after : Pager), (run .select).run pager = .ok (.rows found) after ∧
      found.Perm (rows.map Row.cut) ∧ (found.map Row.id).Pairwise (· < ·) ∧
      ∀ row ∈ rows, '\x00' ∉ row.username.toList → '\x00' ∉ row.email.toList → row ∈ found) ∧
    ∃ closed later : Pager, close.run pager = .ok () closed ∧
      openAt (.file closed.file) = .ok later := by
  have htable := h.table
  refine ⟨fun line row hparse => ?_, ?_, ?_⟩
  · obtain ⟨r, after, hrun, -, -, hadmits⟩ := htable.exists_insert (fits_of_parse hparse)
    refine ⟨r, after, hrun, ?_⟩
    cases hadmits with
    | duplicate hid => simp [hid]
    | full hid => simp [hid]
    | taken hid => simp [hid]
  · obtain ⟨found, after, hrun, -, -, hperm, hids⟩ := htable.exists_select
    refine ⟨found, after, hrun, hperm, hids, fun row hrow husername hemail => ?_⟩
    rw [← Row.cut_of_not_mem husername hemail]
    exact hperm.mem_iff.mpr (List.mem_map_of_mem hrow)
  · obtain ⟨closed, later, hclose, hopen, -⟩ := htable.exists_reopen
    exact ⟨closed, later, hclose, hopen⟩

/-- A row whose text has a NUL in it is put into a new tree and comes back cut.  Another
    insert of its id is refused. -/
theorem statements_keep_rows_new : ∃ pager taken after later : Pager,
    openAt .nothing = .ok pager ∧
    parse "insert 7 a\x00b c" = .ok (.insert { id := 7, username := "a\x00b", email := "c" }) ∧
    (run (.insert { id := 7, username := "a\x00b", email := "c" })).run pager =
      .ok (.inserted 7) taken ∧
    (run .select).run taken =
      .ok (.rows [{ id := 7, username := "a", email := "c" }]) after ∧
    (run (.insert { id := 7, username := "a\x00b", email := "c" })).run taken =
      .error (.error (.duplicateKey 7)) later := by
  have hparse : parse "insert 7 a\x00b c" =
      .ok (.insert { id := 7, username := "a\x00b", email := "c" }) := by decide
  have hcut : Row.cut { id := 7, username := "a\x00b", email := "c" } =
      { id := 7, username := "a", email := "c" } := by decide
  obtain ⟨pager, taken, hopen, hrun⟩ := Table.exists_insert_new (.inl rfl) (fits_of_parse hparse)
  have hran := (Ran.opened (.inl rfl) hopen).run hparse (r := .ok (.inserted 7)) hrun
  obtain ⟨hinsert, ⟨found, after, hselect, hperm, -⟩, -⟩ := statements_keep_rows hran
  obtain ⟨r, later, hagain, hduplicate, -⟩ := hinsert _ _ hparse
  obtain rfl := hduplicate.mpr List.mem_cons_self
  obtain rfl : found = [_] := List.perm_singleton.mp hperm
  rw [hcut] at hselect
  exact ⟨pager, taken, after, later, hopen, hparse, hrun, hselect, hagain⟩

end Statement
end RowStore
