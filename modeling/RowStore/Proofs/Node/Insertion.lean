/-
  RowStore/Proofs/Node/Insertion.lean
  ===================================
  **One more cell.**  A cell is inserted by moving bytes: those of the later cells go up by one
  cell, into their own place or into free space, and the count is raised only then.  Seen
  through the cells it is insertion into a list.

  This holds of every page that is accepted as a node and has room, whatever its cells hold,
  and at every index up to the count.  What stands in front of the cells stays, but for the
  count, and so does everything behind the cells, the new last one included.
-/
import RowStore.Proofs.Node.Fields

namespace RowStore

/-- Cells that are read one by one, after one more was put in between. -/
theorem map_range_insertIdx {α : Type} {f g : Nat → α} {n i : Nat} {a : α} (hi : i ≤ n)
    (hbelow : ∀ j, j < i → g j = f j) (hnew : g i = a)
    (habove : ∀ j, i ≤ j → j < n → g (j + 1) = f j) :
    (List.range (n + 1)).map g = ((List.range n).map f).insertIdx i a := by
  have hlen : ((List.range n).map f).length = n := by simp
  have hmore := List.length_insertIdx_of_le_length (hlen.symm ▸ hi) a
  refine map_range_eq (by omega) fun j hj => ?_
  have hget := getElem?_insertIdx_of hi (Nat.le_of_eq hlen.symm) (fun j hj => by simp [hj]) hbelow
    hnew habove (show j < n + 1 by omega)
  rw [List.getElem?_eq_getElem hj] at hget
  exact (Option.some.inj hget).symm

/-- The bytes in front of the count have the header in them. -/
theorem Header.decode_congr {id : PageId} {page after : Page}
    (h : ∀ k, k < 6 → after.byte k = page.byte k) : decode id after = decode id page :=
  local_field .whole page after fun k hk => h k (lt_of_covers hk)

/-! ## Leaves -/

namespace Leaf

/-- The cells in order, as entries. -/
def entries (leaf : Leaf) : Except Failure (List Entry) :=
  (List.range leaf.count).mapM fun i => do
    return { key := ← leaf.key i, value := ← leaf.value i }

variable {id : PageId} {page : Page}

theorem entries_eq (h : countIn page ≤ maxCells) :
    entries { id, page } = .ok (entriesIn page) := by
  refine mapM_eq_ok fun i hi => ?_
  have hlt : i < maxCells := Nat.lt_of_lt_of_le (List.mem_range.mp hi) h
  rw [key, value, Says.cellOffset_eq hlt]
  rfl

theorem Says.entriesIn_eq {isRoot : Bool} {next : Option PageId} {entries : List Entry}
    (h : Says page isRoot next entries) : entriesIn page = entries :=
  map_range_eq h.count h.entry

theorem insertCell_entriesIn {i : Nat} {key : UInt32} {value : List UInt8} (id : PageId)
    (hroom : countIn page < maxCells) (hi : i ≤ countIn page)
    (hvalue : value.length = valueSize) :
    ∃ after : Page, (insertCell id i key value).run page = .ok () after ∧
      countIn after = countIn page + 1 ∧
      entriesIn after = (entriesIn page).insertIdx i { key, value } ∧
      ∀ k, k < 6 ∨ (10 ≤ k ∧ k < 14) ∨ cellStart (countIn page + 1) ≤ k →
        after.byte k = page.byte k := by
  obtain ⟨after, hrun, hcount, hnew, hbelow, habove, hbyte⟩ :=
    exists_insertCell id key rfl hroom hi hvalue
  refine ⟨after, hrun, hcount, ?_, hbyte⟩
  rw [entriesIn, hcount]
  exact map_range_insertIdx hi (fun j hj => entryAt_congr fun x hx => hbelow j x hj hx) hnew
    fun j hj hlt => entryAt_congr fun x hx => habove j x hj hlt hx

end Leaf

/-! ## Branches -/

namespace Branch

/-- The cells of a page in order, children as they are stored. -/
def cellsIn (page : Page) : List (PageId × UInt32) :=
  (List.range (countIn page)).map fun i => (childAt page i, keyAt page i)

variable {id : PageId} {page : Page}

theorem cells_eq (h : countIn page ≤ maxKeys) : cells { id, page } = .ok (cellsIn page) := by
  refine mapM_eq_ok fun i hi => ?_
  have hlt : i < maxKeys := Nat.lt_of_lt_of_le (List.mem_range.mp hi) h
  rw [cellChild, key, Says.cellOffset_eq hlt]
  rfl

/-- Each separator stands with the child that it bounds; the right child has none. -/
theorem Says.cellsIn_eq {isRoot : Bool} {keys : List UInt32} {children : List PageId}
    (h : Says page isRoot keys children) : cellsIn page = children.zip keys := by
  have hlen := h.length_children
  refine map_range_eq ?_ fun i hi => ?_
  · rw [h.count, List.length_zip]
    omega
  · rw [List.length_zip] at hi
    rw [List.getElem_zip, h.child i (by omega), h.key i (by omega)]

theorem insertCell_cellsIn {i : Nat} (id child : PageId) (key : UInt32)
    (hroom : countIn page < maxKeys) (hi : i ≤ countIn page) :
    ∃ after : Page, (insertCell id i child key).run page = .ok () after ∧
      countIn after = countIn page + 1 ∧
      cellsIn after = (cellsIn page).insertIdx i (child, key) ∧
      ∀ k, k < 6 ∨ (10 ≤ k ∧ k < 14) ∨ cellStart (countIn page + 1) ≤ k →
        after.byte k = page.byte k := by
  obtain ⟨after, hrun, hcount, hkey, hchild, hbelow, habove, hbyte⟩ :=
    exists_insertCell id child key rfl hroom hi
  refine ⟨after, hrun, hcount, ?_, hbyte⟩
  rw [cellsIn, hcount]
  refine map_range_insertIdx hi (fun j hj => ?_) ?_ fun j hj hlt => ?_
  · rw [(hbelow j hj).1, (hbelow j hj).2]
  · rw [hkey, hchild]
  · rw [(habove j hj hlt).1, (habove j hj hlt).2]

end Branch

/-! ## Insertion into lists -/

/-- A cell can be inserted at every index up to the count into every page that is accepted as a
    node with room.  The page is accepted again, its cells are the old ones with the new one
    inserted there, and header, link and all bytes behind the cells are as before. -/
theorem insertCell_inserts (id : PageId) (page : Page) (i : Nat) :
    (∀ leaf, Leaf.ofPage id page = .ok leaf → leaf.count < Leaf.maxCells → i ≤ leaf.count →
      ∀ (key : UInt32) (value : List UInt8), value.length = Leaf.valueSize →
      ∃ entries after, leaf.entries = .ok entries ∧
        (Leaf.insertCell id i key value).run page = .ok () after ∧
        Leaf.ofPage id after = .ok ⟨id, after⟩ ∧
        Leaf.entries ⟨id, after⟩ = .ok (entries.insertIdx i ⟨key, value⟩) ∧
        Header.decode id after = Header.decode id page ∧
        Leaf.next ⟨id, after⟩ = leaf.next ∧
        ∀ k, Leaf.cellStart (leaf.count + 1) ≤ k → after.byte k = page.byte k) ∧
    (∀ branch, Branch.ofPage id page = .ok branch → branch.count < Branch.maxKeys →
      i ≤ branch.count → ∀ (child : PageId) (key : UInt32),
      ∃ cells after, branch.cells = .ok cells ∧
        (Branch.insertCell id i child key).run page = .ok () after ∧
        Branch.ofPage id after = .ok ⟨id, after⟩ ∧
        Branch.cells ⟨id, after⟩ = .ok (cells.insertIdx i (child, key)) ∧
        Header.decode id after = Header.decode id page ∧
        Branch.right ⟨id, after⟩ = branch.right ∧
        ∀ k, Branch.cellStart (branch.count + 1) ≤ k → after.byte k = page.byte k) := by
  constructor
  · intro leaf hleaf hroom hi key value hvalue
    obtain ⟨hkind, hcount, rfl⟩ := Leaf.ofPage_eq_ok_iff.mp hleaf
    obtain ⟨after, hrun, hmore, hentries, hbyte⟩ := Leaf.insertCell_entriesIn id hroom hi hvalue
    have hfits : Leaf.countIn after ≤ Leaf.maxCells := hmore ▸ hroom
    have hkind' : Header.readKind id after = .ok .leaf :=
      (Header.readKind_congr (hbyte 0 (.inl (by decide)))).trans hkind
    refine ⟨_, after, Leaf.entries_eq hcount, hrun,
      Leaf.ofPage_eq_ok_iff.mpr ⟨hkind', hfits, rfl⟩, hentries ▸ Leaf.entries_eq hfits,
      Header.decode_congr fun k hk => hbyte k (.inl hk), ?_, fun k hk => hbyte k (.inr (.inr hk))⟩
    exact Except.ok.inj (Leaf.local_field .next page after fun k hk => hbyte k (.inr (.inl hk)))
  · intro branch hbranch hroom hi child key
    obtain ⟨hkind, hcount, rfl⟩ := Branch.ofPage_eq_ok_iff.mp hbranch
    obtain ⟨after, hrun, hmore, hcells, hbyte⟩ := Branch.insertCell_cellsIn id child key hroom hi
    have hfits : Branch.countIn after ≤ Branch.maxKeys := hmore ▸ hroom
    have hkind' : Header.readKind id after = .ok .branch :=
      (Header.readKind_congr (hbyte 0 (.inl (by decide)))).trans hkind
    refine ⟨_, after, Branch.cells_eq hcount, hrun,
      Branch.ofPage_eq_ok_iff.mpr ⟨hkind', hfits, rfl⟩, hcells ▸ Branch.cells_eq hfits,
      Header.decode_congr fun k hk => hbyte k (.inl hk), ?_, fun k hk => hbyte k (.inr (.inr hk))⟩
    exact Except.ok.inj (Branch.local_field .right page after fun k hk => hbyte k (.inr (.inl hk)))

/-- A cell is put between the two of a leaf, and another between the two of a branch. -/
theorem insertCell_inserts_between : ∃ (value : List UInt8) (leaf leaf' branch branch' : Page),
    ((Leaf.insertCell PageId.root 1 20 value).run leaf = .ok () leaf' ∧
      Leaf.entries ⟨PageId.root, leaf⟩ = .ok [⟨10, value⟩, ⟨30, value⟩] ∧
      Leaf.entries ⟨PageId.root, leaf'⟩ = .ok [⟨10, value⟩, ⟨20, value⟩, ⟨30, value⟩]) ∧
    (Branch.insertCell PageId.root 1 ⟨2⟩ 20).run branch = .ok () branch' ∧
      Branch.cells ⟨PageId.root, branch⟩ = .ok [(⟨1⟩, 10), (⟨3⟩, 30)] ∧
      Branch.cells ⟨PageId.root, branch'⟩ = .ok [(⟨1⟩, 10), (⟨2⟩, 20), (⟨3⟩, 30)] := by
  obtain ⟨value, hvalue⟩ : ∃ value : List UInt8, value.length = Leaf.valueSize :=
    ⟨List.replicate 291 7, List.length_replicate⟩
  obtain ⟨leaf, hleaf⟩ := Leaf.exists_page true none [⟨10, value⟩, ⟨30, value⟩] PageId.root nofun
    (show 2 ≤ Leaf.maxCells by decide) (by simp [hvalue])
  obtain ⟨branch, hbranch⟩ :=
    Branch.exists_page false [(⟨1⟩, 10), (⟨3⟩, 30)] ⟨4⟩ PageId.root (by decide)
  have hleaf := (reading_eq_leaf_iff.mp hleaf).1
  have hbranch := (reading_eq_branch_iff.mp hbranch).1
  have hcount : Leaf.count ⟨PageId.root, leaf⟩ = 2 := hleaf.count_eq
  have hcount' : Branch.count ⟨PageId.root, branch⟩ = 2 := hbranch.count_eq
  obtain ⟨entries, leaf', hentries, hrun, -, hentries', -⟩ :=
    (insertCell_inserts PageId.root leaf 1).1 _ hleaf.ofPage_eq
      (hcount ▸ by decide) (hcount ▸ by decide) 20 value hvalue
  obtain ⟨cells, branch', hcells, hrun', -, hcells', -⟩ :=
    (insertCell_inserts PageId.root branch 1).2 _ hbranch.ofPage_eq
      (hcount' ▸ by decide) (hcount' ▸ by decide) ⟨2⟩ 20
  have hleafCells := @Leaf.entries_eq PageId.root leaf (hleaf.count ▸ hleaf.length_le)
  have hbranchCells := @Branch.cells_eq PageId.root branch (hbranch.count ▸ hbranch.length_le)
  rw [hleaf.entriesIn_eq] at hleafCells
  rw [hbranch.cellsIn_eq] at hbranchCells
  obtain rfl := Except.ok.inj (hentries.symm.trans hleafCells)
  obtain rfl := Except.ok.inj (hcells.symm.trans hbranchCells)
  exact ⟨value, leaf, leaf', branch, branch', ⟨hrun, hentries, hentries'⟩, hrun', hcells, hcells'⟩

end RowStore
