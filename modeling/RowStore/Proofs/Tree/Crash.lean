/-
  RowStore/Proofs/Tree/Crash.lean
  ===============================
  **What can make an insert crash.**  A file that can be opened may hold anything, and an
  insert into it may fail in many ways.  It fails with an error, with one exception: if a
  page other than page 0 is flagged as the root, an insert may count the keys of a branch
  below zero.

  An insert ends so from every pager that keeps two things, its count of the pages and the
  absence of stray roots, if there were none.  Both hold when a file was opened, and an
  insert keeps them, whether it succeeds or not.
-/
import RowStore.Proofs.Tree.Effort
import RowStore.Proofs.Tree.Looking
import RowStore.Proofs.Tree.Milestones

namespace RowStore

variable {stray : Prop} {pager after : Pager}

namespace Known

/-- An insert into any pages ends with an answer or an error, or at a stray root. -/
theorem ends_insert (key : UInt32) (value : List UInt8) : Ends (Known stray 0 [])
    (Tree.insert key value) (fun _ => Known stray 0 []) (Failing stray) :=
  (follows_insert (show maxPages - 0 < maxPages + 1 by decide) key value).ends

/-- Also after an insert that failed, pages are counted and no stray root has come up. -/
theorem insert {key : UInt32} {value : List UInt8} {r : Except Failure Unit}
    (hp : Known stray 0 [] pager) (hrun : (Tree.insert key value).run pager = outcome r after) :
    Known stray 0 [] after :=
  hp.strides ((Tree.tidy_insert key value).strides hrun) nofun

end Known

namespace Tree

theorem exists_file_of_openAt {location : Location} (hopen : openAt location = .ok pager) :
    ∃ file, location.openFile = .ok file := by
  cases location with
  | nothing => exact ⟨#[], rfl⟩
  | file contents => exact ⟨contents, rfl⟩
  | directory => cases hopen
  | unreachable => cases hopen

/-- What was opened counts its pages, and the only stray roots are those of its file. -/
theorem known_of_openAt {location : Location} (hopen : openAt location = .ok pager) :
    Known pager.file.HasStrayRoot 0 [] pager := by
  obtain ⟨file, hlocation⟩ := exists_file_of_openAt hopen
  have hstrides := strides_openAt hlocation hopen
  have hfile : pager.file = file := hstrides.onward.file_eq
  rw [hfile]
  have hstart : Known file.HasStrayRoot 0 [] (Pager.ofImage file) := by
    refine ⟨Pager.counted_ofImage file, ?_, Nat.zero_le _, nofun⟩
    refine (Classical.em file.HasStrayRoot).imp_right fun hnone => ⟨hnone, fun id page _ h => ?_⟩
    rw [Pager.slot_ofImage] at h
    cases h
  exact hstart.strides hstrides nofun

/-- **Inserts crash at stray roots only.**  Whatever a file holds that can be opened, and
    whatever is inserted then, each insert ends with an answer or with an error, or it has
    counted below zero and a page other than page 0 is flagged as the root in the file. -/
theorem inserts_crash_only_at_stray_roots {location : Location}
    (hopen : openAt location = .ok pager) (inserts : List (UInt32 × List UInt8)) :
    ∀ report ∈ (replay (inserts.map fun x => .insert x.1 x.2) pager).1,
      report.answer = .ok .done ∨ (∃ e : Error, report.answer = .error (.error e)) ∨
        report.answer = .error (.fault .overflow) ∧ pager.file.HasStrayRoot := by
  have hopened := known_of_openAt hopen
  generalize pager.file.HasStrayRoot = stray at hopened ⊢
  clear hopen
  induction inserts generalizing pager with
  | nil => exact fun _ h => absurd h List.not_mem_nil
  | cons first rest ih =>
    obtain ⟨key, value⟩ := first
    obtain ⟨r, after, hrun⟩ := exists_outcome (insert key value) pager
    have hends := Known.ends_insert key value pager hopened
    rw [hrun] at hends
    rw [List.map_cons, replay, Operation.perform_insert hrun]
    refine List.forall_mem_cons.mpr ⟨?_, ih (hopened.insert hrun)⟩
    cases r with
    | ok _ => exact .inl rfl
    | error failure =>
      rcases hends with herror | ⟨rfl, hstray⟩
      · cases failure with
        | error e => exact .inr (.inl ⟨e, rfl⟩)
        | fault _ => cases herror
        | endless => cases herror
      · exact .inr (.inr ⟨rfl, hstray⟩)

theorem hasStrayRoot_of_reading {file : Image} {id q : PageId} {keys : List UInt32}
    {children : List PageId} (hne : id ≠ PageId.root) (hid : id.index < maxPages)
    (hreading : reading (file.pageAt id.fileOffset pageSize) =
      ⟨some (.branch true keys children), q⟩) : file.HasStrayRoot := by
  refine ⟨id, hne, hid, fun hzero => ?_⟩
  have hroot := (reading_eq_branch_iff.mp hreading).1.root
  rw [Header.rootFlag, Image.byte_pageAt _ _ _ (by decide), if_pos (by decide), hzero] at hroot
  cases hroot

/-- A full leaf whose parent, a full branch, is flagged as the root, and page 0 leads to the
    leaf without it. -/
def strayRoot : Heap :=
  [(PageId.root, ⟨some (.branch true [] [⟨2⟩]), PageId.root⟩),
    (⟨1⟩, ⟨some (.branch true [100, 200, 300] [⟨2⟩, ⟨2⟩, ⟨2⟩, ⟨2⟩]), PageId.root⟩),
    (⟨2⟩, ⟨some (.leaf false none (samples 13)), ⟨1⟩⟩)]

theorem exists_openAt_strayRoot : ∃ (file : Image) (pager : Pager),
    openAt (.file file) = .ok pager ∧ pager.Holds 3 strayRoot ∧ pager.file.HasStrayRoot := by
  obtain ⟨top, htop⟩ := Branch.exists_page true [] ⟨2⟩ PageId.root (by decide)
  obtain ⟨stray, hstray⟩ :=
    Branch.exists_page true [(⟨2⟩, 100), (⟨2⟩, 200), (⟨2⟩, 300)] ⟨2⟩ PageId.root (by decide)
  obtain ⟨leaf, hleaf⟩ := Leaf.exists_page false none (samples 13) ⟨1⟩ nofun (by decide)
    fun _ => length_value_of_mem_samples
  have hpages : ∀ x ∈ strayRoot, ∃ page : Page, reading page = x.2 :=
    List.forall_mem_cons.mpr ⟨⟨top, htop⟩, List.forall_mem_cons.mpr ⟨⟨stray, hstray⟩,
      List.forall_mem_singleton.mpr ⟨leaf, hleaf⟩⟩⟩
  obtain ⟨file, pager, hopen, hholds, rfl, hfile⟩ :=
    exists_openAt_heap (n := 3) (by decide) rfl hpages (.head _)
  exact ⟨_, pager, hopen, hholds,
    hasStrayRoot_of_reading (by decide) (by decide) (hfile _ (.tail _ (.head _)))⟩

/-- The next key belongs into the full leaf. -/
theorem reads_find_strayRoot : Reads (find 13) strayRoot (.ok (⟨2⟩, 13)) := by
  refine Reads.sees_bind (sees_node_branch (.head _)) ?_
  rintro _ ⟨page, rfl, hnode, -⟩
  refine Reads.lift_bind (hnode.findChild_eq .nil 13) ?_
  refine Reads.lift_bind (hnode.child_eq rfl (by decide)) ?_
  refine Reads.sees_bind (sees_node_leaf (.tail _ (.tail _ (.head _)))) ?_
  rintro _ ⟨page, rfl, hnode, -⟩
  exact Reads.lift_bind (hnode.find_eq (by decide) 13) (Reads.pure _)

/-- The leaf may be split, and its parent as well. -/
theorem reads_countSplits_strayRoot :
    Reads (countSplits maxPages 1 ⟨2⟩) strayRoot (.ok 3) := by
  have hleaf : (⟨2⟩, ⟨some (.leaf false none (samples 13)), ⟨1⟩⟩) ∈ strayRoot :=
    .tail _ (.tail _ (.head _))
  have hstray : (⟨1⟩, _) ∈ strayRoot := .tail _ (.head _)
  refine Reads.bind (reads_isRoot_leaf hleaf) (Reads.bind (reads_parentOf hleaf) ?_)
  refine Reads.sees_bind (sees_branch hstray) ?_
  rintro _ ⟨page, rfl, hnode, -⟩
  rw [show Branch.count { id := ⟨1⟩, page } = 3 from hnode.count_eq]
  exact Reads.bind (reads_isRoot_branch hstray) (Reads.pure _)

/-- An insert that splits the leaf below the stray root, and a second one. -/
theorem inserts_crash_only_at_stray_roots_split : ∃ (file : Image) (pager : Pager),
    openAt (.file file) = .ok pager ∧ pager.file.HasStrayRoot ∧
      Leaf.Says (pager.content ⟨2⟩) false none (samples 13) ∧
      (∃ later, (find 13).run pager = .ok (⟨2⟩, 13) later) ∧
      (∃ later, (ensureRoom ⟨2⟩).run pager = .ok () later) ∧
      ∀ report ∈ (replay ([(13, (sample 13).value), (9, [])].map
          fun x => .insert x.1 x.2) pager).1,
        report.answer = .ok .done ∨ (∃ e : Error, report.answer = .error (.error e)) ∨
          report.answer = .error (.fault .overflow) ∧ pager.file.HasStrayRoot := by
  obtain ⟨file, pager, hopen, hholds, hstray⟩ := exists_openAt_strayRoot
  have hgives := hholds.shows.gives hholds.view_numPages_le
  have hleaf := hholds.shows (⟨2⟩, _) (.tail _ (.tail _ (.head _)))
  obtain ⟨later, hfind, -⟩ := reads_find_strayRoot _ hgives pager ⟨hholds.coherent, rfl⟩
  obtain ⟨later', hroom, -⟩ :=
    takes_ensureRoom (n := 3) reads_countSplits_strayRoot (by decide) pager []
      (by rwa [List.append_nil])
  exact ⟨file, pager, hopen, hstray, (reading_eq_leaf_iff.mp hleaf.2).1, ⟨later, hfind⟩,
    ⟨later', hroom⟩, inserts_crash_only_at_stray_roots hopen _⟩

end Tree
end RowStore
