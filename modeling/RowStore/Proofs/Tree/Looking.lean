/-
  RowStore/Proofs/Tree/Looking.lean
  =================================
  **Looking at a file.**  A question changes no page, whatever the pages hold and however
  the question ends: all that it does is to load pages.  So a file that was only looked at
  is saved with the bytes that it had.  It may get longer all the same, by the rest of a
  short last page and by pages that a wild link has led to, and all of that is zero.
-/
import RowStore.Proofs.Pager.Save
import RowStore.Proofs.Tree.Operations
import RowStore.Proofs.Tree.Tidy

namespace RowStore

open Pager (NoChange Strides)

variable {α : Type}

namespace Tree

variable {W : PageId → Page → Page → Prop}

/-! ## Questions -/

theorem run_attempt {m : PagerM α} {pager after : Pager} {r : Except Failure α}
    (hrun : m.run pager = outcome r after) : (attempt m).run pager = outcome (.ok r) after := by
  replace hrun : m pager = outcome r after := hrun
  cases r <;> simp only [EStateM.run, attempt, hrun, outcome]

theorem tidy_attempt {m : PagerM α} (hm : Tidy W [] m) : Tidy W [] (attempt m) :=
  .answer (f := Except.ok) hm fun _ _ _ => run_attempt

theorem tidy_follow (moves : List Move) (cursor : Cursor) : Tidy W [] (follow moves cursor) := by
  induction moves generalizing cursor with
  | nil => exact .pure _
  | cons move moves ih =>
    cases move with
    | advance =>
      exact (tidy_attempt (tidy_advance cursor)).bind fun _ => (ih _).bind fun _ => .pure _
    | key =>
      exact (tidy_attempt (tidy_cursorKey cursor)).bind fun _ => (ih _).bind fun _ => .pure _
    | value =>
      exact (tidy_attempt (tidy_cursorValue cursor)).bind fun _ => (ih _).bind fun _ => .pure _

namespace Operation

theorem tidy_question {op : Operation} (hop : op.isInsert = false) : Tidy W [] op.run := by
  cases op with
  | insert key value => cases hop
  | get key => exact (tidy_get key).bind fun _ => .pure _
  | find key => exact (tidy_find key).bind fun _ => .pure _
  | keys => exact tidy_keys.bind fun _ => .pure _
  | maxKey id => exact (tidy_maxKey id).bind fun _ => .pure _
  | depth => exact tidy_depth.bind fun _ => .pure _
  | outline => exact tidy_outlineText.bind fun _ => .pure _
  | check => exact tidy_check.bind fun _ => .pure _
  | scan first moves =>
    have hmoves (cursor : Cursor) : Tidy W [] (do
        return Answer.visits (← follow moves cursor)) :=
      (tidy_follow moves cursor).bind fun _ => .pure _
    cases first with
    | some key => exact (tidy_findKey key).bind hmoves
    | none => exact tidy_start.bind hmoves

/-- An operation leads where its steps lead, whether it succeeds or not. -/
theorem strides_perform {op : Operation} (h : Tidy W [] op.run) (pager : Pager) :
    Strides W pager (op.perform pager).2 := by
  obtain ⟨r, after, hrun⟩ := exists_outcome op.run pager
  rw [perform_of_run hrun]
  exact h.strides hrun

end Operation

theorem strides_replay {ops : List Operation} (h : ∀ op ∈ ops, Tidy W [] op.run) (pager : Pager) :
    Strides W pager (replay ops pager).2 := by
  induction ops generalizing pager with
  | nil => exact .refl
  | cons op ops ih =>
    obtain ⟨hop, hops⟩ := List.forall_mem_cons.mp h
    exact (Operation.strides_perform hop pager).trans (ih hops _)

/-! ## Opening -/

theorem numPages_ofImage_pos {file : Image} (hsize : 0 < file.size)
    (hpages : (file.size + (pageSize - 1)) / pageSize < 4294967296) :
    0 < (Pager.ofImage file).numPages := by
  have hnum : (Pager.ofImage file).numPages = (file.size + (pageSize - 1)) / pageSize :=
    Nat.mod_eq_of_lt hpages
  rw [hnum]
  exact Nat.div_pos (by omega) (by decide)

/-- Opening a file that is not empty is a look at page 0. -/
theorem establish_of_pos {file : Image} (hsize : 0 < file.size)
    (hpages : (file.size + (pageSize - 1)) / pageSize < 4294967296) :
    establish.run (Pager.ofImage file) =
      (do let _ ← kindOf PageId.root : PagerM Unit).run (Pager.ofImage file) := by
  rw [establish, get_bind_run, if_neg (Nat.ne_of_gt (numPages_ofImage_pos hsize hpages))]

/-- All that is asked of a file is that it starts with the byte of a kind of node.  Its pages
    are shown as it has them. -/
theorem exists_openAt_of_kind (file : Image) {kind : NodeKind} (hsize : 0 < file.size)
    (hpages : (file.size + (pageSize - 1)) / pageSize < 4294967296)
    (hkind : NodeKind.ofByte? (file.byte 0) = some kind) :
    ∃ pager, openAt (.file file) = .ok pager ∧ (Pager.ofImage file).view.Shown pager := by
  have hroot : PageId.root.index < maxPages := by decide
  obtain ⟨pager, hrequest, hcoherent, hview⟩ := Pager.request_leads hroot
    (Pager.ofImage file).view _ (Pager.coherent_ofImage hpages) rfl
  have hread : Header.readKind PageId.root ((Pager.ofImage file).view.page PageId.root) =
      .ok kind := by
    rw [Header.readKind_eq_ok_iff]
    have hpage : (Pager.ofImage file).view.page = (Pager.ofImage file).content := rfl
    have hoffset : PageId.root.fileOffset = 0 := by decide
    rw [hpage, Pager.content_of_not_loaded (Pager.slot_ofImage file PageId.root), hoffset,
      Image.byte_pageAt _ _ _ (by decide), if_pos (by decide)]
    exact hkind
  refine ⟨pager, openAt_of_run rfl ?_, hcoherent, ?_⟩
  · rw [establish_of_pos hsize hpages, kindOf, bind_assoc, bind_run hrequest, lift_bind_run hread]
    rfl
  · rw [hview]
    exact View.reach_of_lt (numPages_ofImage_pos hsize hpages)

theorem strides_openAt_of_pos {file : Image} {pager : Pager} (hsize : 0 < file.size)
    (hpages : (file.size + (pageSize - 1)) / pageSize < 4294967296)
    (hopen : openAt (.file file) = .ok pager) :
    Strides NoChange (Pager.ofImage file) pager := by
  have hrun := run_of_openAt rfl hopen
  rw [establish_of_pos hsize hpages] at hrun
  have hlook : Tidy NoChange [] (do let _ ← kindOf PageId.root : PagerM Unit) :=
    (tidy_kindOf PageId.root).bind fun _ => .pure _
  exact hlook.strides (r := .ok ()) hrun

/-- A file of whole pages shows these pages when it has been opened. -/
theorem exists_openAt_imageOf {n : Nat} {kind : NodeKind} (page : PageId → Page) (hpos : 0 < n)
    (hn : n ≤ maxPages) (hkind : NodeKind.ofByte? ((page PageId.root).byte 0) = some kind) :
    ∃ pager : Pager, openAt (.file (Pager.imageOf n page)) = .ok pager ∧ pager.Coherent ∧
      pager.numPages = n ∧ pager.file = Pager.imageOf n page ∧
      ∀ id : PageId, id.index < n → pager.content id = page id := by
  have hsize : (Pager.imageOf n page).size = n * 4096 := Pager.size_imageOf n page
  have hn' : n ≤ 100 := hn
  have hpages : ((Pager.imageOf n page).size + (pageSize - 1)) / pageSize < 4294967296 := by
    change ((Pager.imageOf n page).size + 4095) / 4096 < 4294967296
    omega
  have hbyte : (Pager.imageOf n page).byte 0 = (page PageId.root).byte 0 := by
    have hpage := Pager.pageAt_imageOf page PageId.root hpos
    rw [← hpage, Image.byte_pageAt _ _ _ (by decide), if_pos (by decide)]
    rfl
  obtain ⟨pager, hopen, hcoherent, hview⟩ :=
    exists_openAt_of_kind _ (by omega) hpages (hbyte ▸ hkind)
  refine ⟨pager, hopen, hcoherent, (congrArg View.numPages hview).trans ?_,
    congrArg View.file hview, fun id hid => (congrFun (congrArg View.page hview) id).trans ?_⟩
  · change ((Pager.imageOf n page).size + 4095) / 4096 % 4294967296 = n
    omega
  · exact (Pager.content_of_not_loaded (Pager.slot_ofImage _ id)).trans
      (Pager.pageAt_imageOf page id hid)

/-- Pages that say what is wanted can be written to a file, which can be opened if page 0 says
    that it is a node. -/
theorem exists_openAt_heap {n : Nat} {K : Heap} {body : Body} {q : PageId} (hn : n ≤ maxPages)
    (hids : (K.map Prod.fst).map PageId.index = List.range n)
    (hpages : ∀ x ∈ K, ∃ page : Page, reading page = x.2)
    (hroot : (PageId.root, ⟨some body, q⟩) ∈ K) :
    ∃ (file : Image) (pager : Pager), openAt (.file file) = .ok pager ∧ pager.Holds n K ∧
      pager.file = file ∧ ∀ x ∈ K, reading (file.pageAt x.1.fileOffset pageSize) = x.2 := by
  have hlt (x : PageId × Reading) (hx : x ∈ K) : x.1.index < n := by
    rw [← List.mem_range, ← hids]
    exact List.mem_map_of_mem (List.mem_map_of_mem hx)
  have hdistinct : (K.map Prod.fst).Nodup :=
    List.Nodup.of_map PageId.index (hids ▸ List.nodup_range)
  have hpage (id : PageId) : ∃ page : Page, ∀ x ∈ K, x.1 = id → reading page = x.2 := by
    by_cases hid : ∃ x ∈ K, x.1 = id
    · obtain ⟨x, hx, rfl⟩ := hid
      obtain ⟨page, hpage⟩ := hpages x hx
      exact ⟨page, fun y hy he => List.inj_on_of_nodup_map hdistinct hy hx he ▸ hpage⟩
    · exact ⟨Bytes.zero, fun x hx he => absurd ⟨x, hx, he⟩ hid⟩
  choose page hpage using hpage
  have hkind : ∃ kind, NodeKind.ofByte? ((page PageId.root).byte 0) = some kind := by
    have hread := hpage PageId.root _ hroot rfl
    cases body with
    | leaf => exact ⟨.leaf, (reading_eq_leaf_iff.mp hread).1.kind⟩
    | branch => exact ⟨.branch, (reading_eq_branch_iff.mp hread).1.kind⟩
  obtain ⟨kind, hkind⟩ := hkind
  obtain ⟨pager, hopen, hcoherent, hnum, hfile, hcontent⟩ :=
    exists_openAt_imageOf page (Nat.zero_lt_of_lt (hlt _ hroot)) hn hkind
  have hreads (x : PageId × Reading) (hx : x ∈ K) : reading (page x.1) = x.2 := hpage x.1 x hx rfl
  refine ⟨_, pager, hopen, ⟨hcoherent, hnum, hn, hdistinct, fun x hx => ⟨?_, ?_⟩⟩, hfile,
    fun x hx => ?_⟩
  · exact Nat.lt_of_lt_of_eq (hlt x hx) hnum.symm
  · exact (congrArg reading (hcontent x.1 (hlt x hx))).trans (hreads x hx)
  · rw [Pager.pageAt_imageOf page x.1 (hlt x hx)]
    exact hreads x hx

/-! ## Saving what was looked at -/

/-- **Looking does no damage.**  A file that is not empty and that can be opened, damaged or
    not, is opened, asked any questions, and saved.  Whatever the answers were, the file
    still begins with all its bytes, and has at most zeros behind them. -/
theorem looking_does_no_damage {file : Image} {pager : Pager} (hsize : 0 < file.size)
    (hpages : (file.size + (pageSize - 1)) / pageSize < 4294967296)
    (hopen : openAt (.file file) = .ok pager) {ops : List Operation}
    (hops : ∀ op ∈ ops, op.isInsert = false) :
    ∃ (closed : Pager) (k : Nat), close.run (replay ops pager).2 = .ok () closed ∧
      closed.file = file ++ Array.replicate k 0 := by
  have hlooked : Strides NoChange (Pager.ofImage file) (replay ops pager).2 :=
    (strides_openAt_of_pos hsize hpages hopen).trans
      (strides_replay (fun op hop => Operation.tidy_question (hops op hop)) pager)
  have hfile : (replay ops pager).2.file = file := hlooked.onward.file_eq
  obtain ⟨hcoherent, hcontent⟩ := hlooked.preserves (Pager.coherent_ofImage hpages)
  have hcounted := hlooked.counted (Pager.counted_ofImage file)
  have hshown (id : PageId) : (replay ops pager).2.content id =
      (replay ops pager).2.file.pageAt id.fileOffset pageSize := by
    rw [hcontent, hfile]
    exact Pager.content_of_not_loaded (Pager.slot_ofImage file id)
  obtain ⟨closed, k, hclose, happend⟩ :=
    Pager.exists_flushAll_append hcoherent hcounted.numPages_lt hshown
  exact ⟨closed, k, hclose, hfile ▸ happend⟩

/-- A file of one byte is opened as a branch whose only child is page 0 itself.  It is searched
    and checked, and one asks for the greatest key of a page that is not there. -/
theorem looking_does_no_damage_one_byte : ∃ pager : Pager, openAt (.file #[0]) = .ok pager ∧
    ∃ (closed : Pager) (k : Nat),
      close.run (replay [.find 7, .maxKey (PageId.ofNat 12), .check, .outline,
        .scan none [.key, .advance]] pager).2 = .ok () closed ∧
      closed.file = #[0] ++ Array.replicate k 0 := by
  obtain ⟨pager, hopen, -⟩ := exists_openAt_of_kind #[0] (by decide) (by decide) rfl
  exact ⟨pager, hopen, looking_does_no_damage (by decide) (by decide) hopen (by decide)⟩

end Tree
end RowStore
