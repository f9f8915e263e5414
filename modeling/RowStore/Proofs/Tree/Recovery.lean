/-
  RowStore/Proofs/Tree/Recovery.lean
  ==================================
  **What a refused insert has changed.**  A shell goes on after a duplicate key and after a
  full table, and saves the tree later.  Both are found before the first change: the search
  and the count of the pages of a split look at pages only.  A split that gets its pages
  counted fails for good or not at all, if the store is linked; be it damaged in any other
  way, a refused insert has changed no page.

  Looking may make pages all the same, where a child is a page that is not there.  They are
  blank, so that they show what was to be seen before.
-/
import RowStore.Proofs.Tree.Contract
import RowStore.Proofs.Tree.DamagedSplit
import RowStore.Proofs.Tree.Occupancy
import RowStore.Proofs.Tree.Slots

namespace RowStore

variable {α β : Type}

/-! ## Looking -/

/-- There may be more pages, but all pages look the same. -/
structure View.Later (v w : View) : Prop where
  file : w.file = v.file
  page : w.page = v.page
  numPages : v.numPages ≤ w.numPages

namespace View.Later

variable {u v w : View}

theorem refl (v : View) : v.Later v := ⟨rfl, rfl, Nat.le_refl _⟩

theorem trans (h : u.Later v) (h' : v.Later w) : u.Later w :=
  ⟨h'.file.trans h.file, h'.page.trans h.page, Nat.le_trans h.numPages h'.numPages⟩

theorem reach (v : View) (id : PageId) : v.Later (v.reach id) := ⟨rfl, rfl, Nat.le_max_left _ _⟩

theorem linked (h : v.Later w) (hv : v.Linked) : w.Linked :=
  hv.of_bodies h.numPages fun id => by rw [h.page]

end View.Later

/-- A step that changes no page, unless it fails for good. -/
def Harmless (m : PagerM α) : Prop := ∀ v : View, Ends v.Shown m (fun _ => Lands v.Later) Final

namespace Harmless

theorem pure (a : α) : Harmless (Pure.pure a : PagerM α) :=
  fun v => .pure fun _ hp => ⟨v, hp, .refl v⟩

theorem refuse {e : Error} (he : e.isRecoverable = false) : Harmless (refuse e : PagerM α) :=
  fun _ => .refuse fun _ _ => he

theorem lift {check : Except Failure α} (h : FirmCheck check) : Harmless (liftM check : PagerM α) :=
  fun v => .lift h fun _ _ _ hp => ⟨v, hp, .refl v⟩

theorem bind {m : PagerM α} {f : α → PagerM β} (hm : Harmless m) (hf : ∀ a, Harmless (f a)) :
    Harmless (m >>= f) := by
  intro v
  refine (hm v).bind fun a => .lands fun w hw => ?_
  exact (hf a w).imp fun _ _ ⟨u, hu, h⟩ => ⟨u, hu, hw.trans h⟩

end Harmless

/-! ## Failing -/

/-- After a recoverable failure all pages look as before.  That the table is full may be
    found too late where the store is not linked. -/
def Spared (v : View) (failure : Failure) (pager : Pager) : Prop :=
  failure.isRecoverable = true → (failure = .error .tableFull → v.Linked) → Lands v.Later pager

namespace Spared

variable {v w : View} {failure : Failure} {pager : Pager}

theorem of_shown (h : v.Shown pager) : Spared v failure pager := fun _ _ => ⟨v, h, .refl v⟩

theorem of_final (h : Final failure pager) : Spared v failure pager := by
  intro hrecoverable
  rw [h] at hrecoverable
  cases hrecoverable

theorem of_later (h : v.Later w) (hfailure : Spared w failure pager) : Spared v failure pager := by
  intro hrecoverable hlinked
  obtain ⟨u, hu, hw⟩ := hfailure hrecoverable fun hfull => h.linked (hlinked hfull)
  exact ⟨u, hu, h.trans hw⟩

end Spared

theorem Ends.spared {v : View} {m : PagerM α} {Q : α → Pager → Prop}
    (h : Ends v.Shown m Q Final) : Ends v.Shown m Q (Spared v) :=
  h.imp_failure fun _ _ => .of_final

namespace Tree

variable {v : View} {id : PageId}

theorem ends_demand (v : View) (id : PageId) : Ends v.Shown (Pager.request id)
    (fun page => Lands fun w => v.Later w ∧ id.index < w.numPages ∧ page = v.page id) Final :=
  (Pager.ends_request v id).imp fun _ _ ⟨hp, _, hpage⟩ =>
    ⟨_, hp, .reach v id, Nat.le_max_right _ _, hpage⟩

theorem ends_inspect {check : Page → Except Failure α} (hcheck : ∀ page, FirmCheck (check page))
    (v : View) (id : PageId) : Ends v.Shown (Pager.request id >>= fun page => liftM (check page))
      (fun a => Lands fun w => v.Later w ∧ id.index < w.numPages ∧ check (v.page id) = .ok a)
      Final :=
  (Pager.ends_look hcheck v id).imp fun _ _ ⟨hp, _, ha⟩ =>
    ⟨_, hp, .reach v id, Nat.le_max_right _ _, ha⟩

theorem harmless_inspect {check : Page → Except Failure α} (hcheck : ∀ page, FirmCheck (check page))
    (id : PageId) : Harmless (Pager.request id >>= fun page => liftM (check page)) :=
  fun v => (ends_inspect hcheck v id).imp fun _ _ ⟨w, hp, hw, _⟩ => ⟨w, hp, hw⟩

theorem harmless_kindOf (id : PageId) : Harmless (kindOf id) :=
  harmless_inspect (Header.firm_readKind id) id

theorem harmless_leaf (id : PageId) : Harmless (leaf id) :=
  harmless_inspect (Leaf.firm_ofPage id) id

theorem harmless_node (id : PageId) : Harmless (node id) := by
  refine (harmless_kindOf id).bind fun kind => ?_
  cases kind with
  | leaf => exact (harmless_leaf id).bind fun _ => .pure _
  | branch => exact (harmless_inspect (Branch.firm_ofPage id) id).bind fun _ => .pure _

theorem harmless_findBelow (key : UInt32) : ∀ nodes id, Harmless (findBelow key nodes id)
  | 0, _ => .refuse rfl
  | nodes + 1, id => by
    refine (harmless_node id).bind fun node => ?_
    cases node with
    | leaf leaf => exact (Harmless.lift (leaf.firm_find key)).bind fun _ => .pure _
    | branch branch =>
      exact (Harmless.lift (branch.firm_findChild key)).bind fun _ =>
        (Harmless.lift (branch.firm_child _)).bind fun child => harmless_findBelow key nodes child

theorem harmless_findKey (key : UInt32) : Harmless (findKey key) :=
  (harmless_findBelow key maxPages PageId.root).bind fun _ => .pure _

theorem harmless_cursorKey (cursor : Cursor) : Harmless cursor.key := by
  refine (harmless_leaf cursor.page).bind fun leaf => ?_
  split
  · exact (Harmless.lift (leaf.firm_key _)).bind fun _ => .pure _
  · exact .pure _

/-! ## Counting the pages of a split -/

/-- The count is right wherever the parent fields lead, unless it comes to `nodes` pages. -/
theorem ends_countSplits : ∀ (nodes needed : Nat) (v : View) (id : PageId),
    Ends v.Shown (countSplits nodes needed id) (fun n => Lands fun w => v.Later w ∧
      ∃ pages, n = needed + pages ∧ (nodes ≤ pages ∨ w.Climbs pages id)) Final
  | 0, needed, v, _ => .pure fun _ hp => ⟨v, hp, .refl v, 0, rfl, .inl (Nat.le_refl 0)⟩
  | nodes + 1, needed, v, id => by
    have hflag : Ends v.Shown (isRoot id) (fun isRoot => Lands fun w => v.Later w ∧
        (isRoot = true ↔ w.Flagged id)) Final := by
      refine (ends_demand v id).bind fun page => .lands ?_
      rintro w ⟨hw, -, rfl⟩
      exact .pure fun pager hp => ⟨w, hp, hw, by rw [View.Flagged, hw.page]⟩
    refine hflag.bind fun isRoot => .lands ?_
    rintro w₁ ⟨hw₁, hflag⟩
    by_cases hroot : isRoot = true
    · rw [if_pos hroot]
      exact .pure fun pager hp => ⟨w₁, hp, hw₁, 1, rfl, .inr (.root (hflag.mp hroot))⟩
    rw [if_neg hroot]
    have hup : Ends w₁.Shown (parentOf id) (fun parent => Lands fun w => w₁.Later w ∧
        parent = w₁.above id) Final := by
      refine (ends_demand w₁ id).bind fun page => .lands ?_
      rintro w ⟨hw, -, rfl⟩
      exact .pure fun pager hp => ⟨w, hp, hw, rfl⟩
    refine hup.bind fun parent => .lands ?_
    rintro w₂ ⟨hw₂, hparent⟩
    refine (ends_inspect (Branch.firm_ofPage parent) w₂ parent).bind fun node => .lands ?_
    rintro w₃ ⟨hw₃, hlt, hok⟩
    obtain ⟨rfl, b, keys, children, hbranch⟩ := Branch.ofPage_ok hok
    have hlater : v.Later w₃ := hw₁.trans (hw₂.trans hw₃)
    -- What the page says of its place is not changed by pages that are made meanwhile.
    have hunflagged {w : View} (hw : v.Later w) : ¬w.Flagged id := by
      rw [View.Flagged, hw.page, ← hw₁.page]
      exact mt hflag.mpr hroot
    have habove {w : View} (hw : v.Later w) : w.above id = parent := by
      rw [hparent, View.above, View.above, hw.page, hw₁.page]
    rw [hbranch.count_eq]
    split
    · rename_i hroom
      refine .pure fun pager hp => ⟨w₃, hp, hlater, 0, rfl, .inr (.room (hunflagged hlater) ?_ ?_)⟩
      · rwa [habove hlater]
      · rw [habove hlater]
        exact ⟨b, keys, children, by rwa [hw₃.page], hroom⟩
    · refine (ends_countSplits nodes (needed + 1) w₃ parent).imp ?_
      rintro n after ⟨w, hp, hw, pages, rfl, hpages⟩
      have hup := habove (hlater.trans hw)
      refine ⟨w, hp, hlater.trans hw, pages + 1, by omega, hpages.imp Nat.succ_le_succ fun h => ?_⟩
      refine .full (hunflagged (hlater.trans hw)) ?_ ?_
      · rw [hup]
        exact Nat.lt_of_lt_of_le hlt hw.numPages
      · rwa [hup]

/-- A leaf is split only where all pages are there that its split takes. -/
theorem ends_ensureRoom (v : View) (id : PageId) : Ends v.Shown (ensureRoom id)
    (fun _ => Lands fun w => v.Later w ∧ ∃ pages, w.Climbs pages id ∧
      w.numPages + (pages + 1) ≤ maxPages) (Spared v) := by
  refine (ends_countSplits maxPages 1 v id).spared.bind fun needed => .lands ?_
  rintro w ⟨hw, pages, hneeded, hclimbs⟩
  refine .get_bind fun pager hp => ?_
  have hfree : pager.freePages = maxPages - w.numPages := by
    rw [← hp.2]
    rfl
  split
  · exact .refuse fun _ hp => .of_later hw (.of_shown hp)
  · rename_i hroom
    refine .pure fun after hafter => ⟨w, hafter, hw, pages, hclimbs.resolve_left ?_, ?_⟩
    · omega
    · omega

/-! ## Inserting -/

theorem ends_insertAt (v : View) (id : PageId) (cell : Nat) (key : UInt32) (value : List UInt8) :
    Ends v.Shown (insertAt id cell key value) (fun _ _ => True) (Spared v) := by
  rw [insertAt]
  split
  · exact .refuse_bind fun _ => .of_shown
  rename_i hvalue
  refine (ends_inspect (Leaf.firm_ofPage id) v id).spared.bind fun node => .lands ?_
  rintro w ⟨hw, hid, hok⟩
  obtain ⟨rfl, isRoot, next, entries, hleaf⟩ := Leaf.ofPage_ok hok
  refine Ends.imp_failure (E := Spared w) ?_ fun _ _ => .of_later hw
  dsimp only
  rw [hleaf.count_eq]
  split
  · exact .refuse_bind fun _ => .of_shown
  rename_i hcell
  split
  · rename_i hfull
    refine (ends_ensureRoom w id).bind fun _ => .lands ?_
    rintro u ⟨hu, pages, hclimbs, hpages⟩
    by_cases hlinked : w.Linked
    · have hhalves : entries.take cell ++ entries.drop cell = entries := List.take_append_drop ..
      have hlen : (entries.take cell).length = cell := by
        rw [List.length_take, Nat.min_eq_left (Nat.not_lt.mp hcell)]
      have hsplit := ends_splitLeaf (x := { key, value }) (hu.linked hlinked)
        (Nat.lt_of_lt_of_le hid hu.numPages) (a := entries.take cell) (b := entries.drop cell)
        (by rwa [hhalves, hu.page, hw.page])
        (by rw [hhalves]; exact Nat.le_antisymm hleaf.length_le hfull)
        (not_not.mp hvalue) hclimbs hpages
      rw [hlen] at hsplit
      exact hsplit.imp_failure fun _ _ => .of_final
    · -- Without links a split may end with a full table, but with no other such failure.
      intro pager _
      cases hrun : (splitLeaf id cell key value).run pager with
      | ok => trivial
      | error failure after =>
        intro hrecoverable hwhen
        exact absurd (hwhen (onlyFull_splitLeaf _ _ _ _ _ _ _ hrun hrecoverable)) hlinked
  · exact (Ends.firm (firm_editLeaf (Leaf.firm_insertCell _ _ _ _) id)).imp_failure
      fun _ _ => .of_final

theorem ends_insert (v : View) (key : UInt32) (value : List UInt8) :
    Ends v.Shown (insert key value) (fun _ _ => True) (Spared v) := by
  refine (harmless_findKey key v).spared.bind fun cursor => .lands fun w hw => ?_
  refine Ends.imp_failure (E := Spared w) ?_ fun _ _ => .of_later hw
  refine (harmless_cursorKey cursor w).spared.bind fun found => .lands fun u hu => ?_
  refine Ends.imp_failure (E := Spared u) ?_ fun _ _ => .of_later hu
  split
  · exact .refuse_bind fun _ => .of_shown
  · exact ends_insertAt u cursor.page cursor.cell key value

/-- An insert into any store that is refused for a duplicate key has changed no page and
    nothing of the file, and leaves a pager that can be used and saved like the one before.
    The same goes for a full table if no branch of the store has a child that is a page
    behind the last one.  Pagers are coherent from the opening of a file on
    (`coherent_of_openAt`). -/
theorem recoverable_insert_changes_nothing {pager after : Pager} {key : UInt32}
    {value : List UInt8} {e : Error} (hp : pager.Coherent)
    (hlinked : e = .tableFull → pager.view.Linked)
    (hrun : (insert key value).run pager = .error (.error e) after) (he : e.isRecoverable = true) :
    after.content = pager.content ∧ after.file = pager.file ∧ after.Coherent := by
  have hends := ends_insert pager.view key value pager ⟨hp, rfl⟩
  rw [hrun] at hends
  obtain ⟨w, ⟨hafter, hview⟩, hw⟩ := hends he fun hfull => hlinked (Failure.error.inj hfull)
  subst hview
  exact ⟨hw.page, hw.file, hafter⟩

/-- The pages of a session are linked. -/
theorem Reached.linked {pager : Pager} {M : Contents} (h : Reached pager M) :
    pager.view.Linked := by
  obtain ⟨H, t, q, hstores, -, hsize, -⟩ := h.exists_filled
  have hshows := hstores.holds.shows
  have hlt : ∀ x ∈ t.heap true q, x.1.index < pager.numPages := fun x hx => (hshows x hx).1
  intro id isRoot keys children hbranch child hchild
  by_cases hid : id.index < pager.numPages
  · obtain ⟨x, hx, rfl⟩ := Heap.exists_mem hstores.holds.distinct hlt
      ((t.length_heap true q).trans hsize) hid
    obtain ⟨slot, hslot⟩ := List.mem_iff_getElem?.mp hchild
    obtain ⟨y, hy, rfl, -⟩ := pointsTo_below hstores.sound.formed hshows.spells hx
      ⟨isRoot, keys, children, hbranch, hslot⟩
    refine .inl (hlt y ?_)
    rw [Subtree.heap_eq_cons]
    exact List.mem_cons_of_mem _ hy
  · -- Behind the last page there are but blank ones, which lead to page 0.
    have hblank : pager.view.page id = Bytes.zero :=
      hstores.holds.coherent.content_of_le (Nat.not_lt.mp hid)
    rw [hblank] at hbranch
    rw [hbranch.children_of_blank] at hchild
    obtain rfl := List.mem_singleton.mp hchild
    obtain ⟨x, hx⟩ := t.exists_mem_heap true q
    exact .inl (hstores.sound.root ▸ hlt _ hx)

/-- A key that is there, in a tree of two leaves, and a key that finds the table full in a store
    that is linked. -/
theorem recoverable_insert_changes_nothing_full :
    (∃ full split after : Pager, FirstSplit full split ∧
      (insert 7 (sample 7).value).run split = .error (.error (.duplicateKey 7)) after ∧
      after.content = split.content ∧ after.file = split.file ∧ after.Coherent) ∧
    ∃ (n : Nat) (pager after : Pager), Reached pager (lookup (samples n)) ∧
      pager.view.Linked ∧
      (insert n.toUInt32 (sample n.toUInt32).value).run pager =
        .error (.error .tableFull) after ∧
      after.content = pager.content ∧ after.file = pager.file ∧ after.Coherent := by
  constructor
  · obtain ⟨full, split, h⟩ := exists_firstSplit
    obtain ⟨q, hstores⟩ := h.stores
    obtain ⟨after, hrun⟩ :=
      h.reached_split.run_insert_duplicate (show lookup (samples 14) 7 ≠ none by decide)
        (sample 7).value
    exact ⟨full, split, after, h, hrun, recoverable_insert_changes_nothing hstores.holds.coherent
      (fun _ => h.reached_split.linked) hrun rfl⟩
  · obtain ⟨n, pager, after, -, hreached, hrun⟩ := exists_tableFull
    obtain ⟨H, t, q, hstores, -⟩ := hreached.exists_stores
    exact ⟨n, pager, after, hreached, hreached.linked, hrun,
      recoverable_insert_changes_nothing hstores.holds.coherent (fun _ => hreached.linked) hrun rfl⟩

/-! ## Opening -/

/-- Whatever bytes a file holds, a tree that was opened on it is in a coherent pager. -/
theorem coherent_of_openAt {location : Location} {file : Image} {pager : Pager}
    (hfile : location.openFile = .ok file)
    (hsize : (file.size + (pageSize - 1)) / pageSize < 4294967296)
    (hopen : openAt location = .ok pager) : pager.Coherent := by
  have hends : Ends (Pager.ofImage file).view.Shown establish
      (fun _ => Lands fun _ => True) Final := by
    refine Ends.get_bind fun opened hopened => ?_
    split
    · rename_i hnone
      have hnum : (Pager.ofImage file).view.numPages = 0 := by
        rw [← hopened.2]
        exact hnone
      refine (Pager.ends_allocate (by rw [hnum]; decide)).bind fun root => .fact fun hroot => ?_
      have hlt : root.index < (Pager.ofImage file).view.more.numPages :=
        Nat.lt_succ_of_le (Nat.le_of_eq hroot)
      exact (ends_edit (Leaf.firm_init.bind fun _ => Header.firm_setRoot true) (.inl hlt)).imp
        fun _ _ ⟨w, hw, _⟩ => ⟨w, hw, trivial⟩
    · exact (harmless_kindOf PageId.root _).bind fun _ =>
        .pure fun _ ⟨w, hw, _⟩ => ⟨w, hw, trivial⟩
  have hestablish := hends _ ⟨Pager.coherent_ofImage hsize, rfl⟩
  rw [run_of_openAt hfile hopen] at hestablish
  obtain ⟨w, hw, -⟩ := hestablish
  exact hw.1

end Tree
end RowStore
