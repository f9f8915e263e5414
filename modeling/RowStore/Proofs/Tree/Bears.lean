/-
  RowStore/Proofs/Tree/Bears.lean
  ===============================
  **Trees beside other pages.**  A file may hold pages that are of no tree, and more of them
  than a store can take.  A pager *bears* a tree if the pages of the tree are among its
  pages; what is known of some others is kept beside them.

  What an operation does with a tree that a pager bears is settled by the tree and by the
  number of pages.  It is the same for all pagers that bear the tree, whatever bytes they
  have where nothing is said, and whatever stands in the parent field of the root.
-/
import RowStore.Proofs.Tree.Operations

namespace RowStore

variable {α : Type} {H : Nat} {pager : Pager} {t : Subtree H} {q : PageId} {F : Heap}

/-- The pages of a sound tree are among those of a pager, and beside them stand those of
    `F`. -/
structure Pager.Bears (pager : Pager) (t : Subtree H) (q : PageId) (F : Heap) : Prop where
  sound : t.Sound
  coherent : pager.Coherent
  index_lt : ∀ x ∈ t.heap true q, x.1.index < maxPages
  distinct : ((t.heap true q ++ F).map Prod.fst).Nodup
  shows : pager.view.Shows (t.heap true q ++ F)

namespace Pager

theorem Stores.bears (h : pager.Stores t q) : pager.Bears t q [] where
  sound := h.sound
  coherent := h.holds.coherent
  index_lt x hx := Nat.lt_of_lt_of_le (h.holds.shows x hx).1 h.holds.le_maxPages
  distinct := by
    rw [List.append_nil]
    exact h.holds.distinct
  shows := by
    rw [List.append_nil]
    exact h.holds.shows

namespace Bears

theorem gives (h : pager.Bears t q F) : Gives pager.view.Shown (t.heap true q) :=
  (h.shows.mono (List.subset_append_left _ F)).gives_of_lt h.index_lt

theorem length_heap_le (h : pager.Bears t q F) : (t.heap true q).length ≤ maxPages := by
  have hdistinct := h.distinct
  rw [List.map_append, List.nodup_append] at hdistinct
  exact Heap.length_le hdistinct.1 h.index_lt

theorem length_leaves_le (h : pager.Bears t q F) : t.leaves.length ≤ maxPages :=
  Nat.le_trans (t.length_leaves_le true q) h.length_heap_le

theorem height_lt (h : pager.Bears t q F) : H < maxPages :=
  Nat.lt_of_lt_of_le (Subtree.lt_length_heap h.sound.formed true q) h.length_heap_le

theorem of_view {after : Pager} (h : pager.Bears t q F) (hafter : after.Coherent)
    (hview : after.view = pager.view) : after.Bears t q F :=
  ⟨h.sound, hafter, h.index_lt, h.distinct, hview ▸ h.shows⟩

/-- Looking at a tree. -/
theorem run_reads (h : pager.Bears t q F) {m : PagerM α} {r : Except Failure α}
    (hm : Reads m (t.heap true q) r) : ∃ after : Pager, m.run pager = outcome r after ∧
      after.numPages = pager.numPages ∧ after.Bears t q F := by
  obtain ⟨after, hrun, hafter, hview⟩ := hm.leads h.gives pager h.coherent rfl
  exact ⟨after, hrun, congrArg View.numPages hview, h.of_view hafter hview⟩

theorem spells (h : pager.Bears t q F) : pager.view.Spells (t.heap true q) :=
  fun x hx => (h.shows x (List.mem_append_left F hx)).2

end Bears

end Pager

namespace Tree

/-! ## Inserting -/

theorem leaf_leads {v : View} {id : PageId} {isRoot : Bool} {next : Option PageId}
    {entries : List Entry} (hmax : id.index < maxPages) (hid : id.index < v.numPages)
    (hnode : Leaf.Says (v.page id) isRoot next entries) :
    Leads Pager.view (leaf id) v (.ok { id, page := v.page id }) v := by
  have hrequest := Pager.request_leads hmax v
  rw [View.reach_of_lt hid] at hrequest
  refine hrequest.bind ?_
  rw [hnode.ofPage_eq]
  exact Leads.lift _

section Insert

variable {key : UInt32} {value : List UInt8} {place : Trail H 0} {id : PageId}
variable {next : Option PageId} {a b : List Entry}

/-- Where the leaf has room, its page is the only one that changes. -/
theorem insert_leads (h : pager.Bears t q F) (hl : Locates key t place id next a b)
    (hnew : lookup t.leaves.entries key = none) (hvalue : value.length = Leaf.valueSize)
    (hroom : (a ++ b).length < Leaf.maxCells) : ∃ page : Page,
      (Leaf.insertCell id a.length key value).run (pager.view.page id) = .ok () page ∧
      reading page = ⟨some (.leaf place.isTop next (a ++ { key, value } :: b)), place.parent q⟩ ∧
      Leads Pager.view (insert key value) pager.view (.ok ()) (pager.view.set id page) := by
  have hf := hl.fits h.sound hnew hvalue
  obtain ⟨hid, hreading⟩ := h.shows _ (List.mem_append_left F (hl.mem_heap q))
  have hmax := h.index_lt _ (hl.mem_heap q)
  have hnode := (reading_eq_leaf_iff.mp hreading).1
  have hcount : Leaf.count { id, page := pager.view.page id } = (a ++ b).length := hnode.count_eq
  obtain ⟨page, hedit, hpage⟩ := turns_insertCell hf hroom _ _ _ hreading
  refine ⟨page, hedit, hpage, ?_⟩
  refine ((hl.reads_findKey h.sound h.height_lt q).leads h.gives).bind ?_
  refine ((hl.reads_key q).leads h.gives).bind ?_
  rw [if_neg (hl.head_ne h.sound hnew), Cursor.insert, insertAt]
  simp only [hvalue, ne_eq, not_true_eq_false, if_false]
  refine (leaf_leads hmax hid hnode).bind ?_
  rw [hcount, if_neg (by simp), if_neg (Nat.not_le.mpr hroom)]
  refine (leaf_leads hmax hid hnode).bind ?_
  rw [Pager.change, hedit]
  exact (Pager.store_leads page hmax hid).bind (.pure ())

theorem exists_insert_room (h : pager.Bears t q F) (hl : Locates key t place id next a b)
    (hnew : lookup t.leaves.entries key = none) (hvalue : value.length = Leaf.valueSize)
    (hroom : (a ++ b).length < Leaf.maxCells) : ∃ after : Pager,
      (insert key value).run pager = .ok () after ∧ after.numPages = pager.numPages ∧
        after.Bears (place.grown pager.numPages id next a b { key, value }).2 q F := by
  have hf := hl.fits h.sound hnew hvalue
  obtain ⟨page, -, hpage, hleads⟩ := insert_leads h hl hnew hvalue hroom
  obtain ⟨after, hrun, hafter, hview⟩ := hleads pager h.coherent rfl
  have hsound := hl.sound_grown h.sound hnew hvalue pager.numPages
  -- The pages of the tree before and after, that of the leaf first.
  have hbefore := hl.heap_perm q
  have hnow := place.heap_fill q (.leaf id next (a ++ { key, value } :: b))
  rw [heap_link_insert hf q] at hnow
  have hdistinct := ((hbefore.append_right F).map Prod.fst).nodup_iff.mp h.distinct
  have hshows := h.shows.mono (hbefore.append_right F).symm.subset
  rw [Trail.grown_of_room pager.numPages hroom] at hsound ⊢
  refine ⟨after, hrun, congrArg View.numPages hview, hsound, hafter, ?_, ?_, ?_⟩
  · intro x hx
    rcases List.mem_cons.mp (hnow.subset hx) with rfl | hx
    · have hid := h.index_lt _ (hl.mem_heap q)
      exact hid
    · exact h.index_lt x (hbefore.symm.subset (List.mem_cons_of_mem _ hx))
  · exact ((hnow.append_right F).map Prod.fst).nodup_iff.mpr hdistinct
  · rw [hview]
    exact (hshows.set (List.nodup_cons.mp hdistinct).1 hpage).mono (hnow.append_right F).subset

/-- Where the leaf is full, the pages of its split are taken from those that are free. -/
theorem exists_insert_full (h : pager.Bears t q F) (hl : Locates key t place id next a b)
    (hnew : lookup t.leaves.entries key = none) (hvalue : value.length = Leaf.valueSize)
    (hfree : pager.numPages + place.needed (a ++ b).length ≤ maxPages) : ∃ after : Pager,
      (insert key value).run pager = .ok () after ∧
        after.numPages = pager.numPages + place.needed (a ++ b).length ∧
        after.Bears (place.grown pager.numPages id next a b { key, value }).2 q F := by
  have hle : pager.numPages ≤ maxPages := Nat.le_trans (Nat.le_add_right _ _) hfree
  obtain ⟨after, hrun, -, hafter⟩ := takes_insert hl h.sound h.height_lt hnew hvalue hfree pager F
    ⟨h.coherent, rfl, hle, h.distinct, h.shows⟩
  have hsound := hl.sound_grown h.sound hnew hvalue pager.numPages
  refine ⟨after, hrun, hafter.numPages_eq, hsound, hafter.coherent, ?_, hafter.distinct,
    hafter.shows⟩
  intro x hx
  have hlt := (hafter.shows x (List.mem_append_left F hx)).1
  exact Nat.lt_of_lt_of_le hlt hafter.view_numPages_le

/-- Where it is full and they are not there, the table is full. -/
theorem exists_insert_refused (h : pager.Bears t q F) (hl : Locates key t place id next a b)
    (hnew : lookup t.leaves.entries key = none) (hvalue : value.length = Leaf.valueSize)
    (hroom : ¬(a ++ b).length < Leaf.maxCells)
    (hfree : ¬pager.numPages + place.needed (a ++ b).length ≤ maxPages) : ∃ after : Pager,
      (insert key value).run pager = .error (.error .tableFull) after ∧
        after.numPages = pager.numPages ∧ after.Bears t q F := by
  have hfull : maxPages - pager.view.numPages < place.needed (a ++ b).length := by
    rw [Trail.needed, if_neg hroom] at hfree ⊢
    change maxPages - pager.numPages < 1 + place.cost
    omega
  obtain ⟨after, hrun, hafter, hview⟩ :=
    insert_refused hl h.sound h.height_lt hnew hvalue h.gives hfull pager h.coherent rfl
  exact ⟨after, hrun, congrArg View.numPages hview, h.of_view hafter hview⟩

/-- What an insert does is settled by the tree and the number of pages. -/
theorem exists_insert_bears (hs : t.Sound) (hH : H < maxPages) (key : UInt32)
    (value : List UInt8) (n : Nat) :
    ∃ (r : Except Failure Unit) (n' H' : Nat) (t' : Subtree H'),
      ∀ (pager : Pager) (q : PageId) (F : Heap), pager.Bears t q F → pager.numPages = n →
        ∃ after : Pager, (insert key value).run pager = outcome r after ∧
          after.numPages = n' ∧ after.Bears t' q F := by
  cases hkey : lookup t.leaves.entries key with
  | some present =>
    refine ⟨.error (.error (.duplicateKey key)), n, H, t, ?_⟩
    rintro pager q F h rfl
    exact h.run_reads (reads_insert_present hs hH hkey value q)
  | none =>
    by_cases hvalue : value.length = Leaf.valueSize
    · -- The place is found in the tree, so that it is one and the same for all pagers.
      obtain ⟨place, id, next, a, b, hl⟩ := exists_locates hs key
      by_cases hroom : (a ++ b).length < Leaf.maxCells
      · refine ⟨.ok (), n, _, (place.grown n id next a b { key, value }).2, ?_⟩
        rintro pager q F h rfl
        exact exists_insert_room h hl hkey hvalue hroom
      by_cases hfree : n + place.needed (a ++ b).length ≤ maxPages
      · refine ⟨.ok (), n + place.needed (a ++ b).length, _,
          (place.grown n id next a b { key, value }).2, ?_⟩
        rintro pager q F h rfl
        exact exists_insert_full h hl hkey hvalue hfree
      · refine ⟨.error (.error .tableFull), n, H, t, ?_⟩
        rintro pager q F h rfl
        exact exists_insert_refused h hl hkey hvalue hroom hfree
    · refine ⟨.error (.error (.valueSizeMismatch Leaf.valueSize value.length)), n, H, t, ?_⟩
      rintro pager q F h rfl
      exact h.run_reads (reads_insert_mismatch hs hH hkey hvalue q)

end Insert

/-! ## Operations -/

section Perform

variable {a : Pager} {q₀ : PageId} {F₀ : Heap}

/-- A question is answered alike wherever the tree is, and shows no trace. -/
theorem exists_perform_question (ha : a.Bears t q₀ F₀) {op : Operation}
    (hop : op.isInsert = false) (htree : op.InTree a.view) :
    ∃ r, ∀ (pager : Pager) (q : PageId) (F : Heap), pager.Bears t q F → ∃ after : Pager,
      op.perform pager = (r, after) ∧ after.Coherent ∧ after.view = pager.view := by
  have hmem : ∀ id, op = .maxKey id → ∃ x ∈ t.heap true q₀, x.1 = id := by
    rintro id rfl
    exact mem_of_reachable ha.sound ha.spells htree
  obtain ⟨r, hr⟩ := exists_answer ha.sound ha.height_lt ha.length_leaves_le hop hmem
  refine ⟨r, fun pager q F h => ?_⟩
  obtain ⟨after, hrun, hafter, hview⟩ := (hr q).leads h.gives pager h.coherent rfl
  exact ⟨after, Operation.perform_of_run hrun, hafter, hview⟩

/-- What an operation does is settled by the tree and the number of pages. -/
theorem exists_perform_bears (ha : a.Bears t q₀ F₀) {op : Operation} (htree : op.InTree a.view) :
    ∃ (answer : Except Failure Answer) (n' H' : Nat) (t' : Subtree H'),
      ∀ (pager : Pager) (q : PageId) (F : Heap),
        pager.Bears t q F → pager.numPages = a.numPages → ∃ after : Pager,
          op.perform pager = (answer, after) ∧ after.numPages = n' ∧ after.Bears t' q F := by
  cases hop : op.isInsert with
  | true =>
    cases op with
    | insert key value =>
      obtain ⟨r, n', H', t', hinsert⟩ :=
        exists_insert_bears ha.sound ha.height_lt key value a.numPages
      refine ⟨r.map fun _ => .done, n', H', t', fun pager q F h hn => ?_⟩
      obtain ⟨after, hrun, hnum, hafter⟩ := hinsert pager q F h hn
      exact ⟨after, Operation.perform_insert hrun, hnum, hafter⟩
    | _ => cases hop
  | false =>
    obtain ⟨r, hr⟩ := exists_perform_question ha hop htree
    refine ⟨r, a.numPages, H, t, fun pager q F h hn => ?_⟩
    obtain ⟨after, hrun, hafter, hview⟩ := hr pager q F h
    exact ⟨after, hrun, (congrArg View.numPages hview).trans hn, h.of_view hafter hview⟩

/-- So is all that a sequence of operations does. -/
theorem exists_replay_bears (ha : a.Bears t q₀ F₀) {ops : List Operation}
    (htree : InTree ops a) :
    ∃ (reports : List Report) (n' H' : Nat) (t' : Subtree H'),
      ∀ (pager : Pager) (q : PageId) (F : Heap),
        pager.Bears t q F → pager.numPages = a.numPages → ∃ last : Pager,
          replay ops pager = (reports, last) ∧ last.numPages = n' ∧ last.Bears t' q F := by
  induction ops generalizing H a t with
  | nil => exact ⟨[], a.numPages, H, t, fun pager q F h hn => ⟨pager, rfl, hn, h⟩⟩
  | cons op ops ih =>
    obtain ⟨answer, n, H₁, t₁, hstep⟩ := exists_perform_bears ha htree.1
    obtain ⟨after, hrun, hnum, hafter⟩ := hstep a q₀ F₀ ha rfl
    have hrest : InTree ops after := by
      have h := htree.2
      rwa [hrun] at h
    obtain ⟨reports, n', H', t', hlater⟩ := ih hafter hrest
    refine ⟨{ operation := op, answer, numPages := n } :: reports, n', H', t',
      fun pager q F h hn => ?_⟩
    obtain ⟨middle, hfirst, hmiddle, hbears⟩ := hstep pager q F h hn
    obtain ⟨last, hlast, hnum', hbears'⟩ := hlater middle q F hbears (hmiddle.trans hnum.symm)
    refine ⟨last, ?_, hnum', hbears'⟩
    simp only [replay, hfirst, hlast, hmiddle]

end Perform

end Tree
end RowStore
