/-
  RowStore/Proofs/Tree/Height.lean
  ================================
  **Full nodes and few levels.**  A session keeps its leaves at least half full and gives
  every branch two children.  Such a tree doubles from level to level, and a store has room
  for 100 pages only, so that there are at most six levels.

  The walks of the program give up after 100 nodes.  No walk in a session comes near that:
  not even the walk along the right edge below a page that is not there, which begins with
  a blank page and goes on from page 0.
-/
import RowStore.Proofs.Tree.Milestones
import RowStore.Proofs.Tree.Occupancy
import RowStore.Proofs.Tree.Lookups
import RowStore.Proofs.Tree.Outline

namespace RowStore

variable {H h : Nat}

/-! ## Levels -/

/-- A tree doubles from level to level. -/
theorem Subtree.Filled.two_pow_le {t : Subtree h} {b : Bool} (hf : t.Filled b) :
    2 ^ (h + 1) ≤ t.size + 1 := by
  induction h, t using Subtree.ind generalizing b with
  | leaf id next entries => exact Nat.le_refl 2
  | branch h id children ih =>
    obtain ⟨htwo, hchildren⟩ := (Subtree.filled_branch ..).mp hf
    rcases children with _ | ⟨first, _ | ⟨second, rest⟩⟩
    · cases htwo
    · simp at htwo
    · have hfirst := ih first (by simp) (hchildren first (by simp))
      have hsecond := ih second (by simp) (hchildren second (by simp))
      simp only [Subtree.size_branch, List.map_cons, List.sum_cons]
      rw [Nat.pow_succ 2 (h + 1)]
      omega

/-- The pages of a store make six levels at most. -/
theorem Subtree.Filled.height_le {t : Subtree H} {b : Bool} (hf : t.Filled b)
    (hsize : t.size ≤ maxPages) : H + 1 ≤ 6 := by
  by_contra hlt
  have hpow : 2 ^ 7 ≤ 2 ^ (H + 1) := Nat.pow_le_pow_right (by decide) (by omega)
  have htwo := hf.two_pow_le
  change t.size ≤ 100 at hsize
  omega

namespace Tree

/-! ## Nodes -/

/-- A leaf of 7 to 13 entries, a root with any number up to 13, or a branch of 1 to 3 keys
    with a child on each side of every key, all of them pages of the store. -/
inductive Occupied (v : View) (id : PageId) : Prop where
  | leaf {isRoot : Bool} {next : Option PageId} {entries : List Entry}
    (hnode : Leaf.Says (v.page id) isRoot next entries) (hle : entries.length ≤ 13)
    (hlow : 7 ≤ entries.length ∨ id = PageId.root ∧ isRoot = true)
  | branch {isRoot : Bool} {keys : List UInt32} {children : List PageId}
    (hnode : Branch.Says (v.page id) isRoot keys children) (hlow : 1 ≤ keys.length)
    (hle : keys.length ≤ 3) (hlen : children.length = keys.length + 1)
    (hchildren : ∀ child ∈ children, child.index < v.numPages)

/-- The nodes of a formed and filled tree are occupied. -/
theorem occupied_of_mem {v : View} {t : Subtree h} {b : Bool} {parent : PageId}
    (hf : t.Formed b) (hfull : t.Filled b) (hshows : v.Shows (t.heap b parent))
    (hroot : b = true → t.id = PageId.root) {x : PageId × Reading} (hx : x ∈ t.heap b parent) :
    Occupied v x.1 := by
  induction h, t using Subtree.ind generalizing b parent with
  | leaf id next entries =>
    obtain rfl := List.mem_singleton.mp hx
    have hnode := reading_eq_leaf_iff.mp (hshows _ List.mem_cons_self).2
    refine .leaf hnode.1 hnode.1.length_le ?_
    cases b with
    | true => exact .inr ⟨hroot rfl, rfl⟩
    | false => exact .inl ((Subtree.filled_leaf ..).mp hfull rfl)
  | branch h id children ih =>
    obtain ⟨-, hle, hformed⟩ := (Subtree.formed_branch ..).mp hf
    obtain ⟨htwo, hfilled⟩ := (Subtree.filled_branch ..).mp hfull
    have hsub : ∀ child ∈ children,
        child.heap false id ⊆ (Subtree.branch id children).heap b parent :=
      fun child hchild => Subtree.heap_subset_of_mem hchild id parent b
    rcases List.mem_cons.mp hx with rfl | hx
    · have hnode := says_branch (ne_nil_of_formed hf) hshows.spells
      have hkeys : (children.map Subtree.greatest).dropLast.length = children.length - 1 := by
        rw [List.length_dropLast, List.length_map]
      have hmax : children.length ≤ 3 + 1 := hle
      refine .branch hnode (by omega) (by omega) hnode.length_children ?_
      intro c hc
      obtain ⟨child, hchild, rfl⟩ := List.mem_map.mp hc
      obtain ⟨y, hy⟩ := child.exists_mem_heap false id
      exact (hshows _ (hsub child hchild hy)).1
    · obtain ⟨child, hchild, hx⟩ := List.mem_flatMap.mp hx
      exact ih child hchild (hformed child hchild) (hfilled child hchild)
        (hshows.mono (hsub child hchild)) (fun hb => Bool.noConfusion hb) hx

/-! ## Right edges -/

/-- A page may be looked at beside the pages of a heap.  If it is not there yet, it is made,
    and it is blank. -/
theorem gives_beside {v : View} {K : Heap} {id : PageId} (hv : v.numPages ≤ maxPages)
    (hshows : v.Shows K) (hid : id.index < maxPages) :
    Gives (fun pager => v.Shown pager ∨ (v.reach id).Shown pager)
      ((id, reading (v.page id)) :: K) := by
  have hreach : (v.reach id).numPages ≤ maxPages := Nat.max_le.mpr ⟨hv, hid⟩
  intro x hx
  rcases List.mem_cons.mp hx with rfl | hx
  · refine ⟨hid, fun pager hp => ⟨v.page id, ?_⟩⟩
    have hthere : (v.reach id).reach id = v.reach id :=
      View.reach_of_lt (Nat.lt_of_lt_of_le (Nat.lt_succ_self _) (Nat.le_max_right _ _))
    rcases hp with ⟨hp, hview⟩ | ⟨hp, hview⟩
    · obtain ⟨after, hrun, hafter⟩ := Pager.request_leads hid v pager hp hview
      exact ⟨after, hrun, rfl, .inr hafter⟩
    · obtain ⟨after, hrun, hafter⟩ := Pager.request_leads hid (v.reach id) pager hp hview
      rw [hthere] at hafter
      exact ⟨after, hrun, rfl, .inr hafter⟩
  · obtain ⟨hlt, hreading⟩ := hshows x hx
    refine ⟨Nat.lt_of_lt_of_le hlt hv, fun pager hp => ⟨v.page x.1, ?_⟩⟩
    rcases hp with ⟨hp, hview⟩ | ⟨hp, hview⟩
    · obtain ⟨after, hrun, hafter⟩ := Pager.request_existing hv hlt pager hp hview
      exact ⟨after, hrun, hreading, .inl hafter⟩
    · obtain ⟨after, hrun, hafter⟩ := Pager.request_existing hreach
        (Nat.lt_of_lt_of_le hlt (Nat.le_max_left _ _)) pager hp hview
      exact ⟨after, hrun, hreading, .inr hafter⟩

/-- The right edge below a page of a sound tree ends with a key, or in a root without keys. -/
theorem exists_maxKey {t : Subtree H} {q : PageId} (hs : t.Sound) (hH : H < maxPages)
    {x : PageId × Reading} (hx : x ∈ t.heap true q) :
    ∃ r, ((∃ key, r = .ok key) ∨ r = .error (.error (.emptyLeaf PageId.root))) ∧
      ∀ q : PageId, Reads (maxKey x.1) (t.heap true q) r := by
  rw [Subtree.heap_eq_cons] at hx
  rcases List.mem_cons.mp hx with rfl | hx
  · obtain ⟨r, hr, hreads⟩ := exists_maxKeyBelow hs.formed hH
    rw [hs.root] at hr
    exact ⟨r, hr.imp_left fun h => ⟨_, h⟩, hreads true⟩
  · have hformed := hs.formed
    cases H with
    | zero => cases hx
    | succ H =>
      obtain ⟨id, children⟩ := t
      change (Subtree.branch id children).Formed true at hformed
      obtain ⟨child, hchild, hx⟩ := List.mem_flatMap.mp hx
      obtain ⟨h', t', b, parent, hle, hid, hf, hsub, -⟩ :=
        exists_subtree (((Subtree.formed_branch ..).mp hformed).2.2 child hchild) hx
      refine ⟨.ok t'.greatest, .inl ⟨_, rfl⟩, fun q => ?_⟩
      rw [← hid]
      refine (reads_maxKeyBelow hf b parent (by omega)).mono ?_
      exact List.Subset.trans hsub (Subtree.heap_subset_of_mem hchild id q true)

/-- The right edge below a blank page leads to page 0. -/
theorem exists_maxKey_blank {t : Subtree H} (hs : t.Sound) (hH : H + 1 < maxPages) (q id : PageId) :
    ∃ r, ((∃ key, r = .ok key) ∨ r = .error (.error (.emptyLeaf PageId.root))) ∧
      Reads (maxKey id) ((id, blank) :: t.heap true q) r := by
  have hbranch : blank = ⟨some (.branch false [] [PageId.root]), blank.parent⟩ :=
    reading_eq_branch_iff.mpr ⟨Branch.says_blank, rfl⟩
  have hmem : (id, Reading.mk (some (.branch false [] [PageId.root])) blank.parent) ∈
      (id, blank) :: t.heap true q := by
    rw [← hbranch]
    exact List.mem_cons_self
  obtain ⟨r, hr, hreads⟩ :=
    exists_maxKeyBelow hs.formed (show H < 99 from Nat.lt_of_succ_lt_succ hH)
  rw [hs.root] at hr hreads
  refine ⟨r, hr.imp_left fun h => ⟨_, h⟩, ?_⟩
  change Reads (maxKeyBelow (99 + 1) id) _ _
  refine Reads.sees_bind (sees_node_branch hmem) ?_
  rintro _ ⟨page, rfl, hnode, -⟩
  have hchild : Branch.child { id, page } (Branch.count { id, page }) = .ok PageId.root := by
    rw [show Branch.count { id, page } = 0 from hnode.count_eq]
    exact hnode.child_eq rfl rfl
  refine Reads.lift_bind hchild ?_
  exact (hreads true q).mono (List.subset_cons_self _ _)

/-- In a session no walk along a right edge is lost, wherever it begins. -/
theorem Reached.maxKey_not_lost {pager : Pager} {M : Contents} (h : Reached pager M) (id : PageId)
    {r : Except Failure UInt32} {after : Pager} (hrun : (maxKey id).run pager = outcome r after)
    (lost : PageId) : r ≠ .error (.error (.corrupted (.spineLost lost))) := by
  obtain ⟨H, t, q, hstores, -, hsize, hfull⟩ := h.exists_filled
  have hs := hstores.sound
  have hv := hstores.holds.view_numPages_le
  have hshows := hstores.holds.shows
  have hheight := hfull.height_le (hsize ▸ hstores.holds.le_maxPages)
  have hanswer : ∀ {r' : Except Failure UInt32},
      ((∃ key, r' = .ok key) ∨ r' = .error (.error (.emptyLeaf PageId.root))) →
        r' ≠ .error (.error (.corrupted (.spineLost lost))) := by
    rintro _ (⟨key, rfl⟩ | rfl) he
    · cases he
    · cases he
  by_cases hid : id.index < pager.numPages
  · -- Every page of the store is a page of the tree.
    obtain ⟨x, hx, rfl⟩ := Heap.exists_mem hstores.holds.distinct (fun x hx => (hshows x hx).1)
      ((t.length_heap true q).trans hsize) hid
    obtain ⟨r', hr', hreads⟩ := exists_maxKey hs hstores.height_lt hx
    obtain ⟨other, hrun', -⟩ := hstores.run_reads (hreads q)
    obtain ⟨rfl, -⟩ := outcome_inj (hrun.symm.trans hrun')
    exact hanswer hr'
  by_cases hmax : id.index < maxPages
  · have hblank : reading (pager.view.page id) = blank :=
      congrArg reading (hstores.holds.coherent.content_of_le (Nat.not_lt.mp hid))
    have hgives := gives_beside hv hshows hmax
    rw [hblank] at hgives
    obtain ⟨r', hr', hreads⟩ := exists_maxKey_blank hs (show H + 1 < 100 by omega) q id
    obtain ⟨other, hrun', -⟩ := hreads _ hgives pager (.inl ⟨hstores.holds.coherent, rfl⟩)
    obtain ⟨rfl, -⟩ := outcome_inj (hrun.symm.trans hrun')
    exact hanswer hr'
  · have hrefused : (Pager.request id).run pager =
        .error (.error (.pageOutOfBounds id maxPages)) pager := by
      rw [Pager.request, Pager.checkBounds_of_le (Nat.not_lt.mp hmax)]
      rfl
    have hrun' : (maxKey id).run pager =
        outcome (.error (.error (.pageOutOfBounds id maxPages))) pager :=
      bind_run_error (bind_run_error (bind_run_error hrefused))
    obtain ⟨rfl, -⟩ := outcome_inj (hrun.symm.trans hrun')
    intro he
    cases he

/-! ## Sessions -/

/-- In a session every node is occupied as it should be, there are at most six levels, and the
    walks of the program end: searches, the depth, the outline and the check succeed, and the
    right edge below a page is never lost. -/
theorem session_stays_balanced {pager : Pager} {M : Contents} (h : Reached pager M) :
    (∀ id, Reachable pager.view id → Occupied pager.view id) ∧
    (∃ levels after, depth.run pager = .ok levels after ∧ levels ≤ 6) ∧
    (∀ key, ∃ place after, (find key).run pager = .ok place after) ∧
    (∀ id lost after,
      (maxKey id).run pager ≠ .error (.error (.corrupted (.spineLost lost))) after) ∧
    (∃ text after, outlineText.run pager = .ok text after) ∧
    ∃ after, check.run pager = .ok () after := by
  obtain ⟨H, t, q, hstores, -, hsize, hfull⟩ := h.exists_filled
  have hs := hstores.sound
  have hH := hstores.height_lt
  have hshows := hstores.holds.shows
  refine ⟨?_, ?_, ?_, ?_, ?_, ?_⟩
  · intro id hid
    obtain ⟨x, hx, rfl⟩ := mem_of_reachable hs hshows.spells hid
    exact occupied_of_mem hs.formed hfull hshows (fun _ => hs.root) hx
  · have hheight := hfull.height_le (hsize ▸ hstores.holds.le_maxPages)
    obtain ⟨after, hrun, -, -⟩ := hstores.run_reads
      (hs.root ▸ reads_depthBelow hs.formed true q (Nat.le_of_lt hH) 1)
    exact ⟨1 + H, after, hrun, by omega⟩
  · intro key
    obtain ⟨place, leaf, next, a, b, hl⟩ := exists_locates hs key
    obtain ⟨after, hrun, -, -⟩ := hstores.run_reads (hl.reads_find hs hH q)
    exact ⟨_, after, hrun⟩
  · intro id lost after hrun
    exact h.maxKey_not_lost id (r := .error _) hrun lost rfl
  · obtain ⟨after, hrun, -, -⟩ := hstores.run_reads (reads_outlineText hs hH q)
    exact ⟨_, after, hrun⟩
  · obtain ⟨after, hrun, -, -⟩ := hstores.run_reads (reads_check hs hH q)
    exact ⟨after, hrun⟩

/-- After the first split the root has one separator, and both leaves are half full. -/
theorem session_stays_balanced_fourteen : ∃ full split : Pager, FirstSplit full split ∧
    Occupied split.view PageId.root ∧ Occupied split.view ⟨1⟩ ∧ Occupied split.view ⟨2⟩ ∧
    (∃ levels after, depth.run split = .ok levels after ∧ levels ≤ 6) ∧
    (∃ text after, outlineText.run split = .ok text after) ∧
    ∃ after, check.run split = .ok () after := by
  obtain ⟨full, split, h⟩ := exists_firstSplit
  obtain ⟨q, hstores⟩ := h.stores
  obtain ⟨hnodes, hdepth, -, -, houtline, hcheck⟩ := session_stays_balanced h.reached_split
  have hpages (x : PageId × Reading) (hx : x ∈ fourteen.heap true q) : Occupied split.view x.1 :=
    hnodes x.1 (reachable_of_mem hstores.sound.formed hstores.holds.shows.spells .root hx)
  exact ⟨full, split, h, hpages _ (.head _), hpages (⟨1⟩, _) (.tail _ (.tail _ (.head _))),
    hpages (⟨2⟩, _) (.tail _ (.head _)), hdepth, houtline, hcheck⟩

end Tree
end RowStore
