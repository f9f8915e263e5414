/-
  RowStore/Proofs/Tree/Spares.lean
  ================================
  **What a split leaves alone.**  A split edits the nodes that it is about.  On other pages it
  names new parents, and changes nothing else.  Which nodes it is about depends on what the
  pages say, since the cascade finds its way up by their parents.

  `Spares L m n H` says that `m`, on `n` pages among which those of the heap `H` are, changes
  no page but those of `L`, parents apart.  Most of a split is tidy under a licence for `L`, so
  that nothing has to be known of the pages.  Where the next step is up to them, `Takes` tells
  what they say by then.
-/
import RowStore.Proofs.Tree.Tidy

namespace RowStore

variable {α β : Type} {H h n : Nat}

/-! ## Changes of pages -/

/-- The pages differ at most in their parents. -/
def SameButParent (before page : Page) : Prop :=
  ∀ i, i < 2 ∨ 6 ≤ i → page.byte i = before.byte i

theorem SameButParent.refl (page : Page) : SameButParent page page := fun _ _ => rfl

theorem SameButParent.trans {a b c : Page} (h : SameButParent a b) (h' : SameButParent b c) :
    SameButParent a c :=
  fun i hi => (h' i hi).trans (h i hi)

/-- A page of `L` may be changed.  Any other page may get another parent. -/
def Within (L : PageId → Prop) (id : PageId) (before page : Page) : Prop :=
  L id ∨ SameButParent before page

theorem Header.sameButParent_setParent {parent : PageId} {page after : Page}
    {r : Except Failure Unit} (hrun : (setParent parent).run page = outcome r after) :
    SameButParent page after := by
  have hwrite := Edit.run_writeWord page parent.number (show parentOffset + 4 ≤ pageSize by decide)
  obtain ⟨-, rfl⟩ := outcome_inj (r := .ok ()) (hwrite.symm.trans hrun)
  exact fun i hi => Bytes.byte_putWord_of_not_mem page hi

theorem Tree.licence_within (L : PageId → Prop) : Tree.Licence (Within L) L where
  parent _ _ _ _ _ hrun := .inr (Header.sameButParent_setParent hrun)
  edit hid _ _ _ _ _ := .inl hid

/-- All strides together change a page as each of them may. -/
theorem Pager.Strides.within {L : PageId → Prop} {pager after : Pager}
    (h : Strides (Within L) pager after) (hp : pager.Coherent) (id : PageId) :
    Within L id (pager.content id) (after.content id) := by
  refine (h.related (fun id page => .inr (.refl page)) ?_ hp).2 id
  rintro id a b c (hid | hab) hbc
  · exact .inl hid
  · exact hbc.imp_right hab.trans

/-! ## Steps that spare pages -/

/-- Where the pages of a heap are, the step changes no page but those of `L`, parents apart. -/
def Spares (L : PageId → Prop) (m : PagerM α) (n : Nat) (H : Heap) : Prop :=
  ∀ (pager : Pager) (F : Heap), pager.Holds n (H ++ F) →
    ∀ (r : Except Failure α) (after : Pager), m.run pager = outcome r after →
      pager.Strides (Within L) after

namespace Spares

variable {L : PageId → Prop} {n' : Nat} {H H' K : Heap} {m : PagerM α} {f : α → PagerM β}

theorem of_tidy (hm : Tidy (Within L) [] m) : Spares L m n H :=
  fun _ _ _ _ _ hrun => hm.strides hrun

theorem bind {a : α} (hm : Takes m n H (.ok a) n' H') (hleft : Spares L m n H)
    (hf : Spares L (f a) n' H') : Spares L (m >>= f) n H := by
  intro pager F hp r after hrun
  obtain ⟨middle, hfirst, -, hmiddle⟩ := hm pager F hp
  rw [bind_run (show m.run pager = .ok a middle from hfirst)] at hrun
  exact (hleft pager F hp (.ok a) middle hfirst).trans (hf middle F hmiddle r after hrun)

/-- If the rest is tidy, nothing has to be known of the pages that it meets. -/
theorem bind_tidy (hm : Spares L m n H) (hf : ∀ a, Tidy (Within L) [] (f a)) :
    Spares L (m >>= f) n H := by
  intro pager F hp r after hrun
  obtain ⟨s, middle, hfirst⟩ := exists_outcome m pager
  have hleft := hm pager F hp s middle hfirst
  cases s with
  | ok a =>
    rw [bind_run hfirst] at hrun
    exact hleft.trans ((hf a).strides hrun)
  | error failure =>
    rw [bind_run_error hfirst] at hrun
    obtain ⟨-, rfl⟩ := outcome_inj (r := .error failure) hrun
    exact hleft

theorem reads_bind {a : α} (hm : Reads m H (.ok a)) (hleft : Tidy (Within L) [] m)
    (hf : Spares L (f a) n H) : Spares L (m >>= f) n H :=
  bind (.of_reads hm) (.of_tidy hleft) hf

theorem sees_bind {P : α → Prop} (hm : Sees m H P) (hleft : Tidy (Within L) [] m)
    (hf : ∀ a, P a → Spares L (f a) n H) : Spares L (m >>= f) n H := by
  intro pager F hp r after hrun
  have hgives := (hp.shows.mono (List.subset_append_left H F)).gives hp.view_numPages_le
  obtain ⟨a, middle, hfirst, ha, hmiddle, hview⟩ := hm _ hgives pager ⟨hp.coherent, rfl⟩
  rw [bind_run hfirst] at hrun
  exact (hleft.strides (r := .ok a) hfirst).trans
    (hf a ha middle F (hp.of_view hmiddle hview) r after hrun)

theorem lift_bind {check : Except Failure α} {a : α} (hc : check = .ok a)
    (hf : Spares L (f a) n H) : Spares L (liftM check >>= f) n H :=
  reads_bind (hc ▸ Reads.lift check) (.lift check) hf

theorem get_bind {g : Pager → PagerM β}
    (hg : ∀ pager : Pager, pager.numPages = n → Spares L (g pager) n H) :
    Spares L (get >>= g) n H :=
  fun pager F hp => hg pager hp.numPages_eq pager F hp

/-- A proof about a heap may use that its pages exist. -/
theorem of_index_lt (hm : (∀ x ∈ H, x.1.index < n) → Spares L m n H) : Spares L m n H := by
  intro pager F hp
  refine hm (fun x hx => ?_) pager F hp
  rw [← hp.numPages_eq]
  exact (hp.shows x (List.mem_append_left F hx)).1

theorem perm (hm : Spares L m n H) (hpre : H.Perm K) : Spares L m n K :=
  fun pager F hp => hm pager F (hp.perm (hpre.symm.append_right F))

theorem allocate_bind {g : PageId → PagerM β} (hn : n < maxPages) (hnew : L (PageId.ofNat n))
    (hg : Spares L (g (PageId.ofNat n)) (n + 1) ((PageId.ofNat n, blank) :: H)) :
    Spares L (Pager.allocate >>= g) n H := by
  refine bind ((Takes.allocate hn).among H (.refl _) (.refl _)) (get_bind fun pager hpager => ?_) hg
  have hid : L pager.unusedPage := by
    rw [Pager.unusedPage, hpager]
    exact hnew
  exact .of_tidy (.guard _ (.bind (.edit fun _ _ _ _ => .inl hid) fun _ => .pure _))

end Spares

/-- The branches that a split at the place comes to: those above it, up to the first with
    room. -/
def Trail.spine : {h : Nat} → Trail H h → List PageId
  | _, top => []
  | _, down id left right up =>
    id :: if left.length + right.length < Branch.maxKeys then [] else up.spine

namespace Tree

open Trail (down)

variable {L : PageId → Prop} {id q above : PageId}

/-! ## Splitting branches -/

section Split

variable {left right : List (Subtree h)} {low high : Subtree h} {K : Heap}

theorem spares_growRoot (right : PageId) (hn : n < maxPages) (hroot : L PageId.root)
    (hnew : L (PageId.ofNat n)) : Spares L (growRoot right) n K :=
  .allocate_bind hn hnew (.of_tidy ((licence_within L).tidy_moveRoot _ right
    (fun _ _ _ _ _ => .inl hnew) fun _ _ => .inl hroot))

/-- A new branch without children. -/
theorem spares_newBranch {g : PageId → PagerM β} (h : Nat) (hn : n < maxPages)
    (hnew : L (PageId.ofNat n))
    (hg : Spares L (g (PageId.ofNat n)) (n + 1)
      ((Subtree.branch (PageId.ofNat n) ([] : List (Subtree h))).heap false blank.parent ++ K)) :
    Spares L (do
      let new ← Pager.allocate
      Pager.edit new Branch.init
      g new) n K :=
  .allocate_bind hn hnew (.bind (a := ()) ((Takes.edit (Branch.turns_init blank)).frame K)
    (.of_tidy (.edit fun _ _ _ _ => .inl hnew)) hg)

theorem spares_splitBranch_root (hlen : (left ++ low :: right).length = Branch.maxKeys + 1)
    (hs : Siblings (left ++ low :: high :: right)) (hh : h + 1 < maxPages) (hn : n + 1 < maxPages)
    (hroot : L PageId.root) (hnew : L (PageId.ofNat n)) (hnew' : L (PageId.ofNat (n + 1))) :
    Spares L (splitBranch PageId.root high.id) n
      ((Subtree.branch PageId.root (left ++ low :: right)).heap true q ++
        high.heap false above) := by
  have hmax := reads_maxKeyBelow (hs.formed high (by simp)) false above (Nat.lt_of_succ_lt hh)
  have hprepare : Spares L (prepareSplit PageId.root (PageId.ofNat n) true) (n + 1)
      ((Subtree.branch (PageId.ofNat n) ([] : List (Subtree h))).heap false blank.parent ++
        ((Subtree.branch PageId.root (left ++ low :: right)).heap true q ++
          high.heap false above)) :=
    .bind_tidy (spares_growRoot _ hn hroot hnew') fun _ =>
      (tidy_branch _).bind fun _ => .lift_bind fun _ _ => .pure _
  rw [splitBranch]
  refine .reads_bind (hmax.mono (List.subset_append_right _ _)) (tidy_maxKey _) ?_
  refine .reads_bind ((reads_isRoot_branch List.mem_cons_self).mono (List.subset_append_left _ _))
    (tidy_isRoot _) ?_
  refine spares_newBranch h (Nat.lt_of_succ_lt hn) hnew ?_
  refine .bind (takes_prepareSplit_full hlen hs hh hn) hprepare (.of_tidy ?_)
  exact (licence_within L).tidy_share true hnew' hnew (fun _ => hroot)
    (fun h => Bool.noConfusion h) high.id high.greatest

theorem spares_splitBranch {x : Reading} {keys : List UInt32} {children : List PageId}
    (hx : (id, x) ∈ K) (hbody : x.body = some (.branch false keys children))
    (hmax : Reads (maxKey high.id) K (.ok high.greatest)) (hn : n < maxPages) (hid : L id)
    (hparent : L x.parent) (hnew : L (PageId.ofNat n)) :
    Spares L (splitBranch id high.id) n K := by
  obtain ⟨body, parent⟩ := x
  obtain rfl : body = _ := hbody
  rw [splitBranch]
  refine .reads_bind hmax (tidy_maxKey _) ?_
  refine .reads_bind (reads_isRoot_branch hx) (tidy_isRoot _) ?_
  refine spares_newBranch h hn hnew ?_
  rw [prepareSplit, if_neg Bool.false_ne_true, bind_assoc]
  refine .reads_bind (reads_parentOf (List.mem_append_right _ hx)) (tidy_parentOf _) (.of_tidy ?_)
  rw [bind_assoc]
  refine ((licence_within L).tidy_setParent _ _).bind fun _ => ?_
  rw [pure_bind]
  exact (licence_within L).tidy_share false hid hnew (fun h => Bool.noConfusion h)
    (fun _ => hparent) high.id high.greatest

end Split

/-! ## Linking -/

theorem spares_linkWithin {branches n : Nat} {id q above : PageId} {left right : List (Subtree h)}
    {up : Trail H (h + 1)} {low high : Subtree h} (hz : (down id left right up).Formed)
    (hlow : low.Formed false) (hhigh : high.Formed false)
    (hkeys : ((down id left right up).before.keys ++ low.keys ++ high.keys ++
      (down id left right up).after.keys).Pairwise (· < ·))
    (hroot : up.rootId id = PageId.root) (hH : H < maxPages)
    (hcost : n + (down id left right up).cost ≤ maxPages)
    (hspine : ∀ x ∈ (down id left right up).spine, L x)
    (hnew : ∀ k, n ≤ k → k < maxPages → L (PageId.ofNat k)) :
    Spares L (linkWithin branches id high.id) n
      ((Subtree.branch id (left ++ low :: right)).heap up.isTop (up.parent q) ++
        high.heap false above ++
        up.heap q (id, (Subtree.branch id (left ++ high :: right)).greatest)) := by
  induction branches generalizing h n id above left right up low high with
  | zero => exact .of_tidy (.throw _)
  | succ branches ih =>
    have hs := siblings_link hz hlow hhigh hkeys
    have hh : h + 1 < maxPages := Nat.lt_of_le_of_lt up.le hH
    have hid : L id := hspine id List.mem_cons_self
    rw [linkWithin]
    refine .sees_bind (sees_branch List.mem_cons_self) (tidy_branch id) ?_
    rintro _ ⟨page, rfl, hnode⟩
    rw [count_of_reading (reading_eq_branch_iff.mpr hnode)]
    by_cases hroom : left.length + right.length < Branch.maxKeys
    · rw [if_pos hroom]
      exact .of_tidy ((licence_within L).tidy_attach hid high.id)
    · have hlen : (left ++ low :: right).length = Branch.maxKeys + 1 := by
        have hle : left.length + right.length ≤ Branch.maxKeys := hz.1
        rw [List.length_append, List.length_cons]
        omega
      rw [Trail.cost, if_neg hroom] at hcost
      rw [Trail.spine, if_neg hroom] at hspine
      rw [if_neg hroom]
      cases up with
      | top =>
        obtain rfl : id = PageId.root := hroot
        replace hcost : n + 1 < maxPages := hcost
        rw [Trail.heap, List.append_nil]
        have hsplit : Spares L (splitBranch PageId.root high.id) n
            ((Subtree.branch PageId.root (left ++ low :: right)).heap true q ++
              high.heap false above) :=
          spares_splitBranch_root hlen hs hh hcost hid
            (hnew n (Nat.le_refl n) (Nat.lt_of_succ_lt hcost)) (hnew _ (Nat.le_succ n) hcost)
        exact .bind (takes_splitBranch_root hlen hs hh hcost) hsplit (.of_tidy (.pure ()))
      | down gid gl gr up =>
        have hn : n < maxPages := by omega
        rw [← Nat.add_assoc] at hcost
        have hmax := reads_maxKeyBelow hhigh false above (Nat.lt_of_succ_lt hh)
        have hsplit : Spares L (splitBranch id high.id) n
            ((Subtree.branch id (left ++ low :: right)).heap false gid ++ high.heap false above ++
              (down gid gl gr up).heap q
                (id, (Subtree.branch id (left ++ high :: right)).greatest)) :=
          spares_splitBranch List.mem_cons_self rfl (hmax.mono (by simp)) hn hid
            (hspine gid (List.mem_cons_of_mem _ List.mem_cons_self)) (hnew n (Nat.le_refl n) hn)
        refine .bind (takes_splitBranch_down hlen hs hh hn) hsplit ?_
        exact ih hz.2.2 (formed_staying hlen hs.formed _ _) (formed_moving hlen hs.formed _ _)
          (keys_halves hkeys) hroot hcost (fun x hx => hspine x (List.mem_cons_of_mem _ hx))
          fun k hk => hnew k (Nat.le_of_succ_le hk)

section Halves

variable {z : Trail H h} {whole low high : Subtree h}

theorem spares_linkHalves (hs : Halves z whole low high) (hH : H < maxPages)
    (hcost : n + z.cost ≤ maxPages) (hlow : L low.id) (hspine : ∀ x ∈ z.spine, L x)
    (hnew : ∀ k, n ≤ k → k < maxPages → L (PageId.ofNat k)) :
    Spares L (if z.isTop = true then growRoot high.id
      else do
        let newMax ← maxKey low.id
        editBranch (z.parent q) (Branch.replaceKey (z.parent q) whole.greatest newMax)
        link (z.parent q) high.id)
      n (low.heap z.isTop (z.parent q) ++ high.heap false (z.parent q) ++ z.heap q whole.link) := by
  cases z with
  | top =>
    obtain hroot : low.id = PageId.root := hs.root
    exact spares_growRoot high.id hcost (hroot ▸ hlow) (hnew n (Nat.le_refl n) hcost)
  | down id left right up =>
    have hid : L id := hspine id List.mem_cons_self
    refine .reads_bind ((hs.reads_maxKey hH id).mono (by simp [Trail.isTop, Trail.parent]))
      (tidy_maxKey _) ?_
    refine .bind (a := ()) (takes_relinkHalf hs) (.of_tidy
      ((licence_within L).tidy_editBranch hid (Branch.modest_replaceKey _ _ _))) ?_
    exact .get_bind fun pager _ => spares_linkWithin hs.place hs.formed_low hs.formed_high hs.keys
      hs.root hH hcost hspine hnew

end Halves

/-! ## Inserting -/

section Insert

variable {place : Trail H 0} {next : Option PageId} {a b : List Entry} {x : Entry}

theorem spares_splitLeaf (hf : Fits place id next a b x) (hfull : (a ++ b).length = Leaf.maxCells)
    (hH : H < maxPages) (hcost : n + 1 + place.cost ≤ maxPages) (hid : L id)
    (hspine : ∀ y ∈ place.spine, L y) (hnew : ∀ k, n ≤ k → k < maxPages → L (PageId.ofNat k)) :
    Spares L (splitLeaf id a.length x.key x.value) n
      ((Subtree.leaf id next (a ++ b)).heap place.isTop (place.parent q) ++
        place.heap q (Subtree.leaf id next (a ++ b)).link) := by
  have hhalves := hf.halves hfull (PageId.ofNat n)
  refine .of_index_lt fun hlt => ?_
  have hpos : 0 < n := Nat.lt_of_le_of_lt (Nat.zero_le _) (hlt (id, _) List.mem_cons_self)
  have hn : n < maxPages := by omega
  have hne : some (PageId.ofNat n) ≠ some PageId.root :=
    fun he => ofNat_ne_root hpos hn (Option.some.inj he)
  have hmax : Reads (maxKey id) _ (.ok (Subtree.leaf id next (a ++ b)).greatest) :=
    reads_maxKeyBelow hhalves.formed_whole place.isTop (place.parent q) (by decide)
  have hlink := spares_linkHalves (L := L) (q := q) hhalves hH hcost hid hspine
    fun k hk => hnew k (Nat.le_of_succ_le hk)
  rw [Subtree.id_lowerLeaf, Subtree.id_upperLeaf] at hlink
  rw [splitLeaf]
  refine .reads_bind (hmax.mono (List.subset_append_left _ _)) (tidy_maxKey _) ?_
  refine .sees_bind (sees_leaf List.mem_cons_self) (tidy_leaf _) ?_
  rintro _ ⟨page, rfl, hnode, hparent⟩
  change Leaf.Says page place.isTop next (a ++ b) at hnode
  have hfresh := takes_freshLeaf (n := n + 1) hf hfull hnode.next_ne_root (PageId.ofNat n)
    (place.parent q)
  have hrefill := takes_refillLeaf (n := n + 1) hf hfull hne place.isTop (place.parent q)
  dsimp only
  refine .lift_bind hnode.cells_eq ?_
  rw [insertIdx_cells, List.splitAt_eq, ← List.map_take, ← List.map_drop, List.length_map,
    List.length_map,
    show Leaf.parent { id, page } = place.parent q from hparent,
    show Leaf.next { id, page } = next from hnode.next,
    show Leaf.isRoot { id, page } = place.isTop from hnode.root]
  refine .allocate_bind hn (hnew n (Nat.le_refl n) hn) ?_
  refine .bind (a := ()) (hfresh.frame
    ((Subtree.leaf id next (a ++ b)).heap place.isTop (place.parent q) ++
      place.heap q (Subtree.leaf id next (a ++ b)).link))
    (.of_tidy (.edit fun _ _ _ _ => .inl (hnew n (Nat.le_refl n) hn))) ?_
  have hmodest := (Leaf.modest_setCells
      (((a ++ x :: b).take Leaf.lowerHalf).map Entry.bytes)).bind fun _ =>
    (Leaf.modest_setCount ((a ++ x :: b).take Leaf.lowerHalf).length).bind fun _ =>
      Leaf.modest_setNext (some (PageId.ofNat n))
  refine .bind (a := ()) (hrefill.among
    ((Subtree.upperLeaf (PageId.ofNat n) next (a ++ x :: b)).heap false (place.parent q) ++
      place.heap q (Subtree.leaf id next (a ++ b)).link) ?_
    (List.Perm.of_eq (List.append_assoc _ _ _).symm))
    (.of_tidy ((licence_within L).tidy_editLeaf hid hmodest)) hlink
  rw [List.perm_iff_count]
  intro z
  simp only [List.count_append]
  omega

/-- Where a split is due, an insert changes the pages of the split only. -/
theorem spares_insert {t : Subtree H} {key : UInt32} {value : List UInt8}
    (hl : Locates key t place id next a b) (hs : t.Sound) (hH : H < maxPages)
    (hnew : lookup t.leaves.entries key = none) (hvalue : value.length = Leaf.valueSize)
    (hfull : (a ++ b).length = Leaf.maxCells) (hcost : n + 1 + place.cost ≤ maxPages) (hid : L id)
    (hspine : ∀ y ∈ place.spine, L y) (hpages : ∀ k, n ≤ k → k < maxPages → L (PageId.ofNat k)) :
    Spares L (insert key value) n (t.heap true q) := by
  have hf := hl.fits hs hnew hvalue
  refine .reads_bind (hl.reads_findKey hs hH q) (tidy_findKey key) ?_
  refine .reads_bind (hl.reads_key q) (tidy_cursorKey _) ?_
  rw [if_neg (hl.head_ne hs hnew), Cursor.insert, insertAt]
  simp only [hvalue, ne_eq, not_true_eq_false, if_false]
  refine .perm ?_ (hl.heap_perm q).symm
  refine .sees_bind (sees_leaf List.mem_cons_self) (tidy_leaf _) ?_
  rintro _ ⟨page, rfl, hnode, -⟩
  rw [show Leaf.count { id, page } = (a ++ b).length from hnode.count_eq, if_neg (by simp),
    if_pos (Nat.le_of_eq hfull.symm)]
  have hroom : n + (1 + place.cost) ≤ maxPages := by rwa [← Nat.add_assoc]
  have hsplit := spares_splitLeaf (q := q) hf hfull hH hcost hid hspine hpages
  exact .bind (takes_ensureRoom (reads_countSplits_leaf (q := q) hf hH) hroom)
    (.of_tidy (tidy_ensureRoom id)) hsplit

end Insert

end Tree
end RowStore
