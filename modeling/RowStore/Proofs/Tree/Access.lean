/-
  RowStore/Proofs/Tree/Access.lean
  ================================
  **Steps on the pages they are about.**  A *heap* is a list of pages with what they say.
  The steps of a tree are described by the heap that they are about, and by nothing else:

    * `Sees m H P`: where one gets the pages of `H` and they say what they should, `m` succeeds
      with some `a` for which `P a`, and one gets the same pages afterwards;
    * `Reads m H r`: likewise, with the result `r`, which may be a failure;
    * `Takes m n H r n' H'`: on `n` pages, among them those of `H`, `m` ends with `r`, and
      leaves `n'` pages, among them those of `H'`.

  What a step is not about it leaves alone: `Takes` holds with any other pages beside `H`,
  which then stand beside `H'`.  Heaps that are permutations of each other are the same.
-/
import Mathlib.Data.List.Perm.Subperm
import Mathlib.Data.List.Nodup
import RowStore.Proofs.Pager.View
import RowStore.Proofs.Node.Writing
import RowStore.Tree.Access

namespace RowStore

variable {α β : Type}

theorem PageId.isValid_of_index_lt {id : PageId} (h : id.index < maxPages) : id.isValid = true := by
  refine bne_iff_ne.mpr fun he => ?_
  rw [he] at h
  exact absurd h (by decide)

/-! ## Heaps -/

/-- Pages and what they say. -/
abbrev Heap := List (PageId × Reading)

/-- The pages of a heap exist and say what they should. -/
def View.Shows (v : View) (H : Heap) : Prop :=
  ∀ x ∈ H, x.1.index < v.numPages ∧ reading (v.page x.1) = x.2

theorem View.Shows.mono {v : View} {H K : Heap} (h : v.Shows K) (hsub : H ⊆ K) : v.Shows H :=
  fun x hx => h x (hsub hx)

namespace Heap

variable {H : Heap} {n : Nat}

theorem subperm_range (hdistinct : (H.map Prod.fst).Nodup) (hlt : ∀ x ∈ H, x.1.index < n) :
    ((H.map Prod.fst).map PageId.index).Subperm (List.range n) := by
  refine List.Nodup.subperm (hdistinct.map fun _ _ => PageId.ext_index) fun i hi => ?_
  obtain ⟨id, hid, rfl⟩ := List.mem_map.mp hi
  obtain ⟨x, hx, rfl⟩ := List.mem_map.mp hid
  exact List.mem_range.mpr (hlt x hx)

/-- Different pages of a store are not more than it has. -/
theorem length_le (hdistinct : (H.map Prod.fst).Nodup) (hlt : ∀ x ∈ H, x.1.index < n) :
    H.length ≤ n := by
  have hle := (subperm_range hdistinct hlt).length_le
  rwa [List.length_map, List.length_map, List.length_range] at hle

/-- If they are as many as it has, they are all of them. -/
theorem exists_mem (hdistinct : (H.map Prod.fst).Nodup) (hlt : ∀ x ∈ H, x.1.index < n)
    (hlen : H.length = n) {id : PageId} (hid : id.index < n) : ∃ x ∈ H, x.1 = id := by
  have hperm : ((H.map Prod.fst).map PageId.index).Perm (List.range n) := by
    refine (subperm_range hdistinct hlt).perm_of_length_le (Nat.le_of_eq ?_)
    rw [List.length_map, List.length_map, List.length_range, hlen]
  obtain ⟨_, hp, hindex⟩ := List.mem_map.mp (hperm.symm.subset (List.mem_range.mpr hid))
  obtain ⟨x, hx, rfl⟩ := List.mem_map.mp hp
  exact ⟨x, hx, PageId.ext_index hindex⟩

end Heap

/-- One page may come to say something else. -/
theorem View.Shows.set {v : View} {id : PageId} {x y : Reading} {page : Page} {K : Heap}
    (h : v.Shows ((id, x) :: K)) (hid : id ∉ K.map Prod.fst) (hpage : reading page = y) :
    (v.set id page).Shows ((id, y) :: K) := by
  intro z hz
  rcases List.mem_cons.mp hz with rfl | hz
  · rw [View.set_page_self]
    exact ⟨(h (id, x) List.mem_cons_self).1, hpage⟩
  · have hne : z.1 ≠ id := by
      intro he
      exact hid (List.mem_map.mpr ⟨z, hz, he⟩)
    rw [View.set_page_of_ne _ _ hne]
    exact h z (List.mem_cons_of_mem _ hz)

/-! ## Looking -/

/-- From all pagers of `S` one gets the pages of a heap, and is left with a pager of `S`. -/
def Gives (S : Pager → Prop) (H : Heap) : Prop :=
  ∀ x ∈ H, x.1.index < maxPages ∧ ∀ pager, S pager →
    ∃ page after, (Pager.request x.1).run pager = .ok page after ∧ reading page = x.2 ∧ S after

/-- The pagers that look like `v`. -/
def View.Shown (v : View) (pager : Pager) : Prop := pager.Coherent ∧ pager.view = v

theorem View.Shows.gives_of_lt {v : View} {H : Heap} (hs : v.Shows H)
    (hlt : ∀ x ∈ H, x.1.index < maxPages) : Gives v.Shown H := by
  intro x hx
  obtain ⟨hid, hreading⟩ := hs x hx
  refine ⟨hlt x hx, fun pager hp => ?_⟩
  obtain ⟨after, hrun, hafter⟩ := Pager.request_leads (hlt x hx) v pager hp.1 hp.2
  rw [View.reach_of_lt hid] at hafter
  exact ⟨v.page x.1, after, hrun, hreading, hafter⟩

theorem View.Shows.gives {v : View} {H : Heap} (hv : v.numPages ≤ maxPages) (hs : v.Shows H) :
    Gives v.Shown H :=
  hs.gives_of_lt fun x hx => Nat.lt_of_lt_of_le (hs x hx).1 hv

/-- A step that looks at pages of a heap. -/
def Reads (m : PagerM α) (H : Heap) (r : Except Failure α) : Prop :=
  ∀ S, Gives S H → ∀ pager, S pager → ∃ after, m.run pager = outcome r after ∧ S after

/-- A step that looks at pages of a heap and succeeds.  Its result may depend on bytes that
    mean nothing. -/
def Sees (m : PagerM α) (H : Heap) (P : α → Prop) : Prop :=
  ∀ S, Gives S H → ∀ pager, S pager → ∃ a after, m.run pager = .ok a after ∧ P a ∧ S after

theorem Sees.bind {H : Heap} {m : PagerM α} {f : α → PagerM β} {P : α → Prop} {Q : β → Prop}
    (hm : Sees m H P) (hf : ∀ a, P a → Sees (f a) H Q) : Sees (m >>= f) H Q := by
  intro S hS pager hp
  obtain ⟨a, middle, hrun, ha, hmiddle⟩ := hm S hS pager hp
  obtain ⟨b, after, hrun', hb, hafter⟩ := hf a ha S hS middle hmiddle
  exact ⟨b, after, (bind_run hrun).trans hrun', hb, hafter⟩

theorem Reads.sees {H : Heap} {m : PagerM α} {P : α → Prop} {a : α} (hm : Reads m H (.ok a))
    (ha : P a) : Sees m H P := by
  intro S hS pager hp
  obtain ⟨after, hrun, hafter⟩ := hm S hS pager hp
  exact ⟨a, after, hrun, ha, hafter⟩

namespace Reads

variable {H K : Heap} {m : PagerM α} {f : α → PagerM β} {r : Except Failure β}

theorem pure (a : α) : Reads (Pure.pure a) H (.ok a) := fun _ _ pager hp => ⟨pager, rfl, hp⟩

theorem lift (check : Except Failure α) : Reads (liftM check) H check := by
  intro S hS pager hp
  refine ⟨pager, ?_, hp⟩
  cases check <;> rfl

theorem refuse (e : Error) : Reads (refuse e : PagerM α) H (.error (.error e)) :=
  fun _ _ pager hp => ⟨pager, rfl, hp⟩

theorem sees_bind {P : α → Prop} (hm : Sees m H P) (hf : ∀ a, P a → Reads (f a) H r) :
    Reads (m >>= f) H r := by
  intro S hS pager hp
  obtain ⟨a, middle, hrun, ha, hmiddle⟩ := hm S hS pager hp
  obtain ⟨after, hrun', hafter⟩ := hf a ha S hS middle hmiddle
  exact ⟨after, (bind_run hrun).trans hrun', hafter⟩

theorem bind {a : α} (hm : Reads m H (.ok a)) (hf : Reads (f a) H r) : Reads (m >>= f) H r :=
  sees_bind (hm.sees (P := (· = a)) rfl) fun _ ha => ha ▸ hf

theorem bind_error {failure : Failure} (hm : Reads m H (.error failure)) :
    Reads (m >>= f) H (.error failure) := by
  intro S hS pager hp
  obtain ⟨after, hrun, hafter⟩ := hm S hS pager hp
  exact ⟨after, bind_run_error hrun, hafter⟩

theorem lift_bind {check : Except Failure α} {a : α} (hc : check = .ok a)
    (hf : Reads (f a) H r) : Reads (liftM check >>= f) H r :=
  bind (hc ▸ lift check) hf

theorem mono {r : Except Failure α} (h : Reads m H r) (hsub : H ⊆ K) : Reads m K r :=
  fun S hS => h S fun x hx => hS x (hsub hx)

/-- A proof about a heap may use that its pages are pages of the store. -/
theorem of_index_lt {r : Except Failure α} (h : (∀ x ∈ H, x.1.index < maxPages) → Reads m H r) :
    Reads m H r :=
  fun S hS => h (fun x hx => (hS x hx).1) S hS

/-- Looking changes nothing that is shown. -/
theorem leads {r : Except Failure α} (h : Reads m H r) {v : View} (hgives : Gives v.Shown H) :
    Leads Pager.view m v r v :=
  fun pager hp hview => h v.Shown hgives pager ⟨hp, hview⟩

end Reads

theorem Sees.bind_leads {H : Heap} {m : PagerM α} {f : α → PagerM β} {r : Except Failure β}
    {P : α → Prop} (hm : Sees m H P) {v w : View} (hgives : Gives v.Shown H)
    (hf : ∀ a, P a → Leads Pager.view (f a) v r w) : Leads Pager.view (m >>= f) v r w := by
  intro pager hp hview
  obtain ⟨a, middle, hrun, ha, hmiddle⟩ := hm v.Shown hgives pager ⟨hp, hview⟩
  obtain ⟨after, hrun', hafter⟩ := hf a ha middle hmiddle.1 hmiddle.2
  exact ⟨after, (bind_run hrun).trans hrun', hafter⟩

/-! ## Changing -/

namespace Pager

/-- A coherent pager of `n` pages, among them those of a heap without repetitions. -/
structure Holds (pager : Pager) (n : Nat) (H : Heap) : Prop where
  coherent : pager.Coherent
  numPages_eq : pager.numPages = n
  le_maxPages : n ≤ maxPages
  distinct : (H.map Prod.fst).Nodup
  shows : pager.view.Shows H

theorem Holds.perm {pager : Pager} {n : Nat} {H K : Heap} (h : pager.Holds n H)
    (hperm : H.Perm K) : pager.Holds n K :=
  { h with
    distinct := (hperm.map Prod.fst).nodup_iff.mp h.distinct
    shows := h.shows.mono hperm.symm.subset }

theorem Holds.view_numPages_le {pager : Pager} {n : Nat} {H : Heap} (h : pager.Holds n H) :
    pager.view.numPages ≤ maxPages :=
  Nat.le_trans (Nat.le_of_eq h.numPages_eq) h.le_maxPages

theorem Holds.of_view {pager after : Pager} {n : Nat} {H : Heap} (h : pager.Holds n H)
    (hafter : after.Coherent) (hview : after.view = pager.view) : after.Holds n H where
  coherent := hafter
  numPages_eq := (congrArg View.numPages hview).trans h.numPages_eq
  le_maxPages := h.le_maxPages
  distinct := h.distinct
  shows := hview ▸ h.shows

/-- Changing one page leaves what all others say. -/
theorem Holds.set {pager after : Pager} {n : Nat} {id : PageId} {x y : Reading} {page : Page}
    {F : Heap} (h : pager.Holds n ((id, x) :: F)) (hafter : after.Coherent)
    (hview : after.view = pager.view.set id page) (hpage : reading page = y) :
    after.Holds n ((id, y) :: F) where
  coherent := hafter
  numPages_eq := (congrArg View.numPages hview).trans h.numPages_eq
  le_maxPages := h.le_maxPages
  distinct := h.distinct
  shows := by
    rw [hview]
    exact h.shows.set (List.nodup_cons.mp h.distinct).1 hpage

end Pager

/-- A step that changes the pages of a heap and no others. -/
def Takes (m : PagerM α) (n : Nat) (H : Heap) (r : Except Failure α) (n' : Nat) (H' : Heap) :
    Prop :=
  ∀ (pager : Pager) (F : Heap), pager.Holds n (H ++ F) →
    ∃ after : Pager, m.run pager = outcome r after ∧ after.file = pager.file ∧
      after.Holds n' (H' ++ F)

namespace Takes

variable {n n' n'' : Nat} {H H' H'' K K' : Heap} {m : PagerM α} {f : α → PagerM β}
variable {r : Except Failure β}

theorem pure (a : α) : Takes (Pure.pure a) n H (.ok a) n H :=
  fun pager _ hp => ⟨pager, rfl, rfl, hp⟩

theorem bind {a : α} (hm : Takes m n H (.ok a) n' H') (hf : Takes (f a) n' H' r n'' H'') :
    Takes (m >>= f) n H r n'' H'' := by
  intro pager F hp
  obtain ⟨middle, hrun, hfile, hmiddle⟩ := hm pager F hp
  obtain ⟨after, hrun', hfile', hafter⟩ := hf middle F hmiddle
  exact ⟨after, (bind_run hrun).trans hrun', hfile'.trans hfile, hafter⟩

theorem perm {r : Except Failure α} (h : Takes m n H r n' H') (hpre : H.Perm K)
    (hpost : H'.Perm K') : Takes m n K r n' K' := by
  intro pager F hp
  obtain ⟨after, hrun, hfile, hafter⟩ := h pager F (hp.perm (hpre.symm.append_right F))
  exact ⟨after, hrun, hfile, hafter.perm (hpost.append_right F)⟩

/-- What a step is not about may stand beside it. -/
theorem frame {r : Except Failure α} (h : Takes m n H r n' H') (R : Heap) :
    Takes m n (H ++ R) r n' (H' ++ R) := by
  intro pager F hp
  rw [List.append_assoc] at hp ⊢
  exact h pager (R ++ F) hp

/-- A step is run on its own pages, beside others. -/
theorem among {r : Except Failure α} (h : Takes m n H r n' H') (R : Heap)
    (hpre : (H ++ R).Perm K) (hpost : (H' ++ R).Perm K') : Takes m n K r n' K' :=
  (h.frame R).perm hpre hpost

theorem get_bind {g : Pager → PagerM β} (hg : ∀ pager : Pager, pager.numPages = n →
    Takes (g pager) n H r n' H') : Takes (get >>= g) n H r n' H' :=
  fun pager F hp => hg pager hp.numPages_eq pager F hp

/-- A proof about a heap may use that its pages are different and exist. -/
theorem of_holds {r : Except Failure α} (h : (H.map Prod.fst).Nodup → (∀ x ∈ H, x.1.index < n) →
    n ≤ maxPages → Takes m n H r n' H') : Takes m n H r n' H' := by
  intro pager F hp
  have hdistinct := hp.distinct
  rw [List.map_append, List.nodup_append] at hdistinct
  refine h hdistinct.1 (fun x hx => ?_) hp.le_maxPages pager F hp
  rw [← hp.numPages_eq]
  exact (hp.shows x (List.mem_append_left F hx)).1

/-- Looking changes nothing. -/
theorem of_reads {r : Except Failure α} (h : Reads m H r) : Takes m n H r n H := by
  intro pager F hp
  have hgives := (hp.shows.mono (List.subset_append_left H F)).gives hp.view_numPages_le
  obtain ⟨after, hrun, hafter, hview⟩ := h.leads hgives pager hp.coherent rfl
  exact ⟨after, hrun, congrArg View.file hview, hp.of_view hafter hview⟩

theorem reads_bind {a : α} (hm : Reads m H (.ok a)) (hf : Takes (f a) n H r n' H') :
    Takes (m >>= f) n H r n' H' :=
  (of_reads hm).bind hf

theorem sees_bind {P : α → Prop} (hm : Sees m H P) (hf : ∀ a, P a → Takes (f a) n H r n' H') :
    Takes (m >>= f) n H r n' H' := by
  intro pager F hp
  have hgives := (hp.shows.mono (List.subset_append_left H F)).gives hp.view_numPages_le
  obtain ⟨a, middle, hrun, ha, hmiddle, hview⟩ := hm _ hgives pager ⟨hp.coherent, rfl⟩
  obtain ⟨after, hrun', hfile, hafter⟩ := hf a ha middle F (hp.of_view hmiddle hview)
  exact ⟨after, (bind_run hrun).trans hrun', hfile.trans (congrArg View.file hview), hafter⟩

/-- A check that succeeds can be passed over. -/
theorem lift_bind {check : Except Failure α} {a : α} (hc : check = .ok a)
    (hf : Takes (f a) n H r n' H') : Takes (liftM check >>= f) n H r n' H' :=
  reads_bind (hc ▸ Reads.lift check) hf

end Takes

/-! ## Pages -/

section Pages

open Pager (request)

variable {H : Heap} {id : PageId} {x y : Reading} {n : Nat}

theorem Sees.request (h : (id, x) ∈ H) : Sees (request id) H fun page => reading page = x :=
  fun _ hS => (hS _ h).2

/-- A page that was requested is changed. -/
theorem Takes.change {e : Edit pageSize α} {a : α} {page : Page} {z : Reading}
    (he : Turns e x a y) (hpage : reading page = x) :
    Takes (Pager.change id page e) n [(id, z)] (.ok a) n [(id, y)] := by
  intro pager F hp
  obtain ⟨after, hrun, hafter⟩ := he page hpage
  obtain ⟨done, hrun', hdone, hview⟩ := Pager.change_leads hp.view_numPages_le
    (hp.shows (id, z) List.mem_cons_self).1 hrun pager hp.coherent rfl
  exact ⟨done, hrun', congrArg View.file hview, hp.set hdone hview hafter⟩

theorem Takes.edit {e : Edit pageSize α} {a : α} (he : Turns e x a y) :
    Takes (Pager.edit id e) n [(id, x)] (.ok a) n [(id, y)] :=
  sees_bind (Sees.request List.mem_cons_self) fun _ hpage => Takes.change he hpage

/-- What a page of zeros says. -/
def blank : Reading := reading Bytes.zero

theorem Takes.allocate (hn : n < maxPages) :
    Takes Pager.allocate n [] (.ok (PageId.ofNat n)) (n + 1) [(PageId.ofNat n, blank)] := by
  intro pager F hp
  have hnum : pager.view.numPages = n := hp.numPages_eq
  have hindex : (PageId.ofNat n).index = n := PageId.index_ofNat (Nat.lt_trans hn (by decide))
  obtain ⟨after, hrun, hafter, hview⟩ :=
    Pager.allocate_leads (v := pager.view) (hnum ▸ hn) pager hp.coherent rfl
  rw [hnum] at hrun hview
  refine ⟨after, hrun, congrArg View.file hview, hafter, congrArg View.numPages hview, hn, ?_, ?_⟩
  · refine List.nodup_cons.mpr ⟨fun hmem => ?_, hp.distinct⟩
    obtain ⟨z, hz, hzid⟩ := List.mem_map.mp hmem
    have hlt := (hp.shows z hz).1
    rw [hzid, hindex, hnum] at hlt
    exact Nat.lt_irrefl n hlt
  · intro z hz
    rw [hview]
    rcases List.mem_cons.mp hz with rfl | hz
    · rw [View.set_page_self]
      exact ⟨by rw [hindex]; exact Nat.lt_succ_self n, rfl⟩
    · have hlt := (hp.shows z hz).1
      rw [hnum] at hlt
      have hne : z.1 ≠ PageId.ofNat n := by
        intro he
        rw [he, hindex] at hlt
        exact Nat.lt_irrefl n hlt
      rw [View.set_page_of_ne _ _ hne]
      exact ⟨Nat.lt_succ_of_lt hlt, (hp.shows z hz).2⟩

end Pages

/-! ## Nodes -/

section Nodes

variable {H : Heap} {id parent : PageId} {isRoot : Bool} {next : Option PageId}
variable {entries : List Entry} {keys : List UInt32} {children : List PageId} {n : Nat}

namespace Tree

theorem reads_isRoot_leaf (h : (id, ⟨some (.leaf isRoot next entries), parent⟩) ∈ H) :
    Reads (Tree.isRoot id) H (.ok isRoot) := by
  refine Reads.sees_bind (Sees.request h) fun page hpage => ?_
  rw [(reading_eq_leaf_iff.mp hpage).1.root]
  exact Reads.pure _

theorem reads_isRoot_branch (h : (id, ⟨some (.branch isRoot keys children), parent⟩) ∈ H) :
    Reads (Tree.isRoot id) H (.ok isRoot) := by
  refine Reads.sees_bind (Sees.request h) fun page hpage => ?_
  rw [(reading_eq_branch_iff.mp hpage).1.root]
  exact Reads.pure _

theorem reads_parentOf {x : Reading} (h : (id, x) ∈ H) :
    Reads (parentOf id) H (.ok x.parent) :=
  Reads.sees_bind (Sees.request h) fun _ hpage => hpage ▸ Reads.pure _

theorem reads_kindOf_leaf (h : (id, ⟨some (.leaf isRoot next entries), parent⟩) ∈ H) :
    Reads (kindOf id) H (.ok .leaf) := by
  refine Reads.sees_bind (Sees.request h) fun page hpage => ?_
  rw [(reading_eq_leaf_iff.mp hpage).1.readKind_eq]
  exact Reads.lift _

theorem reads_kindOf_branch (h : (id, ⟨some (.branch isRoot keys children), parent⟩) ∈ H) :
    Reads (kindOf id) H (.ok .branch) := by
  refine Reads.sees_bind (Sees.request h) fun page hpage => ?_
  rw [(reading_eq_branch_iff.mp hpage).1.readKind_eq]
  exact Reads.lift _

theorem sees_leaf (h : (id, ⟨some (.leaf isRoot next entries), parent⟩) ∈ H) :
    Sees (leaf id) H fun node => ∃ page : Page, node = { id, page } ∧
      Leaf.Says page isRoot next entries ∧ Header.parentOf page = parent := by
  refine (Sees.request h).bind fun page hpage => ?_
  have hnode := reading_eq_leaf_iff.mp hpage
  rw [hnode.1.ofPage_eq]
  exact (Reads.lift _).sees ⟨page, rfl, hnode⟩

theorem sees_branch (h : (id, ⟨some (.branch isRoot keys children), parent⟩) ∈ H) :
    Sees (branch id) H fun node => ∃ page : Page, node = { id, page } ∧
      Branch.Says page isRoot keys children ∧ Header.parentOf page = parent := by
  refine (Sees.request h).bind fun page hpage => ?_
  have hnode := reading_eq_branch_iff.mp hpage
  rw [hnode.1.ofPage_eq]
  exact (Reads.lift _).sees ⟨page, rfl, hnode⟩

theorem sees_node_leaf (h : (id, ⟨some (.leaf isRoot next entries), parent⟩) ∈ H) :
    Sees (node id) H fun node => ∃ page : Page, node = .leaf { id, page } ∧
      Leaf.Says page isRoot next entries ∧ Header.parentOf page = parent := by
  refine ((reads_kindOf_leaf h).sees (P := (· = .leaf)) rfl).bind ?_
  rintro _ rfl
  refine (sees_leaf h).bind ?_
  rintro _ ⟨page, rfl, hnode⟩
  exact (Reads.pure _).sees ⟨page, rfl, hnode⟩

theorem sees_node_branch (h : (id, ⟨some (.branch isRoot keys children), parent⟩) ∈ H) :
    Sees (node id) H fun node => ∃ page : Page, node = .branch { id, page } ∧
      Branch.Says page isRoot keys children ∧ Header.parentOf page = parent := by
  refine ((reads_kindOf_branch h).sees (P := (· = .branch)) rfl).bind ?_
  rintro _ rfl
  refine (sees_branch h).bind ?_
  rintro _ ⟨page, rfl, hnode⟩
  exact (Reads.pure _).sees ⟨page, rfl, hnode⟩

theorem takes_editLeaf {e : Edit pageSize α} {a : α} {y : Reading}
    (he : Turns e ⟨some (.leaf isRoot next entries), parent⟩ a y) :
    Takes (editLeaf id e) n [(id, ⟨some (.leaf isRoot next entries), parent⟩)] (.ok a) n
      [(id, y)] := by
  refine Takes.sees_bind (sees_leaf List.mem_cons_self) ?_
  rintro _ ⟨page, rfl, hnode⟩
  exact Takes.change he (reading_eq_leaf_iff.mpr hnode)

theorem takes_editBranch {e : Edit pageSize α} {a : α} {y : Reading}
    (he : Turns e ⟨some (.branch isRoot keys children), parent⟩ a y) :
    Takes (editBranch id e) n [(id, ⟨some (.branch isRoot keys children), parent⟩)] (.ok a) n
      [(id, y)] := by
  refine Takes.sees_bind (sees_branch List.mem_cons_self) ?_
  rintro _ ⟨page, rfl, hnode⟩
  exact Takes.change he (reading_eq_branch_iff.mpr hnode)

theorem takes_setParent (x : Reading) (parent : PageId) :
    Takes (setParent id parent) n [(id, x)] (.ok ()) n [(id, { x with parent })] :=
  Takes.edit (Header.turns_setParent parent x)

end Tree
end Nodes
end RowStore
