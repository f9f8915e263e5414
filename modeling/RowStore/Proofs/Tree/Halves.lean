/-
  RowStore/Proofs/Tree/Halves.lean
  ================================
  **What a split knows of its halves.**  When a full branch is split, the code takes for
  granted how many keys the two halves have: the lower one starts with all keys of a full
  branch, the upper one is new and starts with none.  That is known whatever the other
  pages hold.  The halves are in memory, they are two pages and not one, and a step that a
  wild link leads elsewhere changes no count.

  `Known stray n F` says so of a pager: there are at least `n` pages, and what `F` says of
  some pages stands on them in memory.  Every step of a cascade is given its effect on `F`,
  on any pages at all.

  One thing is trusted that may be wrong.  A branch that is flagged as the root is split as
  if it were page 0, and then the lower half is a copy of page 0 and not of that branch.
  `stray` says that a page other than page 0 may have the flag.  Only then a count may be
  less than a split takes for granted, and the faults of `Fails` are those that follow.
-/
import RowStore.Proofs.Tree.Branches
import RowStore.Proofs.Tree.Robust
import RowStore.Proofs.Tree.Tidy

namespace RowStore

open Pager (NoChange Strides)

variable {α β : Type}

/-- A page of the file other than page 0 is flagged as the root. -/
def Image.HasStrayRoot (file : Image) : Prop :=
  ∃ id : PageId, id ≠ PageId.root ∧ id.index < maxPages ∧
    file.byte (id.fileOffset + Header.rootOffset) ≠ 0

/-- The step ends with an error, or it has counted below zero at a stray root. -/
def Fails (stray : Prop) (failure : Failure) : Prop :=
  failure.isError = true ∨ failure = .fault .overflow ∧ stray

/-- The same of a step on a pager, wherever the failure leaves it. -/
abbrev Failing (stray : Prop) : Failure → Pager → Prop := fun failure _ => Fails stray failure

/-! ## Pages -/

/-- What is known of a page: what it counts, or where its first cell leads. -/
inductive Fact where
  | atMost (n : Nat)
  | count (n : Nat)
  | first (child : PageId)

/-- The page is as the fact says. -/
def Fact.On (page : Page) : Fact → Prop
  | .atMost n => Branch.countIn page ≤ n
  | .count n => Branch.countIn page = n
  | .first child => Branch.childAt page 0 = child

theorem Fact.On.of_words {page after : Page} {fact : Fact} (h : fact.On page)
    (hword : ∀ off, Header.size ≤ off → after.word off = page.word off) : fact.On after := by
  have hcount : Branch.countIn after = Branch.countIn page :=
    congrArg UInt32.toNat (hword _ (Nat.le_refl _))
  cases fact with
  | atMost n => exact Nat.le_trans (Nat.le_of_eq hcount) h
  | count n => exact hcount.trans h
  | first child => exact (congrArg PageId.mk (hword _ (by decide))).trans h

/-- On the page the edit ends with a page as in `P`, or fails as it may. -/
def Yields (stray : Prop) (e : Edit pageSize Unit) (page : Page) (P : Page → Prop) : Prop :=
  ∀ r after, e.run page = outcome r after →
    match r with
    | .ok () => P after
    | .error failure => Fails stray failure

namespace Yields

variable {stray : Prop} {e : Edit pageSize Unit} {page after : Page} {P Q : Page → Prop}

theorem of_run (hrun : e.run page = .ok () after) (h : P after) : Yields stray e page P := by
  intro r there hthere
  obtain ⟨rfl, rfl⟩ := outcome_inj (r := .ok ()) (hrun.symm.trans hthere)
  exact h

theorem bind {f : Unit → Edit pageSize Unit} (he : Yields stray e page P)
    (hf : ∀ after, P after → Yields stray (f ()) after Q) : Yields stray (e >>= f) page Q := by
  intro r after hrun
  obtain ⟨s, middle, hfirst⟩ := exists_outcome e page
  have hmiddle := he s middle hfirst
  cases s with
  | error failure =>
    rw [bind_run_error hfirst] at hrun
    obtain ⟨rfl, rfl⟩ := outcome_inj (r := .error failure) hrun
    exact hmiddle
  | ok _ =>
    rw [bind_run hfirst] at hrun
    exact hf middle hmiddle r after hrun

theorem imp (he : Yields stray e page P) (h : ∀ after, P after → Q after) :
    Yields stray e page Q := by
  intro r after hrun
  have hafter := he r after hrun
  cases r with
  | ok _ => exact h after hafter
  | error failure => exact hafter

theorem throw {failure : Failure} (h : Fails stray failure) :
    Yields stray (MonadExcept.throw failure) page P := by
  intro r after hrun
  obtain ⟨rfl, rfl⟩ := outcome_inj (r := .error failure) hrun
  exact h

theorem lift_bind {check : Except Failure α} {f : α → Edit pageSize Unit} {R : α → Prop}
    (hcheck : SafeCheck check R) (hf : ∀ a, R a → Yields stray (f a) page Q) :
    Yields stray (liftM check >>= f) page Q := by
  cases check with
  | error failure => exact throw (.inl hcheck)
  | ok a => exact hf a hcheck

theorem get_bind {f : Page → Edit pageSize Unit} (hf : Yields stray (f page) page Q) :
    Yields stray (get >>= f) page Q := hf

theorem ite {c : Prop} [Decidable c] {e' : Edit pageSize Unit} (h : c → Yields stray e page P)
    (h' : ¬c → Yields stray e' page P) : Yields stray (if c then e else e') page P := by
  split
  · exact h ‹_›
  · exact h' ‹_›

/-- A number of keys that is not zero can be lowered; a stray root may have none. -/
theorem oneLess_bind {count : Nat} {f : Nat → Edit pageSize Unit} (hcount : count = 0 → stray)
    (hf : ∀ n, count = n + 1 → Yields stray (f n) page Q) :
    Yields stray (liftM (Tree.oneLess count) >>= f) page Q := by
  cases count with
  | zero => exact throw (.inr ⟨rfl, hcount rfl⟩)
  | succ n => exact hf n rfl

end Yields

theorem Header.yields_setParent {stray : Prop} {page : Page} {P : Page → Prop} (parent : PageId)
    (h : ∀ after : Page, (∀ off, size ≤ off → after.word off = page.word off) → P after) :
    Yields stray (setParent parent) page P := by
  refine .of_run (Edit.run_writeWord page parent.number (by decide)) (h _ fun off hoff => ?_)
  exact Bytes.word_putWord_of_disjoint page (.inr hoff)

namespace Branch

variable {stray : Prop} {page : Page}

theorem yields_setRight (right : PageId) :
    Yields stray (setRight right) page fun after => countIn after = countIn page := by
  refine .of_run (Edit.run_writeWord page right.number (by decide)) (congrArg UInt32.toNat ?_)
  exact Bytes.word_putWord_of_disjoint page (.inl (by decide))

theorem yields_setCount {count : Nat} (hcount : count ≤ maxKeys) :
    Yields stray (setCount count) page fun after => countIn after = count := by
  refine .of_run (run_setCount page hcount) ?_
  rw [countIn, Bytes.word_putWord page _ _ (by decide), toNat_ofNat_of_le hcount]

theorem yields_setKey {i : Nat} (key : UInt32) (hi : i < maxKeys) :
    Yields stray (setKey i key) page fun after => countIn after = countIn page := by
  refine .of_run (run_setKey page key hi) (congrArg UInt32.toNat ?_)
  refine Bytes.word_putWord_of_disjoint page (.inl ?_)
  exact Nat.le_trans (by decide) (headerSize_le i childSize)

theorem yields_insertCell {count i : Nat} (id child : PageId) (key : UInt32)
    (hcount : countIn page = count) (hfull : count < maxKeys) (hi : i ≤ count) :
    Yields stray (insertCell id i child key) page fun after => countIn after = count + 1 := by
  obtain ⟨after, hrun, hafter, -⟩ := exists_insertCell id child key hcount hfull hi
  exact .of_run hrun hafter

theorem yields_init : Yields stray init page fun after => countIn after = 0 := by
  obtain ⟨after, hrun, hafter⟩ := turns_init (reading page) page rfl
  refine .of_run hrun ?_
  exact (reading_eq_branch_iff.mp hafter).1.count

/-- What `attach` does to a branch with room. -/
theorem yields_attach {count : Nat} {right child : PageId} {rightMax childMax : UInt32}
    (id : PageId) (hcount : countIn page = count) (hfull : count < maxKeys) :
    Yields stray (if rightMax < childMax then do
        insertCell id count right rightMax
        setRight child
      else do
        let here : Branch := { id, page := ← get }
        insertCell id (← here.findChild childMax) child childMax) page
      fun after => countIn after = count + 1 := by
  refine .ite (fun _ => ?_) fun _ => .get_bind ?_
  · refine (yields_insertCell id right rightMax hcount hfull (Nat.le_refl _)).bind fun _ hmore => ?_
    rw [← hmore]
    exact yields_setRight child
  · have hfits : (Branch.mk id page).count ≤ maxKeys :=
      Nat.le_trans (Nat.le_of_eq hcount) (Nat.le_of_lt hfull)
    refine .lift_bind (safe_findChild hfits childMax) fun i hi => ?_
    exact yields_insertCell id child childMax hcount hfull (hcount ▸ hi)

theorem yields_replaceKey (id : PageId) (old new : UInt32) (hpage : countIn page ≤ maxKeys) :
    Yields stray (replaceKey id old new) page fun _ => True := by
  have hdone : Yields stray (pure ()) page fun _ => True := .of_run rfl trivial
  have hfits : (Branch.mk id page).count ≤ maxKeys := hpage
  refine .get_bind (.lift_bind (safe_findChild hfits old) fun i _ => ?_)
  refine .ite (fun hi => ?_) fun _ => hdone
  have hlt : i < maxKeys := Nat.lt_of_lt_of_le hi hpage
  refine .lift_bind (safe_key hlt) fun _ _ => .ite (fun _ => ?_) fun _ => hdone
  exact .of_run (run_setKey page new hlt) trivial

theorem safe_indexOfChildFrom {branch : Branch} (child : PageId) :
    ∀ todo i, i + todo ≤ maxKeys →
      SafeCheck (branch.indexOfChildFrom child todo i) fun place => ∀ j ∈ place, j < maxKeys
  | 0, i, _ => .pure nofun
  | todo + 1, i, hi => by
    refine (safe_cellChild (by omega)).bind fun here _ => .ite (fun _ => ?_) fun _ => ?_
    · refine .pure fun j hj => ?_
      obtain rfl := Option.some.inj hj
      omega
    · exact safe_indexOfChildFrom child todo (i + 1) (by omega)

theorem yields_replaceKeyOf (id child : PageId) (new : UInt32) (hpage : countIn page ≤ maxKeys) :
    Yields stray (replaceKeyOf id child new) page fun _ => True := by
  have hindex : SafeCheck ((Branch.mk id page).indexOfChild child) fun place =>
      ∀ j ∈ place, j < maxKeys :=
    safe_indexOfChildFrom child _ 0 (Nat.le_trans (Nat.le_of_eq (Nat.zero_add _)) hpage)
  refine .get_bind (.lift_bind hindex fun place hplace => ?_)
  cases place with
  | none => exact .of_run rfl trivial
  | some i => exact .of_run (run_setKey page new (hplace i rfl)) trivial

theorem yields_dropCell {c : Nat} (hc : c ≤ maxKeys) (hfull : c = maxKeys ∨ stray)
    (hcount : countIn page = c) :
    Yields stray (do setCount (← Tree.oneLess (countIn (← get)))) page
      fun after => countIn after = c - 1 := by
  refine .get_bind (.oneLess_bind (fun hzero => ?_) fun last hlast => ?_)
  · refine hfull.resolve_left ?_
    change c ≠ 3
    omega
  · obtain rfl : last = c - 1 := by omega
    exact yields_setCount (Nat.le_trans (Nat.sub_le c 1) hc)

theorem yields_lastCellToRight {c : Nat} (id : PageId) (hc : c ≤ maxKeys)
    (hfull : c = maxKeys ∨ stray) (hcount : countIn page = c - 1) :
    Yields stray (do
        let here : Branch := { id, page := ← get }
        let last ← Tree.oneLess here.count
        setRight (← here.cellChild last)
        setCount last) page
      fun after => countIn after ≤ 1 := by
  replace hc : c ≤ 3 := hc
  refine .get_bind (.oneLess_bind (fun hzero => ?_) fun last hlast => ?_)
  · replace hzero : countIn page = 0 := hzero
    refine hfull.resolve_left ?_
    change c ≠ 3
    omega
  · replace hlast : countIn page = last + 1 := hlast
    have hlt : last < maxKeys := by
      change last < 3
      omega
    refine .lift_bind (safe_cellChild hlt) fun child _ => (yields_setRight child).bind fun _ _ => ?_
    refine (yields_setCount (Nat.le_of_lt hlt)).imp fun after hafter => ?_
    omega

end Branch

namespace Leaf

variable {stray : Prop} {page : Page} {cells : List (List UInt8)}

theorem yields_insertCell {count i : Nat} {value : List UInt8} (id : PageId) (key : UInt32)
    (hcount : countIn page = count) (hfull : count < maxCells) (hi : i ≤ count)
    (hvalue : value.length = valueSize) :
    Yields stray (insertCell id i key value) page fun _ => True := by
  obtain ⟨after, hrun, -⟩ := exists_insertCell id key hcount hfull hi hvalue
  exact .of_run hrun trivial

theorem yields_setCells_setCount (hlen : cells.length ≤ maxCells)
    (hcells : ∀ cell ∈ cells, cell.length = cellSize) :
    Yields stray (setCells cells >>= fun _ => setCount cells.length) page fun _ => True := by
  have hset : Yields stray (setCells cells) page fun _ => True := by
    obtain ⟨after, hrun, -⟩ :=
      exists_setCells cells 0 page (Nat.le_trans (Nat.le_of_eq (Nat.zero_add _)) hlen) hcells
    exact .of_run hrun trivial
  exact hset.bind fun middle _ => .of_run (run_setCount middle hlen) trivial

theorem yields_setNext (next : Option PageId) :
    Yields stray (setNext next) page fun _ => True :=
  .of_run (Edit.run_writeWord page (next.elim 0 PageId.number) (by decide)) trivial

/-- Any half of the cells fits a new leaf. -/
theorem yields_fresh (parent : PageId) (next : Option PageId) (hlen : cells.length ≤ maxCells)
    (hcells : ∀ cell ∈ cells, cell.length = cellSize) : Yields stray (do
      init
      Header.setParent parent
      setNext next
      setCells cells
      setCount cells.length) page fun _ => True := by
  have hinit : Yields stray init page fun _ => True := by
    obtain ⟨after, hrun, -⟩ := turns_init (reading page) page rfl
    exact .of_run hrun trivial
  exact hinit.bind fun _ _ => (Header.yields_setParent parent fun _ _ => trivial).bind fun _ _ =>
    (yields_setNext next).bind fun _ _ => yields_setCells_setCount hlen hcells

theorem yields_refill (next : Option PageId) (hlen : cells.length ≤ maxCells)
    (hcells : ∀ cell ∈ cells, cell.length = cellSize) : Yields stray (do
      setCells cells
      setCount cells.length
      setNext next) page fun _ => True := by
  have hset : Yields stray (setCells cells >>= fun _ => setCount cells.length) page
      fun _ => True := yields_setCells_setCount hlen hcells
  rw [← bind_assoc]
  exact hset.bind fun _ _ => yields_setNext next

end Leaf

namespace Tree

/-- The end of moving the upper half: the old half gives up its last two keys. -/
def shrink (old : PageId) : PagerM Unit := do
  editBranch old do
    Branch.setCount (← oneLess (Branch.countIn (← MonadState.get)))
  editBranch old do
    let here : Branch := { id := old, page := ← MonadState.get }
    let last ← oneLess here.count
    Branch.setRight (← here.cellChild last)
    Branch.setCount last

end Tree

/-! ## Pagers -/

/-- No page but page 0 is flagged as the root, be it in the file or in memory. -/
structure Pager.Unflagged (pager : Pager) : Prop where
  file : ¬pager.file.HasStrayRoot
  slots : ∀ id page, id ≠ PageId.root → pager.slot id = some page → Header.rootFlag page = false

namespace Pager

theorem Unflagged.loadedAs {pager : Pager} (h : pager.Unflagged) {id : PageId}
    (hid : id ≠ PageId.root) (hmax : id.index < maxPages) :
    Header.rootFlag (pager.loadedAs id) = false := by
  rw [Pager.loadedAs]
  split
  · rw [Header.rootFlag, Image.byte_pageAt _ _ _ (by decide)]
    split
    · have hbyte : pager.file.byte (id.fileOffset + Header.rootOffset) = 0 := by
        by_contra hne
        exact h.file ⟨id, hid, hmax, hne⟩
      rw [hbyte]
      rfl
    · rfl
  · rw [Header.rootFlag, Bytes.byte_zero]
    rfl

/-- A flag is raised on page 0 only, and so no stray root comes up. -/
theorem Unflagged.strides {pager after : Pager} (h : pager.Unflagged)
    (hrun : Strides Unraised pager after) : after.Unflagged := by
  induction hrun with
  | refl => exact h
  | @tail middle after hfirst hlast ih =>
    refine ⟨?_, fun other there hother hthere => ?_⟩
    · rw [hlast.onward.file_eq]
      exact ih.file
    · cases hlast with
      | @request id r _ hrun =>
        cases requested hrun with
        | refused => exact ih.slots other there hother hthere
        | found => exact ih.slots other there hother hthere
        | loaded counters hmax hslot =>
          rw [slot_setSlot middle rfl hmax] at hthere
          split at hthere
          · rename_i he
            cases hthere
            exact ih.loadedAs (he ▸ hother) hmax
          · exact ih.slots other there hother hthere
      | @store id before page hslot hpage =>
        rw [slot_setSlot middle rfl (index_lt_of_slot hslot)] at hthere
        split at hthere
        · rename_i he
          cases hthere
          have hbefore := ih.slots id before (he ▸ hother) hslot
          rcases hpage with hroot | hflag
          · exact absurd (he.trans hroot) hother
          · exact Bool.eq_false_iff.mpr fun hafter => by simp [hflag hafter] at hbefore
        · exact ih.slots other there hother hthere

end Pager

/-- Where pages are counted, an allocation is refused, or it makes the page behind the last one.
    What was in memory stays there. -/
theorem Pager.exists_allocate {pager : Pager} (hp : pager.Counted) :
    (∃ e after, allocate.run pager = .error (.error e) after) ∨
      ∃ after, allocate.run pager = .ok pager.unusedPage after ∧ pager.numPages < maxPages ∧
        after.numPages = pager.numPages + 1 ∧
        ∀ id page, id ≠ pager.unusedPage → pager.slot id = some page →
          after.slot id = some page := by
  have hindex : pager.unusedPage.index = pager.numPages := PageId.index_ofNat hp.numPages_lt
  rw [allocate, get_bind_run]
  by_cases hfull : maxPages ≤ pager.unusedPage.index
  · simp only [if_pos hfull]
    exact .inl ⟨.tableFull, pager, rfl⟩
  simp only [if_neg hfull]
  obtain ⟨r, middle, hrequest⟩ := exists_outcome (request pager.unusedPage) pager
  rw [edit, bind_assoc]
  cases requested hrequest with
  | refused e =>
    rw [bind_run_error hrequest]
    exact .inl ⟨e, _, rfl⟩
  | found counters hslot =>
    have hloaded := hp.loaded_lt _ (isLoaded_iff.mpr ⟨_, hslot⟩)
    exact absurd hindex (Nat.ne_of_lt hloaded)
  | loaded counters hmax hslot =>
    rw [bind_run hrequest]
    refine .inr ⟨_, rfl, hindex ▸ hmax, ?_, fun id page hne hpage => ?_⟩
    · change max pager.numPages (pager.unusedPage.index + 1) = pager.numPages + 1
      rw [hindex]
      exact Nat.max_eq_right (Nat.le_succ _)
    · rw [slot_setSlot _ rfl hmax, if_neg hne]
      exact (request_ok hrequest).1 _ _ hpage

/-- There are at least `n` pages, and the facts `F` stand in memory.  If there is no stray root
    in the file, there is none in memory. -/
structure Known (stray : Prop) (n : Nat) (F : List (PageId × Fact)) (pager : Pager) : Prop where
  counted : pager.Counted
  flags : stray ∨ pager.Unflagged
  numPages_le : n ≤ pager.numPages
  facts : ∀ x ∈ F, ∃ page, pager.slot x.1 = some page ∧ x.2.On page

namespace Known

variable {stray : Prop} {n : Nat} {F G : List (PageId × Fact)} {pager after : Pager}
variable {id : PageId} {page : Page}

theorem mono {n' : Nat} (h : Known stray n F pager) (hn : n' ≤ n) (hsub : G ⊆ F) :
    Known stray n' G pager :=
  ⟨h.counted, h.flags, Nat.le_trans hn h.numPages_le, fun x hx => h.facts x (hsub hx)⟩

/-- What is known of the pages can be forgotten. -/
theorem forget {n' : Nat} (h : Known stray n F pager) (hn : n' ≤ n) : Known stray n' [] pager :=
  h.mono hn (List.nil_subset F)

theorem strides (h : Known stray n F pager) (hrun : Strides Unraised pager after)
    (hfacts : ∀ x ∈ G, ∃ page, after.slot x.1 = some page ∧ x.2.On page) : Known stray n G after :=
  ⟨hrun.counted h.counted, h.flags.imp_right fun hflags => hflags.strides hrun,
    Nat.le_trans h.numPages_le hrun.onward.numPages_le, hfacts⟩

theorem on (h : Known stray n F pager) (fact : Fact) (hfact : (id, fact) ∈ F)
    (hslot : pager.slot id = some page) : fact.On page := by
  obtain ⟨there, hthere, hon⟩ := h.facts _ hfact
  obtain rfl : there = page := Option.some.inj (hthere.symm.trans hslot)
  exact hon

/-- What stands on a page in memory is known. -/
theorem cons (h : Known stray n F pager) (hslot : pager.slot id = some page) {fact : Fact}
    (hfact : fact.On page) : Known stray n ((id, fact) :: F) pager := by
  refine ⟨h.counted, h.flags, h.numPages_le, fun x hx => ?_⟩
  rcases List.mem_cons.mp hx with rfl | hx
  · exact ⟨page, hslot, hfact⟩
  · exact h.facts x hx

theorem index_lt (h : Known stray n F pager) {x : PageId × Fact} (hx : x ∈ F) :
    x.1.index < pager.numPages := by
  obtain ⟨page, hslot, -⟩ := h.facts x hx
  exact h.counted.loaded_lt x.1 (Pager.isLoaded_iff.mpr ⟨page, hslot⟩)

/-! ### Reading -/

/-- Reading changes no page that is known. -/
theorem ends_reading {m : PagerM α} {Q : α → Prop} (hsafe : Safe m Q)
    (htidy : Tidy NoChange [] m) : Ends (Known stray n F) m
      (fun a pager => Known stray n F pager ∧ Q a) (Failing stray) := by
  intro pager hp
  have hends := hsafe pager trivial
  obtain ⟨r, after, hrun⟩ := exists_outcome m pager
  have hstrides := htidy.strides hrun
  rw [hrun] at hends ⊢
  cases r with
  | error failure => exact .inl hends
  | ok a =>
    have hunraised : Strides Unraised pager after :=
      hstrides.lift id fun _ _ hstride => hstride.mono fun _ _ _ => False.elim
    refine ⟨hp.strides hunraised fun x hx => ?_, hends⟩
    obtain ⟨page, hslot, hon⟩ := hp.facts x hx
    exact ⟨page, hstrides.retains _ _ hslot, hon⟩

theorem ends_lift_bind {S : Pager → Prop} {check : Except Failure α} {f : α → PagerM β}
    {P : α → Prop} {Q : β → Pager → Prop} (hcheck : SafeCheck check P)
    (hf : ∀ a, P a → Ends S (f a) Q (Failing stray)) :
    Ends S (liftM check >>= f) Q (Failing stray) := by
  cases check with
  | error failure => exact fun _ _ => .inl hcheck
  | ok a => exact hf a hcheck

theorem ends_maxKey (id : PageId) : Ends (Known stray n F) (Tree.maxKey id)
    (fun _ => Known stray n F) (Failing stray) :=
  (ends_reading (Tree.safe_maxKey id) (Tree.tidy_maxKey id)).imp fun _ _ h => h.1

theorem ends_request (id : PageId) : Ends (Known stray n F) (Pager.request id)
    (fun page pager => Known stray n F pager ∧ pager.slot id = some page) (Failing stray) := by
  intro pager hp
  have hends := ends_reading (Pager.safe_request id) (.request id) pager hp
  cases hrun : (Pager.request id).run pager with
  | error failure after =>
    rw [hrun] at hends
    exact hends
  | ok page after =>
    rw [hrun] at hends
    exact ⟨hends.1, (Pager.request_ok hrun).2⟩

/-- A page that is flagged as the root is page 0, or it is a stray root. -/
theorem ends_isRoot (id : PageId) : Ends (Known stray n F) (Tree.isRoot id)
    (fun b pager => Known stray n F pager ∧ (b = true → id = PageId.root ∨ stray))
    (Failing stray) := by
  refine (ends_request id).bind fun page => .pure fun pager ⟨hp, hslot⟩ => ⟨hp, fun hb => ?_⟩
  rcases hp.flags with hstray | hflags
  · exact .inr hstray
  · by_contra hne
    rw [not_or] at hne
    rw [hflags.slots id page hne.1 hslot] at hb
    cases hb

/-- What was read as a branch is in memory. -/
theorem ends_branch (id : PageId) : Ends (Known stray n F) (Tree.branch id)
    (fun node pager => (Known stray n F pager ∧ pager.slot id = some node.page) ∧
      node.id = id ∧ node.count ≤ Branch.maxKeys) (Failing stray) := by
  refine (ends_request id).bind fun page pager hp => ?_
  have hcheck := Branch.safe_ofPage id page
  cases hnode : Branch.ofPage id page with
  | error failure =>
    rw [hnode] at hcheck
    exact .inl hcheck
  | ok node =>
    obtain ⟨-, hcount, rfl⟩ := Branch.ofPage_eq_ok_iff.mp hnode
    exact ⟨hp, rfl, hcount⟩

theorem ends_leaf (id : PageId) : Ends (Known stray n F) (Tree.leaf id)
    (fun node pager => (Known stray n F pager ∧ pager.slot id = some node.page) ∧
      node.id = id ∧ node.count ≤ Leaf.maxCells) (Failing stray) := by
  refine (ends_request id).bind fun page pager hp => ?_
  have hcheck := Leaf.safe_ofPage id page
  cases hnode : Leaf.ofPage id page with
  | error failure =>
    rw [hnode] at hcheck
    exact .inl hcheck
  | ok node =>
    obtain ⟨-, hcount, rfl⟩ := Leaf.ofPage_eq_ok_iff.mp hnode
    exact ⟨hp, rfl, hcount⟩

/-- What was read as a branch is known to count as it did. -/
theorem ends_branch_count (id : PageId) : Ends (Known stray n F) (Tree.branch id)
    (fun node pager => Known stray n ((id, .count node.count) :: F) pager ∧ node.id = id ∧
      node.count ≤ Branch.maxKeys ∧ ∀ x ∈ F, x.1 = id → x.2.On node.page) (Failing stray) := by
  refine (ends_branch id).imp fun node pager ⟨⟨hp, hslot⟩, hid, hcount⟩ => ?_
  exact ⟨hp.cons hslot rfl, hid, hcount, fun x hx he => by subst he; exact hp.on _ hx hslot⟩

/-- What was read as a leaf is known to count as it did. -/
theorem ends_leaf_count (id : PageId) : Ends (Known stray n F) (Tree.leaf id)
    (fun node pager => Known stray n ((id, .count node.count) :: F) pager ∧ node.id = id ∧
      node.count ≤ Leaf.maxCells ∧ ∀ x ∈ F, x.1 = id → x.2.On node.page) (Failing stray) := by
  refine (ends_leaf id).imp fun node pager ⟨⟨hp, hslot⟩, hid, hcount⟩ => ?_
  exact ⟨hp.cons hslot rfl, hid, hcount, fun x hx he => by subst he; exact hp.on _ hx hslot⟩

/-! ### Changing -/

/-- A page is changed.  What `G` knows of other pages was known before. -/
theorem ends_change {e : Edit pageSize Unit} {before : Page}
    (hflag : ∀ after, e.run page = .ok () after → Unraised id before after)
    (he : Yields stray e page fun after => ∀ x ∈ G, x.1 = id → x.2.On after)
    (hothers : ∀ x ∈ G, x.1 ≠ id → x ∈ F) :
    Ends (fun pager => Known stray n F pager ∧ pager.slot id = some before)
      (Pager.change id page e) (fun _ => Known stray n G) (Failing stray) := by
  rintro pager ⟨hp, hslot⟩
  rw [Pager.change]
  cases hrun : e.run page with
  | error failure after => exact he (.error failure) after hrun
  | ok _ after =>
    replace he := he (.ok ()) after hrun
    refine hp.strides (.single (.store hslot (hflag after hrun))) fun x hx => ?_
    rw [Pager.slot_setSlot pager rfl (Pager.index_lt_of_slot hslot)]
    by_cases he' : x.1 = id
    · rw [if_pos he']
      exact ⟨after, rfl, he x hx he'⟩
    · rw [if_neg he']
      exact hp.facts x (hothers x hx he')

theorem ends_edit {e : Edit pageSize Unit}
    (hflag : ∀ page after, e.run page = .ok () after → Unraised id page after)
    (he : ∀ page, (∀ x ∈ F, x.1 = id → x.2.On page) →
      Yields stray e page fun after => ∀ x ∈ G, x.1 = id → x.2.On after)
    (hothers : ∀ x ∈ G, x.1 ≠ id → x ∈ F) : Ends (Known stray n F) (Pager.edit id e)
      (fun _ => Known stray n G) (Failing stray) := by
  refine (ends_request id).bind fun page pager hp => ?_
  refine ends_change (hflag page) (he page fun x hx hid => ?_) hothers pager hp
  subst hid
  exact hp.1.on _ hx hp.2

theorem ends_editBranch {e : Edit pageSize Unit} (hflag : Modest e)
    (he : ∀ page, Branch.countIn page ≤ Branch.maxKeys → (∀ x ∈ F, x.1 = id → x.2.On page) →
      Yields stray e page fun after => ∀ x ∈ G, x.1 = id → x.2.On after)
    (hothers : ∀ x ∈ G, x.1 ≠ id → x ∈ F) : Ends (Known stray n F) (Tree.editBranch id e)
      (fun _ => Known stray n G) (Failing stray) := by
  refine (ends_branch id).bind fun node => .fact fun ⟨_, hcount⟩ pager hp => ?_
  refine ends_change (fun _ => hflag.unraised id _ (.ok ()) _)
    (he node.page hcount fun x hx hid => ?_) hothers pager hp
  subst hid
  exact hp.1.on _ hx hp.2

theorem ends_editLeaf {e : Edit pageSize Unit} (hflag : Modest e)
    (he : ∀ page, (∀ x ∈ F, x.1 = id → x.2.On page) →
      Yields stray e page fun after => ∀ x ∈ G, x.1 = id → x.2.On after)
    (hothers : ∀ x ∈ G, x.1 ≠ id → x ∈ F) : Ends (Known stray n F) (Tree.editLeaf id e)
      (fun _ => Known stray n G) (Failing stray) := by
  refine (ends_leaf id).bind fun node => .fact fun _ pager hp => ?_
  refine ends_change (fun _ => hflag.unraised id _ (.ok ()) _)
    (he node.page fun x hx hid => ?_) hothers pager hp
  subst hid
  exact hp.1.on _ hx hp.2

/-- Naming a parent leaves all facts as they are. -/
theorem ends_setParent (id parent : PageId) : Ends (Known stray n F) (Tree.setParent id parent)
    (fun _ => Known stray n F) (Failing stray) := by
  have hflag := (Header.modest_setParent parent).unraised id
  refine ends_edit (fun _ _ => hflag _ (.ok ()) _) (fun page hpage => ?_) fun _ hx _ => hx
  exact Header.yields_setParent parent fun after hword x hx hid => (hpage x hx hid).of_words hword

/-! ### Taking a page -/

/-- A page that is taken is a new one, and there is one page more. -/
theorem ends_allocate : Ends (Known stray n F) Pager.allocate
    (fun new pager => Known stray (n + 1) F pager ∧ n ≤ new.index ∧ n < maxPages ∧
      ∀ x ∈ F, x.1.index < new.index) (Failing stray) := by
  intro pager hp
  have hindex : pager.unusedPage.index = pager.numPages :=
    PageId.index_ofNat hp.counted.numPages_lt
  rcases Pager.exists_allocate hp.counted with ⟨e, after, hrun⟩ | ⟨after, hrun, hmax, hnum, hslot⟩
  · rw [hrun]
    exact .inl rfl
  · have hknown (x : PageId × Fact) (hx : x ∈ F) : x.1.index < pager.unusedPage.index :=
      hindex ▸ hp.index_lt hx
    have hafter : Known stray n F after :=
      hp.strides (Tree.tidy_allocate.strides (r := .ok _) hrun) fun x hx => by
        obtain ⟨page, hpage, hon⟩ := hp.facts x hx
        have hne : x.1 ≠ pager.unusedPage := fun he => Nat.ne_of_lt (hknown x hx) (congrArg _ he)
        exact ⟨page, hslot _ _ hne hpage, hon⟩
    have hn := hp.numPages_le
    rw [hrun]
    refine ⟨⟨hafter.counted, hafter.flags, ?_, hafter.facts⟩, hindex ▸ hn,
      Nat.lt_of_le_of_lt hn hmax, hknown⟩
    exact hnum ▸ Nat.succ_le_succ hn

/-! ### Linking -/

/-- The fact about a page is replaced by another. -/
theorem ends_editBranch_fact {e : Edit pageSize Unit} (fact fact' : Fact) (hflag : Modest e)
    (he : ∀ page, fact.On page → Yields stray e page fact'.On) (hF : ∀ x ∈ F, x.1 ≠ id) :
    Ends (Known stray n ((id, fact) :: F)) (Tree.editBranch id e)
      (fun _ => Known stray n ((id, fact') :: F)) (Failing stray) := by
  refine ends_editBranch hflag (fun page _ hpage => ?_) fun x hx hne => ?_
  · refine (he page (hpage _ List.mem_cons_self rfl)).imp fun after hafter x hx hid => ?_
    rcases List.mem_cons.mp hx with rfl | hx
    · exact hafter
    · exact absurd hid (hF x hx)
  · rcases List.mem_cons.mp hx with rfl | hx
    · exact absurd rfl hne
    · exact List.mem_cons_of_mem _ hx

theorem atMost_of_le {c c' : Nat} (h : Known stray n ((id, .atMost c) :: F) pager) (hc : c ≤ c') :
    Known stray n ((id, .atMost c') :: F) pager := by
  obtain ⟨page, hslot, hon⟩ := h.facts _ List.mem_cons_self
  exact (h.mono (Nat.le_refl n) (List.subset_cons_self _ _)).cons hslot (Nat.le_trans hon hc)

/-- A branch that has room has at most one key more when a child was linked. -/
theorem ends_attach {node : Branch} (child : PageId) (hroom : node.count < Branch.maxKeys)
    (hF : ∀ x ∈ F, x.1 ≠ node.id) :
    Ends (Known stray n ((node.id, .count node.count) :: F)) (Tree.attach node child)
      (fun _ => Known stray n ((node.id, .atMost (node.count + 1)) :: F)) (Failing stray) := by
  have hlink {e : Edit pageSize Unit} (hflag : Modest e) (he : ∀ page,
      Branch.countIn page = node.count → Yields stray e page (Fact.atMost (node.count + 1)).On) :
      Ends (Known stray n ((node.id, .count node.count) :: F)) (do
          Tree.editBranch node.id e
          Tree.setParent child node.id)
        (fun _ => Known stray n ((node.id, .atMost (node.count + 1)) :: F)) (Failing stray) :=
    (ends_editBranch_fact (.count node.count) (.atMost _) hflag he hF).bind fun _ =>
      ends_setParent child node.id
  rw [Tree.attach]
  split
  · refine (ends_maxKey child).bind fun childMax => (ends_maxKey node.right).bind fun rightMax => ?_
    refine hlink (Tree.modest_attachEdit _ _ _ _ _ _) fun page hcount => ?_
    exact (Branch.yields_attach node.id hcount hroom).imp fun _ => Nat.le_of_eq
  · refine hlink (Branch.modest_setRight child) fun page hcount => ?_
    refine (Branch.yields_setRight child).imp fun after hafter => ?_
    exact Nat.le_succ_of_le (Nat.le_of_eq (hafter.trans hcount))

theorem ends_attach_of_le {node : Branch} {c : Nat} (child : PageId) (hle : node.count ≤ c)
    (hc : c < Branch.maxKeys) (hF : ∀ x ∈ F, x.1 ≠ node.id) :
    Ends (Known stray n ((node.id, .count node.count) :: (node.id, .atMost c) :: F))
      (Tree.attach node child) (fun _ => Known stray n ((node.id, .atMost (c + 1)) :: F))
      (Failing stray) := by
  intro pager hp
  have hcount : Known stray n ((node.id, .count node.count) :: F) pager :=
    hp.mono (Nat.le_refl n) (List.cons_subset_cons _ (List.subset_cons_self _ _))
  exact ((ends_attach child (Nat.lt_of_le_of_lt hle hc) hF).imp fun _ _ hafter =>
    hafter.atMost_of_le (Nat.succ_le_succ hle)) pager hcount

/-! ### Growing the root -/

theorem ends_adopt (parent : PageId) (children : List PageId) :
    Ends (Known stray n F) (Tree.adopt parent children) (fun _ => Known stray n F)
      (Failing stray) := by
  induction children with
  | nil => exact .pure fun _ hp => hp
  | cons child rest ih => exact (ends_setParent child parent).bind fun _ => ih

theorem ends_requestPair (a b : PageId) : Ends (Known stray n F) (Pager.requestPair a b)
    (fun pair pager => Known stray n F pager ∧ pager.slot a = some pair.1 ∧
      pager.slot b = some pair.2 ∧ a ≠ b) (Failing stray) := by
  rw [Pager.requestPair_eq]
  by_cases hab : a = b
  · rw [if_pos hab]
    exact .refuse fun _ _ => .inl rfl
  rw [if_neg hab]
  refine (ends_request a).bind fun pageA pager hp => ?_
  have hends := ends_request b pager hp.1
  cases hrun : (Pager.request b).run pager with
  | error failure after =>
    rw [hrun] at hends
    rw [bind_run_error hrun]
    exact hends
  | ok pageB after =>
    rw [hrun] at hends
    rw [bind_run hrun]
    exact ⟨hends.1, (Pager.request_ok hrun).1 _ _ hp.2, hends.2, hab⟩

/-- The copy of page 0 counts as page 0 does, and it is not flagged as the root. -/
theorem ends_copyRoot {left : PageId} {before root : Page} (hF : ∀ x ∈ F, x.1 ≠ left) :
    Ends (fun pager => Known stray n F pager ∧ pager.slot left = some before)
      (Pager.change left root (Header.setRoot false))
      (fun _ => Known stray n ((left, .count (Branch.countIn root)) :: F)) (Failing stray) := by
  obtain ⟨copy, hrun, hroot, hbyte⟩ := Header.exists_setRoot false root
  have hcount : Branch.countIn copy = Branch.countIn root :=
    congrArg UInt32.toNat (Bytes.word_congr fun i _ => hbyte _ (by
      change 6 + i ≠ 1
      omega))
  refine ends_change (fun after hafter => .inr fun hflag => ?_) (.of_run hrun fun x hx hid => ?_)
    fun x hx hne => ?_
  · obtain ⟨-, rfl⟩ := EStateM.Result.ok.inj (hrun.symm.trans hafter)
    rw [hroot] at hflag
    cases hflag
  · rcases List.mem_cons.mp hx with rfl | hx
    · exact hcount
    · exact absurd hid (hF x hx)
  · rcases List.mem_cons.mp hx with rfl | hx
    · exact absurd rfl hne
    · exact hx

/-- Page 0 becomes a branch whose first cell leads to the copy. -/
theorem ends_rootOver (left right : PageId) (leftMax : UInt32) (hG : ∀ x ∈ G, x ∈ F)
    (hroot : ∀ x ∈ G, x.1 ≠ PageId.root) :
    Ends (Known stray n F) (Pager.edit PageId.root do
        Branch.init
        Header.setRoot true
        Branch.insertCell PageId.root 0 left leftMax
        Branch.setRight right)
      (fun _ => Known stray n ((PageId.root, .first left) :: G)) (Failing stray) := by
  refine ends_edit (fun _ _ _ => .inl rfl) (fun page _ => ?_) fun x hx hne => ?_
  · obtain ⟨after, hrun, hafter⟩ := Tree.turns_rootOver (reading page) left right leftMax page rfl
    have hnode := (reading_eq_branch_iff.mp hafter).1
    have hfirst : Branch.childAt after 0 = left := hnode.child 0 Nat.zero_lt_one
    refine .of_run hrun fun x hx hid => ?_
    rcases List.mem_cons.mp hx with rfl | hx
    · exact hfirst
    · exact absurd hid (hroot x hx)
  · rcases List.mem_cons.mp hx with rfl | hx
    · exact absurd rfl hne
    · exact hG x hx

/-- The contents of page 0 move to a new page, and the first cell of page 0 leads there. -/
theorem ends_growRoot (right : PageId) (hsub : G ⊆ F) (hG : ∀ x ∈ G, x.1 ≠ PageId.root) :
    Ends (Known stray n F) (Tree.growRoot right) (fun _ pager => ∃ left c,
      Known stray (n + 1) ((PageId.root, .first left) :: (left, .count c) :: G) pager ∧
        (∀ x ∈ G, x.1 ≠ left) ∧ left ≠ PageId.root ∧ ∀ d, (PageId.root, .count d) ∈ F → c = d)
      (Failing stray) := by
  refine ends_allocate.bind fun left => .fact fun ⟨_, _, hfresh⟩ => ?_
  have hF (x : PageId × Fact) (hx : x ∈ F) : x.1 ≠ left := fun he =>
    Nat.ne_of_lt (hfresh x hx) (congrArg PageId.index he)
  refine (ends_requestPair left PageId.root).bind fun (before, root) pager hp => ?_
  obtain ⟨hp, hbefore, hroot, hne⟩ := hp
  have hcount (d : Nat) (hd : (PageId.root, .count d) ∈ F) : Branch.countIn root = d :=
    hp.on (.count d) hd hroot
  have hrest : Ends (Known stray (n + 1) ((left, .count (Branch.countIn root)) :: G)) (do
      let leftMax ← Tree.maxKey left
      Pager.edit PageId.root do
        Branch.init
        Header.setRoot true
        Branch.insertCell PageId.root 0 left leftMax
        Branch.setRight right
      Tree.setParent left PageId.root
      Tree.setParent right PageId.root) (fun _ pager => ∃ left c,
        Known stray (n + 1) ((PageId.root, .first left) :: (left, .count c) :: G) pager ∧
          (∀ x ∈ G, x.1 ≠ left) ∧ left ≠ PageId.root ∧
          ∀ d, (PageId.root, .count d) ∈ F → c = d) (Failing stray) := by
    refine (ends_maxKey left).bind fun leftMax => ?_
    refine (ends_rootOver left right leftMax (fun x hx => hx) fun x hx => ?_).bind fun _ => ?_
    · rcases List.mem_cons.mp hx with rfl | hx
      · exact hne
      · exact hG x hx
    · refine (ends_setParent left _).bind fun _ => (ends_setParent right _).imp fun _ _ hafter => ?_
      exact ⟨left, _, hafter, fun x hx => hF x (hsub hx), hne, hcount⟩
  have hkind : Ends (Known stray (n + 1) ((left, .count (Branch.countIn root)) :: G))
      (Tree.kindOf left) (fun _ => Known stray (n + 1) ((left, .count (Branch.countIn root)) :: G))
      (Failing stray) :=
    (ends_reading (Tree.safe_kindOf left) (Tree.tidy_kindOf left)).imp fun _ _ h => h.1
  have hcopy : Ends (fun pager => Known stray (n + 1) F pager ∧ pager.slot left = some before)
      (Pager.change left root (Header.setRoot false))
      (fun _ => Known stray (n + 1) ((left, .count (Branch.countIn root)) :: G)) (Failing stray) :=
    (ends_copyRoot hF).imp fun _ _ hafter =>
      hafter.mono (Nat.le_refl _) (List.cons_subset_cons _ hsub)
  refine (hcopy.bind fun _ => hkind.bind fun kind => ?_) pager ⟨hp, hbefore⟩
  split
  · refine (ends_branch left).bind fun node => .fact fun ⟨_, hnode⟩ pager hp => ?_
    exact ends_lift_bind (Branch.safe_children hnode) (fun children _ =>
      (ends_adopt left children).bind fun _ => hrest) pager hp.1
  · exact hrest

/-! ### Splitting -/

/-- However the sibling is put there, the lower half starts with a full branch, unless the
    root flag is stray, and the sibling is empty. -/
theorem ends_prepareSplit {parent new : PageId} {splittingRoot : Bool} (hnew : new ≠ PageId.root)
    (hne : parent ≠ new) (hroot : splittingRoot = true → parent = PageId.root ∨ stray) :
    Ends (Known stray n [(parent, .count Branch.maxKeys), (new, .atMost 0)])
      (Tree.prepareSplit parent new splittingRoot) (fun halves pager => ∃ c,
        Known stray n [(halves.1, .count c), (new, .atMost 0)] pager ∧ halves.1 ≠ new ∧
          (c = Branch.maxKeys ∨ stray)) (Failing stray) := by
  rw [Tree.prepareSplit]
  cases splittingRoot with
  | false =>
    have hparentOf : Ends (Known stray n [(parent, .count Branch.maxKeys), (new, .atMost 0)])
        (Tree.parentOf parent)
        (fun _ => Known stray n [(parent, .count Branch.maxKeys), (new, .atMost 0)])
        (Failing stray) :=
      (ends_reading (Tree.safe_parentOf parent) (Tree.tidy_parentOf parent)).imp fun _ _ h => h.1
    refine hparentOf.bind fun grandparent => (ends_setParent new grandparent).bind fun _ => ?_
    exact .pure fun pager hp => ⟨_, hp, hne, .inl rfl⟩
  | true =>
    have hsub : [(new, Fact.atMost 0)] ⊆
        [(parent, .count Branch.maxKeys), (new, .atMost 0)] := List.subset_cons_self _ _
    have hG : ∀ x ∈ [(new, Fact.atMost 0)], x.1 ≠ PageId.root := fun x hx =>
      List.mem_singleton.mp hx ▸ hnew
    refine (ends_growRoot new hsub hG).bind ?_
    rintro _ pager ⟨left, c, hp, hother, -, hcount⟩
    refine ((ends_branch_count PageId.root).bind fun node => .fact fun hnode => ?_) pager hp
    obtain ⟨-, -, hon⟩ := hnode
    have hfirst : node.cellChild 0 = .ok left := by
      have hchild : Branch.childAt node.page 0 = left := hon (_, .first left) List.mem_cons_self rfl
      rw [Branch.cellChild, Branch.Says.cellOffset_eq (show 0 < Branch.maxKeys by decide)]
      exact congrArg Except.ok hchild
    refine Ends.lift_bind hfirst (.pure fun pager hp => ⟨c, hp.mono (Nat.le_succ n) ?_, ?_, ?_⟩)
    · exact List.subset_cons_of_subset _ (List.subset_cons_self _ _)
    · exact (hother _ List.mem_cons_self).symm
    · refine (hroot rfl).imp_left fun hparent => hcount _ ?_
      rw [hparent]
      exact List.mem_cons_self

/-- Of a full branch one key stays. -/
theorem ends_shrink {c : Nat} (old : PageId) (hc : c ≤ Branch.maxKeys)
    (hfull : c = Branch.maxKeys ∨ stray) (hF : ∀ x ∈ F, x.1 ≠ old) :
    Ends (Known stray n ((old, .count c) :: F)) (Tree.shrink old)
      (fun _ => Known stray n ((old, .atMost 1) :: F)) (Failing stray) := by
  rw [Tree.shrink]
  refine (ends_editBranch_fact (.count c) (.count (c - 1)) Tree.modest_dropCell ?_ hF).bind
    fun _ => ?_
  · exact fun _ hcount => Branch.yields_dropCell hc hfull hcount
  · refine ends_editBranch_fact (.count (c - 1)) (.atMost 1) (Tree.modest_lastCellToRight old) ?_ hF
    exact fun _ hcount => Branch.yields_lastCellToRight old hc hfull hcount

end Known
end RowStore
