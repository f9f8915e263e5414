/-
  RowStore/Proofs/Tree/DamagedSplit.lean
  ======================================
  **Splits in damaged stores.**  A cascade that finds all its pages goes through, or it ends
  with a failure that nobody goes on after.  Every branch that it splits has room afterwards,
  in both halves, so that the pages that were counted for the splits above are still enough.
-/
import RowStore.Proofs.Tree.Damage

namespace RowStore

variable {α : Type}

namespace Tree

variable {v : View} {id : PageId}

/-! ## Splitting a branch that is not the root -/

/-- A branch that gets other keys and children, but not more of them. -/
theorem ends_editTo {e : Edit pageSize α} {a : α} {isRoot : Bool} {keys keys' : List UInt32}
    {children children' : List PageId} (he : Firm e) (hlt : id.index < v.numPages)
    (hbranch : Branch.Says (v.page id) isRoot keys children)
    (hturns : ∀ q, Turns e ⟨some (.branch isRoot keys children), q⟩ a
      ⟨some (.branch isRoot keys' children'), q⟩)
    (hlen : keys'.length ≤ keys.length) (hchildren : ∀ x ∈ children', x ∈ children ∨ v.Answers x) :
    Ends v.Shown (editBranch id e) (fun _ => Lands fun w => v.Eases w ∧
      Branch.Says (w.page id) isRoot keys' children' ∧
      ∀ other, other ≠ id → w.page other = v.page other) Final := by
  have hpage := reading_eq_branch_iff.mpr ⟨hbranch, rfl⟩
  refine (ends_editBranch he (.inl hlt)).imp ?_
  rintro _ _ ⟨_, hw, -, page, hrun, rfl⟩
  have hpage' := (hturns _).run_ok hpage hrun
  refine ⟨_, hw, .set_branch hpage hpage' (.inl hlen) hchildren, ?_, fun other hne =>
    View.set_page_of_ne _ _ hne⟩
  rw [View.set_page_self]
  exact (reading_eq_branch_iff.mp hpage').1

/-- Both halves have room afterwards. -/
theorem ends_moveUpperHalf {old new : PageId} {isRoot : Bool} {keys : List UInt32}
    {children : List PageId} (hlinked : v.Linked) (hold : old.index < v.numPages)
    (hnew : new.index < v.numPages) (hne : old ≠ new)
    (hbranch : Branch.Says (v.page old) isRoot keys children) (hfull : keys.length = Branch.maxKeys)
    (hempty : Branch.Says (v.page new) false [] [PageId.invalid]) :
    Ends v.Shown (moveUpperHalf old new) (fun _ => Lands fun w => v.Eases w ∧
      (∃ ks cs, Branch.Says (w.page old) isRoot ks cs ∧ ks.length ≤ 1) ∧
      ∃ ks cs, Branch.Says (w.page new) false ks cs ∧ ks.length ≤ 1) Final := by
  obtain ⟨a, b, c, rfl⟩ : ∃ a b c, keys = [a, b, c] := List.length_eq_three.mp hfull
  obtain ⟨w, x, y, z, rfl⟩ : ∃ w x y z, children = [w, x, y, z] := by
    obtain ⟨w, rest, rfl⟩ := List.exists_cons_of_length_eq_add_one hbranch.length_children
    obtain ⟨x, y, z, rfl⟩ := List.length_eq_three.mp (Nat.succ.inj hbranch.length_children)
    exact ⟨w, x, y, z, rfl⟩
  refine (ends_branch (.inl hold)).bind fun node => .fact fun ⟨_, hnode, _⟩ => ?_
  subst hnode
  have hright : Branch.right { id := old, page := v.page old } = z := hbranch.right
  rw [hright]
  have hinvalid (u : View) : u.Answers PageId.invalid := .inr (by decide)
  -- The right child moves first, and `new` has no key yet.
  refine (ends_attachTo hlinked hnew hempty (by decide)
    (hlinked _ _ _ _ hbranch z (by simp))).bind fun _ => .lands fun v₁ h₁ => ?_
  obtain ⟨_, cs, hnew₁, -, hsame⟩ := h₁.branch
  obtain rfl := hsame hempty.right
  have hn₁ := h₁.eases.numPages
  have hold₁ : Branch.Says (v₁.page old) isRoot [a, b, c] [w, x, y, z] :=
    hbranch.of_body (h₁.others old hne)
  have hcut : Ends v₁.Shown (editBranch old (Branch.setRight PageId.invalid))
      (fun _ => Lands fun u => v₁.Eases u ∧
        Branch.Says (u.page old) isRoot [a, b, c] [w, x, y, PageId.invalid] ∧
        ∀ other, other ≠ old → u.page other = v₁.page other) Final :=
    ends_editTo (Branch.firm_setRight _) (hn₁ ▸ hold) hold₁
      (fun q => Branch.turns_setRight PageId.invalid) (Nat.le_refl _) fun p hp => by
        rcases List.mem_append.mp (show p ∈ [w, x, y] ++ [PageId.invalid] from hp) with hp | hp
        · exact .inl (List.mem_append_left [z] hp)
        · exact .inr (List.mem_singleton.mp hp ▸ hinvalid v₁)
  refine hcut.bind fun _ => .lands fun v₂ ⟨he₂, hold₂, hother₂⟩ => ?_
  have hn₂ := he₂.numPages.trans hn₁
  refine (ends_branch (.inl (hn₂ ▸ hold))).bind fun node => .fact fun ⟨_, hnode, _⟩ => ?_
  subst hnode
  refine .lift_bind (hold₂.cellChild_eq (show 2 < 3 by decide) rfl) ?_
  have hlinked₂ := he₂.linked (h₁.eases.linked hlinked)
  have hnew₂ : Branch.Says (v₂.page new) false [] cs := by rwa [hother₂ new hne.symm]
  refine (ends_attachTo hlinked₂ (hn₂ ▸ hnew) hnew₂ (by decide)
    (hlinked₂ _ _ _ _ hold₂ y (by simp))).bind fun _ => .lands fun v₃ h₃ => ?_
  obtain ⟨ks, cs₃, hnew₃, hks, -⟩ := h₃.branch
  have hn₃ := h₃.eases.numPages.trans hn₂
  have hold₃ : Branch.Says (v₃.page old) isRoot [a, b, c] [w, x, y, PageId.invalid] :=
    hold₂.of_body (h₃.others old hne)
  have hdrop : Ends v₃.Shown
      (editBranch old do Branch.setCount (← oneLess (Branch.countIn (← get))))
      (fun _ => Lands fun u => v₃.Eases u ∧
        Branch.Says (u.page old) isRoot [a, b] [w, x, PageId.invalid] ∧
        ∀ other, other ≠ old → u.page other = v₃.page other) Final :=
    ends_editTo firm_dropCell (hn₃ ▸ hold) hold₃ (fun q => by
        have hturns : Turns _
          ⟨some (.branch isRoot [a, b, c] [w, x, y, PageId.invalid]), q⟩ () _ :=
            turns_dropCell rfl rfl
        exact hturns)
      (Nat.le_succ 2) fun p hp => by
        rcases List.mem_append.mp (show p ∈ [w, x] ++ [PageId.invalid] from hp) with hp | hp
        · exact .inl (List.mem_append_left [y, PageId.invalid] hp)
        · exact .inr (List.mem_singleton.mp hp ▸ hinvalid v₃)
  refine hdrop.bind fun _ => .lands fun v₄ ⟨he₄, hold₄, hother₄⟩ => ?_
  have hn₄ := he₄.numPages.trans hn₃
  have hlast : Ends v₄.Shown (editBranch old do
        let here : Branch := { id := old, page := ← get }
        let last ← oneLess here.count
        Branch.setRight (← here.cellChild last)
        Branch.setCount last)
      (fun _ => Lands fun u => v₄.Eases u ∧ Branch.Says (u.page old) isRoot [a] [w, x] ∧
        ∀ other, other ≠ old → u.page other = v₄.page other) Final :=
    ends_editTo (firm_lastCellToRight old) (hn₄ ▸ hold) hold₄
      (fun q => by
        have hturns : Turns _ ⟨some (.branch isRoot [a, b] [w, x, PageId.invalid]), q⟩ () _ :=
          turns_lastCellToRight old rfl rfl rfl
        exact hturns)
      (Nat.le_succ 1) fun p hp =>
        .inl (List.mem_append_left [PageId.invalid] hp)
  refine hlast.imp ?_
  rintro _ _ ⟨u, hu, he, hold₅, hother⟩
  refine ⟨u, hu, h₁.eases.trans (he₂.trans (h₃.eases.trans (he₄.trans he))),
    ⟨_, _, hold₅, Nat.le_refl 1⟩, ks, cs₃, ?_, hks⟩
  rwa [hother new hne.symm, hother₄ new hne.symm]

theorem ends_growRoot (right : PageId) (hlt : v.numPages < maxPages) :
    Ends v.Shown (growRoot right) (fun _ _ => True) Final := by
  refine (Pager.ends_allocate hlt).bind fun left => ?_
  exact .firm (firm_moveRoot left right)

/-- Growing a new root takes one page, and everything but that goes through. -/
theorem ends_splitRoot {parent child : PageId} (hlinked : v.Linked) (hroot : v.Flagged parent)
    (hparent : parent.index < v.numPages) (hchild : v.Answers child)
    (hroom : v.numPages + 2 ≤ maxPages) :
    Ends v.Shown (splitBranch parent child) (fun r _ => r = none) Final := by
  refine (ends_maxKey hlinked hchild).bind fun childMax => ?_
  refine (ends_isRoot (.inl hparent)).bind fun splittingRoot => .fact fun hflag => ?_
  obtain rfl := hflag.mpr hroot
  refine (Pager.ends_allocate (by omega)).bind fun new => .fact fun hnew => ?_
  have hlt : new.index < v.numPages + 1 := Nat.lt_succ_of_le (Nat.le_of_eq hnew)
  refine (ends_edit (v := v.more) Branch.firm_init (.inl hlt)).bind fun _ => .lands ?_
  rintro _ ⟨page, -, rfl⟩
  refine Ends.bind (P := fun _ _ => True) ?_ fun (old, grandparent) => ?_
  · refine (ends_growRoot new (v := v.more.set new page) hroom).bind fun _ => ?_
    exact .firm ((firm_branch _).bind fun node => (Firm.lift (node.firm_cellChild 0)).bind fun _ =>
      .pure _)
  · refine (Ends.firm (firm_moveUpperHalf old new)).bind fun _ =>
      (Ends.firm (firm_maxKey old)).bind fun _ => (Ends.firm (firm_attachTo _ child)).bind fun _ =>
      (Ends.firm (firm_maxKey old)).bind fun _ => ?_
    exact (Ends.firm (firm_editBranch (Branch.firm_setKey 0 _) _)).bind fun _ =>
      .pure fun _ _ => rfl

theorem ends_initBranch {new : PageId} (hlinked : v.Linked) (hlt : new.index < v.numPages) :
    Ends v.Shown (Pager.edit new Branch.init)
      (fun _ => Lands fun w => w.numPages = v.numPages ∧ w.Linked ∧
        (∀ other, other ≠ new → w.page other = v.page other) ∧
        Branch.Says (w.page new) false [] [PageId.invalid]) Final := by
  refine (ends_edit Branch.firm_init (.inl hlt)).imp ?_
  rintro _ _ ⟨_, hw, page, hrun, rfl⟩
  have hnew := (reading_eq_branch_iff.mp ((Branch.turns_init _).run_ok rfl hrun)).1
  refine ⟨_, hw, rfl, hlinked.set ?_, fun other hne => View.set_page_of_ne _ _ hne,
    by rwa [View.set_page_self]⟩
  intro isRoot keys children hother child hchild
  obtain ⟨-, -, rfl⟩ := hother.unique hnew
  exact .inr (List.mem_singleton.mp hchild ▸ by decide)

theorem ends_prepareSplit (parent : PageId) {new : PageId} (hlinked : v.Linked)
    (hparent : parent.index < v.numPages) (hnew : new.index < v.numPages) :
    Ends v.Shown (prepareSplit parent new false)
      (fun r => Lands fun w => r = (parent, v.above parent) ∧ w.numPages = v.numPages ∧ w.Linked ∧
        (∀ other, other ≠ new → w.page other = v.page other) ∧
        body? (w.page new) = body? (v.page new)) Final := by
  refine (ends_parentOf (.inl hparent)).bind fun grandparent => .fact fun hgrandparent => ?_
  subst hgrandparent
  refine (ends_setParent (v.above parent) (.inl hnew)).bind fun _ => ?_
  refine .pure ?_
  rintro _ ⟨_, hw, page, hpage, -, rfl⟩
  exact ⟨_, hw, rfl, rfl, hlinked.of_bodies (Nat.le_refl _) (View.body?_set hpage),
    fun other hne => View.set_page_of_ne _ _ hne, View.body?_set hpage new⟩

/-- The children are shared out, and the halves have room for one more. -/
theorem ends_share {old new child : PageId} {childMax : UInt32} {isRoot : Bool}
    {keys : List UInt32} {children : List PageId} {rest : UInt32 → PagerM α}
    {Q : α → Pager → Prop} (hlinked : v.Linked) (hold : old.index < v.numPages)
    (hnew : new.index < v.numPages) (hne : old ≠ new) (hchild : v.Answers child)
    (hbranch : Branch.Says (v.page old) isRoot keys children) (hfull : keys.length = Branch.maxKeys)
    (hempty : Branch.Says (v.page new) false [] [PageId.invalid])
    (hrest : ∀ splitMax w, v.Eases w → Ends w.Shown (rest splitMax) Q Final) :
    Ends v.Shown (do
        moveUpperHalf old new
        let oldMax ← maxKey old
        attachTo (if childMax < oldMax then old else new) child
        let splitMax ← maxKey old
        rest splitMax) Q Final := by
  refine (ends_moveUpperHalf hlinked hold hnew hne hbranch hfull hempty).bind fun _ =>
    .lands fun v₁ ⟨he₁, ⟨ks, cs, hold₁, hks⟩, ks', cs', hnew₁, hks'⟩ => ?_
  have hn₁ := he₁.numPages
  have hlinked₁ := he₁.linked hlinked
  have hchild₁ : v₁.Answers child := hchild.imp_left fun hlt => hn₁ ▸ hlt
  refine (ends_maxKey hlinked₁ (.inl (hn₁ ▸ hold))).bind fun oldMax => ?_
  have hattach : Ends v₁.Shown (attachTo (if childMax < oldMax then old else new) child)
      (fun _ => Lands v₁.Eases) Final := by
    split
    · exact (ends_attachTo hlinked₁ (hn₁ ▸ hold) hold₁
        (Nat.succ_le_succ (Nat.succ_le_succ hks)) hchild₁).imp
        fun _ _ ⟨w, hw, h⟩ => ⟨w, hw, h.eases⟩
    · exact (ends_attachTo hlinked₁ (hn₁ ▸ hnew) hnew₁
        (Nat.succ_le_succ (Nat.succ_le_succ hks')) hchild₁).imp
        fun _ _ ⟨w, hw, h⟩ => ⟨w, hw, h.eases⟩
  refine hattach.bind fun _ => .lands fun w he => ?_
  have hn := he.numPages.trans hn₁
  refine (ends_maxKey (he.linked hlinked₁) (.inl (hn ▸ hold))).bind fun splitMax => ?_
  exact hrest splitMax w (he₁.trans he)

/-- A new separator for a child takes no room. -/
theorem ends_replaceKeyOf (child : PageId) (key : UInt32) (hid : v.Answers id) :
    Ends v.Shown (editBranch id (Branch.replaceKeyOf id child key)) (fun _ => Lands v.Eases)
      Final := by
  refine (ends_editBranch (Branch.firm_replaceKeyOf id child key) hid).imp ?_
  rintro _ _ ⟨_, hw, ⟨isRoot, keys, children, hbranch⟩, page, hrun, rfl⟩
  have hpage := reading_eq_branch_iff.mpr ⟨hbranch, rfl⟩
  exact ⟨_, hw, .set_branch hpage ((Branch.turns_replaceKeyOf id child key).run_ok hpage hrun)
    (.inl (Nat.le_of_eq List.length_set)) fun x hx => .inl hx⟩

/-- What is to be linked after a split can be linked with the pages that are left. -/
theorem ends_splitBelow {parent child : PageId} {pages : Nat} {isRoot : Bool} {keys : List UInt32}
    {children : List PageId} (hlinked : v.Linked) (hroot : ¬v.Flagged parent)
    (hparent : parent.index < v.numPages) (hchild : v.Answers child)
    (hbranch : Branch.Says (v.page parent) isRoot keys children)
    (hfull : keys.length = Branch.maxKeys) (hclimbs : v.Climbs pages parent)
    (hpages : v.numPages + (pages + 1) ≤ maxPages) :
    Ends v.Shown (splitBranch parent child) (fun r => Lands fun w => ∃ grandparent new,
      r = some (grandparent, new) ∧ w.Linked ∧ w.Spare grandparent ∧
        grandparent.index < w.numPages ∧ new.index < w.numPages) Final := by
  obtain ⟨habove, hspare⟩ := hclimbs.spare_above hroot
  refine (ends_maxKey hlinked hchild).bind fun childMax => ?_
  refine (ends_isRoot (.inl hparent)).bind fun splittingRoot => .fact fun hflag => ?_
  obtain rfl : splittingRoot = false := Bool.eq_false_iff.mpr (mt hflag.mp hroot)
  refine (Pager.ends_allocate (by omega)).bind fun new => .fact fun hindex => ?_
  have hne {other : PageId} (hother : other.index < v.numPages) : other ≠ new := by
    rintro rfl
    omega
  have hmore := v.numPages_more
  refine (ends_initBranch hlinked.more (by omega)).bind fun _ => .lands ?_
  rintro v₁ ⟨hn₁, hlinked₁, hother₁, hempty₁⟩
  refine (ends_prepareSplit parent hlinked₁ (by omega) (by omega)).bind fun _ => .lands ?_
  rintro v₂ ⟨rfl, hn₂, hlinked₂, hother₂, hbody⟩
  -- Up to here no page but the new one has changed.
  have hsame (other : PageId) (hother : other.index < v.numPages) : v₂.page other = v.page other :=
    (hother₂ other (hne hother)).trans (hother₁ other (hne hother))
  have hempty : Branch.Says (v₂.page new) false [] [PageId.invalid] :=
    hempty₁.of_body hbody
  have hup : v₁.above parent = v.above parent := by
    rw [View.above, View.above, hother₁ parent (hne hparent)]
    rfl
  rw [hup]
  refine ends_share hlinked₂ (by omega) (by omega) (hne hparent)
    (hchild.imp_left fun hlt => by omega) (by rwa [hsame parent hparent]) hfull hempty
    fun splitMax v₃ he₃ => ?_
  have hn₃ := he₃.numPages
  rw [if_neg Bool.false_ne_true]
  refine (ends_replaceKeyOf parent splitMax (.inl (by omega))).bind fun _ => ?_
  refine .pure ?_
  rintro pager ⟨w, hw, he⟩
  have hn := he.numPages
  exact ⟨w, hw, _, _, rfl, he.linked (he₃.linked hlinked₂), View.spare_of_eases habove
    hspare (by omega) hsame (he₃.trans he) hpages, by omega, by omega⟩

/-! ## The cascade -/

theorem ends_linkWithin (branches : Nat) : ∀ {v : View} {parent child : PageId},
    v.Linked → parent.index < v.numPages → child.index < v.numPages → v.Spare parent →
      Ends v.Shown (linkWithin branches parent child) (fun _ _ => True) Final := by
  induction branches with
  | zero => exact fun _ _ _ _ => .firm (.throw rfl)
  | succ branches ih =>
    intro v parent child hlinked hparent hchild hspare
    refine (ends_branch (.inl hparent)).bind fun node => .fact fun ⟨_, hnode, hbranch⟩ => ?_
    obtain ⟨isRoot, keys, children, hbranch⟩ := hbranch
    subst hnode
    rw [hbranch.count_eq]
    by_cases hroom : keys.length < Branch.maxKeys
    · rw [if_pos hroom]
      exact .firm (firm_attach _ _)
    · rw [if_neg hroom]
      have hfull : keys.length = Branch.maxKeys :=
        Nat.le_antisymm hbranch.length_le (Nat.not_lt.mp hroom)
      -- The parent has no room, so it is for the free pages that a child can be linked.
      obtain ⟨pages, hclimbs, hpages⟩ : ∃ pages, v.Climbs pages parent ∧
          v.numPages + (pages + 1) ≤ maxPages := by
        refine hspare.resolve_left ?_
        rintro ⟨b, ks, cs, hother, hlt⟩
        obtain ⟨-, rfl, -⟩ := hother.unique hbranch
        exact hroom hlt
      by_cases hroot : v.Flagged parent
      · have hpos := hclimbs.pos_of_flagged hroot
        refine (ends_splitRoot hlinked hroot hparent (.inl hchild) (by omega)).bind fun r => ?_
        rintro pager rfl
        exact trivial
      · refine (ends_splitBelow hlinked hroot hparent (.inl hchild) hbranch hfull hclimbs
          hpages).bind fun r => .lands ?_
        rintro w ⟨grandparent, new, rfl, hlinked', hspare', hgrandparent, hnew⟩
        exact ih hlinked' hgrandparent hnew hspare'

theorem ends_link {parent child : PageId} (hlinked : v.Linked) (hparent : parent.index < v.numPages)
    (hchild : child.index < v.numPages)
    (hspare : v.Spare parent) : Ends v.Shown (link parent child) (fun _ _ => True) Final :=
  fun pager hp => ends_linkWithin _ hlinked hparent hchild hspare pager hp

end Tree

/-! ## Splitting a leaf -/

/-- Whatever key it looks for, it changes keys only. -/
theorem Branch.replaced {page after : Page} {isRoot : Bool} {keys : List UInt32}
    {children : List PageId} {id q : PageId} {old new : UInt32}
    (hpage : reading page = ⟨some (.branch isRoot keys children), q⟩)
    (hrun : (replaceKey id old new).run page = .ok () after) :
    ∃ keys', keys'.length = keys.length ∧
      reading after = ⟨some (.branch isRoot keys' children), q⟩ := by
  have hkeep : ∃ keys', keys'.length = keys.length ∧
      reading page = ⟨some (.branch isRoot keys' children), q⟩ := ⟨keys, rfl, hpage⟩
  rw [replaceKey, get_bind_run] at hrun
  dsimp only at hrun
  cases hplace : findChild { id, page } old with
  | error failure =>
    rw [bind_run_error (by rw [hplace]; rfl)] at hrun
    cases hrun
  | ok i =>
    rw [lift_bind_run hplace] at hrun
    split at hrun
    · rename_i hi
      replace hi : i < keys.length := (reading_eq_branch_iff.mp hpage).1.count_eq ▸ hi
      rw [lift_bind_run ((reading_eq_branch_iff.mp hpage).1.key_eq hi)] at hrun
      split at hrun
      · exact ⟨_, List.length_set, (turns_setKey new hi).run_ok hpage hrun⟩
      · cases hrun
        exact hkeep
    · cases hrun
      exact hkeep

namespace Tree

variable {v : View} {id : PageId}

theorem ends_replaceKey (old new : UInt32) (hid : v.Answers id) :
    Ends v.Shown (editBranch id (Branch.replaceKey id old new)) (fun _ => Lands v.Eases) Final := by
  refine (ends_editBranch (Branch.firm_replaceKey id old new) hid).imp ?_
  rintro _ _ ⟨_, hw, ⟨isRoot, keys, children, hbranch⟩, page, hrun, rfl⟩
  have hpage := reading_eq_branch_iff.mpr ⟨hbranch, rfl⟩
  obtain ⟨keys', hlen, hpage'⟩ := Branch.replaced hpage hrun
  exact ⟨_, hw, .set_branch hpage hpage' (.inl (Nat.le_of_eq hlen)) fun x hx => .inl hx⟩

/-- The new half is linked beside the old one. -/
theorem ends_linkNew (parent : PageId) {new : PageId} {oldMax : UInt32} (hlinked : v.Linked)
    (hid : id.index < v.numPages) (hparent : parent.index < v.numPages)
    (hnew : new.index < v.numPages) (hspare : ∀ w, v.Eases w → w.Spare parent) :
    Ends v.Shown (do
        let newMax ← maxKey id
        editBranch parent (Branch.replaceKey parent oldMax newMax)
        link parent new) (fun _ _ => True) Final := by
  refine (ends_maxKey hlinked (.inl hid)).bind fun newMax => ?_
  refine (ends_replaceKey oldMax newMax (.inl hparent)).bind fun _ => .lands fun w he => ?_
  have hn := he.numPages
  exact ends_link (he.linked hlinked) (hn ▸ hparent) (hn ▸ hnew) (hspare w he)

section Fill

variable {next : Option PageId} {entries : List Entry}

theorem ends_freshLeaf {new parent : PageId} (hlinked : v.Linked) (hnew : new.index < v.numPages)
    (hnext : next ≠ some PageId.root) (hlen : entries.length ≤ Leaf.maxCells)
    (hvalue : ∀ entry ∈ entries, entry.value.length = Leaf.valueSize) :
    Ends v.Shown (Pager.edit new do
        Leaf.init
        Header.setParent parent
        Leaf.setNext next
        Leaf.setCells (entries.map Entry.bytes)
        Leaf.setCount entries.length)
      (fun _ => Lands fun w => w.numPages = v.numPages ∧ w.Linked ∧
        ∀ other, other ≠ new → w.page other = v.page other) Final := by
  refine (ends_edit (Leaf.firm_fresh _ _ _ _) (.inl hnew)).imp ?_
  rintro _ _ ⟨_, hw, page, hrun, rfl⟩
  have hpage := (Leaf.turns_fresh _ parent hnext hlen hvalue).run_ok rfl hrun
  refine ⟨_, hw, rfl, hlinked.set ?_, fun other hne => View.set_page_of_ne _ _ hne⟩
  intro isRoot keys children hother
  exact absurd hother (reading_eq_leaf_iff.mp hpage).1.not_branch

theorem ends_refillLeaf {isRoot : Bool} {old : Option PageId} {whole : List Entry}
    (hid : id.index < v.numPages) (hleaf : Leaf.Says (v.page id) isRoot old whole)
    (hnext : next ≠ some PageId.root) (hlen : entries.length ≤ Leaf.maxCells)
    (hvalue : ∀ entry ∈ entries, entry.value.length = Leaf.valueSize) :
    Ends v.Shown (editLeaf id do
        Leaf.setCells (entries.map Entry.bytes)
        Leaf.setCount entries.length
        Leaf.setNext next)
      (fun _ => Lands v.Eases) Final := by
  refine (ends_editLeaf (Leaf.firm_refill _ _ _) (.inl hid)).imp ?_
  rintro _ _ ⟨_, hw, page, hrun, rfl⟩
  have hpage := reading_eq_leaf_iff.mpr ⟨hleaf, rfl⟩
  exact ⟨_, hw, .set_leaf hpage ((Leaf.turns_refill hnext hlen hvalue).run_ok hpage hrun)⟩

end Fill

/-- A full leaf is split with the pages that were counted. -/
theorem ends_splitLeaf {pages : Nat} {isRoot : Bool} {next : Option PageId} {a b : List Entry}
    {x : Entry} (hlinked : v.Linked) (hid : id.index < v.numPages)
    (hleaf : Leaf.Says (v.page id) isRoot next (a ++ b)) (hfull : (a ++ b).length = Leaf.maxCells)
    (hvalue : x.value.length = Leaf.valueSize) (hclimbs : v.Climbs pages id)
    (hpages : v.numPages + (pages + 1) ≤ maxPages) :
    Ends v.Shown (splitLeaf id a.length x.key x.value) (fun _ _ => True) Final := by
  have hmore := v.numPages_more
  have hlen : (a ++ x :: b).length = 14 := Fits.length_split hfull
  have hlow : ((a ++ x :: b).take Leaf.lowerHalf).length ≤ Leaf.maxCells := by
    rw [List.length_take, hlen]
    decide
  have hhigh : ((a ++ x :: b).drop Leaf.lowerHalf).length ≤ Leaf.maxCells := by
    rw [List.length_drop, hlen]
    decide
  have hvalues : ∀ entry ∈ a ++ x :: b, entry.value.length = Leaf.valueSize := by
    intro entry hentry
    rcases List.mem_append.mp hentry with h | h
    · exact hleaf.length_value (List.mem_append_left _ h)
    · rcases List.mem_cons.mp h with rfl | h
      · exact hvalue
      · exact hleaf.length_value (List.mem_append_right _ h)
  refine (ends_maxKey hlinked (.inl hid)).bind fun oldMax => ?_
  refine (ends_leaf (.inl hid)).bind fun before => .fact fun ⟨_, hbefore, _⟩ => ?_
  subst hbefore
  refine .lift_bind hleaf.cells_eq ?_
  dsimp only
  rw [insertIdx_cells, List.splitAt_eq, ← List.map_take, ← List.map_drop, List.length_map,
    List.length_map, show Leaf.next { id, page := v.page id } = next from hleaf.next]
  refine (Pager.ends_allocate (by omega)).bind fun new => .fact fun hindex => ?_
  have hne {other : PageId} (hother : other.index < v.numPages) : other ≠ new := by
    rintro rfl
    omega
  have hnew_ne : some new ≠ some PageId.root := by
    rintro ⟨⟩
    exact absurd (hindex ▸ hid) (Nat.not_lt_zero _)
  refine (ends_freshLeaf hlinked.more (by omega) hleaf.next_ne_root hhigh fun entry hentry =>
    hvalues entry (List.mem_of_mem_drop hentry)).bind fun _ =>
      .lands fun v₁ ⟨hn₁, hlinked₁, hother₁⟩ => ?_
  have hleaf₁ : Leaf.Says (v₁.page id) isRoot next (a ++ b) := by
    rw [hother₁ id (hne hid)]
    exact hleaf
  refine (ends_refillLeaf (by omega) hleaf₁ hnew_ne hlow fun entry hentry =>
    hvalues entry (List.mem_of_mem_take hentry)).bind fun _ => .lands fun v₂ he₂ => ?_
  have hn₂ := he₂.numPages
  by_cases hroot : v.Flagged id
  · have hpos := hclimbs.pos_of_flagged hroot
    rw [if_pos (show Leaf.isRoot { id, page := v.page id } = true from hroot)]
    exact ends_growRoot new (by omega)
  · obtain ⟨habove, hspare⟩ := hclimbs.spare_above hroot
    rw [if_neg (show ¬Leaf.isRoot { id, page := v.page id } = true from hroot)]
    exact ends_linkNew (v.above id) (he₂.linked hlinked₁) (by omega) (by omega) (by omega)
      fun w he => View.spare_of_eases habove hspare (by omega)
        (fun other hother => hother₁ other (hne hother)) (he₂.trans he) hpages

end Tree
end RowStore
