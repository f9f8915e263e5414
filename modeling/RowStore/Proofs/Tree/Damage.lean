/-
  RowStore/Proofs/Tree/Damage.lean
  ================================
  **Stores where pages may say anything.**  In a damaged store the branches of a cascade may
  be reached by any links, hang below each other or share children.  Still every split takes
  the pages that were counted for it: it gives room to the branches that it changes, and all
  that it does to others is to name one of these as their parent.

  One thing has to be asked of the store.  A request for a page that is not there makes that
  page and all before it, so that a link to such a page takes away pages that were counted
  as free.  A store is *linked* if no branch has such a child.
-/
import RowStore.Proofs.Tree.Endings
import RowStore.Proofs.Tree.Growth

namespace RowStore

variable {α : Type}

/-! ## Links and room -/

namespace View

/-- The parent that page `id` names. -/
def above (v : View) (id : PageId) : PageId := Header.parentOf (v.page id)

/-- Naming a parent changes no body. -/
theorem body?_set {v : View} {id parent : PageId} {page : Page}
    (h : reading page = { reading (v.page id) with parent }) (other : PageId) :
    body? ((v.set id page).page other) = body? (v.page other) := by
  rw [set_page_apply]
  split
  · rename_i he
    rw [he]
    exact congrArg Reading.body h
  · rfl

/-- A request for the page makes no page: it exists, or else no store has it. -/
def Answers (v : View) (id : PageId) : Prop := id.index < v.numPages ∨ maxPages ≤ id.index

theorem Answers.has {v : View} {id : PageId} (h : v.Answers id) (hmax : id.index < maxPages) :
    v.Has id :=
  ⟨h.resolve_right (Nat.not_le.mpr hmax), hmax⟩

/-- No child of a branch is a page that a request would make. -/
def Linked (v : View) : Prop :=
  ∀ id isRoot keys children, Branch.Says (v.page id) isRoot keys children →
    ∀ child ∈ children, v.Answers child

theorem Linked.of_bodies {v w : View} (h : v.Linked) (hn : v.numPages ≤ w.numPages)
    (hbody : ∀ id, body? (w.page id) = body? (v.page id)) : w.Linked := by
  intro id isRoot keys children hnode child hchild
  have hanswers := h id isRoot keys children (hnode.of_body (hbody id).symm) child hchild
  exact hanswers.imp_left fun hlt => Nat.lt_of_lt_of_le hlt hn

theorem Linked.more {v : View} (h : v.Linked) : v.more.Linked :=
  h.of_bodies (Nat.le_succ _) fun _ => rfl

theorem Linked.set {v : View} {id : PageId} {page : Page} (h : v.Linked)
    (hpage : ∀ isRoot keys children, Branch.Says page isRoot keys children →
      ∀ child ∈ children, v.Answers child) : (v.set id page).Linked := by
  intro other isRoot keys children hother child hchild
  by_cases he : other = id
  · rw [he, set_page_self] at hother
    exact hpage _ _ _ hother child hchild
  · rw [set_page_of_ne _ _ he] at hother
    exact h _ _ _ _ hother child hchild

def Flagged (v : View) (id : PageId) : Prop := Header.rootFlag (v.page id) = true

/-- The page is a branch that has room for a child. -/
def Roomy (v : View) (id : PageId) : Prop :=
  ∃ isRoot keys children, Branch.Says (v.page id) isRoot keys children ∧
    keys.length < Branch.maxKeys

/-- If the node on page `id` is split, the splits above it take at most `pages` pages. -/
inductive Climbs (v : View) : (pages : Nat) → (id : PageId) → Prop where
  | root {pages : Nat} {id : PageId} (hroot : v.Flagged id) : Climbs v (pages + 1) id
  | room {pages : Nat} {id : PageId} (hroot : ¬v.Flagged id)
    (hparent : (v.above id).index < v.numPages) (hroom : v.Roomy (v.above id)) :
    Climbs v pages id
  | full {pages : Nat} {id : PageId} (hroot : ¬v.Flagged id)
    (hparent : (v.above id).index < v.numPages)
    (habove : Climbs v pages (v.above id)) : Climbs v (pages + 1) id

/-- With the free pages a child can be linked into the branch on page `id`. -/
def Spare (v : View) (id : PageId) : Prop :=
  v.Roomy id ∨ ∃ pages, v.Climbs pages id ∧ v.numPages + (pages + 1) ≤ maxPages

/-- What may happen to a store between two splits. -/
structure Eases (v w : View) : Prop where
  numPages : w.numPages = v.numPages
  flagged : ∀ id, w.Flagged id ↔ v.Flagged id
  roomy : ∀ id, v.Roomy id → w.Roomy id
  parent : ∀ id, w.above id = v.above id ∨
    (w.above id).index < w.numPages ∧ w.Roomy (w.above id)
  linked : v.Linked → w.Linked

namespace Eases

variable {u v w : View} {id : PageId} {page : Page}

theorem trans (h : u.Eases v) (h' : v.Eases w) : u.Eases w where
  numPages := h'.numPages.trans h.numPages
  flagged id := (h'.flagged id).trans (h.flagged id)
  roomy id := h'.roomy id ∘ h.roomy id
  parent id := by
    rcases h'.parent id with hsame | hroom
    · rw [hsame]
      refine (h.parent id).imp_right fun ⟨hlt, hroom⟩ => ⟨?_, h'.roomy _ hroom⟩
      rwa [h'.numPages]
    · exact .inr hroom
  linked := h'.linked ∘ h.linked

/-- A page keeps its root flag and its parent, and its room if it is a branch. -/
theorem set (hroot : Header.rootFlag page = Header.rootFlag (v.page id))
    (hparent : Header.parentOf page = Header.parentOf (v.page id))
    (hroomy : v.Roomy id → ∃ isRoot keys children, Branch.Says page isRoot keys children ∧
      keys.length < Branch.maxKeys)
    (hlinked : v.Linked → ∀ isRoot keys children, Branch.Says page isRoot keys children →
      ∀ child ∈ children, v.Answers child) : v.Eases (v.set id page) := by
  refine ⟨rfl, fun other => ?_, fun other hother => ?_, fun other => .inl ?_,
    fun h => h.set (hlinked h)⟩
  · rw [Flagged, Flagged, set_page_apply]
    split
    · rename_i he
      rw [he, hroot]
    · rfl
  · rw [Roomy, set_page_apply]
    split
    · rename_i he
      exact hroomy (he ▸ hother)
    · exact hother
  · rw [above, above, set_page_apply]
    split
    · rename_i he
      rw [he, hparent]
    · rfl

/-- A branch may be given other keys and children, if it stays within bounds. -/
theorem set_branch {isRoot : Bool} {keys keys' : List UInt32} {children children' : List PageId}
    {q : PageId} (hv : reading (v.page id) = ⟨some (.branch isRoot keys children), q⟩)
    (hw : reading page = ⟨some (.branch isRoot keys' children'), q⟩)
    (hlen : keys'.length ≤ keys.length ∨ keys'.length < Branch.maxKeys)
    (hchildren : ∀ child ∈ children', child ∈ children ∨ v.Answers child) :
    v.Eases (v.set id page) := by
  obtain ⟨hnode, hq⟩ := reading_eq_branch_iff.mp hv
  obtain ⟨hnode', hq'⟩ := reading_eq_branch_iff.mp hw
  refine .set (hnode'.root.trans hnode.root.symm) (hq'.trans hq.symm) ?_ ?_
  · rintro ⟨b, ks, cs, hother, hlt⟩
    obtain ⟨-, rfl, -⟩ := hother.unique hnode
    exact ⟨_, _, _, hnode', by omega⟩
  · intro hlinked b ks cs hother child hchild
    obtain ⟨-, -, rfl⟩ := hother.unique hnode'
    exact (hchildren child hchild).elim (hlinked _ _ _ _ hnode child) fun h => h

/-- A leaf may be given other entries. -/
theorem set_leaf {isRoot : Bool} {next next' : Option PageId} {entries entries' : List Entry}
    {q : PageId} (hv : reading (v.page id) = ⟨some (.leaf isRoot next entries), q⟩)
    (hw : reading page = ⟨some (.leaf isRoot next' entries'), q⟩) : v.Eases (v.set id page) := by
  obtain ⟨hnode, hq⟩ := reading_eq_leaf_iff.mp hv
  obtain ⟨hnode', hq'⟩ := reading_eq_leaf_iff.mp hw
  refine .set (hnode'.root.trans hnode.root.symm) (hq'.trans hq.symm) ?_ fun _ => ?_
  · rintro ⟨b, ks, cs, hother, -⟩
    exact absurd hother hnode.not_branch
  · intro b ks cs hother
    exact absurd hother hnode'.not_branch

/-- A page may be moved below a branch that has room. -/
theorem set_parent {p : PageId} (hw : reading page = { reading (v.page id) with parent := p })
    (hroot : Header.rootFlag page = Header.rootFlag (v.page id)) (hlt : p.index < v.numPages)
    (hroom : v.Roomy p) : v.Eases (v.set id page) := by
  have hbody := body?_set hw
  have hroomy : ∀ other, v.Roomy other → (v.set id page).Roomy other := by
    rintro other ⟨b, ks, cs, hother, hlen⟩
    exact ⟨b, ks, cs, hother.of_body (hbody other), hlen⟩
  refine ⟨rfl, fun other => ?_, hroomy, fun other => ?_,
    fun hlinked => hlinked.of_bodies (Nat.le_refl _) hbody⟩
  · rw [Flagged, Flagged, set_page_apply]
    split
    · rename_i he
      rw [he, hroot]
    · rfl
  · by_cases he : other = id
    · subst he
      right
      rw [above, set_page_self, show Header.parentOf page = p from congrArg Reading.parent hw]
      exact ⟨hlt, hroomy p hroom⟩
    · exact .inl (by rw [above, above, set_page_of_ne _ _ he])

end Eases

theorem Climbs.eased {v w : View} {pages : Nat} {id : PageId} (h : v.Climbs pages id)
    (he : v.Eases w) : w.Climbs pages id := by
  induction h with
  | root hroot => exact .root ((he.flagged _).mpr hroot)
  | @room pages id hroot hparent hroom =>
    -- A page that was moved meanwhile stands below a branch with room, where the climb ends.
    replace hroot := mt (he.flagged id).mp hroot
    rcases he.parent id with hsame | ⟨hlt, hroom'⟩
    · exact .room hroot (by rwa [hsame, he.numPages]) (by rw [hsame]; exact he.roomy _ hroom)
    · exact .room hroot hlt hroom'
  | @full pages id hroot hparent habove ih =>
    replace hroot := mt (he.flagged id).mp hroot
    rcases he.parent id with hsame | ⟨hlt, hroom'⟩
    · exact .full hroot (by rwa [hsame, he.numPages]) (by rwa [hsame])
    · exact .room hroot hlt hroom'

/-- New pages do not stand in the way. -/
theorem Climbs.grow {v w : View} {pages : Nat} {id : PageId} (h : v.Climbs pages id)
    (hn : v.numPages ≤ w.numPages) (hsame : ∀ other, other.index < v.numPages →
      w.page other = v.page other) (hid : id.index < v.numPages) : w.Climbs pages id := by
  have hparent : ∀ other, other.index < v.numPages → w.above other = v.above other := by
    intro other hother
    rw [above, above, hsame other hother]
  induction h with
  | root hroot => exact .root (by rwa [Flagged, hsame _ hid])
  | @room pages id hroot hlt hroom =>
    refine .room (by rwa [Flagged, hsame _ hid]) ?_ ?_
    · rw [hparent id hid]
      exact Nat.lt_of_lt_of_le hlt hn
    · rwa [hparent id hid, Roomy, hsame _ hlt]
  | @full pages id hroot hlt habove ih =>
    refine .full (by rwa [Flagged, hsame _ hid]) ?_ ?_
    · rw [hparent id hid]
      exact Nat.lt_of_lt_of_le hlt hn
    · rw [hparent id hid]
      exact ih hlt

theorem Climbs.pos_of_flagged {v : View} {pages : Nat} {id : PageId} (h : v.Climbs pages id)
    (hroot : v.Flagged id) : 0 < pages := by
  cases h with
  | root => exact Nat.succ_pos _
  | room hflag => exact absurd hroot hflag
  | full hflag => exact absurd hroot hflag

/-- Above a node that is not the root there is one split less to count. -/
theorem Climbs.spare_above {v : View} {pages : Nat} {id : PageId} (h : v.Climbs pages id)
    (hroot : ¬v.Flagged id) : (v.above id).index < v.numPages ∧
      (v.Roomy (v.above id) ∨ ∃ fewer, pages = fewer + 1 ∧ v.Climbs fewer (v.above id)) := by
  cases h with
  | root hflag => exact absurd hflag hroot
  | room _ hlt hroom => exact ⟨hlt, .inl hroom⟩
  | full _ hlt habove => exact ⟨hlt, .inr ⟨_, rfl, habove⟩⟩

/-- A split that was counted takes its page, and leaves those that were counted for others. -/
theorem spare_of_eases {u v w : View} {pages : Nat} {id : PageId} (hid : id.index < u.numPages)
    (h : u.Roomy id ∨ ∃ fewer, pages = fewer + 1 ∧ u.Climbs fewer id)
    (hn : v.numPages = u.numPages + 1)
    (hsame : ∀ other, other.index < u.numPages → v.page other = u.page other) (he : v.Eases w)
    (hpages : u.numPages + (pages + 1) ≤ maxPages) : w.Spare id := by
  have hn' := he.numPages
  rcases h with hroom | ⟨fewer, rfl, hfewer⟩
  · exact .inl (he.roomy id (by rwa [Roomy, hsame id hid]))
  · exact .inr ⟨fewer, (hfewer.grow (by omega) hsame hid).eased he, by omega⟩

end View

namespace Tree

variable {v : View} {id : PageId}

/-! ## Looking -/

theorem ends_request (hid : v.Answers id) : Ends v.Shown (Pager.request id)
    (fun page pager => v.Shown pager ∧ v.Has id ∧ page = v.page id) Final := by
  refine (Pager.ends_request v id).imp fun page pager ⟨hp, hmax, hpage⟩ => ?_
  have hhas := hid.has hmax
  exact ⟨View.reach_of_lt hhas.1 ▸ hp, hhas, hpage⟩

theorem ends_look {check : Page → Except Failure α} (hcheck : ∀ page, FirmCheck (check page))
    (hid : v.Answers id) : Ends v.Shown (Pager.request id >>= fun page => liftM (check page))
      (fun a pager => v.Shown pager ∧ v.Has id ∧ check (v.page id) = .ok a) Final := by
  refine (Pager.ends_look hcheck v id).imp fun a pager ⟨hp, hmax, ha⟩ => ?_
  have hhas := hid.has hmax
  exact ⟨View.reach_of_lt hhas.1 ▸ hp, hhas, ha⟩

theorem ends_isRoot (hid : v.Answers id) :
    Ends v.Shown (isRoot id) (fun b pager => v.Shown pager ∧ (b = true ↔ v.Flagged id)) Final := by
  refine (ends_request hid).bind fun page => .fact fun ⟨_, hpage⟩ => ?_
  exact .pure fun pager hp => ⟨hp, by rw [hpage]; rfl⟩

theorem ends_parentOf (hid : v.Answers id) :
    Ends v.Shown (parentOf id) (fun parent pager => v.Shown pager ∧ parent = v.above id) Final := by
  refine (ends_request hid).bind fun page => .fact fun ⟨_, hpage⟩ => ?_
  exact .pure fun pager hp => ⟨hp, by rw [hpage]; rfl⟩

theorem ends_leaf (hid : v.Answers id) :
    Ends v.Shown (leaf id) (fun node pager => v.Shown pager ∧ v.Has id ∧
      node = { id, page := v.page id } ∧ ∃ isRoot next entries,
        Leaf.Says (v.page id) isRoot next entries) Final :=
  (ends_look (Leaf.firm_ofPage id) hid).imp fun _ _ ⟨hp, hhas, hnode⟩ =>
    ⟨hp, hhas, Leaf.ofPage_ok hnode⟩

theorem ends_branch (hid : v.Answers id) :
    Ends v.Shown (branch id) (fun node pager => v.Shown pager ∧ v.Has id ∧
      node = { id, page := v.page id } ∧ ∃ isRoot keys children,
        Branch.Says (v.page id) isRoot keys children) Final :=
  (ends_look (Branch.firm_ofPage id) hid).imp fun _ _ ⟨hp, hhas, hnode⟩ =>
    ⟨hp, hhas, Branch.ofPage_ok hnode⟩

theorem ends_node (hid : v.Answers id) :
    Ends v.Shown (node id) (fun node pager => v.Shown pager ∧ ∀ branch, node = .branch branch →
      branch = { id, page := v.page id } ∧ ∃ isRoot keys children,
        Branch.Says (v.page id) isRoot keys children) Final := by
  refine (ends_look (Header.firm_readKind id) hid).bind fun kind => .fact fun _ => ?_
  cases kind with
  | leaf =>
    refine (ends_leaf hid).bind fun leaf => .fact fun _ => ?_
    exact .pure fun pager hp => ⟨hp, nofun⟩
  | branch =>
    refine (ends_branch hid).bind fun branch => .fact fun ⟨_, hnode⟩ => ?_
    exact .pure fun pager hp => ⟨hp, fun _ he => by cases he; exact hnode⟩

/-- The walk along the right edge comes by pages that exist. -/
theorem ends_maxKeyBelow (hlinked : v.Linked) :
    ∀ (nodes : Nat) {id : PageId}, v.Answers id →
      Ends v.Shown (maxKeyBelow nodes id) (fun _ => v.Shown) Final
  | 0, _, _ => .refuse fun _ _ => rfl
  | nodes + 1, id, hid => by
    refine (ends_node hid).bind fun node => .fact fun hnode => ?_
    cases node with
    | leaf leaf => exact .lift leaf.firm_maxKey fun _ _ _ hp => hp
    | branch branch =>
      obtain ⟨rfl, _, _, _, hbranch⟩ := hnode branch rfl
      refine Ends.bind (P := fun child pager => v.Shown pager ∧ v.Answers child)
        (.lift (Branch.firm_child _ _) fun child hchild pager hp => ⟨hp, ?_⟩)
        fun child => .fact fun hchild => ends_maxKeyBelow hlinked nodes hchild
      exact hlinked _ _ _ _ hbranch child (List.mem_of_getElem? (hbranch.child_ok hchild))

theorem ends_maxKey (hlinked : v.Linked) (hid : v.Answers id) :
    Ends v.Shown (maxKey id) (fun _ => v.Shown) Final :=
  ends_maxKeyBelow hlinked _ hid

end Tree

/-! ## Attaching -/

theorem Turns.run_ok {e : Edit pageSize α} {x y : Reading} {a b : α} {page after : Page}
    (he : Turns e x a y) (hpage : reading page = x) (hrun : e.run page = .ok b after) :
    reading after = y := by
  obtain ⟨other, hother, hy⟩ := he page hpage
  rw [hother] at hrun
  cases hrun
  exact hy

/-- A branch that gets a child gets one more key, whatever its keys are. -/
theorem Branch.attached {page after : Page} {isRoot : Bool} {keys : List UInt32}
    {children : List PageId} {id q right child : PageId} {rightMax childMax : UInt32}
    (hpage : reading page = ⟨some (.branch isRoot keys children), q⟩) (hlen : keys.length < maxKeys)
    (hrun : (if rightMax < childMax then do
        insertCell id keys.length right rightMax
        setRight child
      else do
        let here : Branch := { id, page := ← get }
        insertCell id (← here.findChild childMax) child childMax : Edit pageSize Unit).run page =
      .ok () after) :
    ∃ keys' children', reading after = ⟨some (.branch isRoot keys' children'), q⟩ ∧
      keys'.length = keys.length + 1 ∧ ∀ c ∈ children', c ∈ children ∨ c = right ∨ c = child := by
  have hlength (i : Nat) (hi : i ≤ keys.length) (key : UInt32) :
      (keys.insertIdx i key).length = keys.length + 1 := List.length_insertIdx_of_le_length hi key
  have hmem {i : Nat} {x c : PageId} (hc : c ∈ children.insertIdx i x) : c = x ∨ c ∈ children := by
    by_cases hi : i ≤ children.length
    · exact (List.mem_insertIdx hi).mp hc
    · rw [List.insertIdx_of_length_lt (Nat.not_le.mp hi)] at hc
      exact .inr hc
  split at hrun
  · have hturns : Turns (do
        insertCell id keys.length right rightMax
        setRight child) ⟨some (.branch isRoot keys children), q⟩ () _ :=
      (turns_insertCell id right rightMax hlen (Nat.le_refl _)).bind (turns_setRight child)
    refine ⟨_, _, hturns.run_ok hpage hrun, hlength _ (Nat.le_refl _) _, fun c hc => ?_⟩
    rcases List.mem_append.mp hc with hc | hc
    · rcases hmem (List.mem_of_mem_take hc) with rfl | hc
      · exact .inr (.inl rfl)
      · exact .inl hc
    · exact .inr (.inr (List.mem_singleton.mp hc))
  · rw [get_bind_run] at hrun
    cases hplace : findChild { id, page } childMax with
    | error failure =>
      rw [bind_run_error (by rw [hplace]; rfl)] at hrun
      cases hrun
    | ok i =>
      rw [lift_bind_run hplace] at hrun
      have hi : i ≤ keys.length :=
        (reading_eq_branch_iff.mp hpage).1.count ▸ bisect_le hplace
      refine ⟨_, _, (turns_insertCell id child childMax hlen hi).run_ok hpage hrun,
        hlength i hi _, fun c hc => ?_⟩
      rcases hmem hc with rfl | hc
      · exact .inr (.inr rfl)
      · exact .inl hc

theorem Header.exists_setParent (parent : PageId) (page : Page) :
    ∃ after : Page, (setParent parent).run page = .ok () after ∧
      reading after = { reading page with parent } ∧ rootFlag after = rootFlag page := by
  obtain ⟨after, hrun, hreading⟩ := turns_setParent parent _ page rfl
  refine ⟨after, hrun, hreading, ?_⟩
  have hput : (setParent parent).run page = .ok () (page.putWord parentOffset parent.number) :=
    Edit.run_writeWord page parent.number (by decide)
  rw [hput] at hrun
  cases hrun
  rw [rootFlag, rootFlag, Bytes.byte_putWord_of_not_mem page (.inl (by decide))]

namespace Tree

variable {v : View} {id : PageId}

/-! ## Changing -/

theorem ends_edit {e : Edit pageSize α} (he : Firm e) (hid : v.Answers id) :
    Ends v.Shown (Pager.edit id e)
      (fun a => Lands fun w => ∃ page, e.run (v.page id) = .ok a page ∧ w = v.set id page)
      Final := by
  refine (ends_request hid).bind fun page => .fact fun ⟨hhas, hpage⟩ => ?_
  subst hpage
  exact Pager.ends_change he hhas

theorem ends_editBranch {e : Edit pageSize α} (he : Firm e) (hid : v.Answers id) :
    Ends v.Shown (editBranch id e) (fun a => Lands fun w =>
      (∃ isRoot keys children, Branch.Says (v.page id) isRoot keys children) ∧
        ∃ page, e.run (v.page id) = .ok a page ∧ w = v.set id page) Final := by
  refine (ends_branch hid).bind fun node => .fact fun ⟨hhas, hnode, hbranch⟩ => ?_
  subst hnode
  exact (Pager.ends_change he hhas).imp fun _ _ ⟨w, hw, h⟩ => ⟨w, hw, hbranch, h⟩

theorem ends_editLeaf {e : Edit pageSize α} (he : Firm e) (hid : v.Answers id) :
    Ends v.Shown (editLeaf id e)
      (fun a => Lands fun w => ∃ page, e.run (v.page id) = .ok a page ∧ w = v.set id page)
      Final := by
  refine (ends_leaf hid).bind fun node => .fact fun ⟨hhas, hnode, _⟩ => ?_
  subst hnode
  exact Pager.ends_change he hhas

theorem ends_setParent (parent : PageId) (hid : v.Answers id) :
    Ends v.Shown (setParent id parent) (fun _ => Lands fun w => ∃ page,
      reading page = { reading (v.page id) with parent } ∧
        Header.rootFlag page = Header.rootFlag (v.page id) ∧ w = v.set id page) Final := by
  refine (ends_edit (Header.firm_setParent parent) hid).imp ?_
  rintro _ _ ⟨w, hw, page, hrun, hset⟩
  obtain ⟨after, hrun', hreading, hroot⟩ := Header.exists_setParent parent (v.page id)
  rw [hrun'] at hrun
  cases hrun
  exact ⟨w, hw, _, hreading, hroot, hset⟩

/-! ## Attaching a child -/

/-- What is left when a child was attached to branch `p`, which had `keys`. -/
structure Attached (v w : View) (p : PageId) (isRoot : Bool) (keys : List UInt32) : Prop where
  eases : v.Eases w
  branch : ∃ keys' children', Branch.Says (w.page p) isRoot keys' children' ∧
    keys'.length ≤ keys.length + 1 ∧
    (Branch.rightIn (v.page p) = PageId.invalid → keys' = keys)
  others : ∀ other, other ≠ p → body? (w.page other) = body? (v.page other)

theorem ends_attach {p c : PageId} {isRoot : Bool} {keys : List UInt32} {children : List PageId}
    (hlinked : v.Linked) (hp : p.index < v.numPages)
    (hbranch : Branch.Says (v.page p) isRoot keys children)
    (hlen : keys.length + 1 < Branch.maxKeys) (hc : v.Answers c) :
    Ends v.Shown (attach { id := p, page := v.page p } c)
      (fun _ => Lands fun w => Attached v w p isRoot keys) Final := by
  have hpage := reading_eq_branch_iff.mpr ⟨hbranch, rfl⟩
  -- Naming the parent comes last, when the branch has its keys.
  have hname {page : Page} {keys' : List UInt32} {children' : List PageId}
      (hpage' : reading page = ⟨some (.branch isRoot keys' children'), Header.parentOf (v.page p)⟩)
      (hlen' : keys'.length ≤ keys.length + 1)
      (hsame : Branch.rightIn (v.page p) = PageId.invalid → keys' = keys)
      (hchildren : ∀ x ∈ children', x ∈ children ∨ v.Answers x) :
      Ends (v.set p page).Shown (setParent c p)
        (fun _ => Lands fun w => Attached v w p isRoot keys) Final := by
    have hset : v.Eases (v.set p page) := .set_branch hpage hpage' (.inr (by omega)) hchildren
    have hself : Branch.Says ((v.set p page).page p) isRoot keys' children' := by
      rw [View.set_page_self]
      exact (reading_eq_branch_iff.mp hpage').1
    refine (ends_setParent p (v := v.set p page) hc).imp ?_
    rintro _ _ ⟨w, hw, after, hafter, hroot, rfl⟩
    refine ⟨_, hw, hset.trans (.set_parent hafter hroot hp ⟨_, _, _, hself, by omega⟩),
      ⟨keys', children', hself.of_body (View.body?_set hafter p), hlen', hsame⟩,
      fun other hne => ?_⟩
    rw [View.body?_set hafter, View.set_page_of_ne _ _ hne]
  rw [attach]
  dsimp only
  by_cases hright : (Branch.right { id := p, page := v.page p }).isValid = true
  · rw [if_pos hright, hbranch.count_eq]
    have hmem : Branch.right { id := p, page := v.page p } ∈ children := by
      change Branch.rightIn (v.page p) ∈ children
      rw [hbranch.right]
      exact List.getElem_mem _
    have hanswers := hlinked _ _ _ _ hbranch _ hmem
    refine (ends_maxKey hlinked hc).bind fun childMax => ?_
    refine (ends_maxKey hlinked hanswers).bind fun rightMax => ?_
    refine (ends_editBranch (firm_attachEdit _ _ _ _ _ _) (.inl hp)).bind fun _ => .lands ?_
    rintro _ ⟨-, page, hrun, rfl⟩
    obtain ⟨keys', children', hpage', hlen', hchildren⟩ :=
      Branch.attached hpage (by omega) hrun
    refine hname hpage' (Nat.le_of_eq hlen') (fun he => ?_) fun x hx => ?_
    · exact absurd hright (by change ¬(Branch.rightIn (v.page p)).isValid = true; rw [he]; decide)
    · rcases hchildren x hx with hx | rfl | rfl
      · exact .inl hx
      · exact .inr hanswers
      · exact .inr hc
  · rw [if_neg hright]
    refine (ends_editBranch (Branch.firm_setRight c) (.inl hp)).bind fun _ => .lands ?_
    rintro _ ⟨-, page, hrun, rfl⟩
    have hpage' := (Branch.turns_setRight c).run_ok hpage hrun
    refine hname hpage' (Nat.le_succ _) (fun _ => rfl) fun x hx => ?_
    rcases List.mem_append.mp hx with hx | hx
    · exact .inl (List.mem_of_mem_take hx)
    · exact .inr (List.mem_singleton.mp hx ▸ hc)

theorem ends_attachTo {p c : PageId} {isRoot : Bool} {keys : List UInt32} {children : List PageId}
    (hlinked : v.Linked) (hp : p.index < v.numPages)
    (hbranch : Branch.Says (v.page p) isRoot keys children)
    (hlen : keys.length + 1 < Branch.maxKeys) (hc : v.Answers c) : Ends v.Shown (attachTo p c)
      (fun _ => Lands fun w => Attached v w p isRoot keys) Final := by
  refine (ends_branch (.inl hp)).bind fun node => .fact fun ⟨_, hnode, _⟩ => ?_
  subst hnode
  exact ends_attach hlinked hp hbranch hlen hc

end Tree
end RowStore
