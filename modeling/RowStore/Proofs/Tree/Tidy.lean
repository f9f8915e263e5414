/-
  RowStore/Proofs/Tree/Tidy.lean
  ==============================
  **The tree goes by strides.**  Everything that the tree does with its pages is tidy, and
  this is shown here function by function along the program, with no tree in mind.  Looking
  changes no page, so it is tidy whatever changes are allowed.

  What an insert may change is told by a `Licence`: to name another parent on any page, and
  to edit certain pages.  An insert raises no root flag but that of page 0.  It could not be
  otherwise: a new root is made on page 0, a new node starts without the flag, and all other
  edits write behind the header or into its parent field.
-/
import RowStore.Proofs.Pager.Tidy
import RowStore.Proofs.Tree.Session
import RowStore.Tree.Cursor
import RowStore.Tree.Outline

namespace RowStore

variable {α β γ : Type}

/-! ## Edits that raise no root flag -/

/-- However the edit ends, the page is not flagged as the root if it was not before. -/
def Modest (e : Edit pageSize α) : Prop :=
  ∀ page r after, e.run page = outcome r after →
    Header.rootFlag after = true → Header.rootFlag page = true

namespace Modest

variable {e : Edit pageSize α} {f : α → Edit pageSize β}

theorem pure (a : α) : Modest (Pure.pure a) := by
  intro page r after hrun
  obtain ⟨-, rfl⟩ := outcome_inj (r := .ok a) hrun
  exact id

theorem throw (failure : Failure) : Modest (MonadExcept.throw failure : Edit pageSize α) := by
  intro page r after hrun
  obtain ⟨-, rfl⟩ := outcome_inj (r := .error failure) hrun
  exact id

theorem bind (he : Modest e) (hf : ∀ a, Modest (f a)) : Modest (e >>= f) := by
  intro page r after hrun hafter
  obtain ⟨s, middle, hfirst⟩ := exists_outcome e page
  cases s with
  | ok a =>
    rw [bind_run hfirst] at hrun
    exact he _ _ _ hfirst (hf a _ _ _ hrun hafter)
  | error failure =>
    rw [bind_run_error hfirst] at hrun
    obtain ⟨-, rfl⟩ := outcome_inj (r := .error failure) hrun
    exact he _ _ _ hfirst hafter

theorem lift_bind {check : Except Failure α} (hf : ∀ a, check = .ok a → Modest (f a)) :
    Modest (liftM check >>= f) := by
  cases check with
  | ok a => exact hf a rfl
  | error failure => exact throw failure

theorem get_bind {g : Page → Edit pageSize β} (hg : ∀ page, Modest (g page)) :
    Modest (get >>= g) :=
  fun page => hg page page

theorem ite {c : Prop} [Decidable c] {e' : Edit pageSize α} (he : Modest e) (he' : Modest e') :
    Modest (if c then e else e') := by
  split
  · exact he
  · exact he'

theorem update {g : Page → Page} (hg : ∀ page, (g page).byte 1 = page.byte 1) :
    Modest (Edit.update g) := by
  intro page r after hrun
  obtain ⟨-, rfl⟩ := outcome_inj (r := .ok ()) hrun
  rw [Header.rootFlag, Header.rootFlag, hg]
  exact id

/-- A write behind the root flag. -/
theorem put {off : Nat} (hoff : 2 ≤ off) (data : Page → List UInt8) :
    Modest (Edit.update fun page => page.put off (data page)) :=
  update fun page => Bytes.byte_put_of_not_mem page (.inl hoff)

theorem writeWord {off : Nat} (hoff : 2 ≤ off) (w : UInt32) : Modest (Edit.writeWord off w) :=
  ite (put hoff fun _ => Word.toBytes w) (throw _)

theorem fill {off len : Nat} (hoff : 2 ≤ off) (data : List UInt8) :
    Modest (Edit.fill off len data) :=
  ite (put hoff fun _ => data) (throw _)

theorem forM {g : γ → Edit pageSize PUnit} (hg : ∀ c, Modest (g c)) (l : List γ) :
    Modest (l.forM g) := by
  induction l with
  | nil => exact pure _
  | cons c l ih => exact (hg c).bind fun _ => ih

end Modest

namespace Header

theorem modest_setKind (kind : NodeKind) : Modest (setKind kind) := by
  rw [setKind, Edit.writeByte]
  refine .ite (.update fun page => ?_) (.throw _)
  exact Bytes.byte_put_of_not_mem page (.inr (Nat.le_refl 1))

theorem modest_setRoot : Modest (setRoot false) := by
  intro page r after hrun hafter
  obtain ⟨_, hrun', hroot, -⟩ := exists_setRoot false page
  obtain ⟨-, rfl⟩ := outcome_inj (r := .ok ()) (hrun'.symm.trans hrun)
  rw [hroot] at hafter
  cases hafter

theorem modest_setParent (parent : PageId) : Modest (setParent parent) :=
  .writeWord (Nat.le_refl 2) _

end Header

namespace Leaf

theorem le_cellOffset {i off : Nat} (h : cellOffset i = .ok off) : 2 ≤ off := by
  rw [cellOffset] at h
  split at h
  · cases h
    exact Nat.le_trans (by decide) (headerSize_le i 0)
  · cases h

theorem modest_init : Modest init :=
  (Header.modest_setKind .leaf).bind fun _ => Header.modest_setRoot.bind fun _ =>
    (Modest.writeWord (by decide) 0).bind fun _ => .writeWord (by decide) 0

theorem modest_setCount (count : Nat) : Modest (setCount count) :=
  .ite (.throw _) (.writeWord (by decide) _)

theorem modest_setNext (next : Option PageId) : Modest (setNext next) := .writeWord (by decide) _

theorem modest_setCells (cells : List (List UInt8)) : Modest (setCells cells) :=
  .forM (fun _ => .lift_bind fun _ hoff => .fill (le_cellOffset hoff) _) _

theorem modest_insertCell (id : PageId) (i : Nat) (key : UInt32) (value : List UInt8) :
    Modest (insertCell id i key value) := by
  refine .get_bind fun page => ?_
  have hwrite : Modest (do
      setCount (countIn page + 1)
      setKey i key
      setValue i value) :=
    (modest_setCount _).bind fun _ =>
      Modest.bind (.lift_bind fun _ hoff => .writeWord (le_cellOffset hoff) _) fun _ =>
        .lift_bind fun _ hoff => .fill (Nat.le_add_right_of_le (le_cellOffset hoff)) _
  refine .ite (.throw _) (.ite (.throw _) (.ite ?_ hwrite))
  refine .lift_bind fun start hstart => .lift_bind fun stop _ => ?_
  have hoff : 2 ≤ start + cellSize := Nat.le_add_right_of_le (le_cellOffset hstart)
  exact (Modest.put hoff fun page => page.slice start (stop - start)).bind fun _ => hwrite

end Leaf

namespace Branch

theorem le_cellOffset {i off : Nat} (h : cellOffset i = .ok off) : 2 ≤ off := by
  rw [cellOffset] at h
  split at h
  · cases h
    exact Nat.le_trans (by decide) (headerSize_le i 0)
  · cases h

theorem modest_init : Modest init :=
  (Header.modest_setKind .branch).bind fun _ => Header.modest_setRoot.bind fun _ =>
    (Modest.writeWord (by decide) 0).bind fun _ => .writeWord (by decide) _

theorem modest_setCount (count : Nat) : Modest (setCount count) :=
  .ite (.throw _) (.writeWord (by decide) _)

theorem modest_setRight (child : PageId) : Modest (setRight child) := .writeWord (by decide) _

theorem modest_setKey (i : Nat) (key : UInt32) : Modest (setKey i key) :=
  .lift_bind fun _ hoff => .writeWord (Nat.le_add_right_of_le (le_cellOffset hoff)) _

theorem modest_insertCell (id : PageId) (i : Nat) (child : PageId) (key : UInt32) :
    Modest (insertCell id i child key) := by
  refine .get_bind fun page => ?_
  have hwrite : Modest (do
      setCount (countIn page + 1)
      setCellChild i child
      setKey i key) :=
    (modest_setCount _).bind fun _ =>
      Modest.bind (.lift_bind fun _ hoff => .writeWord (le_cellOffset hoff) _) fun _ =>
        modest_setKey i key
  refine .ite (.throw _) (.ite (.throw _) (.ite ?_ hwrite))
  refine .lift_bind fun start hstart => .lift_bind fun stop _ => ?_
  have hoff : 2 ≤ start + cellSize := Nat.le_add_right_of_le (le_cellOffset hstart)
  exact (Modest.put hoff fun page => page.slice start (stop - start)).bind fun _ => hwrite

theorem modest_replaceKey (id : PageId) (old new : UInt32) : Modest (replaceKey id old new) :=
  .get_bind fun _ => .lift_bind fun i _ => .ite (.lift_bind fun _ _ => .ite (modest_setKey i new)
    (.pure _)) (.pure _)

theorem modest_replaceKeyOf (id child : PageId) (new : UInt32) :
    Modest (replaceKeyOf id child new) := by
  refine .get_bind fun page => .lift_bind fun place _ => ?_
  cases place with
  | none => exact .pure _
  | some i => exact modest_setKey i new

end Branch

/-- No root flag is raised but that of page 0. -/
def Unraised (id : PageId) (before page : Page) : Prop :=
  id = PageId.root ∨ (Header.rootFlag page = true → Header.rootFlag before = true)

theorem Modest.unraised {e : Edit pageSize α} (he : Modest e) (id : PageId) (page : Page)
    (r : Except Failure α) (after : Page) (hrun : e.run page = outcome r after) :
    Unraised id page after :=
  .inr (he page r after hrun)

namespace Tree

variable {W : PageId → Page → Page → Prop} {K : List (PageId × Page)}

/-- What `W` allows: any page may get another parent, and pages of `L` may be edited in all
    ways that are modest. -/
structure Licence (W : PageId → Page → Page → Prop) (L : PageId → Prop) : Prop where
  parent : ∀ (id parent : PageId) (page : Page) (r : Except Failure Unit) (after : Page),
    (Header.setParent parent).run page = outcome r after → W id page after
  edit : ∀ {id : PageId} {α : Type} {e : Edit pageSize α}, L id → Modest e →
    ∀ (page : Page) (r : Except Failure α) (after : Page), e.run page = outcome r after →
      W id page after

variable {L : PageId → Prop} {id old new above : PageId}

theorem licence_unraised : Licence Unraised fun _ => True where
  parent id parent := (Header.modest_setParent parent).unraised id
  edit _ he := he.unraised _

/-! ## Nodes -/

theorem tidy_kindOf (id : PageId) : Tidy W K (kindOf id) :=
  .request_bind fun _ => .lift _

theorem tidy_isRoot (id : PageId) : Tidy W K (isRoot id) :=
  .request_bind fun _ => .pure _

theorem tidy_parentOf (id : PageId) : Tidy W K (parentOf id) :=
  .request_bind fun _ => .pure _

theorem tidy_leaf (id : PageId) : Tidy W K (leaf id) :=
  .request_bind fun _ => .lift _

theorem tidy_branch (id : PageId) : Tidy W K (branch id) :=
  .request_bind fun _ => .lift _

theorem tidy_node (id : PageId) : Tidy W K (node id) := by
  refine (tidy_kindOf id).bind fun kind => ?_
  cases kind with
  | leaf => exact (tidy_leaf id).bind fun _ => .pure _
  | branch => exact (tidy_branch id).bind fun _ => .pure _

theorem Licence.tidy_setParent (hW : Licence W L) (id parent : PageId) :
    Tidy W K (setParent id parent) :=
  .edit (hW.parent id parent)

/-- The page that is changed is the one that was requested. -/
theorem Licence.tidy_editLeaf (hW : Licence W L) (hid : L id) {e : Edit pageSize α}
    (he : Modest e) : Tidy W K (editLeaf id e) := by
  rw [editLeaf, leaf, bind_assoc]
  refine .request_bind fun page => .lift_bind fun node hnode => ?_
  obtain ⟨-, -, rfl⟩ := Leaf.ofPage_eq_ok_iff.mp hnode
  exact .change List.mem_cons_self (hW.edit hid he page)

theorem Licence.tidy_editBranch (hW : Licence W L) (hid : L id) {e : Edit pageSize α}
    (he : Modest e) : Tidy W K (editBranch id e) := by
  rw [editBranch, branch, bind_assoc]
  refine .request_bind fun page => .lift_bind fun node hnode => ?_
  obtain ⟨-, -, rfl⟩ := Branch.ofPage_eq_ok_iff.mp hnode
  exact .change List.mem_cons_self (hW.edit hid he page)

theorem tidy_setParent (id parent : PageId) : Tidy Unraised K (setParent id parent) :=
  licence_unraised.tidy_setParent id parent

theorem tidy_editLeaf (id : PageId) {e : Edit pageSize α} (he : Modest e) :
    Tidy Unraised K (editLeaf id e) :=
  licence_unraised.tidy_editLeaf trivial he

theorem tidy_editBranch (id : PageId) {e : Edit pageSize α} (he : Modest e) :
    Tidy Unraised K (editBranch id e) :=
  licence_unraised.tidy_editBranch trivial he

theorem tidy_allocate : Tidy Unraised K Pager.allocate := by
  refine .allocate fun id page => .inr fun hflag => ?_
  rw [Header.rootFlag, Bytes.byte_zero] at hflag
  cases hflag

/-! ## Ways down -/

theorem tidy_findBelow (key : UInt32) (nodes : Nat) (id : PageId) :
    Tidy W K (findBelow key nodes id) := by
  induction nodes generalizing K id with
  | zero => exact .refuse _
  | succ nodes ih =>
    refine (tidy_node id).bind fun node => ?_
    cases node with
    | leaf leaf => exact .lift_bind fun _ _ => .pure _
    | branch branch => exact .lift_bind fun _ _ => .lift_bind fun child _ => ih child

theorem tidy_find (key : UInt32) : Tidy W K (find key) := tidy_findBelow key maxPages PageId.root

theorem tidy_maxKeyBelow (nodes : Nat) (id : PageId) : Tidy W K (maxKeyBelow nodes id) := by
  induction nodes generalizing K id with
  | zero => exact .refuse _
  | succ nodes ih =>
    refine (tidy_node id).bind fun node => ?_
    cases node with
    | leaf leaf => exact .lift _
    | branch branch => exact .lift_bind fun child _ => ih child

theorem tidy_maxKey (id : PageId) : Tidy W K (maxKey id) := tidy_maxKeyBelow _ id

theorem tidy_depthBelow (levels level : Nat) (id : PageId) :
    Tidy W K (depthBelow levels level id) := by
  induction levels generalizing K level id with
  | zero =>
    refine (tidy_kindOf id).bind fun kind => ?_
    cases kind with
    | leaf => exact .pure _
    | branch => exact .refuse _
  | succ levels ih =>
    refine (tidy_kindOf id).bind fun kind => ?_
    cases kind with
    | leaf => exact .pure _
    | branch => exact (tidy_branch id).bind fun _ => .lift_bind fun child _ => ih (level + 1) child

theorem tidy_depth : Tidy W K depth := tidy_depthBelow _ _ _

/-! ## The outline -/

theorem tidy_outlineCells {below : PageId → PagerM (List OutlineLine)}
    (hbelow : ∀ id, Tidy W [] (below id)) (level : Nat) (cells : List (PageId × UInt32)) :
    Tidy W [] (outlineCells below level cells) := by
  induction cells with
  | nil => exact .pure _
  | cons cell cells ih => exact (hbelow cell.1).bind fun _ => ih.bind fun _ => .pure _

theorem tidy_outlineBelow (levels level : Nat) (id : PageId) :
    Tidy W [] (outlineBelow levels level id) := by
  induction levels generalizing level id with
  | zero => exact .refuse _
  | succ levels ih =>
    refine (tidy_node id).bind fun node => ?_
    cases node with
    | leaf leaf => exact .lift_bind fun _ _ => .pure _
    | branch branch =>
      refine .lift_bind fun children _ => .lift_bind fun keys _ => ?_
      refine (tidy_outlineCells (ih (level + 1)) level _).bind fun lines => ?_
      cases children.getLast? with
      | none => exact .pure _
      | some right => exact (ih (level + 1) right).bind fun _ => .pure _

theorem tidy_outlineText : Tidy W [] outlineText :=
  (tidy_outlineBelow _ _ _).bind fun _ => .pure _

/-! ## The check -/

theorem tidy_checkParent (id expected : PageId) : Tidy W K (checkParent id expected) :=
  (tidy_isRoot id).bind fun _ => .guard _ ((tidy_parentOf id).bind fun _ =>
    .ite (.refuse _) (.pure _))

theorem tidy_checkChildren {below : PageId → Walk → PagerM (Option UInt32 × Walk)}
    (hbelow : ∀ child walk, Tidy W [] (below child walk)) (id : PageId) (keys : List UInt32)
    (index : Nat) (children : List PageId) (greatest : Option UInt32) (walk : Walk) :
    Tidy W [] (checkChildren below id keys index children greatest walk) := by
  induction children generalizing index greatest walk with
  | nil => exact .pure _
  | cons child rest ih =>
    refine (hbelow child walk).bind fun (childMax, walk) => ?_
    cases childMax with
    | none => exact .refuse _
    | some childMax => exact .lift_bind fun _ _ => ih _ _ _

theorem tidy_checkBody {levels : Nat}
    (hbelow : ∀ depth parent child walk, Tidy W [] (checkNode levels depth parent child walk))
    (depth : Nat) (parent : Option PageId) (id : PageId) (walk : Walk) (node : Node) :
    Tidy W [] (checkBody levels depth parent id walk node) := by
  cases node with
  | leaf leaf => exact .lift_bind fun _ _ => .lift_bind fun _ _ => .pure _
  | branch branch =>
    refine .lift_bind fun keys _ => .lift_bind fun children _ => .lift_bind fun _ _ => ?_
    exact tidy_checkChildren (hbelow (depth + 1) (some id)) id keys 0 children none walk

theorem tidy_checkTop (parent : Option PageId) (id : PageId) :
    Tidy W [] (match parent with
      | some expected => checkParent id expected
      | none => pure ()) := by
  cases parent with
  | none => exact .pure ()
  | some expected => exact tidy_checkParent id expected

theorem tidy_checkNode (levels depth : Nat) (parent : Option PageId) (id : PageId) (walk : Walk) :
    Tidy W [] (checkNode levels depth parent id walk) := by
  induction levels generalizing depth parent id walk with
  | zero => exact .refuse _
  | succ levels ih =>
    rw [checkNode_eq]
    exact (tidy_checkTop parent id).bind fun _ => (tidy_node id).bind fun node =>
      tidy_checkBody ih depth parent id walk node

theorem tidy_checkChain (previous : Option UInt32) (ids : List PageId) :
    Tidy W K (checkChain previous ids) := by
  induction ids generalizing K previous with
  | nil => exact .pure _
  | cons id rest ih =>
    exact (tidy_leaf id).bind fun _ => .lift_bind fun _ _ => .lift_bind fun _ _ =>
      .guard _ (ih _)

theorem tidy_check : Tidy W K check :=
  (tidy_isRoot _).bind fun _ => .guard _ ((tidy_checkNode _ _ _ _ _).bind fun _ =>
    tidy_checkChain _ _)

/-! ## Cursors -/

theorem tidy_findKey (key : UInt32) : Tidy W K (findKey key) :=
  (tidy_find key).bind fun _ => .pure _

theorem tidy_start : Tidy W K start :=
  (tidy_find 0).bind fun _ => (tidy_leaf _).bind fun _ => .pure _

theorem tidy_cursorKey (cursor : Cursor) : Tidy W K cursor.key :=
  (tidy_leaf _).bind fun _ => .ite (.lift_bind fun _ _ => .pure _) (.pure _)

theorem tidy_cursorValue (cursor : Cursor) : Tidy W K cursor.value :=
  (tidy_leaf _).bind fun _ => .guard _ (.lift _)

theorem tidy_advance (cursor : Cursor) : Tidy W K cursor.advance := by
  refine .ite (.pure _) ((tidy_leaf _).bind fun leaf => .ite (.pure _) ?_)
  cases leaf.next with
  | none => exact .pure _
  | some next => exact .pure _

theorem tidy_get (key : UInt32) : Tidy W K (get key) :=
  (tidy_findKey key).bind fun cursor => (tidy_cursorKey cursor).bind fun _ =>
    .ite ((tidy_cursorValue cursor).bind fun _ => .pure _) (.pure _)

theorem tidy_scanWithin {visit : Cursor → PagerM α} (hvisit : ∀ cursor, Tidy W [] (visit cursor))
    (places : Nat) (cursor : Cursor) : Tidy W [] (scanWithin visit places cursor) := by
  induction places generalizing cursor with
  | zero => exact .ite (.pure _) (.throw _)
  | succ places ih =>
    refine .ite (.pure _) ((hvisit cursor).bind fun _ => (tidy_advance cursor).bind fun next => ?_)
    exact (ih next).bind fun _ => .pure _

theorem tidy_keys : Tidy W K keys :=
  Tidy.bind (tidy_start.bind fun cursor => tidy_scanWithin tidy_cursorKey maxPlaces cursor)
    fun _ => .pure _

/-! ## Room for a split -/

theorem tidy_countSplits (nodes needed : Nat) (id : PageId) :
    Tidy W K (countSplits nodes needed id) := by
  induction nodes generalizing K needed id with
  | zero => exact .pure _
  | succ nodes ih =>
    refine (tidy_isRoot id).bind fun isRoot => .ite (.pure _) ?_
    refine (tidy_parentOf id).bind fun parent => (tidy_branch parent).bind fun node => ?_
    exact .ite (.pure _) (ih _ parent)

theorem tidy_ensureRoom (id : PageId) : Tidy W K (ensureRoom id) := by
  refine (tidy_countSplits maxPages 1 id).bind fun needed => .get_bind (fun a b hnum => ?_)
    fun pager => .ite (.refuse _) (.pure _)
  rw [Pager.freePages, Pager.freePages, hnum]

/-! ## Branches -/

theorem Licence.tidy_adopt (hW : Licence W L) (parent : PageId) (children : List PageId) :
    Tidy W [] (adopt parent children) :=
  .forM (fun child => hW.tidy_setParent child parent) children

/-- The contents of the root move to a page, and the root is made anew. -/
theorem Licence.tidy_moveRoot (hW : Licence W L) (left right : PageId)
    (hleft : ∀ (before root : Page) (r : Except Failure Unit) (after : Page),
      (Header.setRoot false).run root = outcome r after → W left before after)
    (hroot : ∀ before page, W PageId.root before page) : Tidy W K (do
      let (_, root) ← Pager.requestPair left PageId.root
      Pager.change left root (Header.setRoot false)
      if (← kindOf left) = .branch then
        adopt left (← (← branch left).children)
      let leftMax ← maxKey left
      Pager.edit PageId.root do
        Branch.init
        Header.setRoot true
        Branch.insertCell PageId.root 0 left leftMax
        Branch.setRight right
      setParent left PageId.root
      setParent right PageId.root) := by
  refine .requestPair_bind fun leftPage root => ?_
  have hmem : (left, leftPage) ∈ [(PageId.root, root), (left, leftPage)] := by simp
  have hrest : Tidy W [] (do
      let leftMax ← maxKey left
      Pager.edit PageId.root do
        Branch.init
        Header.setRoot true
        Branch.insertCell PageId.root 0 left leftMax
        Branch.setRight right
      setParent left PageId.root
      setParent right PageId.root) :=
    (tidy_maxKey left).bind fun _ => (Tidy.edit fun page _ after _ => hroot page after).bind
      fun _ => (hW.tidy_setParent left _).bind fun _ => hW.tidy_setParent right _
  refine (Tidy.change (List.mem_append_left K hmem) (hleft leftPage root)).bind fun _ =>
    (tidy_kindOf left).bind fun kind => .ite ?_ hrest
  exact (tidy_branch left).bind fun node => .lift_bind fun children _ =>
    (hW.tidy_adopt left children).bind fun _ => hrest

theorem tidy_growRoot (right : PageId) : Tidy Unraised K (growRoot right) := by
  refine tidy_allocate.bind fun left => licence_unraised.tidy_moveRoot left right ?_ ?_
  · intro before root r after hrun
    obtain ⟨_, hrun', hroot, -⟩ := Header.exists_setRoot false root
    obtain ⟨-, rfl⟩ := outcome_inj (r := .ok ()) (hrun'.symm.trans hrun)
    exact .inr fun hflag => by rw [hroot] at hflag; cases hflag
  · exact fun _ _ => .inl rfl

theorem modest_attachEdit (id right child : PageId) (count : Nat) (rightMax childMax : UInt32) :
    Modest (if rightMax < childMax then do
        Branch.insertCell id count right rightMax
        Branch.setRight child
      else do
        let here : Branch := { id, page := ← MonadState.get }
        Branch.insertCell id (← here.findChild childMax) child childMax) := by
  refine .ite ?_ (.get_bind fun _ => .lift_bind fun _ _ => Branch.modest_insertCell _ _ _ _)
  exact (Branch.modest_insertCell _ _ _ _).bind fun _ => Branch.modest_setRight child

theorem Licence.tidy_attach (hW : Licence W L) {node : Branch} (hnode : L node.id)
    (child : PageId) : Tidy W K (attach node child) := by
  have hlink {e : Edit pageSize Unit} (he : Modest e) : Tidy W [] (do
      editBranch node.id e
      setParent child node.id) :=
    (hW.tidy_editBranch hnode he).bind fun _ => hW.tidy_setParent child node.id
  refine .ite ?_ ?_
  · exact (tidy_maxKey child).bind fun _ => (tidy_maxKey node.right).bind fun _ =>
      hlink (modest_attachEdit _ _ _ _ _ _)
  · exact (hW.tidy_editBranch hnode (Branch.modest_setRight child)).bind fun _ =>
      hW.tidy_setParent child node.id

theorem tidy_attach (node : Branch) (child : PageId) : Tidy Unraised K (attach node child) :=
  licence_unraised.tidy_attach trivial child

/-- What is read as the node of a page has its number. -/
theorem Licence.tidy_attachTo (hW : Licence W L) (hid : L id) (child : PageId) :
    Tidy W K (attachTo id child) := by
  rw [attachTo, branch, bind_assoc]
  refine .request_bind fun page => .lift_bind fun node hnode => ?_
  obtain ⟨-, -, rfl⟩ := Branch.ofPage_eq_ok_iff.mp hnode
  exact hW.tidy_attach hid child

theorem tidy_prepareSplit (parent new : PageId) (splittingRoot : Bool) :
    Tidy Unraised K (prepareSplit parent new splittingRoot) := by
  refine .ite ?_ ?_
  · exact (tidy_growRoot new).bind fun _ => (tidy_branch _).bind fun _ =>
      .lift_bind fun _ _ => .pure _
  · exact (tidy_parentOf parent).bind fun above => (tidy_setParent new above).bind fun _ =>
      .pure _

theorem modest_dropCell :
    Modest (do Branch.setCount (← oneLess (Branch.countIn (← MonadState.get)))) :=
  .get_bind fun _ => .lift_bind fun _ _ => Branch.modest_setCount _

theorem modest_lastCellToRight (old : PageId) : Modest (do
    let here : Branch := { id := old, page := ← MonadState.get }
    let last ← oneLess here.count
    Branch.setRight (← here.cellChild last)
    Branch.setCount last) :=
  .get_bind fun _ => .lift_bind fun last _ => .lift_bind fun child _ =>
    (Branch.modest_setRight child).bind fun _ => Branch.modest_setCount last

theorem Licence.tidy_moveUpperHalf (hW : Licence W L) (hold : L old) (hnew : L new) :
    Tidy W K (moveUpperHalf old new) :=
  (tidy_branch old).bind fun _ => (hW.tidy_attachTo hnew _).bind fun _ =>
    (hW.tidy_editBranch hold (Branch.modest_setRight _)).bind fun _ => (tidy_branch old).bind
      fun _ => .lift_bind fun _ _ => (hW.tidy_attachTo hnew _).bind fun _ =>
        (hW.tidy_editBranch hold modest_dropCell).bind fun _ =>
          hW.tidy_editBranch hold (modest_lastCellToRight old)

/-- What is left of a split when both halves have their pages. -/
theorem Licence.tidy_share (hW : Licence W L) (splittingRoot : Bool) (hold : L old) (hnew : L new)
    (hroot : splittingRoot = true → L PageId.root) (habove : splittingRoot = false → L above)
    (child : PageId) (childMax : UInt32) : Tidy W K (do
      moveUpperHalf old new
      let oldMax ← maxKey old
      attachTo (if childMax < oldMax then old else new) child
      let splitMax ← maxKey old
      if splittingRoot then
        editBranch PageId.root (Branch.setKey 0 splitMax)
        return none
      else
        editBranch above (Branch.replaceKeyOf above old splitMax)
        return some (above, new)) := by
  refine (hW.tidy_moveUpperHalf hold hnew).bind fun _ => (tidy_maxKey old).bind fun oldMax => ?_
  have hdestination : L (if childMax < oldMax then old else new) := by
    split
    · exact hold
    · exact hnew
  refine (hW.tidy_attachTo hdestination child).bind fun _ => (tidy_maxKey old).bind
    fun splitMax => ?_
  by_cases hsplitting : splittingRoot = true
  · rw [if_pos hsplitting]
    exact (hW.tidy_editBranch (hroot hsplitting) (Branch.modest_setKey 0 splitMax)).bind
      fun _ => .pure _
  · rw [if_neg hsplitting]
    exact (hW.tidy_editBranch (habove (Bool.eq_false_iff.mpr hsplitting))
      (Branch.modest_replaceKeyOf above old splitMax)).bind fun _ => .pure _

theorem tidy_splitBranch (parent child : PageId) : Tidy Unraised K (splitBranch parent child) := by
  refine (tidy_maxKey child).bind fun childMax => (tidy_isRoot parent).bind fun isRoot =>
    tidy_allocate.bind fun new => (Tidy.edit (Branch.modest_init.unraised new)).bind fun _ =>
      (tidy_prepareSplit parent new isRoot).bind fun (old, grandparent) => ?_
  exact licence_unraised.tidy_share isRoot trivial trivial (fun _ => trivial) (fun _ => trivial)
    child childMax

theorem tidy_linkWithin (branches : Nat) (parent child : PageId) :
    Tidy Unraised K (linkWithin branches parent child) := by
  induction branches generalizing K parent child with
  | zero => exact .throw _
  | succ branches ih =>
    refine (tidy_branch parent).bind fun node => .ite (tidy_attach node child) ?_
    refine (tidy_splitBranch parent child).bind fun rest => ?_
    cases rest with
    | none => exact .pure _
    | some rest => exact ih rest.1 rest.2

theorem tidy_link (parent child : PageId) : Tidy Unraised K (link parent child) := by
  refine .get_bind (fun a b hnum => ?_) fun pager => tidy_linkWithin _ parent child
  rw [Pager.freePages, Pager.freePages, hnum]

/-! ## Leaves -/

theorem modest_fresh (parent : PageId) (next : Option PageId) (cells : List (List UInt8)) :
    Modest (do
      Leaf.init
      Header.setParent parent
      Leaf.setNext next
      Leaf.setCells cells
      Leaf.setCount cells.length) :=
  Leaf.modest_init.bind fun _ => (Header.modest_setParent _).bind fun _ =>
    (Leaf.modest_setNext _).bind fun _ => (Leaf.modest_setCells cells).bind fun _ =>
      Leaf.modest_setCount _

theorem modest_refill (new : PageId) (cells : List (List UInt8)) : Modest (do
    Leaf.setCells cells
    Leaf.setCount cells.length
    Leaf.setNext (some new)) :=
  (Leaf.modest_setCells cells).bind fun _ => (Leaf.modest_setCount _).bind fun _ =>
    Leaf.modest_setNext _

theorem tidy_splitLeaf (old : PageId) (cell : Nat) (key : UInt32) (value : List UInt8) :
    Tidy Unraised K (splitLeaf old cell key value) := by
  refine (tidy_maxKey old).bind fun oldMax => (tidy_leaf old).bind fun before =>
    .lift_bind fun cells _ => tidy_allocate.bind fun new => ?_
  refine (Tidy.edit ((modest_fresh _ _ _).unraised new)).bind fun _ =>
    (tidy_editLeaf old (modest_refill new _)).bind fun _ => .ite (tidy_growRoot new) ?_
  exact (tidy_maxKey old).bind fun _ => (tidy_editBranch _ (Branch.modest_replaceKey _ _ _)).bind
    fun _ => tidy_link before.parent new

theorem tidy_insertAt (id : PageId) (cell : Nat) (key : UInt32) (value : List UInt8) :
    Tidy Unraised K (insertAt id cell key value) := by
  refine .guard _ ((tidy_leaf id).bind fun node => .guard _ (.ite ?_ ?_))
  · exact (tidy_ensureRoom id).bind fun _ => tidy_splitLeaf id cell key value
  · exact tidy_editLeaf id (Leaf.modest_insertCell id cell key value)

theorem tidy_insert (key : UInt32) (value : List UInt8) : Tidy Unraised K (insert key value) :=
  (tidy_findKey key).bind fun cursor => (tidy_cursorKey cursor).bind fun _ =>
    .guard _ (tidy_insertAt cursor.page cursor.cell key value)

/-! ## Opening -/

theorem eq_unusedPage_of_allocate {pager after : Pager} {id : PageId}
    (hrun : Pager.allocate.run pager = .ok id after) : id = pager.unusedPage := by
  rw [Pager.allocate, get_bind_run] at hrun
  dsimp only at hrun
  split at hrun
  · cases hrun
  · obtain ⟨_, middle, -, hlast⟩ := exists_of_bind_run hrun
    cases hlast
    rfl

/-- From its file a tree is opened along strides, whatever bytes the file has.  The root of a
    new tree is flagged, and it is page 0. -/
theorem strides_openAt {location : Location} {file : Image} {pager : Pager}
    (hlocation : location.openFile = .ok file) (hopen : openAt location = .ok pager) :
    Pager.Strides Unraised (Pager.ofImage file) pager := by
  have hrun := run_of_openAt hlocation hopen
  rw [establish, get_bind_run] at hrun
  split at hrun
  · rename_i hnew
    obtain ⟨root, middle, hallocate, hflag⟩ := exists_of_bind_run hrun
    have hroot : root = PageId.root := by
      rw [eq_unusedPage_of_allocate hallocate, Pager.unusedPage, hnew]
      rfl
    refine (tidy_allocate.strides (r := .ok root) hallocate).trans ?_
    exact (Tidy.edit fun _ _ _ _ => .inl hroot).strides (r := .ok ()) hflag
  · have hlook : Tidy Unraised [] (kindOf PageId.root >>= fun _ => pure ()) :=
      (tidy_kindOf PageId.root).bind fun _ => .pure _
    exact hlook.strides (r := .ok ()) hrun

/-! ## Wherever the pages are -/

/-- An insert is the same step, whether its pages are in memory or in the file. -/
theorem steady_insert (key : UInt32) (value : List UInt8) : Steady [] (insert key value) :=
  (tidy_insert key value (K := [])).steady

end Tree
end RowStore
