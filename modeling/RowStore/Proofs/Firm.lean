/-
  RowStore/Proofs/Firm.lean
  =========================
  **Failures that nobody goes on after.**  A shell goes on after a duplicate key and after
  a full table, and only these are recoverable.  A step is *firm* if it has no recoverable
  failure, whatever it is run on.  Every look at a node and every edit of one is firm, and
  so are requests.  A step that takes pages may find the table full, but that is all.
-/
import RowStore.Proofs.Run
import RowStore.Tree.Insert

namespace RowStore

variable {α β σ : Type}

/-- A shell goes on after such a failure. -/
def Failure.isRecoverable : Failure → Bool
  | .error e => e.isRecoverable
  | .fault _ | .endless => false

/-! ## Checks -/

/-- A check without recoverable failures. -/
def FirmCheck (check : Except Failure α) : Prop :=
  ∀ failure, check = .error failure → failure.isRecoverable = false

namespace FirmCheck

theorem pure (a : α) : FirmCheck (Pure.pure a) := nofun

theorem refuse {e : Error} (he : e.isRecoverable = false) :
    FirmCheck (RowStore.refuse e : Except Failure α) := by
  rintro _ ⟨⟩
  exact he

theorem crash (f : Fault) : FirmCheck (RowStore.crash f : Except Failure α) := by
  rintro _ ⟨⟩
  rfl

theorem bind {check : Except Failure α} {f : α → Except Failure β} (hcheck : FirmCheck check)
    (hf : ∀ a, FirmCheck (f a)) : FirmCheck (check >>= f) := by
  intro failure h
  cases check with
  | error failure' =>
    cases h
    exact hcheck _ rfl
  | ok a => exact hf a failure h

theorem ite {c : Prop} [Decidable c] {check check' : Except Failure α} (h : FirmCheck check)
    (h' : FirmCheck check') : FirmCheck (if c then check else check') := by
  split
  · exact h
  · exact h'

theorem mapM {f : α → Except Failure β} (hf : ∀ a, FirmCheck (f a)) (l : List α) :
    FirmCheck (l.mapM f) := by
  induction l with
  | nil => exact pure _
  | cons a l ih =>
    rw [List.mapM_cons]
    exact (hf a).bind fun _ => ih.bind fun _ => pure _

theorem bisectWithin {probe : Nat → Except Failure Ordering} (hprobe : ∀ i, FirmCheck (probe i)) :
    ∀ steps lo hi, FirmCheck (bisectWithin probe steps lo hi)
  | 0, _, _ => pure _
  | steps + 1, lo, hi => by
    rw [RowStore.bisectWithin]
    refine ite (pure _) ((hprobe _).bind fun side => ?_)
    cases side with
    | lt => exact bisectWithin hprobe steps _ _
    | eq => exact pure _
    | gt => exact bisectWithin hprobe steps _ _

end FirmCheck

/-! ## Steps -/

/-- A step without recoverable failures. -/
def Firm (m : EStateM Failure σ α) : Prop :=
  ∀ s failure t, m.run s = .error failure t → failure.isRecoverable = false

namespace Firm

theorem pure (a : α) : Firm (Pure.pure a : EStateM Failure σ α) := nofun

theorem get : Firm (MonadState.get : EStateM Failure σ σ) := nofun

theorem set (s : σ) : Firm (MonadStateOf.set s : EStateM Failure σ PUnit) := nofun

theorem modify (f : σ → σ) : Firm (modify f : EStateM Failure σ PUnit) := nofun

theorem throw {failure : Failure} (h : failure.isRecoverable = false) :
    Firm (throw failure : EStateM Failure σ α) := by
  rintro s _ t ⟨⟩
  exact h

theorem refuse {e : Error} (he : e.isRecoverable = false) :
    Firm (RowStore.refuse e : EStateM Failure σ α) := throw he

theorem crash (f : Fault) : Firm (RowStore.crash f : EStateM Failure σ α) := throw rfl

theorem lift {check : Except Failure α} (h : FirmCheck check) :
    Firm (liftM check : EStateM Failure σ α) := by
  intro s failure t hrun
  cases check with
  | error failure' =>
    cases hrun
    exact h _ rfl
  | ok a => cases hrun

theorem bind {m : EStateM Failure σ α} {f : α → EStateM Failure σ β} (hm : Firm m)
    (hf : ∀ a, Firm (f a)) : Firm (m >>= f) := by
  intro s failure t hrun
  cases hfirst : m.run s with
  | error failure' s' =>
    rw [bind_run_error hfirst] at hrun
    cases hrun
    exact hm _ _ _ hfirst
  | ok a s' =>
    rw [bind_run hfirst] at hrun
    exact hf a _ _ _ hrun

theorem ite {c : Prop} [Decidable c] {m m' : EStateM Failure σ α} (hm : Firm m) (hm' : Firm m') :
    Firm (if c then m else m') := by
  split
  · exact hm
  · exact hm'

/-- A step that something may come before. -/
theorem guard {c : Prop} [Decidable c] {m : EStateM Failure σ α} {m' : EStateM Failure σ β}
    (hm : Firm m) (hm' : Firm m') : Firm (if c then m >>= fun _ => m' else m') :=
  ite (hm.bind fun _ => hm') hm'

theorem forM {f : α → EStateM Failure σ PUnit} (hf : ∀ a, Firm (f a)) (l : List α) :
    Firm (l.forM f) := by
  induction l with
  | nil => exact pure _
  | cons a l ih => exact (hf a).bind fun _ => ih

end Firm

/-! ## Nodes -/

theorem Bytes.firm_readByte {n : Nat} (b : Bytes n) (i : Nat) : FirmCheck (b.readByte i) :=
  .ite (.pure _) (.crash _)

namespace Edit

variable {n : Nat}

theorem firm_update (f : Bytes n → Bytes n) : Firm (update f) := .modify f

theorem firm_writeByte (i : Nat) (x : UInt8) : Firm (writeByte i x : Edit n Unit) :=
  .ite (firm_update _) (.crash _)

theorem firm_writeWord (off : Nat) (w : UInt32) : Firm (writeWord off w : Edit n Unit) :=
  .ite (firm_update _) (.crash _)

theorem firm_fill (off len : Nat) (data : List UInt8) : Firm (fill off len data : Edit n Unit) :=
  .ite (firm_update _) (.crash _)

end Edit

namespace Header

variable {n : Nat}

theorem firm_readKind (id : PageId) (b : Bytes n) : FirmCheck (readKind id b) := by
  refine (b.firm_readByte kindOffset).bind fun value => ?_
  cases NodeKind.ofByte? value with
  | none => exact .refuse rfl
  | some kind => exact .pure kind

theorem firm_setKind (kind : NodeKind) : Firm (setKind kind : Edit n Unit) :=
  Edit.firm_writeByte _ _

theorem firm_setRoot (isRoot : Bool) : Firm (setRoot isRoot : Edit n Unit) :=
  Edit.firm_writeByte _ _

theorem firm_setParent (parent : PageId) : Firm (setParent parent : Edit n Unit) :=
  Edit.firm_writeWord _ _

end Header

namespace Leaf

theorem firm_ofPage (id : PageId) (page : Page) : FirmCheck (ofPage id page) := by
  refine (Header.firm_readKind id page).bind fun kind => ?_
  cases kind with
  | leaf => exact .ite (.pure _) (.refuse rfl)
  | branch => exact .refuse rfl

theorem firm_cellOffset (i : Nat) : FirmCheck (cellOffset i) := .ite (.pure _) (.crash _)

theorem firm_key (leaf : Leaf) (i : Nat) : FirmCheck (leaf.key i) :=
  (firm_cellOffset i).bind fun _ => .pure _

theorem firm_cells (leaf : Leaf) : FirmCheck leaf.cells :=
  .mapM (fun i => (firm_cellOffset i).bind fun _ => .pure _) _

theorem firm_maxKey (leaf : Leaf) : FirmCheck leaf.maxKey := by
  rw [maxKey]
  cases leaf.count with
  | zero => exact .refuse rfl
  | succ last => exact leaf.firm_key last

theorem firm_find (leaf : Leaf) (key : UInt32) : FirmCheck (leaf.find key) :=
  .bisectWithin (fun i => (leaf.firm_key i).bind fun _ => .pure _) _ _ _

theorem firm_init : Firm init :=
  (Header.firm_setKind _).bind fun _ => (Header.firm_setRoot _).bind fun _ =>
    (Edit.firm_writeWord _ _).bind fun _ => Edit.firm_writeWord _ _

theorem firm_setCount (count : Nat) : Firm (setCount count) :=
  .guard (.crash _) (Edit.firm_writeWord _ _)

theorem firm_setNext (next : Option PageId) : Firm (setNext next) := Edit.firm_writeWord _ _

theorem firm_setCells (cells : List (List UInt8)) : Firm (setCells cells) :=
  .forM (fun _ => (Firm.lift (firm_cellOffset _)).bind fun _ => Edit.firm_fill _ _ _) _

theorem firm_fresh (parent : PageId) (next : Option PageId) (cells : List (List UInt8))
    (count : Nat) : Firm (do
      init
      Header.setParent parent
      setNext next
      setCells cells
      setCount count) :=
  firm_init.bind fun _ => (Header.firm_setParent parent).bind fun _ => (firm_setNext next).bind
    fun _ => (firm_setCells cells).bind fun _ => firm_setCount count

theorem firm_refill (next : Option PageId) (cells : List (List UInt8)) (count : Nat) : Firm (do
    setCells cells
    setCount count
    setNext next) :=
  (firm_setCells cells).bind fun _ => (firm_setCount count).bind fun _ => firm_setNext next

theorem firm_insertCell (id : PageId) (i : Nat) (key : UInt32) (value : List UInt8) :
    Firm (insertCell id i key value) := by
  refine Firm.get.bind fun page => ?_
  have hcell : Firm (do setCount (countIn page + 1); setKey i key; setValue i value) :=
    (firm_setCount _).bind fun _ =>
      ((Firm.lift (firm_cellOffset i)).bind fun _ => Edit.firm_writeWord _ _).bind fun _ =>
        (Firm.lift (firm_cellOffset i)).bind fun _ => Edit.firm_fill _ _ _
  refine .guard (.crash _) (.guard (.crash _) (.ite ?_ hcell))
  exact (Firm.lift (firm_cellOffset i)).bind fun _ => (Firm.lift (firm_cellOffset _)).bind fun _ =>
    (Edit.firm_update _).bind fun _ => hcell

end Leaf

namespace Branch

theorem firm_ofPage (id : PageId) (page : Page) : FirmCheck (ofPage id page) := by
  refine (Header.firm_readKind id page).bind fun kind => ?_
  cases kind with
  | leaf => exact .refuse rfl
  | branch => exact .ite (.pure _) (.refuse rfl)

theorem firm_cellOffset (i : Nat) : FirmCheck (cellOffset i) := .ite (.pure _) (.crash _)

theorem firm_key (branch : Branch) (i : Nat) : FirmCheck (branch.key i) :=
  (firm_cellOffset i).bind fun _ => .pure _

theorem firm_cellChild (branch : Branch) (i : Nat) : FirmCheck (branch.cellChild i) :=
  (firm_cellOffset i).bind fun _ => .pure _

theorem firm_child (branch : Branch) (i : Nat) : FirmCheck (branch.child i) := by
  have hvalid (child : PageId) : FirmCheck (if child.isValid then Pure.pure child
      else refuse (.invalidChildPointer branch.id i) : Except Failure PageId) :=
    .ite (.pure _) (.refuse rfl)
  have hchild : FirmCheck (do
      let child ← if i = branch.count then Pure.pure branch.right else branch.cellChild i
      if child.isValid then Pure.pure child else refuse (.invalidChildPointer branch.id i)) :=
    .ite (hvalid _) ((branch.firm_cellChild i).bind hvalid)
  exact .ite (.bind (.refuse rfl) fun _ => hchild) hchild

theorem firm_findChild (branch : Branch) (key : UInt32) : FirmCheck (branch.findChild key) :=
  .bisectWithin (fun i => (branch.firm_key i).bind fun _ => .pure _) _ _ _

theorem firm_children (branch : Branch) : FirmCheck branch.children :=
  .mapM branch.firm_child _

theorem firm_indexOfChildFrom (branch : Branch) (child : PageId) :
    ∀ todo i, FirmCheck (branch.indexOfChildFrom child todo i)
  | 0, _ => .pure _
  | todo + 1, i => (branch.firm_cellChild i).bind fun _ =>
    .ite (.pure _) (branch.firm_indexOfChildFrom child todo (i + 1))

theorem firm_init : Firm init :=
  (Header.firm_setKind _).bind fun _ => (Header.firm_setRoot _).bind fun _ =>
    (Edit.firm_writeWord _ _).bind fun _ => Edit.firm_writeWord _ _

theorem firm_setCount (count : Nat) : Firm (setCount count) :=
  .guard (.crash _) (Edit.firm_writeWord _ _)

theorem firm_setRight (child : PageId) : Firm (setRight child) := Edit.firm_writeWord _ _

theorem firm_setKey (i : Nat) (key : UInt32) : Firm (setKey i key) :=
  (Firm.lift (firm_cellOffset i)).bind fun _ => Edit.firm_writeWord _ _

theorem firm_insertCell (id : PageId) (i : Nat) (child : PageId) (key : UInt32) :
    Firm (insertCell id i child key) := by
  refine Firm.get.bind fun page => ?_
  have hcell : Firm (do setCount (countIn page + 1); setCellChild i child; setKey i key) :=
    (firm_setCount _).bind fun _ =>
      ((Firm.lift (firm_cellOffset i)).bind fun _ => Edit.firm_writeWord _ _).bind fun _ =>
        firm_setKey i key
  refine .guard (.crash _) (.guard (.crash _) (.ite ?_ hcell))
  exact (Firm.lift (firm_cellOffset i)).bind fun _ => (Firm.lift (firm_cellOffset _)).bind fun _ =>
    (Edit.firm_update _).bind fun _ => hcell

theorem firm_replaceKey (id : PageId) (old new : UInt32) : Firm (replaceKey id old new) :=
  Firm.get.bind fun _ => (Firm.lift (firm_findChild _ _)).bind fun i =>
    .ite ((Firm.lift (firm_key _ _)).bind fun _ => .ite (firm_setKey i new) (.pure _)) (.pure _)

theorem firm_replaceKeyOf (id child : PageId) (new : UInt32) :
    Firm (replaceKeyOf id child new) := by
  refine Firm.get.bind fun _ => (Firm.lift (firm_indexOfChildFrom _ _ _ _)).bind fun i => ?_
  cases i with
  | none => exact .pure _
  | some i => exact firm_setKey i new

end Branch

/-! ## Pages -/

namespace Pager

theorem firm_tally (work : Counters) : Firm (tally work) := .modify _

theorem firm_store (id : PageId) (page : Page) : Firm (store id page) := .modify _

theorem firm_load (id : PageId) : Firm (load id) := by
  refine Firm.get.bind fun pager => .ite (.guard (.refuse rfl) ?_) ?_
  · exact (firm_tally _).bind fun _ => .pure _
  · exact (Firm.set _).bind fun _ => .pure _

theorem firm_request (id : PageId) : Firm (request id) := by
  have hbounds : FirmCheck (checkBounds id) := .ite (.pure _) (.refuse rfl)
  refine (Firm.lift hbounds).bind fun _ => Firm.get.bind fun pager => ?_
  cases pager.slot id with
  | none =>
    exact (firm_tally _).bind fun _ => (firm_load id).bind fun _ =>
      (firm_store id _).bind fun _ => .pure _
  | some page => exact (firm_tally _).bind fun _ => .pure _

theorem firm_pageIn (part : List (Option Page)) (i : Nat) (id : PageId) :
    FirmCheck (pageIn part i id) := by
  rw [pageIn]
  split
  · exact .crash _
  · exact .refuse rfl
  · exact .pure _

theorem firm_requestPair (a b : PageId) : Firm (requestPair a b) := by
  refine .guard (.refuse rfl) ((firm_request a).bind fun _ => (firm_request b).bind fun _ => ?_)
  exact Firm.get.bind fun _ => (Firm.lift (firm_pageIn _ _ _)).bind fun _ =>
    (Firm.lift (firm_pageIn _ _ _)).bind fun _ => .pure _

theorem firm_change {e : Edit pageSize α} (he : Firm e) (id : PageId) (page : Page) :
    Firm (change id page e) := by
  rw [change]
  cases hrun : e.run page with
  | ok a after => exact (firm_store id after).bind fun _ => .pure a
  | error failure after => exact (firm_store id after).bind fun _ => .throw (he _ _ _ hrun)

theorem firm_edit {e : Edit pageSize α} (he : Firm e) (id : PageId) : Firm (edit id e) :=
  (firm_request id).bind fun page => firm_change he id page

end Pager

/-! ## Trees -/

namespace Tree

theorem firm_kindOf (id : PageId) : Firm (kindOf id) :=
  (Pager.firm_request id).bind fun page => .lift (Header.firm_readKind id page)

theorem firm_isRoot (id : PageId) : Firm (isRoot id) :=
  (Pager.firm_request id).bind fun _ => .pure _

theorem firm_parentOf (id : PageId) : Firm (parentOf id) :=
  (Pager.firm_request id).bind fun _ => .pure _

theorem firm_setParent (id parent : PageId) : Firm (setParent id parent) :=
  Pager.firm_edit (Header.firm_setParent parent) id

theorem firm_leaf (id : PageId) : Firm (leaf id) :=
  (Pager.firm_request id).bind fun page => .lift (Leaf.firm_ofPage id page)

theorem firm_branch (id : PageId) : Firm (branch id) :=
  (Pager.firm_request id).bind fun page => .lift (Branch.firm_ofPage id page)

theorem firm_editLeaf {e : Edit pageSize α} (he : Firm e) (id : PageId) : Firm (editLeaf id e) :=
  (firm_leaf id).bind fun _ => Pager.firm_change he id _

theorem firm_editBranch {e : Edit pageSize α} (he : Firm e) (id : PageId) :
    Firm (editBranch id e) :=
  (firm_branch id).bind fun _ => Pager.firm_change he id _

theorem firm_node (id : PageId) : Firm (node id) := by
  refine (firm_kindOf id).bind fun kind => ?_
  cases kind with
  | leaf => exact (firm_leaf id).bind fun _ => .pure _
  | branch => exact (firm_branch id).bind fun _ => .pure _

theorem firm_maxKeyBelow : ∀ nodes id, Firm (maxKeyBelow nodes id)
  | 0, _ => .refuse rfl
  | nodes + 1, id => by
    refine (firm_node id).bind fun node => ?_
    cases node with
    | leaf leaf => exact .lift leaf.firm_maxKey
    | branch branch =>
      exact (Firm.lift (branch.firm_child _)).bind fun child => firm_maxKeyBelow nodes child

theorem firm_maxKey (id : PageId) : Firm (maxKey id) := firm_maxKeyBelow _ id

theorem firm_adopt (parent : PageId) (children : List PageId) : Firm (adopt parent children) :=
  .forM (fun child => firm_setParent child parent) children

/-- The edit that links a child into a branch that has others. -/
theorem firm_attachEdit (id right child : PageId) (count : Nat) (rightMax childMax : UInt32) :
    Firm (if rightMax < childMax then do
        Branch.insertCell id count right rightMax
        Branch.setRight child
      else do
        let here : Branch := { id, page := ← get }
        Branch.insertCell id (← here.findChild childMax) child childMax : Edit pageSize Unit) := by
  refine .ite ?_ ?_
  · exact (Branch.firm_insertCell _ _ _ _).bind fun _ => Branch.firm_setRight child
  · exact Firm.get.bind fun _ => (Firm.lift (Branch.firm_findChild _ _)).bind fun _ =>
      Branch.firm_insertCell _ _ _ _

theorem firm_attach (node : Branch) (child : PageId) : Firm (attach node child) := by
  have hlink := firm_setParent child node.id
  refine .ite ?_ ((firm_editBranch (Branch.firm_setRight child) _).bind fun _ => hlink)
  exact (firm_maxKey child).bind fun _ => (firm_maxKey node.right).bind fun _ =>
    (firm_editBranch (firm_attachEdit _ _ _ _ _ _) _).bind fun _ => hlink

theorem firm_attachTo (parent child : PageId) : Firm (attachTo parent child) :=
  (firm_branch parent).bind fun node => firm_attach node child

theorem firm_oneLess (n : Nat) : FirmCheck (oneLess n) := by
  cases n with
  | zero => exact .crash _
  | succ n => exact .pure n

theorem firm_dropCell :
    Firm (do Branch.setCount (← oneLess (Branch.countIn (← get))) : Edit pageSize Unit) :=
  Firm.get.bind fun _ => (Firm.lift (firm_oneLess _)).bind fun _ => Branch.firm_setCount _

theorem firm_lastCellToRight (old : PageId) : Firm (do
    let here : Branch := { id := old, page := ← get }
    let last ← oneLess here.count
    Branch.setRight (← here.cellChild last)
    Branch.setCount last : Edit pageSize Unit) :=
  Firm.get.bind fun _ => (Firm.lift (firm_oneLess _)).bind fun _ =>
    (Firm.lift (Branch.firm_cellChild _ _)).bind fun _ =>
      (Branch.firm_setRight _).bind fun _ => Branch.firm_setCount _

theorem firm_moveUpperHalf (old new : PageId) : Firm (moveUpperHalf old new) :=
  (firm_branch old).bind fun _ => (firm_attachTo new _).bind fun _ =>
    (firm_editBranch (Branch.firm_setRight _) old).bind fun _ => (firm_branch old).bind fun node =>
    (Firm.lift (node.firm_cellChild _)).bind fun _ => (firm_attachTo new _).bind fun _ =>
    (firm_editBranch firm_dropCell old).bind fun _ => firm_editBranch (firm_lastCellToRight old) old

/-- All of `growRoot` but the allocation. -/
theorem firm_moveRoot (left right : PageId) : Firm (do
    let (_, root) ← Pager.requestPair left PageId.root
    Pager.change left root (Header.setRoot false)
    if (← kindOf left) = .branch then
      adopt left (← (← branch left).children)
    let leftMax ← maxKey left
    Pager.edit PageId.root do
      Branch.init
      Header.setRoot true
      Branch.insertCell PageId.root 0 left leftMax
      Branch.setRight right
    setParent left PageId.root
    setParent right PageId.root) := by
  have hrest : Firm (do
      let leftMax ← maxKey left
      Pager.edit PageId.root do
        Branch.init
        Header.setRoot true
        Branch.insertCell PageId.root 0 left leftMax
        Branch.setRight right
      setParent left PageId.root
      setParent right PageId.root) :=
    (firm_maxKey left).bind fun _ =>
      (Pager.firm_edit (Branch.firm_init.bind fun _ => (Header.firm_setRoot true).bind fun _ =>
        (Branch.firm_insertCell _ _ _ _).bind fun _ => Branch.firm_setRight right) _).bind fun _ =>
          (firm_setParent left _).bind fun _ => firm_setParent right _
  refine (Pager.firm_requestPair left PageId.root).bind fun (_, root) =>
    (Pager.firm_change (Header.firm_setRoot false) left root).bind fun _ =>
      (firm_kindOf left).bind fun kind => .ite ?_ hrest
  exact (firm_branch left).bind fun node => (Firm.lift node.firm_children).bind fun children =>
    (firm_adopt left children).bind fun _ => hrest

end Tree

/-! ## Steps that take pages -/

/-- The only recoverable failure of the step is that the table is full. -/
def OnlyFull (m : EStateM Failure σ α) : Prop :=
  ∀ s failure t, m.run s = .error failure t → failure.isRecoverable = true →
    failure = .error .tableFull

theorem Firm.onlyFull {m : EStateM Failure σ α} (h : Firm m) : OnlyFull m := by
  intro s failure t hrun hfailure
  rw [h s failure t hrun] at hfailure
  cases hfailure

namespace OnlyFull

theorem refuse : OnlyFull (RowStore.refuse .tableFull : EStateM Failure σ α) := by
  rintro s _ t ⟨⟩ -
  rfl

theorem bind {m : EStateM Failure σ α} {f : α → EStateM Failure σ β} (hm : OnlyFull m)
    (hf : ∀ a, OnlyFull (f a)) : OnlyFull (m >>= f) := by
  intro s failure t hrun
  cases hfirst : m.run s with
  | error failure' s' =>
    rw [bind_run_error hfirst] at hrun
    cases hrun
    exact hm _ _ _ hfirst
  | ok a s' =>
    rw [bind_run hfirst] at hrun
    exact hf a _ _ _ hrun

theorem ite {c : Prop} [Decidable c] {m m' : EStateM Failure σ α} (hm : OnlyFull m)
    (hm' : OnlyFull m') : OnlyFull (if c then m else m') := by
  split
  · exact hm
  · exact hm'

end OnlyFull

theorem Pager.onlyFull_allocate : OnlyFull Pager.allocate := by
  refine Firm.get.onlyFull.bind fun pager => ?_
  have hzero := ((firm_edit (Edit.firm_update fun _ => Bytes.zero) pager.unusedPage).bind
    fun _ => Firm.pure pager.unusedPage).onlyFull
  exact .ite (OnlyFull.refuse.bind fun _ => hzero) hzero

namespace Tree

theorem onlyFull_growRoot (right : PageId) : OnlyFull (growRoot right) :=
  Pager.onlyFull_allocate.bind fun left => (firm_moveRoot left right).onlyFull

theorem onlyFull_splitBranch (parent child : PageId) : OnlyFull (splitBranch parent child) := by
  refine (firm_maxKey child).onlyFull.bind fun childMax => (firm_isRoot parent).onlyFull.bind
    fun splittingRoot => Pager.onlyFull_allocate.bind fun new =>
      (Pager.firm_edit Branch.firm_init new).onlyFull.bind fun _ => .bind ?_ fun halves => ?_
  · refine .ite ((onlyFull_growRoot new).bind fun _ => Firm.onlyFull ?_) (Firm.onlyFull ?_)
    · exact (firm_branch _).bind fun root => (Firm.lift (root.firm_cellChild 0)).bind fun _ =>
        .pure _
    · exact (firm_parentOf parent).bind fun grandparent => (firm_setParent new grandparent).bind
        fun _ => .pure _
  · refine Firm.onlyFull ?_
    refine (firm_moveUpperHalf _ new).bind fun _ => (firm_maxKey _).bind fun _ =>
      (firm_attachTo _ child).bind fun _ => (firm_maxKey _).bind fun splitMax => .ite ?_ ?_
    · exact (firm_editBranch (Branch.firm_setKey 0 splitMax) _).bind fun _ => .pure _
    · exact (firm_editBranch (Branch.firm_replaceKeyOf _ _ splitMax) _).bind fun _ => .pure _

theorem onlyFull_linkWithin : ∀ branches parent child, OnlyFull (linkWithin branches parent child)
  | 0, _, _ => (Firm.throw rfl).onlyFull
  | branches + 1, parent, child => by
    refine (firm_branch parent).onlyFull.bind fun node => .ite (firm_attach node child).onlyFull ?_
    refine (onlyFull_splitBranch parent child).bind fun rest => ?_
    cases rest with
    | none => exact (Firm.pure ()).onlyFull
    | some rest => exact onlyFull_linkWithin branches rest.1 rest.2

theorem onlyFull_splitLeaf (old : PageId) (cell : Nat) (key : UInt32) (value : List UInt8) :
    OnlyFull (splitLeaf old cell key value) := by
  refine (firm_maxKey old).onlyFull.bind fun oldMax => (firm_leaf old).onlyFull.bind fun before =>
    (Firm.lift before.firm_cells).onlyFull.bind fun cells => Pager.onlyFull_allocate.bind
      fun new => ?_
  refine (Pager.firm_edit (Leaf.firm_fresh _ _ _ _) new).onlyFull.bind fun _ =>
    (firm_editLeaf (Leaf.firm_refill _ _ _) old).onlyFull.bind fun _ =>
      .ite (onlyFull_growRoot new) ?_
  exact (firm_maxKey old).onlyFull.bind fun newMax =>
    (firm_editBranch (Branch.firm_replaceKey _ _ _) _).onlyFull.bind fun _ =>
      Firm.get.onlyFull.bind fun pager => onlyFull_linkWithin _ _ new

end Tree
end RowStore
