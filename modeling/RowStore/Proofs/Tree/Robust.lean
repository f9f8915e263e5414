/-
  RowStore/Proofs/Tree/Robust.lean
  ================================
  **Reading any file at all.**  The pages of a store may hold anything: wild links, circles,
  counts that no node can have, bytes that name no kind of node.  A step is *safe* if on
  every pager it ends with an answer or with an error, never with a broken promise and never
  not at all.  Every way of reading a store is safe, and so is every move of a cursor until
  one fails.

  A node is accepted only if its count fits, and from there all else follows: no position
  that a read asks for is behind the count, and so none is behind the page.
-/
import RowStore.Proofs.Tree.Endings
import RowStore.Proofs.Tree.Operations

namespace RowStore

variable {α β : Type}

/-- An error is an answer: no promise was broken, and the step came to its end. -/
def Failure.isError : Failure → Bool
  | .error _ => true
  | .fault _ | .endless => false

/-! ## Safe checks -/

/-- The check passes with an answer as in `Q`, or refuses with an error. -/
def SafeCheck (check : Except Failure α) (Q : α → Prop) : Prop :=
  match check with
  | .ok a => Q a
  | .error failure => failure.isError = true

namespace SafeCheck

variable {check : Except Failure α} {P Q : α → Prop} {R : β → Prop}

theorem pure {a : α} (h : Q a) : SafeCheck (Pure.pure a) Q := h

theorem refuse {e : Error} : SafeCheck (RowStore.refuse e : Except Failure α) Q := rfl

theorem bind {f : α → Except Failure β} (hcheck : SafeCheck check P)
    (hf : ∀ a, P a → SafeCheck (f a) R) : SafeCheck (check >>= f) R := by
  cases check with
  | error failure => exact hcheck
  | ok a => exact hf a hcheck

theorem ite {c : Prop} [Decidable c] {check' : Except Failure α} (h : c → SafeCheck check Q)
    (h' : ¬c → SafeCheck check' Q) : SafeCheck (if c then check else check') Q := by
  split
  · exact h ‹_›
  · exact h' ‹_›

/-- A refusal before a check that is safe where nothing was refused. -/
theorem guard {c : Prop} [Decidable c] {e : Error} (h : ¬c → SafeCheck check Q) :
    SafeCheck (if c then RowStore.refuse e >>= fun _ : PUnit => check else check) Q :=
  ite (fun _ => refuse) h

theorem mapM {f : α → Except Failure β} {l : List α}
    (hf : ∀ a ∈ l, SafeCheck (f a) fun _ => True) : SafeCheck (l.mapM f) fun _ => True := by
  induction l with
  | nil => exact pure trivial
  | cons a l ih =>
    rw [List.mapM_cons]
    exact (hf a List.mem_cons_self).bind fun _ _ =>
      (ih fun b hb => hf b (List.mem_cons_of_mem a hb)).bind fun _ _ => pure trivial

/-- A search asks for positions of its range only, and ends in it. -/
theorem bisectWithin {probe : Nat → Except Failure Ordering} {count : Nat}
    (hprobe : ∀ i < count, SafeCheck (probe i) fun _ => True) :
    ∀ {steps lo hi : Nat}, lo ≤ hi → hi ≤ count →
      SafeCheck (bisectWithin probe steps lo hi) (· ≤ count)
  | 0, _, _, hlo, hhi => pure (Nat.le_trans hlo hhi)
  | steps + 1, lo, hi, hlo, hhi => by
    rw [RowStore.bisectWithin]
    refine ite (fun _ => pure (Nat.le_trans hlo hhi)) fun hne => ?_
    have hmid : (lo + hi) / 2 < hi := by omega
    refine (hprobe _ (Nat.lt_of_lt_of_le hmid hhi)).bind fun side _ => ?_
    cases side with
    | lt => exact bisectWithin hprobe (by omega) (by omega)
    | eq => exact pure (by omega)
    | gt => exact bisectWithin hprobe (by omega) hhi

theorem bisect {probe : Nat → Except Failure Ordering} {count : Nat}
    (hprobe : ∀ i < count, SafeCheck (probe i) fun _ => True) :
    SafeCheck (bisect count probe) (· ≤ count) :=
  bisectWithin hprobe (Nat.zero_le count) (Nat.le_refl count)

end SafeCheck

/-! ## Safe nodes -/

theorem Header.safe_readKind (id : PageId) (page : Page) :
    SafeCheck (readKind id page) fun _ => True := by
  rw [readKind, Bytes.readByte_of_lt page (by decide)]
  refine SafeCheck.bind (P := fun _ => True) (.pure trivial) fun value _ => ?_
  cases NodeKind.ofByte? value with
  | none => exact .refuse
  | some kind => exact .pure trivial

namespace Leaf

/-- What is accepted as a leaf has no more cells than a leaf can have. -/
theorem safe_ofPage (id : PageId) (page : Page) :
    SafeCheck (ofPage id page) (·.count ≤ maxCells) := by
  refine (Header.safe_readKind id page).bind fun kind _ => ?_
  cases kind with
  | branch => exact .refuse
  | leaf => exact .ite (fun hcount => .pure hcount) fun _ => .refuse

variable {leaf : Leaf} {i : Nat}

theorem safe_cellOffset (hi : i < maxCells) : SafeCheck (cellOffset i) fun _ => True := by
  rw [cellOffset, if_pos hi]
  trivial

theorem safe_key (hi : i < maxCells) : SafeCheck (leaf.key i) fun _ => True :=
  (safe_cellOffset hi).bind fun _ _ => .pure trivial

theorem safe_value (hi : i < maxCells) : SafeCheck (leaf.value i) fun _ => True :=
  (safe_cellOffset hi).bind fun _ _ => .pure trivial

/-- All cells can be taken out, and they are as long as a cell is. -/
theorem safe_cells (hleaf : leaf.count ≤ maxCells) : SafeCheck leaf.cells fun cells =>
    cells.length = leaf.count ∧ ∀ cell ∈ cells, cell.length = cellSize := by
  have hcells : leaf.cells =
      .ok ((List.range leaf.count).map fun i => leaf.page.slice (cellStart i) cellSize) := by
    refine mapM_eq_ok fun i hi => ?_
    have hlt : i < maxCells := Nat.lt_of_lt_of_le (List.mem_range.mp hi) hleaf
    rw [cell, cellOffset, if_pos hlt]
    rfl
  rw [hcells]
  refine ⟨by rw [List.length_map, List.length_range], fun cell hcell => ?_⟩
  obtain ⟨i, -, rfl⟩ := List.mem_map.mp hcell
  exact Bytes.length_slice _ _ _

theorem safe_keys (hleaf : leaf.count ≤ maxCells) : SafeCheck leaf.keys fun _ => True :=
  .mapM fun _ hi => safe_key (Nat.lt_of_lt_of_le (List.mem_range.mp hi) hleaf)

theorem safe_maxKey (hleaf : leaf.count ≤ maxCells) : SafeCheck leaf.maxKey fun _ => True := by
  rw [maxKey]
  cases hcount : leaf.count with
  | zero => exact .refuse
  | succ last => exact safe_key (by omega)

theorem safe_find (hleaf : leaf.count ≤ maxCells) (key : UInt32) :
    SafeCheck (leaf.find key) (· ≤ leaf.count) :=
  .bisect fun _ hi => (safe_key (Nat.lt_of_lt_of_le hi hleaf)).bind fun _ _ => .pure trivial

end Leaf

namespace Branch

/-- What is accepted as a branch has no more cells than a branch can have. -/
theorem safe_ofPage (id : PageId) (page : Page) :
    SafeCheck (ofPage id page) (·.count ≤ maxKeys) := by
  refine (Header.safe_readKind id page).bind fun kind _ => ?_
  cases kind with
  | leaf => exact .refuse
  | branch => exact .ite (fun hcount => .pure hcount) fun _ => .refuse

variable {branch : Branch} {i : Nat}

theorem safe_cellOffset (hi : i < maxKeys) : SafeCheck (cellOffset i) fun _ => True := by
  rw [cellOffset, if_pos hi]
  trivial

theorem safe_key (hi : i < maxKeys) : SafeCheck (branch.key i) fun _ => True :=
  (safe_cellOffset hi).bind fun _ _ => .pure trivial

theorem safe_cellChild (hi : i < maxKeys) : SafeCheck (branch.cellChild i) fun _ => True :=
  (safe_cellOffset hi).bind fun _ _ => .pure trivial

/-- A child may be asked for at any position: one behind the right child is refused. -/
theorem safe_child (hbranch : branch.count ≤ maxKeys) (i : Nat) :
    SafeCheck (branch.child i) fun _ => True := by
  have hvalid (child : PageId) : SafeCheck (if child.isValid then Pure.pure child
      else refuse (.invalidChildPointer branch.id i) : Except Failure PageId) fun _ => True :=
    .ite (fun _ => .pure trivial) fun _ => .refuse
  refine .ite (fun _ => .refuse) fun hi => .ite (fun _ => hvalid _) fun hne => ?_
  have hlt : i < maxKeys := by omega
  exact (safe_cellChild hlt).bind fun child _ => hvalid child

theorem safe_children (hbranch : branch.count ≤ maxKeys) :
    SafeCheck branch.children fun _ => True :=
  .mapM fun i _ => safe_child hbranch i

theorem safe_keys (hbranch : branch.count ≤ maxKeys) : SafeCheck branch.keys fun _ => True :=
  .mapM fun _ hi => safe_key (Nat.lt_of_lt_of_le (List.mem_range.mp hi) hbranch)

theorem safe_findChild (hbranch : branch.count ≤ maxKeys) (key : UInt32) :
    SafeCheck (branch.findChild key) (· ≤ branch.count) :=
  .bisect fun _ hi => (safe_key (Nat.lt_of_lt_of_le hi hbranch)).bind fun _ _ => .pure trivial

end Branch

/-! ## Safe steps -/

/-- On every pager the step ends with an answer as in `Q`, or with an error. -/
def Safe (m : PagerM α) (Q : α → Prop) : Prop :=
  Ends (fun _ => True) m (fun a _ => Q a) fun failure _ => failure.isError = true

namespace Safe

variable {m : PagerM α} {f : α → PagerM β} {P Q : α → Prop} {R : β → Prop}

theorem pure {a : α} (h : Q a) : Safe (Pure.pure a) Q := Ends.pure fun _ _ => h

theorem refuse {e : Error} : Safe (RowStore.refuse e : PagerM α) Q := Ends.refuse fun _ _ => rfl

theorem bind (hm : Safe m P) (hf : ∀ a, P a → Safe (f a) R) : Safe (m >>= f) R :=
  Ends.bind hm fun a pager ha => hf a ha pager trivial

theorem get_bind {f : Pager → PagerM β} (hf : ∀ pager, Safe (f pager) R) :
    Safe (get >>= f) R :=
  Ends.get_bind fun pager _ => hf pager

theorem modify {f : Pager → Pager} : Safe (modify f) fun _ => True := fun _ _ => trivial

theorem lift {check : Except Failure α} (hcheck : SafeCheck check Q) : Safe (liftM check) Q := by
  intro pager _
  cases check with
  | error failure => exact hcheck
  | ok a => exact hcheck

theorem ite {c : Prop} [Decidable c] {m' : PagerM α} (h : c → Safe m Q) (h' : ¬c → Safe m' Q) :
    Safe (if c then m else m') Q := by
  split
  · exact h ‹_›
  · exact h' ‹_›

/-- A refusal before a step that is safe where nothing was refused. -/
theorem guard {c : Prop} [Decidable c] {e : Error} (h : ¬c → Safe m Q) :
    Safe (if c then RowStore.refuse e >>= fun _ : PUnit => m else m) Q :=
  ite (fun _ => bind (P := fun _ => False) refuse fun _ => False.elim) h

end Safe

namespace Pager

theorem safe_load (id : PageId) : Safe (load id) fun _ => True := by
  refine Safe.get_bind fun pager => .ite (fun _ => .guard fun _ => ?_) fun _ => ?_
  · exact Safe.modify.bind fun _ _ => .pure trivial
  · exact Safe.modify (f := fun _ => _) |>.bind fun _ _ => .pure trivial

theorem safe_request (id : PageId) : Safe (request id) fun _ => True := by
  have hbounds : SafeCheck (checkBounds id) fun _ => True :=
    .ite (fun _ => .pure trivial) fun _ => .refuse
  refine (Safe.lift hbounds).bind fun _ _ => .get_bind fun pager => ?_
  cases pager.slot id with
  | none =>
    exact Safe.modify.bind fun _ _ => (safe_load id).bind fun _ _ =>
      Safe.modify.bind fun _ _ => .pure trivial
  | some page => exact Safe.modify.bind fun _ _ => .pure trivial

end Pager

namespace Tree

theorem safe_kindOf (id : PageId) : Safe (kindOf id) fun _ => True :=
  (Pager.safe_request id).bind fun page _ => .lift (Header.safe_readKind id page)

theorem safe_isRoot (id : PageId) : Safe (isRoot id) fun _ => True :=
  (Pager.safe_request id).bind fun _ _ => .pure trivial

theorem safe_parentOf (id : PageId) : Safe (parentOf id) fun _ => True :=
  (Pager.safe_request id).bind fun _ _ => .pure trivial

theorem safe_leaf (id : PageId) : Safe (leaf id) (·.count ≤ Leaf.maxCells) :=
  (Pager.safe_request id).bind fun page _ => .lift (Leaf.safe_ofPage id page)

theorem safe_branch (id : PageId) : Safe (branch id) (·.count ≤ Branch.maxKeys) :=
  (Pager.safe_request id).bind fun page _ => .lift (Branch.safe_ofPage id page)

/-- The node has no more cells than a node of its kind can have. -/
def Node.Fits : Node → Prop
  | .leaf node => node.count ≤ Leaf.maxCells
  | .branch node => node.count ≤ Branch.maxKeys

theorem safe_node (id : PageId) : Safe (node id) Node.Fits := by
  refine (safe_kindOf id).bind fun kind _ => ?_
  cases kind with
  | leaf => exact (safe_leaf id).bind fun _ hleaf => .pure hleaf
  | branch => exact (safe_branch id).bind fun _ hbranch => .pure hbranch

/-! ## Walks down -/

theorem safe_findBelow (key : UInt32) :
    ∀ nodes id, Safe (findBelow key nodes id) (·.2 ≤ Leaf.maxCells)
  | 0, _ => .refuse
  | nodes + 1, id => by
    refine (safe_node id).bind fun node hnode => ?_
    cases node with
    | leaf leaf =>
      exact (Safe.lift (Leaf.safe_find hnode key)).bind fun cell hcell =>
        .pure (Nat.le_trans hcell hnode)
    | branch branch =>
      exact (Safe.lift (Branch.safe_findChild hnode key)).bind fun place _ =>
        (Safe.lift (Branch.safe_child hnode place)).bind fun child _ =>
          safe_findBelow key nodes child

theorem safe_find (key : UInt32) : Safe (find key) (·.2 ≤ Leaf.maxCells) :=
  safe_findBelow key maxPages PageId.root

theorem safe_maxKeyBelow : ∀ nodes id, Safe (maxKeyBelow nodes id) fun _ => True
  | 0, _ => .refuse
  | nodes + 1, id => by
    refine (safe_node id).bind fun node hnode => ?_
    cases node with
    | leaf leaf => exact .lift (Leaf.safe_maxKey hnode)
    | branch branch =>
      exact (Safe.lift (Branch.safe_child hnode _)).bind fun child _ =>
        safe_maxKeyBelow nodes child

theorem safe_maxKey (id : PageId) : Safe (maxKey id) fun _ => True := safe_maxKeyBelow _ id

theorem safe_depthBelow : ∀ levels level id, Safe (depthBelow levels level id) fun _ => True
  | 0, level, id => by
    refine (safe_kindOf id).bind fun kind _ => ?_
    cases kind with
    | leaf => exact .pure trivial
    | branch => exact .refuse
  | levels + 1, level, id => by
    refine (safe_kindOf id).bind fun kind _ => ?_
    cases kind with
    | leaf => exact .pure trivial
    | branch =>
      exact (safe_branch id).bind fun branch hbranch =>
        (Safe.lift (Branch.safe_child hbranch 0)).bind fun child _ =>
          safe_depthBelow levels (level + 1) child

theorem safe_depth : Safe depth fun _ => True := safe_depthBelow _ _ _

/-! ## Room for a split -/

theorem safe_countSplits : ∀ nodes needed id, Safe (countSplits nodes needed id) fun _ => True
  | 0, _, _ => .pure trivial
  | nodes + 1, needed, id =>
    (safe_isRoot id).bind fun _ _ => .ite (fun _ => .pure trivial) fun _ =>
      (safe_parentOf id).bind fun parent _ => (safe_branch parent).bind fun _ _ =>
        .ite (fun _ => .pure trivial) fun _ => safe_countSplits nodes (needed + 1) parent

theorem safe_ensureRoom (id : PageId) : Safe (ensureRoom id) fun _ => True :=
  (safe_countSplits _ _ _).bind fun _ _ => .get_bind fun _ =>
    .ite (fun _ => .refuse) fun _ => .pure trivial

/-! ## Walks over the whole tree -/

theorem safe_outlineCells {below : PageId → PagerM (List OutlineLine)}
    (hbelow : ∀ id, Safe (below id) fun _ => True) (level : Nat) :
    ∀ cells, Safe (outlineCells below level cells) fun _ => True
  | [] => .pure trivial
  | (child, _) :: cells =>
    (hbelow child).bind fun _ _ => (safe_outlineCells hbelow level cells).bind fun _ _ =>
      .pure trivial

theorem safe_outlineBelow :
    ∀ levels level id, Safe (outlineBelow levels level id) fun _ => True
  | 0, _, _ => .refuse
  | levels + 1, level, id => by
    refine (safe_node id).bind fun node hnode => ?_
    cases node with
    | leaf leaf => exact (Safe.lift (Leaf.safe_keys hnode)).bind fun _ _ => .pure trivial
    | branch branch =>
      have hbelow := safe_outlineBelow levels (level + 1)
      refine (Safe.lift (Branch.safe_children hnode)).bind fun children _ =>
        (Safe.lift (Branch.safe_keys hnode)).bind fun keys _ =>
          (safe_outlineCells hbelow level _).bind fun lines _ => ?_
      cases children.getLast? with
      | none => exact .pure trivial
      | some right => exact (hbelow right).bind fun _ _ => .pure trivial

theorem safe_outlineText : Safe outlineText fun _ => True :=
  (safe_outlineBelow _ _ _).bind fun _ _ => .pure trivial

theorem safe_checkAscending (id : PageId) :
    ∀ keys, SafeCheck (checkAscending id keys) fun _ => True
  | [] | [_] => .pure trivial
  | _ :: next :: rest => .ite (fun _ => .refuse) fun _ => safe_checkAscending id (next :: rest)

theorem safe_checkParent (id expected : PageId) : Safe (checkParent id expected) fun _ => True :=
  (safe_isRoot id).bind fun _ _ => .guard fun _ => (safe_parentOf id).bind fun _ _ =>
    .ite (fun _ => .refuse) fun _ => .pure trivial

theorem Walk.safe_visitLeaf (walk : Walk) (id : PageId) (isTop : Bool) (depth : Nat)
    (keys : List UInt32) : SafeCheck (walk.visitLeaf id isTop depth keys) fun _ => True := by
  refine (safe_checkAscending id keys).bind fun _ _ => ?_
  cases walk.leafDepth with
  | none => exact .guard fun _ => .pure trivial
  | some others => exact .guard fun _ => .guard fun _ => .pure trivial

theorem safe_checkSeparator (id : PageId) (keys : List UInt32) (index : Nat) (child : PageId)
    (childMax : UInt32) :
    SafeCheck (checkSeparator id keys index child childMax) fun _ => True := by
  rw [checkSeparator]
  split
  · exact .ite (fun _ => .pure trivial) fun _ => .refuse
  · split
    · exact .ite (fun _ => .refuse) fun _ => .pure trivial
    · exact .pure trivial

theorem safe_checkChildren {below : PageId → Walk → PagerM (Option UInt32 × Walk)}
    (hbelow : ∀ id walk, Safe (below id walk) fun _ => True) (id : PageId) (keys : List UInt32) :
    ∀ index children greatest walk,
      Safe (checkChildren below id keys index children greatest walk) fun _ => True
  | _, [], _, _ => .pure trivial
  | index, child :: rest, _, walk => by
    refine (hbelow child walk).bind fun (childMax, walk) _ => ?_
    cases childMax with
    | none => exact .refuse
    | some childMax =>
      exact (Safe.lift (safe_checkSeparator id keys index child childMax)).bind fun _ _ =>
        safe_checkChildren hbelow id keys (index + 1) rest (some childMax) walk

theorem safe_checkTop (parent : Option PageId) (id : PageId) :
    Safe (match parent with
      | some expected => checkParent id expected
      | none => pure ()) fun _ => True := by
  cases parent with
  | none => exact .pure trivial
  | some expected => exact safe_checkParent id expected

theorem safe_checkNode :
    ∀ levels depth parent id walk, Safe (checkNode levels depth parent id walk) fun _ => True
  | 0, _, _, _, _ => .refuse
  | levels + 1, depth, parent, id, walk => by
    rw [checkNode_eq]
    refine (safe_checkTop parent id).bind fun _ _ => (safe_node id).bind fun node hnode => ?_
    cases node with
    | leaf leaf =>
      exact (Safe.lift (Leaf.safe_keys hnode)).bind fun keys _ =>
        (Safe.lift (walk.safe_visitLeaf id _ depth keys)).bind fun _ _ => .pure trivial
    | branch branch =>
      exact (Safe.lift (Branch.safe_keys hnode)).bind fun keys _ =>
        (Safe.lift (Branch.safe_children hnode)).bind fun children _ =>
          (Safe.lift (safe_checkAscending id keys)).bind fun _ _ =>
            safe_checkChildren (safe_checkNode levels (depth + 1) (some id)) _ _ _ _ _ _

theorem safe_checkAbove (id : PageId) :
    ∀ previous keys, SafeCheck (checkAbove id previous keys) fun _ => True
  | _, [] => .pure trivial
  | _, key :: rest => .ite (fun _ => .refuse) fun _ => safe_checkAbove id (some key) rest

theorem safe_checkChain : ∀ previous ids, Safe (checkChain previous ids) fun _ => True
  | _, [] => .pure trivial
  | previous, id :: rest =>
    (safe_leaf id).bind fun _ hleaf => (Safe.lift (Leaf.safe_keys hleaf)).bind fun keys _ =>
      (Safe.lift (safe_checkAbove id previous keys)).bind fun last _ => .guard fun _ =>
        safe_checkChain last rest

theorem safe_check : Safe check fun _ => True :=
  (safe_isRoot _).bind fun _ _ => .guard fun _ => (safe_checkNode _ _ _ _ _).bind fun _ _ =>
    safe_checkChain _ _

end Tree

/-! ## Cursors -/

namespace Cursor

/-- The cursor stands on a cell that a leaf can have or right behind the last one, and only
    at the end of the table one further.  So the number of its cell does not grow along a
    walk, however long. -/
def InRange (cursor : Cursor) : Prop :=
  cursor.cell ≤ if cursor.atEnd then Leaf.maxCells + 1 else Leaf.maxCells

variable {cursor : Cursor}

theorem InRange.of_le (h : cursor.cell ≤ Leaf.maxCells) : cursor.InRange := by
  rw [InRange]
  split
  · exact Nat.le_succ_of_le h
  · exact h

theorem safe_key (cursor : Cursor) : Safe cursor.key fun _ => True :=
  (Tree.safe_leaf cursor.page).bind fun _ hleaf => .ite
    (fun hcell => (Safe.lift (Leaf.safe_key (Nat.lt_of_lt_of_le hcell hleaf))).bind fun _ _ =>
      .pure trivial)
    fun _ => .pure trivial

theorem safe_value (cursor : Cursor) : Safe cursor.value fun _ => True :=
  (Tree.safe_leaf cursor.page).bind fun _ hleaf => .guard fun hcell =>
    .lift (Leaf.safe_value (Nat.lt_of_lt_of_le (Nat.not_le.mp hcell) hleaf))

theorem safe_advance (hcursor : cursor.InRange) : Safe cursor.advance InRange := by
  refine .ite (fun _ => .pure hcursor) fun hend => ?_
  have hcell : cursor.cell ≤ Leaf.maxCells := by simpa [InRange, hend] using hcursor
  have hmoved : cursor.stepped = { cursor with cell := cursor.cell + 1 } := if_neg hend
  have hnext : cursor.stepped.cell ≤ Leaf.maxCells + 1 := by
    rw [hmoved]
    exact Nat.succ_le_succ hcell
  refine (Tree.safe_leaf _).bind fun leaf hleaf => ?_
  refine .ite (fun hlt => .pure ?_) fun _ => ?_
  · exact .of_le (Nat.le_of_lt (Nat.lt_of_lt_of_le hlt hleaf))
  · cases leaf.next with
    | none => exact .pure hnext
    | some next => exact .pure (.of_le (Nat.zero_le _))

end Cursor

namespace Tree

theorem safe_findKey (key : UInt32) : Safe (findKey key) Cursor.InRange :=
  (safe_find key).bind fun _ hcell => .pure (.of_le hcell)

theorem safe_start : Safe start Cursor.InRange :=
  (safe_find 0).bind fun place hcell => (safe_leaf place.1).bind fun _ _ => .pure (.of_le hcell)

theorem safe_get (key : UInt32) : Safe (get key) fun _ => True :=
  (safe_findKey key).bind fun cursor _ => cursor.safe_key.bind fun _ _ => .ite
    (fun _ => cursor.safe_value.bind fun _ _ => .pure trivial) fun _ => .pure trivial

/-- Makes the moves of a cursor up to the first that fails. -/
def walk : List Move → Cursor → PagerM Cursor
  | [], cursor => return cursor
  | .advance :: moves, cursor => do walk moves (← cursor.advance)
  | .key :: moves, cursor => do
    let _ ← cursor.key
    walk moves cursor
  | .value :: moves, cursor => do
    let _ ← cursor.value
    walk moves cursor

theorem safe_walk : ∀ (moves : List Move) {cursor : Cursor}, cursor.InRange →
    Safe (walk moves cursor) Cursor.InRange
  | [], _, hcursor => .pure hcursor
  | .advance :: moves, _, hcursor =>
    (Cursor.safe_advance hcursor).bind fun _ hnext => safe_walk moves hnext
  | .key :: moves, cursor, hcursor => cursor.safe_key.bind fun _ _ => safe_walk moves hcursor
  | .value :: moves, cursor, hcursor => cursor.safe_value.bind fun _ _ => safe_walk moves hcursor

/-- **Reads of any file.**  Whatever the pages hold, a search, a lookup, a greatest key, the
    depth, the outline and the check each end with an answer or with an error.  So do the
    moves of a cursor from the smallest key or from any key on, up to the first that fails,
    and the number of its cell never leaves the range of the cells of a leaf.

    Memory is taken as unbounded.  The outline ends because its levels are counted, but where
    branches share their children it may have more lines than any memory holds. -/
theorem reads_safe :
    (∀ key, Safe (find key) fun _ => True) ∧ (∀ key, Safe (get key) fun _ => True) ∧
      (∀ id, Safe (maxKey id) fun _ => True) ∧ Safe depth (fun _ => True) ∧
      Safe outlineText (fun _ => True) ∧ Safe check (fun _ => True) ∧
      ∀ moves, Safe (start >>= walk moves) Cursor.InRange ∧
        ∀ key, Safe (findKey key >>= walk moves) Cursor.InRange := by
  refine ⟨fun key => (safe_find key).imp fun _ _ _ => trivial, safe_get, safe_maxKey, safe_depth,
    safe_outlineText, safe_check, fun moves => ⟨?_, fun key => ?_⟩⟩
  · exact safe_start.bind fun _ => safe_walk moves
  · exact (safe_findKey key).bind fun _ => safe_walk moves

end Tree
end RowStore
