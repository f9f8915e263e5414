/-
  RowStore/Proofs/Tree/Operations.lean
  ====================================
  **What a caller can ask of a tree.**  An `Operation` is an insert or a question, and
  `replay` performs operations one after the other, whether they succeed or not.  It
  reports every answer, and how many pages there are after it.

  A scan keeps its cursor between the moves, and goes on after a move that failed.  So all
  moves of a scan make one operation, whose answer has the answers to all of them.

  On a sound tree the answer to a question depends on the tree alone, not on the bytes
  that mean nothing, and nothing is changed by it.
-/
import RowStore.Proofs.Tree.Height

namespace RowStore

variable {α β : Type} {H : Nat}

namespace Tree

/-! ## Scans -/

/-- What can be done with a cursor. -/
inductive Move where
  | advance
  | key
  | value

/-- What came of a move. -/
inductive Visit where
  | advanced (cursor : Except Failure Cursor)
  | key (found : Except Failure (Option UInt32))
  | value (found : Except Failure (List UInt8))

/-- A step that may fail, with the failure as an answer. -/
def attempt (m : PagerM α) : PagerM (Except Failure α) := fun pager =>
  match m pager with
  | .ok a after => .ok (.ok a) after
  | .error failure after => .ok (.error failure) after

/-- Moves a cursor.  If it could not be advanced, it has left its cell all the same. -/
def follow : List Move → Cursor → PagerM (List Visit)
  | [], _ => return []
  | .advance :: moves, cursor => do
    let next ← attempt cursor.advance
    return .advanced next :: (← follow moves (next.toOption.getD cursor.stepped))
  | .key :: moves, cursor => do
    let found ← attempt cursor.key
    return .key found :: (← follow moves cursor)
  | .value :: moves, cursor => do
    let found ← attempt cursor.value
    return .value found :: (← follow moves cursor)

/-! ## Operations -/

inductive Operation where
  | insert (key : UInt32) (value : List UInt8)
  | get (key : UInt32)
  | find (key : UInt32)
  | keys
  | maxKey (id : PageId)
  | depth
  | outline
  | check
  /-- A scan from a key on, or from the smallest one. -/
  | scan (first : Option UInt32) (moves : List Move)

inductive Answer where
  | done
  | value (found : Option (List UInt8))
  | place (page : PageId) (cell : Nat)
  | keys (keys : List UInt32)
  | key (key : UInt32)
  | depth (levels : Nat)
  | text (text : String)
  | visits (visits : List Visit)

namespace Operation

def isInsert : Operation → Bool
  | insert _ _ => true
  | _ => false

def run : Operation → PagerM Answer
  | insert key value => do
    Tree.insert key value
    return .done
  | get key => do
    return .value (← Tree.get key)
  | find key => do
    let (page, cell) ← Tree.find key
    return .place page cell
  | keys => do
    return .keys (← Tree.keys)
  | maxKey id => do
    return .key (← Tree.maxKey id)
  | depth => do
    return .depth (← Tree.depth)
  | outline => do
    return .text (← outlineText)
  | check => do
    Tree.check
    return .done
  | scan first moves => do
    let cursor ← match first with
      | some key => findKey key
      | none => start
    return .visits (← follow moves cursor)

/-- A greatest key is asked for only below pages of the tree. -/
def InTree (v : View) : Operation → Prop
  | maxKey id => Reachable v id
  | _ => True

/-- The answer, and the pager that is left. -/
def perform (op : Operation) (pager : Pager) : Except Failure Answer × Pager :=
  match op.run pager with
  | .ok answer after => (.ok answer, after)
  | .error failure after => (.error failure, after)

theorem perform_of_run {op : Operation} {pager after : Pager} {r : Except Failure Answer}
    (hrun : op.run.run pager = outcome r after) : op.perform pager = (r, after) := by
  replace hrun : op.run pager = outcome r after := hrun
  cases r with
  | ok answer => simp only [perform, hrun, outcome]
  | error failure => simp only [perform, hrun, outcome]

theorem perform_insert {key : UInt32} {value : List UInt8} {pager after : Pager}
    {r : Except Failure Unit} (hrun : (Tree.insert key value).run pager = outcome r after) :
    (insert key value).perform pager = (r.map fun _ => .done, after) :=
  perform_of_run (run_map hrun fun _ => Answer.done)

end Operation

/-- An operation that was performed. -/
structure Report where
  operation : Operation
  answer : Except Failure Answer
  /-- The number of pages after the operation. -/
  numPages : Nat

/-- Performs operations one after the other. -/
def replay : List Operation → Pager → List Report × Pager
  | [], pager => ([], pager)
  | operation :: ops, pager =>
    let (answer, after) := operation.perform pager
    let (reports, last) := replay ops after
    ({ operation, answer, numPages := after.numPages } :: reports, last)

/-- In all that is replayed, a greatest key is asked for only below pages of the tree as it
    is then. -/
def InTree : List Operation → Pager → Prop
  | [], _ => True
  | op :: ops, pager => op.InTree pager.view ∧ InTree ops (op.perform pager).2

theorem replay_append (first second : List Operation) (pager : Pager) :
    replay (first ++ second) pager =
      ((replay first pager).1 ++ (replay second (replay first pager).2).1,
        (replay second (replay first pager).2).2) := by
  induction first generalizing pager with
  | nil => rfl
  | cons op ops ih => simp only [List.cons_append, replay, ih]

theorem inTree_append {first second : List Operation} {pager : Pager} :
    InTree (first ++ second) pager ↔
      InTree first pager ∧ InTree second (replay first pager).2 := by
  induction first generalizing pager with
  | nil => simp [InTree, replay]
  | cons op ops ih => simp only [List.cons_append, InTree, replay, ih, and_assoc]

/-- Where no greatest key is asked for, all is in the tree. -/
theorem inTree_of_forall {ops : List Operation} (h : ∀ id, Operation.maxKey id ∉ ops)
    (pager : Pager) : InTree ops pager := by
  induction ops generalizing pager with
  | nil => trivial
  | cons op ops ih =>
    refine ⟨?_, ih (fun id hid => h id (List.mem_cons_of_mem _ hid)) _⟩
    cases op with
    | maxKey id => exact absurd List.mem_cons_self (h id)
    | _ => trivial

/-! ## Answers to questions -/

end Tree

theorem Reads.attempt {m : PagerM α} {K : Heap} {r : Except Failure α} (hm : Reads m K r) :
    Reads (Tree.attempt m) K (.ok r) := by
  intro S hS pager hp
  obtain ⟨after, hrun, hafter⟩ := hm S hS pager hp
  refine ⟨after, ?_, hafter⟩
  replace hrun : m pager = outcome r after := hrun
  cases r <;> simp only [EStateM.run, Tree.attempt, hrun, outcome]

theorem Reads.answer {m : PagerM α} {K : Heap} {r : Except Failure α} (hm : Reads m K r)
    (f : α → β) : Reads (m >>= fun a => Pure.pure (f a)) K (r.map f) := by
  cases r with
  | ok a => exact Reads.bind hm (Reads.pure _)
  | error failure => exact Reads.bind_error hm

namespace Tree

/-- The next leaf of a chain is in the chain. -/
theorem exists_next {leaves : Leaves} (h : leaves.Chained) {leaf : LeafNode}
    (hleaf : leaf ∈ leaves) {id : PageId} (hnext : leaf.next = some id) :
    ∃ next ∈ leaves, next.id = id := by
  induction leaves with
  | nil => cases hleaf
  | cons first rest ih =>
    rcases List.mem_cons.mp hleaf with rfl | hleaf
    · cases rest with
      | nil =>
        rw [show leaf.next = none from h] at hnext
        cases hnext
      | cons second rest =>
        have hid : some second.id = some id := h.1.symm.trans hnext
        exact ⟨second, by simp, Option.some.inj hid⟩
    · have hrest : Leaves.Chained rest :=
        Leaves.Chained.suffix (show Leaves.Chained ([first] ++ rest) from h)
      obtain ⟨next, hmem, hid⟩ := ih hrest hleaf
      exact ⟨next, List.mem_cons_of_mem _ hmem, hid⟩

/-- There is no value behind the last cell of a leaf. -/
theorem reads_value_of_le {K : Heap} {id parent : PageId} {isRoot : Bool} {next : Option PageId}
    {entries : List Entry} (h : (id, ⟨some (.leaf isRoot next entries), parent⟩) ∈ K) {cell : Nat}
    (hcell : entries.length ≤ cell) (atEnd : Bool) :
    Reads (Cursor.value { page := id, cell, atEnd }) K
      (.error (.error (.cellOutOfRange id cell entries.length))) := by
  refine Reads.sees_bind (sees_leaf h) ?_
  rintro _ ⟨page, rfl, hnode, -⟩
  have hcount : Leaf.count { id, page } = entries.length := hnode.count_eq
  rw [hcount, if_pos hcell]
  exact Reads.bind_error (Reads.refuse _)

section Sound

variable {t : Subtree H}

/-- The cursor is at a leaf of the tree. -/
def AtLeaf (t : Subtree H) (cursor : Cursor) : Prop := ∃ leaf ∈ t.leaves, leaf.id = cursor.page

/-- A cursor moves along the leaves. -/
theorem exists_advance (hs : t.Sound) {cursor : Cursor} (hc : AtLeaf t cursor) :
    ∃ next, AtLeaf t next ∧ ∀ q : PageId, Reads cursor.advance (t.heap true q) (.ok next) := by
  obtain ⟨leaf, hleaf, hid⟩ := hc
  obtain ⟨page, cell, atEnd⟩ := cursor
  obtain rfl : leaf.id = page := hid
  cases atEnd with
  | true => exact ⟨_, ⟨leaf, hleaf, rfl⟩, fun q => Reads.pure _⟩
  | false =>
    have hadvance : ∀ q : PageId, Reads (Cursor.advance ⟨leaf.id, cell, false⟩) (t.heap true q)
        (.ok (if cell + 1 < leaf.entries.length then ⟨leaf.id, cell + 1, false⟩
          else leaf.next.elim ⟨leaf.id, cell + 1, true⟩ fun next => ⟨next, 0, false⟩)) := by
      intro q
      obtain ⟨b, p, hpage⟩ := Subtree.exists_leaf_mem_heap hleaf true q
      exact reads_advance hpage cell
    refine ⟨_, ?_, hadvance⟩
    split
    · exact ⟨leaf, hleaf, rfl⟩
    · cases hnext : leaf.next with
      | none => exact ⟨leaf, hleaf, rfl⟩
      | some id =>
        obtain ⟨next, hmem, rfl⟩ := exists_next hs.chained hleaf hnext
        exact ⟨next, hmem, rfl⟩

theorem exists_follow (hs : t.Sound) (moves : List Move) {cursor : Cursor}
    (hc : AtLeaf t cursor) : ∃ visits, ∀ q : PageId,
      Reads (follow moves cursor) (t.heap true q) (.ok visits) := by
  induction moves generalizing cursor with
  | nil => exact ⟨[], fun q => Reads.pure []⟩
  | cons move moves ih =>
    cases move with
    | advance =>
      obtain ⟨next, hnext, hadvance⟩ := exists_advance hs hc
      obtain ⟨visits, hvisits⟩ := ih hnext
      exact ⟨_, fun q => Reads.bind (Reads.attempt (hadvance q))
        (Reads.bind (hvisits q) (Reads.pure _))⟩
    | key =>
      obtain ⟨visits, hvisits⟩ := ih hc
      obtain ⟨leaf, hleaf, hid⟩ := hc
      refine ⟨.key (.ok (leaf.entries[cursor.cell]?.map Entry.key)) :: visits, fun q => ?_⟩
      obtain ⟨b, p, hpage⟩ := Subtree.exists_leaf_mem_heap hleaf true q
      rw [hid] at hpage
      exact Reads.bind (Reads.attempt (reads_key hpage cursor.cell cursor.atEnd))
        (Reads.bind (hvisits q) (Reads.pure _))
    | value =>
      obtain ⟨visits, hvisits⟩ := ih hc
      obtain ⟨leaf, hleaf, hid⟩ := hc
      have hvalue : ∃ r, ∀ q : PageId, Reads cursor.value (t.heap true q) r := by
        cases hentry : leaf.entries[cursor.cell]? with
        | some entry =>
          refine ⟨.ok entry.value, fun q => ?_⟩
          obtain ⟨b, p, hpage⟩ := Subtree.exists_leaf_mem_heap hleaf true q
          rw [hid] at hpage
          exact reads_value hpage hentry cursor.atEnd
        | none =>
          refine ⟨.error (.error (.cellOutOfRange cursor.page cursor.cell leaf.entries.length)),
            fun q => ?_⟩
          obtain ⟨b, p, hpage⟩ := Subtree.exists_leaf_mem_heap hleaf true q
          rw [hid] at hpage
          exact reads_value_of_le hpage (List.getElem?_eq_none_iff.mp hentry) cursor.atEnd
      obtain ⟨r, hr⟩ := hvalue
      exact ⟨_, fun q => Reads.bind (Reads.attempt (hr q)) (Reads.bind (hvisits q) (Reads.pure _))⟩

theorem Locates.atLeaf {key : UInt32} {place : Trail H 0} {id : PageId} {next : Option PageId}
    {a b : List Entry} (hl : Locates key t place id next a b) (cell : Nat) (atEnd : Bool) :
    AtLeaf t ⟨id, cell, atEnd⟩ := by
  refine ⟨⟨id, next, a ++ b⟩, ?_, rfl⟩
  rw [← hl.fill_eq, Trail.leaves_fill]
  exact List.mem_append_left _ (List.mem_append_right _ List.mem_cons_self)

/-- What a question is answered depends on the tree alone. -/
theorem exists_answer (hs : t.Sound) (hH : H < maxPages) (hleaves : t.leaves.length ≤ maxPages)
    {op : Operation} (hop : op.isInsert = false) {q₀ : PageId}
    (htree : ∀ id, op = .maxKey id → ∃ x ∈ t.heap true q₀, x.1 = id) :
    ∃ r, ∀ q : PageId, Reads op.run (t.heap true q) r := by
  cases op with
  | insert key value => cases hop
  | get key =>
    exact ⟨.ok (.value (lookup t.leaves.entries key)), fun q =>
      (reads_get hs hH key q).answer Answer.value⟩
  | find key =>
    obtain ⟨place, id, next, a, b, hl⟩ := exists_locates hs key
    exact ⟨_, fun q => (hl.reads_find hs hH q).answer fun found => Answer.place found.1 found.2⟩
  | keys => exact ⟨_, fun q => (reads_keys hs hH hleaves).answer Answer.keys⟩
  | maxKey id =>
    obtain ⟨x, hx, rfl⟩ := htree id rfl
    obtain ⟨r, -, hr⟩ := exists_maxKey hs hH hx
    exact ⟨_, fun q => (hr q).answer Answer.key⟩
  | depth =>
    refine ⟨.ok (.depth (1 + H)), fun q => ?_⟩
    have hdepth := reads_depthBelow hs.formed true q (Nat.le_of_lt hH) 1
    rw [hs.root] at hdepth
    exact Reads.answer hdepth Answer.depth
  | outline => exact ⟨_, fun q => (reads_outlineText hs hH q).answer Answer.text⟩
  | check => exact ⟨_, fun q => (reads_check hs hH q).answer fun _ => Answer.done⟩
  | scan first moves =>
    obtain ⟨place, id, next, a, b, hl⟩ := exists_locates hs (first.getD 0)
    cases first with
    | some key =>
      obtain ⟨visits, hvisits⟩ := exists_follow hs moves (hl.atLeaf a.length false)
      exact ⟨_, fun q => Reads.bind (hl.reads_findKey hs hH q)
        ((hvisits q).answer Answer.visits)⟩
    | none =>
      obtain ⟨-, rfl⟩ := Locates.of_zero hl
      obtain ⟨visits, hvisits⟩ := exists_follow hs moves (hl.atLeaf 0 (decide (b.length = 0)))
      exact ⟨_, fun q => Reads.bind (Locates.reads_start hl hs hH q)
        ((hvisits q).answer Answer.visits)⟩

end Sound

end Tree
end RowStore
