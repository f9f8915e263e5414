/-
  RowStore/Proofs/Tree/Branches.lean
  ==================================
  **Taking branches apart and putting them together.**  The steps of a split, each with the
  pages that it is about: a child is attached where its keys belong, the upper half of a
  full branch moves to an empty sibling, and a root moves to a page of its own.

  In between, pages say what no tree says: a branch without children, or one whose last
  children hang from two branches.  So these steps are stated for heaps, and whole
  subtrees appear in them only as what is moved.
-/
import RowStore.Proofs.Pager.Memory
import RowStore.Proofs.Tree.Search
import RowStore.Tree.Insert

namespace RowStore

variable {h n : Nat}

theorem insertIdx_append_length {α : Type} (before after : List α) (x : α) :
    (before ++ after).insertIdx before.length x = before ++ x :: after := by
  induction before with
  | nil => rfl
  | cons y before ih => rw [List.cons_append, List.length_cons, List.insertIdx_succ_cons, ih]; rfl

/-! ## Attaching -/

namespace Branch

variable {isRoot : Bool} {keys : List UInt32} {children : List PageId} {q : PageId}

/-- A child whose keys are greater than all others becomes the right child. -/
theorem turns_append (id : PageId) {right : PageId} (rightMax : UInt32) (child : PageId)
    (hchildren : children.length = keys.length) (hlen : keys.length < maxKeys) :
    Turns (do
        insertCell id keys.length right rightMax
        setRight child)
      ⟨some (.branch isRoot keys (children ++ [right])), q⟩ ()
      ⟨some (.branch isRoot (keys ++ [rightMax]) (children ++ [right, child])), q⟩ := by
  refine (turns_insertCell id right rightMax hlen (Nat.le_refl _)).bind ?_
  have h : Turns (setRight child)
      ⟨some (.branch isRoot (keys ++ [rightMax]) (children ++ [right, right])), q⟩ () _ :=
    turns_setRight child
  rw [List.insertIdx_length_self, ← hchildren, insertIdx_append_length]
  rwa [List.length_append, List.length_singleton, ← hchildren, List.take_length_add_append,
    List.append_assoc] at h

/-- Any other child gets a cell in front of the first one with a greater key. -/
theorem turns_insert {before after : List UInt32} {left right : List PageId} (id : PageId)
    {childMax : UInt32} (child : PageId) (hbefore : ∀ k ∈ before, k < childMax)
    (hafter : ∀ k ∈ after, childMax ≤ k) (hkeys : (before ++ after).Pairwise (· < ·))
    (hleft : left.length = before.length) (hlen : (before ++ after).length < maxKeys) :
    Turns (do
        let here : Branch := { id, page := ← get }
        insertCell id (← here.findChild childMax) child childMax)
      ⟨some (.branch isRoot (before ++ after) (left ++ right)), q⟩ ()
      ⟨some (.branch isRoot (before ++ childMax :: after) (left ++ child :: right)), q⟩ := by
  intro page hx
  have hnode := (reading_eq_branch_iff.mp hx).1
  have hplace : findChild { id, page } childMax = .ok _ := hnode.findChild_eq hkeys childMax
  rw [rank_append hbefore hafter] at hplace
  rw [get_bind_run]
  dsimp only
  rw [hplace]
  have h := turns_insertCell id child childMax hlen
    (List.sublist_append_left before after).length_le page hx
  rw [insertIdx_append_length, ← hleft, insertIdx_append_length] at h
  rw [← hleft]
  exact h

end Branch

namespace Tree

open Subtree (greatest)

/-- Naming another parent changes nothing below the top. -/
theorem takes_setParent_subtree (t : Subtree h) (isRoot : Bool) (old new : PageId) :
    Takes (setParent t.id new) n (t.heap isRoot old) (.ok ()) n (t.heap isRoot new) := by
  rw [Subtree.heap_eq_cons, Subtree.heap_eq_cons]
  exact (takes_setParent _ new).frame t.below

section Attach

variable {left right : List (Subtree h)} {child : Subtree h} {id q old : PageId} {isRoot : Bool}
variable {page : Page}

theorem right_eq_of_ne_nil {children : List (Subtree h)} (hne : children ≠ [])
    (hpage : reading page = ⟨some (Links.body isRoot (children.map Subtree.link)), q⟩) :
    Branch.right { id, page } = (children.getLast hne).id := by
  rw [Subtree.body_map_link hne] at hpage
  refine (reading_eq_branch_iff.mp hpage).1.right_eq ?_
  rw [List.length_dropLast, List.length_map, List.getElem?_map, ← List.getLast?_eq_getElem?,
    List.getLast?_eq_some_getLast hne]
  rfl

/-- The edit that makes room for a child, in a branch that has some. -/
theorem turns_attach (hne : left ++ right ≠ [])
    (hgreatest : ((left ++ child :: right).map greatest).Pairwise (· < ·))
    (hlen : (left ++ right).length ≤ Branch.maxKeys) :
    Turns (if ((left ++ right).getLast hne).greatest < child.greatest then do
        Branch.insertCell id ((left ++ right).length - 1) ((left ++ right).getLast hne).id
          ((left ++ right).getLast hne).greatest
        Branch.setRight child.id
      else do
        let here : Branch := { id, page := ← get }
        Branch.insertCell id (← here.findChild child.greatest) child.id child.greatest)
      ⟨some (Links.body isRoot ((left ++ right).map Subtree.link)), q⟩ ()
      ⟨some (Links.body isRoot ((left ++ child :: right).map Subtree.link)), q⟩ := by
  rw [Subtree.body_map_link hne, Subtree.body_map_link (by simp)]
  rw [List.map_append, List.map_cons] at hgreatest
  obtain ⟨hleft, hchild, hacross⟩ := List.pairwise_append.mp hgreatest
  rcases List.eq_nil_or_concat' right with rfl | ⟨rights, last, rfl⟩
  · obtain ⟨front, last, rfl⟩ := List.eq_nil_or_concat' left |>.resolve_left (by simpa using hne)
    have hlt : last.greatest < child.greatest := hacross _ (by simp) _ (by simp)
    have h : Turns _
        ⟨some (.branch isRoot (front.map greatest) (front.map Subtree.id ++ [last.id])), q⟩ () _ :=
      Branch.turns_append id last.greatest child.id (by simp)
        (Nat.lt_of_succ_le (by simpa using hlen))
    simpa [hlt, List.dropLast_append_cons] using h
  · -- The right child keeps its place, and with it the last key stays out of the cells.
    rw [List.map_append, List.map_singleton] at hchild
    obtain ⟨hfirst, hrest⟩ := List.pairwise_cons.mp hchild
    have hlt : ¬last.greatest < child.greatest := UInt32.not_lt.mpr
      (UInt32.le_of_lt (hfirst _ (by simp)))
    have hkeys : (left.map greatest ++ rights.map greatest).Pairwise (· < ·) := by
      refine List.pairwise_append.mpr ⟨hleft, (List.pairwise_append.mp hrest).1, ?_⟩
      intro a ha b hb
      exact hacross a ha b (by simp [List.mem_map.mp hb])
    have h : Turns _ ⟨some (.branch isRoot (left.map greatest ++ rights.map greatest)
        (left.map Subtree.id ++ (rights ++ [last]).map Subtree.id)), q⟩ () _ :=
      Branch.turns_insert id child.id (fun k hk => hacross k hk _ List.mem_cons_self)
        (fun k hk => UInt32.le_of_lt (hfirst k (List.mem_append_left _ hk))) hkeys (by simp)
        (by
          rw [List.length_append, List.length_map, List.length_map]
          refine Nat.lt_of_succ_le ?_
          simpa [Nat.add_assoc] using hlen)
    have hdrop : (child.greatest :: (rights.map greatest ++ [last.greatest])).dropLast =
        child.greatest :: rights.map greatest := by
      rw [← List.cons_append, List.dropLast_concat]
    simpa [hlt, hdrop, ← List.append_assoc] using h

theorem takes_attach
    (hpage : reading page = ⟨some (Links.body isRoot ((left ++ right).map Subtree.link)), q⟩)
    (hs : Siblings (left ++ child :: right)) (hlen : (left ++ right).length ≤ Branch.maxKeys)
    (hh : h < maxPages) :
    Takes (attach { id, page } child.id) n
      ((Subtree.branch id (left ++ right)).heap isRoot q ++ child.heap false old) (.ok ()) n
      ((Subtree.branch id (left ++ child :: right)).heap isRoot q) := by
  have hadopt : Takes (setParent child.id id) n
      ((id, ⟨some (Links.body isRoot ((left ++ child :: right).map Subtree.link)), q⟩) ::
        (left ++ right).flatMap (Subtree.heap false id) ++ child.heap false old) (.ok ()) n
      ((Subtree.branch id (left ++ child :: right)).heap isRoot q) := by
    refine (takes_setParent_subtree child false old id).among
      ((id, ⟨some (Links.body isRoot ((left ++ child :: right).map Subtree.link)), q⟩) ::
        (left ++ right).flatMap (Subtree.heap false id)) List.perm_append_comm ?_
    rw [Subtree.heap_branch, List.perm_iff_count]
    intro x
    simp only [List.count_append, List.count_cons, List.flatMap_append, List.flatMap_cons]
    omega
  rw [attach]
  dsimp only
  by_cases hne : left ++ right = []
  · obtain ⟨rfl, rfl⟩ := List.append_eq_nil_iff.mp hne
    have hright : Branch.right { id, page } = PageId.invalid :=
      (reading_eq_branch_iff.mp hpage).1.right_eq rfl
    rw [if_neg (by rw [hright]; decide)]
    exact (((takes_editBranch (Branch.turns_setRight child.id)).frame _)).bind hadopt
  · refine Takes.of_holds fun _ hlt hn => ?_
    have hright : Branch.right { id, page } = _ := right_eq_of_ne_nil hne hpage
    have hlast := List.getLast_mem hne
    have hlast' : (left ++ right).getLast hne ∈ left ++ child :: right :=
      ((List.Sublist.refl left).append (List.sublist_cons_self child right)).subset hlast
    have hsub : ((left ++ right).getLast hne).heap false id ⊆
        (Subtree.branch id (left ++ right)).heap isRoot q ++ child.heap false old :=
      List.Subset.trans (Subtree.heap_subset_of_mem hlast id q isRoot)
        (List.subset_append_left _ _)
    rw [hright, if_pos (((left ++ right).getLast hne).isValid_id hsub
      fun x hx => Nat.lt_of_lt_of_le (hlt x hx) hn)]
    refine Takes.reads_bind ((reads_maxKeyBelow (hs.formed child (by simp)) false old hh).mono
      (List.subset_append_right _ _)) ?_
    refine Takes.reads_bind ((reads_maxKeyBelow (hs.formed _ hlast') false id hh).mono hsub) ?_
    have hcount : Branch.count { id, page } = (left ++ right).length - 1 := by
      rw [(reading_eq_branch_iff.mp hpage).1.count_eq, Links.length_keys, List.length_map]
    rw [hcount]
    exact ((takes_editBranch (turns_attach hne hs.greatest hlen)).frame _).bind hadopt

theorem takes_attachTo (left right : List (Subtree h))
    (hs : Siblings (left ++ child :: right)) (hlen : (left ++ right).length ≤ Branch.maxKeys)
    (hh : h < maxPages) :
    Takes (attachTo id child.id) n
      ((Subtree.branch id (left ++ right)).heap isRoot q ++ child.heap false old) (.ok ()) n
      ((Subtree.branch id (left ++ child :: right)).heap isRoot q) := by
  refine Takes.sees_bind (sees_branch List.mem_cons_self) ?_
  rintro _ ⟨page, rfl, hnode⟩
  exact takes_attach (reading_eq_branch_iff.mpr hnode) hs hlen hh

end Attach

/-! ## Moving the upper half -/

section Move

variable {isRoot : Bool} {old new q q' : PageId} {a b c d : Subtree h}

theorem turns_dropCell {keys : List UInt32} {children : List PageId} {right : PageId} {count : Nat}
    (hkeys : keys.length = count + 1) (hright : children[keys.length]? = some right) :
    Turns (do Branch.setCount (← oneLess (Branch.countIn (← get))))
      ⟨some (.branch isRoot keys children), q⟩ ()
      ⟨some (.branch isRoot (keys.take count) (children.take count ++ [right])), q⟩ := by
  intro page hx
  have hcount := (reading_eq_branch_iff.mp hx).1.count
  rw [get_bind_run, hcount, hkeys]
  exact Branch.turns_setCount (by omega) hright page hx

/-- The last cell gives up its key, and its child becomes the right child. -/
theorem turns_lastCellToRight {keys : List UInt32} {children : List PageId} {right : PageId}
    {count : Nat} (old : PageId) (hkeys : keys.length = count + 1)
    (hright : children[count]? = some right)
    (hchildren : children.length = count + 2) :
    Turns (do
        let here : Branch := { id := old, page := ← get }
        let last ← oneLess here.count
        Branch.setRight (← here.cellChild last)
        Branch.setCount last)
      ⟨some (.branch isRoot keys children), q⟩ ()
      ⟨some (.branch isRoot (keys.take count) (children.take count ++ [right])), q⟩ := by
  intro page hx
  have hnode := (reading_eq_branch_iff.mp hx).1
  have hcell : Branch.cellChild { id := old, page } count = .ok right :=
    hnode.cellChild_eq (by omega) hright
  rw [get_bind_run]
  dsimp only
  rw [hnode.count_eq, hkeys]
  change ∃ after, (liftM (Branch.cellChild { id := old, page } count) >>= _ :
    Edit pageSize Unit).run page = _ ∧ _
  rw [hcell]
  change ∃ after, (Branch.setRight right >>= fun _ => Branch.setCount count :
    Edit pageSize Unit).run page = _ ∧ _
  refine (Branch.turns_setRight right).bind ?_ page hx
  have htake : (children.take keys.length ++ [right]).take count = children.take count := by
    rw [List.take_append_of_le_length (by rw [List.length_take]; omega), List.take_take,
      Nat.min_eq_left (by omega)]
  have h : Turns (Branch.setCount count)
      ⟨some (.branch isRoot keys (children.take keys.length ++ [right])), q⟩ ()
      ⟨some (.branch isRoot (keys.take count)
        ((children.take keys.length ++ [right]).take count ++ [right])), q⟩ :=
    Branch.turns_setCount (by omega)
      (by
        rw [List.getElem?_append_right (by rw [List.length_take]; omega)]
        simp [hkeys, hchildren])
  rwa [htake] at h

/-- Without its upper children a branch has one key. -/
theorem takes_shrink (old : PageId) (a b c : UInt32) (w x y z : PageId) :
    Takes (do
        editBranch old do
          Branch.setCount (← oneLess (Branch.countIn (← get)))
        editBranch old do
          let here : Branch := { id := old, page := ← get }
          let last ← oneLess here.count
          Branch.setRight (← here.cellChild last)
          Branch.setCount last)
      n [(old, ⟨some (.branch isRoot [a, b, c] [w, x, y, z]), q⟩)] (.ok ()) n
      [(old, ⟨some (.branch isRoot [a] [w, x]), q⟩)] := by
  have hdrop : Takes _ n [(old, ⟨some (.branch isRoot [a, b, c] [w, x, y, z]), q⟩)] (.ok ()) n _ :=
    takes_editBranch (turns_dropCell rfl rfl)
  have hlast : Takes _ n [(old, ⟨some (.branch isRoot [a, b] [w, x, z]), q⟩)] (.ok ()) n _ :=
    takes_editBranch (turns_lastCellToRight old rfl rfl rfl)
  exact hdrop.bind hlast

theorem takes_moveUpperHalf (hs : Siblings [c, d]) (hh : h < maxPages) :
    Takes (moveUpperHalf old new) n
      ((Subtree.branch old [a, b, c, d]).heap isRoot q ++
        (Subtree.branch new ([] : List (Subtree h))).heap false q') (.ok ()) n
      ((Subtree.branch old [a, b]).heap isRoot q ++ (Subtree.branch new [c, d]).heap false q') := by
  have hright : Takes (attachTo new d.id) n
      ((Subtree.branch new ([] : List (Subtree h))).heap false q' ++ d.heap false old) (.ok ()) n
      ((Subtree.branch new [d]).heap false q') :=
    takes_attachTo [] [] (hs.sublist (List.sublist_cons_self c [d])) (Nat.zero_le _) hh
  have hclear : Takes (editBranch old (Branch.setRight PageId.invalid)) n
      [(old, ⟨some (.branch isRoot [a.greatest, b.greatest, c.greatest]
        [a.id, b.id, c.id, d.id]), q⟩)] (.ok ()) n _ :=
    takes_editBranch (Branch.turns_setRight PageId.invalid)
  have hnext : Takes (attachTo new c.id) n
      ((Subtree.branch new [d]).heap false q' ++ c.heap false old) (.ok ()) n
      ((Subtree.branch new [c, d]).heap false q') :=
    takes_attachTo [] [d] hs (show 1 ≤ 3 by decide) hh
  have hshrink : Takes _ n [(old, ⟨some (.branch isRoot [a.greatest, b.greatest, c.greatest]
      [a.id, b.id, c.id, PageId.invalid]), q⟩)] (.ok ()) n _ :=
    takes_shrink old a.greatest b.greatest c.greatest a.id b.id c.id PageId.invalid
  rw [moveUpperHalf]
  refine Takes.sees_bind (sees_branch List.mem_cons_self) ?_
  rintro _ ⟨page, rfl, hnode, -⟩
  rw [show Branch.right { id := old, page } = d.id from hnode.right_eq rfl]
  refine Takes.bind (a := ()) (hright.among
    ((old, ⟨some (Links.body isRoot ([a, b, c, d].map Subtree.link)), q⟩) ::
      (a.heap false old ++ b.heap false old ++ c.heap false old)) ?_ (.refl _)) ?_
  · rw [List.perm_iff_count]
    intro x
    simp [Subtree.heap_branch, Links.body, Links.keys, Links.children, Subtree.link_eq,
      List.count_cons]
    omega
  refine Takes.bind (a := ()) (hclear.among ((Subtree.branch new [d]).heap false q' ++
      (a.heap false old ++ b.heap false old ++ c.heap false old)) ?_ (.refl _)) ?_
  · rw [List.perm_iff_count]
    intro x
    simp [Subtree.heap_branch, Links.body, Links.keys, Links.children, Subtree.link_eq,
      List.count_cons]
    omega
  refine Takes.sees_bind (sees_branch List.mem_cons_self) ?_
  rintro _ ⟨page, rfl, hnode, -⟩
  refine Takes.lift_bind (a := c.id) (hnode.cellChild_eq (show 2 < 3 by decide) rfl) ?_
  refine Takes.bind (a := ()) (hnext.among
    ((old, ⟨some (.branch isRoot [a.greatest, b.greatest, c.greatest]
        [a.id, b.id, c.id, PageId.invalid]), q⟩) ::
      (a.heap false old ++ b.heap false old)) ?_ (.refl _)) ?_
  · rw [List.perm_iff_count]
    intro x
    simp [Subtree.heap_branch, Links.body, Links.keys, Links.children, Subtree.link_eq,
      List.count_cons]
    omega
  refine hshrink.among ((Subtree.branch new [c, d]).heap false q' ++
    (a.heap false old ++ b.heap false old)) ?_ ?_
  all_goals
    rw [List.perm_iff_count]
    intro x
    simp [Subtree.heap_branch, Links.body, Links.keys, Links.children, Subtree.link_eq,
      List.count_cons]
    omega

end Move

/-! ## A new root -/

section Grow

variable {q : PageId}

theorem takes_adopt (children : List (Subtree h)) (old new : PageId) :
    Takes (adopt new (children.map Subtree.id)) n (children.flatMap (Subtree.heap false old))
      (.ok ()) n (children.flatMap (Subtree.heap false new)) := by
  induction children with
  | nil => exact Takes.pure ()
  | cons child children ih =>
    rw [List.flatMap_cons, List.flatMap_cons]
    refine Takes.bind (a := ()) ((takes_setParent_subtree child false old new).frame _) ?_
    exact ih.among (child.heap false new) List.perm_append_comm List.perm_append_comm

theorem sees_requestPair {H : Heap} {a b : PageId} {x y : Reading} (hne : a ≠ b) (ha : (a, x) ∈ H)
    (hb : (b, y) ∈ H) : Sees (Pager.requestPair a b) H fun pair => reading pair.2 = y := by
  rw [Pager.requestPair_eq]
  simp only [if_neg hne]
  exact (Sees.request ha).bind fun _ _ => (Sees.request hb).bind fun _ hpage =>
    (Reads.pure _).sees hpage

theorem turns_rootOver (x : Reading) (left right : PageId) (leftMax : UInt32) :
    Turns (do
        Branch.init
        Header.setRoot true
        Branch.insertCell PageId.root 0 left leftMax
        Branch.setRight right)
      x () ⟨some (.branch true [leftMax] [left, right]), x.parent⟩ := by
  have hinsert : Turns (Branch.insertCell PageId.root 0 left leftMax)
      ⟨some (.branch true [] [PageId.invalid]), x.parent⟩ () _ :=
    Branch.turns_insertCell PageId.root left leftMax (show 0 < 3 by decide) (Nat.le_refl 0)
  exact (Branch.turns_init x).bind ((Header.turns_setRoot true _ _).bind
    (hinsert.bind (Branch.turns_setRight right)))

/-- The root becomes a branch over two subtrees. -/
theorem takes_rootOver (left right : Subtree h) (x : Reading) (old old' : PageId) :
    Takes (do
        Pager.edit PageId.root do
          Branch.init
          Header.setRoot true
          Branch.insertCell PageId.root 0 left.id left.greatest
          Branch.setRight right.id
        setParent left.id PageId.root
        setParent right.id PageId.root)
      n ((PageId.root, x) :: (left.heap false old ++ right.heap false old')) (.ok ()) n
      ((Subtree.branch PageId.root [left, right]).heap true x.parent) := by
  have hedit : Takes (Pager.edit PageId.root _) n _ (.ok ()) n _ :=
    Takes.edit (turns_rootOver x left.id right.id left.greatest)
  have hleft := takes_setParent_subtree (n := n) left false old PageId.root
  have hright := takes_setParent_subtree (n := n) right false old' PageId.root
  refine Takes.bind (a := ()) (hedit.frame _) ?_
  refine Takes.bind (a := ()) (hleft.among ((PageId.root,
    ⟨some (.branch true [left.greatest] [left.id, right.id]), x.parent⟩) ::
      right.heap false old') List.perm_middle (.refl _)) ?_
  refine hright.among ((PageId.root,
    ⟨some (.branch true [left.greatest] [left.id, right.id]), x.parent⟩) ::
      left.heap false PageId.root) ?_ ?_
  · rw [List.perm_iff_count]
    intro y
    simp only [List.count_append, List.count_cons]
    omega
  · rw [Subtree.heap_pair]
    exact List.perm_append_comm

/-- The contents of the root are on the new page, but their children do not know yet. -/
theorem takes_adoptMoved {t : Subtree h} {new : PageId} {α : Type} {rest : PagerM α}
    {r : Except Failure α} {H H' : Heap} {n' : Nat} (hf : t.Formed false)
    (hrest : Takes rest n ((t.moved new).heap false q ++ H) r n' H') :
    Takes (do
        let kind ← kindOf new
        if kind = .branch then do
          let children ← (← branch new).children
          adopt new children
          rest
        else rest)
      n ((new, ⟨some (t.body false), q⟩) :: (t.below ++ H)) r n' H' := by
  cases h with
  | zero => exact Takes.reads_bind (reads_kindOf_leaf List.mem_cons_self) hrest
  | succ h =>
    obtain ⟨id, children⟩ := t
    change Takes _ n ((new, ⟨some (Links.body false (children.map Subtree.link)), q⟩) ::
      (children.flatMap (Subtree.heap false id) ++ H)) r n' H'
    obtain ⟨hlen, -, -⟩ := (Subtree.formed_branch id ..).mp hf
    have hne : children ≠ [] := List.ne_nil_of_length_pos (by omega)
    refine Takes.of_holds fun _ hlt hn => ?_
    refine Takes.reads_bind (reads_kindOf_branch List.mem_cons_self) ?_
    refine Takes.sees_bind (sees_branch List.mem_cons_self) ?_
    rintro _ ⟨page, rfl, hnode, -⟩
    rw [Links.children_of_ne_nil (by simpa using hne), List.map_map] at hnode
    refine Takes.lift_bind (hnode.children_eq fun child hchild => ?_) ?_
    · obtain ⟨c, hc, rfl⟩ := List.mem_map.mp hchild
      have hsub : c.heap false id ⊆ children.flatMap (Subtree.heap false id) :=
        fun x hx => List.mem_flatMap.mpr ⟨c, hc, hx⟩
      refine c.isValid_id hsub fun x hx => Nat.lt_of_lt_of_le (hlt x ?_) hn
      exact List.mem_cons_of_mem _ (List.mem_append_left _ hx)
    · refine Takes.bind (a := ()) ((takes_adopt children id new).among
        ((new, ⟨some (Links.body false (children.map Subtree.link)), q⟩) :: H) ?_ ?_) hrest
      · rw [List.perm_iff_count]
        intro x
        simp only [List.count_append, List.count_cons]
        omega
      · change List.Perm _ ((Subtree.branch new children).heap false q ++ H)
        rw [Subtree.heap_branch, List.perm_iff_count]
        intro x
        simp only [List.count_append, List.count_cons]
        omega

theorem takes_growRoot {t right : Subtree h} {old : PageId} (ht : t.id = PageId.root)
    (hf : t.Formed false) (hn : n < maxPages) (hh : h < maxPages) :
    Takes (growRoot right.id) n (t.heap true q ++ right.heap false old) (.ok ()) (n + 1)
      ((Subtree.branch PageId.root [t.moved (PageId.ofNat n), right]).heap true q) := by
  have hmove : ∀ page : Page, reading page = ⟨some (t.body true), q⟩ →
      Takes (Pager.change (PageId.ofNat n) page (Header.setRoot false)) (n + 1)
        [(PageId.ofNat n, blank)] (.ok ()) (n + 1)
        [(PageId.ofNat n, ⟨some (t.body false), q⟩)] := fun page hpage => by
    have h := Header.turns_setRoot false (t.body true) q
    rw [Subtree.setRoot_body] at h
    exact Takes.change h hpage
  have hover := takes_rootOver (n := n + 1) (t.moved (PageId.ofNat n)) right
    ⟨some (t.body true), q⟩ q old
  rw [Subtree.id_moved, Subtree.greatest_moved] at hover
  have hmax := reads_maxKeyBelow ((Subtree.formed_moved (PageId.ofNat n)).mpr hf) false q hh
  rw [Subtree.id_moved, Subtree.greatest_moved] at hmax
  rw [growRoot]
  refine Takes.bind (a := PageId.ofNat n) ((Takes.allocate hn).among _ (.refl _) (.refl _)) ?_
  rw [Subtree.heap_eq_cons, ht]
  refine Takes.of_holds fun hdistinct _ _ => ?_
  have hne : PageId.ofNat n ≠ PageId.root := by
    intro he
    simp [he] at hdistinct
  refine Takes.sees_bind (sees_requestPair (x := blank) (y := ⟨some (t.body true), q⟩) hne (by simp)
    (by simp)) ?_
  rintro ⟨_, page⟩ hpage
  have hgather : List.Perm
      ((PageId.ofNat n, Reading.mk (some (t.body false)) q) ::
        (PageId.root, Reading.mk (some (t.body true)) q) :: (t.below ++ right.heap false old))
      ((PageId.ofNat n, ⟨some (t.body false), q⟩) ::
        (t.below ++ ((PageId.root, ⟨some (t.body true), q⟩) :: right.heap false old))) :=
    List.Perm.cons _ List.perm_middle.symm
  refine Takes.bind (a := ()) ((hmove page hpage).among _ (.refl _) hgather) ?_
  dsimp only
  refine takes_adoptMoved hf ?_
  refine Takes.reads_bind (hmax.mono (List.subset_append_left _ _)) ?_
  exact hover.perm List.perm_middle.symm (.refl _)

end Grow

end Tree
end RowStore
