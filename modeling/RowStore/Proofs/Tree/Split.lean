/-
  RowStore/Proofs/Tree/Split.lean
  ===============================
  **Splitting a full branch.**  A branch with all the children that it can have gets one
  more, and shares the five out with a new sibling.  The two that stay, the two that move
  and the one that is new end up in order, three on the side where the new one belongs.

  A root that is split has moved to a page of its own before, and so the two halves are
  linked already.  Above any other branch the new sibling is still to be linked; its
  parent says what it did, with the greatest key of the lower half as a separator.
-/
import RowStore.Proofs.Tree.Branches

namespace RowStore.Tree

variable {h n n' : Nat} {α : Type} {rest : PagerM α} {r : Except Failure α} {H H' : Heap}

/-! ## Sharing out -/

section Share

variable {isRoot : Bool} {old new q q' above : PageId} {a b c d high : Subtree h}

/-- The new child belongs between the two that stay. -/
theorem takes_share_low (hs : Siblings [a, high, b, c, d]) (hh : h + 1 < maxPages)
    (hrest : Takes rest n ((Subtree.branch old [a, high, b]).heap isRoot q ++
      (Subtree.branch new [c, d]).heap false q' ++ H) r n' H') :
    Takes (do
        moveUpperHalf old new
        let oldMax ← maxKey old
        attachTo (if high.greatest < oldMax then old else new) high.id
        rest)
      n ((Subtree.branch old [a, b, c, d]).heap isRoot q ++
        (Subtree.branch new ([] : List (Subtree h))).heap false q' ++
        high.heap false above ++ H) r n' H' := by
  have hmove : Takes (moveUpperHalf old new) n
      ((Subtree.branch old [a, b, c, d]).heap isRoot q ++
        (Subtree.branch new ([] : List (Subtree h))).heap false q') (.ok ()) n _ :=
    takes_moveUpperHalf (hs.sublist (List.drop_sublist 3 [a, high, b, c, d]))
      (Nat.lt_of_succ_lt hh)
  have hstay : Siblings [a, b] := hs.sublist (by simp)
  have hmax := reads_maxKeyBelow (hstay.formed_branch old false Nat.two_pos
    (show 2 ≤ 4 by decide)) isRoot q hh
  have hattach : Takes (attachTo old high.id) n
      ((Subtree.branch old ([a] ++ [b])).heap isRoot q ++ high.heap false above) (.ok ()) n _ :=
    takes_attachTo [a] [b] (hs.sublist (List.take_sublist 3 [a, high, b, c, d]))
      (show 2 ≤ 3 by decide) (Nat.lt_of_succ_lt hh)
  have hlt : high.greatest < b.greatest :=
    List.pairwise_iff_getElem.mp hs.greatest 1 2 (by simp) (by simp) (by decide)
  refine Takes.bind (a := ()) (hmove.among (high.heap false above ++ H)
    (.of_eq (List.append_assoc ..).symm) (.of_eq (List.append_assoc ..))) ?_
  refine Takes.reads_bind (hmax.mono (List.subset_append_left _ _)) ?_
  rw [if_pos (by simpa using hlt)]
  refine Takes.bind (a := ()) (hattach.among ((Subtree.branch new [c, d]).heap false q' ++ H) ?_
    (.of_eq (List.append_assoc ..).symm)) hrest
  rw [List.perm_iff_count]
  intro x
  simp only [List.count_append, List.singleton_append]
  omega

/-- The new child belongs among the two that move. -/
theorem takes_share_high (left right : List (Subtree h)) (hlen : (left ++ right).length = 2)
    (hs : Siblings (a :: b :: (left ++ high :: right))) (hh : h + 1 < maxPages)
    (hrest : Takes rest n ((Subtree.branch old [a, b]).heap isRoot q ++
      (Subtree.branch new (left ++ high :: right)).heap false q' ++ H) r n' H') :
    Takes (do
        moveUpperHalf old new
        let oldMax ← maxKey old
        attachTo (if high.greatest < oldMax then old else new) high.id
        rest)
      n ((Subtree.branch old (a :: b :: (left ++ right))).heap isRoot q ++
        (Subtree.branch new ([] : List (Subtree h))).heap false q' ++
        high.heap false above ++ H) r n' H' := by
  obtain ⟨c, d, hcd⟩ := List.length_eq_two.mp hlen
  have hmove : Takes (moveUpperHalf old new) n
      ((Subtree.branch old [a, b, c, d]).heap isRoot q ++
        (Subtree.branch new ([] : List (Subtree h))).heap false q') (.ok ()) n
      ((Subtree.branch old [a, b]).heap isRoot q ++ (Subtree.branch new [c, d]).heap false q') := by
    refine takes_moveUpperHalf (hs.sublist ?_) (Nat.lt_of_succ_lt hh)
    rw [← hcd]
    exact .cons _ (.cons _ (List.Sublist.append (.refl _) (List.sublist_cons_self high right)))
  have hstay : Siblings [a, b] := hs.sublist (by simp)
  have hmax := reads_maxKeyBelow (hstay.formed_branch old false Nat.two_pos
    (show 2 ≤ 4 by decide)) isRoot q hh
  have hattach : Takes (attachTo new high.id) n
      ((Subtree.branch new (left ++ right)).heap false q' ++ high.heap false above) (.ok ()) n _ :=
    takes_attachTo left right (hs.sublist (List.drop_sublist 2 (a :: b :: (left ++ high :: right))))
      (by rw [hlen]; decide)
      (Nat.lt_of_succ_lt hh)
  have hlt : ¬high.greatest < b.greatest := by
    have hg := hs.greatest
    rw [List.map_cons, List.map_cons, List.pairwise_cons, List.pairwise_cons] at hg
    exact UInt32.not_lt.mpr (UInt32.le_of_lt (hg.2.1 _ (by simp)))
  rw [hcd] at hattach ⊢
  refine Takes.bind (a := ()) (hmove.among (high.heap false above ++ H)
    (.of_eq (List.append_assoc ..).symm) (.of_eq (List.append_assoc ..))) ?_
  refine Takes.reads_bind (hmax.mono (List.subset_append_left _ _)) ?_
  rw [if_neg (by simpa using hlt)]
  refine Takes.bind (a := ()) (hattach.among ((Subtree.branch old [a, b]).heap isRoot q ++ H) ?_ ?_)
    hrest
  all_goals
    rw [List.perm_iff_count]
    intro x
    simp only [List.count_append]
    omega

end Share

/-- How many of five children stay, where the new one stands behind `left` and one more. -/
def staying {Child : Type} : List Child → Nat
  | [] => 3
  | _ :: _ => 2

theorem two_le_staying {Child : Type} (left : List Child) : 2 ≤ staying left := by
  cases left with
  | nil => exact Nat.le_succ 2
  | cons _ _ => exact Nat.le_refl 2

theorem staying_le {Child : Type} (left : List Child) : staying left ≤ 3 := by
  cases left with
  | nil => exact Nat.le_refl 3
  | cons _ _ => exact Nat.le_succ 2

theorem takes_share {left right : List (Subtree h)} {low high : Subtree h}
    {isRoot : Bool} {old new q q' above : PageId}
    (hlen : (left ++ low :: right).length = Branch.maxKeys + 1)
    (hs : Siblings (left ++ low :: high :: right)) (hh : h + 1 < maxPages)
    (hrest : Takes rest n
      ((Subtree.branch old ((left ++ low :: high :: right).take (staying left))).heap isRoot q ++
        (Subtree.branch new ((left ++ low :: high :: right).drop (staying left))).heap false q' ++
        H) r n' H') :
    Takes (do
        moveUpperHalf old new
        let oldMax ← maxKey old
        attachTo (if high.greatest < oldMax then old else new) high.id
        rest)
      n ((Subtree.branch old (left ++ low :: right)).heap isRoot q ++
        (Subtree.branch new ([] : List (Subtree h))).heap false q' ++
        high.heap false above ++ H) r n' H' := by
  replace hlen : (left ++ low :: right).length = 4 := hlen
  rw [List.length_append, List.length_cons] at hlen
  match left with
  | [] =>
    obtain ⟨b, c, d, rfl⟩ := List.length_eq_three.mp (show right.length = 3 by simpa using hlen)
    exact takes_share_low hs hh hrest
  | [a] =>
    refine takes_share_high [] right ?_ hs hh hrest
    simp only [List.length_append, List.length_cons, List.length_nil] at hlen ⊢
    omega
  | [a, b] =>
    refine takes_share_high [low] right ?_ hs hh hrest
    simp only [List.length_append, List.length_cons, List.length_nil] at hlen ⊢
    omega
  | [a, b, c] =>
    refine takes_share_high [c, low] right ?_ hs hh hrest
    simp only [List.length_append, List.length_cons, List.length_nil] at hlen ⊢
    omega
  | a :: b :: c :: d :: left =>
    simp only [List.length_cons] at hlen
    omega

/-! ## Separators -/

section Relink

variable {before after : Links} {id q : PageId} {old new : UInt32} {isRoot : Bool}

theorem set_keys_append_cons (before after : Links) (id : PageId) (old new : UInt32) :
    (Links.keys (before ++ (id, old) :: after)).set before.length new =
      Links.keys (before ++ (id, new) :: after) := by
  rw [Links.keys_append_cons, Links.keys_append_cons, List.set_append_right _ _ (by simp),
    List.length_map, Nat.sub_self]
  congr 1
  cases after <;> rfl

/-- A separator is found by its child. -/
theorem turns_relink (above : PageId) (hid : id ∉ before.map Prod.fst) :
    Turns (Branch.replaceKeyOf above id new)
      ⟨some (Links.body isRoot (before ++ (id, old) :: after)), q⟩ ()
      ⟨some (Links.body isRoot (before ++ (id, new) :: after)), q⟩ := by
  have hchildren : ∀ k : UInt32, Links.children (before ++ (id, k) :: after) =
      before.map Prod.fst ++ id :: after.map Prod.fst := fun k => by
    rw [Links.children_of_ne_nil (by simp), List.map_append, List.map_cons]
  have hplace : (before.map Prod.fst ++ id :: after.map Prod.fst).idxOf id = before.length := by
    rw [List.idxOf_append_of_notMem hid, List.idxOf_cons_self, List.length_map, Nat.add_zero]
  have h : Turns (Branch.replaceKeyOf above id new) ⟨some (.branch isRoot
      (Links.keys (before ++ (id, old) :: after))
      (before.map Prod.fst ++ id :: after.map Prod.fst)), q⟩ () _ :=
    Branch.turns_replaceKeyOf above id new
  rw [hplace, set_keys_append_cons] at h
  rwa [Links.body, Links.body, hchildren, hchildren]

/-- A separator is found by its key. -/
theorem turns_relinkByKey (above : PageId)
    (hkeys : ((before ++ (id, old) :: after).map Prod.snd).Pairwise (· < ·)) :
    Turns (Branch.replaceKey above old new)
      ⟨some (Links.body isRoot (before ++ (id, old) :: after)), q⟩ ()
      ⟨some (Links.body isRoot (before ++ (id, new) :: after)), q⟩ := by
  have hpair : (Links.keys (before ++ (id, old) :: after)).Pairwise (· < ·) :=
    hkeys.sublist (List.dropLast_sublist _)
  rw [List.map_append, List.map_cons, List.pairwise_append, List.pairwise_cons] at hkeys
  have hplace : rank old (Links.keys (before ++ (id, old) :: after)) = before.length := by
    rw [Links.keys_append_cons, rank_append, List.length_map]
    · exact fun k hk => hkeys.2.2 k hk old List.mem_cons_self
    · intro k hk
      rcases List.mem_cons.mp ((List.dropLast_sublist _).subset hk) with rfl | hk
      · exact UInt32.le_refl _
      · exact UInt32.le_of_lt (hkeys.2.1.1 k hk)
  have h : Turns (Branch.replaceKey above old new) ⟨some (.branch isRoot
      (Links.keys (before ++ (id, old) :: after))
      (Links.children (before ++ (id, old) :: after))), q⟩ () _ :=
    Branch.turns_replaceKey above old new hpair
  have hchildren : Links.children (before ++ (id, old) :: after) =
      Links.children (before ++ (id, new) :: after) := by
    rw [Links.children_of_ne_nil (by simp), Links.children_of_ne_nil (by simp), List.map_append,
      List.map_append]
    rfl
  rw [hplace, set_keys_append_cons] at h
  have hset : (if (Links.keys (before ++ (id, old) :: after))[before.length]? = some old then
      Links.keys (before ++ (id, new) :: after) else Links.keys (before ++ (id, old) :: after)) =
      Links.keys (before ++ (id, new) :: after) := by
    rw [Links.keys_append_cons, Links.keys_append_cons]
    cases after with
    | nil => split <;> rfl
    | cons link after => simp [Links.keys]
  rw [hset] at h
  rwa [Links.body, Links.body, ← hchildren]

end Relink

/-! ## Preparing -/

/-- A new branch without children. -/
theorem takes_newBranch (h : Nat) {f : PageId → PagerM α} (hn : n < maxPages)
    (hrest : Takes (f (PageId.ofNat n)) (n + 1)
      ((Subtree.branch (PageId.ofNat n) ([] : List (Subtree h))).heap false blank.parent ++ H)
      r n' H') :
    Takes (do
        let new ← Pager.allocate
        Pager.edit new Branch.init
        f new)
      n H r n' H' := by
  refine Takes.bind (a := PageId.ofNat n) ((Takes.allocate hn).among H (.refl _) (.refl _)) ?_
  exact Takes.bind (a := ()) ((Takes.edit (Branch.turns_init blank)).frame H) hrest

theorem takes_prepareSplit_root (t right : Subtree h) (q old : PageId)
    (ht : t.id = PageId.root) (hf : t.Formed false) (hn : n < maxPages) (hh : h < maxPages) :
    Takes (prepareSplit PageId.root right.id true) n (t.heap true q ++ right.heap false old)
      (.ok (PageId.ofNat n, PageId.root)) (n + 1)
      ((PageId.root, ⟨some (.branch true [t.greatest] [PageId.ofNat n, right.id]), q⟩) ::
        ((t.moved (PageId.ofNat n)).heap false PageId.root ++ right.heap false PageId.root)) := by
  have hgrow : Takes (growRoot right.id) n (t.heap true q ++ right.heap false old) (.ok ()) (n + 1)
      _ := takes_growRoot ht hf hn hh
  rw [Subtree.heap_pair, Subtree.id_moved, Subtree.greatest_moved] at hgrow
  rw [prepareSplit]
  simp only [if_true]
  refine Takes.bind (a := ()) hgrow ?_
  refine Takes.sees_bind (sees_branch List.mem_cons_self) ?_
  rintro _ ⟨page, rfl, hnode, -⟩
  exact Takes.lift_bind (hnode.cellChild_eq Nat.zero_lt_one rfl) (Takes.pure _)

theorem takes_prepareSplit (id new : PageId) (x y : Reading) :
    Takes (prepareSplit id new false) n [(id, x), (new, y)] (.ok (id, x.parent)) n
      [(id, x), (new, { y with parent := x.parent })] := by
  rw [prepareSplit]
  simp only [Bool.false_eq_true, if_false]
  refine Takes.reads_bind (reads_parentOf List.mem_cons_self) ?_
  refine Takes.bind (a := ()) ((takes_setParent y x.parent).among [(id, x)]
    (.swap ..) (.swap ..)) (Takes.pure _)

/-! ## Splitting -/

section Split

variable {left right : List (Subtree h)} {low high : Subtree h} {q above : PageId}

theorem length_five (hlen : (left ++ low :: right).length = Branch.maxKeys + 1) :
    (left ++ low :: high :: right).length = 5 := by
  replace hlen : (left ++ low :: right).length = 4 := hlen
  simp only [List.length_append, List.length_cons] at hlen ⊢
  omega

theorem formed_staying (hlen : (left ++ low :: right).length = Branch.maxKeys + 1)
    (hf : ∀ t ∈ left ++ low :: high :: right, t.Formed false) (id : PageId) (isRoot : Bool) :
    (Subtree.branch id ((left ++ low :: high :: right).take (staying left))).Formed isRoot := by
  have htwo := two_le_staying left
  have hthree := staying_le left
  refine (Subtree.formed_branch ..).mpr ⟨?_, ?_, fun t ht => hf t (List.mem_of_mem_take ht)⟩
  · rw [List.length_take, length_five hlen]
    omega
  · rw [List.length_take, length_five hlen]
    change _ ≤ 4
    omega

theorem formed_moving (hlen : (left ++ low :: right).length = Branch.maxKeys + 1)
    (hf : ∀ t ∈ left ++ low :: high :: right, t.Formed false) (id : PageId) (isRoot : Bool) :
    (Subtree.branch id ((left ++ low :: high :: right).drop (staying left))).Formed isRoot := by
  have htwo := two_le_staying left
  have hthree := staying_le left
  refine (Subtree.formed_branch ..).mpr ⟨?_, ?_, fun t ht => hf t (List.mem_of_mem_drop ht)⟩
  · rw [List.length_drop, length_five hlen]
    omega
  · rw [List.length_drop, length_five hlen]
    change _ ≤ 4
    omega

/-- Before a full root is split, it moves to a page of its own. -/
theorem takes_prepareSplit_full (hlen : (left ++ low :: right).length = Branch.maxKeys + 1)
    (hs : Siblings (left ++ low :: high :: right)) (hh : h + 1 < maxPages)
    (hn : n + 1 < maxPages) :
    Takes (prepareSplit PageId.root (PageId.ofNat n) true) (n + 1)
      ((Subtree.branch (PageId.ofNat n) ([] : List (Subtree h))).heap false blank.parent ++
        ((Subtree.branch PageId.root (left ++ low :: right)).heap true q ++ high.heap false above))
      (.ok (PageId.ofNat (n + 1), PageId.root)) (n + 2)
      ((Subtree.branch (PageId.ofNat (n + 1)) (left ++ low :: right)).heap false PageId.root ++
        (Subtree.branch (PageId.ofNat n) ([] : List (Subtree h))).heap false PageId.root ++
        high.heap false above ++
        [(PageId.root, ⟨some (.branch true
          [(Subtree.branch PageId.root (left ++ low :: right)).greatest]
          [PageId.ofNat (n + 1), PageId.ofNat n]), q⟩)]) := by
  have hfull : (Subtree.branch PageId.root (left ++ low :: right)).Formed false := by
    refine (hs.sublist ?_).formed_branch _ _ (by rw [hlen]; decide) (Nat.le_of_eq hlen)
    exact List.Sublist.append (.refl _) (.cons_cons _ (List.sublist_cons_self high right))
  refine (takes_prepareSplit_root _ (Subtree.branch (PageId.ofNat n) ([] : List (Subtree h))) q
    blank.parent rfl hfull hn hh).among (high.heap false above) ?_ ?_
  all_goals
    rw [List.perm_iff_count]
    intro x
    simp only [Subtree.moved_branch, Subtree.id_branch, List.count_append, List.count_cons,
      List.count_nil]
    omega

theorem takes_splitBranch_root (hlen : (left ++ low :: right).length = Branch.maxKeys + 1)
    (hs : Siblings (left ++ low :: high :: right)) (hh : h + 1 < maxPages)
    (hn : n + 1 < maxPages) :
    Takes (splitBranch PageId.root high.id) n
      ((Subtree.branch PageId.root (left ++ low :: right)).heap true q ++ high.heap false above)
      (.ok none) (n + 2)
      ((Subtree.branch PageId.root
        [Subtree.branch (PageId.ofNat (n + 1))
            ((left ++ low :: high :: right).take (staying left)),
          Subtree.branch (PageId.ofNat n)
            ((left ++ low :: high :: right).drop (staying left))]).heap true q) := by
  have hmax := reads_maxKeyBelow (hs.formed high (by simp)) false above (Nat.lt_of_succ_lt hh)
  have hmax' := reads_maxKeyBelow (formed_staying hlen hs.formed (PageId.ofNat (n + 1)) false) false
    PageId.root hh
  rw [splitBranch]
  refine Takes.reads_bind (hmax.mono (List.subset_append_right _ _)) ?_
  refine Takes.reads_bind ((reads_isRoot_branch List.mem_cons_self).mono
    (List.subset_append_left _ _)) ?_
  refine takes_newBranch h (Nat.lt_of_succ_lt hn) ?_
  refine Takes.bind (a := (PageId.ofNat (n + 1), PageId.root))
    (takes_prepareSplit_full hlen hs hh hn) ?_
  dsimp only
  refine takes_share hlen hs hh ?_
  refine Takes.reads_bind (hmax'.mono (by simp)) ?_
  simp only [if_true]
  refine Takes.bind (a := ()) ((takes_editBranch (Branch.turns_setKey _ (Nat.zero_lt_one))).among
    _ List.perm_append_comm ?_) (Takes.pure none)
  rw [Subtree.heap_pair, Subtree.id_branch, Subtree.id_branch]
  exact .cons _ (.refl _)

theorem takes_splitBranch {id parent : PageId} {before after : Links} {old : UInt32}
    {isRoot : Bool} (hid : id ∉ before.map Prod.fst)
    (hlen : (left ++ low :: right).length = Branch.maxKeys + 1)
    (hs : Siblings (left ++ low :: high :: right)) (hh : h + 1 < maxPages) (hn : n < maxPages) :
    Takes (splitBranch id high.id) n
      ((Subtree.branch id (left ++ low :: right)).heap false parent ++ high.heap false above ++
        [(parent, ⟨some (Links.body isRoot (before ++ (id, old) :: after)), q⟩)])
      (.ok (some (parent, PageId.ofNat n))) (n + 1)
      ((Subtree.branch id ((left ++ low :: high :: right).take (staying left))).heap false parent ++
        (Subtree.branch (PageId.ofNat n)
          ((left ++ low :: high :: right).drop (staying left))).heap false parent ++
        [(parent, ⟨some (Links.body isRoot (before ++ (Subtree.branch id
          ((left ++ low :: high :: right).take (staying left))).link :: after)), q⟩)]) := by
  have hmax := reads_maxKeyBelow (hs.formed high (by simp)) false above (Nat.lt_of_succ_lt hh)
  have hmax' := reads_maxKeyBelow (formed_staying hlen hs.formed id false) false parent hh
  have hprepare : Takes (prepareSplit id (PageId.ofNat n) false) (n + 1)
      ((Subtree.branch (PageId.ofNat n) ([] : List (Subtree h))).heap false blank.parent ++
        ((Subtree.branch id (left ++ low :: right)).heap false parent ++ high.heap false above ++
          [(parent, ⟨some (Links.body isRoot (before ++ (id, old) :: after)), q⟩)]))
      (.ok (id, parent)) (n + 1)
      ((Subtree.branch id (left ++ low :: right)).heap false parent ++
        (Subtree.branch (PageId.ofNat n) ([] : List (Subtree h))).heap false parent ++
        high.heap false above ++
        [(parent, ⟨some (Links.body isRoot (before ++ (id, old) :: after)), q⟩)]) := by
    refine (takes_prepareSplit id (PageId.ofNat n)
      ⟨some (Links.body false ((left ++ low :: right).map Subtree.link)), parent⟩
      ⟨some (Links.body false []), blank.parent⟩).among
      ((left ++ low :: right).flatMap (Subtree.heap false id) ++ high.heap false above ++
        [(parent, ⟨some (Links.body isRoot (before ++ (id, old) :: after)), q⟩)]) ?_ ?_
    all_goals
      rw [Subtree.heap_branch, Subtree.heap_branch, List.map_nil, List.flatMap_nil,
        List.perm_iff_count]
      intro x
      simp only [List.count_append, List.count_cons, List.count_nil]
      omega
  rw [splitBranch]
  refine Takes.reads_bind (hmax.mono (by simp)) ?_
  refine Takes.reads_bind ((reads_isRoot_branch List.mem_cons_self).mono
    (List.Subset.trans (List.subset_append_left _ _) (List.subset_append_left _ _))) ?_
  refine takes_newBranch h hn ?_
  refine Takes.bind (a := (id, parent)) hprepare ?_
  dsimp only
  refine takes_share hlen hs hh ?_
  refine Takes.reads_bind (hmax'.mono (by simp)) ?_
  simp only [Bool.false_eq_true, if_false]
  exact Takes.bind (a := ()) ((takes_editBranch (turns_relink _ hid)).among
    _ List.perm_append_comm List.perm_append_comm) (Takes.pure _)

end Split

end RowStore.Tree
