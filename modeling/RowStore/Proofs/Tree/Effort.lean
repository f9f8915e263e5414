/-
  RowStore/Proofs/Tree/Effort.lean
  ================================
  **How much an insert does.**  To link a child into a full branch is to split the branch,
  and a split calls for links in turn: two children move to the new half, the child goes
  into one of the halves, and the new half is linked into the grandparent.  `cascade` is
  this recursion as it is described, where each of these links may split again.  It climbs
  through parent fields that may lead anywhere, in circles too, and it rewrites them on the
  way, so that no height of a tree limits it.

  The pages do.  A split takes a page before it calls for any link, and no page is ever
  given back.  A ledger beside the pager counts the splits, and `Follows` compares a step
  on the ledger with a step on the pager: they come to the same end, and there is a page
  more for every split.  Of the links that a split calls for, only the last one can split
  again, since the halves have room.  So the recursion is the loop that `linkWithin` runs.
-/
import RowStore.Proofs.Tree.Halves
import RowStore.Proofs.Tree.Looking
import RowStore.Proofs.Tree.Milestones

namespace RowStore

variable {α β : Type}

/-! ## Ledgers -/

/-- A pager, and the number of branches that were split. -/
structure Ledger where
  pager : Pager
  splits : Nat

/-- A step on a ledger. -/
abbrev LedgerM := EStateM Failure Ledger

namespace LedgerM

/-- A step on the pager, which splits no branch. -/
def track (m : PagerM α) : LedgerM α := fun ledger =>
  match m ledger.pager with
  | .ok a pager => .ok a { ledger with pager }
  | .error failure pager => .error failure { ledger with pager }

/-- Takes the page for the new half of a branch.  What gets so far counts as a split. -/
def takePage : LedgerM PageId := do
  let new ← track Pager.allocate
  modify fun ledger => { ledger with splits := ledger.splits + 1 }
  return new

theorem run_track {m : PagerM α} {ledger : Ledger} {r : Except Failure α} {after : Pager}
    (hrun : m.run ledger.pager = outcome r after) :
    (track m).run ledger = outcome r { ledger with pager := after } := by
  replace hrun : m ledger.pager = outcome r after := hrun
  cases r <;> simp only [EStateM.run, track, hrun, outcome]

end LedgerM

open LedgerM (track takePage)

/-- From a pager of `S` both steps come to the same end, with an answer as in `Q` or a failure
    as in `E`.  Each split has taken a page, and one of those that a store may have. -/
def Follows (S : Pager → Prop) (c : LedgerM α) (m : PagerM α) (Q : α → Pager → Prop)
    (E : Failure → Pager → Prop) : Prop :=
  ∀ ledger, S ledger.pager → ∃ r after splits,
    c.run ledger = outcome r ⟨after, ledger.splits + splits⟩ ∧
      m.run ledger.pager = outcome r after ∧ ledger.pager.numPages + splits ≤ after.numPages ∧
      (splits = 0 ∨ ledger.pager.numPages + splits ≤ maxPages) ∧
      match r with
      | .ok a => Q a after
      | .error failure => E failure after

namespace Follows

variable {S S' : Pager → Prop} {c : LedgerM α} {m : PagerM α} {f : α → LedgerM β}
variable {g : α → PagerM β} {P Q : α → Pager → Prop} {R : β → Pager → Prop}
variable {E : Failure → Pager → Prop} {W : PageId → Page → Page → Prop}

theorem ends (h : Follows S c m Q E) : Ends S m Q E := by
  intro pager hp
  obtain ⟨r, after, splits, -, hrun, -, -, hpost⟩ := h ⟨pager, 0⟩ hp
  rw [hrun]
  cases r with
  | ok a => exact hpost
  | error failure => exact hpost

theorem track (hm : Ends S m Q E) (htidy : Tidy W [] m) : Follows S (track m) m Q E := by
  intro ledger hp
  have hends := hm ledger.pager hp
  obtain ⟨r, after, hrun⟩ := exists_outcome m ledger.pager
  refine ⟨r, after, 0, LedgerM.run_track hrun, hrun, ?_, .inl rfl, ?_⟩
  · exact (htidy.strides hrun).onward.numPages_le
  · rw [hrun] at hends
    cases r with
    | ok a => exact hends
    | error failure => exact hends

theorem bind (hm : Follows S c m P E) (hf : ∀ a, Follows (P a) (f a) (g a) R E) :
    Follows S (c >>= f) (m >>= g) R E := by
  intro ledger hp
  obtain ⟨r, middle, first, hc, hm, hnum, hmax, hpost⟩ := hm ledger hp
  cases r with
  | error failure =>
    exact ⟨.error failure, middle, first, bind_run_error hc, bind_run_error hm, hnum, hmax, hpost⟩
  | ok a =>
    obtain ⟨r, after, more, hc', hm', hnum', hmax', hpost'⟩ :=
      hf a ⟨middle, ledger.splits + first⟩ hpost
    replace hnum' : middle.numPages + more ≤ after.numPages := hnum'
    replace hmax' : more = 0 ∨ middle.numPages + more ≤ maxPages := hmax'
    refine ⟨r, after, first + more, ?_, ?_, by omega, by omega, hpost'⟩
    · rw [bind_run hc, hc', Nat.add_assoc]
    · rw [bind_run hm, hm']

theorem mono (h : Follows S c m Q E) (hS : ∀ pager, S' pager → S pager) : Follows S' c m Q E :=
  fun ledger hp => h ledger (hS _ hp)

theorem imp (h : Follows S c m P E) (hQ : ∀ a pager, P a pager → Q a pager) :
    Follows S c m Q E := by
  intro ledger hp
  obtain ⟨r, after, splits, hc, hm, hnum, hmax, hpost⟩ := h ledger hp
  refine ⟨r, after, splits, hc, hm, hnum, hmax, ?_⟩
  cases r with
  | ok a => exact hQ _ _ hpost
  | error failure => exact hpost

theorem fact {c' : Prop} (h : c' → Follows S c m Q E) :
    Follows (fun pager => S pager ∧ c') c m Q E :=
  fun ledger hp => h hp.2 ledger hp.1

theorem lift_bind {stray : Prop} {check : Except Failure α} {K : α → Prop}
    (hcheck : SafeCheck check K)
    (hf : ∀ a, K a → Follows S (f a) (g a) R (Failing stray)) :
    Follows S (liftM check >>= f) (liftM check >>= g) R (Failing stray) := by
  cases check with
  | ok a => exact hf a hcheck
  | error failure =>
    exact fun ledger _ => ⟨.error failure, ledger.pager, 0, rfl, rfl, Nat.le_refl _, .inl rfl,
      .inl hcheck⟩

/-- A refusal before steps that come to the same end where nothing was refused. -/
theorem guard {stray p : Prop} [Decidable p] {e : Error}
    (h : ¬p → Follows S c m Q (Failing stray)) :
    Follows S (if p then refuse e >>= fun _ : PUnit => c else c)
      (if p then refuse e >>= fun _ : PUnit => m else m) Q (Failing stray) := by
  split
  · exact fun ledger _ => ⟨.error (.error e), ledger.pager, 0, rfl, rfl, Nat.le_refl _, .inl rfl,
      .inl rfl⟩
  · exact h ‹_›

end Follows

/-! ## The recursion -/

namespace Tree

/-- Moves the upper half of the children of `old` to its empty sibling `new`.  `insert` links
    a child. -/
def moveWith (insert : PageId → PageId → LedgerM Unit) (old new : PageId) : LedgerM Unit := do
  insert new (← track (branch old)).right
  track (editBranch old (Branch.setRight PageId.invalid))
  insert new (← (← track (branch old)).cellChild (Branch.maxKeys - 1))
  track (shrink old)

/-- Splits a full branch around a child.  All links are made by `insert`. -/
def splitWith (insert : PageId → PageId → LedgerM Unit) (parent child : PageId) :
    LedgerM Unit := do
  let childMax ← track (maxKey child)
  let splittingRoot ← track (isRoot parent)
  let new ← takePage
  track (Pager.edit new Branch.init)
  let (old, grandparent) ← track (prepareSplit parent new splittingRoot)
  moveWith insert old new
  let destination := if childMax < (← track (maxKey old)) then old else new
  insert destination child
  let splitMax ← track (maxKey old)
  if splittingRoot then track (editBranch PageId.root (Branch.setKey 0 splitMax))
  else
    track (editBranch grandparent (Branch.replaceKeyOf grandparent old splitMax))
    insert grandparent new

/-- Links a child into a branch, and splits the branch if it is full.  The calls may nest
    `depth` deep. -/
def cascade : (depth : Nat) → (parent child : PageId) → LedgerM Unit
  | 0, _, _ => throw .endless
  | depth + 1, parent, child => do
    let node ← track (branch parent)
    if node.count < Branch.maxKeys then track (attach node child)
    else splitWith (cascade depth) parent child

end Tree

namespace Known

open RowStore.Tree

variable {stray : Prop} {n : Nat} {F G : List (PageId × Fact)} {id : PageId}

/-- A split takes a page: there is one more than before, and there was still one to take. -/
theorem follows_takePage : Follows (Known stray n F) takePage Pager.allocate
    (fun new pager => Known stray (n + 1) F pager ∧ n ≤ new.index ∧ n < maxPages ∧
      ∀ x ∈ F, x.1.index < new.index) (Failing stray) := by
  intro ledger hp
  have hknown : Known stray ledger.pager.numPages F ledger.pager :=
    ⟨hp.counted, hp.flags, Nat.le_refl _, hp.facts⟩
  have hends := ends_allocate ledger.pager hknown
  obtain ⟨r, after, hrun⟩ := exists_outcome Pager.allocate ledger.pager
  have htrack : (track Pager.allocate).run ledger = outcome r { ledger with pager := after } :=
    LedgerM.run_track hrun
  rw [hrun] at hends
  cases r with
  | error failure =>
    refine ⟨.error failure, after, 0, bind_run_error htrack, hrun, ?_, .inl rfl, hends⟩
    exact (tidy_allocate.strides hrun).onward.numPages_le
  | ok new =>
    obtain ⟨hafter, hindex, hmax, hfresh⟩ := hends
    have hn := hp.numPages_le
    refine ⟨.ok new, after, 1, bind_run htrack, hrun, hafter.numPages_le, .inr hmax, ?_⟩
    exact ⟨hafter.mono (by omega) (List.Subset.refl _), Nat.le_trans hn hindex,
      Nat.lt_of_le_of_lt hn hmax, hfresh⟩

/-! ### Steps that split nothing -/

/-- What is known of more pages is known of fewer. -/
theorem follows_forget {c : LedgerM α} {m : PagerM α} {Q : α → Pager → Prop}
    {E : Failure → Pager → Prop} (h : Follows (Known stray n G) c m Q E) (hsub : G ⊆ F) :
    Follows (Known stray n F) c m Q E :=
  h.mono fun _ hp => hp.mono (Nat.le_refl n) hsub

theorem follows_reading {m : PagerM α} {Q : α → Prop} (hsafe : Safe m Q)
    (htidy : ∀ W, Tidy W [] m) : Follows (Known stray n F) (track m) m (fun _ => Known stray n F)
      (Failing stray) :=
  .track ((ends_reading hsafe (htidy _)).imp fun _ _ h => h.1) (htidy Unraised)

theorem follows_maxKey (id : PageId) : Follows (Known stray n F) (track (maxKey id)) (maxKey id)
    (fun _ => Known stray n F) (Failing stray) :=
  follows_reading (safe_maxKey id) fun _ => tidy_maxKey id

theorem follows_branch (id : PageId) : Follows (Known stray n F) (track (branch id)) (branch id)
    (fun node pager => Known stray n ((id, .count node.count) :: F) pager ∧ node.id = id ∧
      node.count ≤ Branch.maxKeys ∧ ∀ x ∈ F, x.1 = id → x.2.On node.page) (Failing stray) :=
  .track (ends_branch_count id) (tidy_branch (W := Unraised) id)

theorem follows_leaf (id : PageId) : Follows (Known stray n F) (track (leaf id)) (leaf id)
    (fun node pager => Known stray n ((id, .count node.count) :: F) pager ∧ node.id = id ∧
      node.count ≤ Leaf.maxCells ∧ ∀ x ∈ F, x.1 = id → x.2.On node.page) (Failing stray) :=
  .track (ends_leaf_count id) (tidy_leaf (W := Unraised) id)

theorem follows_edit {e : Edit pageSize Unit} (hflag : Modest e)
    (he : ∀ page, Yields stray e page fun _ => True) :
    Follows (Known stray n F) (track (Pager.edit id e)) (Pager.edit id e)
      (fun _ => Known stray n []) (Failing stray) := by
  refine .track (ends_edit (fun _ _ => hflag.unraised id _ (.ok ()) _) (fun page _ => ?_) nofun)
    (.edit (hflag.unraised id))
  exact (he page).imp fun _ _ => nofun

theorem follows_editBranch {e : Edit pageSize Unit} (hflag : Modest e)
    (he : ∀ page, Branch.countIn page ≤ Branch.maxKeys → Yields stray e page fun _ => True) :
    Follows (Known stray n F) (track (editBranch id e)) (editBranch id e)
      (fun _ => Known stray n []) (Failing stray) := by
  refine .track (ends_editBranch hflag (fun page hcount _ => ?_) nofun) (tidy_editBranch id hflag)
  exact (he page hcount).imp fun _ _ => nofun

theorem follows_editLeaf {e : Edit pageSize Unit} (hflag : Modest e)
    (he : ∀ page, (∀ x ∈ F, x.1 = id → x.2.On page) → Yields stray e page fun _ => True) :
    Follows (Known stray n F) (track (editLeaf id e)) (editLeaf id e)
      (fun _ => Known stray n []) (Failing stray) := by
  refine .track (ends_editLeaf hflag (fun page hpage => ?_) nofun) (tidy_editLeaf id hflag)
  exact (he page hpage).imp fun _ _ => nofun

theorem follows_growRoot (right : PageId) : Follows (Known stray n F) (track (growRoot right))
    (growRoot right) (fun _ => Known stray n []) (Failing stray) := by
  refine (Follows.track (ends_growRoot right (G := []) (List.nil_subset _) nofun)
    (tidy_growRoot right)).imp fun _ _ ⟨_, _, hafter, _⟩ => ?_
  exact hafter.forget (Nat.le_succ n)

/-! ### Branches -/

/-- A branch that has room is not split. -/
theorem follows_attachTo (depth : Nat) {c : Nat} (child : PageId) (hc : c < Branch.maxKeys)
    (hF : ∀ x ∈ F, x.1 ≠ id) :
    Follows (Known stray n ((id, .atMost c) :: F)) (cascade (depth + 1) id child)
      (attachTo id child) (fun _ => Known stray n ((id, .atMost (c + 1)) :: F))
      (Failing stray) := by
  refine (follows_branch id).bind fun node => .fact fun ⟨hid, _, hon⟩ => ?_
  subst hid
  have hle : node.count ≤ c := hon _ List.mem_cons_self rfl
  rw [if_pos (Nat.lt_of_le_of_lt hle hc)]
  exact .track (ends_attach_of_le child hle hc hF) (tidy_attach node child)

/-- Into a branch that has room, `insert` links a child without a split. -/
def Attaches (stray : Prop) (n : Nat) (insert : PageId → PageId → LedgerM Unit) : Prop :=
  ∀ (id child : PageId) (c : Nat) (F : List (PageId × Fact)), c < Branch.maxKeys →
    (∀ x ∈ F, x.1 ≠ id) → Follows (Known stray n ((id, .atMost c) :: F)) (insert id child)
      (attachTo id child) (fun _ => Known stray n ((id, .atMost (c + 1)) :: F)) (Failing stray)

variable {insert : PageId → PageId → LedgerM Unit} {c : Nat} {old new : PageId}

/-- Two children move to the sibling, and the old half keeps one key. -/
theorem follows_moveWith (hinsert : Attaches stray n insert) (hne : old ≠ new)
    (hfull : c = Branch.maxKeys ∨ stray) :
    Follows (Known stray n [(old, .count c), (new, .atMost 0)]) (moveWith insert old new)
      (moveUpperHalf old new) (fun _ => Known stray n [(old, .atMost 1), (new, .atMost 2)])
      (Failing stray) := by
  have hold : ∀ x ∈ [(old, Fact.count c)], x.1 ≠ new := fun x hx => List.mem_singleton.mp hx ▸ hne
  have hnew (k : Nat) : ∀ x ∈ [(new, Fact.atMost k)], x.1 ≠ old := fun x hx =>
    List.mem_singleton.mp hx ▸ hne.symm
  have hswap {x y : PageId × Fact} : [y, x] ⊆ [x, y] := (List.Perm.swap x y []).subset
  have hreset : Follows (Known stray n [(old, .count c), (new, .atMost 1)])
      (track (editBranch old (Branch.setRight PageId.invalid)))
      (editBranch old (Branch.setRight PageId.invalid))
      (fun _ => Known stray n [(old, .count c), (new, .atMost 1)]) (Failing stray) := by
    refine .track ?_ (tidy_editBranch old (Branch.modest_setRight _))
    refine ends_editBranch_fact (.count c) (.count c) (Branch.modest_setRight _) ?_ (hnew 1)
    exact fun page hpage => (Branch.yields_setRight _).imp fun _ hafter => hafter.trans hpage
  have hshrink (hc : c ≤ Branch.maxKeys) :
      Follows (Known stray n [(old, .count c), (new, .atMost 2)]) (track (shrink old))
        (shrink old) (fun _ => Known stray n [(old, .atMost 1), (new, .atMost 2)])
        (Failing stray) :=
    .track (ends_shrink old hc hfull (hnew 2)) ((tidy_editBranch old modest_dropCell).bind fun _ =>
      tidy_editBranch old (modest_lastCellToRight old))
  refine (follows_branch old).bind fun node => .fact fun _ => ?_
  refine (follows_forget (hinsert new node.right 0 [(old, .count c)] (by decide) hold)
    ?_).bind fun _ => (follows_forget hreset hswap).bind fun _ => ?_
  · exact List.subset_cons_of_subset _ hswap
  refine (follows_branch old).bind fun node => .fact fun ⟨_, hnode, hon⟩ => ?_
  obtain rfl : node.count = c := hon (old, .count c) List.mem_cons_self rfl
  refine .lift_bind (Branch.safe_cellChild (by decide)) fun moved _ => ?_
  refine (follows_forget (hinsert new moved 1 [(old, .count node.count)] (by decide) hold)
    ?_).bind fun _ => follows_forget (hshrink hnode) hswap
  exact List.subset_cons_of_subset _ hswap

/-- Both halves have room for the child. -/
theorem follows_intoHalf (hinsert : Attaches stray n insert) (child : PageId)
    {destination : PageId} (hdestination : destination = old ∨ destination = new) :
    Follows (Known stray n [(old, .atMost 1), (new, .atMost 2)]) (insert destination child)
      (attachTo destination child) (fun _ => Known stray n []) (Failing stray) := by
  have hroom (k : Nat) (hk : k < Branch.maxKeys) (id : PageId) :
      Follows (Known stray n [(id, .atMost k)]) (insert id child) (attachTo id child)
        (fun _ => Known stray n []) (Failing stray) :=
    (hinsert id child k [] hk nofun).imp fun _ _ hafter => hafter.forget (Nat.le_refl n)
  rcases hdestination with rfl | rfl
  · exact follows_forget (hroom 1 (by decide) _) (List.cons_subset_cons _ (List.nil_subset _))
  · exact follows_forget (hroom 2 (by decide) _) (List.subset_cons_self _ _)

/-- A page that has become an empty branch counts nothing. -/
theorem follows_init (hF : ∀ x ∈ F, x.1 ≠ new) : Follows (Known stray n F)
    (track (Pager.edit new Branch.init)) (Pager.edit new Branch.init)
    (fun _ => Known stray n (F ++ [(new, .atMost 0)])) (Failing stray) := by
  have hflag := Branch.modest_init.unraised new
  refine .track (ends_edit (fun _ _ => hflag _ (.ok ()) _) (fun page _ => ?_) fun x hx hne => ?_)
    (.edit hflag)
  · refine Branch.yields_init.imp fun after hafter x hx hid => ?_
    rcases List.mem_append.mp hx with hx | hx
    · exact absurd hid (hF x hx)
    · obtain rfl := List.mem_singleton.mp hx
      exact Nat.le_of_eq hafter
  · rcases List.mem_append.mp hx with hx | hx
    · exact hx
    · exact absurd (congrArg Prod.fst (List.mem_singleton.mp hx)) hne

/-- One split and what comes after it.  Of the links that it calls for, the last one goes to a
    branch of which nothing is known. -/
theorem follows_splitWith {branches : Nat} {parent : PageId} (child : PageId)
    (hinsert : n < maxPages → Attaches stray (n + 1) insert)
    (hlast : n < maxPages → ∀ parent child, Follows (Known stray (n + 1) []) (insert parent child)
      (linkWithin branches parent child) (fun _ => Known stray (n + 1) []) (Failing stray)) :
    Follows (Known stray n [(parent, .count Branch.maxKeys)]) (splitWith insert parent child)
      (do
        match ← splitBranch parent child with
        | none => return ()
        | some (grandparent, new) => linkWithin branches grandparent new)
      (fun _ => Known stray n []) (Failing stray) := by
  rw [splitWith, splitBranch]
  simp only [bind_assoc]
  refine (follows_maxKey child).bind fun childMax => ?_
  refine (Follows.track (ends_isRoot parent) (tidy_isRoot (W := Unraised) parent)).bind
    fun splittingRoot => .fact fun hroot => ?_
  refine follows_takePage.bind fun new => .fact fun hnew => ?_
  obtain ⟨-, hmax, hfresh⟩ := hnew
  have hlt : parent.index < new.index := hfresh _ List.mem_cons_self
  have hnew : new ≠ PageId.root := fun he => Nat.not_lt_zero _ (he ▸ hlt)
  have hne : parent ≠ new := fun he => Nat.ne_of_lt hlt (congrArg _ he)
  refine (follows_init fun x hx => List.mem_singleton.mp hx ▸ hne).bind fun _ => ?_
  refine (Follows.track (ends_prepareSplit hnew hne hroot)
    (tidy_prepareSplit parent new splittingRoot)).bind ?_
  rintro ⟨old, grandparent⟩ ledger ⟨c, hp, hother, hfull⟩
  refine ((follows_moveWith (hinsert hmax) hother hfull).bind fun _ =>
    (follows_maxKey old).bind fun oldMax => ?_) ledger hp
  refine (follows_intoHalf (hinsert hmax) child ?_).bind fun _ =>
    (follows_maxKey old).bind fun splitMax => ?_
  · split
    · exact .inl rfl
    · exact .inr rfl
  split
  · simp only [bind_assoc, pure_bind, bind_pure_unit]
    refine (follows_editBranch (Branch.modest_setKey 0 splitMax) fun _ _ => ?_).imp
      fun _ _ hafter => hafter.forget (Nat.le_succ n)
    exact (Branch.yields_setKey splitMax (by decide)).imp fun _ _ => trivial
  · simp only [bind_assoc, pure_bind]
    refine (follows_editBranch (Branch.modest_replaceKeyOf grandparent old splitMax) ?_).bind
      fun _ => (hlast hmax grandparent new).imp fun _ _ hafter => hafter.forget (Nat.le_succ n)
    exact fun _ hcount => Branch.yields_replaceKeyOf grandparent old splitMax hcount

/-- The recursion is the loop: one of the pages that were free is gone with every step of it. -/
theorem follows_cascade {depth branches : Nat} (hdepth : maxPages - n < depth)
    (hbranches : maxPages - n < branches) (parent child : PageId) :
    Follows (Known stray n []) (cascade depth parent child) (linkWithin branches parent child)
      (fun _ => Known stray n []) (Failing stray) := by
  induction depth generalizing n branches parent child with
  | zero => exact absurd hdepth (Nat.not_lt_zero _)
  | succ depth ih =>
    cases branches with
    | zero => exact absurd hbranches (Nat.not_lt_zero _)
    | succ branches =>
      refine (follows_branch parent).bind fun node => .fact fun ⟨hid, hnode, _⟩ => ?_
      subst hid
      split
      · rename_i hroom
        refine (Follows.track (ends_attach child hroom (F := []) nofun)
          (tidy_attach node child)).imp ?_
        exact fun _ _ hafter => hafter.forget (Nat.le_refl n)
      · rename_i hfull
        have hcount : node.count = Branch.maxKeys := Nat.le_antisymm hnode (Nat.not_lt.mp hfull)
        rw [hcount]
        refine follows_splitWith child (fun hn => ?_) fun hn parent child => ih ?_ ?_ parent child
        · -- A page was taken, so that the calls may nest once more.
          obtain ⟨depth, rfl⟩ : ∃ d, depth = d + 1 := ⟨depth - 1, by omega⟩
          exact fun id child c F hc hF => follows_attachTo depth child hc hF
        · omega
        · omega

end Known

/-! ## Inserting -/

namespace Tree

/-- Splits a full leaf around a new cell.  The new half is linked by `insert`. -/
def splitLeafWith (insert : PageId → PageId → LedgerM Unit) (old : PageId) (cell : Nat)
    (key : UInt32) (value : List UInt8) : LedgerM Unit := do
  let oldMax ← track (maxKey old)
  let before ← track (leaf old)
  let cells := (← before.cells).insertIdx cell (cellOf key value)
  let new ← track Pager.allocate
  let (lower, upper) := cells.splitAt Leaf.lowerHalf
  track <| Pager.edit new do
    Leaf.init
    Header.setParent before.parent
    Leaf.setNext before.next
    Leaf.setCells upper
    Leaf.setCount upper.length
  track <| editLeaf old do
    Leaf.setCells lower
    Leaf.setCount lower.length
    Leaf.setNext (some new)
  if before.isRoot then track (growRoot new)
  else
    let newMax ← track (maxKey old)
    track (editBranch before.parent (Branch.replaceKey before.parent oldMax newMax))
    insert before.parent new

/-- Inserts a key with a ledger of the splits.  The calls of `cascade` may nest `depth` deep. -/
def insertTracked (depth : Nat) (key : UInt32) (value : List UInt8) : LedgerM Unit := do
  let cursor ← track (findKey key)
  if (← track cursor.key) = some key then refuse (.duplicateKey key)
  if value.length ≠ Leaf.valueSize then
    refuse (.valueSizeMismatch Leaf.valueSize value.length)
  let count := (← track (leaf cursor.page)).count
  if count < cursor.cell then refuse (.cellOutOfRange cursor.page cursor.cell count)
  if Leaf.maxCells ≤ count then
    track (ensureRoom cursor.page)
    splitLeafWith (cascade depth) cursor.page cursor.cell key value
  else track (editLeaf cursor.page (Leaf.insertCell cursor.page cursor.cell key value))

end Tree

namespace Known

open RowStore.Tree

variable {stray : Prop} {n : Nat} {insert : PageId → PageId → LedgerM Unit}

theorem follows_link {depth : Nat} (hdepth : maxPages - n < depth) (parent child : PageId) :
    Follows (Known stray n []) (cascade depth parent child) (link parent child)
      (fun _ => Known stray n []) (Failing stray) := by
  intro ledger hp
  have hn := hp.numPages_le
  have hknown : Known stray ledger.pager.numPages [] ledger.pager :=
    ⟨hp.counted, hp.flags, Nat.le_refl _, nofun⟩
  refine (follows_cascade ?_ (Nat.lt_succ_self _) parent child).imp ?_ ledger hknown
  · omega
  · exact fun _ _ hafter => hafter.forget hn

/-- A full leaf and one cell more make two halves that are leaves. -/
theorem fit_halves {cells : List (List UInt8)} {cell : Nat} {added : List UInt8}
    (hlen : cells.length = Leaf.maxCells) (hcell : cell ≤ Leaf.maxCells)
    (hcells : ∀ c ∈ cells, c.length = Leaf.cellSize) (hadded : added.length = Leaf.cellSize) :
    let whole := cells.insertIdx cell added
    (whole.take Leaf.lowerHalf).length ≤ Leaf.maxCells ∧
      (whole.drop Leaf.lowerHalf).length ≤ Leaf.maxCells ∧
      ∀ c ∈ whole, c.length = Leaf.cellSize := by
  have hle : cell ≤ cells.length := hlen ▸ hcell
  have hwhole : (cells.insertIdx cell added).length = 14 := by
    rw [List.length_insertIdx_of_le_length hle, hlen]
    rfl
  refine ⟨?_, ?_, fun c hc => ?_⟩
  · rw [List.length_take, hwhole]
    decide
  · rw [List.length_drop, hwhole]
    decide
  · rcases (List.mem_insertIdx hle).mp hc with rfl | hc
    · exact hadded
    · exact hcells c hc

/-- The leaf is as full as it was found, so that both halves fit their pages. -/
theorem follows_splitLeafWith {old : PageId} {cell : Nat} {value : List UInt8} (key : UInt32)
    (hcell : cell ≤ Leaf.maxCells) (hvalue : value.length = Leaf.valueSize)
    (hinsert : ∀ parent new, Follows (Known stray n []) (insert parent new) (link parent new)
      (fun _ => Known stray n []) (Failing stray)) :
    Follows (Known stray n [(old, .count Leaf.maxCells)])
      (splitLeafWith insert old cell key value) (splitLeaf old cell key value)
      (fun _ => Known stray n []) (Failing stray) := by
  rw [splitLeafWith, splitLeaf]
  refine (follows_maxKey old).bind fun oldMax => ?_
  refine (follows_leaf old).bind fun before => .fact fun hread => ?_
  obtain ⟨-, hbefore, hon⟩ := hread
  have hfull : before.count = Leaf.maxCells := hon (old, .count _) List.mem_cons_self rfl
  refine .lift_bind (Leaf.safe_cells hbefore) fun cells hcut => ?_
  obtain ⟨hlen, hcells⟩ := hcut
  have hadded : (cellOf key value).length = Leaf.cellSize := by
    rw [cellOf, List.length_append, hvalue]
    rfl
  obtain ⟨hlower, hupper, hwhole⟩ := fit_halves (hlen.trans hfull) hcell hcells hadded
  simp only [List.splitAt_eq]
  refine (Follows.track ends_allocate tidy_allocate).bind fun new => .fact fun _ => ?_
  refine (follows_edit (modest_fresh _ _ _) fun _ => ?_).bind fun _ => ?_
  · exact Leaf.yields_fresh _ _ hupper fun c hc => hwhole c (List.mem_of_mem_drop hc)
  refine (follows_editLeaf (modest_refill new _) fun _ _ => ?_).bind fun _ => ?_
  · exact Leaf.yields_refill _ hlower fun c hc => hwhole c (List.mem_of_mem_take hc)
  split
  · exact (follows_growRoot new).imp fun _ _ hafter => hafter.forget (Nat.le_succ n)
  · refine (follows_maxKey old).bind fun newMax => ?_
    refine (follows_editBranch (Branch.modest_replaceKey _ oldMax newMax) fun _ hcount => ?_).bind
      fun _ => (hinsert before.parent new).mono fun _ hafter => hafter.forget (Nat.le_succ n)
    exact Branch.yields_replaceKey _ _ _ hcount

/-- With as many calls nested as there are free pages, an insert comes to its end. -/
theorem follows_insert {depth : Nat} (hdepth : maxPages - n < depth) (key : UInt32)
    (value : List UInt8) : Follows (Known stray n []) (insertTracked depth key value)
      (Tree.insert key value) (fun _ => Known stray n []) (Failing stray) := by
  rw [insertTracked, Tree.insert]
  refine (follows_reading (safe_findKey key) fun _ => tidy_findKey key).bind fun cursor => ?_
  refine (follows_reading cursor.safe_key fun _ => tidy_cursorKey cursor).bind fun _ => ?_
  refine .guard fun _ => .guard fun hvalue => ?_
  replace hvalue : value.length = Leaf.valueSize := Decidable.not_not.mp hvalue
  refine (follows_leaf cursor.page).bind fun node => .fact fun ⟨_, hnode, _⟩ =>
    .guard fun hcell => ?_
  replace hcell : cursor.cell ≤ node.count := Nat.not_lt.mp hcell
  split
  · rename_i hfull
    have hcount : node.count = Leaf.maxCells := Nat.le_antisymm hnode hfull
    rw [hcount]
    refine (follows_reading (safe_ensureRoom _) fun _ => tidy_ensureRoom _).bind fun _ => ?_
    exact follows_splitLeafWith key (hcount ▸ hcell) hvalue fun parent new =>
      follows_link hdepth parent new
  · rename_i hroom
    refine follows_editLeaf (Leaf.modest_insertCell _ _ key value) fun page hpage => ?_
    have hcount : Leaf.countIn page = node.count :=
      hpage (cursor.page, .count _) List.mem_cons_self rfl
    exact Leaf.yields_insertCell _ key hcount (Nat.not_le.mp hroom) hcell hvalue

end Known

namespace Tree

/-- **Inserts come to their end.**  Let the pages of a pager hold anything at all.  If the calls
    of the recursion may nest more deeply than there are free pages, they never nest too deeply,
    and an insert does what the recursion does.  There is a page more for every branch that was
    split, so that there are no more splits than there were free pages.  That a pager counts its
    pages holds from its opening on, whatever is done with them (`Pager.counted_ofImage`,
    `Pager.Strides.counted`). -/
theorem insert_splits_take_pages {pager : Pager} (hp : pager.Counted) {depth : Nat}
    (hdepth : pager.freePages < depth) (key : UInt32) (value : List UInt8) :
    ∃ (r : Except Failure Unit) (after : Pager) (splits : Nat),
      (insertTracked depth key value).run ⟨pager, 0⟩ = outcome r ⟨after, splits⟩ ∧
      (insert key value).run pager = outcome r after ∧ r ≠ .error .endless ∧
      pager.numPages + splits ≤ after.numPages ∧ splits ≤ pager.freePages := by
  have hknown : Known True pager.numPages [] pager := ⟨hp, .inl trivial, Nat.le_refl _, nofun⟩
  obtain ⟨r, after, splits, hc, hm, hnum, hmax, hpost⟩ :=
    Known.follows_insert hdepth key value ⟨pager, 0⟩ hknown
  rw [Nat.zero_add] at hc
  replace hmax : splits = 0 ∨ pager.numPages + splits ≤ maxPages := hmax
  refine ⟨r, after, splits, hc, hm, ?_, hnum, ?_⟩
  · rintro rfl
    rcases hpost with herror | ⟨hfault, -⟩
    · cases herror
    · cases hfault
  · rw [Pager.freePages]
    omega

/-- Four full leaves below a full root. -/
def fullRoot : Subtree 1 :=
  .branch PageId.root [.leaf ⟨1⟩ (some ⟨2⟩) (samples 13),
    .leaf ⟨2⟩ (some ⟨3⟩) ((samples 26).drop 13), .leaf ⟨3⟩ (some ⟨4⟩) ((samples 39).drop 26),
    .leaf ⟨4⟩ none ((samples 52).drop 39)]

theorem formed_samples_drop (id : PageId) (next : Option PageId) {n k : Nat}
    (hlen : n - k = Leaf.maxCells) :
    (Subtree.leaf id next ((samples n).drop k)).Formed false := by
  have hcount : ((samples n).drop k).length = Leaf.maxCells := by
    rw [List.length_drop, samples, List.length_map, List.length_range, hlen]
  refine (Subtree.formed_leaf ..).mpr ⟨Nat.le_of_eq hcount, fun _ hnil => ?_,
    fun x hx => length_value_of_mem_samples (List.mem_of_mem_drop hx)⟩
  rw [hnil] at hcount
  exact absurd hcount (by decide)

theorem sound_fullRoot : fullRoot.Sound where
  root := rfl
  formed := by
    refine (Subtree.formed_branch ..).mpr ⟨by decide, by decide, ?_⟩
    simp only [List.forall_mem_cons]
    exact ⟨formed_samples_drop _ _ (k := 0) rfl, formed_samples_drop _ _ rfl,
      formed_samples_drop _ _ rfl, formed_samples_drop _ _ rfl, nofun⟩
  ascending := by
    have hkeys : fullRoot.keys = (List.range 52).map Nat.toUInt32 := rfl
    rw [hkeys]
    decide
  chained := ⟨rfl, rfl, rfl, rfl⟩

/-- Wherever a new key belongs, the leaf, the root and the page for the new root are taken. -/
theorem needed_fullRoot {key : UInt32} {place : Trail 1 0} {id : PageId} {next : Option PageId}
    {a b : List Entry} (hl : Locates key fullRoot place id next a b) :
    place.needed (a ++ b).length = 3 := by
  have hfill := hl.fill_eq
  cases place with
  | down parent left right up =>
    cases up with
    | down _ _ _ up => exact absurd up.le (by decide)
    | top =>
      have hchildren : left ++ Subtree.leaf id next (a ++ b) :: right = fullRoot.children :=
        congrArg BranchNode.children hfill
      have hlen : left.length + (right.length + 1) = 4 := by
        rw [← List.length_cons, ← List.length_append, hchildren]
        rfl
      have hfull : ∀ t ∈ fullRoot.children, t.leaves.entries.length = 13 := by decide
      have hleaf := hfull (Subtree.leaf id next (a ++ b)) (hchildren ▸ by simp)
      rw [Subtree.leaves_leaf, Leaves.entries_cons, Leaves.entries_nil, List.append_nil] at hleaf
      have hroom : ¬left.length + right.length < 3 := by omega
      rw [Trail.needed, hleaf, if_neg (by decide), Trail.cost, if_neg hroom]
      rfl

theorem exists_stores_fullRoot :
    ∃ pager : Pager, pager.Stores fullRoot PageId.root ∧ pager.numPages = 5 := by
  have hleaf {n k : Nat} {next : Option PageId} (hnext : next ≠ some PageId.root)
      (hlen : n - k = Leaf.maxCells) : ∃ page : Page, reading page =
        ⟨some (.leaf false next ((samples n).drop k)), PageId.root⟩ := by
    obtain ⟨hle, -, hvalue⟩ := (Subtree.formed_leaf ..).mp (formed_samples_drop ⟨1⟩ next hlen)
    exact Leaf.exists_page false next _ PageId.root hnext hle hvalue
  have hheap : fullRoot.heap true PageId.root =
      [(PageId.root, ⟨some (.branch true [12, 25, 38] [⟨1⟩, ⟨2⟩, ⟨3⟩, ⟨4⟩]), PageId.root⟩),
        (⟨1⟩, ⟨some (.leaf false (some ⟨2⟩) ((samples 13).drop 0)), PageId.root⟩),
        (⟨2⟩, ⟨some (.leaf false (some ⟨3⟩) ((samples 26).drop 13)), PageId.root⟩),
        (⟨3⟩, ⟨some (.leaf false (some ⟨4⟩) ((samples 39).drop 26)), PageId.root⟩),
        (⟨4⟩, ⟨some (.leaf false none ((samples 52).drop 39)), PageId.root⟩)] := rfl
  have hpages : ∀ x ∈ fullRoot.heap true PageId.root, ∃ page : Page, reading page = x.2 := by
    rw [hheap]
    simp only [List.forall_mem_cons]
    exact ⟨Branch.exists_page true [(⟨1⟩, 12), (⟨2⟩, 25), (⟨3⟩, 38)] ⟨4⟩ PageId.root (by decide),
      hleaf (by decide) rfl, hleaf (by decide) rfl, hleaf (by decide) rfl, hleaf nofun rfl, nofun⟩
  obtain ⟨file, pager, -, hholds, -⟩ :=
    exists_openAt_heap (n := 5) (by decide) rfl hpages (.head _)
  exact ⟨pager, ⟨sound_fullRoot, hholds.numPages_eq ▸ hholds⟩, hholds.numPages_eq⟩

/-- A leaf below a full root is split, and then the root. -/
theorem insert_splits_take_pages_full : ∃ pager : Pager, pager.Counted ∧ pager.freePages = 95 ∧
    ∃ (after : Pager) (splits : Nat),
      (insertTracked 96 52 (sample 52).value).run ⟨pager, 0⟩ = .ok () ⟨after, splits⟩ ∧
      (insert 52 (sample 52).value).run pager = .ok () after ∧
      after.numPages = pager.numPages + 3 ∧ splits ≤ 3 := by
  obtain ⟨pager, hstores, hnum⟩ := exists_stores_fullRoot
  have hcounted : pager.Counted :=
    ⟨hstores.holds.coherent.loaded_lt, hstores.numPages_lt⟩
  have hfree : pager.freePages = 95 := by
    rw [Pager.freePages, hnum]
    rfl
  obtain ⟨r, after, splits, htracked, hrun, -, hsplits, -⟩ :=
    insert_splits_take_pages hcounted (show pager.freePages < 96 by omega) 52 (sample 52).value
  obtain ⟨r', after', hrun', -, hinserted⟩ := exists_insert hstores 52 (sample 52).value
  obtain ⟨rfl, rfl⟩ := outcome_inj (hrun.symm.trans hrun')
  cases hinserted with
  | duplicate hkey => cases hkey
  | mismatch _ hvalue => exact absurd (length_sample 52) hvalue
  | full _ _ hl hfull =>
    rw [needed_fullRoot hl, hnum] at hfull
    exact absurd hfull (by decide)
  | taken _ _ hl _ hpages =>
    rw [needed_fullRoot hl] at hpages
    exact ⟨pager, hcounted, hfree, after, splits, htracked, hrun, hpages, by omega⟩

end Tree
end RowStore
