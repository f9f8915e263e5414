/-
  RowStore/Proofs/Tree/Verdict.lean
  =================================
  **What a check attests.**  Whatever bytes a store holds, if its check succeeds then the
  pages that the check has met are those of a sound tree, which has as many levels as the
  check went down and no more entries than a scan may come by.

  The walk down attests one subtree for each node, with the separators and parents that
  the node and its children should have.  That no child has a key that belongs to another
  is left to the walk along the chain, which compares all keys with the one before.
-/
import RowStore.Proofs.Tree.Scan
import RowStore.Proofs.Tree.Tidy

namespace RowStore

open Pager (Attests NoChange)

/-- A pager has the pages of a heap in memory, and they say what they should. -/
def Pager.Has (pager : Pager) (H : Heap) : Prop :=
  ∀ x ∈ H, ∃ page, pager.slot x.1 = some page ∧ reading page = x.2

/-- The leaves of a heap as they stand in memory. -/
theorem Pager.Has.leaf {last : Pager} {h : Nat} {t : Subtree h} {b : Bool} {q : PageId}
    (hhas : last.Has (t.heap b q)) {leaf : LeafNode} (hleaf : leaf ∈ t.leaves) :
    ∃ page isRoot, last.slot leaf.id = some page ∧
      Leaf.Says page isRoot leaf.next leaf.entries := by
  obtain ⟨isRoot, parent, hmem⟩ := t.exists_leaf_mem_heap hleaf b q
  obtain ⟨page, hpage, hreading⟩ := hhas _ hmem
  exact ⟨page, isRoot, hpage, (reading_eq_leaf_iff.mp hreading).1⟩

/-- Where keys ascend, no leaf stands twice in a tree. -/
theorem Subtree.Sound.length_leaves_le {last : Pager} {H : Nat} {t : Subtree H} {q : PageId}
    (hs : t.Sound) (hhas : last.Has (t.heap true q)) : t.leaves.length ≤ maxPages := by
  have hpair : t.leaves.Pairwise fun a b =>
      ∀ k ∈ a.entries.map Entry.key, ∀ k' ∈ b.entries.map Entry.key, k < k' := by
    have hkeys := hs.ascending
    rw [Subtree.keys, Leaves.keys, Leaves.entries, List.map_flatMap] at hkeys
    exact (List.pairwise_flatMap.mp hkeys).2
  have hnodup : (t.leaves.map LeafNode.id).Nodup := by
    cases H with
    | zero => exact List.pairwise_singleton _ _
    | succ H =>
      refine List.pairwise_map.mpr (hpair.imp_of_mem fun {a b} ha hb hlt hid => ?_)
      obtain ⟨page, _, hpage, hleaf⟩ := Pager.Has.leaf hhas ha
      obtain ⟨page', _, hpage', hleaf'⟩ := Pager.Has.leaf hhas hb
      rw [← hid] at hpage'
      obtain rfl : page = page' := Option.some.inj (hpage.symm.trans hpage')
      have hentries : a.entries = b.entries := (hleaf.unique hleaf').2.2
      have hformed : t.Formed false := hs.formed
      obtain ⟨entry, hentry⟩ := List.exists_mem_of_ne_nil _
        ((Subtree.formed_of_mem_leaves hformed ha).2 rfl)
      have hkey := List.mem_map_of_mem (f := Entry.key) hentry
      exact UInt32.lt_irrefl _ (hlt _ hkey _ (hentries ▸ hkey))
  have hle := Heap.length_le (H := t.leaves.map fun leaf => (leaf.id, blank)) (n := maxPages)
    (by simpa [Function.comp_def] using hnodup) ?_
  · simpa using hle
  · intro x hx
    obtain ⟨leaf, hleaf, rfl⟩ := List.mem_map.mp hx
    obtain ⟨page, -, hpage, -⟩ := Pager.Has.leaf hhas hleaf
    exact Pager.index_lt_of_slot hpage

namespace Tree

variable {h H : Nat} {last : Pager}

/-! ## Keys -/

theorem checkAscending_ok {id : PageId} {keys : List UInt32}
    (h : checkAscending id keys = .ok ()) : keys.Pairwise (· < ·) := by
  induction keys with
  | nil => exact .nil
  | cons key rest ih =>
    cases rest with
    | nil => exact List.pairwise_singleton _ _
    | cons next rest =>
      rw [checkAscending] at h
      split at h
      · cases h
      · rename_i hlt
        have hrest := ih h
        have hkey : key < next := UInt32.not_le.mp hlt
        refine List.pairwise_cons.mpr ⟨fun k hk => ?_, hrest⟩
        rcases List.mem_cons.mp hk with rfl | hk
        · exact hkey
        · exact UInt32.lt_trans hkey ((List.pairwise_cons.mp hrest).1 k hk)

theorem checkSeparator_ok {id child : PageId} {keys : List UInt32} {index : Nat}
    {childMax key : UInt32} (h : checkSeparator id keys index child childMax = .ok ())
    (hkey : keys[index]? = some key) : key = childMax := by
  rw [checkSeparator, hkey] at h
  dsimp only at h
  split at h
  · assumption
  · cases h

theorem visitLeaf_ok {walk after : Walk} {id : PageId} {isTop : Bool} {depth : Nat}
    {keys : List UInt32} (h : walk.visitLeaf id isTop depth keys = .ok after) :
    keys.Pairwise (· < ·) ∧ walk.leafDepth.getD depth = depth ∧ (isTop = false → keys ≠ []) ∧
      after = { leaves := walk.leaves ++ [id], leafDepth := some depth } := by
  have hvisit := h
  rw [Walk.visitLeaf] at hvisit
  obtain ⟨_, hkeys, hvisit⟩ := exists_of_bind_eq_ok hvisit
  have hdepth : walk.leafDepth.getD depth = depth := by
    cases hwalk : walk.leafDepth with
    | none => rfl
    | some others =>
      by_contra hne
      replace hne : others ≠ depth := hne
      rw [hwalk] at hvisit
      dsimp only at hvisit
      rw [if_pos hne] at hvisit
      cases hvisit
  have hempty : isTop = false → keys ≠ [] := by
    intro htop hnil
    cases hwalk : walk.leafDepth with
    | none =>
      rw [hwalk] at hvisit
      dsimp only at hvisit
      rw [if_pos ⟨hnil, htop⟩] at hvisit
      cases hvisit
    | some others =>
      rw [hwalk, Option.getD_some] at hdepth
      rw [hwalk] at hvisit
      dsimp only at hvisit
      rw [if_neg (not_not.mpr hdepth), if_pos ⟨hnil, htop⟩] at hvisit
      cases hvisit
  rw [visitLeaf_eq id (checkAscending_ok hkeys) hdepth hempty] at h
  exact ⟨checkAscending_ok hkeys, hdepth, hempty, (Except.ok.inj h).symm⟩

theorem pairwise_glue {before after : List UInt32} (hbefore : before.Pairwise (· < ·))
    (hafter : (before.getLast?.toList ++ after).Pairwise (· < ·)) :
    (before ++ after).Pairwise (· < ·) := by
  rcases List.eq_nil_or_concat' before with rfl | ⟨front, last, rfl⟩
  · exact hafter
  · rw [List.getLast?_concat] at hafter
    obtain ⟨-, hrest, hlast⟩ := List.pairwise_append.mp hafter
    replace hlast : ∀ k ∈ after, last < k := hlast last List.mem_cons_self
    refine List.pairwise_append.mpr ⟨hbefore, hrest, fun k hk k' hk' => ?_⟩
    rcases List.mem_append.mp hk with hk | hk
    · have hlt := (List.pairwise_append.mp hbefore).2.2 k hk last List.mem_cons_self
      exact UInt32.lt_trans hlt (hlast k' hk')
    · rw [List.mem_singleton.mp hk]
      exact hlast k' hk'

theorem checkAbove_ok {id : PageId} {previous greatest : Option UInt32} {keys : List UInt32}
    (h : checkAbove id previous keys = .ok greatest) :
    (previous.toList ++ keys).Pairwise (· < ·) := by
  induction keys generalizing previous with
  | nil => cases previous <;> simp
  | cons key rest ih =>
    rw [checkAbove] at h
    split at h
    · cases h
    · rename_i hlt
      have hkey : (previous.toList ++ [key]).Pairwise (· < ·) := by
        cases previous with
        | none => simp
        | some last => simpa using hlt
      have hrest := ih h
      rw [List.append_cons]
      exact pairwise_glue hkey (by simpa using hrest)

/-! ## Nodes -/

section Nodes

theorem attests_isRoot (id : PageId) : Attests last (isRoot id) fun b =>
    ∃ page, last.slot id = some page ∧ Header.rootFlag page = b :=
  (Attests.request id).bind (fun _ => .pure _) fun page hpage => .pure ⟨page, hpage, rfl⟩

theorem attests_parentOf (id : PageId) : Attests last (parentOf id) fun parent =>
    ∃ page, last.slot id = some page ∧ Header.parentOf page = parent :=
  (Attests.request id).bind (fun _ => .pure _) fun page hpage => .pure ⟨page, hpage, rfl⟩

theorem attests_leaf (id : PageId) : Attests last (leaf id) fun node =>
    ∃ page isRoot next entries, last.slot id = some page ∧ node = { id, page } ∧
      Leaf.Says page isRoot next entries := by
  refine (Attests.request id).bind (fun _ => .lift _) fun page hpage => .lift fun node hnode => ?_
  obtain ⟨rfl, isRoot, next, entries, hentries⟩ := Leaf.ofPage_ok hnode
  exact ⟨page, isRoot, next, entries, hpage, rfl, hentries⟩

theorem attests_branch (id : PageId) : Attests last (branch id) fun node =>
    ∃ page isRoot keys children, last.slot id = some page ∧ node = { id, page } ∧
      Branch.Says page isRoot keys children := by
  refine (Attests.request id).bind (fun _ => .lift _) fun page hpage => .lift fun node hnode => ?_
  obtain ⟨rfl, isRoot, keys, children, hchildren⟩ := Branch.ofPage_ok hnode
  exact ⟨page, isRoot, keys, children, hpage, rfl, hchildren⟩

/-- A node as it stands on a page in memory. -/
def Found (last : Pager) (id : PageId) : Node → Prop
  | .leaf leaf => ∃ page isRoot next entries, last.slot id = some page ∧ leaf = { id, page } ∧
      Leaf.Says page isRoot next entries
  | .branch branch => ∃ page isRoot keys children, last.slot id = some page ∧
      branch = { id, page } ∧ Branch.Says page isRoot keys children

theorem attests_node (id : PageId) : Attests last (node id) (Found last id) := by
  refine Attests.bind (P := fun _ => True) (fun _ _ _ _ _ => trivial) ?_ fun kind _ => ?_
  · rintro (_ | _)
    · exact (tidy_branch id).bind fun _ => .pure _
    · exact (tidy_leaf id).bind fun _ => .pure _
  cases kind with
  | leaf => exact (attests_leaf id).bind (fun _ => .pure _) fun _ hleaf => .pure hleaf
  | branch => exact (attests_branch id).bind (fun _ => .pure _) fun _ hbranch => .pure hbranch

theorem attests_checkParent (id expected : PageId) : Attests last (checkParent id expected) fun _ =>
    ∃ page, last.slot id = some page ∧ Header.rootFlag page = false ∧
      Header.parentOf page = expected := by
  refine (attests_isRoot id).bind (fun b => .guard _ ?_) ?_
  · exact (tidy_parentOf id).bind fun actual => .ite (.refuse _) (.pure ())
  rintro b ⟨page, hpage, hroot⟩
  refine .guard fun hb => ?_
  refine (attests_parentOf id).bind (fun actual => .ite (.refuse _) (.pure ())) ?_
  rintro actual ⟨page', hpage', hparent⟩
  obtain rfl : page = page' := Option.some.inj (hpage.symm.trans hpage')
  refine .ite (fun _ => .refuse _) fun hexpected => .pure ⟨page, hpage, ?_, ?_⟩
  · rw [hroot, Bool.eq_false_iff.mpr hb]
  · rw [hparent, not_not.mp hexpected]

end Nodes

/-! ## The walk down -/

section Walks

variable {below : PageId → Walk → PagerM (Option UInt32 × Walk)} {id : PageId} {keys : List UInt32}

/-- What the check of a node attests: the pages of a subtree, whose top names its parent, and
    whose leaves stand on the level of those before and are gathered behind them. -/
structure Checked (last : Pager) (parent : Option PageId) (depth : Nat) (id : PageId)
    (walk : Walk) (answer : Option UInt32 × Walk) {h : Nat} (t : Subtree h) : Prop where
  id_eq : t.id = id
  formed : t.Formed parent.isNone
  greatest : ∀ key, answer.1 = some key → key = t.greatest
  level : walk.leafDepth.getD (depth + h) = depth + h
  gathered : answer.2 =
    { leaves := walk.leaves ++ t.leaves.map LeafNode.id, leafDepth := some (depth + h) }
  pages : ∃ b q, last.Has (t.heap b q) ∧
    ∀ expected, parent = some expected → b = false ∧ q = expected

/-- What the check of the children in slots from `index` on attests. -/
structure CheckedAll (last : Pager) (id : PageId) (depth : Nat) (keys : List UInt32) (index : Nat)
    (children : List PageId) (greatest : Option UInt32) (walk : Walk)
    (answer : Option UInt32 × Walk) {h : Nat} (ts : List (Subtree h)) : Prop where
  ids : ts.map Subtree.id = children
  formed : ∀ t ∈ ts, t.Formed false
  separators : ∀ i key t, keys[index + i]? = some key → ts[i]? = some t → key = t.greatest
  greatest : answer.1 = (ts.map Subtree.greatest).getLast?.or greatest
  level : walk.leafDepth.getD (depth + h) = depth + h
  gathered : answer.2 = { leaves := walk.leaves ++ (ts.flatMap Subtree.leaves).map LeafNode.id
                          leafDepth := some (depth + h) }
  pages : ∀ t ∈ ts, last.Has (t.heap false id)

theorem CheckedAll.cons {depth index : Nat} {child : PageId} {rest : List PageId}
    {greatest : Option UInt32} {walk walk' : Walk} {childMax : UInt32}
    {answer : Option UInt32 × Walk} {t : Subtree h} {ts : List (Subtree h)}
    (ht : Checked last (some id) depth child walk (some childMax, walk') t)
    (hseparator : checkSeparator id keys index child childMax = .ok ())
    (hts : CheckedAll last id depth keys (index + 1) rest (some childMax) walk' answer ts) :
    CheckedAll last id depth keys index (child :: rest) greatest walk answer (t :: ts) where
  ids := by rw [List.map_cons, ht.id_eq, hts.ids]
  formed := by
    intro c hc
    rcases List.mem_cons.mp hc with rfl | hc
    · exact ht.formed
    · exact hts.formed c hc
  separators := by
    intro i key c hkey hc
    cases i with
    | zero =>
      obtain rfl : t = c := Option.some.inj hc
      rw [checkSeparator_ok hseparator hkey]
      exact ht.greatest childMax rfl
    | succ i =>
      refine hts.separators i key c ?_ hc
      rw [Nat.add_assoc, Nat.add_comm 1]
      exact hkey
  greatest := by
    rw [hts.greatest, ht.greatest childMax rfl, List.map_cons, List.getLast?_cons]
    cases (ts.map Subtree.greatest).getLast? <;> rfl
  level := ht.level
  gathered := by
    have hgathered : walk' = _ := ht.gathered
    rw [hts.gathered, hgathered, List.flatMap_cons, List.map_append, List.append_assoc]
  pages := by
    intro c hc
    rcases List.mem_cons.mp hc with rfl | hc
    · obtain ⟨b, q, hpages, hparent⟩ := ht.pages
      obtain ⟨rfl, rfl⟩ := hparent id rfl
      exact hpages
    · exact hts.pages c hc

section Children

variable {levels depth : Nat} (hloads : ∀ child walk, Tidy NoChange [] (below child walk))
  (hbelow : ∀ child walk, Attests last (below child walk) fun answer =>
    ∃ h, h < levels ∧ ∃ t : Subtree h, Checked last (some id) depth child walk answer t)

include hloads hbelow

/-- One child is checked, and then the others, of which it is known on which level their
    leaves have to stand. -/
theorem attests_checkChildren_cons {index : Nat} {child : PageId} {rest : List PageId}
    {greatest : Option UInt32} {walk : Walk}
    (hrest : ∀ {h : Nat} (childMax : UInt32) (walk' : Walk), walk'.leafDepth = some (depth + h) →
      Attests last (checkChildren below id keys (index + 1) rest (some childMax) walk')
        fun answer => ∃ ts : List (Subtree h),
          CheckedAll last id depth keys (index + 1) rest (some childMax) walk' answer ts) :
    Attests last (checkChildren below id keys index (child :: rest) greatest walk) fun answer =>
      ∃ h, h < levels ∧ ∃ (t : Subtree h) (ts : List (Subtree h)),
        CheckedAll last id depth keys index (child :: rest) greatest walk answer (t :: ts) := by
  rw [checkChildren]
  refine (hbelow child walk).bind ?_ ?_
  · rintro ⟨childMax, walk'⟩
    cases childMax with
    | none => exact .refuse _
    | some childMax =>
      exact .lift_bind fun _ _ => tidy_checkChildren hloads _ _ _ _ _ _
  rintro ⟨childMax, walk'⟩ ⟨h, hlevels, t, ht⟩
  cases childMax with
  | none => exact .refuse _
  | some childMax =>
    have hlevel : walk'.leafDepth = some (depth + h) := by
      rw [show walk' = _ from ht.gathered]
    refine (Attests.lift fun _ hseparator => hseparator).bind
      (fun _ => tidy_checkChildren hloads _ _ _ _ _ _) fun _ hseparator => ?_
    refine (hrest childMax walk' hlevel).mono ?_
    rintro answer ⟨ts, hts⟩
    exact ⟨h, hlevels, t, ts, .cons ht hseparator hts⟩

theorem attests_checkChildren (index : Nat) (children : List PageId) (greatest : Option UInt32)
    (walk : Walk) (hwalk : walk.leafDepth = some (depth + h)) :
    Attests last (checkChildren below id keys index children greatest walk) fun answer =>
      ∃ ts : List (Subtree h),
        CheckedAll last id depth keys index children greatest walk answer ts := by
  induction children generalizing index greatest walk h with
  | nil =>
    rw [checkChildren]
    refine .pure ⟨[], rfl, by simp, by simp, by simp, ?_, ?_, by simp⟩
    · rw [hwalk, Option.getD_some]
    · simp [← hwalk]
  | cons child rest ih =>
    refine (attests_checkChildren_cons hloads hbelow fun childMax walk' =>
      ih (index + 1) (some childMax) walk').mono ?_
    rintro answer ⟨h', -, t, ts, hts⟩
    -- The leaves of this child stand on the level that is known already.
    have hlevel := hts.level
    rw [hwalk, Option.getD_some] at hlevel
    obtain rfl : h = h' := Nat.add_left_cancel hlevel
    exact ⟨t :: ts, hts⟩

end Children

theorem attests_checkTop (parent : Option PageId) (id : PageId) :
    Attests last (match parent with
      | some expected => checkParent id expected
      | none => pure ()) fun _ => ∀ page expected, last.slot id = some page →
        parent = some expected →
          Header.rootFlag page = false ∧ Header.parentOf page = expected := by
  cases parent with
  | none => exact .pure fun _ _ _ hnone => nomatch hnone
  | some expected =>
    refine (attests_checkParent id expected).mono ?_
    rintro _ ⟨page, hpage, hroot, hparent⟩ page' expected' hpage' hexpected
    obtain rfl : page = page' := Option.some.inj (hpage.symm.trans hpage')
    obtain rfl : expected = expected' := Option.some.inj hexpected
    exact ⟨hroot, hparent⟩

section Node

variable {parent : Option PageId} {depth : Nat} {page : Page} {walk : Walk}

theorem checked_leaf {isRoot : Bool} {next : Option PageId} {entries : List Entry} {walk' : Walk}
    (hpage : last.slot id = some page) (hnode : Leaf.Says page isRoot next entries)
    (htop : ∀ expected, parent = some expected →
      Header.rootFlag page = false ∧ Header.parentOf page = expected)
    (hvisit : walk.visitLeaf id parent.isNone depth (entries.map Entry.key) = .ok walk') :
    Checked last parent depth id walk ((entries.map Entry.key).getLast?, walk')
      (Subtree.leaf id next entries) := by
  obtain ⟨hkeys, hdepth, hne, hwalk⟩ := visitLeaf_ok hvisit
  refine ⟨rfl, ?_, ?_, hdepth, hwalk, Header.rootFlag page, Header.parentOf page, ?_, htop⟩
  · refine (Subtree.formed_leaf ..).mpr ⟨hnode.length_le, fun htop hnil => ?_, ?_⟩
    · exact hne htop (List.map_eq_nil_iff.mpr hnil)
    · exact fun entry hentry => hnode.length_value hentry
  · intro key hkey
    replace hkey : (entries.map Entry.key).getLast? = some key := hkey
    rw [Subtree.greatest_leaf, hkey, Option.getD_some]
  · intro x hx
    obtain rfl := List.mem_singleton.mp hx
    refine ⟨page, hpage, reading_eq_leaf_iff.mpr ⟨?_, rfl⟩⟩
    rw [hnode.root]
    exact hnode

/-- The separators that were checked are the greatest keys of all children but the last. -/
theorem separators_eq {ts : List (Subtree h)} (hlen : ts.length = keys.length + 1)
    (hseparators : ∀ i key t, keys[0 + i]? = some key → ts[i]? = some t → key = t.greatest) :
    (ts.map Subtree.greatest).dropLast = keys := by
  apply List.ext_getElem
  · rw [List.length_dropLast, List.length_map, hlen, Nat.add_sub_cancel]
  · intro i hi hi'
    have hkey : keys[0 + i]? = some keys[i] := by
      rw [Nat.zero_add]
      exact List.getElem?_eq_getElem hi'
    rw [List.getElem_dropLast, List.getElem_map]
    exact (hseparators i _ _ hkey (List.getElem?_eq_getElem (by omega))).symm

theorem checked_branch {isRoot : Bool} {children : List PageId} {answer : Option UInt32 × Walk}
    {ts : List (Subtree h)} (hpage : last.slot id = some page)
    (hnode : Branch.Says page isRoot keys children)
    (htop : ∀ expected, parent = some expected →
      Header.rootFlag page = false ∧ Header.parentOf page = expected)
    (hts : CheckedAll last id (depth + 1) keys 0 children none walk answer ts) :
    Checked last parent depth id walk answer (Subtree.branch id ts) := by
  have hlen : ts.length = keys.length + 1 := by
    rw [← hnode.length_children, ← hts.ids, List.length_map]
  have hkeys := separators_eq hlen hts.separators
  have hne : ts ≠ [] := List.ne_nil_of_length_pos (by omega)
  have hlevel : depth + (h + 1) = depth + 1 + h := by omega
  refine ⟨rfl, ?_, ?_, ?_, ?_, Header.rootFlag page, Header.parentOf page, ?_, htop⟩
  · have hle := hnode.length_le
    exact (Subtree.formed_branch ..).mpr ⟨by omega, by omega, hts.formed⟩
  · intro key hkey
    rw [hts.greatest, Option.or_none] at hkey
    rw [Subtree.greatest_branch, hkey, Option.getD_some]
  · rw [hlevel]
    exact hts.level
  · rw [hlevel]
    exact hts.gathered
  · rw [Subtree.heap_branch_of_ne_nil hne, hkeys, hts.ids]
    intro x hx
    rcases List.mem_cons.mp hx with rfl | hx
    · refine ⟨page, hpage, reading_eq_branch_iff.mpr ⟨?_, rfl⟩⟩
      rw [hnode.root]
      exact hnode
    · obtain ⟨t, ht, hx⟩ := List.mem_flatMap.mp hx
      exact hts.pages t ht x hx

end Node

theorem attests_checkBody {levels depth : Nat} {parent : Option PageId} {id : PageId} {walk : Walk}
    (hbelow : ∀ child walk, Attests last (checkNode levels (depth + 1) (some id) child walk)
      fun answer => ∃ h, h < levels ∧ ∃ t : Subtree h,
        Checked last (some id) (depth + 1) child walk answer t)
    (htop : ∀ page expected, last.slot id = some page → parent = some expected →
      Header.rootFlag page = false ∧ Header.parentOf page = expected) {node : Node}
    (hnode : Found last id node) :
    Attests last (checkBody levels depth parent id walk node) fun answer =>
      ∃ h, h < levels + 1 ∧ ∃ t : Subtree h, Checked last parent depth id walk answer t := by
  have hloads := tidy_checkNode (W := NoChange) levels (depth + 1) (some id)
  cases node with
  | leaf leaf =>
    obtain ⟨page, isRoot, next, entries, hpage, rfl, hentries⟩ := hnode
    refine (Attests.lift fun _ hkeys => hkeys).bind
      (fun _ => .lift_bind fun _ _ => .pure _) fun keys hkeys => ?_
    obtain rfl := Except.ok.inj (hentries.keys_eq.symm.trans hkeys)
    refine (Attests.lift fun _ hvisit => hvisit).bind (fun _ => .pure _) fun walk' hvisit => ?_
    exact .pure ⟨0, Nat.succ_pos levels, _, checked_leaf hpage hentries (htop page · hpage) hvisit⟩
  | branch branch =>
    obtain ⟨page, isRoot, keys, children, hpage, rfl, hchildren⟩ := hnode
    refine (Attests.lift fun _ hkeys => hkeys).bind (fun _ => .lift_bind fun _ _ =>
      .lift_bind fun _ _ => tidy_checkChildren hloads _ _ _ _ _ _) fun keys hkeys => ?_
    obtain rfl := Except.ok.inj (hchildren.keys_eq.symm.trans hkeys)
    refine (Attests.lift fun _ hlisted => hchildren.children_ok hlisted).bind (fun _ =>
      .lift_bind fun _ _ => tidy_checkChildren hloads _ _ _ _ _ _) ?_
    rintro children' rfl
    refine (Attests.lift fun _ hascending => hascending).bind
      (fun _ => tidy_checkChildren hloads _ _ _ _ _ _) fun _ _ => ?_
    -- A branch has at least the right child.
    obtain ⟨child, rest, rfl⟩ : ∃ child rest, children' = child :: rest :=
      List.exists_cons_of_length_pos (by rw [hchildren.length_children]; exact Nat.succ_pos _)
    refine (attests_checkChildren_cons hloads hbelow fun childMax walk' hwalk =>
      attests_checkChildren hloads hbelow _ _ _ walk' hwalk).mono ?_
    rintro answer ⟨h, hlevels, t, ts, hts⟩
    exact ⟨h + 1, Nat.succ_lt_succ hlevels, _,
      checked_branch hpage hchildren (htop page · hpage) hts⟩

theorem attests_checkNode (levels depth : Nat) (parent : Option PageId) (id : PageId)
    (walk : Walk) : Attests last (checkNode levels depth parent id walk) fun answer =>
      ∃ h, h < levels ∧ ∃ t : Subtree h, Checked last parent depth id walk answer t := by
  induction levels generalizing depth parent id walk with
  | zero => exact .refuse _
  | succ levels ih =>
    have hbody := fun node =>
      tidy_checkBody (W := NoChange) (tidy_checkNode levels) depth parent id walk node
    rw [checkNode_eq]
    refine (attests_checkTop parent id).bind
      (fun _ => (tidy_node id).bind hbody) fun _ htop => ?_
    refine (attests_node id).bind hbody fun node hnode => ?_
    exact attests_checkBody (ih (depth + 1) (some id)) htop hnode

end Walks

/-! ## The walk along the chain -/

theorem attests_checkChain (previous : Option UInt32) {leaves : Leaves}
    (hpages : ∀ leaf ∈ leaves, ∃ page isRoot, last.slot leaf.id = some page ∧
      Leaf.Says page isRoot leaf.next leaf.entries) :
    Attests last (checkChain previous (leaves.map LeafNode.id)) fun _ =>
      leaves.Chained ∧ (previous.toList ++ leaves.keys).Pairwise (· < ·) := by
  induction leaves generalizing previous with
  | nil => exact .pure ⟨trivial, by cases previous <;> simp⟩
  | cons first rest ih =>
    obtain ⟨page, isRoot, hpage, hfirst⟩ := hpages first List.mem_cons_self
    have hloads := fun greatest =>
      tidy_checkChain (W := NoChange) (K := []) greatest (rest.map LeafNode.id)
    rw [List.map_cons, checkChain]
    refine (attests_leaf first.id).bind (fun _ => .lift_bind fun _ _ =>
      .lift_bind fun _ _ => .guard _ (hloads _)) ?_
    rintro _ ⟨page', _, _, _, hpage', rfl, -⟩
    obtain rfl : page = page' := Option.some.inj (hpage.symm.trans hpage')
    refine (Attests.lift fun _ hkeys => hkeys).bind (fun _ =>
      .lift_bind fun _ _ => .guard _ (hloads _)) fun keys hkeys => ?_
    obtain rfl := Except.ok.inj (hfirst.keys_eq.symm.trans hkeys)
    refine (Attests.lift fun _ habove => habove).bind
      (fun _ => .guard _ (hloads _)) fun greatest habove => .guard fun hnext => ?_
    have hkeys := checkAbove_ok habove
    obtain rfl := Except.ok.inj ((checkAbove_eq first.id hkeys).symm.trans habove)
    replace hnext : first.next = (rest.map LeafNode.id).head? := by
      rw [← hfirst.next]
      exact not_not.mp hnext
    refine (ih _ fun leaf hleaf => hpages leaf (List.mem_cons_of_mem _ hleaf)).mono ?_
    rintro _ ⟨hchained, hrest⟩
    refine ⟨?_, ?_⟩
    · cases rest with
      | nil => exact hnext
      | cons second rest => exact ⟨hnext, hchained⟩
    · rw [Leaves.keys_cons, ← List.append_assoc]
      refine pairwise_glue hkeys ?_
      rw [List.getLast?_append]
      cases previous <;> exact hrest

/-! ## The whole check -/

theorem rootFlag_of_reading {t : Subtree h} {b : Bool} {q : PageId} {page : Page}
    (hreading : reading page = ⟨some (t.body b), q⟩) : Header.rootFlag page = b := by
  cases h with
  | zero => exact (reading_eq_leaf_iff.mp hreading).1.root
  | succ h => exact (reading_eq_branch_iff.mp hreading).1.root

/-- If a check succeeds, the pages that it has met are those of a sound tree. -/
theorem attests_check : Attests last check fun _ => ∃ H, H < maxPages ∧
    ∃ (t : Subtree H) (q : PageId), t.Sound ∧ last.Has (t.heap true q) := by
  refine (attests_isRoot PageId.root).bind (fun _ => .guard _ ?_) ?_
  · exact (tidy_checkNode maxPages 1 none PageId.root {}).bind fun _ => tidy_checkChain _ _
  rintro isRoot ⟨page, hpage, hroot⟩
  refine .guard fun hflag => ?_
  refine (attests_checkNode maxPages 1 none PageId.root {}).bind
    (fun _ => tidy_checkChain _ _) ?_
  rintro ⟨greatest, walk⟩ ⟨H, hH, t, ht⟩
  obtain ⟨b, q, hhas, -⟩ := ht.pages
  obtain rfl : b = true := by
    obtain ⟨page', hpage', hreading⟩ := hhas _ (t.heap_eq_cons b q ▸ List.mem_cons_self)
    rw [ht.id_eq] at hpage'
    obtain rfl : page = page' := Option.some.inj (hpage.symm.trans hpage')
    rw [← rootFlag_of_reading hreading, hroot]
    simpa using hflag
  have hgathered : walk = _ := ht.gathered
  rw [hgathered]
  refine (attests_checkChain none fun leaf hleaf => Pager.Has.leaf hhas hleaf).mono ?_
  rintro _ ⟨hchained, hkeys⟩
  exact ⟨H, hH, t, q, ⟨ht.id_eq, ht.formed, hkeys, hchained⟩, hhas⟩

end Tree
end RowStore
