/-
  RowStore/Proofs/Tree/Shape.lean
  ===============================
  **Trees and places in them.**  A `Subtree h` is a tree of nodes, all of whose leaves
  stand `h` levels below the top.  It holds what the pages of the nodes have to say and
  cannot be computed: page numbers, links between leaves, and entries.  Separators, root
  flags and parents follow, and `Subtree.heap` writes all pages out.

  A `Trail H h` is a place for a subtree of height `h` in a tree of height `H`: the
  branches above the place, with their other children.  The cascade of splits climbs it,
  and `Trail.heap` writes out the pages of the branches and of all that hangs from them.
  Their separators depend on the greatest key at the place, which is given.
-/
import Mathlib.Data.List.Flatten
import RowStore.Proofs.Tree.Access

namespace RowStore

/-! ## Nodes -/

structure LeafNode where
  id : PageId
  next : Option PageId
  entries : List Entry

structure BranchNode (Child : Type) where
  id : PageId
  children : List Child

/-- A tree whose leaves all stand on level `h` below its top. -/
def Subtree : Nat → Type
  | 0 => LeafNode
  | h + 1 => BranchNode (Subtree h)

/-- Children with the greatest keys below them. -/
abbrev Links := List (PageId × UInt32)

namespace Links

/-- The separators of a branch.  The greatest key of the last child is none. -/
def keys (links : Links) : List UInt32 := (links.map Prod.snd).dropLast

/-- The children of a branch as its page has them. -/
def children : Links → List PageId
  | [] => [PageId.invalid]
  | link :: links => link.1 :: links.map Prod.fst

/-- What a branch over the given children says. -/
def body (isRoot : Bool) (links : Links) : Body := .branch isRoot links.keys links.children

theorem children_of_ne_nil {links : Links} (h : links ≠ []) :
    links.children = links.map Prod.fst := by
  cases links with
  | nil => exact absurd rfl h
  | cons link links => rfl

theorem length_keys (links : Links) : links.keys.length = links.length - 1 := by
  rw [keys, List.length_dropLast, List.length_map]

theorem keys_append_cons (left right : Links) (link : PageId × UInt32) :
    keys (left ++ link :: right) = left.map Prod.snd ++ keys (link :: right) := by
  rw [keys, List.map_append, List.map_cons, List.dropLast_append_cons, keys, List.map_cons]

end Links

/-- Leaves from left to right. -/
abbrev Leaves := List LeafNode

namespace Leaves

def entries (leaves : Leaves) : List Entry := leaves.flatMap LeafNode.entries

def keys (leaves : Leaves) : List UInt32 := leaves.entries.map Entry.key

/-- Each leaf links to the one after it, and the last to none. -/
def Chained : Leaves → Prop
  | [] => True
  | [last] => last.next = none
  | leaf :: next :: rest => leaf.next = some next.id ∧ Chained (next :: rest)

theorem length_entries_le {leaves : Leaves}
    (h : ∀ leaf ∈ leaves, leaf.entries.length ≤ Leaf.maxCells) :
    leaves.entries.length ≤ leaves.length * Leaf.maxCells := by
  induction leaves with
  | nil => exact Nat.zero_le _
  | cons first rest ih =>
    have hfirst := h first List.mem_cons_self
    have hrest := ih fun leaf hleaf => h leaf (List.mem_cons_of_mem _ hleaf)
    rw [entries, List.flatMap_cons, List.length_append, List.length_cons, Nat.succ_mul]
    rw [entries] at hrest
    omega

theorem Chained.suffix {before after : Leaves} (h : Chained (before ++ after)) :
    Chained after := by
  induction before with
  | nil => exact h
  | cons first before ih =>
    refine ih ?_
    cases hrest : before ++ after with
    | nil => trivial
    | cons second rest =>
      rw [List.cons_append, hrest] at h
      exact h.2

theorem Chained.head {after : Leaves} {leaf leaf' : LeafNode} (h : Chained (leaf :: after))
    (hnext : leaf'.next = leaf.next) : Chained (leaf' :: after) := by
  cases after with
  | nil => exact hnext.trans h
  | cons first after => exact ⟨hnext.trans h.1, h.2⟩

/-- A leaf may give way to several, of which the first stands on its page. -/
theorem Chained.splice {before after rest : Leaves} {leaf leaf' : LeafNode}
    (h : Chained (before ++ leaf :: after)) (hid : leaf'.id = leaf.id)
    (hrest : Chained (leaf :: after) → Chained (leaf' :: rest)) :
    Chained (before ++ leaf' :: rest) := by
  induction before with
  | nil => exact hrest h
  | cons first before ih =>
    cases before with
    | nil => exact ⟨hid ▸ h.1, ih h.2⟩
    | cons second before => exact ⟨h.1, ih h.2⟩

@[simp] theorem entries_nil : entries [] = [] := rfl

@[simp] theorem entries_append (a b : Leaves) : entries (a ++ b) = entries a ++ entries b :=
  List.flatMap_append

@[simp] theorem entries_cons (leaf : LeafNode) (rest : Leaves) :
    entries (leaf :: rest) = leaf.entries ++ entries rest :=
  List.flatMap_cons

@[simp] theorem keys_append (a b : Leaves) : keys (a ++ b) = keys a ++ keys b := by
  rw [keys, entries_append, List.map_append, keys, keys]

@[simp] theorem keys_nil : keys [] = [] := rfl

@[simp] theorem keys_cons (leaf : LeafNode) (rest : Leaves) :
    keys (leaf :: rest) = leaf.entries.map Entry.key ++ keys rest := by
  rw [keys, entries_cons, List.map_append, keys]

end Leaves

namespace Subtree

def leaf (id : PageId) (next : Option PageId) (entries : List Entry) : Subtree 0 :=
  LeafNode.mk id next entries

def branch {h : Nat} (id : PageId) (children : List (Subtree h)) : Subtree (h + 1) :=
  BranchNode.mk id children

@[elab_as_elim]
theorem ind {motive : ∀ h : Nat, Subtree h → Prop}
    (leaf : ∀ id next entries, motive 0 (leaf id next entries))
    (branch : ∀ (h : Nat) (id : PageId) (children : List (Subtree h)),
      (∀ child ∈ children, motive h child) → motive (h + 1) (branch id children)) :
    ∀ (h : Nat) (t : Subtree h), motive h t
  | 0, t => leaf t.id t.next t.entries
  | h + 1, t => branch h t.id t.children fun child _ => ind leaf branch h child

def id : {h : Nat} → Subtree h → PageId
  | 0, t => LeafNode.id t
  | _ + 1, t => BranchNode.id t

/-- The leaves from left to right. -/
def leaves : {h : Nat} → Subtree h → Leaves
  | 0, t => [t]
  | _ + 1, t => (BranchNode.children t).flatMap leaves

def keys {h : Nat} (t : Subtree h) : List UInt32 := t.leaves.keys

/-- The greatest key on the right edge. -/
def greatest : {h : Nat} → Subtree h → UInt32
  | 0, t => ((t.entries.map Entry.key).getLast?).getD 0
  | _ + 1, t => ((t.children.map greatest).getLast?).getD 0

def link {h : Nat} (t : Subtree h) : PageId × UInt32 := (t.id, t.greatest)

/-- The same tree with its top on another page. -/
def moved (id : PageId) : {h : Nat} → Subtree h → Subtree h
  | 0, t => leaf id t.next t.entries
  | _ + 1, t => branch id t.children

/-- What the page at the top says. -/
def body (isRoot : Bool) : {h : Nat} → Subtree h → Body
  | 0, t => .leaf isRoot t.next t.entries
  | _ + 1, t => Links.body isRoot (t.children.map link)

/-- The pages of a tree. -/
def heap (isRoot : Bool) (parent : PageId) : {h : Nat} → Subtree h → Heap
  | 0, t => [(t.id, ⟨some (body isRoot (h := 0) t), parent⟩)]
  | h + 1, t =>
    (t.id, ⟨some (body isRoot (h := h + 1) t), parent⟩) :: t.children.flatMap (heap false t.id)

/-- The pages below the top. -/
def below : {h : Nat} → Subtree h → Heap
  | 0, _ => []
  | _ + 1, t => t.children.flatMap (heap false t.id)

/-- No node has more entries or children than it has room for, and only a root has none. -/
def Formed (isRoot : Bool) : {h : Nat} → Subtree h → Prop
  | 0, t => t.entries.length ≤ Leaf.maxCells ∧ (isRoot = false → t.entries ≠ []) ∧
      ∀ entry ∈ t.entries, entry.value.length = Leaf.valueSize
  | _ + 1, t => 0 < t.children.length ∧ t.children.length ≤ Branch.maxKeys + 1 ∧
      ∀ child ∈ t.children, Formed false child

/-! ### Leaves and branches -/

section Equations

variable {h : Nat} (id new parent : PageId) (next : Option PageId) (entries : List Entry)
variable (children : List (Subtree h)) (isRoot : Bool)

@[simp] theorem id_leaf : (leaf id next entries).id = id := rfl

@[simp] theorem id_branch : (branch id children).id = id := rfl

@[simp] theorem leaves_leaf : (leaf id next entries).leaves = [⟨id, next, entries⟩] := rfl

@[simp] theorem leaves_branch : (branch id children).leaves = children.flatMap leaves := rfl

@[simp] theorem keys_leaf : (leaf id next entries).keys = entries.map Entry.key := by
  rw [keys, leaves_leaf, Leaves.keys_cons, Leaves.keys_nil, List.append_nil]

theorem keys_flatMap_leaves :
    Leaves.keys (children.flatMap leaves) = children.flatMap keys := by
  induction children with
  | nil => rfl
  | cons child children ih =>
    rw [List.flatMap_cons, Leaves.keys_append, ih, List.flatMap_cons, keys]

@[simp] theorem keys_branch : (branch id children).keys = children.flatMap keys :=
  keys_flatMap_leaves children

@[simp] theorem greatest_leaf :
    (leaf id next entries).greatest = ((entries.map Entry.key).getLast?).getD 0 := rfl

@[simp] theorem greatest_branch :
    (branch id children).greatest = ((children.map greatest).getLast?).getD 0 := rfl

@[simp] theorem moved_branch : (branch id children).moved new = branch new children := rfl

theorem heap_branch : (branch id children).heap isRoot parent =
    (id, ⟨some (Links.body isRoot (children.map link)), parent⟩) ::
      children.flatMap (heap false id) := rfl

theorem formed_leaf : (leaf id next entries).Formed isRoot ↔
    entries.length ≤ Leaf.maxCells ∧ (isRoot = false → entries ≠ []) ∧
      ∀ entry ∈ entries, entry.value.length = Leaf.valueSize := Iff.rfl

theorem formed_branch : (branch id children).Formed isRoot ↔
    0 < children.length ∧ children.length ≤ Branch.maxKeys + 1 ∧
      ∀ child ∈ children, child.Formed false := Iff.rfl

end Equations

/-! ### The page at the top -/

variable {h : Nat}

@[simp] theorem id_moved (t : Subtree h) (id : PageId) : (t.moved id).id = id := by
  cases h <;> rfl

@[simp] theorem greatest_moved (t : Subtree h) (id : PageId) :
    (t.moved id).greatest = t.greatest := by
  cases h <;> rfl

@[simp] theorem entries_moved (t : Subtree h) (id : PageId) :
    (t.moved id).leaves.entries = t.leaves.entries := by
  cases h <;> rfl

theorem formed_moved {isRoot : Bool} {t : Subtree h} (id : PageId) :
    (t.moved id).Formed isRoot ↔ t.Formed isRoot := by
  cases h <;> rfl

/-- What a tree says below its top does not depend on its parent and its root flag. -/
theorem heap_eq_cons (t : Subtree h) (isRoot : Bool) (parent : PageId) :
    t.heap isRoot parent = (t.id, ⟨some (t.body isRoot), parent⟩) :: t.below := by
  cases h <;> rfl

theorem setRoot_body (t : Subtree h) (isRoot b : Bool) :
    (t.body isRoot).setRoot b = t.body b := by
  cases h <;> rfl

theorem exists_mem_heap (t : Subtree h) (isRoot : Bool) (parent : PageId) :
    ∃ x, (t.id, x) ∈ t.heap isRoot parent := by
  rw [heap_eq_cons]
  exact ⟨_, List.mem_cons_self⟩

/-- A page of a heap whose pages exist has a valid number. -/
theorem isValid_id (t : Subtree h) {b : Bool} {parent : PageId} {K : Heap}
    (hsub : t.heap b parent ⊆ K) (hlt : ∀ x ∈ K, x.1.index < maxPages) : t.id.isValid = true := by
  obtain ⟨x, hx⟩ := t.exists_mem_heap b parent
  exact PageId.isValid_of_index_lt (hlt _ (hsub hx))

theorem link_eq (t : Subtree h) : t.link = (t.id, t.greatest) := rfl

theorem body_map_link {children : List (Subtree h)} (hne : children ≠ []) (isRoot : Bool) :
    Links.body isRoot (children.map link) =
      .branch isRoot (children.map greatest).dropLast (children.map Subtree.id) := by
  rw [Links.body, Links.children_of_ne_nil (by simpa using hne), Links.keys, List.map_map,
    List.map_map]
  rfl

theorem heap_branch_of_ne_nil {children : List (Subtree h)} (hne : children ≠ [])
    (id parent : PageId) (isRoot : Bool) :
    (branch id children).heap isRoot parent =
      (id, ⟨some (.branch isRoot (children.map greatest).dropLast (children.map Subtree.id)),
        parent⟩) :: children.flatMap (heap false id) := by
  rw [heap_branch, body_map_link hne]

theorem mem_heap_branch {children : List (Subtree h)} (hne : children ≠ [])
    (id parent : PageId) (isRoot : Bool) :
    (id, Reading.mk (some (.branch isRoot (children.map greatest).dropLast
      (children.map Subtree.id))) parent) ∈ (branch id children).heap isRoot parent := by
  rw [heap_branch_of_ne_nil hne]
  exact List.mem_cons_self

/-- A branch over two children. -/
theorem heap_pair (left right : Subtree h) (id parent : PageId) (isRoot : Bool) :
    (branch id [left, right]).heap isRoot parent =
      (id, ⟨some (.branch isRoot [left.greatest] [left.id, right.id]), parent⟩) ::
        (left.heap false id ++ right.heap false id) := by
  rw [heap_branch_of_ne_nil (List.cons_ne_nil _ _), List.flatMap_cons, List.flatMap_cons,
    List.flatMap_nil, List.append_nil]
  rfl

theorem heap_subset_of_mem {children : List (Subtree h)} {child : Subtree h}
    (hchild : child ∈ children) (id parent : PageId) (isRoot : Bool) :
    child.heap false id ⊆ (branch id children).heap isRoot parent :=
  fun _ hx => List.mem_cons_of_mem _ (List.mem_flatMap.mpr ⟨child, hchild, hx⟩)

/-- A page beside a heap is not one of its subtrees. -/
theorem notMem_map_link {children : List (Subtree h)} {id parent : PageId} {K : Heap}
    (hsub : children.flatMap (heap false parent) ⊆ K) (hid : id ∉ K.map Prod.fst) :
    id ∉ (children.map link).map Prod.fst := by
  intro hmem
  obtain ⟨_, hlink, rfl⟩ := List.mem_map.mp hmem
  obtain ⟨t, ht, rfl⟩ := List.mem_map.mp hlink
  obtain ⟨x, hx⟩ := t.exists_mem_heap false parent
  exact hid (List.mem_map.mpr ⟨_, hsub (List.mem_flatMap.mpr ⟨t, ht, hx⟩), rfl⟩)

theorem formed_of_mem_leaves {t : Subtree h} {b : Bool} (hf : t.Formed b) {leaf : LeafNode}
    (hleaf : leaf ∈ t.leaves) :
    leaf.entries.length ≤ Leaf.maxCells ∧ (b = false → leaf.entries ≠ []) := by
  induction h, t using ind generalizing b with
  | leaf id next entries =>
    rw [leaves_leaf, List.mem_singleton] at hleaf
    subst hleaf
    exact ⟨hf.1, hf.2.1⟩
  | branch h id children ih =>
    obtain ⟨-, -, hchildren⟩ := (formed_branch ..).mp hf
    obtain ⟨child, hchild, hmem⟩ := List.mem_flatMap.mp hleaf
    obtain ⟨hlen, hne⟩ := ih child hchild (hchildren child hchild) hmem
    exact ⟨hlen, fun _ => hne rfl⟩

/-- Each leaf has a page that says what it holds. -/
theorem exists_leaf_mem_heap {t : Subtree h} {leaf : LeafNode} (hleaf : leaf ∈ t.leaves)
    (isRoot : Bool) (parent : PageId) : ∃ b p,
      (leaf.id, ⟨some (.leaf b leaf.next leaf.entries), p⟩) ∈ t.heap isRoot parent := by
  induction h, t using ind generalizing isRoot parent with
  | leaf id next entries =>
    rw [leaves_leaf, List.mem_singleton] at hleaf
    subst hleaf
    exact ⟨isRoot, parent, List.mem_cons_self⟩
  | branch h id children ih =>
    obtain ⟨child, hchild, hmem⟩ := List.mem_flatMap.mp hleaf
    obtain ⟨b, p, hpage⟩ := ih child hchild hmem false id
    exact ⟨b, p, heap_subset_of_mem hchild id parent isRoot hpage⟩

/-- A path down the tree has a page on every level. -/
theorem lt_length_heap {t : Subtree h} {b : Bool} (hf : t.Formed b) (isRoot : Bool)
    (parent : PageId) : h < (t.heap isRoot parent).length := by
  induction h, t using ind generalizing b isRoot parent with
  | leaf id next entries => exact Nat.zero_lt_one
  | branch h id children ih =>
    obtain ⟨hlen, -, hchildren⟩ := (formed_branch ..).mp hf
    obtain ⟨child, rest, rfl⟩ := List.exists_cons_of_length_pos hlen
    have hchild := ih child List.mem_cons_self (hchildren child List.mem_cons_self) false id
    rw [heap_branch, List.length_cons, List.flatMap_cons, List.length_append]
    omega

theorem length_leaves_le (t : Subtree h) (isRoot : Bool) (parent : PageId) :
    t.leaves.length ≤ (t.heap isRoot parent).length := by
  induction h, t using ind generalizing isRoot parent with
  | leaf id next entries => exact Nat.le_refl 1
  | branch h id children ih =>
    rw [heap_branch, leaves_branch, List.length_cons]
    refine Nat.le_succ_of_le ?_
    induction children with
    | nil => exact Nat.le_refl 0
    | cons child children ihc =>
      rw [List.flatMap_cons, List.flatMap_cons, List.length_append, List.length_append]
      exact Nat.add_le_add (ih child List.mem_cons_self false id)
        (ihc fun c hc => ih c (List.mem_cons_of_mem _ hc))

/-- The greatest key of a branch is the greatest key of its last child. -/
theorem greatest_append_cons (id id' : PageId) (before before' after : List (Subtree h))
    (t : Subtree h) : (branch id (before ++ t :: after)).greatest =
      (branch id' (before' ++ t :: after)).greatest := by
  simp [List.getLast?_append, List.getLast?_cons]

theorem greatest_drop (id id' : PageId) {children : List (Subtree h)} {k : Nat}
    (hk : k < children.length) :
    (branch id (children.drop k)).greatest = (branch id' children).greatest := by
  simp [List.getLast?_drop, Nat.not_le.mpr hk]

/-! ### Keys -/

/-- The greatest key is the last one. -/
theorem getLast?_keys : ∀ {h : Nat} {t : Subtree h}, t.Formed false →
    t.keys.getLast? = some t.greatest := by
  intro h t
  induction h, t using ind with
  | leaf id next entries =>
    intro hf
    obtain ⟨-, hne, -⟩ := (formed_leaf ..).mp hf
    replace hne : entries.map Entry.key ≠ [] := by simpa using hne
    rw [keys_leaf, greatest_leaf, List.getLast?_eq_some_getLast hne, Option.getD_some]
  | branch h id children ih =>
    intro hf
    obtain ⟨hlen, -, hchildren⟩ := (formed_branch ..).mp hf
    have hne : children ≠ [] := List.ne_nil_of_length_pos (by omega)
    obtain ⟨front, last, rfl⟩ : ∃ front last, children = front ++ [last] :=
      ⟨_, _, (List.dropLast_append_getLast hne).symm⟩
    have hlast := ih last (by simp) (hchildren last (by simp))
    simp [hlast]

theorem greatest_mem_keys {t : Subtree h} (hf : t.Formed false) : t.greatest ∈ t.keys :=
  List.mem_of_getLast? (getLast?_keys hf)

theorem le_greatest {t : Subtree h} (hf : t.Formed false) (hkeys : t.keys.Pairwise (· < ·))
    {key : UInt32} (hkey : key ∈ t.keys) : key ≤ t.greatest := by
  obtain ⟨front, hfront⟩ := List.getLast?_eq_some_iff.mp (getLast?_keys hf)
  rw [hfront] at hkeys hkey
  rcases List.mem_append.mp hkey with hkey | hkey
  · exact UInt32.le_of_lt
      ((List.pairwise_append.mp hkeys).2.2 key hkey t.greatest (List.mem_singleton_self _))
  · rw [List.mem_singleton.mp hkey]
    exact UInt32.le_refl _

end Subtree

/-- A whole tree as it stands between two inserts. -/
structure Subtree.Sound {H : Nat} (t : Subtree H) : Prop where
  root : t.id = PageId.root
  formed : t.Formed true
  ascending : t.keys.Pairwise (· < ·)
  chained : t.leaves.Chained

/-- Subtrees that may stand side by side. -/
structure Siblings {h : Nat} (children : List (Subtree h)) : Prop where
  formed : ∀ child ∈ children, child.Formed false
  ascending : (children.flatMap Subtree.keys).Pairwise (· < ·)

namespace Siblings

variable {h : Nat} {children : List (Subtree h)}

theorem sublist {fewer : List (Subtree h)} (hs : Siblings children)
    (hsub : fewer.Sublist children) : Siblings fewer where
  formed child hchild := hs.formed child (hsub.subset hchild)
  ascending := hs.ascending.sublist (hsub.flatMap Subtree.keys)

/-- Where the keys ascend, so do the greatest keys of the children. -/
theorem greatest (hs : Siblings children) :
    (children.map Subtree.greatest).Pairwise (· < ·) := by
  rw [List.pairwise_map]
  refine (List.pairwise_flatMap.mp hs.ascending).2.imp_of_mem fun ha hb hab => ?_
  exact hab _ (Subtree.greatest_mem_keys (hs.formed _ ha)) _
    (Subtree.greatest_mem_keys (hs.formed _ hb))

/-- A separator is the greatest key of the child that it stands behind. -/
theorem separator_eq {i : Nat} {key : UInt32} {child : Subtree h}
    (hkey : (children.map Subtree.greatest).dropLast[i]? = some key)
    (hchild : children[i]? = some child) : key = child.greatest := by
  rw [List.getElem?_dropLast, List.getElem?_map, hchild] at hkey
  split at hkey
  · exact (Option.some.inj hkey).symm
  · cases hkey

/-- All separators are smaller than the greatest key of the right child. -/
theorem lt_greatest_of_mem (hs : Siblings children) {right : Subtree h}
    (hright : children.getLast? = some right) :
    ∀ key ∈ (children.map Subtree.greatest).dropLast, key < right.greatest := by
  intro key hkey
  obtain ⟨front, rfl⟩ := List.getLast?_eq_some_iff.mp hright
  have hpair := hs.greatest
  rw [List.map_append, List.map_singleton] at hkey hpair
  rw [List.dropLast_concat] at hkey
  exact (List.pairwise_append.mp hpair).2.2 key hkey _ (List.mem_singleton_self _)

theorem formed_branch (hs : Siblings children) (id : PageId) (isRoot : Bool)
    (hpos : 0 < children.length) (hle : children.length ≤ Branch.maxKeys + 1) :
    (Subtree.branch id children).Formed isRoot :=
  ⟨hpos, hle, hs.formed⟩

end Siblings

/-! ## Places -/

/-- A place for a subtree of some height in a tree of height `H`. -/
inductive Trail (H : Nat) : Nat → Type where
  | top : Trail H H
  /-- The place between `left` and `right` below the branch `id`. -/
  | down {h : Nat} (id : PageId) (left right : List (Subtree h)) (up : Trail H (h + 1)) :
    Trail H h

namespace Trail

variable {H h : Nat}

/-- The tree with a subtree put at the place. -/
def fill : {h : Nat} → Trail H h → Subtree h → Subtree H
  | _, top, t => t
  | _, down id left right up, t => up.fill (Subtree.branch id (left ++ t :: right))

def before : {h : Nat} → Trail H h → Leaves
  | _, top => []
  | _, down _ left _ up => up.before ++ left.flatMap Subtree.leaves

def after : {h : Nat} → Trail H h → Leaves
  | _, top => []
  | _, down _ _ right up => right.flatMap Subtree.leaves ++ up.after

/-- Whether the root stands at the place. -/
def isTop : {h : Nat} → Trail H h → Bool
  | _, top => true
  | _, down _ _ _ _ => false

/-- The page above the place, or what the root has in its parent field. -/
def parent (q : PageId) : {h : Nat} → Trail H h → PageId
  | _, top => q
  | _, down id _ _ _ => id

/-- The pages above the place and beside it, where `hole` stands for the top of the subtree
    at the place and the greatest key in it. -/
def heap (q : PageId) : {h : Nat} → Trail H h → PageId × UInt32 → Heap
  | _, top, _ => []
  | _, down id left right up, hole =>
    (id, ⟨some (Links.body up.isTop (left.map Subtree.link ++ hole :: right.map Subtree.link)),
        up.parent q⟩) ::
      (left ++ right).flatMap (Subtree.heap false id) ++
      up.heap q (id, ((left.map Subtree.greatest ++
        hole.2 :: right.map Subtree.greatest).getLast?).getD 0)

/-- Nothing stands to the right of the place. -/
def IsLast : {h : Nat} → Trail H h → Prop
  | _, top => True
  | _, down _ _ right up => right = [] ∧ up.IsLast

theorem isLast_of_isTop {z : Trail H h} (hz : z.isTop = true) : z.IsLast := by
  cases z with
  | top => exact trivial
  | down _ _ _ _ => exact (Bool.false_ne_true hz).elim

theorem after_eq_nil {z : Trail H h} (hz : z.IsLast) : z.after = [] := by
  induction z with
  | top => rfl
  | down id left right up ih =>
    obtain ⟨rfl, hup⟩ := hz
    exact ih hup

/-- The branches above the place and the subtrees beside it are formed, with one subtree at
    the place. -/
def Formed : {h : Nat} → Trail H h → Prop
  | _, top => True
  | _, down _ left right up =>
    left.length + right.length ≤ Branch.maxKeys ∧ (∀ t ∈ left ++ right, t.Formed false) ∧
      up.Formed

theorem le (z : Trail H h) : h ≤ H := by
  induction z with
  | top => exact Nat.le_refl H
  | down _ _ _ _ ih => exact Nat.le_of_succ_le ih

theorem leaves_fill (z : Trail H h) (t : Subtree h) :
    (z.fill t).leaves = z.before ++ t.leaves ++ z.after := by
  induction z with
  | top => simp [fill, before, after]
  | down id left right up ih => simp [fill, before, after, ih]

theorem formed_fill {z : Trail H h} {t : Subtree h} :
    (z.fill t).Formed true ↔ t.Formed z.isTop ∧ z.Formed := by
  induction z with
  | top => simp [fill, isTop, Formed]
  | down id left right up ih =>
    rw [fill, ih, Subtree.formed_branch, Formed, isTop]
    simp only [List.length_append, List.length_cons, List.mem_append, List.mem_cons]
    constructor
    · rintro ⟨⟨-, hle, hall⟩, hup⟩
      exact ⟨hall t (.inr (.inl rfl)), by omega, fun c hc => hall c (hc.imp_right .inr), hup⟩
    · rintro ⟨ht, hle, hall, hup⟩
      refine ⟨⟨by omega, by omega, fun c hc => ?_⟩, hup⟩
      rcases hc with hc | rfl | hc
      · exact hall c (.inl hc)
      · exact ht
      · exact hall c (.inr hc)

theorem ne_nil_of_mem_after {z : Trail H h} (hz : z.Formed) {leaf : LeafNode}
    (hleaf : leaf ∈ z.after) : leaf.entries ≠ [] := by
  induction z with
  | top => cases hleaf
  | down id left right up ih =>
    rcases List.mem_append.mp hleaf with hmem | hmem
    · obtain ⟨t, ht, hmem⟩ := List.mem_flatMap.mp hmem
      exact (Subtree.formed_of_mem_leaves (hz.2.1 t (List.mem_append_right _ ht)) hmem).2 rfl
    · exact ih hz.2.2 hmem

theorem keys_before_down (id : PageId) (left right : List (Subtree h)) (up : Trail H (h + 1)) :
    (down id left right up).before.keys = up.before.keys ++ left.flatMap Subtree.keys := by
  rw [before, Leaves.keys_append, Subtree.keys_flatMap_leaves]

theorem keys_after_down (id : PageId) (left right : List (Subtree h)) (up : Trail H (h + 1)) :
    (down id left right up).after.keys = right.flatMap Subtree.keys ++ up.after.keys := by
  rw [after, Leaves.keys_append, Subtree.keys_flatMap_leaves]

/-- Formed subtrees at a place stand side by side with those beside it. -/
theorem siblings {id : PageId} {left right ts : List (Subtree h)} {up : Trail H (h + 1)}
    (hz : (down id left right up).Formed) (hts : ∀ t ∈ ts, t.Formed false)
    (hkeys : ((down id left right up).before.keys ++ ts.flatMap Subtree.keys ++
      (down id left right up).after.keys).Pairwise (· < ·)) :
    Siblings (left ++ ts ++ right) := by
  constructor
  · intro t ht
    simp only [List.mem_append] at ht
    rcases ht with (ht | ht) | ht
    · exact hz.2.1 t (List.mem_append_left _ ht)
    · exact hts t ht
    · exact hz.2.1 t (List.mem_append_right _ ht)
  · rw [keys_before_down, keys_after_down, List.append_assoc, List.append_assoc] at hkeys
    have hinner := (List.pairwise_append.mp hkeys).2.1
    rw [← List.append_assoc, ← List.append_assoc, ← List.flatMap_append, ← List.flatMap_append]
      at hinner
    exact (List.pairwise_append.mp hinner).1

/-- The pages of a whole tree are those of a subtree and those around it. -/
theorem heap_fill (q : PageId) (z : Trail H h) (t : Subtree h) :
    ((z.fill t).heap true q).Perm (t.heap z.isTop (z.parent q) ++ z.heap q t.link) := by
  induction z with
  | top => rw [fill, heap, List.append_nil, isTop, parent]
  | down id left right up ih =>
    refine (ih _).trans ?_
    rw [Subtree.heap_branch, heap, isTop, parent]
    simp only [List.map_append, List.map_cons, List.flatMap_append, List.flatMap_cons,
      Subtree.link_eq, Subtree.id_branch, Subtree.greatest_branch]
    rw [List.perm_iff_count]
    intro x
    simp only [List.count_append, List.count_cons]
    omega

/-- The greatest key at the last place is no separator anywhere. -/
theorem heap_of_isLast {z : Trail H h} (hlast : z.IsLast) (q id : PageId) (g g' : UInt32) :
    z.heap q (id, g) = z.heap q (id, g') := by
  induction z generalizing id g g' with
  | top => rfl
  | down above left right up ih =>
    obtain ⟨rfl, hup⟩ := hlast
    have hbody : Links.body up.isTop (left.map Subtree.link ++ [(id, g)]) =
        Links.body up.isTop (left.map Subtree.link ++ [(id, g')]) := by
      rw [Links.body, Links.body, Links.children_of_ne_nil (by simp),
        Links.children_of_ne_nil (by simp), Links.keys_append_cons, Links.keys_append_cons,
        List.map_append, List.map_append]
      rfl
    rw [heap, heap, List.map_nil, hbody, ih hup above]

end Trail
end RowStore
