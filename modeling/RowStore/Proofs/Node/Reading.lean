/-
  RowStore/Proofs/Node/Reading.lean
  =================================
  **What the page of a node says.**  A page that is accepted as a node stands for a
  *body*: a leaf with its entries, or a branch with its separators and children.  The
  parent field is kept apart, because it changes without the rest.  Bytes that no body
  and no parent field account for mean nothing.

  `Leaf.Says` and `Branch.Says` tie the fields of a body to the bytes of the page.  Each
  way of looking at a node has one lemma here that gives its answer from the body, and
  everything above this module reads nodes through these lemmas.
-/
import Mathlib.Tactic.Common
import RowStore.Proofs.Run
import RowStore.Node.Leaf
import RowStore.Node.Branch

namespace RowStore

variable {ε : Type}

/-! ## The place of a key -/

/-- The number of keys in front of the first one that is not smaller than `key`. -/
def rank (key : UInt32) (keys : List UInt32) : Nat := keys.findIdx (key ≤ ·)

theorem rank_le (key : UInt32) (keys : List UInt32) : rank key keys ≤ keys.length :=
  List.findIdx_le_length

theorem lt_of_lt_rank {key : UInt32} {keys : List UInt32} {i : Nat} (hi : i < keys.length)
    (h : i < rank key keys) : keys[i] < key := by
  have := List.not_of_lt_findIdx h
  simpa using this

theorem le_getElem_rank {key : UInt32} {keys : List UInt32} (h : rank key keys < keys.length) :
    key ≤ keys[rank key keys] := by
  have := List.findIdx_getElem (w := h)
  exact of_decide_eq_true this

theorem lt_of_rank_lt {key : UInt32} {keys : List UInt32} (hkeys : keys.Pairwise (· < ·)) {i : Nat}
    (hi : i < keys.length) (h : rank key keys < i) : key < keys[i] :=
  UInt32.lt_of_le_of_lt (le_getElem_rank (Nat.lt_trans h hi))
    (List.pairwise_iff_getElem.mp hkeys _ _ (Nat.lt_trans h hi) hi h)

theorem le_getElem_of_rank_le {key : UInt32} {keys : List UInt32} (hkeys : keys.Pairwise (· ≤ ·))
    {i : Nat} (hi : i < keys.length) (h : rank key keys ≤ i) : key ≤ keys[i] := by
  rcases Nat.lt_or_eq_of_le h with h | rfl
  · exact UInt32.le_trans (le_getElem_rank (Nat.lt_trans h hi))
      (List.pairwise_iff_getElem.mp hkeys _ _ (Nat.lt_trans h hi) hi h)
  · exact le_getElem_rank hi

theorem le_of_rank_le {key : UInt32} {keys : List UInt32} (hkeys : keys.Pairwise (· < ·)) {i : Nat}
    (hi : i < keys.length) (h : rank key keys ≤ i) : key ≤ keys[i] :=
  le_getElem_of_rank_le (hkeys.imp UInt32.le_of_lt) hi h

theorem lt_of_mem_take_rank {key k : UInt32} {keys : List UInt32}
    (hk : k ∈ keys.take (rank key keys)) : k < key := by
  obtain ⟨i, hi, rfl⟩ := List.mem_iff_getElem.mp hk
  rw [List.length_take] at hi
  rw [List.getElem_take]
  exact lt_of_lt_rank _ (by omega)

theorem le_of_mem_drop_rank {key k : UInt32} {keys : List UInt32} (hkeys : keys.Pairwise (· < ·))
    (hk : k ∈ keys.drop (rank key keys)) : key ≤ k := by
  obtain ⟨i, hi, rfl⟩ := List.mem_iff_getElem.mp hk
  rw [List.getElem_drop]
  exact le_of_rank_le hkeys _ (Nat.le_add_right _ _)

/-- A key that fits between two stretches of keys has its place there. -/
theorem rank_append {key : UInt32} {before after : List UInt32} (hbefore : ∀ k ∈ before, k < key)
    (hafter : ∀ k ∈ after, key ≤ k) : rank key (before ++ after) = before.length := by
  have hfirst : before.findIdx (key ≤ ·) = before.length :=
    List.findIdx_eq_length_of_false fun k hk =>
      decide_eq_false (UInt32.not_le.mpr (hbefore k hk))
  rw [rank, List.findIdx_append, hfirst, if_neg (Nat.lt_irrefl _)]
  cases after with
  | nil => exact Nat.zero_add _
  | cons k after =>
    rw [List.findIdx_cons, decide_eq_true (hafter k List.mem_cons_self), cond_true, Nat.zero_add]

/-- Halving a range finds the place that the probe leads to. -/
theorem bisectWithin_eq {probe : Nat → Except ε Ordering} {place : Nat} :
    ∀ {steps lo hi : Nat}, hi - lo ≤ steps → lo ≤ place → place ≤ hi →
      (∀ i, lo ≤ i → i < place → probe i = .ok .gt) →
      (∀ i, place ≤ i → i < hi → probe i = .ok .lt ∨ (i = place ∧ probe i = .ok .eq)) →
      bisectWithin probe steps lo hi = .ok place := by
  intro steps
  induction steps with
  | zero =>
    intro lo hi hsteps hlo hhi _ _
    obtain rfl : lo = place := by omega
    rfl
  | succ steps ih =>
    intro lo hi hsteps hlo hhi hbefore hafter
    rw [bisectWithin]
    split
    · obtain rfl : lo = place := by omega
      rfl
    · by_cases hmid : (lo + hi) / 2 < place
      · simp only [hbefore _ (by omega) hmid, bind, Except.bind]
        exact ih (by omega) (by omega) hhi (fun i hi' => hbefore i (by omega)) hafter
      · rcases hafter ((lo + hi) / 2) (by omega) (by omega) with h | ⟨he, h⟩
        · simp only [h, bind, Except.bind]
          exact ih (by omega) hlo (by omega) hbefore fun i hi' hlt => hafter i hi' (by omega)
        · rw [he] at h
          simp only [he, h, bind, Except.bind]
          rfl

/-! ## Bodies -/

/-- A key and its value. -/
structure Entry where
  key : UInt32
  value : List UInt8
deriving DecidableEq

def Entry.bytes (entry : Entry) : List UInt8 := Word.toBytes entry.key ++ entry.value

/-- What the page of a node says, its parent apart.  The last child of a branch is the
    right one; a branch without children has `PageId.invalid` there. -/
inductive Body where
  | leaf (isRoot : Bool) (next : Option PageId) (entries : List Entry)
  | branch (isRoot : Bool) (keys : List UInt32) (children : List PageId)
deriving DecidableEq

namespace Leaf

def nextIn (page : Page) : Option PageId :=
  match page.word nextOffset with
  | 0 => none
  | number => some ⟨number⟩

def entryAt (page : Page) (i : Nat) : Entry :=
  { key := page.word (cellStart i), value := page.slice (cellStart i + keySize) valueSize }

def entriesIn (page : Page) : List Entry := (List.range (countIn page)).map (entryAt page)

/-- The page of a leaf, field by field. -/
structure Says (page : Page) (isRoot : Bool) (next : Option PageId) (entries : List Entry) :
    Prop where
  kind : NodeKind.ofByte? (page.byte Header.kindOffset) = some .leaf
  count : countIn page = entries.length
  length_le : entries.length ≤ maxCells
  root : Header.rootFlag page = isRoot
  next : nextIn page = next
  entry : ∀ i (h : i < entries.length), entryAt page i = entries[i]

end Leaf

namespace Branch

def keyAt (page : Page) (i : Nat) : UInt32 := page.word (cellStart i + childSize)

def childAt (page : Page) (i : Nat) : PageId := ⟨page.word (cellStart i)⟩

def rightIn (page : Page) : PageId := ⟨page.word rightOffset⟩

def keysIn (page : Page) : List UInt32 := (List.range (countIn page)).map (keyAt page)

def childrenIn (page : Page) : List PageId :=
  (List.range (countIn page)).map (childAt page) ++ [rightIn page]

/-- The page of a branch, field by field. -/
structure Says (page : Page) (isRoot : Bool) (keys : List UInt32) (children : List PageId) :
    Prop where
  kind : NodeKind.ofByte? (page.byte Header.kindOffset) = some .branch
  count : countIn page = keys.length
  length_le : keys.length ≤ maxKeys
  length_children : children.length = keys.length + 1
  root : Header.rootFlag page = isRoot
  key : ∀ i (h : i < keys.length), keyAt page i = keys[i]
  child : ∀ i (h : i < keys.length), childAt page i = children[i]
  right : rightIn page = children[keys.length]

end Branch

/-- What a page says, if it can be accepted as a node. -/
def body? (page : Page) : Option Body :=
  match NodeKind.ofByte? (page.byte Header.kindOffset) with
  | some .leaf =>
    if Leaf.countIn page ≤ Leaf.maxCells then
      some (.leaf (Header.rootFlag page) (Leaf.nextIn page) (Leaf.entriesIn page))
    else none
  | some .branch =>
    if Branch.countIn page ≤ Branch.maxKeys then
      some (.branch (Header.rootFlag page) (Branch.keysIn page) (Branch.childrenIn page))
    else none
  | none => none

theorem body?_eq_leaf_iff {page : Page} {isRoot : Bool} {next : Option PageId}
    {entries : List Entry} :
    body? page = some (.leaf isRoot next entries) ↔ Leaf.Says page isRoot next entries := by
  constructor
  · intro h
    rw [body?] at h
    split at h
    · rename_i hkind
      split at h
      · rename_i hcount
        cases h
        refine ⟨hkind, by simp [Leaf.entriesIn], by simpa [Leaf.entriesIn] using hcount, rfl, rfl,
          ?_⟩
        intro i hi
        simp [Leaf.entriesIn]
      · cases h
    · split at h <;> cases h
    · cases h
  · rintro ⟨hkind, hcount, hle, rfl, rfl, hentry⟩
    rw [body?, hkind]
    simp only [hcount, if_pos hle, Leaf.entriesIn, map_range_eq rfl hentry]

theorem body?_eq_branch_iff {page : Page} {isRoot : Bool} {keys : List UInt32}
    {children : List PageId} :
    body? page = some (.branch isRoot keys children) ↔ Branch.Says page isRoot keys children := by
  constructor
  · intro h
    rw [body?] at h
    split at h
    · split at h <;> cases h
    · rename_i hkind
      split at h
      · rename_i hcount
        cases h
        refine ⟨hkind, by simp [Branch.keysIn], by simpa [Branch.keysIn] using hcount,
          by simp [Branch.keysIn, Branch.childrenIn], rfl, ?_, ?_, ?_⟩
        · intro i hi
          simp [Branch.keysIn]
        · intro i hi
          have hi' : i < Branch.countIn page := by simpa [Branch.keysIn] using hi
          simp [Branch.childrenIn, List.getElem_append_left, hi']
        · simp [Branch.keysIn, Branch.childrenIn]
      · cases h
    · cases h
  · rintro ⟨hkind, hcount, hle, hlen, rfl, hkey, hchild, hright⟩
    rw [body?, hkind]
    have hchildren : Branch.childrenIn page = children := by
      apply List.ext_getElem
      · simp [Branch.childrenIn, hcount, hlen]
      · intro i hi hi'
        rcases Nat.lt_or_eq_of_le (Nat.le_of_lt_succ (hlen ▸ hi')) with h | h
        · simp [Branch.childrenIn, List.getElem_append_left, hcount, h, hchild]
        · subst h
          simp [Branch.childrenIn, List.getElem_append_right, hcount, hright]
    have hkeys : Branch.keysIn page = keys := map_range_eq hcount hkey
    simp only [hcount, if_pos hle, hkeys, hchildren]

/-- A page says one thing as a leaf. -/
theorem Leaf.Says.unique {page : Page} {isRoot isRoot' : Bool} {next next' : Option PageId}
    {entries entries' : List Entry} (h : Leaf.Says page isRoot next entries)
    (h' : Leaf.Says page isRoot' next' entries') :
    isRoot = isRoot' ∧ next = next' ∧ entries = entries' := by
  have hbody := (body?_eq_leaf_iff.mpr h).symm.trans (body?_eq_leaf_iff.mpr h')
  cases hbody
  exact ⟨rfl, rfl, rfl⟩

namespace Branch.Says

variable {page other : Page} {isRoot isRoot' : Bool} {keys keys' : List UInt32}
variable {children children' : List PageId}

/-- A page says one thing as a branch. -/
theorem unique (h : Says page isRoot keys children) (h' : Says page isRoot' keys' children') :
    isRoot = isRoot' ∧ keys = keys' ∧ children = children' := by
  have hbody := (body?_eq_branch_iff.mpr h).symm.trans (body?_eq_branch_iff.mpr h')
  cases hbody
  exact ⟨rfl, rfl, rfl⟩

theorem of_body (h : Says page isRoot keys children) (hbody : body? other = body? page) :
    Says other isRoot keys children :=
  body?_eq_branch_iff.mp (hbody.trans (body?_eq_branch_iff.mpr h))

end Branch.Says

/-! ## Looking at a leaf -/

theorem slice_add {n : Nat} (b : Bytes n) (off len len' : Nat) :
    b.slice off (len + len') = b.slice off len ++ b.slice (off + len) len' := by
  simp only [Bytes.slice, List.range_add, List.map_append, List.map_map]
  congr 2
  funext i
  simp [Nat.add_assoc]

theorem toBytes_ofBytes (a b c d : UInt8) :
    Word.toBytes (Word.ofBytes a b c d) = [a, b, c, d] := by
  have ha := a.toNat_lt
  have hb := b.toNat_lt
  have hc := c.toNat_lt
  have hd := d.toNat_lt
  have hword : (Word.ofBytes a b c d).toNat =
      a.toNat + 256 * b.toNat + 65536 * c.toNat + 16777216 * d.toNat := by
    rw [Word.ofBytes, UInt32.toNat_ofNat']
    omega
  simp only [Word.toBytes, hword, List.cons.injEq, and_true]
  refine ⟨?_, ?_, ?_, ?_⟩ <;> apply UInt8.toNat.inj <;> rw [UInt8.toNat_ofNat'] <;> omega

theorem slice_four {n : Nat} (b : Bytes n) (off : Nat) :
    b.slice off 4 = Word.toBytes (b.word off) := by
  rw [Bytes.word, toBytes_ofBytes]
  rfl

namespace Leaf.Says

variable {id : PageId} {page : Page} {isRoot : Bool} {next : Option PageId} {entries : List Entry}

theorem readKind_eq (h : Says page isRoot next entries) : Header.readKind id page = .ok .leaf :=
  Header.readKind_eq_ok_iff.mpr h.kind

theorem ofPage_eq (h : Says page isRoot next entries) : ofPage id page = .ok { id, page } :=
  ofPage_eq_ok_iff.mpr ⟨h.readKind_eq, h.count ▸ h.length_le, rfl⟩

theorem count_eq (h : Says page isRoot next entries) :
    Leaf.count { id, page } = entries.length := h.count

theorem cellOffset_eq {i : Nat} (hi : i < maxCells) : cellOffset i = .ok (cellStart i) := by
  rw [cellOffset, if_pos hi]
  rfl

theorem key_eq (h : Says page isRoot next entries) {i : Nat} (hi : i < entries.length) :
    key { id, page } i = .ok entries[i].key := by
  rw [key, cellOffset_eq (Nat.lt_of_lt_of_le hi h.length_le), ← h.entry i hi]
  rfl

theorem value_eq (h : Says page isRoot next entries) {i : Nat} (hi : i < entries.length) :
    value { id, page } i = .ok entries[i].value := by
  rw [value, cellOffset_eq (Nat.lt_of_lt_of_le hi h.length_le), ← h.entry i hi]
  rfl

theorem cell_eq (h : Says page isRoot next entries) {i : Nat} (hi : i < entries.length) :
    cell { id, page } i = .ok entries[i].bytes := by
  rw [cell, cellOffset_eq (Nat.lt_of_lt_of_le hi h.length_le), ← h.entry i hi]
  simp only [Entry.bytes, entryAt]
  rw [← slice_four, ← slice_add]
  rfl

theorem keys_eq (h : Says page isRoot next entries) :
    keys { id, page } = .ok (entries.map Entry.key) := by
  have hmap := map_range_eq (f := fun i => (entryAt page i).key) (l := entries.map Entry.key)
    (n := countIn page) (by rw [h.count, List.length_map]) fun i hi => by
      rw [h.entry i (by simpa using hi), List.getElem_map]
  rw [← hmap]
  refine mapM_eq_ok fun i hi => ?_
  have hi' : i < entries.length := by simpa [h.count_eq] using hi
  rw [h.key_eq hi', h.entry i hi']

theorem cells_eq (h : Says page isRoot next entries) :
    cells { id, page } = .ok (entries.map Entry.bytes) := by
  have hmap := map_range_eq (f := fun i => (entryAt page i).bytes) (l := entries.map Entry.bytes)
    (n := countIn page) (by rw [h.count, List.length_map]) fun i hi => by
      rw [h.entry i (by simpa using hi), List.getElem_map]
  rw [← hmap]
  refine mapM_eq_ok fun i hi => ?_
  have hi' : i < entries.length := by simpa [h.count_eq] using hi
  rw [h.cell_eq hi', h.entry i hi']

theorem length_value (h : Says page isRoot next entries) {entry : Entry}
    (hentry : entry ∈ entries) :
    entry.value.length = valueSize := by
  obtain ⟨i, hi, rfl⟩ := List.mem_iff_getElem.mp hentry
  rw [← h.entry i hi]
  exact Bytes.length_slice page _ _

theorem maxKey_eq (h : Says page isRoot next entries) {last : Entry}
    (hlast : entries.getLast? = some last) : maxKey { id, page } = .ok last.key := by
  obtain ⟨front, rfl⟩ := List.getLast?_eq_some_iff.mp hlast
  have hcount : Leaf.count { id, page } = front.length + 1 := by
    rw [h.count_eq, List.length_append]
    rfl
  rw [maxKey, hcount]
  have := @key_eq id _ _ _ _ h front.length (by simp)
  simpa using this

theorem find_eq (h : Says page isRoot next entries)
    (hkeys : (entries.map Entry.key).Pairwise (· < ·)) (target : UInt32) :
    find { id, page } target = .ok (rank target (entries.map Entry.key)) := by
  have hle := rank_le target (entries.map Entry.key)
  rw [List.length_map] at hle
  rw [find, bisect, h.count_eq]
  refine bisectWithin_eq (Nat.le_refl _) (Nat.zero_le _) hle ?_ ?_
  · intro i _ hi
    have hlen : i < entries.length := Nat.lt_of_lt_of_le hi hle
    have hlt := lt_of_lt_rank (by simpa using hlen) hi
    rw [List.getElem_map] at hlt
    simp only [h.key_eq hlen, bind, Except.bind]
    rw [if_neg (UInt32.ne_of_lt hlt).symm, if_neg (UInt32.lt_asymm hlt)]
    rfl
  · intro i hi hlt
    have hge := le_of_rank_le hkeys (by simpa using hlt) hi
    rw [List.getElem_map] at hge
    simp only [h.key_eq hlt, bind, Except.bind]
    by_cases he : target = entries[i].key
    · right
      rw [if_pos he]
      refine ⟨?_, rfl⟩
      rcases Nat.lt_or_eq_of_le hi with hi | hi
      · have hgt := lt_of_rank_lt hkeys (by simpa using hlt) hi
        rw [List.getElem_map] at hgt
        exact absurd he (UInt32.ne_of_lt hgt)
      · exact hi.symm
    · left
      rw [if_neg he, if_pos (UInt32.lt_of_le_of_ne hge he)]
      rfl

end Leaf.Says

/-- A page that is accepted as a leaf can be read as one. -/
theorem Leaf.ofPage_ok {id : PageId} {page : Page} {leaf : Leaf} (h : ofPage id page = .ok leaf) :
    leaf = { id, page } ∧ ∃ isRoot next entries, Says page isRoot next entries := by
  obtain ⟨hkind, hcount, rfl⟩ := ofPage_eq_ok_iff.mp h
  have hbody : body? page = some (.leaf (Header.rootFlag page) (nextIn page) (entriesIn page)) := by
    simp only [body?, Header.readKind_eq_ok_iff.mp hkind, if_pos hcount]
  exact ⟨rfl, _, _, _, body?_eq_leaf_iff.mp hbody⟩

/-! ## Looking at a branch -/

namespace Branch.Says

variable {id : PageId} {page : Page} {isRoot : Bool} {keys : List UInt32} {children : List PageId}

theorem readKind_eq (h : Says page isRoot keys children) : Header.readKind id page = .ok .branch :=
  Header.readKind_eq_ok_iff.mpr h.kind

theorem ofPage_eq (h : Says page isRoot keys children) : ofPage id page = .ok { id, page } :=
  ofPage_eq_ok_iff.mpr ⟨h.readKind_eq, h.count ▸ h.length_le, rfl⟩

theorem count_eq (h : Says page isRoot keys children) :
    Branch.count { id, page } = keys.length := h.count

theorem right_eq (h : Says page isRoot keys children) {child : PageId}
    (hchild : children[keys.length]? = some child) : Branch.right { id, page } = child := by
  have hlen := h.length_children
  rw [List.getElem?_eq_getElem (by omega), ← h.right] at hchild
  exact Option.some.inj hchild

theorem cellOffset_eq {i : Nat} (hi : i < maxKeys) : cellOffset i = .ok (cellStart i) := by
  rw [cellOffset, if_pos hi]
  rfl

theorem key_eq (h : Says page isRoot keys children) {i : Nat} (hi : i < keys.length) :
    Branch.key { id, page } i = .ok keys[i] := by
  rw [Branch.key, cellOffset_eq (Nat.lt_of_lt_of_le hi h.length_le), ← h.key i hi]
  rfl

theorem cellChild_eq (h : Says page isRoot keys children) {i : Nat} (hi : i < keys.length)
    {child : PageId} (hchild : children[i]? = some child) :
    cellChild { id, page } i = .ok child := by
  have hlen := h.length_children
  rw [List.getElem?_eq_getElem (by omega), ← h.child i hi] at hchild
  rw [cellChild, cellOffset_eq (Nat.lt_of_lt_of_le hi h.length_le), ← Option.some.inj hchild]
  rfl

theorem child_eq (h : Says page isRoot keys children) {i : Nat} {child : PageId}
    (hchild : children[i]? = some child) (hvalid : child.isValid = true) :
    Branch.child { id, page } i = .ok child := by
  have hlen := h.length_children
  have hi : i < children.length := (List.getElem?_eq_some_iff.mp hchild).1
  rw [Branch.child, h.count_eq, if_neg (by omega)]
  by_cases he : i = keys.length
  · subst he
    simp [h.right_eq hchild, bind, Except.bind, pure, Except.pure, hvalid]
  · simp [if_neg he, h.cellChild_eq (show i < keys.length by omega) hchild, bind, Except.bind, pure,
      Except.pure, hvalid]

theorem keys_eq (h : Says page isRoot keys children) :
    Branch.keys { id, page } = .ok keys := by
  have hmap := map_range_eq h.count h.key
  conv_rhs => rw [← hmap]
  refine mapM_eq_ok fun i hi => ?_
  have hi' : i < keys.length := by simpa [h.count_eq] using hi
  rw [h.key_eq hi', h.key i hi']

theorem children_eq (h : Says page isRoot keys children)
    (hvalid : ∀ child ∈ children, child.isValid = true) :
    Branch.children { id, page } = .ok children := by
  have hmap := map_range_eq (f := fun i => (children[i]?).getD PageId.invalid) (l := children)
    (n := keys.length + 1) h.length_children.symm fun i hi => by simp [hi]
  conv_rhs => rw [← hmap]
  rw [Branch.children, h.count_eq]
  refine mapM_eq_ok fun i hi => ?_
  have hi' : i < children.length := by simpa [h.length_children] using hi
  rw [h.child_eq (List.getElem?_eq_getElem hi') (hvalid _ (List.getElem_mem hi'))]
  simp [hi']

/-- The search of a branch does not mind equal separators. -/
theorem findChild_eq_of_le (h : Says page isRoot keys children) (hkeys : keys.Pairwise (· ≤ ·))
    (target : UInt32) : findChild { id, page } target = .ok (rank target keys) := by
  have hle := rank_le target keys
  rw [findChild, bisect, h.count_eq]
  refine bisectWithin_eq (Nat.le_refl _) (Nat.zero_le _) hle ?_ ?_
  · intro i _ hi
    have hlen : i < keys.length := Nat.lt_of_lt_of_le hi hle
    simp only [h.key_eq hlen, bind, Except.bind]
    rw [if_neg (UInt32.not_le.mpr (lt_of_lt_rank hlen hi))]
    rfl
  · intro i hi hlt
    simp only [h.key_eq hlt, bind, Except.bind]
    rw [if_pos (le_getElem_of_rank_le hkeys hlt hi)]
    exact .inl rfl

theorem findChild_eq (h : Says page isRoot keys children) (hkeys : keys.Pairwise (· < ·))
    (target : UInt32) : findChild { id, page } target = .ok (rank target keys) :=
  h.findChild_eq_of_le (hkeys.imp UInt32.le_of_lt) target

theorem indexOfChild_eq_some (h : Says page isRoot keys children) {child : PageId} {place : Nat}
    (hplace : place < keys.length) (hchild : children[place]? = some child)
    (hfirst : ∀ i, i < place → children[i]? ≠ some child) :
    indexOfChild { id, page } child = .ok (some place) := by
  have hlen := h.length_children
  have hfrom : ∀ todo i, todo + i = keys.length → i ≤ place →
      indexOfChildFrom { id, page } child todo i = .ok (some place) := by
    intro todo
    induction todo with
    | zero => intro i hsum hi; omega
    | succ todo ih =>
      intro i hsum hi
      have hget : children[i]? = some children[i] := List.getElem?_eq_getElem (by omega)
      simp only [indexOfChildFrom, h.cellChild_eq (show i < keys.length by omega) hget, bind,
        Except.bind]
      by_cases he : i = place
      · subst he
        rw [if_pos (Option.some.inj (hget.symm.trans hchild))]
        rfl
      · rw [if_neg fun heq : children[i] = child => hfirst i (by omega) (by rw [hget, heq])]
        exact ih (i + 1) (by omega) (by omega)
  rw [indexOfChild, h.count_eq]
  exact hfrom _ 0 rfl (Nat.zero_le _)

theorem indexOfChild_eq_none (h : Says page isRoot keys children) {child : PageId}
    (hnone : ∀ i, i < keys.length → children[i]? ≠ some child) :
    indexOfChild { id, page } child = .ok none := by
  have hlen := h.length_children
  have hfrom : ∀ todo i, todo + i = keys.length →
      indexOfChildFrom { id, page } child todo i = .ok none := by
    intro todo
    induction todo with
    | zero => intro i _; rfl
    | succ todo ih =>
      intro i hsum
      have hget : children[i]? = some children[i] := List.getElem?_eq_getElem (by omega)
      simp only [indexOfChildFrom, h.cellChild_eq (show i < keys.length by omega) hget, bind,
        Except.bind]
      rw [if_neg fun heq : children[i] = child => hnone i (by omega) (by rw [hget, heq])]
      exact ih (i + 1) (by omega)
  rw [indexOfChild, h.count_eq]
  exact hfrom _ 0 rfl

/-- A child that is found is the one on the page. -/
theorem child_ok (h : Says page isRoot keys children) {i : Nat} {child : PageId}
    (hchild : Branch.child { id, page } i = .ok child) : children[i]? = some child := by
  have hlen := h.length_children
  rw [Branch.child, h.count_eq] at hchild
  by_cases hi : keys.length < i
  · rw [if_pos hi] at hchild
    cases hchild
  · have hget : children[i]? = some children[i] := List.getElem?_eq_getElem (by omega)
    have hfound : children[i] = child := by
      by_cases he : i = keys.length
      · subst he
        simp only [h.right_eq hget, bind, Except.bind, pure, Except.pure, Nat.lt_irrefl, if_false,
          if_true] at hchild
        split at hchild
        · exact Except.ok.inj hchild
        · cases hchild
      · simp only [if_neg hi, if_neg he, h.cellChild_eq (by omega) hget, bind, Except.bind, pure,
          Except.pure] at hchild
        split at hchild
        · exact Except.ok.inj hchild
        · cases hchild
    rw [hget, hfound]

/-- If the children of a branch can be listed, they are those on its page. -/
theorem children_ok (h : Says page isRoot keys children) {listed : List PageId}
    (hlisted : Branch.children { id, page } = .ok listed) : listed = children := by
  have hmap := map_range_eq (f := fun i => (children[i]?).getD PageId.invalid) (l := children)
    (n := keys.length + 1) h.length_children.symm fun i hi => by simp [hi]
  rw [Branch.children, h.count_eq] at hlisted
  rw [← hmap]
  refine mapM_ok (fun i _ child hchild => ?_) hlisted
  rw [h.child_ok hchild, Option.getD_some]

end Branch.Says

/-- A blank page is a branch without separators, whose right child is page 0. -/
theorem Branch.says_blank : Branch.Says Bytes.zero false [] [PageId.root] := by
  have hzero (off : Nat) : (Bytes.zero : Page).word off = 0 := by
    simp only [Bytes.word, Bytes.byte_zero]
    rfl
  refine ⟨?_, ?_, Nat.zero_le _, rfl, ?_, ?_, ?_, ?_⟩
  · rw [Bytes.byte_zero]
    rfl
  · rw [countIn, hzero]
    rfl
  · rw [Header.rootFlag, Bytes.byte_zero]
    rfl
  · intro i hi
    cases hi
  · intro i hi
    cases hi
  · rw [rightIn, hzero]
    rfl

theorem Branch.Says.children_of_blank {isRoot : Bool} {keys : List UInt32} {children : List PageId}
    (h : Branch.Says Bytes.zero isRoot keys children) : children = [PageId.root] :=
  (h.unique Branch.says_blank).2.2

/-- No page is a leaf and a branch. -/
theorem Leaf.Says.not_branch {page : Page} {isRoot b : Bool} {next : Option PageId}
    {entries : List Entry} {keys : List UInt32} {children : List PageId}
    (h : Leaf.Says page isRoot next entries) : ¬Branch.Says page b keys children := by
  intro hbranch
  have hkind := h.kind.symm.trans hbranch.kind
  cases hkind

/-- A page that is accepted as a branch can be read as one. -/
theorem Branch.ofPage_ok {id : PageId} {page : Page} {branch : Branch}
    (h : ofPage id page = .ok branch) :
    branch = { id, page } ∧ ∃ isRoot keys children, Says page isRoot keys children := by
  obtain ⟨hkind, hcount, rfl⟩ := ofPage_eq_ok_iff.mp h
  have hbody : body? page =
      some (.branch (Header.rootFlag page) (keysIn page) (childrenIn page)) := by
    simp only [body?, Header.readKind_eq_ok_iff.mp hkind, if_pos hcount]
  exact ⟨rfl, _, _, _, body?_eq_branch_iff.mp hbody⟩

end RowStore
