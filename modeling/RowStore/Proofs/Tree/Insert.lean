/-
  RowStore/Proofs/Tree/Insert.lean
  ================================
  **Looking up and inserting keys.**  The entries of a tree are a map from keys to values.
  A search by key ends between the entries with smaller keys and the others, and from that
  place one can tell whether the key is there.
-/
import RowStore.Proofs.Tree.Growth
import RowStore.Tree.Cursor

namespace RowStore

/-! ## Entries as a map -/

/-- The value of a key. -/
def lookup (entries : List Entry) (key : UInt32) : Option (List UInt8) :=
  (entries.find? fun entry => entry.key = key).map Entry.value

section Lookup

variable {a b : List Entry} {x : Entry} {key : UInt32}

theorem lookup_append (a b : List Entry) (key : UInt32) :
    lookup (a ++ b) key = (lookup a key).or (lookup b key) := by
  rw [lookup, List.find?_append, Option.map_or]
  rfl

theorem lookup_cons (x : Entry) (b : List Entry) (key : UInt32) :
    lookup (x :: b) key = if x.key = key then some x.value else lookup b key := by
  rw [lookup, List.find?_cons]
  split
  · rename_i h
    rw [if_pos (of_decide_eq_true h)]
    rfl
  · rename_i h
    rw [if_neg (of_decide_eq_false h), lookup]

theorem lookup_eq_none_iff : lookup a key = none ↔ key ∉ a.map Entry.key := by
  rw [lookup, Option.map_eq_none_iff, List.find?_eq_none]
  simp only [decide_eq_true_eq, List.mem_map, not_exists, not_and]

/-- A new entry is found by its key, and changes nothing for other keys. -/
theorem lookup_insert (hnew : x.key ∉ (a ++ b).map Entry.key) (key : UInt32) :
    lookup (a ++ x :: b) key = if key = x.key then some x.value else lookup (a ++ b) key := by
  rw [lookup_append, lookup_append, lookup_cons]
  by_cases he : key = x.key
  · subst he
    rw [List.map_append, List.mem_append, not_or] at hnew
    rw [if_pos rfl, if_pos rfl, lookup_eq_none_iff.mpr hnew.1]
    rfl
  · rw [if_neg (Ne.symm he), if_neg he]

end Lookup

theorem getElem?_length_append {α : Type} (a b : List α) : (a ++ b)[a.length]? = b.head? := by
  rw [List.getElem?_append_right (Nat.le_refl _), Nat.sub_self, List.head?_eq_getElem?]

/-! ## Cursors -/

namespace Tree

variable {H : Nat}

section Cursors

variable {K : Heap} {id parent : PageId} {isRoot : Bool} {next : Option PageId}
variable {entries : List Entry}

theorem reads_key (h : (id, ⟨some (.leaf isRoot next entries), parent⟩) ∈ K) (cell : Nat)
    (atEnd : Bool) :
    Reads (Cursor.key { page := id, cell, atEnd }) K (.ok (entries[cell]?.map Entry.key)) := by
  refine Reads.sees_bind (sees_leaf h) ?_
  rintro _ ⟨page, rfl, hnode, -⟩
  have hcount : Leaf.count { id, page } = entries.length := hnode.count_eq
  by_cases hcell : cell < entries.length
  · rw [hcount, if_pos hcell, List.getElem?_eq_getElem hcell]
    exact Reads.lift_bind (hnode.key_eq hcell) (Reads.pure _)
  · rw [hcount, if_neg hcell, List.getElem?_eq_none (Nat.not_lt.mp hcell)]
    exact Reads.pure _

theorem reads_value (h : (id, ⟨some (.leaf isRoot next entries), parent⟩) ∈ K) {cell : Nat}
    {entry : Entry} (hentry : entries[cell]? = some entry) (atEnd : Bool) :
    Reads (Cursor.value { page := id, cell, atEnd }) K (.ok entry.value) := by
  refine Reads.sees_bind (sees_leaf h) ?_
  rintro _ ⟨page, rfl, hnode, -⟩
  have hcount : Leaf.count { id, page } = entries.length := hnode.count_eq
  obtain ⟨hcell, rfl⟩ := List.getElem?_eq_some_iff.mp hentry
  rw [hcount, if_neg (Nat.not_le.mpr hcell)]
  rw [hnode.value_eq hcell]
  exact Reads.lift _

end Cursors

/-! ## The place of a key -/

/-- The place of `key`: smaller keys stand before it, and the others from `b` on. -/
structure Locates (key : UInt32) (t : Subtree H) (place : Trail H 0) (id : PageId)
    (next : Option PageId) (a b : List Entry) : Prop where
  descends : Descends key place (.leaf id next (a ++ b)) (.top : Trail H H) t
  before : ∀ k ∈ place.before.keys, k < key
  low : ∀ k ∈ a.map Entry.key, k < key
  high : ∀ k ∈ b.map Entry.key, key ≤ k
  after : ∀ k ∈ place.after.keys, key < k
  last : place.IsLast ∨ b ≠ []

theorem exists_locates {t : Subtree H} (hs : t.Sound) (key : UInt32) :
    ∃ place id next a b, Locates key t place id next a b := by
  obtain ⟨place, last, hd⟩ := exists_descends key hs.formed (.top : Trail H H)
  obtain ⟨id, next, entries⟩ := last
  change Descends key place (.leaf id next entries) .top t at hd
  have hfill := hd.fill_eq
  have hformed := hs.formed
  rw [show t = place.fill _ from hfill.symm, Trail.formed_fill] at hformed
  have hkeys : (entries.map Entry.key).Pairwise (· < ·) := by
    have h := hs.ascending
    rw [show t = place.fill _ from hfill.symm, Subtree.keys, Trail.leaves_fill, Leaves.keys_append,
      Leaves.keys_append, List.pairwise_append, List.pairwise_append] at h
    simpa using h.1.2.1
  obtain ⟨hbefore, hafter⟩ := hd.around hs.formed hs.ascending (by simp [Trail.before])
    (by simp [Trail.after])
  have hlow : ∀ k ∈ (entries.take (rank key (entries.map Entry.key))).map Entry.key, k < key :=
    fun k hk => lt_of_mem_take_rank (List.map_take ▸ hk)
  have hhigh : ∀ k ∈ (entries.drop (rank key (entries.map Entry.key))).map Entry.key, key ≤ k :=
    fun k hk => le_of_mem_drop_rank hkeys (List.map_drop ▸ hk)
  refine ⟨place, id, next, entries.take (rank key (entries.map Entry.key)),
    entries.drop (rank key (entries.map Entry.key)), ?_, hbefore, hlow, hhigh, hafter, ?_⟩
  · rwa [List.take_append_drop]
  · by_cases htop : place.isTop = true
    · exact .inl (Trail.isLast_of_isTop htop)
    · rw [Bool.eq_false_iff.mpr htop] at hformed
      refine (hd.isLast_or_le hs.formed hs.ascending (.inl trivial)).imp_right fun hle hnil => ?_
      -- All keys of the leaf would be smaller, and so would be the greatest.
      have hmem := Subtree.greatest_mem_keys hformed.1
      have hall := List.take_append_drop (rank key (entries.map Entry.key)) entries
      rw [hnil, List.append_nil] at hall
      rw [Subtree.keys_leaf] at hmem
      exact UInt32.not_le.mpr (hlow _ (by rw [hall]; exact hmem)) hle

namespace Locates

variable {key : UInt32} {t : Subtree H} {place : Trail H 0} {id q : PageId}
variable {next : Option PageId} {a b : List Entry}

theorem fill_eq (hl : Locates key t place id next a b) :
    place.fill (.leaf id next (a ++ b)) = t :=
  hl.descends.fill_eq

/-- The search for a key finds its place. -/
theorem reads_find (hl : Locates key t place id next a b) (hs : t.Sound) (hH : H < maxPages)
    (q : PageId) : Reads (find key) (t.heap true q) (.ok (id, a.length)) := by
  have h := hl.descends.reads_findBelow hs.formed hs.ascending true q hH
  rwa [hs.root, Subtree.keys_leaf, List.map_append, rank_append hl.low hl.high,
    List.length_map] at h

theorem heap_perm (hl : Locates key t place id next a b) (q : PageId) :
    (t.heap true q).Perm ((Subtree.leaf id next (a ++ b)).heap place.isTop (place.parent q) ++
      place.heap q (Subtree.leaf id next (a ++ b)).link) :=
  hl.fill_eq ▸ place.heap_fill q _

theorem mem_heap (hl : Locates key t place id next a b) (q : PageId) :
    (id, ⟨some (.leaf place.isTop next (a ++ b)), place.parent q⟩) ∈ t.heap true q :=
  (hl.heap_perm q).symm.subset (List.mem_append_left _ List.mem_cons_self)

theorem reads_findKey (hl : Locates key t place id next a b) (hs : t.Sound) (hH : H < maxPages)
    (q : PageId) :
    Reads (findKey key) (t.heap true q) (.ok { page := id, cell := a.length, atEnd := false }) :=
  Reads.bind (hl.reads_find hs hH q) (Reads.pure _)

theorem reads_key (hl : Locates key t place id next a b) (q : PageId) :
    Reads (Cursor.key { page := id, cell := a.length, atEnd := false }) (t.heap true q)
      (.ok (b.head?.map Entry.key)) := by
  rw [← getElem?_length_append a b]
  exact Tree.reads_key (hl.mem_heap q) a.length false

theorem entries_eq (hl : Locates key t place id next a b) :
    t.leaves.entries = place.before.entries ++ (a ++ b) ++ place.after.entries := by
  rw [← hl.fill_eq, Trail.leaves_fill]
  simp

theorem keys_eq (hl : Locates key t place id next a b) :
    t.keys = (place.before.keys ++ a.map Entry.key) ++ (b.map Entry.key ++ place.after.keys) := by
  rw [Subtree.keys, Leaves.keys, hl.entries_eq]
  simp [Leaves.keys]

/-- The key is there exactly if the first entry behind the place has it. -/
theorem lookup_eq (hl : Locates key t place id next a b) (hs : t.Sound) :
    lookup t.leaves.entries key =
      if b.head?.map Entry.key = some key then b.head?.map Entry.value else none := by
  have hnone : ∀ entries : List Entry, (∀ k ∈ entries.map Entry.key, k ≠ key) →
      lookup entries key = none :=
    fun entries h => lookup_eq_none_iff.mpr fun hmem => h key hmem rfl
  rw [hl.entries_eq, lookup_append, lookup_append, lookup_append,
    hnone _ fun k hk => UInt32.ne_of_lt (hl.before k hk),
    hnone a fun k hk => UInt32.ne_of_lt (hl.low k hk),
    hnone _ fun k hk => (UInt32.ne_of_lt (hl.after k hk)).symm, Option.none_or, Option.none_or,
    Option.or_none]
  cases b with
  | nil => rfl
  | cons x b =>
    rw [lookup_cons]
    by_cases hx : x.key = key
    · simp [hx]
    · have hkeys := hs.ascending
      rw [hl.keys_eq, List.pairwise_append, List.map_cons, List.cons_append,
        List.pairwise_cons] at hkeys
      have hlt : key < x.key :=
        UInt32.lt_of_le_of_ne (hl.high x.key (by simp)) (Ne.symm hx)
      have hrest : lookup b key = none := hnone b fun k hk =>
        (UInt32.ne_of_lt (UInt32.lt_trans hlt (hkeys.2.1.1 k (List.mem_append_left _ hk)))).symm
      simp [hx, hrest]

/-- A new key goes to its place. -/
theorem fits (hl : Locates key t place id next a b) (hs : t.Sound)
    (hnew : lookup t.leaves.entries key = none) {value : List UInt8}
    (hvalue : value.length = Leaf.valueSize) : Fits place id next a b { key, value } := by
  have hformed := hs.formed
  have hroot := hs.root
  rw [← hl.fill_eq] at hformed hroot
  rw [Trail.formed_fill] at hformed
  rw [Trail.id_fill] at hroot
  refine ⟨hformed.2, hformed.1, hroot, ?_, hl.last, hvalue⟩
  have hkeys := hs.ascending
  rw [lookup_eq_none_iff] at hnew
  change key ∉ t.keys at hnew
  rw [hl.keys_eq] at hkeys hnew
  have hhigh : ∀ k ∈ b.map Entry.key ++ place.after.keys, key < k := by
    intro k hk
    rcases List.mem_append.mp hk with hb | hafter
    · exact UInt32.lt_of_le_of_ne (hl.high k hb)
        fun he => hnew (List.mem_append_right _ (he ▸ hk))
    · exact hl.after k hafter
  have hlow : ∀ k ∈ place.before.keys ++ a.map Entry.key, k < key := fun k hk =>
    (List.mem_append.mp hk).elim (hl.before k) (hl.low k)
  obtain ⟨hleft, hright, hacross⟩ := List.pairwise_append.mp hkeys
  have hall : ((place.before.keys ++ a.map Entry.key) ++
      key :: (b.map Entry.key ++ place.after.keys)).Pairwise (· < ·) := by
    refine List.pairwise_append.mpr ⟨hleft, List.pairwise_cons.mpr ⟨hhigh, hright⟩, ?_⟩
    intro k hk k' hk'
    rcases List.mem_cons.mp hk' with rfl | hk'
    · exact hlow k hk
    · exact hacross k hk k' hk'
  simpa using hall

end Locates

/-! ## Looking up -/

section Operations

variable {t : Subtree H} {key : UInt32}

theorem reads_findKey (hs : t.Sound) (hH : H < maxPages) (key : UInt32) :
    ∃ cursor, ∀ q : PageId, Reads (findKey key) (t.heap true q) (.ok cursor) := by
  obtain ⟨place, id, next, a, b, hl⟩ := exists_locates hs key
  exact ⟨{ page := id, cell := a.length, atEnd := false },
    fun q => hl.reads_findKey hs hH q⟩

/-- A key is found with its value, or is not there. -/
theorem reads_get (hs : t.Sound) (hH : H < maxPages) (key : UInt32) (q : PageId) :
    Reads (Tree.get key) (t.heap true q) (.ok (lookup t.leaves.entries key)) := by
  obtain ⟨place, id, next, a, b, hl⟩ := exists_locates hs key
  rw [hl.lookup_eq hs]
  refine Reads.bind (hl.reads_findKey hs hH q) ?_
  refine Reads.bind (hl.reads_key q) ?_
  by_cases hkey : b.head?.map Entry.key = some key
  · rw [if_pos hkey, if_pos hkey]
    obtain ⟨entry, hentry, -⟩ := Option.map_eq_some_iff.mp hkey
    rw [hentry, Option.map_some]
    exact Reads.bind (reads_value (hl.mem_heap q) ((getElem?_length_append a b).trans hentry) false)
      (Reads.pure _)
  · rw [if_neg hkey, if_neg hkey]
    exact Reads.pure _

/-! ## Inserting -/

theorem reads_insert_present (hs : t.Sound) (hH : H < maxPages) {present : List UInt8}
    (hkey : lookup t.leaves.entries key = some present) (value : List UInt8) (q : PageId) :
    Reads (insert key value) (t.heap true q) (.error (.error (.duplicateKey key))) := by
  obtain ⟨place, id, next, a, b, hl⟩ := exists_locates hs key
  rw [hl.lookup_eq hs] at hkey
  have hhead : b.head?.map Entry.key = some key := by
    by_contra hne
    rw [if_neg hne] at hkey
    cases hkey
  refine Reads.bind (hl.reads_findKey hs hH q) ?_
  refine Reads.bind (hl.reads_key q) ?_
  rw [if_pos hhead]
  exact Reads.bind_error (Reads.refuse _)

/-- A new key gets as far as its place. -/
theorem Locates.head_ne {place : Trail H 0} {id : PageId} {next : Option PageId} {a b : List Entry}
    (hl : Locates key t place id next a b) (hs : t.Sound)
    (hnew : lookup t.leaves.entries key = none) : b.head?.map Entry.key ≠ some key := by
  intro he
  rw [hl.lookup_eq hs, if_pos he] at hnew
  rw [Option.map_eq_none_iff.mp hnew] at he
  cases he

theorem reads_insert_mismatch (hs : t.Sound) (hH : H < maxPages)
    (hnew : lookup t.leaves.entries key = none) {value : List UInt8}
    (hvalue : value.length ≠ Leaf.valueSize) (q : PageId) :
    Reads (insert key value) (t.heap true q)
      (.error (.error (.valueSizeMismatch Leaf.valueSize value.length))) := by
  obtain ⟨place, id, next, a, b, hl⟩ := exists_locates hs key
  refine Reads.bind (hl.reads_findKey hs hH q) ?_
  refine Reads.bind (hl.reads_key q) ?_
  rw [if_neg (hl.head_ne hs hnew), Cursor.insert, insertAt]
  simp only [hvalue, ne_eq, not_false_eq_true, if_true]
  exact Reads.bind_error (Reads.refuse _)

section New

variable {place : Trail H 0} {id q : PageId} {next : Option PageId} {a b : List Entry}
variable {value : List UInt8} {n : Nat}

theorem takes_insert (hl : Locates key t place id next a b) (hs : t.Sound) (hH : H < maxPages)
    (hnew : lookup t.leaves.entries key = none) (hvalue : value.length = Leaf.valueSize)
    (hroom : n + place.needed (a ++ b).length ≤ maxPages) :
    Takes (insert key value) n (t.heap true q) (.ok ()) (n + place.needed (a ++ b).length)
      ((place.grown n id next a b { key, value }).2.heap true q) := by
  refine Takes.reads_bind (hl.reads_findKey hs hH q) ?_
  refine Takes.reads_bind (hl.reads_key q) ?_
  rw [if_neg (hl.head_ne hs hnew), Cursor.insert]
  exact (takes_insertAt (hl.fits hs hnew hvalue) hH hroom).perm (hl.heap_perm q).symm (.refl _)

theorem insert_refused (hl : Locates key t place id next a b) (hs : t.Sound) (hH : H < maxPages)
    (hnew : lookup t.leaves.entries key = none) (hvalue : value.length = Leaf.valueSize) {v : View}
    (hgives : Gives v.Shown (t.heap true q))
    (hfull : maxPages - v.numPages < place.needed (a ++ b).length) :
    Leads Pager.view (insert key value) v (.error (.error .tableFull)) v := by
  refine ((hl.reads_findKey hs hH q).leads hgives).bind ?_
  refine ((hl.reads_key q).leads hgives).bind ?_
  rw [if_neg (hl.head_ne hs hnew), Cursor.insert]
  exact insertAt_refused (hl.fits hs hnew hvalue) hH
    (fun x hx => hgives x ((hl.heap_perm q).symm.subset hx)) hfull

theorem Locates.sound_grown (hl : Locates key t place id next a b) (hs : t.Sound)
    (hnew : lookup t.leaves.entries key = none) (hvalue : value.length = Leaf.valueSize) (n : Nat) :
    (place.grown n id next a b { key, value }).2.Sound :=
  (hl.fits hs hnew hvalue).sound_grown n (by rw [hl.fill_eq]; exact hs.chained)

/-- The grown tree has the new key, and all others as before. -/
theorem Locates.lookup_grown (hl : Locates key t place id next a b)
    (hnew : lookup t.leaves.entries key = none) (n : Nat) (k : UInt32) :
    lookup (place.grown n id next a b { key, value }).2.leaves.entries k =
      if k = key then some value else lookup t.leaves.entries k := by
  rw [lookup_eq_none_iff] at hnew
  rw [hl.entries_eq] at hnew ⊢
  rw [Trail.entries_grown]
  have h := @lookup_insert (place.before.entries ++ a) (b ++ place.after.entries) { key, value }
    (by simpa using hnew) k
  simpa using h

end New

end Operations

end Tree
end RowStore
