/-
  RowStore/Proofs/Node/Writing.lean
  =================================
  **What edits make of a node.**  Each edit of a page is described by what the page says
  before and after it: its body and its parent.  `Turns e x a y` states that on every page
  that says `x` the edit `e` succeeds with `a` and leaves a page that says `y`.

  Proofs go down to bytes here and nowhere else.  Two pages with the same bytes outside
  the parent field have the same body, and an entry or a cell is known by its bytes, so
  that a write or a move is followed byte by byte.
-/
import Mathlib.Tactic.Common
import RowStore.Proofs.Node.Reading

namespace RowStore

variable {α β : Type} {n : Nat}

/-! ## Bytes after a write -/

namespace Bytes

theorem byte_putWord_of_not_mem (b : Bytes n) {off i : Nat} {w : UInt32}
    (h : i < off ∨ off + 4 ≤ i) : (b.putWord off w).byte i = b.byte i :=
  byte_put_of_not_mem b (by simpa using h)

/-- A move copies its stretch and leaves all other bytes. -/
theorem byte_move (b : Bytes n) (src len dst i : Nat) :
    (b.move src len dst).byte i =
      if dst ≤ i ∧ i < dst + len ∧ i < n then b.byte (src + (i - dst)) else b.byte i := by
  rw [move, byte_put, length_slice]
  split
  · rename_i h
    rw [getElem?_slice, if_pos (by omega), Option.getD_some]
  · rfl

/-- Stretches with the same bytes are equal, wherever they stand. -/
theorem slice_congr {b b' : Bytes n} {off off' len : Nat}
    (h : ∀ i, i < len → b'.byte (off' + i) = b.byte (off + i)) :
    b'.slice off' len = b.slice off len := by
  simp only [slice, List.map_inj_left, List.mem_range]
  exact h

/-- The cells from `i` up to `count`, moved up by one. -/
def shift (b : Bytes n) (base size i count : Nat) : Bytes n :=
  b.move (base + i * size) (base + count * size - (base + i * size)) (base + i * size + size)

theorem byte_shift_of_lt (b : Bytes n) {base size i count k : Nat}
    (h : k < base + i * size + size) :
    (b.shift base size i count).byte k = b.byte k := by
  rw [shift, byte_move, if_neg (by omega)]

theorem byte_shift_of_ge (b : Bytes n) {base size i count k : Nat} (hi : i ≤ count)
    (h : base + (count + 1) * size ≤ k) : (b.shift base size i count).byte k = b.byte k := by
  have hmul : i * size ≤ count * size := Nat.mul_le_mul_right size hi
  rw [Nat.succ_mul] at h
  rw [shift, byte_move, if_neg (by omega)]

theorem byte_shift_succ (b : Bytes n) {base size i count j x : Nat} (hi : i ≤ j) (hj : j < count)
    (hx : x < size) (hn : base + (count + 1) * size ≤ n) :
    (b.shift base size i count).byte (base + (j + 1) * size + x) =
      b.byte (base + j * size + x) := by
  have hij : i * size ≤ j * size := Nat.mul_le_mul_right size hi
  have hjc : (j + 1) * size ≤ count * size := Nat.mul_le_mul_right size hj
  rw [Nat.succ_mul] at hn hjc ⊢
  rw [shift, byte_move, if_pos (by omega)]
  congr 1
  omega

/-- With no cell to move, nothing changes. -/
theorem shift_self (b : Bytes n) (base size count : Nat) : b.shift base size count count = b := by
  apply ext_byte
  intro k _
  rw [shift, byte_move, if_neg (by omega)]

theorem word_congr {b b' : Bytes n} {off off' : Nat}
    (h : ∀ i, i < 4 → b'.byte (off' + i) = b.byte (off + i)) : b'.word off' = b.word off := by
  simp only [word]
  rw [h 1 (by decide), h 2 (by decide), h 3 (by decide)]
  congr 1
  exact h 0 (by decide)

end Bytes

theorem toBytes_injective {w w' : UInt32} (h : Word.toBytes w = Word.toBytes w') : w = w' := by
  simp only [Word.toBytes, List.cons.injEq, and_true] at h
  obtain ⟨h0, h1, h2, h3⟩ := h
  rw [← Word.ofBytes_toBytes w, h0, h1, h2, h3, Word.ofBytes_toBytes]

/-- A word is known by its bytes. -/
theorem word_of_slice {b : Bytes n} {off : Nat} {w : UInt32}
    (h : b.slice off 4 = Word.toBytes w) : b.word off = w :=
  toBytes_injective ((slice_four b off).symm.trans h)

/-! ## Readings -/

/-- All that a page says. -/
structure Reading where
  body : Option Body
  parent : PageId
deriving DecidableEq

def reading (page : Page) : Reading := { body := body? page, parent := Header.parentOf page }

/-- What an edit makes of a page that says `x`. -/
def Turns (e : Edit pageSize α) (x : Reading) (a : α) (y : Reading) : Prop :=
  ∀ page : Page, reading page = x → ∃ after : Page, e.run page = .ok a after ∧ reading after = y

theorem Turns.bind {e : Edit pageSize α} {f : α → Edit pageSize β} {x y z : Reading} {a : α}
    {b : β} (he : Turns e x a y) (hf : Turns (f a) y b z) : Turns (e >>= f) x b z := by
  intro page hx
  obtain ⟨middle, hrun, hy⟩ := he page hx
  obtain ⟨after, hrun', hz⟩ := hf middle hy
  exact ⟨after, by rw [EStateM.run_bind, hrun]; exact hrun', hz⟩

/-! ## The parts of a page -/

/-- Parts that are read one by one, after one more was put in between. -/
theorem getElem?_insertIdx_of {l : List α} {f g : Nat → α} {count i : Nat} {a : α} (hi : i ≤ count)
    (hcount : count ≤ l.length) (hl : ∀ j, j < count → l[j]? = some (f j))
    (hbelow : ∀ j, j < i → g j = f j) (hnew : g i = a)
    (habove : ∀ j, i ≤ j → j < count → g (j + 1) = f j) {j : Nat} (hj : j < count + 1) :
    (l.insertIdx i a)[j]? = some (g j) := by
  rcases Nat.lt_trichotomy j i with h | rfl | h
  · rw [List.getElem?_insertIdx_of_lt h, hl j (by omega), hbelow j h]
  · rw [List.getElem?_insertIdx_self, if_pos (by omega), hnew]
  · obtain ⟨k, rfl⟩ := Nat.exists_eq_add_one_of_ne_zero (Nat.ne_zero_of_lt h)
    rw [List.getElem?_insertIdx_of_gt h, habove k (by omega) (by omega)]
    exact hl k (by omega)

namespace Leaf

theorem cellStart_eq (i : Nat) : cellStart i = 14 + 295 * i := by
  rw [Nat.mul_comm]
  rfl

/-- Cells stand behind the header. -/
theorem headerSize_le (i x : Nat) : headerSize ≤ cellStart i + x := by
  rw [cellStart, Nat.add_assoc]
  exact Nat.le_add_right _ _

theorem cellStart_add_keySize_le {i : Nat} (hi : i < maxCells) :
    cellStart i + keySize ≤ pageSize :=
  Nat.le_trans (Nat.add_le_add_left (by decide) _) (cellStart_add_le hi)

theorem cellStart_add_keySize_add_le {i : Nat} (hi : i < maxCells) :
    cellStart i + keySize + valueSize ≤ pageSize := by
  rw [Nat.add_assoc]
  exact cellStart_add_le hi

/-- An entry is known by the bytes of its cell. -/
theorem entryAt_congr {page page' : Page} {i j : Nat}
    (h : ∀ x, x < 295 → page'.byte (cellStart j + x) = page.byte (cellStart i + x)) :
    entryAt page' j = entryAt page i := by
  have hvalue : ∀ x, x < valueSize →
      page'.byte (cellStart j + keySize + x) = page.byte (cellStart i + keySize + x) := by
    intro x hx
    have := h (4 + x) (by change x < 291 at hx; omega)
    rwa [← Nat.add_assoc, ← Nat.add_assoc] at this
  simp only [entryAt, Entry.mk.injEq]
  exact ⟨Bytes.word_congr fun x hx => h x (by omega), Bytes.slice_congr hvalue⟩

/-- A leaf with other bytes says the same, but for the fields that are told anew. -/
theorem Says.congr {page page' : Page} {isRoot isRoot' : Bool} {next next' : Option PageId}
    {entries : List Entry} (h : Says page isRoot next entries)
    (hkind : page'.byte 0 = page.byte 0) (hroot : Header.rootFlag page' = isRoot')
    (hcount : page'.word 6 = page.word 6) (hnext : nextIn page' = next')
    (hcells : ∀ i, 14 ≤ i → page'.byte i = page.byte i) : Says page' isRoot' next' entries where
  kind := by rw [hkind]; exact h.kind
  count := (congrArg UInt32.toNat hcount).trans h.count
  length_le := h.length_le
  root := hroot
  next := hnext
  entry i hi := by
    rw [← h.entry i hi]
    exact entryAt_congr fun x _ => hcells _ (headerSize_le i x)

end Leaf

namespace Branch

theorem cellStart_eq (i : Nat) : cellStart i = 14 + 8 * i := by
  rw [Nat.mul_comm]
  rfl

/-- Cells stand behind the header. -/
theorem headerSize_le (i x : Nat) : headerSize ≤ cellStart i + x := by
  rw [cellStart, Nat.add_assoc]
  exact Nat.le_add_right _ _

theorem cellStart_add_childSize_le {i : Nat} (hi : i < maxKeys) :
    cellStart i + childSize ≤ pageSize :=
  Nat.le_trans (Nat.add_le_add_left (by decide) _) (cellStart_add_le hi)

theorem cellStart_add_childSize_add_le {i : Nat} (hi : i < maxKeys) :
    cellStart i + childSize + keySize ≤ pageSize := by
  rw [Nat.add_assoc]
  exact cellStart_add_le hi

/-- A cell is known by its bytes. -/
theorem cellAt_congr {page page' : Page} {i j : Nat}
    (h : ∀ x, x < 8 → page'.byte (cellStart j + x) = page.byte (cellStart i + x)) :
    keyAt page' j = keyAt page i ∧ childAt page' j = childAt page i := by
  constructor
  · refine Bytes.word_congr fun x hx => ?_
    have := h (4 + x) (by omega)
    rwa [← Nat.add_assoc, ← Nat.add_assoc] at this
  · exact congrArg PageId.mk (Bytes.word_congr fun x hx => h x (by omega))

/-- A branch with other bytes says the same, but for the root flag and the right child. -/
theorem Says.congr {page page' : Page} {isRoot isRoot' : Bool} {keys : List UInt32}
    {children : List PageId} {r : PageId} (h : Says page isRoot keys children)
    (hkind : page'.byte 0 = page.byte 0) (hroot : Header.rootFlag page' = isRoot')
    (hcount : page'.word 6 = page.word 6) (hright : rightIn page' = r)
    (hcells : ∀ i, 14 ≤ i → page'.byte i = page.byte i) :
    Says page' isRoot' keys (children.take keys.length ++ [r]) where
  kind := by rw [hkind]; exact h.kind
  count := (congrArg UInt32.toNat hcount).trans h.count
  length_le := h.length_le
  length_children := by simp [h.length_children]
  root := hroot
  key i hi := by
    rw [← h.key i hi]
    exact (cellAt_congr fun x _ => hcells _ (headerSize_le i x)).1
  child i hi := by
    have := h.length_children
    rw [List.getElem_append_left (by rw [List.length_take]; omega), List.getElem_take,
      ← h.child i hi]
    exact (cellAt_congr fun x _ => hcells _ (headerSize_le i x)).2
  right := by
    have := h.length_children
    rw [List.getElem_append_right (List.length_take_le _ _)]
    simpa using hright

theorem Says.children_eq_append {page : Page} {isRoot : Bool} {keys : List UInt32}
    {children : List PageId} (h : Says page isRoot keys children) :
    children = children.take keys.length ++ [rightIn page] := by
  have hlen := h.length_children
  rw [h.right, List.take_append_getElem, List.take_of_length_le (Nat.le_of_eq hlen)]

end Branch

/-- The body is in the bytes outside the parent field. -/
theorem body?_congr {page page' : Page} (h : ∀ i, i < 2 ∨ 6 ≤ i → page'.byte i = page.byte i) :
    body? page' = body? page := by
  have hword : ∀ off, 6 ≤ off → page'.word off = page.word off := fun off hoff =>
    Bytes.word_congr fun i _ => h _ (.inr (by omega))
  have hentries : Leaf.entriesIn page' = Leaf.entriesIn page := by
    have hentry : Leaf.entryAt page' = Leaf.entryAt page := funext fun i =>
      Leaf.entryAt_congr fun x _ => h _ (.inr (by rw [Leaf.cellStart_eq]; omega))
    rw [Leaf.entriesIn, Leaf.entriesIn, hentry, Leaf.countIn, Leaf.countIn,
      hword _ (Nat.le_refl 6)]
  have hcell : ∀ i, Branch.keyAt page' i = Branch.keyAt page i ∧
      Branch.childAt page' i = Branch.childAt page i := fun i =>
    Branch.cellAt_congr fun x _ => h _ (.inr (by rw [Branch.cellStart_eq]; omega))
  have hkeys : Branch.keysIn page' = Branch.keysIn page := by
    rw [Branch.keysIn, Branch.keysIn, funext fun i => (hcell i).1, Branch.countIn, Branch.countIn,
      hword _ (Nat.le_refl 6)]
  have hchildren : Branch.childrenIn page' = Branch.childrenIn page := by
    rw [Branch.childrenIn, Branch.childrenIn, funext fun i => (hcell i).2, Branch.countIn,
      Branch.countIn, hword _ (Nat.le_refl 6), Branch.rightIn, Branch.rightIn,
      hword _ (by decide)]
  have hnext : Leaf.nextIn page' = Leaf.nextIn page := by
    rw [Leaf.nextIn, Leaf.nextIn, hword _ (by decide)]
  have hroot : Header.rootFlag page' = Header.rootFlag page := by
    rw [Header.rootFlag, Header.rootFlag, h _ (.inl (by decide))]
  rw [body?, body?, hentries, hkeys, hchildren, hnext, hroot, h _ (.inl (by decide)), Leaf.countIn,
    Leaf.countIn, Branch.countIn, Branch.countIn, hword _ (Nat.le_refl 6)]

theorem reading_eq_leaf_iff {page : Page} {isRoot : Bool} {next : Option PageId}
    {entries : List Entry} {parent : PageId} :
    reading page = { body := some (.leaf isRoot next entries), parent } ↔
      Leaf.Says page isRoot next entries ∧ Header.parentOf page = parent := by
  rw [reading, Reading.mk.injEq, body?_eq_leaf_iff]

theorem reading_eq_branch_iff {page : Page} {isRoot : Bool} {keys : List UInt32}
    {children : List PageId} {parent : PageId} :
    reading page = { body := some (.branch isRoot keys children), parent } ↔
      Branch.Says page isRoot keys children ∧ Header.parentOf page = parent := by
  rw [reading, Reading.mk.injEq, body?_eq_branch_iff]

/-! ## Headers -/

/-- The body with another root flag. -/
def Body.setRoot (isRoot : Bool) : Body → Body
  | .leaf _ next entries => .leaf isRoot next entries
  | .branch _ keys children => .branch isRoot keys children

namespace Header

theorem turns_setParent (parent : PageId) (x : Reading) :
    Turns (setParent parent) x () { x with parent } := by
  rintro page rfl
  refine ⟨_, Edit.run_writeWord page parent.number (by decide), ?_⟩
  simp only [reading, parentOf, Reading.mk.injEq]
  refine ⟨body?_congr fun i hi => ?_, ?_⟩
  · exact Bytes.byte_putWord_of_not_mem _ (by simp only [parentOffset]; omega)
  · rw [Bytes.word_putWord page _ _ (by decide)]

/-- Writing the root flag leaves all other bytes. -/
theorem exists_setRoot (isRoot : Bool) (page : Page) :
    ∃ after : Page, (setRoot isRoot).run page = .ok () after ∧ rootFlag after = isRoot ∧
      ∀ i, i ≠ 1 → after.byte i = page.byte i := by
  refine ⟨_, Edit.run_writeByte page _ (by decide), ?_, ?_⟩
  · rw [rootFlag, Bytes.byte_put, if_pos ⟨Nat.le_refl _, Nat.lt_succ_self _, by decide⟩]
    cases isRoot <;> rfl
  · intro i hi
    exact Bytes.byte_put_of_not_mem _ (by simp only [rootOffset, List.length_singleton]; omega)

theorem turns_setRoot (isRoot : Bool) (body : Body) (parent : PageId) :
    Turns (setRoot isRoot) { body := some body, parent } ()
      { body := some (body.setRoot isRoot), parent } := by
  intro page hx
  obtain ⟨after, hrun, hroot, hbyte⟩ := exists_setRoot isRoot page
  have hword : ∀ off, 2 ≤ off → after.word off = page.word off := fun off hoff =>
    Bytes.word_congr fun i _ => hbyte _ (by omega)
  have hparent : parentOf after = parentOf page := by
    rw [parentOf, parentOf, hword _ (by decide)]
  refine ⟨after, hrun, ?_⟩
  cases body with
  | leaf _ next entries =>
    rw [reading_eq_leaf_iff] at hx
    refine reading_eq_leaf_iff.mpr ⟨hx.1.congr (hbyte 0 (by decide)) hroot (hword _ (by decide)) ?_
      fun i hi => hbyte i (by omega), hparent.trans hx.2⟩
    rw [Leaf.nextIn, hword _ (by decide)]
    exact hx.1.next
  | branch _ keys children =>
    rw [reading_eq_branch_iff] at hx
    refine reading_eq_branch_iff.mpr ⟨?_, hparent.trans hx.2⟩
    have h := hx.1.congr (r := Branch.rightIn page) (hbyte 0 (by decide)) hroot
      (hword _ (by decide)) (by rw [Branch.rightIn, hword _ (by decide)]; rfl)
      fun i hi => hbyte i (by omega)
    rwa [← hx.1.children_eq_append] at h

end Header

/-! ## Leaves -/

namespace Leaf

theorem turns_init (x : Reading) :
    Turns init x () { body := some (.leaf false none []), parent := x.parent } := by
  rintro page rfl
  refine ⟨(((page.put 0 [1]).put 1 [0]).putWord 6 0).putWord 10 0, rfl, ?_⟩
  have hcount : countIn ((((page.put 0 [1]).put 1 [0]).putWord 6 0).putWord 10 0) = 0 := by
    rw [countIn, Bytes.word_putWord_of_disjoint _ (by decide), Bytes.word_putWord _ _ _ (by decide)]
    rfl
  refine reading_eq_leaf_iff.mpr ⟨⟨?_, hcount, Nat.zero_le _, ?_, ?_, by simp⟩, ?_⟩
  · simp [Bytes.byte_put, Bytes.putWord, NodeKind.ofByte?]
  · have hbyte : Bytes.byte ((((page.put 0 [1]).put 1 [0]).putWord 6 0).putWord 10 0) 1 = 0 := by
      simp [Bytes.byte_put, Bytes.putWord, pageSize]
    rw [Header.rootFlag, hbyte]
    rfl
  · rw [nextIn, Bytes.word_putWord _ _ _ (by decide)]
    rfl
  · rw [Header.parentOf, Bytes.word_putWord_of_disjoint _ (by decide),
      Bytes.word_putWord_of_disjoint _ (by decide), Bytes.word_put_of_disjoint _ (by decide),
      Bytes.word_put_of_disjoint _ (by decide)]
    rfl

/-- The number 0 stands for no next leaf, so that no link leads to page 0. -/
theorem nextIn_of_word {page : Page} {next : Option PageId} (hnext : next ≠ some PageId.root)
    (h : page.word nextOffset = next.elim 0 PageId.number) : nextIn page = next := by
  rw [nextIn, h]
  cases next with
  | none => rfl
  | some id =>
    have hid : id.number ≠ 0 := fun h => hnext (congrArg some (congrArg PageId.mk h))
    simp only [Option.elim_some]

theorem turns_setNext {isRoot : Bool} {next next' : Option PageId} {entries : List Entry}
    {parent : PageId} (hnext : next' ≠ some PageId.root) :
    Turns (setNext next') { body := some (.leaf isRoot next entries), parent } ()
      { body := some (.leaf isRoot next' entries), parent } := by
  intro page hx
  rw [reading_eq_leaf_iff] at hx
  have hbyte : ∀ i, i < 10 ∨ 14 ≤ i →
      (page.putWord 10 (next'.elim 0 PageId.number)).byte i = page.byte i := fun i hi =>
    Bytes.byte_putWord_of_not_mem page hi
  refine ⟨_, Edit.run_writeWord page _ (by decide), reading_eq_leaf_iff.mpr ⟨?_, ?_⟩⟩
  · refine hx.1.congr (hbyte 0 (by decide)) ?_ ?_ ?_ fun i hi => hbyte i (.inr hi)
    · rw [← hx.1.root, Header.rootFlag, hbyte 1 (by decide)]
      rfl
    · exact Bytes.word_putWord_of_disjoint page (by decide)
    · exact nextIn_of_word hnext (Bytes.word_putWord _ _ _ (by decide))
  · rw [← hx.2, Header.parentOf, Bytes.word_putWord_of_disjoint page (by decide)]
    rfl

/-- A cell that was filled holds its entry. -/
theorem entryAt_eq_of_slice {page : Page} {i : Nat} {entry : Entry}
    (h : page.slice (cellStart i) cellSize = entry.bytes) : entryAt page i = entry := by
  rw [show cellSize = 4 + 291 from rfl, slice_add] at h
  obtain ⟨hkey, hvalue⟩ := List.append_inj h rfl
  rw [entryAt, word_of_slice hkey]
  exact congrArg (Entry.mk entry.key) hvalue

theorem run_setCell {page : Page} {i : Nat} {cell : List UInt8} (hi : i < maxCells)
    (hcell : cell.length = cellSize) :
    (setCell i cell).run page = .ok () (page.put (cellStart i) cell) := by
  rw [setCell, Says.cellOffset_eq hi]
  exact Edit.run_fill page _ hcell

theorem run_setKey (page : Page) {i : Nat} (key : UInt32) (hi : i < maxCells) :
    (setKey i key).run page = .ok () (page.putWord (cellStart i) key) := by
  rw [setKey, Says.cellOffset_eq hi]
  exact Edit.run_writeWord page key (cellStart_add_keySize_le hi)

theorem run_setValue (page : Page) {i : Nat} {value : List UInt8} (hi : i < maxCells)
    (hvalue : value.length = valueSize) :
    (setValue i value).run page = .ok () (page.put (cellStart i + keySize) value) := by
  rw [setValue, Says.cellOffset_eq hi]
  exact Edit.run_fill page _ hvalue

theorem exists_setCells :
    ∀ (cells : List (List UInt8)) (k : Nat) (page : Page), k + cells.length ≤ maxCells →
      (∀ cell ∈ cells, cell.length = cellSize) →
      ∃ after : Page, ((cells.zipIdx k).forM fun (cell, i) => setCell i cell).run page =
          .ok () after ∧
        (∀ j (hj : j < cells.length), after.slice (cellStart (k + j)) cellSize = cells[j]) ∧
        ∀ i, i < cellStart k ∨ cellStart (k + cells.length) ≤ i → after.byte i = page.byte i := by
  intro cells
  induction cells with
  | nil =>
    exact fun k page _ _ => ⟨page, rfl, fun j hj => absurd hj (Nat.not_lt_zero j), fun _ _ => rfl⟩
  | cons cell cells ih =>
    intro k page hk hcells
    rw [List.length_cons] at hk
    replace hk : k + 1 + cells.length ≤ 13 := by
      change _ ≤ 13 at hk
      omega
    have hmax : k < maxCells := by
      change k < 13
      omega
    have hcell : cell.length = 295 := hcells cell List.mem_cons_self
    obtain ⟨after, hrun, hslice, hbyte⟩ := ih (k + 1) (page.put (cellStart k) cell) hk
      fun c hc => hcells c (List.mem_cons_of_mem cell hc)
    refine ⟨after, ?_, ?_, ?_⟩
    · have hset : (setCell k cell).run page = _ := run_setCell hmax hcell
      rw [List.zipIdx_cons]
      simp only [List.forM_eq_forM, List.forM_cons] at hrun ⊢
      rw [EStateM.run_bind, hset]
      exact hrun
    · intro j hj
      cases j with
      | zero =>
        -- The cells that are written after the first do not reach it.
        have hbelow : after.slice (cellStart k) cellSize =
            (page.put (cellStart k) cell).slice (cellStart k) cellSize :=
          Bytes.slice_congr fun x hx => hbyte _ (.inl (by
            change x < 295 at hx
            simp only [cellStart_eq]
            omega))
        have hput := Bytes.slice_put page (cellStart k) cell (hcell ▸ cellStart_add_le hmax)
        rw [hcell] at hput
        exact hbelow.trans hput
      | succ j =>
        have := hslice j (by simpa using hj)
        rwa [show k + 1 + j = k + (j + 1) by omega] at this
    · intro i hi
      rw [List.length_cons] at hi
      simp only [cellStart_eq] at hi hbyte
      rw [hbyte i (by omega)]
      exact Bytes.byte_put_of_not_mem page (by omega)

theorem run_setCount (page : Page) {count : Nat} (h : count ≤ maxCells) :
    (setCount count).run page = .ok () (page.putWord 6 (UInt32.ofNat count)) := by
  rw [setCount]
  simp only [if_neg (Nat.not_lt.mpr h)]
  exact Edit.run_writeWord page _ (by decide)

theorem toNat_ofNat_of_le {count : Nat} (h : count ≤ 13) : (UInt32.ofNat count).toNat = count := by
  rw [UInt32.toNat_ofNat']
  omega

/-- A page with the header and the link of a leaf, but with other cells. -/
theorem reading_of_cells {page page' : Page} {isRoot : Bool} {next : Option PageId}
    {entries entries' : List Entry} {parent : PageId}
    (hx : reading page = { body := some (.leaf isRoot next entries), parent })
    (hbyte : ∀ i, i < 6 ∨ (10 ≤ i ∧ i < 14) → page'.byte i = page.byte i)
    (hcount : countIn page' = entries'.length) (hlen : entries'.length ≤ maxCells)
    (hentry : ∀ i (hi : i < entries'.length), entryAt page' i = entries'[i]) :
    reading page' = { body := some (.leaf isRoot next entries'), parent } := by
  rw [reading_eq_leaf_iff] at hx ⊢
  have hlink : page'.word 10 = page.word 10 := Bytes.word_congr fun i _ => hbyte _ (by omega)
  refine ⟨⟨?_, hcount, hlen, ?_, ?_, hentry⟩, ?_⟩
  · rw [← hx.1.kind, hbyte _ (.inl (by decide))]
  · rw [← hx.1.root, Header.rootFlag, Header.rootFlag, hbyte _ (.inl (by decide))]
  · rw [← hx.1.next, nextIn, nextIn, hlink]
  · rw [← hx.2, Header.parentOf, Header.parentOf]
    exact congrArg PageId.mk (Bytes.word_congr fun i hi => hbyte _ (.inl (by
      change 2 + i < 6
      omega)))

theorem turns_setCells_setCount {isRoot : Bool} {next : Option PageId} {entries : List Entry}
    {parent : PageId} (entries' : List Entry) (hlen : entries'.length ≤ maxCells)
    (hvalue : ∀ entry ∈ entries', entry.value.length = valueSize) :
    Turns (setCells (entries'.map Entry.bytes) >>= fun _ => setCount entries'.length)
      { body := some (.leaf isRoot next entries), parent } ()
      { body := some (.leaf isRoot next entries'), parent } := by
  intro page hx
  have hcells : ∀ cell ∈ entries'.map Entry.bytes, cell.length = cellSize := by
    intro cell hcell
    obtain ⟨entry, hentry, rfl⟩ := List.mem_map.mp hcell
    rw [Entry.bytes, List.length_append, hvalue entry hentry]
    rfl
  obtain ⟨middle, hrun, hslice, hbyte⟩ := exists_setCells (entries'.map Entry.bytes) 0 page
    (by rw [List.length_map, Nat.zero_add]; exact hlen) hcells
  rw [cellStart_eq, cellStart_eq, List.length_map] at hbyte
  refine ⟨middle.putWord 6 (UInt32.ofNat entries'.length), ?_, reading_of_cells hx ?_ ?_ hlen ?_⟩
  · rw [EStateM.run_bind, setCells, hrun]
    exact run_setCount middle hlen
  · intro i hi
    rw [Bytes.byte_putWord_of_not_mem middle (by omega), hbyte i (by omega)]
  · rw [countIn, Bytes.word_putWord middle _ _ (by decide), toNat_ofNat_of_le hlen]
  · intro i hi
    apply entryAt_eq_of_slice
    have hcell := hslice i (by simpa using hi)
    rw [List.getElem_map, Nat.zero_add] at hcell
    rw [← hcell]
    exact Bytes.slice_congr fun x _ =>
      Bytes.byte_putWord_of_not_mem middle
        (.inr (Nat.le_trans (show 6 + 4 ≤ headerSize by decide) (headerSize_le i _)))

/-- Filling an empty page. -/
theorem turns_fresh {next : Option PageId} {entries : List Entry} (x : Reading) (parent : PageId)
    (hnext : next ≠ some PageId.root) (hlen : entries.length ≤ maxCells)
    (hvalue : ∀ entry ∈ entries, entry.value.length = valueSize) :
    Turns (do
        init
        Header.setParent parent
        setNext next
        setCells (entries.map Entry.bytes)
        setCount entries.length)
      x () ⟨some (.leaf false next entries), parent⟩ :=
  (turns_init x).bind <| (Header.turns_setParent parent _).bind <| (turns_setNext hnext).bind <|
    turns_setCells_setCount entries hlen hvalue

theorem run_insertCell {page : Page} {count i : Nat} {key : UInt32} {value : List UInt8}
    (id : PageId) (hcount : countIn page = count) (hfull : count < maxCells) (hi : i ≤ count)
    (hvalue : value.length = valueSize) :
    (insertCell id i key value).run page =
      .ok () ((((page.shift 14 295 i count).putWord 6 (UInt32.ofNat (count + 1))).putWord
        (cellStart i) key).put (cellStart i + keySize) value) := by
  have hmax : i < maxCells := Nat.lt_of_le_of_lt hi hfull
  have htail : ∀ middle : Page,
      (do setCount (count + 1); setKey i key; setValue i value : Edit pageSize Unit).run middle =
        .ok () (((middle.putWord 6 (UInt32.ofNat (count + 1))).putWord
          (cellStart i) key).put (cellStart i + keySize) value) := by
    intro middle
    rw [bind_run (run_setCount middle hfull), bind_run (run_setKey _ key hmax)]
    exact run_setValue _ hmax hvalue
  rw [insertCell, get_bind_run, hcount]
  simp only [if_neg (Nat.not_le.mpr hfull), if_neg (Nat.not_lt.mpr hi)]
  by_cases hlt : i < count
  · simp only [if_pos hlt, Says.cellOffset_eq hmax, Says.cellOffset_eq hfull]
    exact htail _
  · obtain rfl : i = count := Nat.le_antisymm hi (Nat.not_lt.mp hlt)
    rw [Bytes.shift_self]
    simp only [if_neg hlt]
    exact htail page

/-- The new cell stands at its index, later cells stand one cell higher, and all bytes but
    those of the count and of the cells are as before. -/
theorem exists_insertCell {page : Page} {count i : Nat} {value : List UInt8} (id : PageId)
    (key : UInt32) (hcount : countIn page = count) (hfull : count < maxCells) (hi : i ≤ count)
    (hvalue : value.length = valueSize) :
    ∃ after : Page, (insertCell id i key value).run page = .ok () after ∧
      countIn after = count + 1 ∧ entryAt after i = { key, value } ∧
      (∀ j x, j < i → x < 295 →
        after.byte (cellStart j + x) = page.byte (cellStart j + x)) ∧
      (∀ j x, i ≤ j → j < count → x < 295 →
        after.byte (cellStart (j + 1) + x) = page.byte (cellStart j + x)) ∧
      ∀ b, b < 6 ∨ (10 ≤ b ∧ b < 14) ∨ cellStart (count + 1) ≤ b → after.byte b = page.byte b := by
  refine ⟨_, run_insertCell id hcount hfull hi hvalue, ?_⟩
  have hmax : i < maxCells := Nat.lt_of_le_of_lt hi hfull
  have hend := hvalue ▸ cellStart_add_keySize_add_le hmax
  replace hfull : count < 13 := hfull
  replace hvalue : value.length = 291 := hvalue
  have houter : ∀ b, b < 6 ∨ (10 ≤ b ∧ (b < cellStart i ∨ cellStart i + 295 ≤ b)) →
      ((((page.shift 14 295 i count).putWord 6 (UInt32.ofNat (count + 1))).putWord
        (cellStart i) key).put (cellStart i + keySize) value).byte b =
        (page.shift 14 295 i count).byte b := by
    intro b hb
    simp only [cellStart_eq] at hb ⊢
    rw [Bytes.byte_put_of_not_mem _ (by change _ < _ + 4 ∨ _ + 4 + _ ≤ _; omega),
      Bytes.byte_putWord_of_not_mem _ (by omega), Bytes.byte_putWord_of_not_mem _ (by omega)]
  refine ⟨?_, ?_, ?_, ?_, ?_⟩
  · have hcell : 6 + 4 ≤ cellStart i := Nat.le_trans (by decide) (headerSize_le i 0)
    rw [countIn, Bytes.word_put_of_disjoint _ (.inl (Nat.le_add_right_of_le hcell)),
      Bytes.word_putWord_of_disjoint _ (.inl hcell), Bytes.word_putWord _ _ _ (by decide),
      toNat_ofNat_of_le hfull]
  · have hslice := Bytes.slice_put (((page.shift 14 295 i count).putWord 6
      (UInt32.ofNat (count + 1))).putWord (cellStart i) key) (cellStart i + keySize) value hend
    rw [hvalue] at hslice
    rw [entryAt, show valueSize = 291 from rfl, hslice,
      Bytes.word_put_of_disjoint _ (.inl (Nat.le_refl _)),
      Bytes.word_putWord _ _ _ (cellStart_add_keySize_le hmax)]
  · intro j x hj hx
    rw [houter _ (by simp only [cellStart_eq]; omega),
      Bytes.byte_shift_of_lt _ (by rw [cellStart_eq, Nat.mul_comm i]; omega)]
  · intro j x hj hlt hx
    rw [houter _ (by simp only [cellStart_eq]; omega)]
    exact Bytes.byte_shift_succ page hj hlt hx (by rw [Nat.mul_comm]; change _ ≤ 4096; omega)
  · intro b hb
    have hgap : b < 6 ∨ (10 ≤ b ∧ (b < cellStart i ∨ cellStart i + 295 ≤ b)) := by
      simp only [cellStart_eq] at hb ⊢
      omega
    rw [houter b hgap]
    rcases hb with hb | hb | hb
    · exact Bytes.byte_shift_of_lt page (by omega)
    · exact Bytes.byte_shift_of_lt page (by omega)
    · exact Bytes.byte_shift_of_ge page hi hb

theorem turns_insertCell {isRoot : Bool} {next : Option PageId} {entries : List Entry}
    {parent : PageId} (id : PageId) {i : Nat} {key : UInt32} {value : List UInt8}
    (hfull : entries.length < maxCells) (hi : i ≤ entries.length)
    (hvalue : value.length = valueSize) :
    Turns (insertCell id i key value) { body := some (.leaf isRoot next entries), parent } ()
      { body := some (.leaf isRoot next (entries.insertIdx i { key, value })), parent } := by
  intro page hx
  have hnode := (reading_eq_leaf_iff.mp hx).1
  obtain ⟨after, hrun, hcount, hnew, hbelow, habove, hbyte⟩ :=
    exists_insertCell id key hnode.count hfull hi hvalue
  have hlen : (entries.insertIdx i { key, value }).length = entries.length + 1 :=
    List.length_insertIdx_of_le_length hi _
  refine ⟨after, hrun, reading_of_cells hx (fun b hb => hbyte b (by omega)) (hcount.trans hlen.symm)
    (hlen ▸ hfull) fun j hj => ?_⟩
  have hget := getElem?_insertIdx_of hi (Nat.le_refl _)
    (fun j hj => by rw [List.getElem?_eq_getElem hj, hnode.entry j hj])
    (fun j hj => entryAt_congr fun x hx => hbelow j x hj hx) hnew
    (fun j hj hlt => entryAt_congr fun x hx => habove j x hj hlt hx) (hlen ▸ hj)
  rw [List.getElem?_eq_getElem hj] at hget
  exact (Option.some.inj hget).symm

end Leaf

/-! ## Branches -/

namespace Branch

/-- A page with the header of a branch, but with another right child and other cells. -/
theorem reading_of_cells {page page' : Page} {isRoot : Bool} {keys keys' : List UInt32}
    {children children' : List PageId} {parent : PageId}
    (hx : reading page = { body := some (.branch isRoot keys children), parent })
    (hbyte : ∀ i, i < 6 → page'.byte i = page.byte i)
    (hcount : countIn page' = keys'.length) (hlen : keys'.length ≤ maxKeys)
    (hchildren : children'.length = keys'.length + 1)
    (hkey : ∀ i, i < keys'.length → keys'[i]? = some (keyAt page' i))
    (hchild : ∀ i, i < keys'.length → children'[i]? = some (childAt page' i))
    (hright : children'[keys'.length]? = some (rightIn page')) :
    reading page' = { body := some (.branch isRoot keys' children'), parent } := by
  rw [reading_eq_branch_iff] at hx ⊢
  refine ⟨⟨?_, hcount, hlen, hchildren, ?_, ?_, ?_, ?_⟩, ?_⟩
  · rw [← hx.1.kind, hbyte _ (by decide)]
  · rw [← hx.1.root, Header.rootFlag, Header.rootFlag, hbyte _ (by decide)]
  · intro i hi
    have h := hkey i hi
    rw [List.getElem?_eq_getElem hi] at h
    exact (Option.some.inj h).symm
  · intro i hi
    have h := hchild i hi
    rw [List.getElem?_eq_getElem (by omega)] at h
    exact (Option.some.inj h).symm
  · rw [List.getElem?_eq_getElem (by omega)] at hright
    exact (Option.some.inj hright).symm
  · rw [← hx.2, Header.parentOf, Header.parentOf]
    exact congrArg PageId.mk (Bytes.word_congr fun i hi => hbyte _ (by
      change 2 + i < 6
      omega))

theorem Says.getElem?_keys {page : Page} {isRoot : Bool} {keys : List UInt32}
    {children : List PageId} (h : Says page isRoot keys children) {i : Nat}
    (hi : i < keys.length) : keys[i]? = some (keyAt page i) := by
  rw [List.getElem?_eq_getElem hi, h.key i hi]

theorem Says.getElem?_children {page : Page} {isRoot : Bool} {keys : List UInt32}
    {children : List PageId} (h : Says page isRoot keys children) {i : Nat}
    (hi : i < keys.length) : children[i]? = some (childAt page i) := by
  have hlen := h.length_children
  rw [List.getElem?_eq_getElem (by omega), h.child i hi]

theorem Says.getElem?_right {page : Page} {isRoot : Bool} {keys : List UInt32}
    {children : List PageId} (h : Says page isRoot keys children) :
    children[keys.length]? = some (rightIn page) := by
  have hlen := h.length_children
  rw [List.getElem?_eq_getElem (by omega), h.right]

theorem turns_init (x : Reading) :
    Turns init x () { body := some (.branch false [] [PageId.invalid]), parent := x.parent } := by
  rintro page rfl
  refine ⟨(((page.put 0 [0]).put 1 [0]).putWord 6 0).putWord 10 PageId.invalid.number, rfl, ?_⟩
  have hcount : countIn ((((page.put 0 [0]).put 1 [0]).putWord 6 0).putWord 10
      PageId.invalid.number) = 0 := by
    rw [countIn, Bytes.word_putWord_of_disjoint _ (by decide), Bytes.word_putWord _ _ _ (by decide)]
    rfl
  refine reading_eq_branch_iff.mpr
    ⟨⟨?_, hcount, Nat.zero_le _, rfl, ?_, by simp, by simp, ?_⟩, ?_⟩
  · simp [Bytes.byte_put, Bytes.putWord, NodeKind.ofByte?]
  · have hbyte : Bytes.byte ((((page.put 0 [0]).put 1 [0]).putWord 6 0).putWord 10
        PageId.invalid.number) 1 = 0 := by
      simp [Bytes.byte_put, Bytes.putWord, pageSize]
    rw [Header.rootFlag, hbyte]
    rfl
  · rw [rightIn, Bytes.word_putWord _ _ _ (by decide)]
    rfl
  · rw [Header.parentOf, Bytes.word_putWord_of_disjoint _ (by decide),
      Bytes.word_putWord_of_disjoint _ (by decide), Bytes.word_put_of_disjoint _ (by decide),
      Bytes.word_put_of_disjoint _ (by decide)]
    rfl

variable {isRoot : Bool} {keys : List UInt32} {children : List PageId} {parent : PageId}

theorem turns_setRight (right : PageId) :
    Turns (setRight right) { body := some (.branch isRoot keys children), parent } ()
      { body := some (.branch isRoot keys (children.take keys.length ++ [right])), parent } := by
  intro page hx
  rw [reading_eq_branch_iff] at hx
  have hbyte : ∀ i, i < 10 ∨ 14 ≤ i → (page.putWord 10 right.number).byte i = page.byte i :=
    fun i hi => Bytes.byte_putWord_of_not_mem page hi
  refine ⟨_, Edit.run_writeWord page _ (by decide), reading_eq_branch_iff.mpr ⟨?_, ?_⟩⟩
  · refine hx.1.congr (hbyte 0 (by decide)) ?_ ?_ ?_ fun i hi => hbyte i (.inr hi)
    · rw [← hx.1.root, Header.rootFlag, hbyte 1 (by decide)]
      rfl
    · exact Bytes.word_putWord_of_disjoint page (by decide)
    · rw [rightIn, Bytes.word_putWord _ _ _ (by decide)]
  · rw [← hx.2, Header.parentOf, Bytes.word_putWord_of_disjoint page (by decide)]
    rfl

theorem run_setCount (page : Page) {count : Nat} (h : count ≤ maxKeys) :
    (setCount count).run page = .ok () (page.putWord 6 (UInt32.ofNat count)) := by
  rw [setCount]
  simp only [if_neg (Nat.not_lt.mpr h)]
  exact Edit.run_writeWord page _ (by decide)

theorem toNat_ofNat_of_le {count : Nat} (h : count ≤ 3) : (UInt32.ofNat count).toNat = count := by
  rw [UInt32.toNat_ofNat']
  omega

theorem turns_setCount {count : Nat} {right : PageId} (hcount : count ≤ keys.length)
    (hright : children[keys.length]? = some right) :
    Turns (setCount count) { body := some (.branch isRoot keys children), parent } ()
      { body := some (.branch isRoot (keys.take count) (children.take count ++ [right])),
        parent } := by
  intro page hx
  have hnode := (reading_eq_branch_iff.mp hx).1
  have hlen := hnode.length_children
  have hmax : count ≤ maxKeys := Nat.le_trans hcount hnode.length_le
  have htake : (keys.take count).length = count := List.length_take_of_le hcount
  have htake' : (children.take count).length = count := List.length_take_of_le (by omega)
  have hcell : ∀ i, keyAt (page.putWord 6 (UInt32.ofNat count)) i = keyAt page i ∧
      childAt (page.putWord 6 (UInt32.ofNat count)) i = childAt page i := fun i =>
    cellAt_congr fun x _ =>
      Bytes.byte_putWord_of_not_mem page
        (.inr (Nat.le_trans (show 6 + 4 ≤ headerSize by decide) (headerSize_le i _)))
  refine ⟨_, run_setCount page hmax, reading_of_cells hx ?_ ?_ (by rwa [htake]) ?_ ?_ ?_ ?_⟩
  · exact fun i hi => Bytes.byte_putWord_of_not_mem page (.inl hi)
  · rw [countIn, Bytes.word_putWord page _ _ (by decide), toNat_ofNat_of_le hmax, htake]
  · rw [List.length_append, htake, htake', List.length_singleton]
  · intro i hi
    rw [htake] at hi
    rw [List.getElem?_take_of_lt hi, hnode.getElem?_keys (by omega), (hcell i).1]
  · intro i hi
    rw [htake] at hi
    rw [List.getElem?_append_left (by omega), List.getElem?_take_of_lt hi,
      hnode.getElem?_children (by omega), (hcell i).2]
  · rw [htake, List.getElem?_append_right (by omega), htake', Nat.sub_self, List.getElem?_cons_zero,
      ← hright, hnode.getElem?_right, rightIn, rightIn,
      Bytes.word_putWord_of_disjoint page (by decide)]

theorem run_setKey (page : Page) {i : Nat} (key : UInt32) (hi : i < maxKeys) :
    (setKey i key).run page = .ok () (page.putWord (cellStart i + childSize) key) := by
  rw [setKey, Says.cellOffset_eq hi]
  exact Edit.run_writeWord page key (cellStart_add_childSize_add_le hi)

theorem run_setCellChild (page : Page) {i : Nat} (child : PageId) (hi : i < maxKeys) :
    (setCellChild i child).run page = .ok () (page.putWord (cellStart i) child.number) := by
  rw [setCellChild, Says.cellOffset_eq hi]
  exact Edit.run_writeWord page child.number (cellStart_add_childSize_le hi)

/-- A separator is written into its own bytes. -/
theorem reading_putWord_key {page : Page} {i : Nat} (key : UInt32) (hi : i < keys.length)
    (hx : reading page = { body := some (.branch isRoot keys children), parent }) :
    reading (page.putWord (cellStart i + childSize) key) =
      { body := some (.branch isRoot (keys.set i key) children), parent } := by
  have hnode := (reading_eq_branch_iff.mp hx).1
  have hmax : i < maxKeys := Nat.lt_of_lt_of_le hi hnode.length_le
  have hbyte : ∀ b, b < 18 + 8 * i ∨ 22 + 8 * i ≤ b →
      (page.putWord (cellStart i + childSize) key).byte b = page.byte b := fun b hb =>
    Bytes.byte_putWord_of_not_mem page (by
      rw [cellStart_eq]
      change _ < _ + 4 ∨ _ + 4 + _ ≤ _
      omega)
  have hword : ∀ off, off ≤ 14 + 8 * i ∨ 22 + 8 * i ≤ off →
      (page.putWord (cellStart i + childSize) key).word off = page.word off := fun off hoff =>
    Bytes.word_congr fun x _ => hbyte _ (by omega)
  refine reading_of_cells hx ?_ ?_ ?_ ?_ ?_ ?_ ?_
  · exact fun b hb => hbyte b (by omega)
  · rw [countIn, hword 6 (by omega), List.length_set]
    exact hnode.count
  · rw [List.length_set]
    exact hnode.length_le
  · rw [List.length_set]
    exact hnode.length_children
  · intro j hj
    rw [List.length_set] at hj
    rw [List.getElem?_set]
    split
    · rename_i he
      rw [← he, keyAt, Bytes.word_putWord page _ _ (cellStart_add_childSize_add_le hmax)]
    · rename_i hne
      rw [hnode.getElem?_keys hj, keyAt, keyAt, hword (cellStart j + 4) (by
        rw [cellStart_eq]
        omega)]
  · intro j hj
    rw [List.length_set] at hj
    rw [hnode.getElem?_children hj, childAt, childAt, hword (cellStart j) (by
      rw [cellStart_eq]
      omega)]
  · rw [List.length_set, hnode.getElem?_right, rightIn, rightIn, hword 10 (by omega)]

theorem turns_setKey {i : Nat} (key : UInt32) (hi : i < keys.length) :
    Turns (setKey i key) { body := some (.branch isRoot keys children), parent } ()
      { body := some (.branch isRoot (keys.set i key) children), parent } := by
  intro page hx
  have hmax := Nat.lt_of_lt_of_le hi (reading_eq_branch_iff.mp hx).1.length_le
  exact ⟨_, run_setKey page key hmax, reading_putWord_key key hi hx⟩

theorem run_insertCell {page : Page} {count i : Nat} (id : PageId) (child : PageId) (key : UInt32)
    (hcount : countIn page = count) (hfull : count < maxKeys) (hi : i ≤ count) :
    (insertCell id i child key).run page =
      .ok () ((((page.shift 14 8 i count).putWord 6 (UInt32.ofNat (count + 1))).putWord
        (cellStart i) child.number).putWord (cellStart i + childSize) key) := by
  have hmax : i < maxKeys := Nat.lt_of_le_of_lt hi hfull
  have htail : ∀ middle : Page,
      (do
        setCount (count + 1)
        setCellChild i child
        setKey i key : Edit pageSize Unit).run middle =
      .ok () (((middle.putWord 6 (UInt32.ofNat (count + 1))).putWord
        (cellStart i) child.number).putWord (cellStart i + childSize) key) := by
    intro middle
    rw [bind_run (run_setCount middle hfull), bind_run (run_setCellChild _ child hmax)]
    exact run_setKey _ key hmax
  rw [insertCell, get_bind_run, hcount]
  simp only [if_neg (Nat.not_le.mpr hfull), if_neg (Nat.not_lt.mpr hi)]
  by_cases hlt : i < count
  · simp only [if_pos hlt, Says.cellOffset_eq hmax, Says.cellOffset_eq hfull]
    exact htail _
  · obtain rfl : i = count := Nat.le_antisymm hi (Nat.not_lt.mp hlt)
    rw [Bytes.shift_self]
    simp only [if_neg hlt]
    exact htail page

/-- The new cell stands at its index, later cells stand one cell higher, and all bytes but
    those of the count and of the cells are as before. -/
theorem exists_insertCell {page : Page} {count i : Nat} (id child : PageId) (key : UInt32)
    (hcount : countIn page = count) (hfull : count < maxKeys) (hi : i ≤ count) :
    ∃ after : Page, (insertCell id i child key).run page = .ok () after ∧
      countIn after = count + 1 ∧ keyAt after i = key ∧ childAt after i = child ∧
      (∀ j, j < i → keyAt after j = keyAt page j ∧ childAt after j = childAt page j) ∧
      (∀ j, i ≤ j → j < count →
        keyAt after (j + 1) = keyAt page j ∧ childAt after (j + 1) = childAt page j) ∧
      ∀ b, b < 6 ∨ (10 ≤ b ∧ b < 14) ∨ cellStart (count + 1) ≤ b → after.byte b = page.byte b := by
  refine ⟨_, run_insertCell id child key hcount hfull hi, ?_⟩
  have hmax : i < maxKeys := Nat.lt_of_le_of_lt hi hfull
  replace hfull : count < 3 := hfull
  have houter : ∀ b, b < 6 ∨ (10 ≤ b ∧ (b < cellStart i ∨ cellStart i + 8 ≤ b)) →
      ((((page.shift 14 8 i count).putWord 6 (UInt32.ofNat (count + 1))).putWord
        (cellStart i) child.number).putWord (cellStart i + childSize) key).byte b =
        (page.shift 14 8 i count).byte b := by
    intro b hb
    simp only [cellStart_eq] at hb ⊢
    rw [Bytes.byte_putWord_of_not_mem _ (by change _ < _ + 4 ∨ _ + 4 + _ ≤ _; omega),
      Bytes.byte_putWord_of_not_mem _ (by omega), Bytes.byte_putWord_of_not_mem _ (by omega)]
  refine ⟨?_, ?_, ?_, ?_, ?_, ?_⟩
  · have hcell : 6 + 4 ≤ cellStart i := Nat.le_trans (by decide) (headerSize_le i 0)
    rw [countIn, Bytes.word_putWord_of_disjoint _ (.inl (Nat.le_add_right_of_le hcell)),
      Bytes.word_putWord_of_disjoint _ (.inl hcell), Bytes.word_putWord _ _ _ (by decide),
      toNat_ofNat_of_le hfull]
  · rw [keyAt, Bytes.word_putWord _ _ _ (cellStart_add_childSize_add_le hmax)]
  · rw [childAt, Bytes.word_putWord_of_disjoint _ (.inl (Nat.le_refl _)),
      Bytes.word_putWord _ _ _ (cellStart_add_childSize_le hmax)]
  · intro j hj
    refine cellAt_congr fun x hx => ?_
    rw [houter _ (by simp only [cellStart_eq]; omega),
      Bytes.byte_shift_of_lt _ (by rw [cellStart_eq, Nat.mul_comm i]; omega)]
  · intro j hj hlt
    refine cellAt_congr fun x hx => ?_
    rw [houter _ (by simp only [cellStart_eq]; omega)]
    exact Bytes.byte_shift_succ page hj hlt hx (by rw [Nat.mul_comm]; change _ ≤ 4096; omega)
  · intro b hb
    have hgap : b < 6 ∨ (10 ≤ b ∧ (b < cellStart i ∨ cellStart i + 8 ≤ b)) := by
      simp only [cellStart_eq] at hb ⊢
      omega
    rw [houter b hgap]
    rcases hb with hb | hb | hb
    · exact Bytes.byte_shift_of_lt page (by omega)
    · exact Bytes.byte_shift_of_lt page (by omega)
    · exact Bytes.byte_shift_of_ge page hi hb

theorem turns_insertCell (id : PageId) {i : Nat} (child : PageId) (key : UInt32)
    (hfull : keys.length < maxKeys) (hi : i ≤ keys.length) :
    Turns (insertCell id i child key) { body := some (.branch isRoot keys children), parent } ()
      { body := some (.branch isRoot (keys.insertIdx i key) (children.insertIdx i child)),
        parent } := by
  intro page hx
  have hnode := (reading_eq_branch_iff.mp hx).1
  have hlen := hnode.length_children
  obtain ⟨after, hrun, hcount, hkey, hchild, hbelow, habove, hbyte⟩ :=
    exists_insertCell id child key hnode.count hfull hi
  have hkeys : (keys.insertIdx i key).length = keys.length + 1 :=
    List.length_insertIdx_of_le_length hi _
  have hchildren : (children.insertIdx i child).length = children.length + 1 :=
    List.length_insertIdx_of_le_length (by omega) _
  refine ⟨after, hrun, reading_of_cells hx (fun b hb => hbyte b (.inl hb)) (hcount.trans hkeys.symm)
    (hkeys ▸ hfull) (by omega) ?_ ?_ ?_⟩
  · intro j hj
    exact getElem?_insertIdx_of hi (Nat.le_refl _) (fun j hj => hnode.getElem?_keys hj)
      (fun j hj => (hbelow j hj).1) hkey (fun j hj hlt => (habove j hj hlt).1) (hkeys ▸ hj)
  · intro j hj
    exact getElem?_insertIdx_of hi (by omega) (fun j hj => hnode.getElem?_children hj)
      (fun j hj => (hbelow j hj).2) hchild (fun j hj hlt => (habove j hj hlt).2) (hkeys ▸ hj)
  · rw [hkeys, List.getElem?_insertIdx_of_gt (by omega)]
    simp only [Nat.add_sub_cancel]
    rw [hnode.getElem?_right, rightIn, rightIn]
    exact congrArg some (congrArg PageId.mk (Bytes.word_congr fun x hx =>
      (hbyte (10 + x) (by omega)).symm))

/-- The separator `old` is found by halving, so that the separators have to ascend. -/
theorem run_replaceKey {page : Page} (id : PageId) (old new : UInt32)
    (hnode : Says page isRoot keys children) (hkeys : keys.Pairwise (· < ·)) :
    (replaceKey id old new).run page = .ok ()
      (if keys[rank old keys]? = some old then
        page.putWord (cellStart (rank old keys) + childSize) new
      else page) := by
  rw [replaceKey, get_bind_run]
  simp only [hnode.findChild_eq hkeys]
  change (if rank old keys < countIn page then _ else _ : Edit pageSize Unit).run page = _
  rw [hnode.count]
  by_cases hlt : rank old keys < keys.length
  · rw [if_pos hlt, hnode.key_eq hlt, List.getElem?_eq_getElem hlt]
    change (if keys[rank old keys] = old then _ else _ : Edit pageSize Unit).run page = _
    by_cases he : keys[rank old keys] = old
    · rw [if_pos he, if_pos (congrArg some he)]
      exact run_setKey page new (Nat.lt_of_lt_of_le hlt hnode.length_le)
    · rw [if_neg he, if_neg fun h => he (Option.some.inj h)]
      rfl
  · rw [if_neg hlt, List.getElem?_eq_none (Nat.le_of_not_lt hlt), if_neg nofun]
    rfl

theorem turns_replaceKey (id : PageId) (old new : UInt32) (hkeys : keys.Pairwise (· < ·)) :
    Turns (replaceKey id old new) { body := some (.branch isRoot keys children), parent } ()
      { body := some (.branch isRoot
          (if keys[rank old keys]? = some old then keys.set (rank old keys) new else keys)
          children), parent } := by
  intro page hx
  have hnode := (reading_eq_branch_iff.mp hx).1
  refine ⟨_, run_replaceKey id old new hnode hkeys, ?_⟩
  split
  · rename_i hold
    obtain ⟨hlt, -⟩ := List.getElem?_eq_some_iff.mp hold
    exact reading_putWord_key new hlt hx
  · exact hx

theorem getElem?_ne_of_lt_idxOf {child : PageId} {i : Nat} (h : i < children.idxOf child) :
    children[i]? ≠ some child := by
  intro he
  obtain ⟨hi, he⟩ := List.getElem?_eq_some_iff.mp he
  have hne := List.not_of_lt_findIdx (show i < children.findIdx (· == child) from h)
  rw [he, beq_self_eq_true] at hne
  cases hne

/-- The right child has no separator, and a page that is no child has none either. -/
theorem run_replaceKeyOf {page : Page} (id child : PageId) (new : UInt32)
    (hnode : Says page isRoot keys children) :
    (replaceKeyOf id child new).run page = .ok ()
      (if children.idxOf child < keys.length then
        page.putWord (cellStart (children.idxOf child) + childSize) new
      else page) := by
  have hlen := hnode.length_children
  rw [replaceKeyOf, get_bind_run]
  dsimp only
  by_cases hlt : children.idxOf child < keys.length
  · have hindex : indexOfChild { id, page } child = .ok _ := hnode.indexOfChild_eq_some hlt
      (List.getElem?_eq_some_iff.mpr ⟨by omega, List.getElem_idxOf (by omega)⟩)
      fun i hi => getElem?_ne_of_lt_idxOf hi
    rw [hindex, if_pos hlt]
    exact run_setKey page new (Nat.lt_of_lt_of_le hlt hnode.length_le)
  · have hindex : indexOfChild { id, page } child = .ok none :=
      hnode.indexOfChild_eq_none fun i hi => getElem?_ne_of_lt_idxOf (by omega)
    rw [hindex, if_neg hlt]
    rfl

theorem turns_replaceKeyOf (id child : PageId) (new : UInt32) :
    Turns (replaceKeyOf id child new) { body := some (.branch isRoot keys children), parent } ()
      { body := some (.branch isRoot (keys.set (children.idxOf child) new) children), parent } := by
  intro page hx
  refine ⟨_, run_replaceKeyOf id child new (reading_eq_branch_iff.mp hx).1, ?_⟩
  split
  · rename_i hlt
    exact reading_putWord_key new hlt hx
  · rename_i hle
    rw [List.set_eq_of_length_le (Nat.le_of_not_lt hle)]
    exact hx

end Branch

/-! ## Pages that say what is wanted -/

/-- Every leaf can be written to a page. -/
theorem Leaf.exists_page (isRoot : Bool) (next : Option PageId) (entries : List Entry)
    (parent : PageId) (hnext : next ≠ some PageId.root) (hlen : entries.length ≤ Leaf.maxCells)
    (hvalue : ∀ entry ∈ entries, entry.value.length = Leaf.valueSize) :
    ∃ page : Page, reading page = ⟨some (.leaf isRoot next entries), parent⟩ := by
  obtain ⟨fresh, -, hfresh⟩ :=
    Leaf.turns_fresh (reading Bytes.zero) parent hnext hlen hvalue Bytes.zero rfl
  obtain ⟨page, -, hpage⟩ :=
    Header.turns_setRoot isRoot (.leaf false next entries) parent fresh hfresh
  exact ⟨page, hpage⟩

/-- Every branch can be written to a page: its right child first, then its cells from the last
    one on. -/
theorem Branch.exists_page (isRoot : Bool) (cells : List (PageId × UInt32))
    (right parent : PageId) (hlen : cells.length ≤ Branch.maxKeys) :
    ∃ page : Page, reading page =
      ⟨some (.branch isRoot (cells.map (·.2)) (cells.map (·.1) ++ [right])), parent⟩ := by
  have hcells : ∃ page : Page, reading page =
      ⟨some (.branch false (cells.map (·.2)) (cells.map (·.1) ++ [right])), PageId.root⟩ := by
    induction cells with
    | nil =>
      obtain ⟨fresh, -, hfresh⟩ := Branch.turns_init (reading Bytes.zero) Bytes.zero rfl
      obtain ⟨page, -, hpage⟩ := Branch.turns_setRight right fresh hfresh
      exact ⟨page, hpage⟩
    | cons cell cells ih =>
      obtain ⟨before, hbefore⟩ := ih (Nat.le_of_succ_le hlen)
      obtain ⟨page, -, hpage⟩ := Branch.turns_insertCell PageId.root cell.1 cell.2
        (by rw [List.length_map]; exact hlen) (Nat.zero_le _) before hbefore
      exact ⟨page, hpage⟩
  obtain ⟨plain, hplain⟩ := hcells
  obtain ⟨flagged, -, hflagged⟩ := Header.turns_setRoot isRoot _ _ plain hplain
  obtain ⟨page, -, hpage⟩ := Header.turns_setParent parent _ flagged hflagged
  exact ⟨page, hpage⟩

end RowStore
