/-
  RowStore/Proofs/Node/Fields.lean
  ================================
  **The fields of a node.**  A field stands in a stretch of bytes, and is read and written by
  functions of its own.  A `Format` names the fields of a kind of buffer, and says which of
  them are parts of which others: the header has three parts, the cell of a leaf has two.

  A format is *lossless* if whatever fits a field can be written to it, is read back as it
  was written, and changes neither what is read of the fields beside it nor any byte outside
  of it.  For this three things are enough, and each of them is about bytes:

    * a field is read from its own bytes (`Field.Local`);
    * what is written is read back, and all other bytes stay (`Field.Takes`);
    * two fields have no byte in common, unless one is a part of the other.

  Headers, leaves and branches are such formats, over all bytes and all cell indices.
-/
import RowStore.Proofs.Node.Writing

namespace RowStore

variable {n : Nat} {α β : Type}

/-! ## Fields -/

/-- A part of a buffer: the bytes that it stands in, how it is read and how it is written. -/
structure Field (n : Nat) (α : Type) where
  start : Nat
  size : Nat
  read : Bytes n → Except Failure α
  write : α → Edit n Unit

namespace Field

variable {f : Field n α} {g : Field n β}

/-- The bytes of a field. -/
def Covers (f : Field n α) (k : Nat) : Prop := f.start ≤ k ∧ k < f.start + f.size

/-- Two buffers have the same bytes in a field. -/
def Agree (f : Field n α) (b b' : Bytes n) : Prop := ∀ k, f.Covers k → b'.byte k = b.byte k

/-- A field is read from its own bytes. -/
def Local (f : Field n α) : Prop := ∀ b b' : Bytes n, f.Agree b b' → f.read b' = f.read b

/-- A field takes `a`: it is written, is read back, and no other byte is changed. -/
def Takes (f : Field n α) (a : α) : Prop :=
  ∀ b : Bytes n, ∃ after : Bytes n, (f.write a).run b = .ok () after ∧ f.read after = .ok a ∧
    ∀ k, ¬f.Covers k → after.byte k = b.byte k

theorem Agree.byte {b b' : Bytes n} (h : f.Agree b b') (hsize : f.size = 1) :
    b'.byte f.start = b.byte f.start :=
  h f.start ⟨Nat.le_refl _, by omega⟩

theorem Agree.word {b b' : Bytes n} (h : f.Agree b b') (hsize : f.size = 4) :
    b'.word f.start = b.word f.start :=
  Bytes.word_congr fun k hk => h (f.start + k) ⟨Nat.le_add_right _ _, by omega⟩

theorem Agree.slice {b b' : Bytes n} (h : f.Agree b b') :
    b'.slice f.start f.size = b.slice f.start f.size :=
  Bytes.slice_congr fun k hk => h (f.start + k) ⟨Nat.le_add_right _ _, by omega⟩

/-- A field whose place has to be looked up first is read from its own bytes if its place is
    the right one. -/
theorem local_of_lookup {place : Except Failure Nat} {get : Bytes n → Nat → α}
    (hread : ∀ b, f.read b = place >>= fun off => .ok (get b off))
    (hget : ∀ off, place = .ok off → ∀ b b', f.Agree b b' → get b' off = get b off) :
    f.Local := by
  intro b b' h
  rw [hread, hread]
  cases place with
  | error failure => rfl
  | ok off => exact congrArg Except.ok (hget off rfl b b' h)

/-- A field that is written as a stretch of its own length, and is read from that. -/
theorem takes_of_put {a : α} {data : List UInt8} (hlength : data.length = f.size)
    (hfit : f.start + f.size ≤ n)
    (hrun : ∀ b : Bytes n, (f.write a).run b = .ok () (b.put f.start data))
    (hread : ∀ b : Bytes n, b.slice f.start f.size = data → f.read b = .ok a) : f.Takes a := by
  intro b
  refine ⟨_, hrun b, hread _ ?_, fun k hk => Bytes.byte_put_of_not_mem b ?_⟩
  · rw [← hlength] at hfit ⊢
    exact Bytes.slice_put b f.start data hfit
  · rw [Covers] at hk
    omega

theorem takes_of_word {a : α} {w : UInt32} (hsize : f.size = 4) (hfit : f.start + f.size ≤ n)
    (hrun : ∀ b : Bytes n, (f.write a).run b = .ok () (b.putWord f.start w))
    (hread : ∀ b : Bytes n, b.word f.start = w → f.read b = .ok a) : f.Takes a := by
  have hlength : (Word.toBytes w).length = f.size := hsize.symm
  refine takes_of_put hlength hfit hrun fun b h => hread b (word_of_slice ?_)
  rwa [hsize] at h

theorem takes_of_byte {a : α} {x : UInt8} (hsize : f.size = 1) (hfit : f.start + f.size ≤ n)
    (hrun : ∀ b : Bytes n, (f.write a).run b = .ok () (b.put f.start [x]))
    (hread : ∀ b : Bytes n, b.byte f.start = x → f.read b = .ok a) : f.Takes a := by
  have hlength : [x].length = f.size := hsize.symm
  refine takes_of_put hlength hfit hrun fun b h => hread b ?_
  rw [hsize] at h
  exact List.head_eq_of_cons_eq h

/-- What is read of a field does not change where its bytes do not. -/
theorem Local.read_eq (hg : g.Local) {b after : Bytes n}
    (hbyte : ∀ k, ¬f.Covers k → after.byte k = b.byte k)
    (hapart : ∀ k, f.Covers k → ¬g.Covers k) : g.read after = g.read b :=
  hg b after fun k hk => hbyte k fun hf => hapart k hf hk

end Field

/-! ## Formats -/

/-- The fields of a buffer by name, the contents that fit them, and of which other field they
    are parts. -/
structure Format (n : Nat) where
  Name : Type
  Content : Name → Type
  field : (name : Name) → Field n (Content name)
  Fits : (name : Name) → Content name → Prop
  whole : Name → Option Name

namespace Format

variable {F : Format n}

/-- Neither field is a part of the other. -/
def Beside (F : Format n) (f g : F.Name) : Prop := f ≠ g ∧ F.whole f ≠ some g ∧ F.whole g ≠ some f

/-- What fits a field is written to it and read back; the fields beside it read as before, and
    so do all bytes outside of it. -/
def Lossless (F : Format n) : Prop :=
  ∀ (f : F.Name) (a : F.Content f), F.Fits f a → ∀ b : Bytes n, ∃ after : Bytes n,
    ((F.field f).write a).run b = .ok () after ∧ (F.field f).read after = .ok a ∧
    (∀ g, F.Beside f g → (F.field g).read after = (F.field g).read b) ∧
    ∀ k, ¬(F.field f).Covers k → after.byte k = b.byte k

theorem lossless_of_bytes (hlocal : ∀ f, (F.field f).Local)
    (htakes : ∀ f a, F.Fits f a → (F.field f).Takes a)
    (hapart : ∀ f g, F.Beside f g → ∀ k, (F.field f).Covers k → ¬(F.field g).Covers k) :
    F.Lossless := by
  intro f a hfits b
  obtain ⟨after, hrun, hread, hbyte⟩ := htakes f a hfits b
  exact ⟨after, hrun, hread, fun g hg => (hlocal g).read_eq hbyte (hapart f g hg), hbyte⟩

end Format

/-! ## Headers -/

namespace Header

/-- The header, and the parts of it. -/
inductive Part where
  | whole
  | kind
  | root
  | parent
deriving DecidableEq

def Part.Content : Part → Type
  | .whole => Header
  | .kind => NodeKind
  | .root => Bool
  | .parent => PageId

def Part.within : Part → Option Part
  | .whole => none
  | _ => some .whole

/-- The fields of the header of page `id`, in a buffer of any size. -/
def field (n : Nat) (id : PageId) : (part : Part) → Field n part.Content
  | .whole => ⟨kindOffset, size, decode id, encode⟩
  | .kind => ⟨kindOffset, 1, readKind id, setKind⟩
  | .root => ⟨rootOffset, 1, readRoot, setRoot⟩
  | .parent => ⟨parentOffset, 4, readParent, setParent⟩

def format (n : Nat) (id : PageId) : Format n where
  Name := Part
  Content := Part.Content
  field := field n id
  Fits _ _ := True
  whole := Part.within

variable {id : PageId}

theorem covers_iff {part : Part} {k : Nat} : (field n id part).Covers k ↔
    match part with
    | .whole => k < 6
    | .kind => k = 0
    | .root => k = 1
    | .parent => 2 ≤ k ∧ k < 6 := by
  cases part <;>
    simp only [Field.Covers, field, kindOffset, rootOffset, parentOffset, size] <;> omega

theorem lt_of_covers {part : Part} {k : Nat} (h : (field n id part).Covers k) : k < 6 := by
  rw [covers_iff] at h
  cases part <;> dsimp only at h <;> omega

theorem not_covers_of_beside {f g : Part} (h : f ≠ g ∧ f.within ≠ some g ∧ g.within ≠ some f)
    {k : Nat} (hf : (field n id f).Covers k) : ¬(field n id g).Covers k := by
  intro hg
  rw [covers_iff] at hf hg
  cases f <;> cases g <;> simp [Part.within] at h <;> omega

theorem readKind_congr {b b' : Bytes n} (h : b'.byte kindOffset = b.byte kindOffset) :
    readKind id b' = readKind id b := by
  rw [readKind, readKind, Bytes.readByte, Bytes.readByte, h]

theorem readRoot_congr {b b' : Bytes n} (h : b'.byte rootOffset = b.byte rootOffset) :
    readRoot b' = readRoot b := by
  rw [readRoot, readRoot, Bytes.readByte, Bytes.readByte, h]

theorem readParent_congr {b b' : Bytes n} (h : b'.word parentOffset = b.word parentOffset) :
    readParent b' = readParent b := by
  rw [readParent, readParent, Bytes.readWord, Bytes.readWord, h]

theorem local_field (part : Part) : (field n id part).Local := by
  intro b b' h
  cases part with
  | whole =>
    have hkind : readKind id b' = readKind id b :=
      readKind_congr (h 0 (covers_iff.mpr (by decide)))
    have hroot : readRoot b' = readRoot b := readRoot_congr (h 1 (covers_iff.mpr (by decide)))
    have hparent : readParent b' = readParent b := readParent_congr
      (Bytes.word_congr fun k hk => h (2 + k) (covers_iff.mpr (by dsimp only; omega)))
    change decode id b' = decode id b
    rw [decode, decode, hkind, hroot, hparent]
  | kind => exact readKind_congr (h.byte rfl)
  | root => exact readRoot_congr (h.byte rfl)
  | parent => exact readParent_congr (h.word rfl)

/-- A header is read part by part. -/
theorem decode_eq_ok {b : Bytes n} {h : Header} (hkind : readKind id b = .ok h.kind)
    (hroot : readRoot b = .ok h.isRoot) (hparent : readParent b = .ok h.parent) :
    decode id b = .ok h := by
  rw [decode, hkind, hroot, hparent]
  rfl

theorem takes_kind (hn : size ≤ n) (kind : NodeKind) : (field n id .kind).Takes kind := by
  have hlt : kindOffset < n := Nat.lt_of_lt_of_le (by decide) hn
  refine Field.takes_of_byte rfl hlt (fun b => Edit.run_writeByte b _ hlt) fun b h => ?_
  change readKind id b = .ok kind
  rw [readKind, Bytes.readByte_of_lt b hlt, show b.byte kindOffset = kind.toByte from h]
  simp only [bind, Except.bind, NodeKind.ofByte?_toByte]
  rfl

theorem takes_root (hn : size ≤ n) (isRoot : Bool) : (field n id .root).Takes isRoot := by
  have hlt : rootOffset < n := Nat.lt_of_lt_of_le (by decide) hn
  refine Field.takes_of_byte rfl hlt (fun b => Edit.run_writeByte b _ hlt) fun b h => ?_
  change readRoot b = .ok isRoot
  rw [readRoot, Bytes.readByte_of_lt b hlt,
    show b.byte rootOffset = if isRoot then 1 else 0 from h]
  cases isRoot <;> rfl

theorem takes_parent (hn : size ≤ n) (parent : PageId) : (field n id .parent).Takes parent := by
  refine Field.takes_of_word rfl hn (fun b => Edit.run_writeWord b _ hn) fun b h => ?_
  change readParent b = .ok parent
  rw [readParent, Bytes.readWord_of_le b hn, show b.word parentOffset = parent.number from h]
  rfl

/-- A whole header is written part by part, and a later part leaves the earlier ones. -/
theorem takes_whole (hn : size ≤ n) (h : Header) : (field n id .whole).Takes h := by
  intro b
  obtain ⟨b₁, hrun₁, hkind, hbyte₁⟩ := @takes_kind n id hn h.kind b
  obtain ⟨b₂, hrun₂, hroot, hbyte₂⟩ := @takes_root n id hn h.isRoot b₁
  obtain ⟨b₃, hrun₃, hparent, hbyte₃⟩ := @takes_parent n id hn h.parent b₂
  have hkind₂ := (local_field .kind).read_eq hbyte₂
    fun k => not_covers_of_beside (f := .root) (g := .kind) (by decide)
  have hkind₃ := (local_field .kind).read_eq hbyte₃
    fun k => not_covers_of_beside (f := .parent) (g := .kind) (by decide)
  have hroot₃ := (local_field .root).read_eq hbyte₃
    fun k => not_covers_of_beside (f := .parent) (g := .root) (by decide)
  refine ⟨b₃, ?_, decode_eq_ok (hkind₃.trans (hkind₂.trans hkind)) (hroot₃.trans hroot) hparent, ?_⟩
  · change (encode h).run b = _
    rw [encode, if_neg (Nat.not_lt.mpr hn)]
    exact (bind_run hrun₁).trans ((bind_run hrun₂).trans hrun₃)
  · intro k hk
    have houtside : ∀ part, ¬(field n id part).Covers k := fun part hpart =>
      hk (covers_iff.mpr (lt_of_covers hpart))
    rw [hbyte₃ k (houtside _), hbyte₂ k (houtside _), hbyte₁ k (houtside _)]

theorem takes_field (hn : size ≤ n) (part : Part) (a : part.Content) :
    (field n id part).Takes a := by
  cases part with
  | whole => exact takes_whole hn a
  | kind => exact takes_kind hn a
  | root => exact takes_root hn a
  | parent => exact takes_parent hn a

end Header

/-! ## Leaves -/

namespace Leaf

/-- The fields of a leaf.  The header is one of them, and so are its parts. -/
inductive Name where
  | header (part : Header.Part)
  | count
  | next
  | cell (i : Nat)
  | key (i : Nat)
  | value (i : Nat)
deriving DecidableEq

def Name.Content : Name → Type
  | .header part => part.Content
  | .count => Nat
  | .next => Option PageId
  | .cell _ => List UInt8
  | .key _ => UInt32
  | .value _ => List UInt8

def Name.within : Name → Option Name
  | .header part => part.within.map .header
  | .count => none
  | .next => none
  | .cell _ => none
  | .key i => some (.cell i)
  | .value i => some (.cell i)

/-- Counts and indices that no leaf has do not fit, and neither do stretches of another length:
    they are faults.  Page 0 is no next leaf, because its number stands for there being none. -/
def Name.Fits : (name : Name) → name.Content → Prop
  | .header _ => fun _ => True
  | .count => fun count : Nat => count ≤ maxCells
  | .next => (· ≠ some PageId.root)
  | .cell i => fun cell => i < maxCells ∧ cell.length = cellSize
  | .key i => fun _ => i < maxCells
  | .value i => fun value => i < maxCells ∧ value.length = valueSize

/-- The fields of page `id` as a leaf. -/
def field (id : PageId) : (name : Name) → Field pageSize name.Content
  | .header .whole => Header.field pageSize id .whole
  | .header .kind => Header.field pageSize id .kind
  | .header .root =>
    ⟨Header.rootOffset, 1, fun page => .ok (isRoot { id, page }), Header.setRoot⟩
  | .header .parent =>
    ⟨Header.parentOffset, 4, fun page => .ok (parent { id, page }), Header.setParent⟩
  | .count => ⟨countOffset, 4, fun page => .ok (count { id, page }), setCount⟩
  | .next => ⟨nextOffset, 4, fun page => .ok (next { id, page }), setNext⟩
  | .cell i => ⟨cellStart i, cellSize, fun page => cell { id, page } i, setCell i⟩
  | .key i => ⟨cellStart i, keySize, fun page => key { id, page } i, setKey i⟩
  | .value i => ⟨cellStart i + keySize, valueSize, fun page => value { id, page } i, setValue i⟩

def format (id : PageId) : Format pageSize where
  Name := Name
  Content := Name.Content
  field := field id
  Fits := Name.Fits
  whole := Name.within

variable {id : PageId}

/-- The views of a leaf read its header like any other. -/
theorem field_header (part : Header.Part) :
    field id (.header part) = Header.field pageSize id part := by
  cases part <;> rfl

theorem covers_iff {name : Name} {k : Nat} : (field id name).Covers k ↔
    match name with
    | .header part => (Header.field pageSize id part).Covers k
    | .count => 6 ≤ k ∧ k < 10
    | .next => 10 ≤ k ∧ k < 14
    | .cell i => 14 + 295 * i ≤ k ∧ k < 14 + 295 * i + 295
    | .key i => 14 + 295 * i ≤ k ∧ k < 14 + 295 * i + 4
    | .value i => 14 + 295 * i + 4 ≤ k ∧ k < 14 + 295 * i + 295 := by
  cases name with
  | header part => exact iff_of_eq (congrArg (Field.Covers · k) (field_header part))
  | count | next => exact Iff.rfl
  | key i => simp only [Field.Covers, field, cellStart_eq]
  | cell i | value i =>
    simp only [Field.Covers, field, cellStart_eq, Nat.add_assoc]
    exact Iff.rfl

theorem not_covers_of_beside {f g : Name} (h : f ≠ g ∧ f.within ≠ some g ∧ g.within ≠ some f)
    {k : Nat} (hf : (field id f).Covers k) : ¬(field id g).Covers k := by
  intro hg
  cases f with
  | header part =>
    cases g with
    | header other =>
      rw [covers_iff] at hf hg
      refine Header.not_covers_of_beside ⟨fun he => h.1 (congrArg _ he), ?_, ?_⟩ hf hg
      · exact fun he => h.2.1 (by rw [Name.within, he]; rfl)
      · exact fun he => h.2.2 (by rw [Name.within, he]; rfl)
    | _ =>
      have := Header.lt_of_covers (covers_iff.mp hf)
      rw [covers_iff] at hg
      dsimp only at hg
      omega
  | _ =>
    cases g with
    | header other =>
      have := Header.lt_of_covers (covers_iff.mp hg)
      rw [covers_iff] at hf
      dsimp only at hf
      omega
    | _ =>
      rw [covers_iff] at hf hg
      simp [Name.within] at h hf hg <;> omega

/-- A field of a cell has the place that its index has, if any. -/
theorem cellOffset_eq_ok {i off : Nat} (h : cellOffset i = .ok off) : off = cellStart i := by
  rw [cellOffset] at h
  split at h
  · exact (Except.ok.inj h).symm
  · cases h

theorem local_field (name : Name) : (field id name).Local := by
  cases name with
  | header part =>
    rw [field_header]
    exact Header.local_field part
  | count =>
    intro b b' h
    have hword : b'.word countOffset = b.word countOffset := h.word rfl
    simp only [field, count, countIn, hword]
  | next =>
    intro b b' h
    have hword : b'.word nextOffset = b.word nextOffset := h.word rfl
    simp only [field, next, hword]
  | cell i =>
    refine Field.local_of_lookup (fun b => rfl) fun off hoff b b' h => ?_
    rw [cellOffset_eq_ok hoff]
    exact h.slice
  | key i =>
    refine Field.local_of_lookup (fun b => rfl) fun off hoff b b' h => ?_
    rw [cellOffset_eq_ok hoff]
    exact h.word rfl
  | value i =>
    refine Field.local_of_lookup (fun b => rfl) fun off hoff b b' h => ?_
    rw [cellOffset_eq_ok hoff]
    exact h.slice

theorem takes_count {count : Nat} (hcount : count ≤ maxCells) :
    (field id .count).Takes count := by
  have hfit : countOffset + 4 ≤ pageSize := by decide
  exact Field.takes_of_word rfl hfit (fun page => run_setCount page hcount) fun page h =>
    congrArg Except.ok ((congrArg UInt32.toNat h).trans (toNat_ofNat_of_le hcount))

theorem takes_field {name : Name} {a : name.Content} (hfits : name.Fits a) :
    (field id name).Takes a := by
  cases name with
  | header part =>
    rw [field_header]
    exact Header.takes_field (by decide) part a
  | count => exact takes_count hfits
  | next =>
    have hfit : nextOffset + 4 ≤ pageSize := by decide
    exact Field.takes_of_word rfl hfit (fun page => Edit.run_writeWord page _ hfit)
      fun page h => congrArg Except.ok (nextIn_of_word hfits h)
  | cell i =>
    obtain ⟨hi, hlength⟩ := hfits
    refine Field.takes_of_put hlength (cellStart_add_le hi) (fun page => run_setCell hi hlength)
      fun page h => ?_
    change cell { id, page } i = .ok a
    rw [cell, Says.cellOffset_eq hi, ← h]
    rfl
  | key i =>
    have hi : i < maxCells := hfits
    refine Field.takes_of_word rfl (cellStart_add_keySize_le hi)
      (fun page => run_setKey page a hi) fun page h => ?_
    change key { id, page } i = .ok a
    rw [key, Says.cellOffset_eq hi, ← h]
    rfl
  | value i =>
    obtain ⟨hi, hlength⟩ := hfits
    refine Field.takes_of_put hlength (cellStart_add_keySize_add_le hi)
      (fun page => run_setValue page hi hlength) fun page h => ?_
    change value { id, page } i = .ok a
    rw [value, Says.cellOffset_eq hi, ← h]
    rfl

end Leaf

/-! ## Branches -/

namespace Branch

/-- The fields of a branch.  The header is one of them, and so are its parts. -/
inductive Name where
  | header (part : Header.Part)
  | count
  | right
  | child (i : Nat)
  | key (i : Nat)
deriving DecidableEq

def Name.Content : Name → Type
  | .header part => part.Content
  | .count => Nat
  | .right => PageId
  | .child _ => PageId
  | .key _ => UInt32

def Name.within : Name → Option Name
  | .header part => part.within.map .header
  | _ => none

/-- Counts and indices that no branch has do not fit: they are faults. -/
def Name.Fits : (name : Name) → name.Content → Prop
  | .header _ => fun _ => True
  | .count => fun count : Nat => count ≤ maxKeys
  | .right => fun _ => True
  | .child i => fun _ => i < maxKeys
  | .key i => fun _ => i < maxKeys

/-- The fields of page `id` as a branch. -/
def field (id : PageId) : (name : Name) → Field pageSize name.Content
  | .header .whole => Header.field pageSize id .whole
  | .header .kind => Header.field pageSize id .kind
  | .header .root =>
    ⟨Header.rootOffset, 1, fun page => .ok (isRoot { id, page }), Header.setRoot⟩
  | .header .parent =>
    ⟨Header.parentOffset, 4, fun page => .ok (parent { id, page }), Header.setParent⟩
  | .count => ⟨countOffset, 4, fun page => .ok (count { id, page }), setCount⟩
  | .right => ⟨rightOffset, 4, fun page => .ok (right { id, page }), setRight⟩
  | .child i => ⟨cellStart i, childSize, fun page => cellChild { id, page } i, setCellChild i⟩
  | .key i => ⟨cellStart i + childSize, keySize, fun page => key { id, page } i, setKey i⟩

def format (id : PageId) : Format pageSize where
  Name := Name
  Content := Name.Content
  field := field id
  Fits := Name.Fits
  whole := Name.within

variable {id : PageId}

/-- The views of a branch read its header like any other. -/
theorem field_header (part : Header.Part) :
    field id (.header part) = Header.field pageSize id part := by
  cases part <;> rfl

theorem covers_iff {name : Name} {k : Nat} : (field id name).Covers k ↔
    match name with
    | .header part => (Header.field pageSize id part).Covers k
    | .count => 6 ≤ k ∧ k < 10
    | .right => 10 ≤ k ∧ k < 14
    | .child i => 14 + 8 * i ≤ k ∧ k < 14 + 8 * i + 4
    | .key i => 14 + 8 * i + 4 ≤ k ∧ k < 14 + 8 * i + 8 := by
  cases name with
  | header part => exact iff_of_eq (congrArg (Field.Covers · k) (field_header part))
  | count | right => exact Iff.rfl
  | child i => simp only [Field.Covers, field, cellStart_eq]
  | key i =>
    simp only [Field.Covers, field, cellStart_eq, Nat.add_assoc]
    exact Iff.rfl

theorem not_covers_of_beside {f g : Name} (h : f ≠ g ∧ f.within ≠ some g ∧ g.within ≠ some f)
    {k : Nat} (hf : (field id f).Covers k) : ¬(field id g).Covers k := by
  intro hg
  cases f with
  | header part =>
    cases g with
    | header other =>
      rw [covers_iff] at hf hg
      refine Header.not_covers_of_beside ⟨fun he => h.1 (congrArg _ he), ?_, ?_⟩ hf hg
      · exact fun he => h.2.1 (by rw [Name.within, he]; rfl)
      · exact fun he => h.2.2 (by rw [Name.within, he]; rfl)
    | _ =>
      have := Header.lt_of_covers (covers_iff.mp hf)
      rw [covers_iff] at hg
      dsimp only at hg
      omega
  | _ =>
    cases g with
    | header other =>
      have := Header.lt_of_covers (covers_iff.mp hg)
      rw [covers_iff] at hf
      dsimp only at hf
      omega
    | _ =>
      rw [covers_iff] at hf hg
      simp [Name.within] at h hf hg <;> omega

theorem cellOffset_eq_ok {i off : Nat} (h : cellOffset i = .ok off) : off = cellStart i := by
  rw [cellOffset] at h
  split at h
  · exact (Except.ok.inj h).symm
  · cases h

theorem local_field (name : Name) : (field id name).Local := by
  cases name with
  | header part =>
    rw [field_header]
    exact Header.local_field part
  | count =>
    intro b b' h
    have hword : b'.word countOffset = b.word countOffset := h.word rfl
    simp only [field, count, countIn, hword]
  | right =>
    intro b b' h
    have hword : b'.word rightOffset = b.word rightOffset := h.word rfl
    simp only [field, right, hword]
  | child i =>
    refine Field.local_of_lookup (fun b => rfl) fun off hoff b b' h => ?_
    rw [cellOffset_eq_ok hoff]
    exact congrArg PageId.mk (h.word rfl)
  | key i =>
    refine Field.local_of_lookup (fun b => rfl) fun off hoff b b' h => ?_
    rw [cellOffset_eq_ok hoff]
    exact h.word rfl

theorem takes_count {count : Nat} (hcount : count ≤ maxKeys) :
    (field id .count).Takes count := by
  have hfit : countOffset + 4 ≤ pageSize := by decide
  exact Field.takes_of_word rfl hfit (fun page => run_setCount page hcount) fun page h =>
    congrArg Except.ok ((congrArg UInt32.toNat h).trans (toNat_ofNat_of_le hcount))

theorem takes_field {name : Name} {a : name.Content} (hfits : name.Fits a) :
    (field id name).Takes a := by
  cases name with
  | header part =>
    rw [field_header]
    exact Header.takes_field (by decide) part a
  | count => exact takes_count hfits
  | right =>
    have hfit : rightOffset + 4 ≤ pageSize := by decide
    exact Field.takes_of_word rfl hfit (fun page => Edit.run_writeWord page _ hfit)
      fun page h => congrArg (fun w => Except.ok (PageId.mk w)) h
  | child i =>
    have hi : i < maxKeys := hfits
    refine Field.takes_of_word rfl (cellStart_add_childSize_le hi)
      (fun page => run_setCellChild page a hi) fun page h => ?_
    change cellChild { id, page } i = .ok a
    rw [cellChild, Says.cellOffset_eq hi]
    exact congrArg (fun w => Except.ok (PageId.mk w)) h
  | key i =>
    have hi : i < maxKeys := hfits
    refine Field.takes_of_word rfl (cellStart_add_childSize_add_le hi)
      (fun page => run_setKey page a hi) fun page h => ?_
    change key { id, page } i = .ok a
    rw [key, Says.cellOffset_eq hi, ← h]
    rfl

end Branch

/-! ## The formats of a page -/

/-- A header takes what it is given in every buffer that has room for it, and on every page so
    do the fields of a leaf and those of a branch. -/
theorem formats_lossless (id : PageId) :
    (∀ n, Header.size ≤ n → (Header.format n id).Lossless) ∧
      (Leaf.format id).Lossless ∧ (Branch.format id).Lossless := by
  refine ⟨fun n hn => ?_, ?_, ?_⟩
  · exact Format.lossless_of_bytes Header.local_field (fun part a _ => Header.takes_field hn part a)
      fun f g h k => Header.not_covers_of_beside h
  · exact Format.lossless_of_bytes Leaf.local_field (fun _ _ => Leaf.takes_field)
      fun f g h k => Leaf.not_covers_of_beside h
  · exact Format.lossless_of_bytes Branch.local_field (fun _ _ => Branch.takes_field)
      fun f g h k => Branch.not_covers_of_beside h

/-- A header fills a buffer of six bytes.  In the last cell of a leaf the value is written
    without the key, and in the last cell of a branch the child without the separator. -/
theorem formats_lossless_last_cells :
    (∃ after : Bytes 6, (Header.encode ⟨.leaf, true, ⟨7⟩⟩).run Bytes.zero = .ok () after ∧
      Header.decode PageId.root after = .ok ⟨.leaf, true, ⟨7⟩⟩) ∧
    (∃ after : Page, (Leaf.setValue 12 (List.replicate 291 1)).run Bytes.zero = .ok () after ∧
      Leaf.value ⟨PageId.root, after⟩ 12 = .ok (List.replicate 291 1) ∧
      Leaf.key ⟨PageId.root, after⟩ 12 = Leaf.key ⟨PageId.root, Bytes.zero⟩ 12) ∧
    ∃ after : Page, (Branch.setCellChild 2 ⟨9⟩).run Bytes.zero = .ok () after ∧
      Branch.cellChild ⟨PageId.root, after⟩ 2 = .ok ⟨9⟩ ∧
      Branch.key ⟨PageId.root, after⟩ 2 = Branch.key ⟨PageId.root, Bytes.zero⟩ 2 := by
  obtain ⟨hheader, hleaf, hbranch⟩ := formats_lossless PageId.root
  refine ⟨?_, ?_, ?_⟩
  · obtain ⟨after, hrun, hread, -⟩ :=
      hheader 6 (Nat.le_refl 6) Header.Part.whole ⟨.leaf, true, ⟨7⟩⟩ trivial Bytes.zero
    exact ⟨after, hrun, hread⟩
  · obtain ⟨after, hrun, hread, hbeside, -⟩ := hleaf (Leaf.Name.value 12) (List.replicate 291 1)
      ⟨by decide, List.length_replicate⟩ Bytes.zero
    have hkey := hbeside (Leaf.Name.key 12) (by simp [Format.Beside, Leaf.format, Leaf.Name.within])
    exact ⟨after, hrun, hread, hkey⟩
  · obtain ⟨after, hrun, hread, hbeside, -⟩ := hbranch (Branch.Name.child 2) ⟨9⟩
      (show 2 < Branch.maxKeys by decide) Bytes.zero
    have hkey := hbeside (Branch.Name.key 2)
      (by simp [Format.Beside, Branch.format, Branch.Name.within])
    exact ⟨after, hrun, hread, hkey⟩

end RowStore
