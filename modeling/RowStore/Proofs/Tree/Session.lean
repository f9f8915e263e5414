/-
  RowStore/Proofs/Tree/Session.lean
  =================================
  **Sessions.**  A session opens a tree where no file is, or an empty one, and then inserts
  keys, looks keys up, and saves the tree and opens it again, in any order.  What failed
  stays as it was left.  All along, the pages of the pager are those of a sound tree, and
  what the tree holds is what the session has put into it.
-/
import RowStore.Proofs.Pager.Save
import RowStore.Proofs.Tree.Check
import RowStore.Proofs.Tree.Scan

namespace RowStore

variable {α : Type} {H : Nat}

/-! ## Stored trees -/

/-- The pages of a pager are those of a sound tree. -/
structure Pager.Stores (pager : Pager) (t : Subtree H) (q : PageId) : Prop where
  sound : t.Sound
  holds : pager.Holds pager.numPages (t.heap true q)

namespace Pager.Stores

variable {pager after : Pager} {t : Subtree H} {q : PageId}

theorem length_heap_le (h : pager.Stores t q) : (t.heap true q).length ≤ maxPages :=
  Nat.le_trans (Heap.length_le h.holds.distinct fun x hx => (h.holds.shows x hx).1)
    h.holds.le_maxPages

theorem numPages_lt (h : pager.Stores t q) : pager.numPages < 4294967296 :=
  Nat.lt_of_le_of_lt h.holds.le_maxPages (by decide)

theorem length_leaves_le (h : pager.Stores t q) : t.leaves.length ≤ maxPages :=
  Nat.le_trans (t.length_leaves_le true q) h.length_heap_le

theorem height_lt (h : pager.Stores t q) : H < maxPages :=
  Nat.lt_of_lt_of_le (Subtree.lt_length_heap h.sound.formed true q) h.length_heap_le

theorem of_view (h : pager.Stores t q) (hafter : after.Coherent) (hview : after.view = pager.view) :
    after.Stores t q := by
  have hnum : after.numPages = pager.numPages := congrArg View.numPages hview
  exact ⟨h.sound, hnum ▸ h.holds.of_view hafter hview⟩

/-- Looking at a stored tree. -/
theorem run_reads (h : pager.Stores t q) {m : PagerM α} {r : Except Failure α}
    (hm : Reads m (t.heap true q) r) :
    ∃ after : Pager, m.run pager = outcome r after ∧ after.Coherent ∧ after.view = pager.view :=
  hm.leads (h.holds.shows.gives h.holds.view_numPages_le) pager h.holds.coherent rfl

end Pager.Stores

namespace Tree

/-! ## One insert -/

/-- What can come of inserting a key into a stored tree. -/
inductive Inserted (pager after : Pager) (t : Subtree H) (q : PageId) (key : UInt32)
    (value : List UInt8) : Except Failure Unit → Prop where
  | duplicate {present : List UInt8} (hkey : lookup t.leaves.entries key = some present)
    (hview : after.view = pager.view) :
    Inserted pager after t q key value (.error (.error (.duplicateKey key)))
  | mismatch (hkey : lookup t.leaves.entries key = none) (hvalue : value.length ≠ Leaf.valueSize)
    (hview : after.view = pager.view) : Inserted pager after t q key value
      (.error (.error (.valueSizeMismatch Leaf.valueSize value.length)))
  | full {place : Trail H 0} {id : PageId} {next : Option PageId} {a b : List Entry}
    (hkey : lookup t.leaves.entries key = none) (hvalue : value.length = Leaf.valueSize)
    (hplace : Locates key t place id next a b)
    (hfull : maxPages < pager.numPages + place.needed (a ++ b).length)
    (hview : after.view = pager.view) :
    Inserted pager after t q key value (.error (.error .tableFull))
  | taken {place : Trail H 0} {id : PageId} {next : Option PageId} {a b : List Entry}
    (hkey : lookup t.leaves.entries key = none) (hvalue : value.length = Leaf.valueSize)
    (hplace : Locates key t place id next a b)
    (hroom : pager.numPages + place.needed (a ++ b).length ≤ maxPages)
    (hnum : after.numPages = pager.numPages + place.needed (a ++ b).length)
    (hstores : after.Stores (place.grown pager.numPages id next a b { key, value }).2 q) :
    Inserted pager after t q key value (.ok ())

theorem exists_insert {pager : Pager} {t : Subtree H} {q : PageId} (h : pager.Stores t q)
    (key : UInt32) (value : List UInt8) : ∃ (r : Except Failure Unit) (after : Pager),
      (insert key value).run pager = outcome r after ∧ after.Coherent ∧
        Inserted pager after t q key value r := by
  have hH := h.height_lt
  cases hkey : lookup t.leaves.entries key with
  | some present =>
    obtain ⟨after, hrun, hafter, hview⟩ :=
      h.run_reads (reads_insert_present h.sound hH hkey value q)
    exact ⟨_, after, hrun, hafter, .duplicate hkey hview⟩
  | none =>
    by_cases hvalue : value.length = Leaf.valueSize
    · obtain ⟨place, id, next, a, b, hl⟩ := exists_locates h.sound key
      by_cases hroom : pager.numPages + place.needed (a ++ b).length ≤ maxPages
      · have hp := h.holds
        rw [← List.append_nil (t.heap true q)] at hp
        obtain ⟨after, hrun, -, hafter⟩ :=
          takes_insert hl h.sound hH hkey hvalue hroom pager [] hp
        rw [List.append_nil] at hafter
        refine ⟨_, after, hrun, hafter.coherent, .taken hkey hvalue hl hroom hafter.numPages_eq
          ⟨hl.sound_grown h.sound hkey hvalue pager.numPages, ?_⟩⟩
        rw [hafter.numPages_eq]
        exact hafter
      · have hfull : maxPages - pager.view.numPages < place.needed (a ++ b).length := by
          have hle : pager.view.numPages ≤ maxPages := h.holds.le_maxPages
          replace hroom : ¬pager.view.numPages + place.needed (a ++ b).length ≤ maxPages := hroom
          omega
        obtain ⟨after, hrun, hafter, hview⟩ := insert_refused hl h.sound hH hkey hvalue
          (h.holds.shows.gives h.holds.view_numPages_le) hfull pager h.holds.coherent rfl
        exact ⟨_, after, hrun, hafter, .full hkey hvalue hl (Nat.not_le.mp hroom) hview⟩
    · obtain ⟨after, hrun, hafter, hview⟩ :=
        h.run_reads (reads_insert_mismatch h.sound hH hkey hvalue q)
      exact ⟨_, after, hrun, hafter, .mismatch hkey hvalue hview⟩

/-! ## Opening -/

theorem openAt_of_run {location : Location} {file : Image} {after : Pager}
    (hlocation : location.openFile = .ok file)
    (hrun : establish.run (Pager.ofImage file) = .ok () after) : openAt location = .ok after := by
  have hopen : Pager.openAt location = pure (Pager.ofImage file) := by
    rw [Pager.openAt, hlocation]
    rfl
  replace hrun : establish (Pager.ofImage file) = .ok () after := hrun
  rw [openAt, hopen, pure_bind, hrun]
  rfl

/-- A tree that was opened was established on its file. -/
theorem run_of_openAt {location : Location} {file : Image} {pager : Pager}
    (hlocation : location.openFile = .ok file) (hopen : openAt location = .ok pager) :
    establish.run (Pager.ofImage file) = .ok () pager := by
  have hpager : Pager.openAt location = pure (Pager.ofImage file) := by
    rw [Pager.openAt, hlocation]
    rfl
  rw [openAt, hpager, pure_bind] at hopen
  change establish (Pager.ofImage file) = .ok () pager
  cases hrun : establish (Pager.ofImage file) with
  | ok a after =>
    rw [hrun] at hopen
    cases hopen
    rfl
  | error failure after =>
    rw [hrun] at hopen
    cases hopen

/-- An empty file becomes a tree whose root is an empty leaf. -/
theorem takes_establish : Takes establish 0 [] (.ok ()) 1
    ((Subtree.leaf PageId.root none []).heap true blank.parent) := by
  refine Takes.get_bind fun pager hpager => ?_
  rw [if_pos hpager]
  refine Takes.bind (a := PageId.root) (Takes.allocate (by decide)) ?_
  exact Takes.edit ((Leaf.turns_init blank).bind (Header.turns_setRoot true _ _))

theorem sound_empty : (Subtree.leaf PageId.root none []).Sound where
  root := rfl
  formed := (Subtree.formed_leaf ..).mpr
    ⟨Nat.zero_le _, fun h => Bool.noConfusion h, fun _ h => absurd h List.not_mem_nil⟩
  ascending := List.Pairwise.nil
  chained := rfl

theorem exists_openAt_empty {location : Location}
    (hlocation : location = .nothing ∨ location = .file #[]) :
    ∃ pager : Pager, openAt location = .ok pager ∧
      pager.Stores (.leaf PageId.root none []) blank.parent ∧ pager.numPages = 1 := by
  have hopen : location.openFile = .ok #[] := by
    rcases hlocation with rfl | rfl <;> rfl
  have hcoherent : (Pager.ofImage #[]).Coherent := by
    refine ⟨rfl, Nat.zero_le _, fun id hid => ?_, fun id hid => absurd hid (Nat.succ_ne_zero _)⟩
    rw [Pager.isLoaded, Pager.slot_ofImage] at hid
    cases hid
  have hempty : (Pager.ofImage #[]).Holds 0 [] :=
    ⟨hcoherent, rfl, Nat.zero_le _, List.nodup_nil, fun _ h => absurd h List.not_mem_nil⟩
  obtain ⟨after, hrun, -, hafter⟩ := takes_establish _ [] hempty
  rw [List.append_nil] at hafter
  refine ⟨after, openAt_of_run hopen hrun, ⟨sound_empty, ?_⟩, hafter.numPages_eq⟩
  rw [hafter.numPages_eq]
  exact hafter

theorem exists_kindOf {h : Nat} (t : Subtree h) (isRoot : Bool) (parent : PageId) :
    ∃ kind, Reads (kindOf t.id) (t.heap isRoot parent) (.ok kind) := by
  cases h with
  | zero => exact ⟨_, reads_kindOf_leaf List.mem_cons_self⟩
  | succ h => exact ⟨_, reads_kindOf_branch List.mem_cons_self⟩

theorem establish_leads {pager : Pager} {t : Subtree H} {q : PageId} (h : pager.Stores t q) :
    Leads Pager.view establish pager.view (.ok ()) pager.view := by
  refine Leads.get_bind fun other hother => ?_
  have hnum : other.numPages = pager.numPages := congrArg View.numPages hother
  have hpos : other.numPages ≠ 0 := by
    obtain ⟨x, hx⟩ := t.exists_mem_heap true q
    have hlt : t.id.index < pager.numPages := (h.holds.shows _ hx).1
    omega
  obtain ⟨kind, hkind⟩ := exists_kindOf t true q
  rw [h.sound.root] at hkind
  rw [if_neg hpos]
  exact (hkind.leads (h.holds.shows.gives h.holds.view_numPages_le)).bind (Leads.pure ())

/-- Saving and opening a stored tree changes nothing that is shown. -/
theorem exists_reopen {pager : Pager} {t : Subtree H} {q : PageId} (h : pager.Stores t q) :
    ∃ closed after : Pager, close.run pager = .ok () closed ∧
      openAt (.file closed.file) = .ok after ∧ after.Stores t q ∧
      after.numPages = pager.numPages ∧ after.content = pager.content := by
  obtain ⟨closed, hclose, hkeeps, hbacked⟩ := Pager.exists_flushAll h.holds.coherent
  obtain ⟨hcoherent, hnum, hcontent⟩ :=
    Pager.ofImage_of_flushed h.numPages_lt hkeeps hbacked
  have hshows : (Pager.ofImage closed.file).view.Shows (t.heap true q) := by
    intro x hx
    have hx := h.holds.shows x hx
    refine ⟨?_, ?_⟩
    · change x.1.index < (Pager.ofImage closed.file).numPages
      rw [hnum]
      exact hx.1
    · rw [← hx.2]
      exact congrArg reading (congrFun hcontent x.1)
  have hstores : (Pager.ofImage closed.file).Stores t q :=
    ⟨h.sound, hcoherent, rfl, hnum ▸ h.holds.le_maxPages, h.holds.distinct, hshows⟩
  obtain ⟨after, hrun, hafter, hview⟩ := establish_leads hstores _ hcoherent rfl
  refine ⟨closed, after, hclose, openAt_of_run rfl hrun, hstores.of_view hafter hview, ?_, ?_⟩
  · exact (congrArg View.numPages hview).trans hnum
  · exact (congrArg View.page hview).trans hcontent

/-! ## Sessions -/

/-- What a session has put into its tree. -/
abbrev Contents := UInt32 → Option (List UInt8)

/-- A key that was taken in is there with its value.  One that was not changes nothing. -/
def Contents.after (M : Contents) (key : UInt32) (value : List UInt8) :
    Except Failure Unit → Contents
  | .ok () => fun k => if k = key then some value else M k
  | .error _ => M

/-- The pagers of a session and what it has put into them. -/
inductive Reached : Pager → Contents → Prop where
  | opened {location : Location} {pager : Pager}
    (hlocation : location = .nothing ∨ location = .file #[]) (hopen : openAt location = .ok pager) :
    Reached pager fun _ => none
  | inserted {pager after : Pager} {M : Contents} {r : Except Failure Unit} (h : Reached pager M)
    (key : UInt32) (value : List UInt8) (hrun : (insert key value).run pager = outcome r after) :
    Reached after (M.after key value r)
  | got {pager after : Pager} {M : Contents} {r : Except Failure (Option (List UInt8))}
    (h : Reached pager M) (key : UInt32) (hrun : (Tree.get key).run pager = outcome r after) :
    Reached after M
  | found {pager after : Pager} {M : Contents} {r : Except Failure Cursor} (h : Reached pager M)
    (key : UInt32) (hrun : (findKey key).run pager = outcome r after) : Reached after M
  | listed {pager after : Pager} {M : Contents} {r : Except Failure (List UInt32)}
    (h : Reached pager M) (hrun : keys.run pager = outcome r after) : Reached after M
  | reopened {pager closed after : Pager} {M : Contents} (h : Reached pager M)
    (hclose : close.run pager = .ok () closed) (hopen : openAt (.file closed.file) = .ok after) :
    Reached after M

/-- What was looked at is stored as before. -/
theorem stores_of_reads {pager after : Pager} {t : Subtree H} {q : PageId} (h : pager.Stores t q)
    {m : PagerM α} {r r' : Except Failure α} (hm : Reads m (t.heap true q) r')
    (hrun : m.run pager = outcome r after) : after.Stores t q ∧ after.view = pager.view := by
  obtain ⟨other, hrun', hafter, hview⟩ := h.run_reads hm
  obtain ⟨-, rfl⟩ := outcome_inj (hrun.symm.trans hrun')
  exact ⟨h.of_view hafter hview, hview⟩

/-- What holds of a new tree on one page, and of every tree that an insert makes of one of
    which it holds. -/
structure Kept (P : Nat → (H : Nat) → Subtree H → Prop) : Prop where
  new : P 1 0 (.leaf PageId.root none [])
  grown : ∀ {n H : Nat} {t : Subtree H} {key : UInt32} {value : List UInt8} {place : Trail H 0}
    {id : PageId} {next : Option PageId} {a b : List Entry}, t.Sound →
    lookup t.leaves.entries key = none → value.length = Leaf.valueSize →
    Locates key t place id next a b → P n H t → P (n + place.needed (a ++ b).length) _
      (place.grown n id next a b { key, value }).2

/-- In a session the pages are always those of a sound tree with the right contents, and
    every invariant of the trees holds of it. -/
theorem Reached.exists_kept {P : Nat → (H : Nat) → Subtree H → Prop} (hP : Kept P)
    {pager : Pager} {M : Contents} (h : Reached pager M) :
    ∃ (H : Nat) (t : Subtree H) (q : PageId), pager.Stores t q ∧
      (∀ key, M key = lookup t.leaves.entries key) ∧ P pager.numPages H t := by
  have hlook : ∀ {pager after : Pager} {H : Nat} {t : Subtree H}, P pager.numPages H t →
      after.view = pager.view → P after.numPages H t := by
    intro pager after H t hkept hview
    have hnum : after.numPages = pager.numPages := congrArg View.numPages hview
    exact hnum ▸ hkept
  induction h with
  | opened hlocation hopen =>
    obtain ⟨pager', hopen', hstores, hnum⟩ := exists_openAt_empty hlocation
    obtain rfl := Except.ok.inj (hopen.symm.trans hopen')
    exact ⟨0, _, _, hstores, fun _ => rfl, hnum ▸ hP.new⟩
  | @inserted pager after M r _ key value hrun ih =>
    obtain ⟨H, t, q, hstores, hcontents, hkept⟩ := ih
    obtain ⟨r', after', hrun', hafter, hinserted⟩ := exists_insert hstores key value
    obtain ⟨rfl, rfl⟩ := outcome_inj (hrun.symm.trans hrun')
    cases hinserted with
    | duplicate _ hview =>
      exact ⟨H, t, q, hstores.of_view hafter hview, hcontents, hlook hkept hview⟩
    | mismatch _ _ hview =>
      exact ⟨H, t, q, hstores.of_view hafter hview, hcontents, hlook hkept hview⟩
    | full _ _ _ _ hview =>
      exact ⟨H, t, q, hstores.of_view hafter hview, hcontents, hlook hkept hview⟩
    | taken hkey hvalue hplace _ hnum hgrown =>
      refine ⟨_, _, q, hgrown, fun k => ?_,
        hnum ▸ hP.grown hstores.sound hkey hvalue hplace hkept⟩
      rw [hplace.lookup_grown hkey, ← hcontents]
      rfl
  | @got pager after M r _ key hrun ih =>
    obtain ⟨H, t, q, hstores, hcontents, hkept⟩ := ih
    obtain ⟨hafter, hview⟩ := stores_of_reads hstores
      (reads_get hstores.sound hstores.height_lt key q) hrun
    exact ⟨H, t, q, hafter, hcontents, hlook hkept hview⟩
  | @found pager after M r _ key hrun ih =>
    obtain ⟨H, t, q, hstores, hcontents, hkept⟩ := ih
    obtain ⟨cursor, hfind⟩ := reads_findKey hstores.sound hstores.height_lt key
    obtain ⟨hafter, hview⟩ := stores_of_reads hstores (hfind q) hrun
    exact ⟨H, t, q, hafter, hcontents, hlook hkept hview⟩
  | @listed pager after M r _ hrun ih =>
    obtain ⟨H, t, q, hstores, hcontents, hkept⟩ := ih
    obtain ⟨hafter, hview⟩ := stores_of_reads hstores
      (reads_keys hstores.sound hstores.height_lt hstores.length_leaves_le) hrun
    exact ⟨H, t, q, hafter, hcontents, hlook hkept hview⟩
  | @reopened pager closed after M _ hclose hopen ih =>
    obtain ⟨H, t, q, hstores, hcontents, hkept⟩ := ih
    obtain ⟨closed', after', hclose', hopen', hafter, hnum, -⟩ := exists_reopen hstores
    obtain ⟨-, rfl⟩ := EStateM.Result.ok.inj (hclose.symm.trans hclose')
    obtain rfl := Except.ok.inj (hopen.symm.trans hopen')
    exact ⟨H, t, q, hafter, hcontents, hnum ▸ hkept⟩

theorem Reached.exists_stores {pager : Pager} {M : Contents} (h : Reached pager M) :
    ∃ (H : Nat) (t : Subtree H) (q : PageId), pager.Stores t q ∧
      ∀ key, M key = lookup t.leaves.entries key := by
  obtain ⟨H, t, q, hstores, hcontents, -⟩ :=
    h.exists_kept (P := fun _ _ _ => True) ⟨trivial, fun _ _ _ _ _ => trivial⟩
  exact ⟨H, t, q, hstores, hcontents⟩

end Tree
end RowStore
