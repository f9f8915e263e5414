/-
  RowStore/Proofs/Tree/Replay.lean
  ================================
  **Questions and sittings leave no trace.**  Pagers are *abreast* if their pages are the same
  and are those of a sound tree.  One of them may have loaded pages that the other has not,
  and their files may differ, as long as both files are made of whole pages.

  Operations on pagers that are abreast answer alike and keep them abreast.  A question
  keeps a pager abreast of what it was, and so does saving the tree and opening it again.
  Therefore it makes no difference for what a tree answers, and for the file that is left
  in the end, into how many sittings its use is divided and what is asked between the
  inserts.
-/
import RowStore.Proofs.Tree.Bears
import RowStore.Proofs.Tree.Tidy

namespace RowStore

open Pager (Twins)

variable {H : Nat} {a b c : Pager}

/-! ## Settled pagers -/

/-- The pages are those of a sound tree, and the file is made of whole pages. -/
structure Pager.Settled (pager : Pager) : Prop where
  stores : ∃ (H : Nat) (t : Subtree H) (q : PageId), pager.Stores t q
  whole : pageSize ∣ pager.file.size

/-- Twins store the same trees. -/
theorem Pager.Stores.of_twins {t : Subtree H} {q : PageId} (h : a.Stores t q) (hab : Twins a b) :
    b.Stores t q := by
  have hle := h.holds.le_maxPages
  rw [hab.numPages_eq] at hle
  refine ⟨h.sound, hab.right, rfl, hle, h.holds.distinct, fun x hx => ?_⟩
  obtain ⟨hlt, hreading⟩ := h.holds.shows x hx
  refine ⟨?_, ?_⟩
  · exact Nat.lt_of_lt_of_eq hlt hab.numPages_eq
  · rw [← hreading]
    exact congrArg reading (congrFun hab.content_eq.symm x.1)

theorem Pager.Settled.of_view {pager after : Pager} (h : pager.Settled) (hafter : after.Coherent)
    (hview : after.view = pager.view) : after.Settled := by
  obtain ⟨H, t, q, hstores⟩ := h.stores
  have hfile : after.file = pager.file := congrArg View.file hview
  exact ⟨⟨H, t, q, hstores.of_view hafter hview⟩, hfile ▸ h.whole⟩

namespace Tree

/-- Opening a tree leaves its file alone. -/
theorem file_of_openAt {location : Location} {file : Image} {pager : Pager}
    (hlocation : location.openFile = .ok file) (hopen : openAt location = .ok pager) :
    pager.file = file :=
  (strides_openAt hlocation hopen).onward.file_eq

theorem exists_openAt_settled {location : Location}
    (hlocation : location = .nothing ∨ location = .file #[]) :
    ∃ pager : Pager, openAt location = .ok pager ∧ pager.Settled := by
  obtain ⟨pager, hopen, hstores, -⟩ := exists_openAt_empty hlocation
  have hempty : location.openFile = .ok #[] := by
    rcases hlocation with rfl | rfl <;> rfl
  refine ⟨pager, hopen, ⟨0, _, _, hstores⟩, ?_⟩
  rw [file_of_openAt hempty hopen]
  exact Nat.dvd_zero pageSize

/-! ## Saving -/

/-- Saving writes the pages one after the other. -/
theorem exists_close_settled {pager : Pager} (h : pager.Settled) : ∃ closed : Pager,
    close.run pager = .ok () closed ∧ closed.file = Pager.imageOf pager.numPages pager.content := by
  obtain ⟨H, t, q, hstores⟩ := h.stores
  have hcoherent := hstores.holds.coherent
  obtain ⟨closed, hclose, hkeeps, hbacked⟩ := Pager.exists_flushAll hcoherent
  exact ⟨closed, hclose,
    Pager.file_of_flushed hcoherent hstores.numPages_lt h.whole hkeeps hbacked⟩

/-- Saves the tree and opens it again. -/
def reopen (pager : Pager) : Except Failure Pager :=
  match close pager with
  | .ok _ closed => openAt (.file closed.file)
  | .error failure _ => throw failure

/-- A tree that was opened again is as it was. -/
theorem exists_reopen_settled {pager : Pager} (h : pager.Settled) : ∃ closed opened : Pager,
    close.run pager = .ok () closed ∧ openAt (.file closed.file) = .ok opened ∧
      Twins pager opened ∧ opened.Settled := by
  obtain ⟨H, t, q, hstores⟩ := h.stores
  obtain ⟨closed, opened, hclose, hopen, hopened, hnum, hcontent⟩ := Tree.exists_reopen hstores
  obtain ⟨closed', hclose', hfile⟩ := exists_close_settled h
  obtain ⟨-, rfl⟩ := EStateM.Result.ok.inj (hclose.symm.trans hclose')
  refine ⟨closed, opened, hclose, hopen, ⟨hstores.holds.coherent, hopened.holds.coherent, hnum.symm,
    hcontent.symm⟩, ⟨H, t, q, hopened⟩, ?_⟩
  rw [file_of_openAt rfl hopen, hfile, Pager.size_imageOf]
  exact Nat.dvd_mul_left pageSize pager.numPages

/-! ## Pagers abreast of each other -/

/-- Settled pagers with the same pages. -/
structure Abreast (a b : Pager) : Prop where
  twins : Twins a b
  left : a.Settled
  right : b.Settled

theorem Reachable.congr {v w : View} (h : v.page = w.page) {id : PageId} (hid : Reachable v id) :
    Reachable w id := by
  induction hid with
  | root => exact .root
  | child _ hslot ih =>
    obtain ⟨isRoot, keys, children, hbranch, hchild⟩ := hslot
    exact ih.child ⟨isRoot, keys, children, h ▸ hbranch, hchild⟩

theorem Operation.InTree.congr {v w : View} (h : v.page = w.page) {op : Operation}
    (hop : op.InTree v) : op.InTree w := by
  cases op with
  | maxKey id => exact Reachable.congr h hop
  | _ => trivial

/-- After an insert the pages are again those of a sound tree. -/
theorem exists_stores_insert {t : Subtree H} {q : PageId} (h : a.Stores t q) (key : UInt32)
    (value : List UInt8) : ∃ (r : Except Failure Unit) (after : Pager),
      (insert key value).run a = outcome r after ∧
        ∃ (H' : Nat) (t' : Subtree H') (q' : PageId), after.Stores t' q' := by
  obtain ⟨r, after, hrun, hafter, hinserted⟩ := exists_insert h key value
  refine ⟨r, after, hrun, ?_⟩
  cases hinserted with
  | duplicate _ hview => exact ⟨H, t, q, h.of_view hafter hview⟩
  | mismatch _ _ hview => exact ⟨H, t, q, h.of_view hafter hview⟩
  | full _ _ _ _ hview => exact ⟨H, t, q, h.of_view hafter hview⟩
  | taken _ _ _ _ _ hgrown => exact ⟨_, _, q, hgrown⟩

namespace Abreast

/-- A pager that looks as before is abreast of those it was abreast of. -/
theorem of_view (h : Abreast a b) (hc : c.Coherent) (hview : c.view = a.view) : Abreast c b := by
  refine ⟨⟨hc, h.twins.right, ?_, ?_⟩, h.left.of_view hc hview, h.right⟩
  · exact (congrArg View.numPages hview).trans h.twins.numPages_eq
  · exact (congrArg View.page hview).trans h.twins.content_eq

/-- A question leaves a pager abreast of those it was abreast of. -/
theorem skip (h : Abreast a b) {op : Operation} (hop : op.isInsert = false)
    (htree : op.InTree a.view) : Abreast (op.perform a).2 b := by
  obtain ⟨H, t, q, ha⟩ := h.left.stores
  obtain ⟨r, hr⟩ := exists_perform_question ha.bears hop htree
  obtain ⟨after, hrun, hafter, hview⟩ := hr a q [] ha.bears
  rw [hrun]
  exact h.of_view hafter hview

theorem symm (h : Abreast a b) : Abreast b a := ⟨h.twins.symm, h.right, h.left⟩

/-- An insert does the same to pagers that are abreast. -/
theorem perform_insert (h : Abreast a b) (key : UInt32) (value : List UInt8) :
    ((Operation.insert key value).perform a).1 = ((Operation.insert key value).perform b).1 ∧
      Abreast ((Operation.insert key value).perform a).2
        ((Operation.insert key value).perform b).2 := by
  obtain ⟨H, t, q, ha⟩ := h.left.stores
  obtain ⟨r, a', b', hrun, hrun', htwins, hfile, hfile'⟩ :=
    h.twins.exists_run (steady_insert key value)
  obtain ⟨_, _, hinsert, H', t', q', ha'⟩ := exists_stores_insert ha key value
  obtain ⟨-, rfl⟩ := outcome_inj (hrun.symm.trans hinsert)
  rw [Operation.perform_insert hrun, Operation.perform_insert hrun']
  refine ⟨rfl, htwins, ⟨⟨H', t', q', ha'⟩, ?_⟩, ⟨⟨H', t', q', ha'.of_twins htwins⟩, ?_⟩⟩
  · exact hfile ▸ h.left.whole
  · exact hfile' ▸ h.right.whole

/-- Operations are answered alike on pagers that are abreast, and keep them abreast. -/
theorem perform (h : Abreast a b) {op : Operation} (htree : op.InTree a.view) :
    (op.perform a).1 = (op.perform b).1 ∧ Abreast (op.perform a).2 (op.perform b).2 := by
  cases hop : op.isInsert with
  | true =>
    cases op with
    | insert key value => exact h.perform_insert key value
    | _ => cases hop
  | false =>
    obtain ⟨H, t, q, ha⟩ := h.left.stores
    obtain ⟨r, hr⟩ := exists_perform_question ha.bears hop htree
    obtain ⟨a', hrun, -, -⟩ := hr a q [] ha.bears
    obtain ⟨b', hrun', -, -⟩ := hr b q [] (ha.of_twins h.twins).bears
    have htree' : op.InTree b.view := htree.congr h.twins.content_eq
    refine ⟨?_, ((h.skip hop htree).symm.skip hop htree').symm⟩
    rw [hrun, hrun']

theorem replayed (h : Abreast a b) {ops : List Operation} (htree : InTree ops a) :
    (replay ops a).1 = (replay ops b).1 ∧ Abreast (replay ops a).2 (replay ops b).2 := by
  induction ops generalizing a b with
  | nil => exact ⟨rfl, h⟩
  | cons op ops ih =>
    obtain ⟨hanswer, hafter⟩ := h.perform htree.1
    obtain ⟨hreports, hlast⟩ := ih hafter htree.2
    refine ⟨?_, hlast⟩
    simp only [replay]
    rw [hanswer, hreports, hafter.twins.numPages_eq]

/-- The inserts are answered as if nothing had been asked between them. -/
theorem replayed_inserts (h : Abreast a b) {ops : List Operation} (htree : InTree ops a) :
    (replay ops a).1.filter (·.operation.isInsert) =
        (replay (ops.filter Operation.isInsert) b).1 ∧
      Abreast (replay ops a).2 (replay (ops.filter Operation.isInsert) b).2 := by
  induction ops generalizing a b with
  | nil => exact ⟨rfl, h⟩
  | cons op ops ih =>
    cases hop : op.isInsert with
    | true =>
      obtain ⟨hanswer, hafter⟩ := h.perform htree.1
      obtain ⟨hreports, hlast⟩ := ih hafter htree.2
      rw [List.filter_cons_of_pos hop]
      refine ⟨?_, hlast⟩
      simp only [replay, List.filter_cons, hop, if_true]
      rw [hanswer, hreports, hafter.twins.numPages_eq]
    | false =>
      obtain ⟨hreports, hlast⟩ := ih (h.skip hop htree.1) htree.2
      rw [List.filter_cons_of_neg (Bool.not_eq_true _ ▸ hop)]
      refine ⟨?_, hlast⟩
      simp only [replay, List.filter_cons, hop, Bool.false_eq_true, if_false]
      exact hreports

/-- Pagers that are abreast are saved to the same file. -/
theorem exists_close (h : Abreast a b) : ∃ closed closed' : Pager,
    close.run a = .ok () closed ∧ close.run b = .ok () closed' ∧ closed.file = closed'.file ∧
      closed.file.size = pageSize * a.numPages := by
  obtain ⟨closed, hclose, hfile⟩ := exists_close_settled h.left
  obtain ⟨closed', hclose', hfile'⟩ := exists_close_settled h.right
  refine ⟨closed, closed', hclose, hclose', ?_, ?_⟩
  · rw [hfile, hfile', h.twins.numPages_eq, h.twins.content_eq]
  · rw [hfile, Pager.size_imageOf, Nat.mul_comm]

end Abreast

/-! ## Sittings -/

/-- Replays operations in several sittings.  Between two of them the tree is saved and opened
    again. -/
def sittings : List Operation → List (List Operation) → Pager →
    Except Failure (List Report × Pager)
  | ops, [], pager => return replay ops pager
  | ops, next :: rest, pager => do
    let (reports, last) := replay ops pager
    let (later, last) ← sittings next rest (← reopen last)
    return (reports ++ later, last)

theorem Abreast.exists_sittings (h : Abreast a b) {ops : List Operation}
    {rest : List (List Operation)} (htree : InTree (ops ++ rest.flatten) b) :
    ∃ last : Pager, sittings ops rest a = .ok ((replay (ops ++ rest.flatten) b).1, last) ∧
      Abreast last (replay (ops ++ rest.flatten) b).2 := by
  induction rest generalizing ops a b with
  | nil =>
    rw [List.flatten_nil, List.append_nil] at htree ⊢
    obtain ⟨hreports, hlast⟩ := h.symm.replayed htree
    refine ⟨_, ?_, hlast.symm⟩
    rw [sittings, hreports]
    rfl
  | cons next rest ih =>
    rw [List.flatten_cons] at htree ⊢
    obtain ⟨htree, hlater⟩ := inTree_append.mp htree
    obtain ⟨hreports, hafter⟩ := h.symm.replayed htree
    obtain ⟨closed, opened, hclose, hopen, htwins, hopened⟩ := exists_reopen_settled hafter.right
    have hreopen : reopen (replay ops a).2 = .ok opened := by
      replace hclose : close (replay ops a).2 = .ok () closed := hclose
      rw [reopen, hclose]
      exact hopen
    have habreast : Abreast opened (replay ops b).2 :=
      ⟨htwins.symm.trans hafter.twins.symm, hopened, hafter.left⟩
    obtain ⟨last, hlast, habreast⟩ := ih habreast hlater
    rw [replay_append]
    refine ⟨last, ?_, habreast⟩
    simp only [sittings, hreopen, hreports]
    exact congrArg (· >>= fun x => pure ((replay ops a).1 ++ x.1, x.2)) hlast

/-- **Saving and opening again makes no difference.**  Whatever is done with a new tree,
    and into however many sittings it is divided, all answers and all numbers of pages are
    those of one sitting.  The files that are saved in the end have the same bytes, and all
    of them are in the pages. -/
theorem sittings_make_no_difference {location : Location}
    (hlocation : location = .nothing ∨ location = .file #[]) :
    ∃ pager : Pager, openAt location = .ok pager ∧
      ∀ (ops : List Operation) (rest : List (List Operation)),
        InTree (ops ++ rest.flatten) pager →
        ∃ last closed plain : Pager,
          sittings ops rest pager = .ok ((replay (ops ++ rest.flatten) pager).1, last) ∧
          close.run last = .ok () closed ∧
          close.run (replay (ops ++ rest.flatten) pager).2 = .ok () plain ∧
          last.numPages = (replay (ops ++ rest.flatten) pager).2.numPages ∧
          closed.file = plain.file ∧ closed.file.size = pageSize * last.numPages := by
  obtain ⟨pager, hopen, hsettled⟩ := exists_openAt_settled hlocation
  obtain ⟨H, t, q, hstores⟩ := hsettled.stores
  have habreast : Abreast pager pager := ⟨.refl hstores.holds.coherent, hsettled, hsettled⟩
  refine ⟨pager, hopen, fun ops rest htree => ?_⟩
  obtain ⟨last, hlast, hafter⟩ := habreast.exists_sittings htree
  obtain ⟨closed, plain, hclose, hplain, hfile, hsize⟩ := hafter.exists_close
  exact ⟨last, closed, plain, hlast, hclose, hplain, hafter.twins.numPages_eq, hfile, hsize⟩

/-- Two keys are put into a new tree, in one sitting and in three. -/
theorem sittings_make_no_difference_new : ∃ pager : Pager, openAt .nothing = .ok pager ∧
    ∃ last closed plain : Pager,
      sittings [.insert 5 (List.replicate Leaf.valueSize 1), .get 5]
        [[.insert 3 (List.replicate Leaf.valueSize 2)], [.find 4, .outline]] pager =
        .ok ((replay [.insert 5 (List.replicate Leaf.valueSize 1), .get 5,
          .insert 3 (List.replicate Leaf.valueSize 2), .find 4, .outline] pager).1, last) ∧
      close.run last = .ok () closed ∧
      close.run (replay [.insert 5 (List.replicate Leaf.valueSize 1), .get 5,
        .insert 3 (List.replicate Leaf.valueSize 2), .find 4, .outline] pager).2 = .ok () plain ∧
      last.numPages = (replay [.insert 5 (List.replicate Leaf.valueSize 1), .get 5,
        .insert 3 (List.replicate Leaf.valueSize 2), .find 4, .outline] pager).2.numPages ∧
      closed.file = plain.file ∧ closed.file.size = pageSize * last.numPages := by
  obtain ⟨pager, hopen, hsame⟩ := sittings_make_no_difference
    (.inl (rfl : Location.nothing = .nothing))
  have hlast := hsame [.insert 5 (List.replicate Leaf.valueSize 1), .get 5]
    [[.insert 3 (List.replicate Leaf.valueSize 2)], [.find 4, .outline]]
    (inTree_of_forall (by simp [-List.reduceReplicate]) pager)
  simp only [List.flatten_cons, List.flatten_nil, List.cons_append, List.nil_append] at hlast
  exact ⟨pager, hopen, hlast⟩

/-! ## Questions -/

/-- Where a file comes from: there is none, it is empty, or it was saved after the use of a
    tree that was opened. -/
inductive Written : Location → Prop where
  | nothing : Written .nothing
  | empty : Written (.file #[])
  | closed {location : Location} {pager closed : Pager} {ops : List Operation} :
      Written location → openAt location = .ok pager → InTree ops pager →
        close.run (replay ops pager).2 = .ok () closed → Written (.file closed.file)

theorem Written.exists_openAt {location : Location} (h : Written location) :
    ∃ pager : Pager, openAt location = .ok pager ∧ pager.Settled := by
  induction h with
  | nothing => exact exists_openAt_settled (.inl rfl)
  | empty => exact exists_openAt_settled (.inr rfl)
  | closed _ hopen htree hclose ih =>
    obtain ⟨pager, hopen', hsettled⟩ := ih
    obtain rfl := Except.ok.inj (hopen.symm.trans hopen')
    obtain ⟨H, t, q, hstores⟩ := hsettled.stores
    have habreast : Abreast _ _ := ⟨.refl hstores.holds.coherent, hsettled, hsettled⟩
    obtain ⟨-, hlast⟩ := habreast.replayed htree
    obtain ⟨closed, opened, hclose', hopened, -, hafter⟩ := exists_reopen_settled hlast.left
    obtain ⟨-, rfl⟩ := EStateM.Result.ok.inj (hclose.symm.trans hclose')
    exact ⟨opened, hopened, hafter⟩

/-- **Questions leave no trace.**  Two uses of a tree with the same inserts in the same order
    may differ in all that is asked between them: the inserts are answered alike, with the
    same number of pages after each of them, and the files that are saved have the same
    bytes. -/
theorem questions_leave_no_trace {location : Location} (hlocation : Written location) :
    ∃ pager : Pager, openAt location = .ok pager ∧
      ∀ first second : List Operation, InTree first pager → InTree second pager →
        first.filter Operation.isInsert = second.filter Operation.isInsert →
        (replay first pager).1.filter (·.operation.isInsert) =
          (replay second pager).1.filter (·.operation.isInsert) ∧
        (replay first pager).2.numPages = (replay second pager).2.numPages ∧
        ∃ closed closed' : Pager, close.run (replay first pager).2 = .ok () closed ∧
          close.run (replay second pager).2 = .ok () closed' ∧ closed.file = closed'.file := by
  obtain ⟨pager, hopen, hsettled⟩ := hlocation.exists_openAt
  obtain ⟨H, t, q, hstores⟩ := hsettled.stores
  have habreast : Abreast pager pager := ⟨.refl hstores.holds.coherent, hsettled, hsettled⟩
  refine ⟨pager, hopen, fun first second hfirst hsecond hinserts => ?_⟩
  obtain ⟨hreports, hafter⟩ := habreast.replayed_inserts hfirst
  obtain ⟨hreports', hafter'⟩ := habreast.replayed_inserts hsecond
  rw [hinserts] at hreports hafter
  have hlast : Abreast (replay first pager).2 (replay second pager).2 :=
    ⟨hafter.twins.trans hafter'.twins.symm, hafter.left, hafter'.left⟩
  obtain ⟨closed, closed', hclose, hclose', hfile, -⟩ := hlast.exists_close
  exact ⟨hreports.trans hreports'.symm, hlast.twins.numPages_eq, closed, closed', hclose, hclose',
    hfile⟩

/-- Two keys are put into a new tree, with questions between and after the inserts, and with
    a scan before them. -/
theorem questions_leave_no_trace_new : ∃ pager : Pager, openAt .nothing = .ok pager ∧
    ∃ closed closed' : Pager,
      close.run (replay [.insert 5 (List.replicate Leaf.valueSize 1), .keys,
        .insert 3 (List.replicate Leaf.valueSize 2), .check] pager).2 = .ok () closed ∧
      close.run (replay [.scan none [.key, .advance, .value],
        .insert 5 (List.replicate Leaf.valueSize 1),
        .insert 3 (List.replicate Leaf.valueSize 2)] pager).2 = .ok () closed' ∧
      closed.file = closed'.file := by
  obtain ⟨pager, hopen, hsame⟩ := questions_leave_no_trace .nothing
  obtain ⟨-, -, hclose⟩ := hsame
    [.insert 5 (List.replicate Leaf.valueSize 1), .keys,
      .insert 3 (List.replicate Leaf.valueSize 2), .check]
    [.scan none [.key, .advance, .value], .insert 5 (List.replicate Leaf.valueSize 1),
      .insert 3 (List.replicate Leaf.valueSize 2)]
    (inTree_of_forall (by simp [-List.reduceReplicate]) pager)
    (inTree_of_forall (by simp [-List.reduceReplicate]) pager) rfl
  exact ⟨pager, hopen, hclose⟩

end Tree
end RowStore
