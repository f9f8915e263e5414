/-
  RowStore/Proofs/Unsaved.lean
  ============================
  **Nothing is written before the store is saved.**  The pager writes the file when it is
  flushed and at no other time.  Whatever is asked of an open tree leads along strides, also
  when it stops half way, and no stride touches the file.  So a tree that is dropped leaves
  the file as it was, with all its bytes and no more.

  A session of the shell answers its lines along strides too.  It saves the store at its end
  and only there.  Saving does not fail, as long as the operating system does all writes and
  syncs, which is taken for granted (`RowStore/Pager/Basic.lean`).  Therefore a session that
  ends with an error has not come as far as that.
-/
import RowStore.Proofs.Shell
import RowStore.Proofs.Tree.Looking

namespace RowStore

open Pager (Strides)
open RowStore.Tree (openAt close)

variable {α : Type} {pager after : Pager}

namespace Tree

/-- Saving does not fail, since the operating system does all writes. -/
theorem exists_close (pager : Pager) : ∃ closed : Pager, close.run pager = .ok () closed :=
  Pager.exists_flushAll_ok pager

/-! ## Calls -/

theorem Operation.tidy_run (op : Operation) : Tidy Unraised [] op.run := by
  by_cases hop : op.isInsert = false
  · exact op.tidy_question hop
  · cases op with
    | insert key value => exact (tidy_insert key value).bind fun _ => .pure _
    | _ => exact absurd rfl hop

/-- What can be done with an open tree short of saving it.  A cell can be put anywhere,
    whether it belongs there or not. -/
inductive Call where
  | operation (op : Operation)
  | insertAt (id : PageId) (cell : Nat) (key : UInt32) (value : List UInt8)

def Call.run : Call → PagerM Unit
  | operation op => do let _ ← op.run
  | insertAt id cell key value => Tree.insertAt id cell key value

theorem Call.tidy_run (call : Call) : Tidy Unraised [] call.run := by
  cases call with
  | operation op => exact op.tidy_run.bind fun _ => .pure _
  | insertAt id cell key value => exact tidy_insertAt id cell key value

/-- The pager that calls leave, however each of them ends. -/
def afterCalls : List Call → Pager → Pager
  | [], pager => pager
  | call :: calls, pager =>
    match call.run pager with
    | .ok _ after | .error _ after => afterCalls calls after

theorem afterCalls_cons {call : Call} {calls : List Call} {r : Except Failure Unit}
    (hrun : call.run.run pager = outcome r after) :
    afterCalls (call :: calls) pager = afterCalls calls after := by
  replace hrun : call.run pager = outcome r after := hrun
  cases r <;> simp only [afterCalls, hrun, outcome]

theorem strides_afterCalls (calls : List Call) (pager : Pager) :
    Strides Unraised pager (afterCalls calls pager) := by
  induction calls generalizing pager with
  | nil => exact .refl
  | cons call calls ih =>
    obtain ⟨r, middle, hrun⟩ := exists_outcome call.run pager
    rw [afterCalls_cons hrun]
    exact (call.tidy_run.strides hrun).trans (ih middle)

end Tree

/-! ## Lines of the shell -/

theorem Statement.tidy_run (statement : Statement) : Tidy Unraised [] statement.run := by
  cases statement with
  | insert row =>
    exact .lift_bind fun bytes _ => (Tree.tidy_insert row.id bytes).bind fun _ => .pure _
  | select =>
    have hvisit (cursor : Cursor) : Tidy Unraised [] (do Row.decode (← cursor.value)) :=
      (Tree.tidy_cursorValue cursor).bind fun _ => .lift _
    have hrows : Tidy Unraised [] selectRows :=
      Tree.tidy_start.bind fun cursor => Tree.tidy_scanWithin hvisit _ cursor
    exact hrows.bind fun _ => .pure _

/-- The outline is read from the pages.  For the counters no page is needed. -/
theorem DotCommand.strides_run {command : DotCommand} {r : Except Failure Outcome}
    (hrun : command.run.run pager = outcome r after) : Strides Unraised pager after := by
  cases command with
  | exit =>
    have hsame : (run .exit).run pager = outcome (.ok .leave) pager := rfl
    obtain ⟨-, rfl⟩ := outcome_inj (hsame.symm.trans hrun)
    exact .refl
  | outline =>
    have htidy : Tidy Unraised [] (run .outline) := Tree.tidy_outlineText.bind fun _ => .pure _
    exact htidy.strides hrun
  | counters =>
    have hsame : (run .counters).run pager = outcome (.ok (.print (countersText pager))) pager :=
      rfl
    obtain ⟨-, rfl⟩ := outcome_inj (hsame.symm.trans hrun)
    exact .refl

namespace Shell

variable {terminal : Terminal}

/-- A statement leads where it leads, whether its end is reported or passed on. -/
theorem strides_answerStatement {statement : Statement} {r : Except Failure Reply}
    (hrun : (terminal.answerStatement statement).run pager = outcome r after) :
    Strides Unraised pager after := by
  obtain ⟨s, last, hstatement⟩ := exists_outcome statement.run pager
  have hstrides := statement.tidy_run.strides hstatement
  suffices hlast : after = last from hlast ▸ hstrides
  replace hstatement : statement.run pager = outcome s last := hstatement
  replace hrun : terminal.answerStatement statement pager = outcome r after := hrun
  cases s with
  | ok found =>
    simp only [Terminal.answerStatement, hstatement, outcome] at hrun
    exact (outcome_inj (r := .ok _) hrun).2.symm
  | error failure =>
    simp only [Terminal.answerStatement, hstatement, outcome] at hrun
    split at hrun
    · split at hrun
      · exact (outcome_inj (r := .ok _) hrun).2.symm
      · exact (outcome_inj (r := .error _) hrun).2.symm
    · exact (outcome_inj (r := .error _) hrun).2.symm

/-- A reply that is given without asking the tree. -/
theorem strides_of_pure {a : α} {r : Except Failure α}
    (hrun : (pure a : PagerM α).run pager = outcome r after) : Strides Unraised pager after := by
  obtain ⟨-, rfl⟩ := outcome_inj (r := .ok a) hrun
  exact .refl

theorem strides_bind {β : Type} {m : PagerM α} {f : α → PagerM β} {r : Except Failure β}
    (hm : ∀ {s middle}, m.run pager = outcome s middle → Strides Unraised pager middle)
    (hf : ∀ {a middle}, (f a).run middle = outcome r after → Strides Unraised middle after)
    (hrun : (m >>= f).run pager = outcome r after) : Strides Unraised pager after := by
  obtain ⟨s, middle, hfirst⟩ := exists_outcome m pager
  cases s with
  | ok a =>
    rw [bind_run hfirst] at hrun
    exact (hm hfirst).trans (hf hrun)
  | error failure =>
    rw [bind_run_error hfirst] at hrun
    obtain ⟨-, rfl⟩ := outcome_inj (r := .error failure) hrun
    exact hm hfirst

theorem strides_respond {line : String} {r : Except Failure (Reply × Flow)}
    (hrun : (terminal.respond line).run pager = outcome r after) :
    Strides Unraised pager after := by
  rw [Terminal.respond] at hrun
  split at hrun
  · exact strides_of_pure hrun
  · split at hrun
    · cases hparse : DotCommand.parse line with
      | error e =>
        rw [hparse] at hrun
        exact strides_of_pure hrun
      | ok command =>
        rw [hparse] at hrun
        refine strides_bind DotCommand.strides_run (fun {asked} _ hreply => ?_) hrun
        cases asked with
        | leave => exact strides_of_pure hreply
        | print text => exact strides_of_pure hreply
    · cases hparse : Statement.parse line with
      | error e =>
        rw [hparse] at hrun
        exact strides_of_pure hrun
      | ok statement =>
        rw [hparse] at hrun
        exact strides_bind strides_answerStatement strides_of_pure hrun

/-- Every line leads along strides, also one that ends the session. -/
theorem strides_answer {line : String} {r : Except Failure (Reply × Flow)}
    (hrun : (terminal.answer line).run pager = outcome r after) :
    Strides Unraised pager after := by
  cases hedited : terminal.edited line with
  | error failure =>
    have hsame : (terminal.answer line).run pager = outcome (.error failure) pager := by
      rw [Terminal.answer, hedited]
      rfl
    obtain ⟨-, rfl⟩ := outcome_inj (hsame.symm.trans hrun)
    exact .refl
  | ok edited =>
    rw [answer_of_edited hedited] at hrun
    exact strides_respond hrun

/-! ## Sessions -/

theorem converse_error {line : String} {failure : Failure} {rest : List String}
    (hrun : (terminal.answer line).run pager = .error failure after) :
    terminal.converse (line :: rest) pager = ({}, .failed failure, after.file) := by
  replace hrun : terminal.answer line pager = .error failure after := hrun
  simp only [Terminal.converse, hrun]

/-- A session breaks off and leaves the file as it was, or it comes to its end along strides
    and saves the store there. -/
inductive Ended (pager : Pager) : Ending × Image → Prop where
  | broken (failure : Failure) : Ended pager (.failed failure, pager.file)
  | saved {last closed : Pager} (hlast : Strides Unraised pager last)
    (hclose : close.run last = .ok () closed) : Ended pager (.saved, closed.file)

theorem Ended.of_strides (h : Strides Unraised pager after) {ending : Ending × Image}
    (hended : Ended after ending) : Ended pager ending := by
  cases hended with
  | broken failure =>
    rw [h.onward.file_eq]
    exact .broken failure
  | saved hlast hclose => exact .saved (h.trans hlast) hclose

theorem ended_finish (pager : Pager) : Ended pager (finish pager) := by
  obtain ⟨closed, hclose⟩ := Tree.exists_close pager
  rw [finish_of_close hclose]
  exact .saved .refl hclose

theorem ended_converse (terminal : Terminal) (lines : List String) (pager : Pager) :
    Ended pager (terminal.converse lines pager).2 := by
  induction lines generalizing pager with
  | nil => exact ended_finish pager
  | cons line lines ih =>
    obtain ⟨r, after, hrun⟩ := exists_outcome (terminal.answer line) pager
    have hstrides := strides_answer hrun
    cases r with
    | error failure =>
      rw [converse_error hrun, hstrides.onward.file_eq]
      exact .broken failure
    | ok answered =>
      obtain ⟨reply, flow⟩ := answered
      cases flow with
      | next =>
        rw [converse_next hrun]
        exact .of_strides hstrides (ih after)
      | leave =>
        rw [converse_leave hrun]
        exact .of_strides hstrides (ended_finish after)

/-- The two ends of a session on a file. -/
theorem session_ends (terminal : Terminal) (file : Image) (lines : List String) :
    (∃ failure, (terminal.session (.file file) lines).ending = .failed failure ∧
      (terminal.session (.file file) lines).location = .file file) ∨
    ∃ last closed : Pager, (terminal.session (.file file) lines).ending = .saved ∧
      last.file = file ∧ close.run last = .ok () closed ∧
      (terminal.session (.file file) lines).location = .file closed.file := by
  cases hopen : openAt (.file file) with
  | error failure =>
    refine .inl ⟨failure, ?_⟩
    simp only [Terminal.session, hopen, and_self]
  | ok pager =>
    have hopened := (Tree.strides_openAt rfl hopen).onward
    obtain ⟨hending, hleft⟩ := session_of_openAt terminal hopen lines
    have hended := ended_converse terminal lines pager
    rw [hending, hleft]
    generalize (terminal.converse lines pager).2 = ended at hended
    cases hended with
    | broken failure => exact .inl ⟨failure, rfl, congrArg Location.file hopened.file_eq⟩
    | saved hlast hclose =>
      exact .inr ⟨_, _, rfl, (hopened.trans hlast.onward).file_eq, hclose, rfl⟩

/-- **Nothing is written before the store is saved.**  On a file with any contents, whatever
    is called on the open tree and however each call ends, the file keeps its bytes and its
    length as long as the tree is not saved.  So a session of the shell that ends with an
    error leaves the file as it found it.  A session that ends well has written the file once,
    after its last line.

    The errors are those of the store.  A session whose last save is refused by the operating
    system may leave a part of it in the file, and is not in the model. -/
theorem unsaved_store_is_untouched (terminal : Terminal) (file : Image) :
    (∀ pager, openAt (.file file) = .ok pager → ∀ calls : List Tree.Call,
      (Tree.afterCalls calls pager).file = file ∧
      (Tree.afterCalls calls pager).fileLength = file.size) ∧
    (∀ lines failure, (terminal.session (.file file) lines).ending = .failed failure →
      (terminal.session (.file file) lines).location = .file file) ∧
    ∀ lines, (terminal.session (.file file) lines).ending = .saved → ∃ last closed : Pager,
      last.file = file ∧ close.run last = .ok () closed ∧
      (terminal.session (.file file) lines).location = .file closed.file := by
  refine ⟨fun pager hopen calls => ?_, fun lines failure hending => ?_, fun lines hending => ?_⟩
  · have honward := (Tree.strides_openAt rfl hopen).onward.trans
      (Tree.strides_afterCalls calls pager).onward
    exact ⟨honward.file_eq, honward.fileLength_eq⟩
  · rcases session_ends terminal file lines with ⟨_, _, hleft⟩ | ⟨_, _, hsaved, _⟩
    · exact hleft
    · cases hending.symm.trans hsaved
  · rcases session_ends terminal file lines with ⟨_, hfailed, _⟩ | ⟨last, closed, _, hrest⟩
    · cases hending.symm.trans hfailed
    · exact ⟨last, closed, hrest⟩

/-- No search gets past a root leaf that claims more cells than it has room for. -/
theorem find_leads_overfull {v : View} {count : Nat} (key : UInt32)
    (hkind : Header.readKind PageId.root (v.page PageId.root) = .ok .leaf)
    (hcount : Leaf.countIn (v.page PageId.root) = count) (hover : Leaf.maxCells < count) :
    Leads Pager.view (Tree.find key) v
      (.error (.error (.corrupted (.tooManyCells PageId.root count Leaf.maxCells))))
      ((v.reach PageId.root).reach PageId.root) := by
  have hroot : PageId.root.index < maxPages := by decide
  have hkindOf : Leads Pager.view (Tree.kindOf PageId.root) v (.ok .leaf) (v.reach PageId.root) :=
    (Pager.request_leads hroot v).bind (hkind ▸ Leads.lift _)
  have hrefused : Leaf.ofPage PageId.root ((v.reach PageId.root).page PageId.root) =
      .error (.error (.corrupted (.tooManyCells PageId.root count Leaf.maxCells))) := by
    change Leaf.ofPage PageId.root (v.page PageId.root) = _
    rw [Leaf.ofPage, hkind, hcount]
    simp only [bind, Except.bind, if_neg (Nat.not_le.mpr hover)]
    rfl
  have hleaf : Leads Pager.view (Tree.leaf PageId.root) (v.reach PageId.root)
      (.error (.error (.corrupted (.tooManyCells PageId.root count Leaf.maxCells))))
      ((v.reach PageId.root).reach PageId.root) := by
    refine (Pager.request_leads hroot (v.reach PageId.root)).bind ?_
    rw [hrefused]
    exact Leads.lift _
  have hnode : Leads Pager.view (Tree.node PageId.root) v
      (.error (.error (.corrupted (.tooManyCells PageId.root count Leaf.maxCells))))
      ((v.reach PageId.root).reach PageId.root) := hkindOf.bind hleaf.bind_error
  rw [Tree.find, show maxPages = 99 + 1 from rfl, Tree.findBelow]
  exact hnode.bind_error

/-- A statement that meets an error that no session goes on after. -/
theorem ending_of_select {v w : View} {e : Error}
    (hfind : Leads Pager.view (Tree.find 0) v (.error (.error e)) w) (he : e.isRecoverable = false)
    (hp : pager.Coherent) (hview : pager.view = v) (rest : List String) :
    (console.converse ("select" :: rest) pager).2.1 = .failed (.error e) := by
  have hselect : Leads Pager.view (Statement.run .select) v (.error (.error e)) w :=
    Leads.bind_error (Leads.bind_error (Leads.bind_error hfind))
  obtain ⟨after, hrun, -⟩ := hselect pager hp hview
  replace hrun : Statement.run .select pager = .error (.error e) after := hrun
  have hstatement : (console.answerStatement .select).run pager = .error (.error e) after := by
    simp only [EStateM.run, Terminal.answerStatement, hrun, he, Bool.false_eq_true, if_false]
  have hparse : Statement.parse (Text.trim "select") = .ok .select := by decide
  have hanswer : (console.answer "select").run pager = .error (.error e) after := by
    rw [answer_of_edited (console_edited (by decide)), respond_of_parse hparse]
    exact bind_run_error hstatement
  rw [converse_error hanswer]

/-- Seven bytes claim to be a leaf of 255 cells.  This is no reason not to open the file, but
    the first statement ends the session. -/
theorem unsaved_store_is_untouched_overfull :
    let file : Image := #[1, 1, 0, 0, 0, 0, 255]
    (∃ pager, openAt (.file file) = .ok pager ∧
      (Tree.afterCalls [.operation (.insert 7 []), .insertAt PageId.root 3 8 [], .operation .check]
        pager).file = file) ∧
    ∃ failure, (session (.file file) ["select", ".exit"]).ending = .failed failure ∧
      (session (.file file) ["select", ".exit"]).location = .file file := by
  intro file
  obtain ⟨huntouched, hfailed, -⟩ := unsaved_store_is_untouched console file
  obtain ⟨pager, hopen, -⟩ := Tree.exists_openAt_of_kind file (by decide) (by decide) rfl
  obtain ⟨hcoherent, hcontent⟩ := (Tree.strides_openAt_of_pos (by decide) (by decide)
    hopen).preserves (Pager.coherent_ofImage (by decide))
  have hbyte (i : Nat) (hi : i < pageSize) :
      (pager.view.page PageId.root).byte i = file.byte i := by
    change (pager.content PageId.root).byte i = _
    rw [hcontent, Pager.content_of_not_loaded (Pager.slot_ofImage file PageId.root),
      Image.byte_pageAt _ _ _ hi, if_pos hi]
    exact congrArg file.byte (Nat.zero_add i)
  have hkind : Header.readKind PageId.root (pager.view.page PageId.root) = .ok .leaf := by
    rw [Header.readKind_eq_ok_iff, hbyte _ (by decide)]
    rfl
  have hcount : Leaf.countIn (pager.view.page PageId.root) = 255 := by
    simp only [Leaf.countIn, Bytes.word]
    rw [hbyte _ (by decide), hbyte _ (by decide), hbyte _ (by decide), hbyte _ (by decide)]
    rfl
  have hfind := find_leads_overfull 0 hkind hcount (by decide)
  have hending := (session_of_openAt console hopen ["select", ".exit"]).1.trans
    (ending_of_select hfind rfl hcoherent rfl [".exit"])
  exact ⟨⟨pager, hopen, (huntouched pager hopen _).1⟩, _, hending, hfailed _ _ hending⟩

end Shell
end RowStore
