/-
  RowStore/Proofs/Shell.lean
  ==========================
  **Whole sessions of the shell.**  On a table every line is answered: it leaves, it leaves
  the pages as they look, or it is an insert that adds its row.  So no line ends a session
  early, and lines of the second kind leave no trace: the session that is given only the
  inserts that succeed saves the same file.
-/
import Mathlib.Data.List.DropRight
import Mathlib.Data.List.TakeWhile
import RowStore.Proofs.Command.Table
import RowStore.Shell

namespace RowStore

open RowStore.Tree

/-! ## Lines -/

namespace Text

theorem dropWhile_eq_of_prefix {α : Type} {p : α → Bool} {front l : List α}
    (hfront : front <+: l) (hl : l.dropWhile p = l) : front.dropWhile p = front := by
  cases front with
  | nil => rfl
  | cons a front =>
    obtain ⟨rest, rfl⟩ := hfront
    have ha := List.dropWhile_eq_self_iff.mp hl (Nat.succ_pos _)
    exact List.dropWhile_cons_of_neg ha

theorem trim_eq (line : String) : trim line =
    String.ofList (List.rdropWhile isBlank (line.toList.dropWhile isBlank)) := rfl

/-- A trimmed line has no blanks around it. -/
theorem trim_trim (line : String) : trim (trim line) = trim line := by
  have hfront := dropWhile_eq_of_prefix (List.rdropWhile_prefix isBlank _)
    (List.dropWhile_idempotent (p := isBlank) (l := line.toList))
  rw [trim_eq line, trim_eq, String.toList_ofList, hfront, List.rdropWhile_idempotent]

end Text

theorem DotCommand.parse_eq_exit {line : String} (h : parse line = .ok exit) :
    Text.trim line = ".exit" := by
  rw [parse] at h
  split at h
  · assumption
  · cases h
  · cases h
  · cases h

/-- A line that starts with a point is no statement. -/
theorem Statement.parse_of_dot {line : String} (h : line.startsWith "." = true) :
    ∃ e, parse line = .error e := by
  obtain ⟨rest, hline⟩ := String.startsWith_string_iff.mp h
  obtain ⟨word, others, hwords⟩ : ∃ word others, Text.words line =
      String.ofList ('.' :: word) :: others := by
    refine ⟨(Text.splitWords rest).1, (Text.splitWords rest).2.map String.ofList, ?_⟩
    rw [Text.words, ← hline]
    rfl
  have hne {other : String} (hother : other.toList.head? ≠ some '.') :
      String.ofList ('.' :: word) ≠ other := by
    rintro rfl
    rw [String.toList_ofList] at hother
    exact hother rfl
  rw [parse, hwords]
  split
  · rename_i heq
    exact absurd (List.cons.inj heq).1 (hne (by decide))
  · rename_i heq
    exact absurd (List.cons.inj heq).1 (hne (by decide))
  · exact ⟨_, rfl⟩

theorem Statement.parse_empty : parse "" = .error (.unrecognized "") := by decide

/-! ## One line -/

namespace Shell

variable {terminal : Terminal} {pager after a b : Pager} {rows : List Row} {line : String}

/-- The line is an insert that succeeds. -/
def inserts (line : String) (pager : Pager) : Bool :=
  match Statement.parse (Text.trim line) with
  | .error _ => false
  | .ok statement =>
    match statement.run pager with
    | .ok (.inserted _) _ => true
    | _ => false

theorem inserts_of_parse_error {e : StatementError}
    (h : Statement.parse (Text.trim line) = .error e) (pager : Pager) :
    inserts line pager = false := by
  rw [inserts, h]

theorem inserts_of_run {statement : Statement} {r : Except Failure Statement.Outcome}
    (hparse : Statement.parse (Text.trim line) = .ok statement)
    (hrun : statement.run.run pager = outcome r after) :
    inserts line pager = match r with
      | .ok (.inserted _) => true
      | _ => false := by
  replace hrun : statement.run pager = outcome r after := hrun
  simp only [inserts, hparse, hrun]
  cases r with
  | ok found => cases found <;> rfl
  | error failure => rfl

theorem run_answerStatement {statement : Statement} {found : Statement.Outcome}
    (hrun : statement.run.run pager = .ok found after) :
    (terminal.answerStatement statement).run pager = .ok (.print (outcomeText found)) after := by
  replace hrun : statement.run pager = .ok found after := hrun
  simp only [EStateM.run, Terminal.answerStatement, hrun]

/-- A shell goes on after a recoverable error. -/
theorem run_answerStatement_error {statement : Statement} {e : Error}
    (hrun : statement.run.run pager = .error (.error e) after) (he : e.isRecoverable = true) :
    (terminal.answerStatement statement).run pager = .ok (terminal.error e.message) after := by
  replace hrun : statement.run pager = .error (.error e) after := hrun
  simp only [EStateM.run, Terminal.answerStatement, hrun, he, if_true]

/-- A statement is run. -/
theorem respond_of_parse {statement : Statement} (h : Statement.parse line = .ok statement) :
    terminal.respond line = do return (← terminal.answerStatement statement, .next) := by
  have hempty : line ≠ "" := by
    rintro rfl
    rw [Statement.parse_empty] at h
    cases h
  have hdot : ¬line.startsWith "." = true := by
    intro hdot
    obtain ⟨e, he⟩ := Statement.parse_of_dot hdot
    rw [he] at h
    cases h
  rw [Terminal.respond, if_neg hempty, if_neg hdot, h]

/-- What can come of a line on a table. -/
inductive Answered (pager after : Pager) (rows : List Row) (line : String) :
    Reply × Flow → Prop where
  | left (hline : Text.trim line = ".exit") (hafter : after = pager) :
    Answered pager after rows line ({}, .leave)
  | idle {reply : Reply} (hline : Text.trim line ≠ ".exit") (hinserts : inserts line pager = false)
    (hview : after.view = pager.view) : Answered pager after rows line (reply, .next)
  | inserted {reply : Reply} {row : Row} (hline : Text.trim line ≠ ".exit")
    (hparse : Statement.parse (Text.trim line) = .ok (.insert row))
    (hrun : (Statement.run (.insert row)).run pager = .ok (.inserted row.id) after)
    (hafter : Table after (rows ++ [row])) : Answered pager after rows line (reply, .next)

theorem exists_respond_dot (h : Table pager rows) (hdot : (Text.trim line).startsWith "." = true) :
    ∃ (reply : Reply × Flow) (after : Pager),
      (terminal.respond (Text.trim line)).run pager = .ok reply after ∧ after.Coherent ∧
        after.file = pager.file ∧ Answered pager after rows line reply := by
  have hne : Text.trim line ≠ "" := by
    intro hempty
    rw [hempty] at hdot
    exact absurd hdot (by decide)
  obtain ⟨e, hparse⟩ := Statement.parse_of_dot hdot
  have hinserts := inserts_of_parse_error hparse pager
  rw [Terminal.respond, if_neg hne, if_pos hdot]
  have hline (hcommand : DotCommand.parse (Text.trim line) ≠ .ok .exit) :
      Text.trim line ≠ ".exit" := by
    intro hexit
    rw [hexit] at hcommand
    exact hcommand (by decide)
  cases hcommand : DotCommand.parse (Text.trim line) with
  | error e =>
    have hline := hline (hcommand ▸ nofun)
    exact ⟨_, pager, rfl, h.coherent, rfl, .idle hline hinserts rfl⟩
  | ok command =>
    cases command with
    | exit =>
      have hline := DotCommand.parse_eq_exit hcommand
      rw [Text.trim_trim] at hline
      exact ⟨_, pager, rfl, h.coherent, rfl, .left hline rfl⟩
    | outline =>
      have hline := hline (hcommand ▸ nofun)
      obtain ⟨H, t, q, hstores, -⟩ := h.stores
      obtain ⟨after, hrun, hafter, hview⟩ :=
        hstores.run_reads (reads_outlineText hstores.sound hstores.height_lt q)
      have hprint : (DotCommand.run .outline).run pager = outcome (.ok _) after :=
        run_map hrun DotCommand.Outcome.print
      exact ⟨_, after, bind_run hprint, hafter, congrArg View.file hview,
        .idle hline hinserts hview⟩
    | counters =>
      have hline := hline (hcommand ▸ nofun)
      exact ⟨_, pager, rfl, h.coherent, rfl, .idle hline hinserts rfl⟩

theorem exists_respond (terminal : Terminal) (h : Table pager rows) (line : String) :
    ∃ (reply : Reply × Flow) (after : Pager),
      (terminal.respond (Text.trim line)).run pager = .ok reply after ∧ after.Coherent ∧
        after.file = pager.file ∧ Answered pager after rows line reply := by
  by_cases hdot : (Text.trim line).startsWith "." = true
  · exact exists_respond_dot h hdot
  have hline : Text.trim line ≠ ".exit" := by
    intro hline
    rw [hline] at hdot
    exact hdot (String.startsWith_string_iff.mpr (by decide))
  by_cases hempty : Text.trim line = ""
  · have hinserts := inserts_of_parse_error (hempty ▸ Statement.parse_empty) pager
    rw [hempty]
    exact ⟨_, pager, rfl, h.coherent, rfl, .idle hline hinserts rfl⟩
  cases hparse : Statement.parse (Text.trim line) with
  | error e =>
    rw [Terminal.respond, if_neg hempty, if_neg hdot, hparse]
    exact ⟨_, pager, rfl, h.coherent, rfl, .idle hline (inserts_of_parse_error hparse pager) rfl⟩
  | ok statement =>
    rw [respond_of_parse hparse]
    cases statement with
    | select =>
      obtain ⟨found, after, hrun, hafter, hview, -⟩ := h.exists_select
      exact ⟨_, after, bind_run (run_answerStatement hrun), hafter, congrArg View.file hview,
        .idle hline (inserts_of_run hparse hrun) hview⟩
    | insert row =>
      obtain ⟨r, after, hrun, hafter, hfile, hadmits⟩ :=
        h.exists_insert (Statement.fits_of_parse hparse)
      have hinserts := inserts_of_run hparse hrun
      cases hadmits with
      | duplicate _ hview =>
        exact ⟨_, after, bind_run (run_answerStatement_error hrun rfl), hafter, hfile,
          .idle hline hinserts hview⟩
      | full _ hview =>
        exact ⟨_, after, bind_run (run_answerStatement_error hrun rfl), hafter, hfile,
          .idle hline hinserts hview⟩
      | taken _ htable =>
        exact ⟨_, after, bind_run (run_answerStatement hrun), hafter, hfile,
          .inserted hline hparse hrun htable⟩

theorem answer_of_edited {line edited : String} (h : terminal.edited line = .ok edited)
    (pager : Pager) : (terminal.answer line).run pager =
      (terminal.respond (Text.trim edited)).run pager := lift_bind_run h

/-! ## Many lines -/

/-- The lines before the first that leaves. -/
def beforeExit (lines : List String) : List String := lines.takeWhile (Text.trim · ≠ ".exit")

/-- The lines whose insert succeeds, when all lines are answered one after the other. -/
def Terminal.accepted (terminal : Terminal) : List String → Pager → List String
  | [], _ => []
  | line :: rest, pager =>
    let after := match terminal.answer line pager with
      | .ok _ after | .error _ after => after
    if inserts line pager then line :: terminal.accepted rest after
    else terminal.accepted rest after

theorem accepted_cons {reply : Reply × Flow} {rest : List String}
    (hrun : (terminal.answer line).run pager = .ok reply after) :
    terminal.accepted (line :: rest) pager =
      if inserts line pager then line :: terminal.accepted rest after
      else terminal.accepted rest after := by
  replace hrun : terminal.answer line pager = .ok reply after := hrun
  simp only [Terminal.accepted, hrun]

theorem converse_next {reply : Reply} {rest : List String}
    (hrun : (terminal.answer line).run pager = .ok (reply, .next) after) :
    terminal.converse (line :: rest) pager =
      (reply ++ (terminal.converse rest after).1, (terminal.converse rest after).2) := by
  replace hrun : terminal.answer line pager = .ok (reply, .next) after := hrun
  simp only [Terminal.converse, hrun]

theorem converse_leave {reply : Reply} {rest : List String}
    (hrun : (terminal.answer line).run pager = .ok (reply, .leave) after) :
    terminal.converse (line :: rest) pager = (reply, finish after) := by
  replace hrun : terminal.answer line pager = .ok (reply, .leave) after := hrun
  simp only [Terminal.converse, hrun]

theorem finish_of_close {closed : Pager} (hclose : close.run pager = .ok () closed) :
    finish pager = (.saved, closed.file) := by
  replace hclose : close pager = .ok () closed := hclose
  simp only [finish, hclose]

/-- An insert that succeeds on a pager does the same on one abreast of it. -/
theorem exists_answer_abreast {row : Row} (hline : terminal.edited line = .ok line)
    (hparse : Statement.parse (Text.trim line) = .ok (.insert row))
    (hrun : (Statement.run (.insert row)).run a = .ok (.inserted row.id) after)
    (hafter : after.Settled) (h : Abreast a b) :
    ∃ (reply : Reply) (later : Pager), (terminal.answer line).run b = .ok (reply, .next) later ∧
      Abreast after later := by
  have hfits := Statement.fits_of_parse hparse
  obtain ⟨r, a', later, hinsert, hinsert', htwins, -, hfile⟩ :=
    h.twins.exists_run (steady_insert row.id row.bytes)
  have hfirst : outcome (.ok (Statement.Outcome.inserted row.id)) after = outcome _ a' :=
    hrun.symm.trans (Statement.run_insert hfits hinsert)
  obtain ⟨hr, rfl⟩ := outcome_inj hfirst
  have hsecond := Statement.run_insert hfits hinsert'
  rw [← hr] at hsecond
  obtain ⟨H, t, q, hstores⟩ := hafter.stores
  have hlater : later.Settled := ⟨⟨H, t, q, hstores.of_twins htwins⟩, hfile ▸ h.right.whole⟩
  refine ⟨.print (outcomeText (.inserted row.id)), later, ?_, htwins, hafter, hlater⟩
  rw [answer_of_edited hline, respond_of_parse hparse]
  exact bind_run (run_answerStatement hsecond)

/-- Two pagers abreast of each other are saved to the same file, if the one is given all
    lines and the other those that the first accepts. -/
theorem converse_accepted {lines : List String}
    (hlines : ∀ line ∈ lines, terminal.edited line = .ok line) (h : Table a rows)
    (hab : Abreast a b) : ∃ file : Image, (terminal.converse lines a).2 = (.saved, file) ∧
      (terminal.converse (terminal.accepted (beforeExit lines) a) b).2 = (.saved, file) := by
  induction lines generalizing a b rows with
  | nil =>
    obtain ⟨closed, closed', hclose, hclose', hfile, -⟩ := hab.exists_close
    refine ⟨closed.file, finish_of_close hclose, ?_⟩
    rw [hfile]
    exact finish_of_close hclose'
  | cons line lines ih =>
    have hrest : ∀ line ∈ lines, terminal.edited line = .ok line :=
      fun other hother => hlines other (List.mem_cons_of_mem _ hother)
    have hline := hlines line List.mem_cons_self
    obtain ⟨reply, after, hrun, hafter, -, hanswered⟩ := exists_respond terminal h line
    rw [← answer_of_edited hline] at hrun
    cases hanswered with
    | left hexit hsame =>
      obtain ⟨closed, closed', hclose, hclose', hfile, -⟩ := hab.exists_close
      subst hsame
      rw [converse_leave hrun, beforeExit, List.takeWhile_cons_of_neg (by simpa using hexit)]
      refine ⟨closed.file, finish_of_close hclose, ?_⟩
      rw [hfile]
      exact finish_of_close hclose'
    | idle hexit hinserts hview =>
      obtain ⟨file, hall, hsome⟩ := ih hrest (h.of_view hafter hview) (hab.of_view hafter hview)
      rw [converse_next hrun, beforeExit, List.takeWhile_cons_of_pos (by simpa using hexit),
        accepted_cons hrun, hinserts]
      exact ⟨file, hall, hsome⟩
    | inserted hexit hparse hstatement htable =>
      obtain ⟨reply', later, hrun', hafter'⟩ :=
        exists_answer_abreast hline hparse hstatement htable.settled hab
      obtain ⟨file, hall, hsome⟩ := ih hrest htable hafter'
      rw [converse_next hrun, beforeExit, List.takeWhile_cons_of_pos (by simpa using hexit),
        accepted_cons hrun, inserts_of_run (r := .ok _) hparse hstatement]
      refine ⟨file, hall, ?_⟩
      rw [if_pos rfl, converse_next hrun']
      exact hsome

/-! ## Whole sessions -/

/-- Whatever lines come in, what is left is the file as it was, or the file of a table that
    was saved. -/
theorem converse_leaves (h : Table pager rows) (lines : List String) :
    (terminal.converse lines pager).2.2 = pager.file ∨
      ∃ (last closed : Pager) (kept : List Row), Table last kept ∧
        close.run last = .ok () closed ∧ (terminal.converse lines pager).2.2 = closed.file := by
  induction lines generalizing pager rows with
  | nil =>
    obtain ⟨closed, -, hclose, -⟩ := h.exists_reopen
    exact .inr ⟨pager, closed, rows, h, hclose, congrArg Prod.snd (finish_of_close hclose)⟩
  | cons line lines ih =>
    cases hedited : terminal.edited line with
    | error failure =>
      have hrun : terminal.answer line pager = .error failure pager := by
        rw [Terminal.answer, hedited]
        rfl
      simp only [Terminal.converse, hrun]
      exact .inl trivial
    | ok edited =>
      obtain ⟨reply, after, hrun, hafter, hfile, hanswered⟩ := exists_respond terminal h edited
      rw [← answer_of_edited hedited] at hrun
      cases hanswered with
      | left _ hsame =>
        subst hsame
        obtain ⟨closed, -, hclose, -⟩ := h.exists_reopen
        rw [converse_leave hrun]
        exact .inr ⟨after, closed, rows, h, hclose, congrArg Prod.snd (finish_of_close hclose)⟩
      | idle _ _ hview =>
        rw [converse_next hrun, ← hfile]
        exact ih (h.of_view hafter hview)
      | inserted _ _ _ htable =>
        rw [converse_next hrun, ← hfile]
        exact ih htable

theorem session_of_openAt (terminal : Terminal) {location : Location}
    (hopen : openAt location = .ok pager) (lines : List String) :
    (terminal.session location lines).ending = (terminal.converse lines pager).2.1 ∧
      (terminal.session location lines).location =
        .file (terminal.converse lines pager).2.2 := by
  simp only [Terminal.session, hopen]
  exact ⟨trivial, trivial⟩

/-- Where a file comes from: there is none, it is empty, or an earlier session left it, at
    whatever terminal. -/
inductive Left : Location → Prop where
  | nothing : Left .nothing
  | empty : Left (.file #[])
  | session {location : Location} (h : Left location) (terminal : Terminal)
    (lines : List String) : Left (terminal.session location lines).location

theorem openAt_congr {location other : Location} (h : location.openFile = other.openFile) :
    openAt location = openAt other := by
  rw [openAt, openAt, Pager.openAt, Pager.openAt, h]

/-- What sessions leave is opened as a table. -/
theorem Left.exists_table {location : Location} (h : Left location) :
    ∃ (pager : Pager) (rows : List Row), openAt location = .ok pager ∧ Table pager rows ∧
      location.openFile = .ok pager.file := by
  induction h with
  | nothing =>
    obtain ⟨pager, hopen, htable, hfile⟩ := Table.exists_openAt (.inl rfl)
    exact ⟨pager, [], hopen, htable, hfile ▸ rfl⟩
  | empty =>
    obtain ⟨pager, hopen, htable, hfile⟩ := Table.exists_openAt (.inr rfl)
    exact ⟨pager, [], hopen, htable, hfile ▸ rfl⟩
  | session _ terminal lines ih =>
    obtain ⟨pager, rows, hopen, htable, hfile⟩ := ih
    rw [(session_of_openAt terminal hopen lines).2]
    rcases converse_leaves htable lines with hsame | ⟨last, closed, kept, hlast, hclose, hsaved⟩
    · rw [hsame]
      exact ⟨pager, rows, (openAt_congr hfile).symm.trans hopen, htable, rfl⟩
    · obtain ⟨closed', opened, hclose', hopen', hopened, hfile'⟩ := hlast.exists_reopen
      obtain ⟨-, rfl⟩ := EStateM.Result.ok.inj (hclose.symm.trans hclose')
      rw [hsaved]
      exact ⟨opened, kept, hopen', hopened, hfile' ▸ rfl⟩

/-- **Only accepted lines leave a trace.**  A session on a file that earlier sessions left, or
    on none, ends well whatever lines it is given and at whatever terminal, as long as the
    editor hands them on as they are.  It leaves the same bytes as the session that is given,
    of the lines before the first `.exit`, only the inserts that succeeded. -/
theorem session_keeps_accepted {location : Location} (hlocation : Left location)
    {lines : List String} (hlines : ∀ line ∈ lines, terminal.edited line = .ok line) :
    ∃ (pager : Pager) (file : Image), openAt location = .ok pager ∧
      (terminal.session location lines).ending.exitCode = some 0 ∧
      (terminal.session location lines).location = .file file ∧
      (terminal.session location (terminal.accepted (beforeExit lines) pager)).ending.exitCode =
        some 0 ∧
      (terminal.session location (terminal.accepted (beforeExit lines) pager)).location =
        .file file := by
  obtain ⟨pager, rows, hopen, htable, -⟩ := hlocation.exists_table
  have habreast : Abreast pager pager :=
    ⟨.refl htable.coherent, htable.settled, htable.settled⟩
  obtain ⟨file, hall, hsome⟩ := converse_accepted hlines htable habreast
  obtain ⟨hending, hleft⟩ := session_of_openAt terminal hopen lines
  obtain ⟨hending', hleft'⟩ :=
    session_of_openAt terminal hopen (terminal.accepted (beforeExit lines) pager)
  refine ⟨pager, file, hopen, ?_, ?_, ?_, ?_⟩
  · rw [hending, hall]
    rfl
  · rw [hleft, hall]
  · rw [hending', hsome]
    rfl
  · rw [hleft', hsome]

/-- A session of the program with lines of all kinds, on a file that an earlier one left. -/
theorem session_keeps_accepted_again : ∃ (pager : Pager) (file : Image),
    openAt (session .nothing ["insert 1 a b"]).location = .ok pager ∧
    (session (session .nothing ["insert 1 a b"]).location ["insert 1 c d", " ", "select",
      "insert 2 e f", ".btree", "bogus", ".exit", "insert 3 g h"]).ending.exitCode = some 0 ∧
    (session (session .nothing ["insert 1 a b"]).location ["insert 1 c d", " ", "select",
      "insert 2 e f", ".btree", "bogus", ".exit", "insert 3 g h"]).location = .file file ∧
    (session (session .nothing ["insert 1 a b"]).location (console.accepted ["insert 1 c d",
      " ", "select", "insert 2 e f", ".btree", "bogus"] pager)).location = .file file := by
  have hplain : ∀ line ∈ ["insert 1 c d", " ", "select", "insert 2 e f", ".btree", "bogus",
      ".exit", "insert 3 g h"], Text.backspace ∉ line.toList := by decide
  obtain ⟨pager, file, hopen, hcode, hleft, -, hleft'⟩ :=
    session_keeps_accepted (.session .nothing console ["insert 1 a b"]) fun line hline =>
      console_edited (hplain line hline)
  exact ⟨pager, file, hopen, hcode, hleft, hleft'⟩

end Shell
end RowStore
