/-
  RowStore/Proofs/Tree/Circle.lean
  ================================
  **Scans that never end.**  A cursor follows the links between leaves wherever they lead,
  and nothing counts its steps.  In a damaged file the links may lead in a circle, and then
  neither the cursor nor a listing of all keys comes to an end.

  That is the only way.  All leaves that a cursor has passed are in memory, and there they
  say how it goes on.  So a cursor that is back at a place where it has been goes round for
  ever, and one that has moved on oftener than there are places must have been back.
-/
import Mathlib.Data.Fintype.Pigeonhole
import RowStore.Command.Statement
import RowStore.Proofs.Tree.Growth
import RowStore.Proofs.Tree.Looking
import RowStore.Proofs.Tree.Robust

namespace RowStore

open Relation (ReflTransGen TransGen)

variable {α : Type}

/-! ## One move -/

/-- Where a cursor comes to from a cell of the leaf `node`. -/
def Cursor.nextIn (cursor : Cursor) (node : Leaf) : Cursor :=
  if cursor.cell + 1 < node.count then { cursor with cell := cursor.cell + 1 }
  else
    match node.next with
    | none => { cursor with cell := cursor.cell + 1, atEnd := true }
    | some next => { cursor with page := next, cell := 0 }

theorem Cursor.advance_eq {cursor : Cursor} (hend : cursor.atEnd = false) :
    cursor.advance = (do return cursor.nextIn (← Tree.leaf cursor.page)) := by
  have hmoved : cursor.stepped = { cursor with cell := cursor.cell + 1 } :=
    if_neg (Bool.eq_false_iff.mp hend)
  rw [advance, if_neg (Bool.eq_false_iff.mp hend), hmoved]
  refine bind_congr fun node => ?_
  rw [nextIn]
  split
  · rfl
  · cases node.next <;> rfl

/-- A cursor that is not at the end stands on a cell that a leaf can have. -/
theorem Cursor.nextIn_cell_lt {cursor : Cursor} {node : Leaf} (hnode : node.count ≤ Leaf.maxCells)
    (hend : (cursor.nextIn node).atEnd = false) : (cursor.nextIn node).cell < Leaf.maxCells := by
  rw [nextIn] at hend ⊢
  split
  · rename_i hlt
    exact Nat.lt_of_lt_of_le hlt hnode
  · rename_i hlt
    rw [if_neg hlt] at hend
    cases hnext : node.next with
    | none =>
      rw [hnext] at hend
      cases hend
    | some next => exact show 0 < Leaf.maxCells by decide

namespace Pager

/-- The leaf under the cursor is in memory, and it leads on to `next`. -/
def Links (pager : Pager) (cursor next : Cursor) : Prop :=
  cursor.atEnd = false ∧ ∃ page node, pager.slot cursor.page = some page ∧
    Leaf.ofPage cursor.page page = .ok node ∧ next = cursor.nextIn node

theorem Links.mono {pager last : Pager} {cursor next : Cursor} (h : pager.Links cursor next)
    (hlast : last.Retains pager) : last.Links cursor next := by
  obtain ⟨hend, page, node, hslot, hnode, hnext⟩ := h
  exact ⟨hend, page, node, hlast _ _ hslot, hnode, hnext⟩

/-- A leaf that is in memory can be read again. -/
theorem exists_leaf_of_slot {pager : Pager} {id : PageId} {page : Page} {node : Leaf}
    (hslot : pager.slot id = some page) (hnode : Leaf.ofPage id page = .ok node) :
    ∃ after, (Tree.leaf id).run pager = .ok node after ∧ pager.Recounts after := by
  obtain ⟨after, hrequest, hafter⟩ := exists_request_of_slot hslot
  refine ⟨after, ?_, hafter⟩
  rw [Tree.leaf, bind_run hrequest, hnode]
  rfl

theorem leaf_ok {pager after : Pager} {id : PageId} {node : Leaf}
    (hrun : (Tree.leaf id).run pager = .ok node after) : after.Retains pager ∧
      ∃ page, after.slot id = some page ∧ Leaf.ofPage id page = .ok node := by
  obtain ⟨page, middle, hrequest, hcheck⟩ := exists_of_bind_run hrun
  obtain ⟨hretains, hslot⟩ := request_ok hrequest
  cases hnode : Leaf.ofPage id page with
  | error failure =>
    rw [hnode] at hcheck
    cases hcheck
  | ok found =>
    rw [hnode] at hcheck
    cases hcheck
    exact ⟨hretains, page, hslot, hnode⟩

theorem count_le_of_leaf {pager after : Pager} {id : PageId} {node : Leaf}
    (hrun : (Tree.leaf id).run pager = .ok node after) : node.count ≤ Leaf.maxCells := by
  obtain ⟨-, _, -, hnode⟩ := leaf_ok hrun
  obtain ⟨-, hcount, rfl⟩ := Leaf.ofPage_eq_ok_iff.mp hnode
  exact hcount

/-- A cursor that was moved on was led on by the leaf under it. -/
theorem Links.of_advance {pager after : Pager} {cursor next : Cursor}
    (hend : cursor.atEnd = false) (hrun : cursor.advance.run pager = .ok next after) :
    after.Links cursor next ∧ after.Retains pager := by
  rw [Cursor.advance_eq hend] at hrun
  obtain ⟨node, middle, hleaf, hnext⟩ := exists_of_bind_run hrun
  cases hnext
  obtain ⟨hretains, page, hslot, hnode⟩ := leaf_ok hleaf
  exact ⟨⟨hend, page, node, hslot, hnode, rfl⟩, hretains⟩

theorem Links.of_recounts {pager other : Pager} {cursor next : Cursor}
    (h : pager.Links cursor next) (hother : pager.Recounts other) : other.Links cursor next :=
  h.mono fun id _ hslot => (hother.slot_eq id).trans hslot

theorem Links.exists_advance {pager : Pager} {cursor next : Cursor} (h : pager.Links cursor next) :
    ∃ after, cursor.advance.run pager = .ok next after ∧ pager.Recounts after := by
  obtain ⟨hend, page, node, hslot, hnode, rfl⟩ := h
  obtain ⟨after, hleaf, hafter⟩ := exists_leaf_of_slot hslot hnode
  refine ⟨after, ?_, hafter⟩
  rw [Cursor.advance_eq hend, bind_run hleaf]
  rfl

theorem Links.index_lt {pager : Pager} {cursor next : Cursor} (h : pager.Links cursor next) :
    cursor.page.index < maxPages := by
  obtain ⟨-, page, -, hslot, -⟩ := h
  exact index_lt_of_slot hslot

theorem Links.cell_lt {pager : Pager} {cursor next : Cursor} (h : pager.Links cursor next)
    (hend : next.atEnd = false) : next.cell < Leaf.maxCells := by
  obtain ⟨-, page, node, -, hnode, rfl⟩ := h
  obtain ⟨-, hcount, rfl⟩ := Leaf.ofPage_eq_ok_iff.mp hnode
  exact Cursor.nextIn_cell_lt hcount hend

end Pager

namespace Tree

/-! ## Many moves -/

/-- The cursor that was moved on `n` times from the smallest key. -/
def advanced : Nat → PagerM Cursor
  | 0 => start
  | n + 1 => do (← advanced n).advance

/-- Within `n` moves the cursor is at the end, or a move or the start has failed with an
    error. -/
def Stops (pager : Pager) (n : Nat) : Prop :=
  match (advanced n).run pager with
  | .ok cursor _ => cursor.atEnd = true
  | .error failure _ => failure.isError = true

/-- The first `n` moves lead to `cursor`, which is not at the end. -/
def Goes (pager : Pager) (n : Nat) (cursor : Cursor) (after : Pager) : Prop :=
  (advanced n).run pager = .ok cursor after ∧ cursor.atEnd = false

/-- The cursor comes back to a place where it has been before, and is not at the end there. -/
def Circles (pager : Pager) : Prop :=
  ∃ i j cursor middle after, i < j ∧ Goes pager i cursor middle ∧ Goes pager j cursor after

theorem safe_advanced (n : Nat) : Safe (advanced n) Cursor.InRange := by
  induction n with
  | zero => exact safe_start
  | succ n ih => exact ih.bind fun _ hcursor => Cursor.safe_advance hcursor

theorem not_stops_iff {pager : Pager} {n : Nat} :
    ¬Stops pager n ↔ ∃ cursor after, Goes pager n cursor after := by
  have hsafe := safe_advanced n pager trivial
  rw [Stops]
  simp only [Goes]
  cases hrun : (advanced n).run pager with
  | error failure after =>
    rw [hrun] at hsafe
    simpa using hsafe
  | ok cursor after => simp [Bool.not_eq_true]

section Goes

variable {pager after : Pager} {n i k : Nat} {cursor next : Cursor}

/-- Every move starts from a cursor that is not at the end. -/
theorem Goes.pred (h : Goes pager (n + 1) next after) :
    ∃ cursor middle, Goes pager n cursor middle ∧ after.Links cursor next ∧
      after.Retains middle := by
  obtain ⟨hrun, hend⟩ := h
  obtain ⟨cursor, middle, hfirst, hlast⟩ := exists_of_bind_run hrun
  have hbefore : cursor.atEnd = false := by
    by_contra hatEnd
    rw [Cursor.advance, if_pos (Bool.not_eq_false _ ▸ hatEnd)] at hlast
    cases hlast
    exact hatEnd hend
  obtain ⟨hlinks, hretains⟩ := Pager.Links.of_advance hbefore hlast
  exact ⟨cursor, middle, ⟨hfirst, hbefore⟩, hlinks, hretains⟩

theorem Goes.exists_of_le (h : Goes pager (i + k) next after) :
    ∃ cursor middle, Goes pager i cursor middle := by
  induction k generalizing next after with
  | zero => exact ⟨next, after, h⟩
  | succ k ih =>
    obtain ⟨cursor, middle, hbefore, -, -⟩ := h.pred
    exact ih hbefore

/-- In the end memory has the whole way that the cursor has gone. -/
theorem Goes.path (h : Goes pager (i + (k + 1)) next after) :
    ∃ cursor middle, Goes pager i cursor middle ∧ TransGen after.Links cursor next := by
  induction k generalizing next after with
  | zero =>
    obtain ⟨cursor, middle, hbefore, hlinks, -⟩ := h.pred
    exact ⟨cursor, middle, hbefore, .single hlinks⟩
  | succ k ih =>
    obtain ⟨last, middle, hbefore, hlinks, hretains⟩ := h.pred
    obtain ⟨cursor, first, hfirst, hpath⟩ := ih hbefore
    replace hpath : TransGen after.Links cursor last :=
      hpath.lift id fun _ _ hlink => hlink.mono hretains
    exact ⟨cursor, first, hfirst, hpath.tail hlinks⟩

/-- A cursor on a circle is led on along the circle. -/
theorem exists_advance_of_circle (h : TransGen after.Links cursor cursor) :
    ∃ next last, cursor.advance.run after = .ok next last ∧ next.atEnd = false ∧
      TransGen last.Links next next := by
  obtain ⟨next, hlinks, hback⟩ := TransGen.head'_iff.mp h
  obtain ⟨last, hadvance, hlast⟩ := hlinks.exists_advance
  have hcircle : TransGen after.Links next next := TransGen.tail' hback hlinks
  obtain ⟨_, ⟨hend, -⟩, -⟩ := TransGen.head'_iff.mp hcircle
  exact ⟨next, last, hadvance, hend, hcircle.lift id fun _ _ hlink => hlink.of_recounts hlast⟩

theorem Goes.around (h : Goes pager n cursor after) (hcircle : TransGen after.Links cursor cursor)
    (k : Nat) : ∃ next last, Goes pager (n + k) next last ∧ TransGen last.Links next next := by
  induction k with
  | zero => exact ⟨cursor, after, h, hcircle⟩
  | succ k ih =>
    obtain ⟨middle, before, ⟨hrun, -⟩, hcircle⟩ := ih
    obtain ⟨next, last, hadvance, hend, hcircle⟩ := exists_advance_of_circle hcircle
    exact ⟨next, last, ⟨(bind_run hrun).trans hadvance, hend⟩, hcircle⟩

end Goes

/-- A cursor that has been back goes on for ever. -/
theorem Circles.goes {pager : Pager} (h : Circles pager) (n : Nat) :
    ∃ cursor after, Goes pager n cursor after := by
  obtain ⟨i, j, cursor, middle, after, hlt, hfirst, hlast⟩ := h
  obtain ⟨k, rfl⟩ := Nat.exists_eq_add_of_lt hlt
  obtain ⟨again, _, hagain, hpath⟩ := Goes.path (i := i) (k := k) hlast
  obtain ⟨rfl, -⟩ := EStateM.Result.ok.inj (hfirst.1.symm.trans hagain.1)
  obtain ⟨next, last, hgoes, -⟩ := hlast.around hpath n
  exact Goes.exists_of_le (Nat.add_comm _ n ▸ hgoes)

/-- The place of a cursor among the cells that the leaves of a store can have. -/
def placeOf (cursor : Cursor) : Nat := cursor.page.index * Leaf.maxCells + cursor.cell

theorem placeOf_lt {cursor : Cursor} (hindex : cursor.page.index < maxPages)
    (hcell : cursor.cell < Leaf.maxCells) : placeOf cursor < maxPages * Leaf.maxCells := by
  change cursor.page.index < 100 at hindex
  change cursor.cell < 13 at hcell
  change cursor.page.index * 13 + cursor.cell < 1300
  omega

theorem placeOf_inj {a b : Cursor} (ha : a.cell < Leaf.maxCells) (hb : b.cell < Leaf.maxCells)
    (hend : a.atEnd = b.atEnd) (h : placeOf a = placeOf b) : a = b := by
  change a.cell < 13 at ha
  change b.cell < 13 at hb
  change a.page.index * 13 + a.cell = b.page.index * 13 + b.cell at h
  obtain ⟨apage, acell, aend⟩ := a
  obtain ⟨bpage, bcell, bend⟩ := b
  obtain rfl : apage = bpage := PageId.ext_index (by dsimp only at h ha hb; omega)
  obtain rfl : acell = bcell := by
    dsimp only at h
    omega
  obtain rfl : aend = bend := hend
  rfl

/-- A cursor that goes on for as many moves as there are places has been back at one. -/
theorem Goes.circles {pager after : Pager} {last : Cursor} (h : Goes pager maxPlaces last after) :
    Circles pager := by
  have hgoes (i : Nat) (hi : i ≤ maxPlaces) : ∃ cursor middle, Goes pager i cursor middle := by
    obtain ⟨k, hk⟩ := Nat.exists_eq_add_of_le hi
    exact Goes.exists_of_le (hk ▸ h)
  -- Only the start and the last place are not known to be among the places counted here,
  -- and there are moves enough to leave them out.
  have hplaces (i : Fin (maxPages * Leaf.maxCells + 1)) : ∃ cursor middle,
      Goes pager (i + 1) cursor middle ∧ cursor.cell < Leaf.maxCells ∧
        placeOf cursor < maxPages * Leaf.maxCells := by
    have hmore : i.val + 2 ≤ maxPlaces := Nat.le_trans (Nat.add_le_add_right i.is_le 2) (by decide)
    obtain ⟨next, last, hnext⟩ := hgoes (i + 2) hmore
    obtain ⟨cursor, middle, hcursor, hlinks, -⟩ := hnext.pred
    obtain ⟨_, _, -, hlinks', -⟩ := hcursor.pred
    exact ⟨cursor, middle, hcursor, hlinks'.cell_lt hcursor.2,
      placeOf_lt hlinks.index_lt (hlinks'.cell_lt hcursor.2)⟩
  choose cursor middle hcursor hcell hplace using hplaces
  obtain ⟨i, j, hne, hsame⟩ := Fintype.exists_ne_map_eq_of_card_lt
    (fun i => (⟨placeOf (cursor i), hplace i⟩ : Fin (maxPages * Leaf.maxCells))) (by simp)
  have hback : cursor i = cursor j :=
    placeOf_inj (hcell i) (hcell j) ((hcursor i).2.trans (hcursor j).2.symm) (Fin.mk.inj hsame)
  rcases Nat.lt_or_gt_of_ne (Fin.val_ne_of_ne hne) with hlt | hlt
  · exact ⟨_, _, _, _, _, Nat.succ_lt_succ hlt, hcursor i, hback ▸ hcursor j⟩
  · exact ⟨_, _, _, _, _, Nat.succ_lt_succ hlt, hcursor j, hback ▸ hcursor i⟩

/-! ## Listings -/

theorem leaf_recount {pager after other : Pager} {id : PageId} {r : Except Failure Leaf}
    (hrun : (leaf id).run pager = outcome r after) (hother : pager.Recounts other) :
    ∃ last, (leaf id).run other = outcome r last ∧ after.Recounts last := by
  obtain ⟨s, middle, hrequest⟩ := exists_outcome (Pager.request id) pager
  obtain ⟨last, hrequest', hlast⟩ := Pager.request_recount hrequest hother
  rw [leaf] at hrun ⊢
  cases s with
  | error failure =>
    rw [bind_run_error hrequest] at hrun
    obtain ⟨rfl, rfl⟩ := outcome_inj (r := .error failure) hrun
    exact ⟨last, bind_run_error hrequest', hlast⟩
  | ok page =>
    rw [bind_run hrequest] at hrun
    rw [bind_run hrequest']
    cases hnode : Leaf.ofPage id page with
    | error failure =>
      rw [hnode] at hrun
      obtain ⟨rfl, rfl⟩ := outcome_inj (r := .error failure) hrun
      exact ⟨last, rfl, hlast⟩
    | ok node =>
      rw [hnode] at hrun
      obtain ⟨rfl, rfl⟩ := outcome_inj (r := .ok node) hrun
      exact ⟨last, rfl, hlast⟩

theorem endless_of_map {β : Type} {m : PagerM α} {f : α → β} {pager after : Pager}
    (hrun : (do return f (← m)).run pager = .error .endless after) :
    m.run pager = .error .endless after := by
  obtain ⟨r, middle, hm⟩ := exists_outcome m pager
  cases r with
  | ok a =>
    rw [bind_run hm] at hrun
    cases hrun
  | error failure =>
    rw [bind_run_error hm] at hrun
    cases hrun
    exact hm

/-- The cursor is moved on by the leaf under it. -/
theorem advanced_succ {pager middle after : Pager} {n : Nat} {cursor : Cursor} {node : Leaf}
    (hadvanced : (advanced n).run pager = .ok cursor middle) (hend : cursor.atEnd = false)
    (hleaf : (leaf cursor.page).run middle = .ok node after) :
    (advanced (n + 1)).run pager = .ok (cursor.nextIn node) after := by
  rw [advanced, bind_run hadvanced, Cursor.advance_eq hend, bind_run hleaf]
  rfl

/-- A visit reads the leaf under the cursor and looks at it. -/
def Looks (visit : Cursor → PagerM α) (look : Cursor → Leaf → Except Failure α) : Prop :=
  ∀ cursor, visit cursor = do liftM (look cursor (← leaf cursor.page))

section Scan

variable {visit : Cursor → PagerM α} {look : Cursor → Leaf → Except Failure α}
variable {pager middle after : Pager} {cursor : Cursor} {node : Leaf} {places n : Nat}

theorem scanWithin_of_error {failure : Failure} (hvisit : Looks visit look)
    (hend : cursor.atEnd = false) (hleaf : (leaf cursor.page).run pager = .error failure after) :
    (scanWithin visit (places + 1) cursor).run pager = .error failure after := by
  rw [scanWithin, if_neg (Bool.eq_false_iff.mp hend), hvisit]
  exact bind_run_error (bind_run_error hleaf)

theorem scanWithin_of_refused {failure : Failure} (hvisit : Looks visit look)
    (hend : cursor.atEnd = false) (hleaf : (leaf cursor.page).run pager = .ok node after)
    (hlook : look cursor node = .error failure) :
    (scanWithin visit (places + 1) cursor).run pager = .error failure after := by
  have hhere : (visit cursor).run pager = .error failure after := by
    rw [hvisit, bind_run hleaf, hlook]
    rfl
  rw [scanWithin, if_neg (Bool.eq_false_iff.mp hend)]
  exact bind_run_error hhere

theorem scanWithin_of_leaf {here : α} (places : Nat) (hvisit : Looks visit look)
    (hend : cursor.atEnd = false)
    (hleaf : (leaf cursor.page).run pager = .ok node after) (hlook : look cursor node = .ok here) :
    ∃ last, after.Recounts last ∧ (scanWithin visit (places + 1) cursor).run pager =
      (do return here :: (← scanWithin visit places (cursor.nextIn node))).run last := by
  have hhere : (visit cursor).run pager = .ok here after := by
    rw [hvisit, bind_run hleaf, hlook]
    rfl
  obtain ⟨-, page, hslot, hnode⟩ := Pager.leaf_ok hleaf
  have hlinks : after.Links cursor (cursor.nextIn node) := ⟨hend, page, node, hslot, hnode, rfl⟩
  obtain ⟨last, hadvance, hlast⟩ := hlinks.exists_advance
  refine ⟨last, hlast, ?_⟩
  rw [scanWithin, if_neg (Bool.eq_false_iff.mp hend)]
  exact (bind_run hhere).trans (bind_run hadvance)

/-- A listing that is endless has moved on as often as it could. -/
theorem goes_of_endless (hvisit : Looks visit look)
    (hlook : ∀ cursor node, node.count ≤ Leaf.maxCells → SafeCheck (look cursor node) fun _ => True)
    (hadvanced : (advanced n).run pager = .ok cursor middle) {other last : Pager}
    (hother : middle.Recounts other)
    (hrun : (scanWithin visit places cursor).run other = .error .endless last) :
    ∃ next after, Goes pager (n + places) next after := by
  induction places generalizing n cursor middle other with
  | zero =>
    cases hend : cursor.atEnd with
    | false => exact ⟨cursor, middle, hadvanced, hend⟩
    | true =>
      rw [scanWithin, if_pos hend] at hrun
      cases hrun
  | succ places ih =>
    cases hend : cursor.atEnd with
    | true =>
      rw [scanWithin, if_pos hend] at hrun
      cases hrun
    | false =>
      obtain ⟨r, next, hleaf⟩ := exists_outcome (leaf cursor.page) middle
      obtain ⟨next', hleaf', hnext⟩ := leaf_recount hleaf hother
      cases r with
      | error failure =>
        rw [scanWithin_of_error hvisit hend hleaf'] at hrun
        have hsafe := safe_leaf cursor.page middle trivial
        rw [hleaf] at hsafe
        cases hrun
        cases hsafe
      | ok node =>
        have hcount : node.count ≤ Leaf.maxCells := Pager.count_le_of_leaf hleaf
        cases hlooked : look cursor node with
        | error failure =>
          rw [scanWithin_of_refused hvisit hend hleaf' hlooked] at hrun
          have hsafe := hlook cursor node hcount
          rw [hlooked] at hsafe
          cases hrun
          cases hsafe
        | ok here =>
          obtain ⟨rest, hrest, hscan⟩ := scanWithin_of_leaf _ hvisit hend hleaf' hlooked
          rw [hscan] at hrun
          rw [← Nat.add_assoc, Nat.add_right_comm]
          exact ih (advanced_succ hadvanced hend hleaf) (hnext.trans hrest) (endless_of_map hrun)

/-- If every leaf can be looked at, a listing goes on as far as the cursor. -/
theorem endless_of_goes (hvisit : Looks visit look)
    (hlook : ∀ cursor node, node.count ≤ Leaf.maxCells → ∃ a, look cursor node = .ok a)
    (hadvanced : (advanced n).run pager = .ok cursor middle) {other : Pager} {next : Cursor}
    (hother : middle.Recounts other) (hgoes : Goes pager (n + places) next after) :
    ∃ last, (scanWithin visit places cursor).run other = .error .endless last := by
  induction places generalizing n cursor middle other with
  | zero =>
    obtain ⟨rfl, -⟩ := EStateM.Result.ok.inj (hadvanced.symm.trans hgoes.1)
    rw [scanWithin, if_neg (Bool.eq_false_iff.mp hgoes.2)]
    exact ⟨other, rfl⟩
  | succ places ih =>
    rw [← Nat.add_assoc, Nat.add_right_comm] at hgoes
    obtain ⟨_, _, hsucc⟩ := hgoes.exists_of_le
    obtain ⟨_, _, ⟨hbefore, hend⟩, -⟩ := hsucc.pred
    obtain ⟨rfl, rfl⟩ := EStateM.Result.ok.inj (hadvanced.symm.trans hbefore)
    have hadvance := hsucc.1
    rw [advanced, bind_run hadvanced, Cursor.advance_eq hend] at hadvance
    obtain ⟨node, _, hleaf, -⟩ := exists_of_bind_run hadvance
    obtain ⟨_, hleaf', hnext⟩ := leaf_recount (r := .ok node) hleaf hother
    obtain ⟨here, hhere⟩ := hlook cursor node (Pager.count_le_of_leaf hleaf)
    obtain ⟨_, hrest, hscan⟩ := scanWithin_of_leaf places hvisit hend hleaf' hhere
    obtain ⟨last, hlast⟩ := ih (advanced_succ hadvanced hend hleaf) (hnext.trans hrest) hgoes
    rw [hscan]
    exact ⟨last, bind_run_error hlast⟩

theorem goes_of_scan_endless (hvisit : Looks visit look)
    (hlook : ∀ cursor node, node.count ≤ Leaf.maxCells → SafeCheck (look cursor node) fun _ => True)
    (hrun : (scan visit).run pager = .error .endless after) :
    ∃ next last, Goes pager maxPlaces next last := by
  obtain ⟨r, middle, hstart⟩ := exists_outcome start pager
  cases r with
  | error failure =>
    have hsafe := safe_start pager trivial
    rw [hstart] at hsafe
    rw [scan, bind_run_error hstart] at hrun
    cases hrun
    cases hsafe
  | ok cursor =>
    rw [scan, bind_run hstart] at hrun
    obtain ⟨next, last, hgoes⟩ := goes_of_endless (n := 0) hvisit hlook hstart (.refl middle) hrun
    rw [Nat.zero_add] at hgoes
    exact ⟨next, last, hgoes⟩

end Scan

/-- What a listing of keys sees of a leaf. -/
def keyIn (cursor : Cursor) (node : Leaf) : Except Failure (Option UInt32) :=
  if cursor.cell < node.count then some <$> node.key cursor.cell else pure none

theorem looks_key : Looks Cursor.key keyIn := by
  intro cursor
  rw [Cursor.key]
  refine bind_congr fun node => ?_
  rw [keyIn]
  split
  · cases node.key cursor.cell <;> rfl
  · rfl

theorem exists_keyIn (cursor : Cursor) (node : Leaf) (hcount : node.count ≤ Leaf.maxCells) :
    ∃ key, keyIn cursor node = .ok key := by
  rw [keyIn]
  split
  · rename_i hlt
    rw [Leaf.key, Leaf.Says.cellOffset_eq (Nat.lt_of_lt_of_le hlt hcount)]
    exact ⟨_, rfl⟩
  · exact ⟨none, rfl⟩

theorem keys_endless_iff {pager : Pager} :
    (∃ after, keys.run pager = .error .endless after) ↔
      ∃ next last, Goes pager maxPlaces next last := by
  constructor
  · rintro ⟨after, hrun⟩
    refine goes_of_scan_endless looks_key (fun cursor node hcount => ?_) (endless_of_map hrun)
    obtain ⟨key, hkey⟩ := exists_keyIn cursor node hcount
    rw [hkey]
    trivial
  · rintro ⟨next, last, hgoes⟩
    rw [← Nat.zero_add maxPlaces] at hgoes
    obtain ⟨cursor, middle, hstart, -⟩ := hgoes.exists_of_le
    obtain ⟨after, hscan⟩ := endless_of_goes looks_key exists_keyIn hstart (.refl middle) hgoes
    exact ⟨after, bind_run_error ((bind_run hstart).trans hscan)⟩

end Tree

theorem Row.safe_decode (bytes : List UInt8) : SafeCheck (Row.decode bytes) fun _ => True := by
  have hcolumn (column : List UInt8) : SafeCheck (decodeColumn column) fun _ => True := by
    rw [decodeColumn]
    cases Utf8.decode (column.takeWhile (· ≠ 0)) with
    | ok text => exact .pure trivial
    | error defect => exact .refuse
  exact .guard fun _ => (hcolumn _).bind fun _ _ => (hcolumn _).bind fun _ _ => .pure trivial

namespace Tree

/-- What a listing of rows sees of a leaf. -/
def rowIn (cursor : Cursor) (node : Leaf) : Except Failure Row := do
  if node.count ≤ cursor.cell then
    refuse (.cellOutOfRange cursor.page cursor.cell node.count)
  Row.decode (← node.value cursor.cell)

theorem looks_row : Looks (fun cursor => do Row.decode (← cursor.value)) rowIn := by
  intro cursor
  dsimp only [Cursor.value]
  rw [bind_assoc]
  refine bind_congr fun node => ?_
  rw [rowIn]
  split
  · rfl
  · cases node.value cursor.cell <;> rfl

theorem safe_rowIn (cursor : Cursor) (node : Leaf) (hcount : node.count ≤ Leaf.maxCells) :
    SafeCheck (rowIn cursor node) fun _ => True :=
  .guard fun hcell =>
    (Leaf.safe_value (Nat.lt_of_lt_of_le (Nat.not_le.mp hcell) hcount)).bind fun _ _ =>
      Row.safe_decode _

/-! ## Questions that are never answered -/

theorem safe_attempt (m : PagerM α) : Safe (attempt m) fun _ => True := by
  intro pager _
  obtain ⟨r, after, hrun⟩ := exists_outcome m pager
  rw [run_attempt hrun]
  trivial

theorem safe_follow (moves : List Move) (cursor : Cursor) :
    Safe (follow moves cursor) fun _ => True := by
  induction moves generalizing cursor with
  | nil => exact .pure trivial
  | cons move moves ih =>
    cases move with
    | advance => exact (safe_attempt _).bind fun _ _ => (ih _).bind fun _ _ => .pure trivial
    | key => exact (safe_attempt _).bind fun _ _ => (ih _).bind fun _ _ => .pure trivial
    | value => exact (safe_attempt _).bind fun _ _ => (ih _).bind fun _ _ => .pure trivial

theorem Operation.safe_question {op : Operation} (hop : op.isInsert = false) (hkeys : op ≠ .keys) :
    Safe op.run fun _ => True := by
  cases op with
  | insert key value => cases hop
  | keys => exact absurd rfl hkeys
  | get key => exact (safe_get key).bind fun _ _ => .pure trivial
  | find key => exact (safe_find key).bind fun _ _ => .pure trivial
  | maxKey id => exact (safe_maxKey id).bind fun _ _ => .pure trivial
  | depth => exact safe_depth.bind fun _ _ => .pure trivial
  | outline => exact safe_outlineText.bind fun _ _ => .pure trivial
  | check => exact safe_check.bind fun _ _ => .pure trivial
  | scan first moves =>
    have hmoves (cursor : Cursor) : Safe (do return Answer.visits (← follow moves cursor))
        fun _ => True :=
      (safe_follow moves cursor).bind fun _ _ => .pure trivial
    cases first with
    | some key => exact (safe_findKey key).bind fun cursor _ => hmoves cursor
    | none => exact safe_start.bind fun cursor _ => hmoves cursor

/-- **Scans end, or go round in a circle.**  On any pages at all a cursor that is moved on
    from the smallest key comes to the end or to an error, or else it comes back to a place
    where it has been.  If it stops it does so within as many moves as there are places.
    Of all questions only the listing of the keys may stay without an answer, and does so
    exactly if the cursor goes round; the rows are listed without end only then. -/
theorem scans_stop_or_circle (pager : Pager) :
    ((∃ n, Stops pager n) ↔ ¬Circles pager) ∧
      ((∃ n, Stops pager n) ↔ Stops pager maxPlaces) ∧
      (∀ op : Operation, op.isInsert = false →
        ((∃ after, op.run.run pager = .error .endless after) ↔ op = .keys ∧ Circles pager)) ∧
      ((∃ after, Statement.selectRows.run pager = .error .endless after) → Circles pager) := by
  have hgoes : Circles pager ↔ ∃ next last, Goes pager maxPlaces next last :=
    ⟨fun h => h.goes maxPlaces, fun ⟨_, _, h⟩ => h.circles⟩
  have hstops : Stops pager maxPlaces ↔ ¬Circles pager := by
    rw [hgoes, ← not_stops_iff, not_not]
  have hever : (∃ n, Stops pager n) ↔ ¬Circles pager := by
    constructor
    · rintro ⟨n, hn⟩ hcircles
      exact not_stops_iff.mpr (hcircles.goes n) hn
    · intro h
      refine ⟨maxPlaces, ?_⟩
      rwa [hstops]
  refine ⟨hever, hever.trans hstops.symm, fun op hop => ⟨?_, ?_⟩, ?_⟩
  · rintro ⟨after, hrun⟩
    by_cases hkeys : op = .keys
    · subst hkeys
      exact ⟨rfl, hgoes.mpr (keys_endless_iff.mp ⟨after, endless_of_map hrun⟩)⟩
    · have hsafe := Operation.safe_question hop hkeys pager trivial
      rw [hrun] at hsafe
      cases hsafe
  · rintro ⟨rfl, hcircles⟩
    obtain ⟨after, hrun⟩ := keys_endless_iff.mpr (hgoes.mp hcircles)
    exact ⟨after, bind_run_error hrun⟩
  · rintro ⟨after, hrun⟩
    exact hgoes.mpr (goes_of_scan_endless looks_row safe_rowIn hrun)

/-! ## A circle -/

/-- If page 0 is a leaf with one entry, and the next leaf has at most one and is its own next
    leaf, a cursor comes to the start of the next leaf again and again. -/
theorem circles_of_loop {pager : Pager} {H : Heap} {id parent parent' : PageId}
    {isRoot isRoot' : Bool} {entry : Entry} {entries : List Entry} (hp : pager.Coherent)
    (hshows : pager.view.Shows H) (hindex : ∀ x ∈ H, x.1.index < maxPages)
    (hfirst : (PageId.root, ⟨some (.leaf isRoot (some id) [entry]), parent⟩) ∈ H)
    (hsecond : (id, ⟨some (.leaf isRoot' (some id) entries), parent'⟩) ∈ H)
    (hlen : entries.length ≤ 1) : Circles pager := by
  have hgives := hshows.gives_of_lt hindex
  have hstart : Reads start H (.ok ⟨PageId.root, 0, false⟩) := by
    have hfind : Reads (find 0) H (.ok (PageId.root, 0)) := by
      refine Reads.sees_bind (sees_node_leaf hfirst) ?_
      rintro _ ⟨page, rfl, hnode, -⟩
      exact Reads.lift_bind (hnode.find_eq (List.pairwise_singleton _ _) 0) (Reads.pure _)
    refine Reads.bind hfind (Reads.sees_bind (sees_leaf hfirst) ?_)
    rintro _ ⟨page, rfl, hnode, -⟩
    rw [show Leaf.count { id := PageId.root, page } = 1 from hnode.count_eq]
    exact Reads.pure _
  have hnext : Reads (advanced 1) H (.ok ⟨id, 0, false⟩) :=
    Reads.bind hstart (reads_advance hfirst 0)
  have hback : Reads (advanced 2) H (.ok ⟨id, 0, false⟩) := by
    have hadvance := reads_advance hsecond 0
    rw [if_neg (by omega)] at hadvance
    exact Reads.bind hnext hadvance
  obtain ⟨middle, hrun, -⟩ := hnext _ hgives pager ⟨hp, rfl⟩
  obtain ⟨after, hrun', -⟩ := hback _ hgives pager ⟨hp, rfl⟩
  exact ⟨1, 2, _, middle, after, Nat.lt_succ_self 1, ⟨hrun, rfl⟩, ⟨hrun', rfl⟩⟩

/-- There are files that can be opened and whose cursors go round in a circle. -/
theorem exists_circling_file :
    ∃ file pager, openAt (.file file) = .ok pager ∧ Circles pager := by
  let entry (key : UInt32) : Entry := ⟨key, List.replicate Leaf.valueSize 0⟩
  have hvalue (key : UInt32) (e : Entry) (he : e ∈ [entry key]) :
      e.value.length = Leaf.valueSize := by
    rw [List.mem_singleton.mp he]
    exact List.length_replicate
  obtain ⟨first, hfirst⟩ := Leaf.exists_page true (some ⟨1⟩) [entry 5] PageId.root (by decide)
    (by decide) (hvalue 5)
  obtain ⟨second, hsecond⟩ := Leaf.exists_page false (some ⟨1⟩) [entry 7] PageId.root (by decide)
    (by decide) (hvalue 7)
  let heap : Heap := [(PageId.root, ⟨some (.leaf true (some ⟨1⟩) [entry 5]), PageId.root⟩),
    (⟨1⟩, ⟨some (.leaf false (some ⟨1⟩) [entry 7]), PageId.root⟩)]
  have hpages : ∀ x ∈ heap, ∃ page : Page, reading page = x.2 :=
    List.forall_mem_cons.mpr ⟨⟨first, hfirst⟩, List.forall_mem_singleton.mpr ⟨second, hsecond⟩⟩
  obtain ⟨file, pager, hopen, hholds, -⟩ :=
    exists_openAt_heap (n := 2) (by decide) rfl hpages List.mem_cons_self
  have hindex (x : PageId × Reading) (hx : x ∈ heap) : x.1.index < maxPages :=
    Nat.lt_of_lt_of_le (hholds.shows x hx).1 hholds.view_numPages_le
  exact ⟨file, pager, hopen, circles_of_loop hholds.coherent hholds.shows hindex
    List.mem_cons_self (List.mem_cons_of_mem _ List.mem_cons_self) (Nat.le_refl 1)⟩

end Tree
end RowStore
