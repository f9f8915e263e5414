/-
  RowStore/Proofs/Tree/EndFlag.lean
  =================================
  **When a cursor is at its end.**  A cursor should be at its end when nothing is ahead of it.
  So it is left by the start of a scan, which looks how many cells the leaf has, and by every
  move.  A search does not look.  Behind the greatest key, and in an empty tree, it leaves a
  cursor that shows nothing and is not at its end, and who reads on until the end meets a
  cell there that the leaf does not have.  One move sets this right.
-/
import RowStore.Proofs.Tree.Operations
import RowStore.Proofs.Tree.Range

namespace RowStore

namespace Tree

/-! ## What a cursor shows -/

theorem visits_value (K : Heap) : Visits Cursor.value Entry.value K :=
  fun _ _ _ _ _ _ _ h hentry => reads_value h hentry false

namespace Facing

variable {K : Heap} {cursor : Cursor} {ahead : List Entry}

/-- The first entry ahead is the one under the cursor. -/
theorem reads_key (h : Facing K cursor ahead) :
    Reads cursor.key K (.ok (ahead.head?.map Entry.key)) := by
  cases h with
  | @inside _ _ cell hrow hcell =>
    obtain ⟨b, p, hpage⟩ := hrow.page
    have hkey := Tree.reads_key hpage cell false
    rw [List.getElem?_eq_getElem hcell] at hkey
    rw [drop_append_eq_cons hcell]
    exact hkey
  | @behind _ cell hrow hcell atEnd =>
    obtain ⟨b, p, hpage⟩ := hrow.page
    have hkey := Tree.reads_key hpage cell atEnd
    rwa [List.getElem?_eq_none hcell] at hkey

/-- Where nothing is ahead there is no value. -/
theorem reads_value_nil (h : Facing K cursor ahead) (hnil : ahead = []) : ∃ count ≤ cursor.cell,
    Reads cursor.value K (.error (.error (.cellOutOfRange cursor.page cursor.cell count))) := by
  cases h with
  | inside hrow hcell =>
    rw [drop_append_eq_cons hcell] at hnil
    cases hnil
  | behind hrow hcell atEnd =>
    obtain ⟨b, p, hpage⟩ := hrow.page
    exact ⟨_, hcell, reads_value_of_le hpage hcell atEnd⟩

end Facing

/-! ## Many moves -/

/-- The cursor that a step gives, moved on `n` times. -/
def moved (place : PagerM Cursor) : Nat → PagerM Cursor
  | 0 => place
  | n + 1 => do (← moved place n).advance

namespace Facing

variable {K : Heap} {cursor : Cursor} {ahead : List Entry} {places : Nat}

/-- After `n` moves `n` entries are gone.  From the first move on, the cursor is at its end if
    nothing is ahead; before it, this depends on who has placed the cursor. -/
theorem reads_moved {place : PagerM Cursor} (hplace : Reads place K (.ok cursor))
    (h : Facing K cursor ahead) (n : Nat) : ∃ next,
      Reads (moved place n) K (.ok next) ∧ Facing K next (ahead.drop n) ∧
      (next.atEnd = true ↔ ahead.drop n = [] ∧ (n = 0 → cursor.atEnd = true)) := by
  induction n with
  | zero =>
    refine ⟨cursor, hplace, h, fun hend => ⟨h.eq_nil_of_atEnd hend, fun _ => hend⟩, ?_⟩
    exact fun hahead => hahead.2 rfl
  | succ n ih =>
    obtain ⟨middle, hmoved, hmiddle, -⟩ := ih
    obtain ⟨next, hnext, hface, hend⟩ := hmiddle.reads_advance
    rw [List.tail_drop] at hface hend
    exact ⟨next, Reads.bind hmoved hnext, hface,
      hend.trans ⟨fun hnil => ⟨hnil, nofun⟩, fun hahead => hahead.1⟩⟩

/-- Reading on from a cursor that is not at its end, though nothing is ahead. -/
theorem reads_scanWithin_nil (h : Facing K cursor ahead) (hnil : ahead = [])
    (hend : cursor.atEnd = false) : ∃ count ≤ cursor.cell,
      Reads (scanWithin Cursor.value (places + 1) cursor) K
        (.error (.error (.cellOutOfRange cursor.page cursor.cell count))) := by
  obtain ⟨count, hcount, hvalue⟩ := h.reads_value_nil hnil
  refine ⟨count, hcount, ?_⟩
  rw [scanWithin, if_neg (Bool.eq_false_iff.mp hend)]
  exact Reads.bind_error hvalue

end Facing

/-! ## The flag -/

/-- What a pager has for who holds a cursor and has the entries `ahead` of it. -/
structure Offers (pager : Pager) (cursor : Cursor) (ahead : List Entry) : Prop where
  key : ∃ later, cursor.key.run pager = .ok (ahead.head?.map Entry.key) later
  value : ∀ entry ∈ ahead.head?, ∃ later, cursor.value.run pager = .ok entry.value later
  noValue : ahead = [] → ∃ count ≤ cursor.cell, ∃ later, cursor.value.run pager =
    .error (.error (.cellOutOfRange cursor.page cursor.cell count)) later
  /-- All values from here on, for a reader who looks at the flag before each one. -/
  values : (ahead = [] → cursor.atEnd = true) → ∃ later,
    (scanWithin Cursor.value maxPlaces cursor).run pager = .ok (ahead.map Entry.value) later
  overrun : ahead = [] → cursor.atEnd = false → ∃ count ≤ cursor.cell, ∃ later,
    (scanWithin Cursor.value maxPlaces cursor).run pager =
      .error (.error (.cellOutOfRange cursor.page cursor.cell count)) later

section Stored

variable {H : Nat} {t : Subtree H} {pager : Pager} {q : PageId} {cursor : Cursor}
variable {ahead : List Entry}

theorem Facing.offers (h : Facing (t.heap true q) cursor ahead) (hstores : pager.Stores t q)
    (hplaces : ahead.length ≤ maxPlaces) : Offers pager cursor ahead where
  key := by
    obtain ⟨later, hrun, -⟩ := hstores.run_reads h.reads_key
    exact ⟨later, hrun⟩
  value := by
    intro entry hentry
    obtain ⟨later, hrun, -⟩ := hstores.run_reads (h.reads_visit (visits_value _) hentry)
    exact ⟨later, hrun⟩
  noValue := by
    intro hnil
    obtain ⟨count, hcount, hvalue⟩ := h.reads_value_nil hnil
    obtain ⟨later, hrun, -⟩ := hstores.run_reads hvalue
    exact ⟨count, hcount, later, hrun⟩
  values := by
    intro hend
    obtain ⟨later, hrun, -⟩ := hstores.run_reads (h.reads_scanWithin (visits_value _) hend hplaces)
    exact ⟨later, hrun⟩
  overrun := by
    intro hnil hend
    obtain ⟨count, hcount, hscan⟩ := h.reads_scanWithin_nil hnil hend
    obtain ⟨later, hrun, -⟩ := hstores.run_reads hscan
    exact ⟨count, hcount, later, hrun⟩

/-- A cursor that was placed before some entries, and what it shows after `n` moves. -/
theorem exists_moved {place : PagerM Cursor} (hstores : pager.Stores t q)
    (hplace : Reads place (t.heap true q) (.ok cursor)) (h : Facing (t.heap true q) cursor ahead)
    (hplaces : ahead.length ≤ maxPlaces) (n : Nat) : ∃ next after,
      (moved place n).run pager = .ok next after ∧
      (next.atEnd = true ↔ ahead.drop n = [] ∧ (n = 0 → cursor.atEnd = true)) ∧
      Offers after next (ahead.drop n) := by
  obtain ⟨next, hmoved, hface, hend⟩ := h.reads_moved hplace n
  obtain ⟨after, hrun, hcoherent, hview⟩ := hstores.run_reads hmoved
  have hlen : (ahead.drop n).length ≤ maxPlaces :=
    Nat.le_trans (List.length_drop ▸ Nat.sub_le _ _) hplaces
  exact ⟨next, after, hrun, hend, hface.offers (hstores.of_view hcoherent hview) hlen⟩

end Stored

/-- **A cursor knows its end, but not behind a search.**  In a session there is one list of all
    entries, in ascending order and each with its value.  From the start of a scan, or from
    the place of a key that need not be there, any number of moves leads without an error to
    a cursor with the rest of the entries ahead.  It is at its end just if it shows no key,
    and then all values can be read from it on, by looking at the flag alone.

    This fails in one case: nothing is ahead of a search, and the cursor has not been moved
    since.  It is not at its end then, and reading a value is an error. -/
theorem atEnd_iff_nothing_ahead {pager : Pager} {M : Contents} (h : Reached pager M) :
    ∃ all : List Entry, (all.map Entry.key).Pairwise (· < ·) ∧
      (∀ e, e ∈ all ↔ M e.key = some e.value) ∧
      (∀ n, ∃ cursor after, (moved start n).run pager = .ok cursor after ∧
        (cursor.atEnd = true ↔ all.drop n = []) ∧ Offers after cursor (all.drop n)) ∧
      ∀ key n, ∃ cursor after, (moved (findKey key) n).run pager = .ok cursor after ∧
        (cursor.atEnd = true ↔ (entriesFrom key all).drop n = [] ∧ n ≠ 0) ∧
        Offers after cursor ((entriesFrom key all).drop n) := by
  obtain ⟨H, t, q, hstores, hcontents⟩ := h.exists_stores
  have hs := hstores.sound
  have hH := hstores.height_lt
  have hplaces := length_entries_le_maxPlaces hs.formed hstores.length_leaves_le
  refine ⟨t.leaves.entries, hs.ascending, fun e => ?_, fun n => ?_, fun key n => ?_⟩
  · rw [hcontents]
    exact mem_iff_lookup hs.ascending e
  · obtain ⟨place, id, next, a, b, hl⟩ := exists_locates hs 0
    obtain ⟨hbefore, rfl⟩ := hl.of_zero
    have hentries : t.leaves.entries = b ++ place.after.entries := by
      rw [hl.entries_eq, hbefore]
      rfl
    have hend : decide (b.length = 0) = true → b = [] :=
      fun h => List.eq_nil_of_length_eq_zero (of_decide_eq_true h)
    rw [hentries] at hplaces ⊢
    obtain ⟨cursor, after, hrun, hflag, hoffers⟩ :=
      exists_moved hstores (hl.reads_start hs hH q) (hl.facing hs q hend) hplaces n
    refine ⟨cursor, after, hrun, hflag.trans ⟨And.left, fun hnil => ⟨hnil, fun hn => ?_⟩⟩, hoffers⟩
    rw [hn, List.drop_zero, List.append_eq_nil_iff] at hnil
    exact decide_eq_true (List.length_eq_zero_iff.mpr hnil.1)
  · obtain ⟨place, id, next, a, b, hl⟩ := exists_locates hs key
    have hlen : (entriesFrom key t.leaves.entries).length ≤ maxPlaces :=
      Nat.le_trans (List.length_filter_le ..) hplaces
    rw [hl.entriesFrom_eq] at hlen ⊢
    obtain ⟨cursor, after, hrun, hend, hoffers⟩ :=
      exists_moved hstores (hl.reads_findKey hs hH q) (hl.facing hs q nofun) hlen n
    refine ⟨cursor, after, hrun, hend.trans ?_, hoffers⟩
    exact and_congr_right fun _ => ⟨fun hn h => Bool.false_ne_true (hn h), fun hn h => absurd h hn⟩

/-- A search behind both keys, before and after a move, and two moves from the start. -/
theorem atEnd_iff_nothing_ahead_two : ∃ (pager : Pager) (low high : Entry),
    low.key = 5 ∧ high.key = 9 ∧ Reached pager (lookup [low, high]) ∧
    (∃ cursor after, (findKey 10).run pager = .ok cursor after ∧ cursor.atEnd = false ∧
      (∃ later, cursor.key.run after = .ok none later) ∧
      ∃ count ≤ cursor.cell, ∃ later, (scanWithin Cursor.value maxPlaces cursor).run after =
        .error (.error (.cellOutOfRange cursor.page cursor.cell count)) later) ∧
    (∃ cursor after, (moved (findKey 10) 1).run pager = .ok cursor after ∧ cursor.atEnd = true) ∧
    ∃ cursor after, (moved start 2).run pager = .ok cursor after ∧ cursor.atEnd = true ∧
      ∃ later, cursor.key.run after = .ok none later := by
  let low : Entry := { key := 5, value := List.replicate Leaf.valueSize 0 }
  let high : Entry := { key := 9, value := List.replicate Leaf.valueSize 1 }
  have hascending : ([low, high].map Entry.key).Pairwise (· < ·) := by decide
  obtain ⟨pager, -, hreached, -⟩ := exists_reached_leaf (show [low, high].length ≤ _ by decide)
    hascending (by simp [low, high])
  obtain ⟨all, hkeys, hmem, hstart, hfind⟩ := atEnd_iff_nothing_ahead hreached
  obtain rfl : all = [low, high] := eq_of_mem_iff hkeys hascending fun e =>
    (hmem e).trans (mem_iff_lookup hascending e).symm
  have hnone : entriesFrom 10 [low, high] = [] := by decide
  obtain ⟨found, after, hfound, hgoes, hoffers⟩ := hfind 10 0
  obtain ⟨next, _, hnext, hends, -⟩ := hfind 10 1
  obtain ⟨last, later, hlast, hlasts, hnothing⟩ := hstart 2
  rw [hnone] at hgoes hoffers hends
  have hflag : found.atEnd = false := Bool.eq_false_iff.mpr fun h => (hgoes.mp h).2 rfl
  exact ⟨pager, low, high, rfl, rfl, hreached,
    ⟨found, after, hfound, hflag, hoffers.key, hoffers.overrun rfl hflag⟩,
    ⟨next, _, hnext, hends.mpr ⟨rfl, by decide⟩⟩,
    ⟨last, later, hlast, hlasts.mpr rfl, hnothing.key⟩⟩

end Tree
end RowStore
