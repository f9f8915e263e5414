/-
  RowStore/Proofs/Pager/Tally.lean
  ================================
  **What the counters count.**  The counters are raised in four places, each time by one: for a
  page that is found in memory, for one that is not, for one that is read, for one that is
  written.  What they say of a pager that has been in use for a while follows from its history:
  the requests that were made of it, in order, each with the number of pages that there were
  at that time (`Asked`), and the number of pages that it wrote.

  Every request is a hit or a miss.  A page that is missed is in memory from then on, and
  nothing ever leaves, so the misses are the pages in memory.  A page is read from the file if
  there was such a page when it was first asked for, and made if not.  `Tallied` says so of one
  moment, each call keeps it, and hence so does every run.

  All this holds as long as the file can be read.  Who else writes to the file in the meantime
  does not matter: no counter depends on what is in it.
-/
import RowStore.Proofs.Pager.Length

namespace RowStore

namespace Counters

theorem add_read (c : Counters) : c + .read = { c with reads := c.reads + 1 } := by
  change Counters.mk (c.hits + 0) (c.misses + 0) (c.reads + 1) (c.writes + 0) = _
  simp only [UInt64.add_zero]

theorem add_write (c : Counters) : c + .write = { c with writes := c.writes + 1 } := by
  change Counters.mk (c.hits + 0) (c.misses + 0) (c.reads + 0) (c.writes + 1) = _
  simp only [UInt64.add_zero]

end Counters

namespace Pager

variable {pager middle after : Pager} {id : PageId} {page : Page} {failure : Failure}

/-! ## Histories -/

/-- A request for a page, and how many pages there were when it was made. -/
structure Asked where
  id : PageId
  numPages : Nat
deriving DecidableEq

/-- Numbers that no store has are not counted. -/
def asks (id : PageId) (pager : Pager) : List Asked :=
  if id.index < maxPages then [⟨id, pager.numPages⟩] else []

/-- The requests that a call makes.  The second page of a pair is asked for when the first one
    was granted. -/
def Call.asked (pager : Pager) : Call → List Asked
  | .request id _ => asks id pager
  | .requestPair a b _ =>
    if a = b then []
    else asks a pager ++
      match (Pager.request a).run pager with
      | .ok _ middle => asks b middle
      | .error _ _ => []
  | .allocate => if pager.numPages < maxPages then asks pager.unusedPage pager else []
  | .flush _ _ | .flushAll => []

/-- How many pages a call writes. -/
def Call.written (pager : Pager) : Call → Nat
  | .flush id size =>
    match (Pager.flush id size).run pager with
    | .ok _ _ => 1
    | .error _ _ => 0
  | .flushAll => pager.loaded.length
  | _ => 0

/-- The page was there when it was asked for first. -/
def backed (asked : List Asked) (i : Nat) : Bool :=
  (asked.find? fun request => request.id = PageId.ofNat i).any fun request => i < request.numPages

/-- What has become of a pager that has been asked for these pages, and has written so many. -/
structure Tallied (pager : Pager) (asked : List Asked) (written : Nat) : Prop where
  numPages_lt : pager.numPages < 4294967296
  loaded_iff : ∀ id, pager.isLoaded id = true ↔ id ∈ asked.map Asked.id
  requests : pager.counters.hits + pager.counters.misses = .ofNat asked.length
  misses : pager.counters.misses = .ofNat pager.loaded.length
  reads : pager.counters.reads = .ofNat (pager.loaded.filter (backed asked)).length
  writes : pager.counters.writes = .ofNat written

/-! ## Pages in memory -/

theorem mem_loaded_iff {i : Nat} :
    i ∈ pager.loaded ↔ i < maxPages ∧ pager.isLoaded (PageId.ofNat i) = true := by
  rw [loaded, List.mem_filter, List.mem_range]

theorem nodup_loaded (pager : Pager) : pager.loaded.Nodup := List.nodup_range.filter _

theorem loaded_congr (h : ∀ id, after.isLoaded id = pager.isLoaded id) :
    after.loaded = pager.loaded := by
  simp only [loaded, h]

/-- A page that has come into memory is one more. -/
theorem loaded_perm (hmax : id.index < maxPages) (hslot : pager.slot id = none)
    (hafter : ∀ {other : PageId}, after.isLoaded other = true ↔
      other = id ∨ pager.isLoaded other = true) :
    after.loaded.Perm (id.index :: pager.loaded) := by
  have hnew : id.index ∉ pager.loaded := by
    rw [mem_loaded_iff, PageId.ofNat_index, isLoaded, hslot]
    exact fun h => Bool.false_ne_true h.2
  refine (List.perm_ext_iff_of_nodup (nodup_loaded after)
    (List.nodup_cons.mpr ⟨hnew, nodup_loaded pager⟩)).mpr fun i => ?_
  have hid : i < maxPages → (PageId.ofNat i = id ↔ i = id.index) := by
    intro hi
    have hindex : (PageId.ofNat i).index = i := PageId.index_ofNat (Nat.lt_trans hi (by decide))
    exact ⟨fun h => h ▸ hindex.symm, fun h => PageId.ext_index (hindex.trans h)⟩
  rw [List.mem_cons, mem_loaded_iff, mem_loaded_iff, hafter]
  constructor
  · rintro ⟨hi, h | h⟩
    · exact .inl ((hid hi).mp h)
    · exact .inr ⟨hi, h⟩
  · rintro (rfl | ⟨hi, h⟩)
    · exact ⟨hmax, .inl (PageId.ofNat_index id)⟩
    · exact ⟨hi, .inr h⟩

/-! ## Endings -/

/-- Of two steps in a row the first one fails, or the second one decides. -/
theorem outcome_of_bind {α β : Type} {m : PagerM α} {f : α → PagerM β} {r : Except Failure β}
    (hrun : (m >>= f).run pager = outcome r after) :
    (∃ failure, r = .error failure ∧ m.run pager = .error failure after) ∨
      ∃ a middle, m.run pager = .ok a middle ∧ (f a).run middle = outcome r after := by
  cases hfirst : m.run pager with
  | error failure middle =>
    rw [bind_run_error hfirst] at hrun
    obtain ⟨rfl, rfl⟩ := outcome_inj (r := .error failure) hrun
    exact .inl ⟨failure, rfl, rfl⟩
  | ok a middle =>
    rw [bind_run hfirst] at hrun
    exact .inr ⟨a, middle, rfl, hrun⟩

/-- This is not a failure of the file. -/
def NotIo {α : Type} (r : Except Failure α) : Prop := ∀ cause, r ≠ .error (.error (.io cause))

theorem notIo_ok {α : Type} (a : α) : NotIo (.ok a) := nofun

theorem NotIo.error {α β : Type} (h : NotIo (.error failure : Except Failure α)) :
    NotIo (.error failure : Except Failure β) := by
  intro cause hfailure
  cases hfailure
  exact h cause rfl

/-! ## Requests -/

section Backed

variable {asked more : List Asked} {i n : Nat}

/-- What is asked for again has been backed from the start, or not. -/
theorem backed_append_of_mem (h : PageId.ofNat i ∈ asked.map Asked.id) :
    backed (asked ++ more) i = backed asked i := by
  obtain ⟨request, hrequest, hid⟩ := List.mem_map.mp h
  have hfound : (asked.find? fun request => request.id = PageId.ofNat i).isSome = true :=
    List.find?_isSome.mpr ⟨request, hrequest, decide_eq_true hid⟩
  rw [backed, List.find?_append, Option.or_of_isSome hfound, backed]

theorem backed_append_of_notMem (h : id ∉ asked.map Asked.id) :
    backed (asked ++ [⟨id, n⟩]) id.index = decide (id.index < n) := by
  have hnone : (asked.find? fun request => request.id = id) = none :=
    List.find?_eq_none.mpr fun request hrequest hid =>
      h (List.mem_map.mpr ⟨request, hrequest, of_decide_eq_true hid⟩)
  rw [backed, PageId.ofNat_index, List.find?_append, hnone]
  simp

end Backed

theorem counters_of_load (h : (load id).run pager = .ok page after) : after.counters =
    if id.index < pager.numPages then pager.counters + .read else pager.counters := by
  rw [load] at h
  simp only [get_bind_run] at h
  split at h
  · rename_i hid
    split at h
    · cases h
    · obtain ⟨-, rfl⟩ := EStateM.Result.ok.inj h
      rw [if_pos hid]
  · rename_i hid
    obtain ⟨-, rfl⟩ := EStateM.Result.ok.inj h
    rw [if_neg hid]

/-- A request that is granted is counted as a hit, or as a miss and a read, or as a miss. -/
theorem counters_of_request (h : (request id).run pager = .ok page after) : after.counters =
    if pager.isLoaded id then pager.counters + .hit
    else if id.index < pager.numPages then pager.counters + .miss + .read
    else pager.counters + .miss := by
  have hmax := index_lt_of_slot (request_ok h).2
  rw [isLoaded]
  cases hslot : pager.slot id with
  | some there =>
    rw [request_of_slot hmax hslot] at h
    cases h
    rfl
  | none =>
    rw [request_of_not_loaded hmax hslot] at h
    obtain ⟨found, middle, hload, h⟩ := exists_of_bind_run h
    cases h
    exact counters_of_load hload

namespace Tallied

variable {asked : List Asked} {written : Nat}

/-- Nothing is asked for, and nothing is written. -/
theorem of_same (h : Tallied pager asked written)
    (hloaded : ∀ id, after.isLoaded id = pager.isLoaded id)
    (hnum : after.numPages = pager.numPages) (hcounters : after.counters = pager.counters) :
    Tallied after asked written where
  numPages_lt := hnum ▸ h.numPages_lt
  loaded_iff id := hloaded id ▸ h.loaded_iff id
  requests := hcounters ▸ h.requests
  misses := by rw [hcounters, loaded_congr hloaded, h.misses]
  reads := by rw [hcounters, loaded_congr hloaded, h.reads]
  writes := hcounters ▸ h.writes

/-- What is asked for later makes no difference to the pages in memory. -/
theorem filter_backed (h : Tallied pager asked written) (more : List Asked) :
    pager.loaded.filter (backed (asked ++ more)) = pager.loaded.filter (backed asked) :=
  List.filter_congr fun _ hi =>
    backed_append_of_mem ((h.loaded_iff _).mp (mem_loaded_iff.mp hi).2)

/-- A page that is asked for again. -/
theorem found (h : Tallied pager asked written) (hloaded : pager.isLoaded id = true) :
    Tallied { pager with counters := pager.counters + .hit }
      (asked ++ [⟨id, pager.numPages⟩]) written := by
  rw [Counters.add_hit]
  refine ⟨h.numPages_lt, fun other => ?_, ?_, h.misses, ?_, h.writes⟩
  · rw [List.map_append, List.mem_append, ← h.loaded_iff other]
    constructor
    · exact .inl
    · rintro (hother | hother)
      · exact hother
      · cases List.mem_singleton.mp hother
        exact hloaded
  · rw [List.length_append, UInt64.ofNat_add, ← h.requests]
    change pager.counters.hits + 1 + pager.counters.misses = _ + 1
    rw [UInt64.add_assoc, UInt64.add_comm 1, ← UInt64.add_assoc]
  · change pager.counters.reads = .ofNat (pager.loaded.filter _).length
    rw [h.filter_backed, h.reads]

/-- A page that is asked for the first time. -/
theorem missed (h : Tallied pager asked written) (hmax : id.index < maxPages)
    (hslot : pager.slot id = none) {counters : Counters}
    (hhits : counters.hits = pager.counters.hits)
    (hmisses : counters.misses = pager.counters.misses + 1)
    (hreads : counters.reads =
      pager.counters.reads + .ofNat (if id.index < pager.numPages then 1 else 0))
    (hwrites : counters.writes = pager.counters.writes) :
    Tallied { pager.loading id with counters } (asked ++ [⟨id, pager.numPages⟩]) written := by
  have hnew : id ∉ asked.map Asked.id := by
    rw [← h.loaded_iff, isLoaded, hslot]
    exact Bool.false_ne_true
  have hloaded {other : PageId} : isLoaded { pager.loading id with counters } other = true ↔
      other = id ∨ pager.isLoaded other = true := isLoaded_setSlot pager rfl hmax
  have hperm := loaded_perm hmax hslot hloaded
  refine ⟨?_, fun other => ?_, ?_, ?_, ?_, hwrites.trans h.writes⟩
  · exact Nat.max_lt.mpr ⟨h.numPages_lt, Nat.lt_of_le_of_lt hmax (by decide)⟩
  · rw [hloaded, List.map_append, List.mem_append, ← h.loaded_iff other, List.map_singleton,
      List.mem_singleton, or_comm]
  · rw [hhits, hmisses, List.length_append, UInt64.ofNat_add, ← h.requests, UInt64.add_assoc]
    rfl
  · rw [hmisses, hperm.length_eq, List.length_cons, UInt64.ofNat_add, ← h.misses]
    rfl
  · have hfirst := backed_append_of_notMem (n := pager.numPages) hnew
    rw [hreads, h.reads, ← UInt64.ofNat_add, (hperm.filter _).length_eq]
    by_cases hid : id.index < pager.numPages
    · have hpos : backed (asked ++ [⟨id, pager.numPages⟩]) id.index = true := by
        rw [hfirst, decide_eq_true hid]
      rw [List.filter_cons_of_pos hpos, h.filter_backed, if_pos hid, List.length_cons]
    · have hneg : ¬backed (asked ++ [⟨id, pager.numPages⟩]) id.index = true := by
        rw [hfirst, decide_eq_true_eq]
        exact hid
      rw [List.filter_cons_of_neg hneg, h.filter_backed, if_neg hid, Nat.add_zero]

/-- One request that is granted. -/
theorem request (h : Tallied pager asked written)
    (hrun : (Pager.request id).run pager = .ok page after) :
    Tallied after (asked ++ [⟨id, pager.numPages⟩]) written := by
  have hcounters := counters_of_request hrun
  cases requested (r := .ok page) hrun with
  | found counters hslot =>
    have hloaded : pager.isLoaded id = true := isLoaded_iff.mpr ⟨page, hslot⟩
    rw [if_pos hloaded] at hcounters
    obtain rfl : counters = _ := hcounters
    exact h.found hloaded
  | loaded counters hmax hslot =>
    have hnew : ¬pager.isLoaded id = true := by
      rw [isLoaded, hslot]
      exact Bool.false_ne_true
    rw [if_neg hnew] at hcounters
    by_cases hid : id.index < pager.numPages
    · rw [if_pos hid, Counters.add_read, Counters.add_miss] at hcounters
      obtain rfl : counters = _ := hcounters
      exact h.missed hmax hslot rfl rfl (by rw [if_pos hid]; rfl) rfl
    · rw [if_neg hid, Counters.add_miss] at hcounters
      obtain rfl : counters = _ := hcounters
      exact h.missed hmax hslot rfl rfl (by rw [if_neg hid]; exact (UInt64.add_zero _).symm) rfl

/-- A request that does not fail for want of the file. -/
theorem outcome_request (h : Tallied pager asked written) {r : Except Failure Page}
    (hrun : (Pager.request id).run pager = outcome r after) (hio : NotIo r) :
    Tallied after (asked ++ asks id pager) written := by
  cases r with
  | ok page =>
    have hmax := index_lt_of_slot (request_ok hrun).2
    rw [asks, if_pos hmax]
    exact h.request hrun
  | error failure =>
    cases request_error hrun with
    | outOfBounds hmax =>
      rw [asks, if_neg (Nat.not_lt.mpr hmax), List.append_nil]
      exact h
    | unreadable => exact absurd rfl (hio .endOfFile)

/-- Writing into a page in memory. -/
theorem store (h : Tallied pager asked written) (hloaded : pager.isLoaded id = true)
    (page : Page) (hrun : (Pager.store id page).run pager = .ok () after) :
    Tallied after asked written := by
  have hslot := slot_store hrun (index_lt_of_isLoaded hloaded)
  cases hrun
  refine h.of_same (fun other => ?_) rfl rfl
  rw [isLoaded, hslot]
  split
  · rename_i he
    rw [he, hloaded]
    rfl
  · rfl

/-- Writing a page to the file. -/
theorem wrote (h : Tallied pager asked written) (id : PageId) (page : Page) (size : Nat) :
    Tallied (pager.wrote id page size) asked (written + 1) := by
  have hcounters : (pager.wrote id page size).counters = _ := Counters.add_write pager.counters
  refine ⟨h.numPages_lt, h.loaded_iff, ?_, ?_, ?_, ?_⟩
  · rw [hcounters]
    exact h.requests
  · rw [hcounters]
    exact h.misses
  · rw [hcounters]
    exact h.reads
  · rw [hcounters, UInt64.ofNat_add, ← h.writes]
    rfl

/-- Writing all of some pages that are in memory. -/
theorem flushList (h : Tallied pager asked written) (l : List Nat) :
    ∃ after : Pager, (l.forM fun i => do
        if (← get).isLoaded (PageId.ofNat i) then Pager.flush (PageId.ofNat i) pageSize
        : PagerM Unit).run pager = .ok () after ∧
      Tallied after asked
        (written + (l.filter fun i => pager.isLoaded (PageId.ofNat i)).length) := by
  induction l generalizing pager written with
  | nil => exact ⟨pager, rfl, h⟩
  | cons i rest ih =>
    by_cases hid : pager.isLoaded (PageId.ofNat i) = true
    · obtain ⟨page, hslot⟩ := isLoaded_iff.mp hid
      obtain ⟨after, hrun, hafter⟩ := ih (h.wrote (PageId.ofNat i) page pageSize)
      refine ⟨after, (bind_run (a := ()) ?_).trans hrun, ?_⟩
      · rw [get_bind_run, if_pos hid]
        exact run_flush_of_slot (Nat.le_refl pageSize) hslot
      · rw [List.filter_cons, if_pos hid, List.length_cons, Nat.add_comm _ 1, ← Nat.add_assoc]
        exact hafter
    · obtain ⟨after, hrun, hafter⟩ := ih h
      refine ⟨after, (bind_run (a := ()) ?_).trans hrun, ?_⟩
      · rw [get_bind_run, if_neg hid]
        rfl
      · rw [List.filter_cons, if_neg hid]
        exact hafter

/-! ## Calls -/

theorem call_request {write : Page → Page} (h : Tallied pager asked written)
    {r : Except Failure Unit} (hrun : (Call.request id write).run.run pager = outcome r after)
    (hio : NotIo r) : Tallied after (asked ++ asks id pager) written := by
  obtain ⟨failure, rfl, hfirst⟩ | ⟨page, middle, hfirst, hstore⟩ := outcome_of_bind hrun
  · exact h.outcome_request (r := .error failure) hfirst hio.error
  · have hmiddle := h.outcome_request (r := .ok page) hfirst (notIo_ok page)
    have hloaded : middle.isLoaded id = true := isLoaded_iff.mpr ⟨page, (request_ok hfirst).2⟩
    obtain ⟨-, rfl⟩ := outcome_inj (r := .ok ()) hstore
    exact hmiddle.store hloaded (write page) rfl

/-- A pair, and what is in memory when it is granted. -/
theorem outcome_requestPair {a b : PageId} (h : Tallied pager asked written)
    {r : Except Failure (Page × Page)} (hrun : (Pager.requestPair a b).run pager = outcome r after)
    (hio : NotIo r) (write : Page × Page → Page × Page) :
    Tallied after (asked ++ (Call.requestPair a b write).asked pager) written ∧
      ∀ pages, r = .ok pages → after.isLoaded a = true ∧ after.isLoaded b = true := by
  rw [requestPair_eq] at hrun
  rw [Call.asked]
  split at hrun
  · rename_i hab
    obtain ⟨rfl, rfl⟩ := outcome_inj (r := .error (.error (.corrupted (.samePair a)))) hrun
    rw [if_pos hab, List.append_nil]
    exact ⟨h, nofun⟩
  · rename_i hab
    rw [if_neg hab]
    obtain ⟨failure, rfl, hfirst⟩ | ⟨pageA, middle, hfirst, hrest⟩ := outcome_of_bind hrun
    · rw [hfirst, List.append_nil]
      exact ⟨h.outcome_request (r := .error failure) hfirst hio.error, nofun⟩
    · have hmiddle := h.outcome_request (r := .ok pageA) hfirst (notIo_ok pageA)
      rw [hfirst, ← List.append_assoc]
      obtain ⟨failure, rfl, hsecond⟩ | ⟨pageB, last, hsecond, hdone⟩ := outcome_of_bind hrest
      · exact ⟨hmiddle.outcome_request (r := .error failure) hsecond hio.error, nofun⟩
      · obtain ⟨rfl, rfl⟩ := outcome_inj (r := .ok (pageA, pageB)) hdone
        obtain ⟨hretains, hslotB⟩ := request_ok hsecond
        have hslotA := hretains a pageA (request_ok hfirst).2
        exact ⟨hmiddle.outcome_request (r := .ok pageB) hsecond (notIo_ok pageB),
          fun _ _ => ⟨isLoaded_iff.mpr ⟨_, hslotA⟩, isLoaded_iff.mpr ⟨_, hslotB⟩⟩⟩

theorem allocate (h : Tallied pager asked written) {r : Except Failure PageId}
    (hrun : Pager.allocate.run pager = outcome r after) (hio : NotIo r) :
    Tallied after (asked ++ Call.allocate.asked pager) written := by
  have hindex : pager.unusedPage.index = pager.numPages := PageId.index_ofNat h.numPages_lt
  rw [Pager.allocate, get_bind_run] at hrun
  rw [Call.asked]
  dsimp only at hrun
  split at hrun
  · rename_i hfull
    obtain ⟨-, rfl⟩ := outcome_inj (r := .error (.error .tableFull)) hrun
    rw [if_neg (by omega), List.append_nil]
    exact h
  · rename_i hfree
    rw [if_pos (by omega)]
    have hedit : edit pager.unusedPage (Edit.update fun _ => Bytes.zero) =
        (Call.request pager.unusedPage fun _ => Bytes.zero).run := rfl
    rw [hedit] at hrun
    obtain ⟨failure, rfl, hfirst⟩ | ⟨_, middle, hfirst, hdone⟩ := outcome_of_bind hrun
    · exact h.call_request (r := .error failure) hfirst hio.error
    · obtain ⟨-, rfl⟩ := outcome_inj (r := .ok pager.unusedPage) hdone
      exact h.call_request (r := .ok ()) hfirst (notIo_ok ())

theorem call_requestPair {a b : PageId} {write : Page × Page → Page × Page}
    (h : Tallied pager asked written) {r : Except Failure Unit}
    (hrun : (Call.requestPair a b write).run.run pager = outcome r after) (hio : NotIo r) :
    Tallied after (asked ++ (Call.requestPair a b write).asked pager) written := by
  obtain ⟨failure, rfl, hpair⟩ | ⟨pages, middle, hpair, hrest⟩ := outcome_of_bind hrun
  · exact (h.outcome_requestPair (r := .error failure) hpair hio.error write).1
  · obtain ⟨hmiddle, hloaded⟩ :=
      h.outcome_requestPair (r := .ok pages) hpair (notIo_ok pages) write
    obtain ⟨hfirst, hsecond⟩ := hloaded pages rfl
    obtain ⟨next, hstore⟩ : ∃ next,
        (Pager.store a (write pages).1).run middle = .ok () next := ⟨_, rfl⟩
    obtain ⟨last, hstore'⟩ : ∃ last,
        (Pager.store b (write pages).2).run next = .ok () last := ⟨_, rfl⟩
    obtain ⟨-, rfl⟩ := outcome_inj (r := .ok ())
      ((bind_run hstore).trans hstore' |>.symm.trans hrest)
    have hnext := hmiddle.store hfirst _ hstore
    -- The second page is still in memory: the requests have not changed.
    refine hnext.store ?_ _ hstore'
    rw [hnext.loaded_iff, ← hmiddle.loaded_iff]
    exact hsecond

theorem call_flush {size : Nat} (h : Tallied pager asked written) {r : Except Failure Unit}
    (hrun : (Pager.flush id size).run pager = outcome r after) :
    Tallied after asked (written + (Call.flush id size).written pager) := by
  cases r with
  | ok _ =>
    have hwritten : (Call.flush id size).written pager = 1 := by
      rw [Call.written, show (Pager.flush id size).run pager = .ok () after from hrun]
    obtain ⟨-, page, -, rfl⟩ := exists_slot_of_flush hrun
    rw [hwritten]
    exact h.wrote id page size
  | error failure =>
    have hwritten : (Call.flush id size).written pager = 0 := by
      rw [Call.written, show (Pager.flush id size).run pager = .error failure after from hrun]
    obtain rfl := flush_error hrun
    rw [hwritten]
    exact h

end Tallied

/-- The call does not fail because of the file. -/
def Call.NoIoError (pager : Pager) (call : Call) : Prop :=
  ∀ cause after, call.run.run pager ≠ .error (.error (.io cause)) after

/-- A call adds to the history what it asks for and writes. -/
theorem Tallied.afterCall {asked : List Asked} {written : Nat} (h : Tallied pager asked written)
    {call : Call} (hio : call.NoIoError pager) :
    Tallied (Pager.afterCall call pager) (asked ++ call.asked pager)
      (written + call.written pager) := by
  obtain ⟨r, after, hrun⟩ := exists_outcome call.run pager
  replace hio : NotIo r := by
    rintro cause rfl
    exact hio cause after hrun
  rw [afterCall_of_run hrun]
  cases call with
  | request id write => exact h.call_request hrun hio
  | requestPair a b write => exact h.call_requestPair hrun hio
  | allocate =>
    obtain ⟨failure, rfl, hfirst⟩ | ⟨id, middle, hfirst, hdone⟩ := outcome_of_bind hrun
    · exact h.allocate (r := .error failure) hfirst hio.error
    · obtain ⟨-, rfl⟩ := outcome_inj (r := .ok ()) hdone
      exact h.allocate (r := .ok id) hfirst (notIo_ok id)
  | flush id size =>
    rw [Call.asked, List.append_nil]
    exact h.call_flush hrun
  | flushAll =>
    obtain ⟨last, hrun', hlast⟩ := h.flushList (List.range maxPages)
    obtain ⟨-, rfl⟩ := outcome_inj (r := .ok ()) (hrun'.symm.trans hrun)
    rw [Call.asked, List.append_nil]
    exact hlast

/-! ## Runs -/

/-- What happens to a pager: it is called, or somebody else writes the file. -/
inductive Event where
  | call (call : Call)
  | rewritten (file : Image)

def afterEvent (pager : Pager) : Event → Pager
  | .call call => afterCall call pager
  | .rewritten file => { pager with file }

def afterEvents (events : List Event) (pager : Pager) : Pager := events.foldl afterEvent pager

namespace Event

def asked (pager : Pager) : Event → List Asked
  | call c => c.asked pager
  | rewritten _ => []

def written (pager : Pager) : Event → Nat
  | call c => c.written pager
  | rewritten _ => 0

def NoIoError (pager : Pager) : Event → Prop
  | call c => c.NoIoError pager
  | rewritten _ => True

end Event

/-- All that is asked for, in order. -/
def askedIn : List Event → Pager → List Asked
  | [], _ => []
  | event :: events, pager => event.asked pager ++ askedIn events (afterEvent pager event)

/-- How many pages are written. -/
def writtenIn : List Event → Pager → Nat
  | [], _ => 0
  | event :: events, pager => event.written pager + writtenIn events (afterEvent pager event)

/-- No call fails because of the file. -/
def NoIoErrors : List Event → Pager → Prop
  | [], _ => True
  | event :: events, pager => event.NoIoError pager ∧ NoIoErrors events (afterEvent pager event)

namespace Tallied

variable {asked : List Asked} {written : Nat}

theorem afterEvent (h : Tallied pager asked written) {event : Event}
    (hio : event.NoIoError pager) :
    Tallied (Pager.afterEvent pager event) (asked ++ event.asked pager)
      (written + event.written pager) := by
  cases event with
  | call c => exact h.afterCall hio
  | rewritten file =>
    rw [Event.asked, List.append_nil]
    exact h.of_same (fun _ => rfl) rfl rfl

theorem afterEvents (h : Tallied pager asked written) {events : List Event}
    (hio : NoIoErrors events pager) :
    Tallied (Pager.afterEvents events pager) (asked ++ askedIn events pager)
      (written + writtenIn events pager) := by
  induction events generalizing pager asked written with
  | nil =>
    rw [askedIn, writtenIn, List.append_nil]
    exact h
  | cons event events ih =>
    rw [askedIn, writtenIn, ← List.append_assoc, ← Nat.add_assoc]
    exact ih (h.afterEvent hio.1) hio.2

end Tallied

theorem tallied_ofImage (file : Image) : Tallied (ofImage file) [] 0 := by
  have hloaded : ∀ id, (ofImage file).isLoaded id = false := fun id => by
    rw [isLoaded, slot_ofImage]
    rfl
  have hnone : (ofImage file).loaded = [] :=
    List.filter_eq_nil_iff.mpr fun i _ => by rw [hloaded]; exact Bool.false_ne_true
  refine ⟨(counted_ofImage file).numPages_lt, fun id => ?_, rfl, ?_, ?_, rfl⟩
  · rw [hloaded, List.map_nil]
    exact iff_of_false Bool.false_ne_true List.not_mem_nil
  · rw [hnone]
    rfl
  · rw [hnone]
    rfl

/-- **The counters tell the history of the pager.**  After any calls of which none failed because
    of the file, hits and misses are the requests that were made, the misses are the pages in
    memory, of which those have been read that were there when they were first asked for, and
    the writes are the pages that were flushed, one by one or all together.  Counters wrap
    around at 64 bits. -/
theorem counters_tell_history {location : Location} {file : Image}
    (hfile : location.openFile = .ok file) (events : List Event) : ∃ opened last : Pager,
    openAt location = .ok opened ∧ last = afterEvents events opened ∧
    (NoIoErrors events opened →
      last.counters.hits + last.counters.misses = .ofNat (askedIn events opened).length ∧
      last.counters.misses = .ofNat last.loaded.length ∧
      last.counters.reads = .ofNat (last.loaded.filter (backed (askedIn events opened))).length ∧
      last.counters.writes = .ofNat (writtenIn events opened)) := by
  refine ⟨ofImage file, _, by rw [openAt, hfile]; rfl, rfl, fun hio => ?_⟩
  have hlast := (tallied_ofImage file).afterEvents hio
  rw [List.nil_append, Nat.zero_add] at hlast
  exact ⟨hlast.requests, hlast.misses, hlast.reads, hlast.writes⟩

/-- A pair, the second page of it again, and a pair that is refused because of its second page.
    One page is written, and somebody else writes the file. -/
def busy : List Event :=
  [.call (.requestPair ⟨2⟩ ⟨1⟩ fun pages => pages), .call (.request ⟨1⟩ fun page => page),
    .rewritten #[7], .call (.requestPair ⟨0⟩ ⟨100⟩ fun pages => pages), .call (.flush ⟨1⟩ 10)]

set_option maxRecDepth 4000 in
/-- In a new store page 2 is made, and pages 1 and 0 are there from then on. -/
theorem counters_tell_history_busy : ∃ opened last : Pager, openAt .nothing = .ok opened ∧
    last = afterEvents busy opened ∧ NoIoErrors busy opened ∧
    askedIn busy opened = [⟨⟨2⟩, 0⟩, ⟨⟨1⟩, 3⟩, ⟨⟨1⟩, 3⟩, ⟨⟨0⟩, 3⟩] ∧ last.loaded = [0, 1, 2] ∧
    last.counters.hits + last.counters.misses = 4 ∧ last.counters.misses = 3 ∧
    last.counters.reads = 2 ∧ last.counters.writes = 1 := by
  have hfile : Location.nothing.openFile = .ok #[] := rfl
  obtain ⟨opened, last, hopen, rfl, hcounters⟩ := counters_tell_history hfile busy
  cases hopen
  have hio : NoIoErrors busy (ofImage #[]) := by
    refine ⟨fun _ _ h => ?_, fun _ _ h => ?_, trivial, fun _ _ h => ?_, fun _ _ h => ?_, trivial⟩
    all_goals cases h
  have hasked : askedIn busy (ofImage #[]) = [⟨⟨2⟩, 0⟩, ⟨⟨1⟩, 3⟩, ⟨⟨1⟩, 3⟩, ⟨⟨0⟩, 3⟩] := rfl
  have hloaded : (afterEvents busy (ofImage #[])).loaded = [0, 1, 2] := rfl
  have hwritten : writtenIn busy (ofImage #[]) = 1 := rfl
  obtain ⟨hrequests, hmisses, hreads, hwrites⟩ := hcounters hio
  rw [hasked] at hrequests
  rw [hloaded] at hmisses
  rw [hasked, hloaded] at hreads
  rw [hwritten] at hwrites
  exact ⟨_, _, rfl, rfl, hio, hasked, hloaded, hrequests, hmisses, hreads, hwrites⟩

end Pager
end RowStore
