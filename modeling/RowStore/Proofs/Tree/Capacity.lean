/-
  RowStore/Proofs/Tree/Capacity.lean
  ==================================
  **The pages that an insert takes.**  They can be told from the way that the search for
  the key takes: from its leaf, and from the branches above that have no room.  An insert
  takes just these pages, and it is refused exactly if there are not as many.
-/
import RowStore.Proofs.Tree.Milestones

namespace RowStore

variable {H h : Nat}

namespace Tree

/-- What the pages on the way of a search say, from `id` down to a leaf. -/
def wayDown (v : View) (key : UInt32) : (levels : Nat) → PageId → List Body
  | 0, _ => []
  | levels + 1, id =>
    match body? (v.page id) with
    | some (.branch isRoot keys children) =>
      .branch isRoot keys children ::
        wayDown v key levels (children.getD (rank key keys) PageId.invalid)
    | some leaf => [leaf]
    | none => []

/-- Whether a node is a branch without room. -/
def isFull : Body → Bool
  | .branch _ keys _ => keys.length = Branch.maxKeys
  | .leaf _ _ _ => false

/-- The pages that a new key takes: none if its leaf has room.  Otherwise one for the leaf, one
    for each branch in the unbroken run of full ones above it, and one more if that run
    reaches the root, or if the leaf is the root. -/
def needed (v : View) (key : UInt32) : Nat :=
  match (wayDown v key maxPages PageId.root).reverse with
  | .leaf _ _ entries :: above =>
    if entries.length < Leaf.maxCells then 0
    else
      let run := above.takeWhile isFull
      1 + run.length + if run.length = above.length then 1 else 0
  | _ => 0

/-! ## The way and the place -/

end Tree

namespace Trail

/-- Whether the branches above the place are full, from the place upwards. -/
def fulls : {h : Nat} → Trail H h → List Bool
  | _, top => []
  | _, down _ left right up => decide (left.length + right.length = Branch.maxKeys) :: up.fulls

theorem cost_eq {z : Trail H h} (hz : z.Formed) : z.cost = (z.fulls.takeWhile id).length +
    if (z.fulls.takeWhile id).length = z.fulls.length then 1 else 0 := by
  induction z with
  | top => rfl
  | down id left right up ih =>
    obtain ⟨hle, -, hup⟩ := hz
    rw [cost, fulls]
    by_cases hfull : left.length + right.length = Branch.maxKeys
    · rw [if_neg (Nat.not_lt.mpr (Nat.le_of_eq hfull.symm)), ih hup, decide_eq_true hfull,
        List.takeWhile_cons_of_pos rfl, List.length_cons, List.length_cons]
      simp only [Nat.add_right_cancel_iff]
      omega
    · rw [if_pos (Nat.lt_of_le_of_ne hle hfull), decide_eq_false hfull,
        List.takeWhile_cons_of_neg Bool.false_ne_true]
      rfl

end Trail

namespace Tree

theorem wayDown_eq {v : View} {key : UInt32} {place : Trail H 0} {id : PageId}
    {next : Option PageId} {entries : List Entry} {z : Trail H h} {t : Subtree h}
    (hd : Descends key place (.leaf id next entries) z t) {isRoot : Bool} {parent : PageId}
    (hshows : v.Shows (t.heap isRoot parent)) {levels : Nat} (hlevels : h < levels) :
    ∃ b above, (wayDown v key levels t.id).reverse = .leaf b next entries :: above ∧
      place.fulls = above.map isFull ++ z.fulls := by
  induction hd generalizing isRoot parent levels with
  | here =>
    obtain ⟨levels, rfl⟩ := Nat.exists_eq_add_one_of_ne_zero (Nat.ne_zero_of_lt hlevels)
    have hbody : body? (v.page id) = some (.leaf isRoot next entries) :=
      congrArg Reading.body (hshows _ List.mem_cons_self).2
    refine ⟨isRoot, [], ?_, rfl⟩
    rw [Subtree.id_leaf, wayDown, hbody]
    rfl
  | @step h z top left right child hrank _ ih =>
    obtain ⟨levels, rfl⟩ := Nat.exists_eq_add_one_of_ne_zero (Nat.ne_zero_of_lt hlevels)
    have hmem : child ∈ left ++ child :: right := by simp
    have hbody : body? (v.page top) = some (.branch isRoot
        ((left ++ child :: right).map Subtree.greatest).dropLast
        ((left ++ child :: right).map Subtree.id)) :=
      congrArg Reading.body (hshows _
        (Subtree.mem_heap_branch (List.ne_nil_of_mem hmem) top parent isRoot)).2
    obtain ⟨b, above, hway, hfulls⟩ := ih
      (hshows.mono (Subtree.heap_subset_of_mem hmem top parent isRoot))
      (Nat.lt_of_succ_lt_succ hlevels)
    have hchild : ((left ++ child :: right).map Subtree.id).getD left.length PageId.invalid =
        child.id := by simp
    refine ⟨b, above ++ [.branch isRoot ((left ++ child :: right).map Subtree.greatest).dropLast
      ((left ++ child :: right).map Subtree.id)], ?_, ?_⟩
    · rw [Subtree.id_branch, wayDown, hbody]
      dsimp only
      rw [hrank, hchild, List.reverse_cons, hway]
      rfl
    · rw [hfulls, List.map_append, List.append_assoc]
      congr 1
      simp [Trail.fulls, isFull]

theorem needed_eq {v : View} {key : UInt32} {t : Subtree H} {place : Trail H 0} {page q : PageId}
    {next : Option PageId} {a b : List Entry} (hl : Locates key t place page next a b)
    (hs : t.Sound) (hH : H < maxPages) (hshows : v.Shows (t.heap true q)) :
    needed v key = place.needed (a ++ b).length := by
  obtain ⟨_, above, hway, hfulls⟩ := wayDown_eq hl.descends hshows hH
  have hformed := hs.formed
  rw [← hl.fill_eq, Trail.formed_fill] at hformed
  rw [hs.root] at hway
  have hrun : (place.fulls.takeWhile id).length = (above.takeWhile isFull).length := by
    rw [hfulls, Trail.fulls, List.append_nil, List.takeWhile_map, List.length_map]
    rfl
  rw [needed, hway, Trail.needed, Trail.cost_eq hformed.2, hrun, hfulls, Trail.fulls,
    List.append_nil, List.length_map]
  dsimp only
  rw [Nat.add_assoc]

/-- A new key with a value of the right length is refused exactly if there are not as many
    pages left as it takes, and then nothing is changed.  Else it takes just as many. -/
theorem insert_takes_needed {pager : Pager} {M : Contents} (h : Reached pager M) {key : UInt32}
    {value : List UInt8} (hkey : M key = none) (hvalue : value.length = Leaf.valueSize) :
    ∃ (r : Except Failure Unit) (after : Pager), (insert key value).run pager = outcome r after ∧
      (r = .error (.error .tableFull) ↔ pager.freePages < needed pager.view key) ∧
      (r = .ok () → after.numPages = pager.numPages + needed pager.view key) ∧
      (r ≠ .ok () → r = .error (.error .tableFull) ∧ after.view = pager.view) := by
  obtain ⟨H, t, q, hstores, hcontents⟩ := h.exists_stores
  obtain ⟨r, after, hrun, -, hinserted⟩ := exists_insert hstores key value
  have hmax := hstores.holds.le_maxPages
  rw [hcontents] at hkey
  refine ⟨r, after, hrun, ?_⟩
  have hneeded : ∀ {place : Trail H 0} {id : PageId} {next : Option PageId} {a b : List Entry},
      Locates key t place id next a b →
      needed pager.view key = place.needed (a ++ b).length := fun hl =>
    needed_eq hl hstores.sound hstores.height_lt hstores.holds.shows
  cases hinserted with
  | duplicate hpresent =>
    rw [hkey] at hpresent
    cases hpresent
  | mismatch _ hlength => exact absurd hvalue hlength
  | full _ _ hplace hfull hview =>
    rw [hneeded hplace, Pager.freePages]
    refine ⟨⟨fun _ => by omega, fun _ => rfl⟩, fun hok => ?_, fun _ => ⟨rfl, hview⟩⟩
    cases hok
  | taken _ _ hplace hroom hnum =>
    rw [hneeded hplace, Pager.freePages]
    refine ⟨⟨fun he => ?_, fun _ => by omega⟩, fun _ => hnum, fun hne => absurd rfl hne⟩
    cases he

/-- The key that splits the root takes two pages.  At some key as many pages are needed as are
    not left any more. -/
theorem insert_takes_needed_full :
    (∃ full split : Pager, FirstSplit full split ∧ needed full.view 13 = 2 ∧
      2 ≤ full.freePages ∧ split.numPages = full.numPages + 2) ∧
    ∃ (n : Nat) (pager after : Pager), Reached pager (lookup (samples n)) ∧
      (insert n.toUInt32 (sample n.toUInt32).value).run pager =
        .error (.error .tableFull) after ∧
      pager.freePages < needed pager.view n.toUInt32 ∧ after.view = pager.view := by
  constructor
  · obtain ⟨full, split, h⟩ := exists_firstSplit
    obtain ⟨r, after, hrun, hfull, hgrown, -⟩ :=
      insert_takes_needed h.reached (show lookup (samples 13) 13 = none from rfl)
        (length_sample 13)
    obtain ⟨rfl, rfl⟩ := outcome_inj (r := .ok ()) (h.run.symm.trans hrun)
    have hsplit := hgrown rfl
    rw [h.three, h.one] at hsplit
    have hneeded : needed full.view 13 = 2 := by omega
    have hroom : ¬full.freePages < needed full.view 13 := fun hless => by cases hfull.mpr hless
    rw [hneeded] at hroom
    exact ⟨full, split, h, hneeded, Nat.not_lt.mp hroom, by rw [h.three, h.one]⟩
  · obtain ⟨n, pager, after, hn, hreached, hrun⟩ := exists_tableFull
    obtain ⟨r, after', hrun', hfull, -, hview⟩ :=
      insert_takes_needed hreached (lookup_samples_next hn) (length_sample _)
    obtain ⟨rfl, rfl⟩ :=
      outcome_inj (r := .error (.error .tableFull)) (hrun.symm.trans hrun')
    exact ⟨n, pager, after, hreached, hrun, hfull.mp rfl, (hview nofun).2⟩

end Tree
end RowStore
