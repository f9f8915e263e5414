/-
  RowStore/Proofs/Tree/OutlineScan.lean
  =====================================
  **What an outline shows.**  An outline goes down from the top, a scan along the chain of
  leaves, and they agree on the keys: the cells of the outline, from top to bottom, are what
  the scan comes by.  A separator repeats the last cell above it.  The header of a node is
  true of the lines under it, which are those that follow and are indented deeper.  There is
  one header for each page.
-/
import RowStore.Proofs.Tree.Occupancy
import RowStore.Proofs.Tree.Outline
import RowStore.Proofs.Tree.OutlineText
import RowStore.Proofs.Tree.Milestones

namespace RowStore

variable {h level : Nat}

namespace OutlineLine

/-! ## Reading lines -/

/-- The key of a cell of a leaf. -/
def cell? : OutlineLine → Option UInt32
  | .cell _ key => some key
  | _ => none

/-- The line is the header of a node. -/
def isHeader : OutlineLine → Bool
  | .leaf .. | .branch .. => true
  | .cell .. | .separator .. => false

/-- The line is the header of a node on level `level`. -/
def isHeaderOf (level : Nat) (line : OutlineLine) : Bool :=
  line.isHeader && line.depth == level

/-- The line is a separator of a branch on level `level`. -/
def isSeparatorOf (level : Nat) : OutlineLine → Bool
  | .separator l _ => l == level
  | _ => false

/-- Of the lines that follow a node on level `level`, those that are indented deeper. -/
def under (level : Nat) (lines : List OutlineLine) : List OutlineLine :=
  lines.takeWhile fun line => level < line.depth

/-- What a line says of those behind it.  Under a leaf stand as many cells as it says, and
    nothing else.  Under a branch stand as many separators of its own as it says, one more
    node on the next level, and no cells of its own. -/
def Announces : OutlineLine → List OutlineLine → Prop
  | .leaf level size, below =>
    ∃ keys : List UInt32, keys.length = size ∧ under level below = keys.map (.cell level)
  | .branch level size, below =>
    (under level below).countP (isSeparatorOf level) = size ∧
      (under level below).countP (isHeaderOf (level + 1)) = size + 1 ∧
      ∀ key, .cell level key ∉ under level below
  | .cell .., _ | .separator .., _ => True

/-- Each line announces those behind it. -/
def Announced : List OutlineLine → Prop
  | [] => True
  | line :: below => line.Announces below ∧ Announced below

/-- Each separator repeats the last of the cells above it, of which `seen` stand before the
    first line. -/
def Repeats (seen : List UInt32) : List OutlineLine → Prop
  | [] => True
  | .separator _ key :: rest => seen.getLast? = some key ∧ Repeats seen rest
  | .cell _ key :: rest => Repeats (seen ++ [key]) rest
  | .leaf .. :: rest | .branch .. :: rest => Repeats seen rest

theorem Announced.suffix {above below : List OutlineLine} (h : Announced (above ++ below)) :
    Announced below := by
  induction above with
  | nil => exact h
  | cons line above ih => exact ih h.2

theorem repeats_append (seen : List UInt32) (a b : List OutlineLine) :
    Repeats seen (a ++ b) ↔ Repeats seen a ∧ Repeats (seen ++ a.filterMap cell?) b := by
  induction a generalizing seen with
  | nil => simp [Repeats]
  | cons line a ih =>
    cases line with
    | leaf level size => exact ih seen
    | cell level key =>
      have hseen : seen ++ (.cell level key :: a).filterMap cell? =
          seen ++ [key] ++ a.filterMap cell? := by
        rw [List.append_assoc]
        rfl
      rw [hseen]
      exact ih (seen ++ [key])
    | branch level size => exact ih seen
    | separator level key => exact (and_congr_right fun _ => ih seen).trans and_assoc.symm

theorem under_append {a b : List OutlineLine} (ha : ∀ line ∈ a, level < line.depth) :
    under level (a ++ b) = a ++ under level b :=
  List.takeWhile_append_of_pos fun line hline => decide_eq_true (ha line hline)

/-- No line that follows is under a node on level `level`. -/
def Closes (level : Nat) (lines : List OutlineLine) : Prop :=
  ∀ line ∈ lines.head?, line.depth ≤ level

theorem under_of_closes {lines : List OutlineLine} (h : Closes level lines) :
    under level lines = [] := by
  cases lines with
  | nil => rfl
  | cons line lines =>
    have hline : ¬level < line.depth := Nat.not_lt.mpr (h line rfl)
    rw [under, List.takeWhile_cons, decide_eq_false hline]
    rfl

/-- The header of a node on level `level`, with lines under it. -/
def Hangs (level : Nat) (lines : List OutlineLine) : Prop :=
  ∃ header rest, lines = header :: rest ∧ isHeaderOf level header = true ∧
    ∀ line ∈ rest, level < line.depth

theorem isHeaderOf_iff {line : OutlineLine} :
    isHeaderOf level line = true ↔ line.isHeader = true ∧ line.depth = level := by
  rw [isHeaderOf, Bool.and_eq_true, beq_iff_eq]

namespace Hangs

variable {lines : List OutlineLine}

theorem le_depth (h : Hangs level lines) {line : OutlineLine} (hline : line ∈ lines) :
    level ≤ line.depth := by
  obtain ⟨header, rest, rfl, hheader, hrest⟩ := h
  rcases List.mem_cons.mp hline with rfl | hline
  · exact Nat.le_of_eq (isHeaderOf_iff.mp hheader).2.symm
  · exact Nat.le_of_lt (hrest line hline)

/-- A line that is no header and is indented as far as the header of a node is not its own. -/
theorem notMem (h : Hangs level lines) {line : OutlineLine} (hno : line.isHeader = false)
    (hdepth : line.depth = level) : line ∉ lines := by
  obtain ⟨header, rest, rfl, hheader, hrest⟩ := h
  intro hline
  rcases List.mem_cons.mp hline with rfl | hline
  · rw [(isHeaderOf_iff.mp hheader).1] at hno
    cases hno
  · exact Nat.ne_of_gt (hrest line hline) hdepth

theorem countP_header (h : Hangs level lines) : lines.countP (isHeaderOf level) = 1 := by
  obtain ⟨header, rest, rfl, hheader, hrest⟩ := h
  have hnone : rest.countP (isHeaderOf level) = 0 := by
    refine List.countP_eq_zero.mpr fun line hline hline' => ?_
    exact Nat.ne_of_gt (hrest line hline) (isHeaderOf_iff.mp hline').2
  rw [List.countP_cons, hnone, hheader]
  rfl

theorem countP_separator (h : Hangs (level + 1) lines) :
    lines.countP (isSeparatorOf level) = 0 := by
  refine List.countP_eq_zero.mpr fun line hline hsep => ?_
  cases line with
  | separator l key =>
    obtain rfl : l = level := beq_iff_eq.mp hsep
    exact h.notMem rfl rfl hline
  | leaf | cell | branch => cases hsep

end Hangs

end OutlineLine

namespace Subtree

open OutlineLine

/-! ## The lines of a tree -/

/-- The lines of all children but the last, each with its separator behind it. -/
def separated (level : Nat) (front : List (Subtree h)) : List OutlineLine :=
  front.flatMap fun child => child.outline (level + 1) ++ [.separator level child.greatest]

theorem separated_cons (level : Nat) (child : Subtree h) (front : List (Subtree h)) :
    separated level (child :: front) = child.outline (level + 1) ++
      .separator level child.greatest :: separated level front := by
  rw [separated, List.flatMap_cons, List.append_assoc]
  rfl

theorem outline_branch_eq {b : Bool} {id : PageId} {children : List (Subtree h)}
    (hf : (branch id children).Formed b) (level : Nat) : ∃ front last, children = front ++ [last] ∧
      (∀ child ∈ front, child.Formed false) ∧ last.Formed false ∧
      (branch id children).outline level =
        .branch level front.length :: (separated level front ++ last.outline (level + 1)) := by
  obtain ⟨hlen, -, hchildren⟩ := (formed_branch ..).mp hf
  obtain ⟨front, last, rfl⟩ :=
    (List.eq_nil_or_concat' children).resolve_left (List.ne_nil_of_length_pos hlen)
  exact ⟨front, last, rfl, fun child hchild => hchildren child (List.mem_append_left _ hchild),
    hchildren last (by simp), outline_branch_concat ..⟩

theorem lt_depth_of_mem_cells {keys : List UInt32} {line : OutlineLine}
    (hline : line ∈ keys.map (OutlineLine.cell level)) : level < line.depth := by
  obtain ⟨key, -, rfl⟩ := List.mem_map.mp hline
  exact Nat.lt_succ_self level

theorem lt_depth_of_mem_children {front : List (Subtree h)} {last : Subtree h}
    (hfront : ∀ child ∈ front, Hangs (level + 1) (child.outline (level + 1)))
    (hlast : Hangs (level + 1) (last.outline (level + 1))) {line : OutlineLine}
    (hline : line ∈ separated level front ++ last.outline (level + 1)) : level < line.depth := by
  rcases List.mem_append.mp hline with hline | hline
  · obtain ⟨child, hchild, hmem⟩ := List.mem_flatMap.mp hline
    rcases List.mem_append.mp hmem with hmem | hmem
    · exact (hfront child hchild).le_depth hmem
    · rw [List.mem_singleton.mp hmem]
      exact Nat.lt_succ_self level
  · exact hlast.le_depth hline

/-- The first line is the header of the top, and all others are indented deeper. -/
theorem hangs_outline {t : Subtree h} {b : Bool} (hf : t.Formed b) (level : Nat) :
    Hangs level (t.outline level) := by
  induction h, t using ind generalizing b level with
  | leaf id next entries =>
    exact ⟨_, _, rfl, beq_iff_eq.mpr rfl, fun _ => lt_depth_of_mem_cells⟩
  | branch h id children ih =>
    obtain ⟨front, last, rfl, hfront, hlast, heq⟩ := outline_branch_eq hf level
    have hbefore : ∀ child ∈ front, Hangs (level + 1) (child.outline (level + 1)) :=
      fun child hchild => ih child (List.mem_append_left _ hchild) (hfront child hchild) (level + 1)
    exact ⟨_, _, heq, beq_iff_eq.mpr rfl,
      fun _ => lt_depth_of_mem_children hbefore (ih last (by simp) hlast (level + 1))⟩

/-- What the lines of a branch have of its own. -/
theorem countP_separated {front : List (Subtree h)} (hfront : ∀ child ∈ front, child.Formed false)
    (level : Nat) :
    (separated level front).countP (isSeparatorOf level) = front.length ∧
      (separated level front).countP (isHeaderOf (level + 1)) = front.length ∧
      ∀ key, .cell level key ∉ separated level front := by
  induction front with
  | nil => exact ⟨rfl, rfl, fun key => List.not_mem_nil⟩
  | cons child front ih =>
    have hchild := hangs_outline (hfront child List.mem_cons_self) (level + 1)
    obtain ⟨hseps, hheaders, hcells⟩ := ih fun c hc => hfront c (List.mem_cons_of_mem _ hc)
    have hsep : isSeparatorOf level (.separator level child.greatest) = true := beq_iff_eq.mpr rfl
    have hheader : isHeaderOf (level + 1) (.separator level child.greatest) = false := rfl
    rw [separated_cons]
    simp only [List.countP_append, List.countP_cons, List.mem_append, List.mem_cons, not_or,
      List.length_cons, hseps, hheaders, hsep, hheader, hchild.countP_header,
      hchild.countP_separator]
    exact ⟨by simp, by simp; omega, fun key => ⟨hchild.notMem rfl rfl, nofun, hcells key⟩⟩

/-- The header of a branch announces the lines of its children. -/
theorem announces_branch {front : List (Subtree h)} {last : Subtree h} {below : List OutlineLine}
    (hfront : ∀ child ∈ front, child.Formed false) (hlast : last.Formed false)
    (hclose : Closes level below) : Announces (.branch level front.length)
      (separated level front ++ last.outline (level + 1) ++ below) := by
  have hhangs := hangs_outline hlast (level + 1)
  have hdeeper : ∀ line ∈ separated level front ++ last.outline (level + 1),
      level < line.depth := fun line => lt_depth_of_mem_children
    (fun child hchild => hangs_outline (hfront child hchild) (level + 1)) hhangs
  have hunder : under level (separated level front ++ last.outline (level + 1) ++ below) =
      separated level front ++ last.outline (level + 1) := by
    rw [under_append hdeeper, under_of_closes hclose, List.append_nil]
  obtain ⟨hseps, hheaders, hcells⟩ := countP_separated hfront level
  rw [Announces, hunder, List.countP_append, List.countP_append, hseps, hheaders,
    hhangs.countP_separator, hhangs.countP_header]
  refine ⟨rfl, rfl, fun key => ?_⟩
  rw [List.mem_append, not_or]
  exact ⟨hcells key, hhangs.notMem rfl rfl⟩

theorem announced_cells (keys : List UInt32) {below : List OutlineLine} (hbelow : Announced below) :
    Announced (keys.map (.cell level) ++ below) := by
  induction keys with
  | nil => exact hbelow
  | cons key keys ih => exact ⟨trivial, ih⟩

theorem announced_separated {front : List (Subtree h)} {below : List OutlineLine}
    (hfront : ∀ child ∈ front, ∀ {below : List OutlineLine}, Closes (level + 1) below →
      Announced below → Announced (child.outline (level + 1) ++ below))
    (hbelow : Announced below) : Announced (separated level front ++ below) := by
  induction front with
  | nil => exact hbelow
  | cons child front ih =>
    have hrest := ih fun c hc => hfront c (List.mem_cons_of_mem _ hc)
    -- A separator is indented as far as the header of the child.
    have hclose : Closes (level + 1) (.separator level child.greatest ::
        (separated level front ++ below)) := by
      intro line hline
      cases hline
      exact Nat.le_refl _
    rw [separated_cons, List.append_assoc, List.cons_append]
    exact hfront child List.mem_cons_self hclose ⟨trivial, hrest⟩

/-- All lines of a tree announce what is under them. -/
theorem announced_outline {t : Subtree h} {b : Bool} (hf : t.Formed b) {level : Nat}
    {below : List OutlineLine} (hclose : Closes level below) (hbelow : Announced below) :
    Announced (t.outline level ++ below) := by
  induction h, t using ind generalizing b level below with
  | leaf id next entries =>
    refine ⟨⟨entries.map Entry.key, List.length_map _, ?_⟩, announced_cells _ hbelow⟩
    change under level ((entries.map Entry.key).map (.cell level) ++ below) = _
    rw [under_append fun _ => lt_depth_of_mem_cells, under_of_closes hclose, List.append_nil]
  | branch h id children ih =>
    obtain ⟨front, last, rfl, hfront, hlast, heq⟩ := outline_branch_eq hf level
    rw [heq, List.cons_append]
    constructor
    · exact announces_branch hfront hlast hclose
    · have hdown : Closes (level + 1) below :=
        fun line hline => Nat.le_succ_of_le (hclose line hline)
      rw [List.append_assoc]
      refine announced_separated (fun child hchild below hclose hbelow => ?_) ?_
      · exact ih child (List.mem_append_left _ hchild) (hfront child hchild) hclose hbelow
      · exact ih last (by simp) hlast hdown hbelow

theorem filterMap_cells (keys : List UInt32) : (keys.map (.cell level)).filterMap cell? = keys := by
  rw [List.filterMap_map]
  exact List.filterMap_some

/-- The cells of an outline are the keys of the tree. -/
theorem filterMap_outline {t : Subtree h} {b : Bool} (hf : t.Formed b) (level : Nat) :
    (t.outline level).filterMap cell? = t.keys := by
  induction h, t using ind generalizing b level with
  | leaf id next entries =>
    rw [keys_leaf]
    exact filterMap_cells _
  | branch h id children ih =>
    obtain ⟨front, last, rfl, hfront, hlast, heq⟩ := outline_branch_eq hf level
    replace hfront : ∀ child ∈ front, (child.outline (level + 1)).filterMap cell? = child.keys :=
      fun child hchild => ih child (List.mem_append_left _ hchild) (hfront child hchild) _
    have hseparated : (separated level front).filterMap cell? = front.flatMap keys := by
      rw [separated, List.filterMap_flatMap]
      refine List.flatMap_congr fun child hchild => ?_
      rw [List.filterMap_append, hfront child hchild]
      exact List.append_nil _
    rw [keys_branch, List.flatMap_append, List.flatMap_singleton, ← hseparated,
      ← ih last (by simp) hlast (level + 1), ← List.filterMap_append, heq]
    rfl

/-- There is a header for each node. -/
theorem countP_outline {t : Subtree h} {b : Bool} (hf : t.Formed b) (level : Nat) :
    (t.outline level).countP isHeader = t.size := by
  induction h, t using ind generalizing b level with
  | leaf id next entries =>
    have hcells : ((entries.map Entry.key).map (OutlineLine.cell level)).countP isHeader = 0 := by
      refine List.countP_eq_zero.mpr fun line hline => ?_
      obtain ⟨key, -, rfl⟩ := List.mem_map.mp hline
      exact Bool.false_ne_true
    rw [outline_leaf, List.countP_cons, hcells]
    rfl
  | branch h id children ih =>
    obtain ⟨front, last, rfl, hfront, hlast, heq⟩ := outline_branch_eq hf level
    have hseparated : (separated level front).countP isHeader = (front.map size).sum := by
      rw [separated, List.countP_flatMap]
      refine congrArg List.sum (List.map_congr_left fun child hchild => ?_)
      rw [Function.comp_apply, List.countP_append,
        ih child (List.mem_append_left _ hchild) (hfront child hchild)]
      rfl
    rw [heq, List.countP_cons, List.countP_append, hseparated, ih last (by simp) hlast, size_branch,
      List.map_append, List.sum_append]
    simp [isHeader]
    omega

theorem repeats_cells (seen keys : List UInt32) : Repeats seen (keys.map (.cell level)) := by
  induction keys generalizing seen with
  | nil => trivial
  | cons key keys ih => exact ih (seen ++ [key])

theorem repeats_separated {front : List (Subtree h)} (hfront : ∀ child ∈ front, child.Formed false)
    (hrepeats : ∀ child ∈ front, ∀ seen, Repeats seen (child.outline (level + 1)))
    (seen : List UInt32) : Repeats seen (separated level front) := by
  induction front generalizing seen with
  | nil => trivial
  | cons child front ih =>
    have hchild := hfront child List.mem_cons_self
    have hgreatest : (seen ++ child.keys).getLast? = some child.greatest := by
      rw [List.getLast?_append, getLast?_keys hchild]
      rfl
    rw [separated_cons, repeats_append, filterMap_outline hchild]
    exact ⟨hrepeats child List.mem_cons_self seen, hgreatest,
      ih (fun c hc => hfront c (List.mem_cons_of_mem _ hc))
        (fun c hc => hrepeats c (List.mem_cons_of_mem _ hc)) _⟩

/-- Every separator repeats the last cell above it. -/
theorem repeats_outline {t : Subtree h} {b : Bool} (hf : t.Formed b) (level : Nat)
    (seen : List UInt32) : Repeats seen (t.outline level) := by
  induction h, t using ind generalizing b level seen with
  | leaf id next entries => exact repeats_cells seen (entries.map Entry.key)
  | branch h id children ih =>
    obtain ⟨front, last, rfl, hfront, hlast, heq⟩ := outline_branch_eq hf level
    have hrepeats : ∀ child ∈ front, ∀ seen, Repeats seen (child.outline (level + 1)) :=
      fun child hchild => ih child (List.mem_append_left _ hchild) (hfront child hchild) _
    rw [heq]
    exact (repeats_append ..).mpr
      ⟨repeats_separated hfront hrepeats seen, ih last (by simp) hlast _ _⟩

end Subtree

namespace Tree

theorem hasLines_of_run {H : Nat} {pager later : Pager} {t : Subtree H} {q : PageId} {text : String}
    (h : pager.Stores t q) (hrun : outlineText.run pager = .ok text later) :
    HasLines text (t.outline 0) := by
  obtain ⟨later', hrun', -⟩ := h.run_reads (reads_outlineText h.sound h.height_lt q)
  rw [Except.ok.inj (outcome_inj (r := .ok text) (hrun.symm.trans hrun')).1]
  exact hasLines_join _

/-- **The outline and the scan agree.**  In a session the outline can always be made.  Its text
    reads as one list of lines and no other.  The cells of these lines, from top to bottom,
    are the keys that a scan gives.  Each separator has the key of the last cell above it,
    each header announces what is under it, and there are as many headers as pages. -/
theorem outline_shows_scan {pager : Pager} {M : Contents} (h : Reached pager M) :
    ∃ (text : String) (lines : List OutlineLine),
      (∃ later, outlineText.run pager = .ok text later) ∧
      (∀ other, HasLines text other ↔ other = lines) ∧
      (∃ later, keys.run pager = .ok (lines.filterMap OutlineLine.cell?) later) ∧
      (∀ above level key below, lines = above ++ .separator level key :: below →
        (above.filterMap OutlineLine.cell?).getLast? = some key) ∧
      (∀ above line below, lines = above ++ line :: below → line.Announces below) ∧
      lines.countP OutlineLine.isHeader = pager.numPages := by
  obtain ⟨H, t, q, hstores, -, hsize, -⟩ := h.exists_filled
  have hs := hstores.sound
  have hH := hstores.height_lt
  obtain ⟨later, htext, -⟩ := hstores.run_reads (reads_outlineText hs hH q)
  obtain ⟨later', hkeys, -⟩ := hstores.run_reads (reads_keys hs hH hstores.length_leaves_le)
  have hlines := hasLines_of_run hstores htext
  refine ⟨_, t.outline 0, ⟨later, htext⟩, fun other => ⟨fun hother => hother.unique hlines, ?_⟩,
    ⟨later', ?_⟩, ?_, ?_, ?_⟩
  · rintro rfl
    exact hlines
  · rw [Subtree.filterMap_outline hs.formed]
    exact hkeys
  · intro above level key below hlines
    have hrepeats := Subtree.repeats_outline hs.formed 0 []
    rw [hlines, OutlineLine.repeats_append] at hrepeats
    exact hrepeats.2.1
  · intro above line below hlines
    have hannounced : OutlineLine.Announced (t.outline 0 ++ []) :=
      Subtree.announced_outline hs.formed nofun trivial
    rw [List.append_nil, hlines] at hannounced
    exact hannounced.suffix.1
  · rw [Subtree.countP_outline hs.formed, hsize]

/-- Fourteen keys are too many for one leaf. -/
theorem outline_shows_scan_fourteen : ∃ (pager : Pager) (M : Contents) (text : String),
    Reached pager M ∧ pager.numPages = 3 ∧ (∃ later, outlineText.run pager = .ok text later) ∧
    HasLines text ([.branch 0 1, .leaf 1 7] ++ [0, 1, 2, 3, 4, 5, 6].map (.cell 1) ++
      [.separator 0 6, .leaf 1 7] ++ [7, 8, 9, 10, 11, 12, 13].map (.cell 1)) ∧
    ∃ later, keys.run pager = .ok [0, 1, 2, 3, 4, 5, 6, 7, 8, 9, 10, 11, 12, 13] later := by
  obtain ⟨full, split, h⟩ := exists_firstSplit
  obtain ⟨q, hstores⟩ := h.stores
  obtain ⟨text, lines, ⟨later, hrun⟩, hlines, hkeys, -⟩ := outline_shows_scan h.reached_split
  have houtline := hasLines_of_run hstores hrun
  have hexplicit : fourteen.outline 0 =
      [.branch 0 1, .leaf 1 7] ++ [0, 1, 2, 3, 4, 5, 6].map (.cell 1) ++
      [.separator 0 6, .leaf 1 7] ++ [7, 8, 9, 10, 11, 12, 13].map (.cell 1) := rfl
  rw [hexplicit] at houtline
  obtain rfl := (hlines _).mp houtline
  exact ⟨split, _, text, h.reached_split, h.three, ⟨later, hrun⟩, houtline, hkeys⟩

end Tree

end RowStore
