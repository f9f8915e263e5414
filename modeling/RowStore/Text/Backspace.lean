/-
  RowStore/Text/Backspace.lean
  ============================
  **Backspaces.**  A line may hold what its writer took back, together with the
  backspaces that did so.  Each backspace takes back the cluster before it that is still
  there, and at the start of the line it does nothing.

  Of each cluster only the size is kept, in one byte, and a backspace cuts that many
  bytes off the end.  So of a cluster of 256 bytes or more only a part is cut off, and if
  the cut falls inside a character there is no line left to speak of.
-/
import RowStore.Text.Cluster.Basic

namespace RowStore.Text

/-- The character that takes back. -/
def backspace : Char := '\x08'

/-- Cuts bytes off the end of a text that is given from its end, unless the cut falls inside
    a character. -/
def dropBytes : Nat → List Char → Option (List Char)
  | 0, text => some text
  | _ + 1, [] => none
  | n + 1, c :: text =>
    if c.utf8Size ≤ n + 1 then dropBytes (n + 1 - c.utf8Size) text else none

/-- The size of a text in bytes. -/
def byteCount (text : List Char) : Nat := text.foldr (fun c n => c.utf8Size + n) 0

/-- A line that is being typed. -/
structure Draft where
  /-- The text, its last character first. -/
  text : List Char := []
  /-- The sizes of the clusters that can be taken back, the last one first. -/
  sizes : List UInt8 := []

/-- Types a cluster, or takes one back. -/
def Draft.type (draft : Draft) (cluster : List Char) : Option Draft :=
  if cluster = [backspace] then
    match draft.sizes with
    | [] => some draft
    | size :: sizes => do return { text := ← dropBytes size.toNat draft.text, sizes }
  else
    some { text := cluster.reverse ++ draft.text
           sizes := UInt8.ofNat (byteCount cluster) :: draft.sizes }

/-- What is left of a line when its backspaces are done. -/
def applyBackspaces (line : String) : Option String := do
  let draft ← (Cluster.clusters line.toList).foldlM Draft.type {}
  return String.ofList draft.text.reverse

/-- Clusters that hold no backspace are all there in the end. -/
theorem text_foldlM_type (clusters : List (List Char)) (h : [backspace] ∉ clusters)
    (draft : Draft) :
    (clusters.foldlM Draft.type draft).map Draft.text =
      some (clusters.flatten.reverse ++ draft.text) := by
  induction clusters generalizing draft with
  | nil => rfl
  | cons cluster rest ih =>
    obtain ⟨h₁, h₂⟩ := not_or.mp (mt List.mem_cons.mpr h)
    simp [Draft.type, Ne.symm h₁, ih h₂]

/-- A line without backspaces stays as it is. -/
theorem applyBackspaces_of_not_mem {line : String} (h : backspace ∉ line.toList) :
    applyBackspaces line = some line := by
  have hc : [backspace] ∉ Cluster.clusters line.toList := fun hmem =>
    h (Cluster.flatten_clusters line.toList ▸
      List.mem_flatten.mpr ⟨_, hmem, List.mem_singleton.mpr rfl⟩)
  have ht := text_foldlM_type _ hc {}
  rw [Cluster.flatten_clusters] at ht
  obtain ⟨draft, hd, htext⟩ := Option.map_eq_some_iff.mp ht
  simp [applyBackspaces, hd, htext]

example : applyBackspaces "ax\x08b" = some "ab" := by decide +kernel
example : applyBackspaces "\x08xe\u0301\x08y" = some "xy" := by decide +kernel

end RowStore.Text
