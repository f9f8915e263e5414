/-
  RowStore/Proofs/Tree/OutlineText.lean
  =====================================
  **Outlines can be read back.**  A line of an outline is its blanks, a label, a number and
  what closes the line.  The blanks end at the first dash, and the label at the first digit,
  and so no two lines have the same text.  None has a newline in it.  A text is therefore
  the outline of at most one list of lines.
-/
import RowStore.Tree.Outline

namespace RowStore

/-- Two lists that begin with letters of one kind, and go on with a letter of another kind, are
    the same if they are so before and behind the change. -/
theorem eq_and_eq_of_append_eq {α : Type} {p : α → Bool} {a b a' b' : List α}
    (h : a ++ b = a' ++ b') (ha : ∀ x ∈ a, p x = true) (ha' : ∀ x ∈ a', p x = true)
    (hb : b.takeWhile p = []) (hb' : b'.takeWhile p = []) : a = a' ∧ b = b' := by
  have hfirst := congrArg (List.takeWhile p) h
  rw [List.takeWhile_append_of_pos ha, List.takeWhile_append_of_pos ha', hb, hb', List.append_nil,
    List.append_nil] at hfirst
  subst hfirst
  exact ⟨rfl, List.append_cancel_left h⟩

namespace OutlineLine

/-! ## The parts of a line -/

/-- How far a line is indented. -/
def depth : OutlineLine → Nat
  | .leaf level _ | .branch level _ => level
  | .cell level _ | .separator level _ => level + 1

def label : OutlineLine → String
  | .leaf .. => "- leaf (size "
  | .cell .. => "- "
  | .branch .. => "- internal (size "
  | .separator .. => "- key "

def number : OutlineLine → Nat
  | .leaf _ size | .branch _ size => size
  | .cell _ key | .separator _ key => key.toNat

def close : OutlineLine → String
  | .leaf .. | .branch .. => ")"
  | .cell .. | .separator .. => ""

theorem text_eq (line : OutlineLine) : line.text =
    indent line.depth ++ (line.label ++ toString line.number ++ line.close) := by
  cases line with
  | leaf level size => rfl
  | cell level key =>
    rw [close, String.append_empty]
    rfl
  | branch level size => rfl
  | separator level key =>
    rw [close, String.append_empty]
    rfl

theorem toList_text (line : OutlineLine) : line.text.toList =
    List.replicate (2 * line.depth) ' ' ++
      (line.label.toList ++ (Nat.toDigits 10 line.number ++ line.close.toList)) := by
  rw [text_eq, Nat.toString_eq_ofList_toDigits, indent]
  simp only [String.toList_append, String.toList_ofList, List.append_assoc]

/-- The character is neither a digit nor a newline. -/
def isPlain (c : Char) : Bool := !c.isDigit && c != '\n'

theorem isPlain_iff {c : Char} : isPlain c = true ↔ c.isDigit = false ∧ c ≠ '\n' := by
  simp [isPlain]

/-- A label begins with a dash, and has neither a digit nor a newline in it. -/
theorem label_spec (line : OutlineLine) : (∃ rest, line.label.toList = '-' :: rest) ∧
    ∀ c ∈ line.label.toList, c.isDigit = false ∧ c ≠ '\n' := by
  have hplain : line.label.toList.all isPlain = true := by
    cases line <;> (simp only [label]; decide)
  refine ⟨?_, fun c hc => isPlain_iff.mp (List.all_eq_true.mp hplain c hc)⟩
  cases line <;> (simp only [label]; exact ⟨_, rfl⟩)

theorem close_spec (line : OutlineLine) :
    ∀ c ∈ line.close.toList, c.isDigit = false ∧ c ≠ '\n' := by
  have hplain : line.close.toList.all isPlain = true := by
    cases line <;> (simp only [close]; decide)
  exact fun c hc => isPlain_iff.mp (List.all_eq_true.mp hplain c hc)

theorem isDigit_of_mem {c : Char} {n : Nat} (h : c ∈ Nat.toDigits 10 n) : c.isDigit = true :=
  Nat.isDigit_of_mem_toDigits (by decide) (by decide) h

theorem eq_of_parts {a b : OutlineLine} (hdepth : a.depth = b.depth) (hlabel : a.label = b.label)
    (hnumber : a.number = b.number) : a = b := by
  cases a <;> cases b <;> simp_all [depth, label, number, UInt32.toNat_inj]

theorem toDigits_injective : Function.Injective (Nat.toDigits 10) :=
  Function.LeftInverse.injective fun _ => Nat.ofDigitChars_toDigits (by decide) (by decide)

/-! ## Lines and their texts -/

/-- A line is indented by two blanks for each step of its depth. -/
theorem takeWhile_blank (line : OutlineLine) :
    line.text.toList.takeWhile (· == ' ') = List.replicate (2 * line.depth) ' ' := by
  obtain ⟨⟨letters, hlabel⟩, -⟩ := label_spec line
  have hblank : ∀ c ∈ List.replicate (2 * line.depth) ' ', (c == ' ') = true :=
    fun c hc => beq_iff_eq.mpr (List.eq_of_mem_replicate hc)
  rw [toList_text, List.takeWhile_append_of_pos hblank, hlabel]
  exact List.append_nil _

theorem takeWhile_letter (n : Nat) (rest : List Char) :
    (Nat.toDigits 10 n ++ rest).takeWhile (!·.isDigit) = [] := by
  obtain ⟨c, digits, hdigits⟩ := List.exists_cons_of_ne_nil (Nat.toDigits_ne_nil (n := n) (b := 10))
  have hc : c.isDigit = true := isDigit_of_mem (hdigits ▸ List.mem_cons_self)
  rw [hdigits, List.cons_append, List.takeWhile_cons, hc]
  rfl

theorem takeWhile_digit (line : OutlineLine) : line.close.toList.takeWhile (·.isDigit) = [] := by
  cases line <;> (simp only [close]; decide)

/-- A line is known by its text. -/
theorem text_injective : Function.Injective text := by
  intro a b h
  have hblanks : List.replicate (2 * a.depth) ' ' = List.replicate (2 * b.depth) ' ' := by
    rw [← takeWhile_blank, ← takeWhile_blank, h]
  have hdepth : 2 * a.depth = 2 * b.depth := by
    simpa using congrArg List.length hblanks
  have hbehind := congrArg String.toList h
  rw [toList_text, toList_text, hblanks, List.append_cancel_left_eq] at hbehind
  have hletter : ∀ line : OutlineLine, ∀ c ∈ line.label.toList, (!c.isDigit) = true := by
    intro line c hc
    rw [((label_spec line).2 c hc).1]
    rfl
  have hdigit : ∀ {n : Nat}, ∀ c ∈ Nat.toDigits 10 n, c.isDigit = true := fun c => isDigit_of_mem
  obtain ⟨hlabel, hnumbers⟩ := eq_and_eq_of_append_eq hbehind (hletter a) (hletter b)
    (takeWhile_letter _ _) (takeWhile_letter _ _)
  obtain ⟨hnumber, -⟩ :=
    eq_and_eq_of_append_eq hnumbers hdigit hdigit (takeWhile_digit a) (takeWhile_digit b)
  exact eq_of_parts (Nat.eq_of_mul_eq_mul_left Nat.zero_lt_two hdepth)
    (String.toList_injective hlabel) (toDigits_injective hnumber)

theorem newline_notMem_text (line : OutlineLine) : '\n' ∉ line.text.toList := by
  rw [toList_text]
  simp only [List.mem_append, not_or]
  refine ⟨fun h => ?_, fun h => ((label_spec line).2 _ h).2 rfl, fun h => ?_,
    fun h => (close_spec line _ h).2 rfl⟩
  · exact absurd (List.eq_of_mem_replicate h) (by decide)
  · exact absurd (isDigit_of_mem h) (by decide)

end OutlineLine

/-! ## Texts -/

/-- The text has these lines, and each of them ends with a newline. -/
def HasLines (text : String) (lines : List OutlineLine) : Prop :=
  text.toList.splitOn '\n' = lines.map (fun line => line.text.toList) ++ [[]]

theorem hasLines_join (lines : List OutlineLine) :
    HasLines (String.join (lines.map fun line => line.text ++ "\n")) lines := by
  rw [HasLines, String.toList_join, List.flatMap_map]
  induction lines with
  | nil => rfl
  | cons line lines ih =>
    have hnewline : "\n".toList = ['\n'] := rfl
    rw [List.flatMap_cons, String.toList_append, hnewline, List.append_assoc, List.singleton_append,
      List.splitOn_append_cons_self_of_not_mem line.newline_notMem_text, ih]
    rfl

/-- A text is the outline of one list of lines only. -/
theorem HasLines.unique {text : String} {a b : List OutlineLine} (ha : HasLines text a)
    (hb : HasLines text b) : a = b := by
  have hlines := List.append_cancel_right (ha.symm.trans hb)
  exact (List.map_inj_right fun x y h =>
    OutlineLine.text_injective (String.toList_injective h)).mp hlines

end RowStore
