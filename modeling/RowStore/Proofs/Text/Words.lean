/-
  RowStore/Proofs/Text/Words.lean
  ===============================
  **The words of a line.**  A line is blanks and words by turns, and there is one way only to
  take it apart so.  `Spaced` says what it means that some words are those of a line; the words
  that are split off are these and no others.  In the same way a line without the blanks
  around it is the one text that has blanks around it in the line, and none at its own ends.
-/
import Mathlib.Data.List.TakeWhile
import Mathlib.Tactic.Common
import RowStore.Text.Blank

namespace RowStore.Text

variable {gap word rest line : List Char} {words : List (List Char)} {c : Char}

/-! ## What words are -/

def AllBlank (chars : List Char) : Prop := ∀ c ∈ chars, isBlank c = true

/-- At least one character, and no blank. -/
def IsWord (chars : List Char) : Prop := chars ≠ [] ∧ ∀ c ∈ chars, isBlank c = false

instance (chars : List Char) : Decidable (AllBlank chars) :=
  decidable_of_iff (chars.all isBlank = true) List.all_eq_true

theorem isWord_iff : IsWord word ↔ word ≠ [] ∧ word.any isBlank = false := by
  simp only [IsWord, List.any_eq_false, Bool.not_eq_true]

instance (chars : List Char) : Decidable (IsWord chars) := decidable_of_iff _ isWord_iff.symm

/-- The words stand in the line one behind the other.  Each of them is a stretch without blanks
    that goes on until a blank follows or the line ends, and there is nothing but blanks around
    them. -/
inductive Spaced : List Char → List (List Char) → Prop where
  | blanks {gap : List Char} (hgap : AllBlank gap) : Spaced gap []
  | word {gap word rest : List Char} {words : List (List Char)} (hgap : AllBlank gap)
    (hword : IsWord word) (hends : ∀ c ∈ rest.head?, isBlank c = true) (hrest : Spaced rest words) :
    Spaced (gap ++ word ++ rest) (word :: words)

/-- The words of a line are these. -/
def HasWords (line : String) (words : List String) : Prop :=
  Spaced line.toList (words.map String.toList)

theorem Spaced.blank_cons (hc : isBlank c = true) (h : Spaced line words) :
    Spaced (c :: line) words := by
  cases h with
  | blanks hgap => exact .blanks (List.forall_mem_cons.mpr ⟨hc, hgap⟩)
  | word hgap hword hends hrest =>
    exact .word (List.forall_mem_cons.mpr ⟨hc, hgap⟩) hword hends hrest

/-! ## What is split off -/

/-- The words that a line is split into. -/
def wordsIn (line : List Char) : List (List Char) :=
  consWord (splitWords line).1 (splitWords line).2

theorem splitWords_of_blank (hc : isBlank c = true) :
    splitWords (c :: rest) = ([], wordsIn rest) := by
  simp only [splitWords, hc, if_true, wordsIn]

theorem splitWords_of_not_blank (hc : isBlank c = false) :
    splitWords (c :: rest) = (c :: (splitWords rest).1, (splitWords rest).2) := by
  simp only [splitWords, hc, if_false, Bool.false_eq_true]

theorem wordsIn_of_blank (hc : isBlank c = true) : wordsIn (c :: rest) = wordsIn rest := by
  rw [wordsIn, splitWords_of_blank hc, consWord, if_pos rfl]

theorem wordsIn_append_of_blank (hgap : AllBlank gap) : wordsIn (gap ++ rest) = wordsIn rest := by
  induction gap with
  | nil => rfl
  | cons c gap ih =>
    obtain ⟨hc, hgap⟩ := List.forall_mem_cons.mp hgap
    rw [List.cons_append, wordsIn_of_blank hc, ih hgap]

theorem splitWords_append (hword : ∀ c ∈ word, isBlank c = false) :
    splitWords (word ++ rest) = (word ++ (splitWords rest).1, (splitWords rest).2) := by
  induction word with
  | nil => rfl
  | cons c word ih =>
    obtain ⟨hc, hword⟩ := List.forall_mem_cons.mp hword
    rw [List.cons_append, splitWords_of_not_blank hc, ih hword]
    rfl

theorem splitWords_of_ends (hends : ∀ c ∈ rest.head?, isBlank c = true) :
    splitWords rest = ([], wordsIn rest) := by
  cases rest with
  | nil => rfl
  | cons c rest =>
    have hc := hends c rfl
    rw [splitWords_of_blank hc, wordsIn_of_blank hc]

/-- Words that stand in a line are split off. -/
theorem Spaced.wordsIn_eq (h : Spaced line words) : wordsIn line = words := by
  induction h with
  | @blanks gap hgap =>
    rw [← List.append_nil gap, wordsIn_append_of_blank hgap]
    rfl
  | @word gap word rest words hgap hword hends _ ih =>
    rw [List.append_assoc, wordsIn_append_of_blank hgap, wordsIn, splitWords_append hword.2,
      splitWords_of_ends hends, ih, List.append_nil, consWord, if_neg hword.1]

/-- The first stretch without blanks, which may be empty, and the words behind it. -/
theorem exists_splitWords (line : List Char) : ∃ rest, line = (splitWords line).1 ++ rest ∧
    (∀ c ∈ (splitWords line).1, isBlank c = false) ∧ (∀ c ∈ rest.head?, isBlank c = true) ∧
    Spaced rest (splitWords line).2 ∧ Spaced line (wordsIn line) := by
  induction line with
  | nil =>
    have hnil : Spaced [] [] := .blanks fun _ h => absurd h List.not_mem_nil
    exact ⟨[], rfl, fun _ h => absurd h List.not_mem_nil, fun _ h => absurd h (by simp), hnil, hnil⟩
  | cons c line ih =>
    obtain ⟨rest, hline, hfree, hends, hrest, hwords⟩ := ih
    cases hc : isBlank c with
    | true =>
      have hcons := hwords.blank_cons hc
      rw [wordsIn_of_blank hc, splitWords_of_blank hc]
      refine ⟨c :: line, rfl, fun _ h => absurd h List.not_mem_nil, ?_, hcons, hcons⟩
      rintro _ ⟨⟩
      exact hc
    | false =>
      have hfree' : ∀ b ∈ c :: (splitWords line).1, isBlank b = false :=
        List.forall_mem_cons.mpr ⟨hc, hfree⟩
      have hne : c :: (splitWords line).1 ≠ [] := List.cons_ne_nil _ _
      have hcons : Spaced (c :: line) ((c :: (splitWords line).1) :: (splitWords line).2) := by
        have hnone : AllBlank [] := fun _ h => absurd h List.not_mem_nil
        have hword := Spaced.word hnone ⟨hne, hfree'⟩ hends hrest
        rwa [List.nil_append, List.cons_append, ← hline] at hword
      rw [wordsIn, splitWords_of_not_blank hc, consWord, if_neg hne]
      refine ⟨rest, ?_, hfree', hends, hrest, hcons⟩
      rw [List.cons_append, ← hline]

/-- The words that a line is split into stand in it. -/
theorem spaced_wordsIn (line : List Char) : Spaced line (wordsIn line) := by
  obtain ⟨_, -, -, -, -, h⟩ := exists_splitWords line
  exact h

/-- A line has just one list of words. -/
theorem hasWords_iff {line : String} {words : List String} :
    HasWords line words ↔ Text.words line = words := by
  have hwords : Text.words line = (wordsIn line.toList).map String.ofList := rfl
  rw [hwords]
  constructor
  · intro h
    rw [h.wordsIn_eq, List.map_map]
    exact (List.map_congr_left fun _ _ => String.ofList_toList).trans (List.map_id words)
  · rintro rfl
    rw [HasWords, List.map_map]
    have hmap : (wordsIn line.toList).map (String.toList ∘ String.ofList) = wordsIn line.toList :=
      (List.map_congr_left fun _ _ => String.toList_ofList).trans (List.map_id _)
    rw [hmap]
    exact spaced_wordsIn line.toList

/-! ## Lines that are put together -/

/-- What may stand between two words. -/
def IsGap (gap : String) : Prop := AllBlank gap.toList ∧ gap ≠ ""

instance (gap : String) : Decidable (IsGap gap) :=
  inferInstanceAs (Decidable (AllBlank gap.toList ∧ gap ≠ ""))

theorem head?_of_allBlank (h : AllBlank gap) : ∀ c ∈ gap.head?, isBlank c = true :=
  fun c hc => h c (List.mem_of_mem_head? hc)

theorem IsGap.head?_append {gap : String} (h : IsGap gap) (rest : String) :
    ∀ c ∈ (gap ++ rest).toList.head?, isBlank c = true := by
  obtain ⟨hblank, hne⟩ := h
  obtain ⟨first, chars, hgap⟩ := List.exists_cons_of_ne_nil fun hnil =>
    hne (String.toList_eq_nil_iff.mp hnil)
  intro c hc
  rw [String.toList_append, hgap] at hc
  cases hc
  exact hblank first (hgap ▸ List.mem_cons_self)

theorem isBlank_of_isDigit (h : c.isDigit = true) : isBlank c = false := by
  have hrange : 48 ≤ c.toNat ∧ c.toNat ≤ 57 := by
    rw [Char.isDigit, Bool.and_eq_true, decide_eq_true_eq, decide_eq_true_eq] at h
    exact h
  simp only [isBlank, Bool.or_eq_false_iff, Bool.and_eq_false_iff, decide_eq_false_iff_not,
    beq_eq_false_iff_ne]
  omega

/-- A line may be put in front of another one that starts with a blank. -/
theorem HasWords.append {gap word rest : String} {words : List String}
    (hgap : AllBlank gap.toList) (hword : IsWord word.toList)
    (hends : ∀ c ∈ rest.toList.head?, isBlank c = true) (hrest : HasWords rest words) :
    HasWords (gap ++ (word ++ rest)) (word :: words) := by
  rw [HasWords, String.toList_append, String.toList_append, ← List.append_assoc]
  exact .word hgap hword hends hrest

/-! ## Trimmed lines -/

/-- The line is the text with blanks around it, and the text has none at its ends. -/
def TrimsTo (line text : String) : Prop := ∃ before after,
  line.toList = before ++ text.toList ++ after ∧ AllBlank before ∧ AllBlank after ∧
    (∀ c ∈ text.toList.head?, isBlank c = false) ∧ (∀ c ∈ text.toList.getLast?, isBlank c = false)

theorem dropWhile_append_of_blank (hgap : AllBlank gap) :
    (gap ++ rest).dropWhile isBlank = rest.dropWhile isBlank := by
  rw [List.dropWhile_append, List.dropWhile_eq_nil_iff.mpr hgap]
  rfl

theorem dropWhile_of_head (h : ∀ c ∈ line.head?, isBlank c = false) :
    line.dropWhile isBlank = line := by
  cases line with
  | nil => rfl
  | cons c line => exact List.dropWhile_cons_of_neg (by rw [h c rfl]; exact Bool.false_ne_true)

theorem head?_dropWhile (line : List Char) :
    ∀ c ∈ (line.dropWhile isBlank).head?, isBlank c = false := by
  intro c hc
  have h := List.head?_dropWhile_not isBlank line
  rw [hc] at h
  exact h

/-- Both ends of a line are trimmed alike. -/
theorem toList_trim (line : String) : (trim line).toList =
    ((line.toList.dropWhile isBlank).reverse.dropWhile isBlank).reverse := String.toList_ofList

theorem AllBlank.reverse (h : AllBlank gap) : AllBlank gap.reverse :=
  fun c hc => h c (List.mem_reverse.mp hc)

theorem allBlank_takeWhile (line : List Char) : AllBlank (line.takeWhile isBlank) :=
  fun _ hc => List.mem_takeWhile_imp hc

theorem TrimsTo.trim_eq {line text : String} (h : TrimsTo line text) : trim line = text := by
  obtain ⟨before, after, hline, hbefore, hafter, hhead, hlast⟩ := h
  rw [← String.toList_inj, toList_trim, hline, List.append_assoc, dropWhile_append_of_blank hbefore]
  cases htext : text.toList with
  | nil =>
    rw [List.nil_append, List.dropWhile_eq_nil_iff.mpr hafter]
    rfl
  | cons c chars =>
    rw [htext] at hhead hlast
    have hfront : ∀ b ∈ (c :: chars ++ after).head?, isBlank b = false := hhead
    rw [dropWhile_of_head hfront, List.reverse_append, dropWhile_append_of_blank hafter.reverse]
    rw [dropWhile_of_head (by rwa [List.head?_reverse]), List.reverse_reverse]

theorem trimsTo_trim (line : String) : TrimsTo line (trim line) := by
  have hfront := List.takeWhile_append_dropWhile (p := isBlank) (l := line.toList)
  have hhead := head?_dropWhile line.toList
  have htrim := toList_trim line
  generalize line.toList.dropWhile isBlank = tail at hfront hhead htrim
  have hback := congrArg List.reverse
    (List.takeWhile_append_dropWhile (p := isBlank) (l := tail.reverse))
  rw [List.reverse_append, List.reverse_reverse, ← htrim] at hback
  refine ⟨_, _, ?_, allBlank_takeWhile line.toList,
    (allBlank_takeWhile tail.reverse).reverse, ?_, ?_⟩
  · rw [List.append_assoc, hback, hfront]
  · intro c hc
    refine hhead c ?_
    rw [← hback, List.head?_append, hc]
    rfl
  · intro c hc
    rw [htrim, List.getLast?_reverse] at hc
    exact head?_dropWhile _ c hc

/-- There is just one text that a line is trimmed to. -/
theorem trimsTo_iff {line text : String} : TrimsTo line text ↔ trim line = text :=
  ⟨TrimsTo.trim_eq, fun h => h ▸ trimsTo_trim line⟩

end RowStore.Text
