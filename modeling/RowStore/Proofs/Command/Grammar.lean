/-
  RowStore/Proofs/Command/Grammar.lean
  ====================================
  **The grammar of statements.**  What comes of a line hangs on its words.  Four words of which
  the first is `insert` name a row, if the second is the number of an id and the other two fit
  their columns.  If something is wrong with them, the number is looked at first; a negative
  one and texts that are too long have reasons of their own, and all else that starts with
  `insert` is bad syntax.

  Numbers are written as the grammar of numerals says (`Denotes`): a sign or none, and then
  decimal digits, of which there may be any number of zeros in front.  So each id has many
  spellings, minus zero among those of zero, and a row can be written in any of them.
-/
import RowStore.Command.Statement
import RowStore.Proofs.Row
import RowStore.Proofs.Text.Words

namespace RowStore.Statement

/-! ## Numbers -/

/-- At least one character, and decimal digits only. -/
def IsNumeral (digits : List Char) : Prop := digits ≠ [] ∧ ∀ c ∈ digits, c.isDigit = true

/-- The integer that a word denotes. -/
inductive Denotes : String → Int → Prop where
  | unsigned {digits : List Char} (h : IsNumeral digits) :
    Denotes (String.ofList digits) (Nat.ofDigitChars 10 digits 0)
  | plus {digits : List Char} (h : IsNumeral digits) :
    Denotes (String.ofList ('+' :: digits)) (Nat.ofDigitChars 10 digits 0)
  | minus {digits : List Char} (h : IsNumeral digits) :
    Denotes (String.ofList ('-' :: digits)) (-(Nat.ofDigitChars 10 digits 0 : Int))

/-- The integer of a size and a sign. -/
def signedInt (minus : Bool) (n : Nat) : Int := if minus then -n else n

theorem signedInt_true (n : Nat) : signedInt true n = -n := rfl

theorem signedInt_false (n : Nat) : signedInt false n = n := rfl

variable {word : String} {digits : List Char} {n : Nat} {i : Int} {id : UInt32} {minus : Bool}

theorem natOfDigits?_of_isNumeral (h : IsNumeral digits) :
    natOfDigits? digits = some (Nat.ofDigitChars 10 digits 0) :=
  if_pos ⟨h.1, List.all_eq_true.mpr h.2⟩

theorem of_natOfDigits? (h : natOfDigits? digits = some n) :
    IsNumeral digits ∧ n = Nat.ofDigitChars 10 digits 0 := by
  rw [natOfDigits?] at h
  split_ifs at h with hdigits
  cases h
  exact ⟨⟨hdigits.1, List.all_eq_true.mp hdigits.2⟩, rfl⟩

theorem denotes_of_signed? (h : signed? word = some (minus, n)) :
    Denotes word (signedInt minus n) := by
  rw [← String.ofList_toList (s := word)]
  rw [signed?] at h
  split at h
  all_goals
    rename_i hword
    obtain ⟨_, hdigits, hpair⟩ := Option.map_eq_some_iff.mp h
    obtain ⟨hnumeral, rfl⟩ := of_natOfDigits? hdigits
    cases hpair
  · rw [hword]
    exact .minus hnumeral
  · rw [hword]
    exact .plus hnumeral
  · exact .unsigned hnumeral

/-- A sign is no digit, so a numeral is read as one without a sign. -/
theorem signed?_of_isNumeral (h : IsNumeral digits) :
    signed? (String.ofList digits) = some (false, Nat.ofDigitChars 10 digits 0) := by
  have hplus : '+' ∉ digits := fun hmem => absurd (h.2 _ hmem) (by decide)
  have hminus : '-' ∉ digits := fun hmem => absurd (h.2 _ hmem) (by decide)
  rw [signed?, String.toList_ofList]
  split
  · exact absurd List.mem_cons_self hminus
  · exact absurd List.mem_cons_self hplus
  · rw [natOfDigits?_of_isNumeral h]
    rfl

theorem exists_signed?_of_denotes (h : Denotes word i) :
    ∃ minus n, signed? word = some (minus, n) ∧ i = signedInt minus n := by
  cases h with
  | unsigned h => exact ⟨false, _, signed?_of_isNumeral h, rfl⟩
  | @plus digits h =>
    refine ⟨false, _, ?_, rfl⟩
    rw [signed?, String.toList_ofList]
    simp only [natOfDigits?_of_isNumeral h, Option.map_some]
  | @minus digits h =>
    refine ⟨true, _, ?_, rfl⟩
    rw [signed?, String.toList_ofList]
    simp only [natOfDigits?_of_isNumeral h, Option.map_some]

/-! ### Ids -/

theorem parseId_of_denotes (h : Denotes word id.toNat) : parseId word = .ok id := by
  obtain ⟨minus, n, hsigned, hvalue⟩ := exists_signed?_of_denotes h
  have hid := id.toNat_lt
  have hn : n = id.toNat ∧ ¬(minus = true ∧ 0 < n) := by
    cases minus with
    | true =>
      rw [signedInt_true] at hvalue
      exact ⟨by omega, fun h => by omega⟩
    | false =>
      rw [signedInt_false] at hvalue
      exact ⟨by omega, fun h => Bool.false_ne_true h.1⟩
  obtain ⟨rfl, hnegative⟩ := hn
  rw [parseId, hsigned]
  simp only [if_neg hnegative, idCount, if_pos hid, UInt32.ofNat_toNat]
  rfl

theorem parseId_of_negative (h : Denotes word i) (hmin : -9223372036854775808 ≤ i) (hneg : i < 0) :
    parseId word = .error .negativeId := by
  obtain ⟨minus, n, hsigned, rfl⟩ := exists_signed?_of_denotes h
  have hn : (minus = true ∧ 0 < n) ∧ n ≤ maxNegative := by
    rw [maxNegative]
    cases minus with
    | true =>
      rw [signedInt_true] at hmin hneg
      exact ⟨⟨rfl, by omega⟩, by omega⟩
    | false =>
      rw [signedInt_false] at hneg
      omega
  rw [parseId, hsigned]
  simp only [if_pos hn.1, if_pos hn.2]
  rfl

/-- A word that is no id and no negative number of 64 bits is bad syntax. -/
theorem parseId_cases (word : String) : (∃ id : UInt32, Denotes word id.toNat) ∨
    (∃ i, Denotes word i ∧ -9223372036854775808 ≤ i ∧ i < 0) ∨
    parseId word = .error .syntaxError := by
  cases hsigned : signed? word with
  | none =>
    refine .inr (.inr ?_)
    rw [parseId, hsigned]
    rfl
  | some pair =>
    obtain ⟨minus, n⟩ := pair
    have hdenotes := denotes_of_signed? hsigned
    by_cases hneg : minus = true ∧ 0 < n
    · obtain ⟨rfl, hpos⟩ := hneg
      by_cases hmin : n ≤ maxNegative
      · rw [maxNegative] at hmin
        refine .inr (.inl ⟨_, hdenotes, ?_⟩)
        rw [signedInt_true]
        omega
      · refine .inr (.inr ?_)
        rw [parseId, hsigned]
        simp only [hpos, and_self, if_true, if_neg hmin]
        rfl
    · by_cases hlt : n < idCount
      · have hindex : (UInt32.ofNat n).toNat = n := UInt32.toNat_ofNat_of_lt hlt
        refine .inl ⟨UInt32.ofNat n, ?_⟩
        rw [hindex]
        have hvalue : signedInt minus n = n := by
          cases minus with
          | true =>
            -- Minus zero is zero.
            obtain rfl : n = 0 := Nat.eq_zero_of_not_pos fun hpos => hneg ⟨rfl, hpos⟩
            rfl
          | false => rfl
        rwa [hvalue] at hdenotes
      · refine .inr (.inr ?_)
        rw [parseId, hsigned]
        simp only [if_neg hneg, if_neg hlt]
        rfl

theorem isNumeral_toDigits (n : Nat) : IsNumeral (Nat.toDigits 10 n) :=
  ⟨Nat.toDigits_ne_nil, fun _ hc => Nat.isDigit_of_mem_toDigits (by decide) (by decide) hc⟩

theorem toString_eq (id : UInt32) : toString id = String.ofList (Nat.toDigits 10 id.toNat) :=
  Nat.toString_eq_ofList_toDigits

/-- An id is read back from its digits. -/
theorem denotes_toString (id : UInt32) : Denotes (toString id) id.toNat := by
  have hdenotes := Denotes.unsigned (isNumeral_toDigits id.toNat)
  rw [Nat.ofDigitChars_toDigits (by decide) (by decide)] at hdenotes
  rwa [toString_eq]

/-! ## What words name -/

variable {line : String} {tokens : List String} {row : Row}

/-- The words are those of an insert of the row. -/
def NamesRow (tokens : List String) (row : Row) : Prop := ∃ word,
  tokens = ["insert", word, row.username, row.email] ∧ Denotes word row.id.toNat ∧
    row.username.utf8ByteSize ≤ Row.usernameSize ∧ row.email.utf8ByteSize ≤ Row.emailSize

/-- The words are those of an insert, but for the number, which is negative. -/
def NamesNegative (tokens : List String) : Prop := ∃ word username email i,
  tokens = ["insert", word, username, email] ∧ Denotes word i ∧ -9223372036854775808 ≤ i ∧ i < 0

/-- The words are those of an insert, but for the texts, one of which is too long. -/
def NamesOverlong (tokens : List String) : Prop := ∃ (word username email : String) (id : UInt32),
  tokens = ["insert", word, username, email] ∧ Denotes word id.toNat ∧
    (Row.usernameSize < username.utf8ByteSize ∨ Row.emailSize < email.utf8ByteSize)

theorem parseRow_of_denotes {username email : String} (h : Denotes word id.toNat) :
    parseRow [word, username, email] =
      if (Row.mk id username email).fits then .ok ⟨id, username, email⟩
      else .error .stringTooLong := by
  have hid : parseId word = pure id := parseId_of_denotes h
  rw [parseRow, hid, pure_bind, Row.ofFields?]
  split_ifs <;> rfl

theorem parse_insert {fields : List String} (h : Text.words line = "insert" :: fields) :
    parse line = insert <$> parseRow fields := by
  simp only [parse, h]

theorem parse_of_namesRow (h : NamesRow (Text.words line) row) :
    parse line = .ok (.insert row) := by
  obtain ⟨word, hwords, hid, hfits⟩ := h
  rw [parse_insert hwords, parseRow_of_denotes hid, if_pos (Row.fits_iff.mpr hfits)]
  rfl

theorem parse_of_namesNegative (h : NamesNegative (Text.words line)) :
    parse line = .error .negativeId := by
  obtain ⟨word, username, email, i, hwords, hi, hmin, hneg⟩ := h
  rw [parse_insert hwords, parseRow, parseId_of_negative hi hmin hneg]
  rfl

theorem parse_of_namesOverlong (h : NamesOverlong (Text.words line)) :
    parse line = .error .stringTooLong := by
  obtain ⟨word, username, email, id, hwords, hid, hlong⟩ := h
  have hfits : ¬(Row.mk id username email).fits = true := by
    rw [Row.fits_iff, not_and_or, Nat.not_le, Nat.not_le]
    exact hlong
  rw [parse_insert hwords, parseRow_of_denotes hid, if_neg hfits]
  rfl

theorem parse_of_words_select (h : Text.words line = ["select"]) : parse line = .ok .select := by
  rw [parse, h]
  rfl

/-- All else that starts with `insert` is bad syntax. -/
theorem parse_of_malformed (h : (Text.words line).head? = some "insert")
    (hrow : ∀ row, ¬NamesRow (Text.words line) row) (hnegative : ¬NamesNegative (Text.words line))
    (hoverlong : ¬NamesOverlong (Text.words line)) : parse line = .error .syntaxError := by
  obtain ⟨fields, hwords⟩ : ∃ fields, Text.words line = "insert" :: fields :=
    List.head?_eq_some_iff.mp h
  rw [hwords] at hrow hnegative hoverlong
  rw [parse_insert hwords]
  match fields with
  | [word, username, email] =>
    rcases parseId_cases word with ⟨id, hid⟩ | ⟨i, hi, hmin, hneg⟩ | herror
    · by_cases hfits : (Row.mk id username email).fits = true
      · exact absurd ⟨word, rfl, hid, Row.fits_iff.mp hfits⟩ (hrow ⟨id, username, email⟩)
      · rw [Row.fits_iff, not_and_or, Nat.not_le, Nat.not_le] at hfits
        exact absurd ⟨word, username, email, id, rfl, hid, hfits⟩ hoverlong
    · exact absurd ⟨word, username, email, i, rfl, hi, hmin, hneg⟩ hnegative
    · rw [parseRow, herror]
      rfl
  | [] | [_] | [_, _] | _ :: _ :: _ :: _ :: _ => rfl

theorem parse_of_unrecognized (h : (Text.words line).head? ≠ some "insert")
    (hselect : Text.words line ≠ ["select"]) :
    parse line = .error (.unrecognized (Text.trim line)) := by
  rw [parse]
  split
  · rename_i hwords
    rw [hwords] at h
    exact absurd rfl h
  · exact absurd ‹_› hselect
  · rfl

/-! ## What comes of a line -/

/-- All that a line can be, with what comes of it. -/
inductive Parsed (line : String) : Except StatementError Statement → Prop where
  | row {row : Row} (h : NamesRow (Text.words line) row) : Parsed line (.ok (.insert row))
  | select (h : Text.words line = ["select"]) : Parsed line (.ok .select)
  | negative (h : NamesNegative (Text.words line)) : Parsed line (.error .negativeId)
  | overlong (h : NamesOverlong (Text.words line)) : Parsed line (.error .stringTooLong)
  | malformed (h : (Text.words line).head? = some "insert")
    (hrow : ∀ row, ¬NamesRow (Text.words line) row) (hnegative : ¬NamesNegative (Text.words line))
    (hoverlong : ¬NamesOverlong (Text.words line)) : Parsed line (.error .syntaxError)
  | unrecognized (h : (Text.words line).head? ≠ some "insert")
    (hselect : Text.words line ≠ ["select"]) :
    Parsed line (.error (.unrecognized (Text.trim line)))

theorem parsed (line : String) : Parsed line (parse line) := by
  by_cases hrow : ∃ row, NamesRow (Text.words line) row
  · obtain ⟨row, hrow⟩ := hrow
    exact parse_of_namesRow hrow ▸ .row hrow
  by_cases hnegative : NamesNegative (Text.words line)
  · exact parse_of_namesNegative hnegative ▸ .negative hnegative
  by_cases hoverlong : NamesOverlong (Text.words line)
  · exact parse_of_namesOverlong hoverlong ▸ .overlong hoverlong
  by_cases hselect : Text.words line = ["select"]
  · exact parse_of_words_select hselect ▸ .select hselect
  have hrow := not_exists.mp hrow
  by_cases h : (Text.words line).head? = some "insert"
  · exact parse_of_malformed h hrow hnegative hoverlong ▸ .malformed h hrow hnegative hoverlong
  · exact parse_of_unrecognized h hselect ▸ .unrecognized h hselect

/-! ## What is printed -/

/-- The words of an insert with blanks around them. -/
def printInsert (before first second third after : String) (row : Row) : String :=
  before ++ "insert" ++ first ++ toString row.id ++ second ++ row.username ++ third ++ row.email ++
    after

theorem hasWords_printInsert {before first second third after : String}
    (husername : Text.IsWord row.username.toList) (hemail : Text.IsWord row.email.toList)
    (hbefore : Text.AllBlank before.toList) (hfirst : Text.IsGap first)
    (hsecond : Text.IsGap second) (hthird : Text.IsGap third)
    (hafter : Text.AllBlank after.toList) :
    Text.HasWords (printInsert before first second third after row)
      ["insert", toString row.id, row.username, row.email] := by
  have hinsert : Text.IsWord "insert".toList := by decide
  have hid : Text.IsWord (toString row.id).toList := by
    obtain ⟨hne, hdigits⟩ := isNumeral_toDigits row.id.toNat
    rw [toString_eq, String.toList_ofList]
    exact ⟨hne, fun c hc => Text.isBlank_of_isDigit (hdigits c hc)⟩
  have hnone : Text.HasWords after [] := .blanks hafter
  have hlast := Text.HasWords.append hthird.1 hemail (Text.head?_of_allBlank hafter) hnone
  have hname := Text.HasWords.append hsecond.1 husername (hthird.head?_append _) hlast
  have hnumber := Text.HasWords.append hfirst.1 hid (hsecond.head?_append _) hname
  have hall := Text.HasWords.append hbefore hinsert (hfirst.head?_append _) hnumber
  simpa only [printInsert, String.append_assoc] using hall

/-- **Lines are read by the grammar, and by nothing else.**  A line has one list of words, and
    one text that it is trimmed to.  It is an insert of a row just if its words name the row, a
    select just if `select` is its only word, and else it is refused with the reason that its
    words give; if these are no statement at all, the trimmed line is quoted.  A row whose texts
    are words that fit can be printed with any blanks around its words, and is read back. -/
theorem parse_accepts_grammar :
    (∀ line : String, ∃ (tokens : List String) (text : String),
      (∀ words, Text.HasWords line words ↔ words = tokens) ∧
      (∀ trimmed, Text.TrimsTo line trimmed ↔ trimmed = text) ∧
      (∀ row, parse line = .ok (.insert row) ↔ NamesRow tokens row) ∧
      (parse line = .ok .select ↔ tokens = ["select"]) ∧
      (parse line = .error .negativeId ↔ NamesNegative tokens) ∧
      (parse line = .error .stringTooLong ↔ NamesOverlong tokens) ∧
      (parse line = .error .syntaxError ↔ tokens.head? = some "insert" ∧
        (∀ row, ¬NamesRow tokens row) ∧ ¬NamesNegative tokens ∧ ¬NamesOverlong tokens) ∧
      (∀ quoted, parse line = .error (.unrecognized quoted) ↔ quoted = text ∧
        tokens.head? ≠ some "insert" ∧ tokens ≠ ["select"])) ∧
    (∀ (before first second third after : String) (row : Row), row.fits = true →
      Text.IsWord row.username.toList → Text.IsWord row.email.toList →
      Text.AllBlank before.toList → Text.IsGap first → Text.IsGap second → Text.IsGap third →
      Text.AllBlank after.toList →
      parse (printInsert before first second third after row) = .ok (.insert row)) := by
  constructor
  · intro line
    -- What comes of the line decides which of its readings it has.
    have hparsed {r : Except StatementError Statement} (h : parse line = r) : Parsed line r :=
      h ▸ parsed line
    refine ⟨Text.words line, Text.trim line, fun words => ?_, fun trimmed => ?_,
      fun row => ⟨fun h => ?_, parse_of_namesRow⟩, ⟨fun h => ?_, parse_of_words_select⟩,
      ⟨fun h => ?_, parse_of_namesNegative⟩, ⟨fun h => ?_, parse_of_namesOverlong⟩,
      ⟨fun h => ?_, ?_⟩, fun quoted => ⟨fun h => ?_, ?_⟩⟩
    · rw [Text.hasWords_iff, eq_comm]
    · rw [Text.trimsTo_iff, eq_comm]
    · cases hparsed h with
      | row hrow => exact hrow
    · cases hparsed h with
      | select hselect => exact hselect
    · cases hparsed h with
      | negative hnegative => exact hnegative
    · cases hparsed h with
      | overlong hoverlong => exact hoverlong
    · cases hparsed h with
      | malformed hinsert hrow hnegative hoverlong => exact ⟨hinsert, hrow, hnegative, hoverlong⟩
    · rintro ⟨hinsert, hrow, hnegative, hoverlong⟩
      exact parse_of_malformed hinsert hrow hnegative hoverlong
    · cases hparsed h with
      | unrecognized hinsert hselect => exact ⟨rfl, hinsert, hselect⟩
    · rintro ⟨rfl, hinsert, hselect⟩
      exact parse_of_unrecognized hinsert hselect
  · intro before first second third after row hfits husername hemail hbefore hfirst hsecond hthird
      hafter
    have hwords := hasWords_printInsert husername hemail hbefore hfirst hsecond hthird hafter
    refine parse_of_namesRow ⟨toString row.id, ?_, denotes_toString row.id, Row.fits_iff.mp hfits⟩
    exact Text.hasWords_iff.mp hwords

/-- A row is read back from a line with blanks of many kinds. -/
theorem parse_accepts_grammar_blanks :
    printInsert "\u3000" "\t" "  " " \u00a0" "\n" ⟨7, "bob", "b@x"⟩ =
      "\u3000insert\t7  bob \u00a0b@x\n" ∧
    parse "\u3000insert\t7  bob \u00a0b@x\n" = .ok (.insert ⟨7, "bob", "b@x"⟩) := by
  have hprint : printInsert "\u3000" "\t" "  " " \u00a0" "\n" ⟨7, "bob", "b@x"⟩ =
      "\u3000insert\t7  bob \u00a0b@x\n" := by decide
  refine ⟨hprint, ?_⟩
  rw [← hprint]
  exact parse_accepts_grammar.2 _ _ _ _ _ ⟨7, "bob", "b@x"⟩ (by decide) (by decide) (by decide)
    (by decide) (by decide) (by decide) (by decide) (by decide)

end RowStore.Statement
