/-
  RowStore/Text/Cluster/Basic.lean
  ================================
  **User-perceived characters.**  What a reader takes for one character may be several:
  a letter and its accents, the parts of a Hangul syllable, a family of emoji, a flag.
  Such a group is a *cluster*, and a text is divided into clusters by the rules of
  Unicode for extended grapheme clusters.

  The rules look at the character after a place and at the text before it.  Of the text
  before, four things count, and they are kept in a `Context`: the class of its last
  character, whether it ends in a pictograph and marks, whether it ends in an odd number
  of halves of flags, and how far it has come in a syllable of tied consonants.  So one
  pass over the text suffices (`clusters`).  Nothing is lost by it (`flatten_clusters`).
-/
import RowStore.Text.Cluster.Ranges

namespace RowStore.Text.Cluster

/-! ## Classes -/

/-- What a character does at the border of a cluster. -/
inductive Role where
  | carriageReturn
  | lineFeed
  | control
  | mark
  /-- A mark that ties consonants. -/
  | linker
  /-- A mark that keeps consonants apart. -/
  | nonJoiner
  | joiner
  | spacingMark
  | prepended
  /-- One half of a flag. -/
  | flagHalf
  | pictograph
  | consonant
  | leading
  | vowel
  | trailing
  /-- A Hangul syllable without a trailing consonant. -/
  | openSyllable
  /-- A Hangul syllable with one. -/
  | closedSyllable
  | other
deriving DecidableEq

/-- The role of a Hangul syllable; every 28th has no trailing consonant. -/
def Role.ofSyllable (n : Nat) : Role :=
  if (n - 0xAC00) % 28 = 0 then .openSyllable else .closedSyllable

/-- The role of a code point beyond ASCII. -/
def Role.ofCodePoint (n : Nat) : Role :=
  if n = 0x200C then .nonJoiner
  else if n = 0x200D then .joiner
  else if 0xAC00 ≤ n ∧ n ≤ 0xD7A3 then .ofSyllable n
  else if 0x1F1E6 ≤ n ∧ n ≤ 0x1F1FF then .flagHalf
  else if Ranges.linkers.covers n then .linker
  else if Ranges.marks.covers n then .mark
  else if Ranges.controls.covers n then .control
  else if Ranges.pictographs.covers n then .pictograph
  else if Ranges.consonants.covers n then .consonant
  else if Ranges.spacingMarks.covers n then .spacingMark
  else if Ranges.prepended.covers n then .prepended
  else if Ranges.leadings.covers n then .leading
  else if Ranges.vowels.covers n then .vowel
  else if Ranges.trailings.covers n then .trailing
  else .other

/-- The role of a character. -/
def Role.of (c : Char) : Role :=
  if c = '\r' then .carriageReturn
  else if c = '\n' then .lineFeed
  else if c.toNat < 0x20 then .control
  else if c.toNat < 0x7F then .other
  else .ofCodePoint c.toNat

/-! ## The text before a place -/

/-- How far a text has come in a syllable of tied consonants. -/
inductive Syllable where
  | outside
  /-- A consonant, and marks that do not tie. -/
  | begun
  /-- A consonant, and marks one of which ties. -/
  | tied
deriving DecidableEq

/-- What counts of the text before a place. -/
structure Context where
  last : Role
  /-- The text ends in a pictograph, marks, and at most one joiner after them. -/
  pictograph : Bool := false
  /-- The text ends in an odd number of halves of flags. -/
  halfFlag : Bool := false
  syllable : Syllable := .outside
deriving DecidableEq

namespace Context

/-- Before the first character of a text. -/
def start : Context := { last := .control }

/-- The context after one more character. -/
def push (k : Context) (role : Role) : Context where
  last := role
  pictograph := match role with
    | .pictograph => true
    | .mark | .linker | .nonJoiner | .joiner => k.pictograph && k.last ≠ .joiner
    | _ => false
  halfFlag := role = .flagHalf && !k.halfFlag
  syllable := match role with
    | .consonant => .begun
    | .linker => if k.syllable = .outside then .outside else .tied
    | .mark | .joiner => k.syllable
    | _ => .outside

/-- Whether a cluster goes on with a character of this role. -/
def joins (k : Context) (role : Role) : Bool :=
  match k.last, role with
  | .carriageReturn, .lineFeed => true
  | .carriageReturn, _ | .lineFeed, _ | .control, _ => false
  | _, .carriageReturn | _, .lineFeed | _, .control => false
  | .leading, .leading | .leading, .vowel | .leading, .openSyllable
  | .leading, .closedSyllable => true
  | .vowel, .vowel | .openSyllable, .vowel => true
  | .vowel, .trailing | .openSyllable, .trailing | .closedSyllable, .trailing
  | .trailing, .trailing => true
  | _, .mark | _, .linker | _, .nonJoiner | _, .joiner | _, .spacingMark => true
  | .prepended, _ => true
  | _, .consonant => k.syllable = .tied
  | .joiner, .pictograph => k.pictograph
  | .flagHalf, .flagHalf => k.halfFlag
  | _, _ => false

end Context

/-! ## Clusters -/

/-- Puts a character in front of clusters: into the first one, or as one of its own. -/
def consCluster (c : Char) (joined : Bool) : List (List Char) → List (List Char)
  | [] => [[c]]
  | cluster :: rest => if joined then (c :: cluster) :: rest else [c] :: cluster :: rest

/-- The clusters of a text that stands after a context. -/
def clustersAfter (k : Context) : List Char → List (List Char)
  | [] => []
  | c :: text =>
    let k := k.push (.of c)
    consCluster c (text.head?.any fun next => k.joins (.of next)) (clustersAfter k text)

/-- The clusters of a text, in order. -/
def clusters (text : List Char) : List (List Char) := clustersAfter .start text

theorem flatten_consCluster (c : Char) (joined : Bool) (rest : List (List Char)) :
    (consCluster c joined rest).flatten = c :: rest.flatten := by
  cases rest with
  | nil => rfl
  | cons cluster rest => cases joined <;> rfl

theorem flatten_clustersAfter (k : Context) (text : List Char) :
    (clustersAfter k text).flatten = text := by
  induction text generalizing k with
  | nil => rfl
  | cons c text ih => simp only [clustersAfter, flatten_consCluster, ih]

/-- The clusters of a text make up the text. -/
theorem flatten_clusters (text : List Char) : (clusters text).flatten = text :=
  flatten_clustersAfter .start text

example : clusters ['e', '\u0301', 'x'] = [['e', '\u0301'], ['x']] := by decide +kernel
example : clusters ['\r', '\n', '\n'] = [['\r', '\n'], ['\n']] := by decide +kernel

end RowStore.Text.Cluster
