/-
  RowStore/Text/Utf8.lean
  =======================
  **Text as bytes.**  Encoding is the core library's, character by character.
  Decoding is written out here, because a column that holds no text has to be
  reported with the place and the kind of its first defect:

    * *invalid*: from some index on, the bytes cannot start any encoded text.
      Its length is that of the longest stretch from there that is still the
      beginning of some character, and at least 1;
    * *incomplete*: the bytes end inside a character that was well formed so far.

  A first byte decides how many bytes follow, and narrows the range of the second
  one, which is what keeps overlong forms, surrogates and numbers above U+10FFFF
  out.  All further bytes lie between 80 and BF.
-/
namespace RowStore.Utf8

/-- Where and how a byte string first fails to be text. -/
inductive Defect where
  | invalid (length index : Nat)
  | incomplete (index : Nat)
deriving DecidableEq

def Defect.message : Defect → String
  | .invalid length index => s!"invalid utf-8 sequence of {length} bytes from index {index}"
  | .incomplete index => s!"incomplete utf-8 byte sequence from index {index}"

/-- The bytes of a text. -/
def encode (s : String) : List UInt8 := s.toList.flatMap String.utf8EncodeChar

/-- A byte that continues a character. -/
def isTail (b : UInt8) : Bool := 0x80 ≤ b && b ≤ 0xBF

/-- The second bytes that may follow a first byte of a longer character. -/
def isSecond (first b : UInt8) : Bool :=
  if first = 0xE0 then 0xA0 ≤ b && b ≤ 0xBF
  else if first = 0xED then 0x80 ≤ b && b ≤ 0x9F
  else if first = 0xF0 then 0x90 ≤ b && b ≤ 0xBF
  else if first = 0xF4 then 0x80 ≤ b && b ≤ 0x8F
  else isTail b

/-- How many bytes the character has that starts with a byte, 0 if none does. -/
def width (first : UInt8) : Nat :=
  if first < 0x80 then 1
  else if first < 0xC2 then 0
  else if first < 0xE0 then 2
  else if first < 0xF0 then 3
  else if first < 0xF5 then 4
  else 0

def char2 (a b : UInt8) : Char := Char.ofNat (a.toNat % 32 * 64 + b.toNat % 64)

def char3 (a b c : UInt8) : Char :=
  Char.ofNat (a.toNat % 16 * 4096 + b.toNat % 64 * 64 + c.toNat % 64)

def char4 (a b c d : UInt8) : Char :=
  Char.ofNat (a.toNat % 8 * 262144 + b.toNat % 64 * 4096 + c.toNat % 64 * 64 + d.toNat % 64)

/-- The characters of a byte string, the first of which stands at `index`. -/
def decodeFrom (index : Nat) : List UInt8 → Except Defect (List Char)
  | [] => .ok []
  | a :: rest =>
    match width a with
    | 1 => (Char.ofNat a.toNat :: ·) <$> decodeFrom (index + 1) rest
    | 2 =>
      match rest with
      | [] => .error (.incomplete index)
      | b :: rest =>
        if isTail b then (char2 a b :: ·) <$> decodeFrom (index + 2) rest
        else .error (.invalid 1 index)
    | 3 =>
      match rest with
      | [] => .error (.incomplete index)
      | b :: rest =>
        if isSecond a b then
          match rest with
          | [] => .error (.incomplete index)
          | c :: rest =>
            if isTail c then (char3 a b c :: ·) <$> decodeFrom (index + 3) rest
            else .error (.invalid 2 index)
        else .error (.invalid 1 index)
    | 4 =>
      match rest with
      | [] => .error (.incomplete index)
      | b :: rest =>
        if isSecond a b then
          match rest with
          | [] => .error (.incomplete index)
          | c :: rest =>
            if isTail c then
              match rest with
              | [] => .error (.incomplete index)
              | d :: rest =>
                if isTail d then (char4 a b c d :: ·) <$> decodeFrom (index + 4) rest
                else .error (.invalid 3 index)
            else .error (.invalid 2 index)
        else .error (.invalid 1 index)
    | _ => .error (.invalid 1 index)

/-- The text that a byte string encodes. -/
def decode (bytes : List UInt8) : Except Defect String := String.ofList <$> decodeFrom 0 bytes

example : decode [0x61, 0xC3, 0xA9] = .ok "aé" := by cbv
example : decode [0x61, 0xE2, 0x82] = .error (.incomplete 1) := by cbv
example : decode [0xF0, 0x9F, 0xA6, 0x41] = .error (.invalid 3 0) := by cbv
example : decode [0xED, 0xA0, 0x80] = .error (.invalid 1 0) := by cbv

end RowStore.Utf8
