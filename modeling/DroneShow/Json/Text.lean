-- JSON text. Strings are read by their extent and the characters they stand
-- for; documents are written with one member a line.

namespace DroneShow.Json

/-! ## The bytes of the marks -/

namespace Mark

@[match_pattern] abbrev quote : UInt8 := 34
@[match_pattern] abbrev plus : UInt8 := 43
@[match_pattern] abbrev comma : UInt8 := 44
@[match_pattern] abbrev minus : UInt8 := 45
@[match_pattern] abbrev point : UInt8 := 46
@[match_pattern] abbrev colon : UInt8 := 58
@[match_pattern] abbrev upperE : UInt8 := 69
@[match_pattern] abbrev openBracket : UInt8 := 91
@[match_pattern] abbrev backslash : UInt8 := 92
@[match_pattern] abbrev closeBracket : UInt8 := 93
@[match_pattern] abbrev lowerE : UInt8 := 101
@[match_pattern] abbrev lowerU : UInt8 := 117
@[match_pattern] abbrev openBrace : UInt8 := 123
@[match_pattern] abbrev closeBrace : UInt8 := 125

end Mark

/-! ## Strings -/

/-- The value of a hexadecimal digit. -/
def hexDigit? (byte : UInt8) : Option Nat :=
  let n := byte.toNat
  if 48 ≤ n ∧ n ≤ 57 then some (n - 48)
  else if 65 ≤ n ∧ n ≤ 70 then some (n - 55)
  else if 97 ≤ n ∧ n ≤ 102 then some (n - 87)
  else none

/-- The value of four hexadecimal digits. -/
def hexWord? (a b c d : UInt8) : Option Nat := do
  let a ← hexDigit? a
  let b ← hexDigit? b
  let c ← hexDigit? c
  let d ← hexDigit? d
  pure (((a * 16 + b) * 16 + c) * 16 + d)

/-- The byte that a one-letter escape stands for. -/
def simpleEscape? (byte : UInt8) : Option UInt8 :=
  match Char.ofNat byte.toNat with
  | '"' => some 34
  | '\\' => some 92
  | '/' => some 47
  | 'b' => some 8
  | 'f' => some 12
  | 'n' => some 10
  | 'r' => some 13
  | 't' => some 9
  | _ => none

/-- One part of a string: a byte as it stands, or a 16-bit unit that was escaped. -/
inductive Piece where
  | byte (b : UInt8)
  | unit (n : Nat)
deriving DecidableEq

/-- The parts of a string up to its closing quote, and what follows. Control
characters must be escaped. -/
def scanString : List UInt8 → List Piece → Option (List Piece × List UInt8)
  | [], _ => none
  | Mark.quote :: rest, acc => some (acc.reverse, rest)
  | Mark.backslash :: Mark.lowerU :: a :: b :: c :: d :: rest, acc =>
    match hexWord? a b c d with
    | some n => scanString rest (.unit n :: acc)
    | none => none
  | Mark.backslash :: e :: rest, acc =>
    match simpleEscape? e with
    | some b => scanString rest (.byte b :: acc)
    | none => none
  | b :: rest, acc =>
    if b < 32 || b = Mark.backslash then none else scanString rest (.byte b :: acc)

/-- The bytes of one character. -/
def utf8 (n : Nat) : List UInt8 := (String.singleton (Char.ofNat n)).toUTF8.toList

/-- The bytes of a string. Escaped units of the surrogate range must come in
pairs, each of which is one character. -/
def pieceBytes : List Piece → Option (List UInt8)
  | [] => some []
  | .byte b :: rest => (pieceBytes rest).map (b :: ·)
  | .unit n :: .unit m :: rest =>
    if 0xD800 ≤ n ∧ n < 0xDC00 then
      if 0xDC00 ≤ m ∧ m < 0xE000 then
        (pieceBytes rest).map (utf8 (0x10000 + (n - 0xD800) * 0x400 + (m - 0xDC00)) ++ ·)
      else none
    else if 0xDC00 ≤ n ∧ n < 0xE000 then none
    else (pieceBytes (.unit m :: rest)).map (utf8 n ++ ·)
  | .unit n :: rest =>
    if 0xD800 ≤ n ∧ n < 0xE000 then none else (pieceBytes rest).map (utf8 n ++ ·)

/-- The text of a string, if it is one. -/
def textOf? (pieces : List Piece) : Option String := do
  let bytes ← pieceBytes pieces
  String.fromUTF8? ⟨bytes.toArray⟩

/-! ## Writing -/

/-- A document to write: numbers come with their text. -/
inductive Document where
  | null
  | number (text : String)
  | object (members : List (String × Document))

mutual

/-- The text of a document that stands `indent` blanks deep. -/
def render (indent : Nat) : Document → String
  | .null => "null"
  | .number text => text
  | .object [] => "\x7b\x7d"
  | .object (m :: ms) =>
    "\x7b\n" ++ renderMembers (indent + 2) (m :: ms) ++ "\n" ++ "".pushn ' ' indent ++ "\x7d"

/-- The members of an object, with a comma between them. -/
def renderMembers (indent : Nat) : List (String × Document) → String
  | [] => ""
  | [(name, v)] => "".pushn ' ' indent ++ "\"" ++ name ++ "\": " ++ render indent v
  | (name, v) :: m :: ms =>
    "".pushn ' ' indent ++ "\"" ++ name ++ "\": " ++ render indent v ++ ",\n"
      ++ renderMembers indent (m :: ms)

end

end DroneShow.Json
