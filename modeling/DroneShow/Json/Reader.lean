-- Reading JSON text. Strings keep their parts, since only some of them have to
-- be text, and numbers keep their digits.
import DroneShow.Json.Number
import DroneShow.Json.Text

namespace DroneShow.Json

inductive Value where
  | null
  | bool (b : Bool)
  | number (n : Numeral)
  | string (pieces : List Piece)
  | array (elements : List Value)
  | object (members : List (List Piece × Value))

def isBlank (b : UInt8) : Bool := b = 32 || b = 10 || b = 9 || b = 13

def skipBlanks (s : List UInt8) : List UInt8 := s.dropWhile isBlank

def isDigit (b : UInt8) : Bool := 48 ≤ b && b ≤ 57

/-- The leading digits, and what follows them. -/
def digits (s : List UInt8) : List Nat × List UInt8 :=
  ((s.takeWhile isDigit).map fun b => b.toNat - 48, s.dropWhile isDigit)

/-- The whole part of a number: zero, or digits that do not start with zero. -/
def wholePart? (s : List UInt8) : Option (List Nat × List UInt8) :=
  match digits s with
  | ([], _) => none
  | (0 :: _ :: _, _) => none
  | found => some found

/-- The fraction, if a point follows; it has at least one digit. -/
def fractionPart? : List UInt8 → Option (List Nat × List UInt8)
  | Mark.point :: rest =>
    match digits rest with
    | ([], _) => none
    | found => some found
  | s => some ([], s)

/-- The exponent, if one follows; it has at least one digit. -/
def exponentPart? : List UInt8 → Option (Option (Bool × List Nat) × List UInt8)
  | e :: rest =>
    if e = Mark.lowerE || e = Mark.upperE then
      let negative := rest.head? == some Mark.minus
      let rest := if negative || rest.head? == some Mark.plus then rest.tail else rest
      match digits rest with
      | ([], _) => none
      | (found, rest) => some (some (negative, found), rest)
    else some (none, e :: rest)
  | [] => some (none, [])

/-- A number from its first digit on. -/
def numeral? (negative : Bool) (s : List UInt8) : Option (Value × List UInt8) := do
  let (whole, s) ← wholePart? s
  let (fraction, s) ← fractionPart? s
  let (exponent, s) ← exponentPart? s
  pure (.number ⟨negative, whole, fraction, exponent⟩, s)

/-- What follows a word of letters, if the text starts with it. -/
def afterWord? (word : String) (s : List UInt8) : Option (List UInt8) :=
  let bytes := word.toUTF8.toList
  if bytes.isPrefixOf s then some (s.drop bytes.length) else none

mutual

/-- One value, and what follows it. `depth` bounds the calls; the length of the
text is enough, since each call passes a byte. -/
def value? : (depth : Nat) → List UInt8 → Option (Value × List UInt8)
  | 0, _ => none
  | depth + 1, s =>
    match skipBlanks s with
    | Mark.openBracket :: rest =>
      match skipBlanks rest with
      | Mark.closeBracket :: rest => some (.array [], rest)
      | rest => (elements? depth rest []).map fun (vs, rest) => (.array vs, rest)
    | Mark.openBrace :: rest =>
      match skipBlanks rest with
      | Mark.closeBrace :: rest => some (.object [], rest)
      | rest => (members? depth rest []).map fun (ms, rest) => (.object ms, rest)
    | Mark.quote :: rest => (scanString rest []).map fun (pieces, rest) => (.string pieces, rest)
    | Mark.minus :: rest => numeral? true rest
    | s =>
      match afterWord? "null" s, afterWord? "true" s, afterWord? "false" s with
      | some rest, _, _ => some (.null, rest)
      | _, some rest, _ => some (.bool true, rest)
      | _, _, some rest => some (.bool false, rest)
      | _, _, _ => numeral? false s

/-- The elements of an array up to its end. -/
def elements? : (depth : Nat) → List UInt8 → List Value → Option (List Value × List UInt8)
  | 0, _, _ => none
  | depth + 1, s, acc =>
    match value? depth s with
    | none => none
    | some (v, rest) =>
      match skipBlanks rest with
      | Mark.comma :: rest => elements? depth rest (v :: acc)
      | Mark.closeBracket :: rest => some ((v :: acc).reverse, rest)
      | _ => none

/-- The members of an object up to its end. -/
def members? : (depth : Nat) → List UInt8 → List (List Piece × Value) →
    Option (List (List Piece × Value) × List UInt8)
  | 0, _, _ => none
  | depth + 1, s, acc =>
    match skipBlanks s with
    | Mark.quote :: rest =>
      match scanString rest [] with
      | none => none
      | some (key, rest) =>
        match skipBlanks rest with
        | Mark.colon :: rest =>
          match value? depth rest with
          | none => none
          | some (v, rest) =>
            match skipBlanks rest with
            | Mark.comma :: rest => members? depth rest ((key, v) :: acc)
            | Mark.closeBrace :: rest => some (((key, v) :: acc).reverse, rest)
            | _ => none
        | _ => none
    | _ => none

end

/-- The value of a text that holds one and nothing else but blanks. -/
def read? (bytes : List UInt8) : Option Value :=
  match value? (bytes.length + 1) bytes with
  | some (v, rest) => if (skipBlanks rest).isEmpty then some v else none
  | none => none

end DroneShow.Json
