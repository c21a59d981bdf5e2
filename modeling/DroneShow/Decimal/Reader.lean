-- Reading a number from decimal text: digits with an optional sign, point
-- and exponent, or one of the words for infinity and no number.
import DroneShow.Binary.Rounding

namespace DroneShow.Decimal

/-- The number that digit characters stand for. -/
def ofDigits (digits : List Char) : Nat :=
  digits.foldl (fun acc c => 10 * acc + (c.toNat - '0'.toNat)) 0

/-- The leading digits, and what follows them. -/
def takeDigits (cs : List Char) : List Char × List Char :=
  (cs.takeWhile Char.isDigit, cs.dropWhile Char.isDigit)

/-- An exponent with an optional sign; at least one digit, and nothing after. -/
def exponent? (cs : List Char) : Option Int :=
  let negative := cs.head? == some '-'
  let rest := if negative || cs.head? == some '+' then cs.tail else cs
  let (digits, rest) := takeDigits rest
  if digits.isEmpty || !rest.isEmpty then none
  else some (if negative then -(ofDigits digits : Int) else ofDigits digits)

/-- The digits and the exponent of ten of a number without a sign. -/
def unsigned? (cs : List Char) : Option (Nat × Int) :=
  let (whole, rest) := takeDigits cs
  let (fraction, rest) := if rest.head? == some '.' then takeDigits rest.tail else ([], rest)
  if whole.isEmpty && fraction.isEmpty then none
  else
    let digits := ofDigits (whole ++ fraction)
    match rest with
    | [] => some (digits, -fraction.length)
    | c :: rest =>
      if c = 'e' || c = 'E' then (exponent? rest).map fun e => (digits, e - fraction.length)
      else none

/-- The numbers with names, in any case of letters. -/
def named? {F : Format} (negative : Bool) (word : String) : Option (Binary F) :=
  match word.toLower with
  | "inf" | "infinity" => some (.infinity negative)
  | "nan" => some .nan
  | _ => none

/-- The number nearest to the one that the text stands for, if it is a number. -/
def read? {F : Format} (text : String) : Option (Binary F) :=
  let cs := text.toList
  let negative := cs.head? == some '-'
  let rest := if negative || cs.head? == some '+' then cs.tail else cs
  match unsigned? rest with
  | some (digits, exponent) => some (.ofDecimal negative digits exponent)
  | none => named? negative (String.ofList rest)

end DroneShow.Decimal
