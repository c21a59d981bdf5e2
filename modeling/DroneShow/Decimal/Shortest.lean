-- The shortest decimal text that reads back as a given number. All numbers
-- nearer to a finite number than to its neighbours read back as it; of the
-- shortest decimals among them the one nearest to the number is written.
import DroneShow.Binary.Rounding

namespace DroneShow.Decimal

/-- The decimals `m * 10 ^ k` whose value reads back as one magnitude, as
bounds on fractions: `low / den < m * 10 ^ k < high / den`, with the bounds
themselves if `closed`. The magnitude itself is `mid / den`. -/
structure Bracket where
  low : Nat
  mid : Nat
  high : Nat
  den : Nat
  closed : Bool

/-- The bracket of a finite rank. The step below the first rank of a binade is
half of the one above it. An even significand takes the bounds with it. -/
def Bracket.ofRank (F : Format) (rank : Nat) : Bracket :=
  let m := F.significand rank
  let e := F.exponent rank - 2
  let below := if m = F.unit ∧ 0 < F.binade rank then 1 else 2
  let up := 1 <<< e.toNat
  ⟨(4 * m - below) * up, 4 * m * up, (4 * m + 2) * up, 1 <<< (-e).toNat, m % 2 = 0⟩

/-- Whether `m * 10 ^ k` reads back. -/
def Bracket.holds (b : Bracket) (m : Nat) (k : Int) : Bool :=
  let num := m * Nat.pow 10 k.toNat * b.den
  let scale := Nat.pow 10 (-k).toNat
  if b.closed then b.low * scale ≤ num && num ≤ b.high * scale
  else b.low * scale < num && num < b.high * scale

/-- The greatest `k` with `10 ^ k ≤ num / den`, for `num / den` below one:
tries ever larger powers to multiply with. -/
def negativeMagnitude (num den : Nat) : (tries : Nat) → (power : Nat) → Int
  | 0, power => -power
  | tries + 1, power =>
    if den ≤ num * Nat.pow 10 power then -power else negativeMagnitude num den tries (power + 1)

/-- The greatest `k` with `10 ^ k ≤ num / den`. -/
def decimalMagnitude (num den : Nat) : Int :=
  if den ≤ num then ((Nat.toDigits 10 (num / den)).length : Int) - 1
  else negativeMagnitude num den 400 1

/-- Of the two neighbours of the magnitude on the grid of multiples of
`10 ^ k`, the one that reads back, or the nearer if both do; a tie goes to
the even one. -/
def Bracket.onGrid? (b : Bracket) (k : Int) : Option Nat :=
  let num := b.mid * Nat.pow 10 (-k).toNat
  let den := b.den * Nat.pow 10 k.toNat
  let lower := num / den
  match b.holds lower k, b.holds (lower + 1) k with
  | true, true => some (roundDiv num den)
  | true, false => some lower
  | false, true => some (lower + 1)
  | false, false => none

/-- Tries grids with ever more digits. -/
def Bracket.search (b : Bracket) : (tries : Nat) → (k : Int) → Nat × Int
  | 0, k => (b.mid * Nat.pow 10 (-k).toNat / (b.den * Nat.pow 10 k.toNat), k)
  | tries + 1, k =>
    match b.onGrid? k with
    | some m => (m, k)
    | none => Bracket.search b tries (k - 1)

/-- Takes trailing zeros off the digits. -/
def dropZeros : (tries : Nat) → Nat × Int → Nat × Int
  | 0, mk => mk
  | tries + 1, (m, k) => if m ≠ 0 ∧ m % 10 = 0 then dropZeros tries (m / 10, k + 1) else (m, k)

/-- The digits and the exponent of ten of the shortest decimal of a positive
finite rank. -/
def shortest (F : Format) (rank : Nat) : Nat × Int :=
  let b := Bracket.ofRank F rank
  dropZeros 20 (b.search 17 (decimalMagnitude b.mid b.den))

/-- How digits are laid out: up to `whole` places before the point and up to
`zeros` zeros behind it they are written in place, else with an exponent. -/
structure Style where
  whole : Int
  zeros : Int
  /-- Whether a positive exponent has a sign. -/
  plus : Bool

/-- The exponent behind the digits. -/
def exponentText (style : Style) (e : Int) : List Char :=
  let sign := if e < 0 then ['-'] else if style.plus then ['+'] else []
  'e' :: sign ++ Nat.toDigits 10 e.natAbs

/-- The digits with `point` of them before the decimal point. -/
def layOut (style : Style) (digits : List Char) (point : Int) : List Char :=
  let n : Int := digits.length
  if n ≤ point ∧ point ≤ style.whole then
    digits ++ List.replicate (point - n).toNat '0' ++ ['.', '0']
  else if 0 < point ∧ point ≤ style.whole then
    digits.take point.toNat ++ '.' :: digits.drop point.toNat
  else if -style.zeros ≤ point ∧ point ≤ 0 then
    '0' :: '.' :: List.replicate (-point).toNat '0' ++ digits
  else
    let exponent := exponentText style (point - 1)
    match digits with
    | [] => exponent
    | [d] => d :: exponent
    | d :: rest => d :: '.' :: rest ++ exponent

/-- The shortest text of a finite number; infinities and no number have none. -/
def write? {F : Format} (style : Style) : Binary F → Option String
  | .nan => none
  | .number negative rank _ =>
    if rank = F.infinityRank then none
    else
      let sign := if negative then ['-'] else []
      if rank = 0 then some (String.ofList (sign ++ ['0', '.', '0']))
      else
        let (m, k) := shortest F rank
        let digits := Nat.toDigits 10 m
        some (String.ofList (sign ++ layOut style digits (digits.length + k)))

end DroneShow.Decimal
