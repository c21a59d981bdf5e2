-- Rounding an exact value to the nearest number of a format. A value is
-- given as `num / den * 2 ^ exponent`; every operation of the arithmetic
-- computes such a value exactly and rounds it once.
import DroneShow.Binary.Format

namespace DroneShow

/-- The quotient rounded to the nearest integer, a half to the even one. -/
def roundDiv (num den : Nat) : Nat :=
  let quotient := num / den
  let rest := 2 * (num % den)
  if den < rest ∨ (rest = den ∧ quotient % 2 = 1) then quotient + 1 else quotient

/-- The greatest `k` with `2 ^ k ≤ num / den`, for positive `num` and `den`. -/
def log2Div (num den : Nat) : Int :=
  let k : Int := (num.log2 : Int) - den.log2
  if 0 ≤ k then
    if num >>> k.toNat < den then k - 1 else k
  else
    if num <<< (-k).toNat < den then k - 1 else k

namespace Format

/-- The binade in which the value `num / den * 2 ^ exponent` is rounded. -/
def targetBinade (F : Format) (num den : Nat) (exponent : Int) : Nat :=
  (log2Div num den + exponent - (F.precision - 1 : Nat) - F.minExponent).toNat

/-- The rank of the magnitude nearest to `num / den * 2 ^ exponent`, a half
to the even significand. It may lie above the rank of infinity. A carry out
of the significand lands on the first rank of the next binade. -/
def nearestRank (F : Format) (num den : Nat) (exponent : Int) : Nat :=
  if num = 0 then 0
  else
    let binade := F.targetBinade num den exponent
    let shift := exponent - (F.minExponent + binade)
    let steps :=
      if 0 ≤ shift then roundDiv (num <<< shift.toNat) den
      else roundDiv num (den <<< (-shift).toNat)
    binade * F.unit + steps

end Format

namespace Binary

variable {F : Format}

/-- The number nearest to `± num / den * 2 ^ exponent`. -/
def ofScaled (negative : Bool) (num den : Nat) (exponent : Int) : Binary F :=
  ofRank negative (F.nearestRank num den exponent)

/-- The number nearest to an integer. -/
def ofInt (n : Int) : Binary F := ofScaled (n < 0) n.natAbs 1 0

/-- The number nearest to a natural number. -/
def ofNat (n : Nat) : Binary F := ofScaled false n 1 0

/-- Decimal exponents beyond this many places leave both formats' range. -/
def decimalReach : Int := 400

/-- The number nearest to `± digits * 10 ^ exponent`. -/
def ofDecimal (negative : Bool) (digits : Nat) (exponent : Int) : Binary F :=
  if digits = 0 then zero negative
  else if decimalReach < exponent then infinity negative
  else if exponent + (digits.log2 / 3 + 1 : Nat) < -decimalReach then zero negative
  else if 0 ≤ exponent then ofScaled negative (digits * Nat.pow 10 exponent.toNat) 1 0
  else ofScaled negative digits (Nat.pow 10 (-exponent).toNat) 0

end Binary

end DroneShow
