-- The value of a number in JSON text. Whole numbers of 64 bits are exact. All
-- others go through a double: at most 64 bits of digits are kept, and one
-- product or quotient with a power of ten follows.
import DroneShow.Binary.Arithmetic

namespace DroneShow.Json

/-- The text of a number, split at its point and exponent. -/
structure Numeral where
  negative : Bool
  whole : List Nat
  fraction : List Nat
  /-- Whether the exponent is negative, and its digits. -/
  exponent : Option (Bool × List Nat)
deriving DecidableEq

namespace Numeral

/-- The greatest number of 64 bits. -/
def wordLimit : Nat := 18446744073709551615

/-- The greatest magnitude of a negative number of 64 bits. -/
def negativeLimit : Nat := 9223372036854775808

/-- The greatest exponent that is read; it has 31 bits. -/
def exponentLimit : Nat := 2147483647

/-- Takes up digits while the number stays within `limit`; returns it with the
digits that did not fit. -/
def takeUp (limit : Nat) : Nat → List Nat → Nat × List Nat
  | n, [] => (n, [])
  | n, d :: rest => if 10 * n + d ≤ limit then takeUp limit (10 * n + d) rest else (n, d :: rest)

/-- The greatest power of ten that one product or quotient may use. -/
def maxPower : Nat := 308

/-- `f * 10 ^ exponent` in doubles, or none where it is too large. Very small
values are reached in several quotients. -/
def scaled : (quotients : Nat) → Double → Int → Option Double
  | 0, _, _ => some (.zero false)
  | quotients + 1, f, exponent =>
    if exponent.natAbs ≤ maxPower then
      if 0 ≤ exponent then
        let product := f * Binary.ofDecimal false 1 exponent
        if product.isFinite then some product else none
      else some (f / Binary.ofDecimal false 1 (-exponent))
    else if f.same (.zero false) then some f
    else if 0 ≤ exponent then none
    else scaled quotients (f / Binary.ofDecimal false 1 maxPower) (exponent + maxPower)

/-- The exponent in the text, unless it leaves 32 bits. -/
def exponent? (digits : List Nat) : Option Nat :=
  match takeUp exponentLimit 0 digits with
  | (n, []) => some n
  | _ => none

/-- The magnitude of a number with a point, an exponent or many digits. -/
def magnitude (n : Numeral) (significand : Nat) (dropped : List Nat) : Option Double :=
  let (digits, unread) := takeUp wordLimit significand n.fraction
  let base : Int := dropped.length - (n.fraction.length - unread.length : Nat)
  match n.exponent with
  | none => scaled 4 (Binary.ofNat digits) base
  | some (negative, text) =>
    match exponent? text with
    | none => if digits ≠ 0 ∧ !negative then none else some (.zero false)
    | some e => scaled 4 (Binary.ofNat digits) (if negative then base - e else base + e)

/-- The value as a coordinate, or none where it leaves the doubles. -/
def toSingle? (n : Numeral) : Option Single :=
  let (significand, dropped) := takeUp wordLimit 0 n.whole
  if dropped.isEmpty && n.fraction.isEmpty && n.exponent.isNone then
    if !n.negative then some (Binary.ofNat significand)
    else if 0 < significand ∧ significand ≤ negativeLimit then some (Binary.ofInt (-significand))
    else some (Binary.neg (Binary.ofNat significand : Double)).convert
  else
    (n.magnitude significand dropped).map fun f =>
      (if n.negative then f.neg else f).convert

end Numeral

end DroneShow.Json
