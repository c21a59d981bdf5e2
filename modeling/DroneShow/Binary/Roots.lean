-- Square roots, cube roots and the principal cube root of a complex number.
-- All are computed from integer roots, with enough digits for one rounding.
import DroneShow.Binary.Arithmetic

namespace DroneShow

/-- Tries the bits below `2 ^ bits` from the highest down, and keeps each
that leaves `n`-th powers within `x`. -/
def rootBits (n x : Nat) : Nat → Nat → Nat
  | 0, root => root
  | bits + 1, root =>
    let next := root + 1 <<< bits
    rootBits n x bits (if Nat.pow next n ≤ x then next else root)

/-- The greatest integer whose `n`-th power is at most `x`. -/
def floorRoot (n x : Nat) : Nat := rootBits n x (x.log2 / n + 1) 0

namespace Binary

variable {F : Format}

/-- The `n`-th root of `num * 2 ^ exponent`, rounded to nearest. The integer
root has two bits more than a significand, and a last bit tells whether
anything was cut off. -/
def rootScaled (n : Nat) (negative : Bool) (num : Nat) (exponent : Int) : Binary F :=
  if num = 0 then zero negative
  else
    let wanted := n * (F.precision + 2) - num.log2
    let shift := wanted + ((exponent - wanted) % n).toNat
    let scaled := num <<< shift
    let root := floorRoot n scaled
    let cut := if Nat.pow root n = scaled then 0 else 1
    ofScaled negative (2 * root + cut) 1 ((exponent - shift) / n - 1)

/-- The square root; zero keeps its sign. -/
def sqrt : Binary F → Binary F
  | .nan => .nan
  | .number n r h =>
    if r = 0 then .number n r h
    else if n then .nan
    else if r = F.infinityRank then .number n r h
    else rootScaled 2 false (F.significand r) (F.exponent r)

/-- The cube root, with the sign of the number. -/
def cbrt : Binary F → Binary F
  | .nan => .nan
  | .number n r h =>
    if r = F.infinityRank then .number n r h
    else rootScaled 3 n (F.significand r) (F.exponent r)

/-! ## The principal cube root of a complex number -/

/-- The greatest `x` from `low` on, within `bits` more bits, with
`4 x ^ 3 - 3 r x ≤ a`. -/
def cosineBits (r : Nat) (a : Int) : Nat → Nat → Nat
  | 0, x => x
  | bits + 1, x =>
    let next := x + 1 <<< bits
    let value : Int := next * (4 * (next * next)) - next * (3 * r)
    cosineBits r a bits (if value ≤ a then next else x)

/-- The number of bits to which the modulus of a cube root is found. -/
def cubeRootBits : Nat := 120

/-- The cube root of `a + b i` with an angle of at most a third of a half
turn, for integers with `b ≥ 0`. With `r` the square of its modulus, its real
part is the greatest root of `4 x ^ 3 - 3 r x = a`, by the triple angle
formula of the cosine, and lies between half the modulus and the modulus. -/
def principalCubeRoot (a : Int) (b : Nat) : Nat × Nat :=
  let r := floorRoot 3 (a.natAbs * a.natAbs + b * b)
  let modulus := floorRoot 2 r
  let re := cosineBits r a (modulus.log2 + 1) (modulus / 2)
  (re, floorRoot 2 (r - re * re))

/-- The principal cube root of a complex number with a non-negative
imaginary part, as real and imaginary parts. -/
def complexCbrt : Binary F → Binary F → Binary F × Binary F
  | .number n r _, .number _ r' _ =>
    if r = F.infinityRank ∨ r' = F.infinityRank then (.nan, .nan)
    else if r = 0 ∧ r' = 0 then (zero false, zero false)
    else
      let low := min (F.binade r) (F.binade r')
      let a := shifted n (F.significand r) (F.binade r - low)
      let b := F.significand r' <<< (F.binade r' - low)
      let exponent := F.minExponent + low
      let wanted := 3 * cubeRootBits - max a.natAbs.log2 b.log2
      let shift := wanted + ((exponent - wanted) % 3).toNat
      let root := principalCubeRoot (a * (1 <<< shift : Nat)) (b <<< shift)
      let e := (exponent - shift) / 3
      (ofScaled false root.1 1 e, ofScaled false root.2 1 e)
  | _, _ => (.nan, .nan)

end Binary

end DroneShow
