-- Polynomials of one variable in the power basis, of degree at most seven.
-- A polynomial has eight slots, of which a counted first part is in use; the
-- degree of a curve in a record never needs more.
import DroneShow.Scalar
import DroneShow.Fault

namespace DroneShow

/-- The number of coefficient slots. -/
def polySlots : Nat := 8

structure Poly (α : Type) where
  slots : Vector α polySlots
  count : Nat

namespace Poly

variable {α β : Type} [Scalar α]

/-- Coefficients of at most this magnitude count as zero. -/
def negligible : α := Scalar.ofDecimal 1 5

/-- The slots in use, in increasing order of degree. -/
def coeffs (p : Poly α) : List α := p.slots.toList.take p.count

/-- Writes the slots in use from a list and keeps the others. -/
def writeSlots (p : Poly α) (values : List α) : Vector α polySlots :=
  p.slots.mapIdx fun i old => values.getD i old

def constant (x : α) : Poly α := ⟨(Vector.replicate polySlots 0).set 0 x (by decide), 1⟩

def zero : Poly α := constant 0

/-- Goes from `x0` at time zero to `x1` at `duration`. Without a positive
duration it is `x1` throughout. -/
def linear (duration x0 x1 : α) : Poly α :=
  if duration ≤ 0 then constant x1
  else ⟨(constant x0).slots.set 1 ((x1 - x0) / duration) (by decide), 2⟩

/-- Horner's scheme, for any `t`. -/
def eval (p : Poly α) (t : α) : α := p.coeffs.foldr (fun c acc => acc * t + c) 0

/-- The coefficients of the derivative of a coefficient list whose first
entry has degree `i`. -/
def weighted (i : Nat) : List α → List α
  | [] => []
  | c :: rest => Scalar.ofNat i * c :: weighted (i + 1) rest

/-- The derivative. The slot that falls out of use is cleared. -/
def derivative (p : Poly α) : Poly α :=
  if p.count ≤ 1 then ⟨p.slots.set 0 0 (by decide), 1⟩
  else ⟨p.writeSlots (weighted 1 (p.coeffs.drop 1) ++ [0]), p.count - 1⟩

/-- Multiplies every coefficient by `factor`. -/
def scale (p : Poly α) (factor : α) : Poly α :=
  { p with slots := p.writeSlots (p.coeffs.map (· * factor)) }

/-- The coefficients without the negligible ones of highest degree. -/
def significant (p : Poly α) : List α :=
  (p.coeffs.reverse.dropWhile fun c => decide (Scalar.abs c ≤ negligible)).reverse

def degree (p : Poly α) : Nat := p.significant.length - 1

def isConstant (p : Poly α) : Bool := p.significant.length ≤ 1

/-- Equality of the counts and, as numbers, of all slots. -/
def same (p q : Poly α) : Bool :=
  p.count == q.count && (p.slots.toList.zip q.slots.toList).all fun (a, b) => Scalar.same a b

/-! ## Operations through the wider number system -/

variable [Scalar β] [Widening α β]

/-- Horner's scheme in the wider system. -/
def evalWide (p : Poly α) (t : β) : β :=
  p.coeffs.foldr (fun c acc => acc * t + Widening.widen c) 0

/-- Multiplies the coefficients by `power`, `power * ratio` and so on. -/
def stretched (ratio : β) : β → List α → List α
  | _, [] => []
  | power, c :: rest =>
    Widening.narrow (Widening.widen c * power) :: stretched ratio (power * ratio) rest

/-- Stretches along the time axis: the result at `t` is `p` at `t / factor`. -/
def stretch (p : Poly α) (factor : α) : Poly α :=
  { p with slots := p.writeSlots (stretched (1 / Widening.widen factor) 1 p.coeffs) }

/-- `n` factorial. -/
def factorial : Nat → Nat
  | 0 => 1
  | n + 1 => (n + 1) * factorial n

/-- The weight of control point `i` in coefficient `j` of a curve of degree
`n`, without its sign. It is a whole number. -/
def bezierWeight (n j i : Nat) : β :=
  Scalar.ofNat (factorial n)
    / (Scalar.ofNat (factorial (n - j)) * Scalar.ofNat (factorial i)
      * Scalar.ofNat (factorial (j - i)))

/-- Adds the terms of the control points from index `i` on to `sum`; the
signs alternate and the last term is that of point `j`. -/
def bezierSum (n j : Nat) (sum : β) : Nat → List α → β
  | _, [] => sum
  | i, p :: rest =>
    if j < i then sum
    else
      let term := bezierWeight n j i * Widening.widen p
      bezierSum n j (if (i + j) % 2 = 1 then sum - term else sum + term) (i + 1) rest

/-- Coefficient `j` of the Bezier curve of `points` over the unit interval. -/
def bezierCoeff (points : List α) (j : Nat) : α :=
  Widening.narrow (bezierSum (points.length - 1) j (0 : β) 0 points)

/-- The power form of the Bezier curve of `points`, run through in `duration`.
Without a positive duration it is the last point. Integer control points of
moderate size give exact coefficients. -/
def bezier (duration : α) (points : List α) : Except Fault (Poly α) :=
  if points.length = 0 ∨ polySlots < points.length then .error .pointCount
  else if duration ≤ 0 then .ok (constant (points.getLastD 0))
  else
    let p : Poly α :=
      ⟨zero.writeSlots ((List.range points.length).map (bezierCoeff points)), points.length⟩
    if Scalar.same duration 1 then .ok p else .ok (p.stretch duration)

end Poly

end DroneShow
