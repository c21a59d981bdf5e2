-- What a formula needs from the numbers it is evaluated in. The curve and
-- travel formulas are written over these classes, so that the definition
-- that runs on binary numbers can also be read over an exact field.
import DroneShow.Binary.Roots

namespace DroneShow

/-- Arithmetic and comparison of one number system. -/
class Scalar (α : Type) extends Add α, Sub α, Mul α, Div α, Neg α, LE α, LT α, Min α, Max α where
  decLE : ∀ a b : α, Decidable (a ≤ b)
  decLT : ∀ a b : α, Decidable (a < b)
  /-- The natural number `n`. -/
  ofNat : Nat → α
  /-- The decimal fraction `digits / 10 ^ places`. -/
  ofDecimal : (digits places : Nat) → α
  abs : α → α
  isFinite : α → Bool
  /-- Equality as numbers. -/
  same : α → α → Bool

instance Scalar.decidableLE {α : Type} [Scalar α] (a b : α) : Decidable (a ≤ b) :=
  Scalar.decLE a b

instance Scalar.decidableLT {α : Type} [Scalar α] (a b : α) : Decidable (a < b) :=
  Scalar.decLT a b

/-- Numerals in formulas. -/
instance (priority := low) Scalar.numeral (α : Type) [Scalar α] (n : Nat) : OfNat α n :=
  ⟨Scalar.ofNat n⟩

instance Binary.scalar (F : Format) : Scalar (Binary F) where
  decLE := inferInstance
  decLT := inferInstance
  ofNat := Binary.ofNat
  ofDecimal digits places := Binary.ofDecimal false digits (-places)
  abs := Binary.abs
  isFinite := Binary.isFinite
  same := Binary.same

/-- Numbers with square roots. -/
class SqrtScalar (α : Type) extends Scalar α where
  sqrt : α → α

instance Binary.sqrtScalar (F : Format) : SqrtScalar (Binary F) where
  sqrt := Binary.sqrt

/-- Cube roots, as a library of mathematical functions gives them. -/
class CubeRoots (α : Type) where
  cbrt : α → α
  /-- The principal cube root of a complex number with non-negative imaginary part. -/
  complexCbrt : α → α → α × α
  /-- The cosine and the sine of a third of a full turn. -/
  thirdTurn : α × α

/-- The cube roots that are found from integer roots. The parts of the third of a
turn are those of the angle 2π/3 after it was rounded itself, so the cosine is
not exactly a half. -/
instance Binary.cubeRoots : CubeRoots Double where
  cbrt := Binary.cbrt
  complexCbrt := Binary.complexCbrt
  thirdTurn := (-Binary.ofDecimal false 4999999999999998 (-16),
    Binary.ofDecimal false 8660254037844387 (-16))

/-- Numbers in which equations up to the third degree are solved. -/
class RootScalar (α : Type) extends SqrtScalar α, CubeRoots α where
  /-- One with the sign of the number. -/
  signum : α → α
  /-- A total order of all numbers. -/
  precedes : α → α → Bool
  /-- A positive number below every magnitude that matters. -/
  leastNormal : α

/-- The arithmetic of the wider format, with the cube roots of any library. -/
instance Binary.rootScalar [CubeRoots Double] : RootScalar Double where
  signum := Binary.signum
  precedes := Binary.precedes
  leastNormal := Binary.leastNormal

/-- Two number systems, of which the second is at least as fine as the first. -/
class Widening (α : Type) (β : outParam Type) where
  widen : α → β
  narrow : β → α

instance Binary.widening : Widening Single Double := ⟨Binary.convert, Binary.convert⟩

end DroneShow
