-- Binary floating point formats. The magnitudes of a format are numbered in
-- increasing order, zero first and infinity last; the place in that order is
-- the rank of the magnitude. A number is a sign and a rank, so the order of
-- numbers is the order of their signed ranks.

namespace DroneShow

/-- A binary format: significands have `precision` bits, the smallest
exponent of a significand's last bit is `minExponent`, and finite magnitudes
fill `binades` intervals in which that exponent is constant. Each interval has
`unit` magnitudes. -/
structure Format where
  precision : Nat
  minExponent : Int
  binades : Nat
  unit : Nat
  unit_eq : unit = Nat.pow 2 (precision - 1)

/-- The 32-bit format: 24-bit significands, smallest magnitude 2 ^ -149. -/
def binary32 : Format := ⟨24, -149, 254, 8388608, by decide⟩

/-- The 64-bit format: 53-bit significands, smallest magnitude 2 ^ -1074. -/
def binary64 : Format := ⟨53, -1074, 2046, 4503599627370496, by decide⟩

namespace Format

/-- The rank of infinity, one above the greatest finite magnitude. -/
def infinityRank (F : Format) : Nat := (F.binades + 1) * F.unit

/-- The binade of a rank. Ranks below `unit` are subnormal and share the
binade zero with the first normal ranks. -/
def binade (F : Format) (rank : Nat) : Nat := rank / F.unit - 1

/-- The significand of a rank; it counts steps of 2 to the `exponent`. -/
def significand (F : Format) (rank : Nat) : Nat := rank - F.binade rank * F.unit

/-- The exponent of the last bit of the significand of a rank. -/
def exponent (F : Format) (rank : Nat) : Int := F.minExponent + F.binade rank

end Format

/-- A number of the format `F`: a sign with a rank, or no number at all. -/
inductive Binary (F : Format) where
  | nan
  | number (negative : Bool) (rank : Nat) (rank_le : rank ≤ F.infinityRank)
deriving DecidableEq

/-- Numbers of the 32-bit format, the format of coordinates and times. -/
abbrev Single := Binary binary32

/-- Numbers of the 64-bit format, in which roots are sought. -/
abbrev Double := Binary binary64

namespace Binary

variable {F : Format}

/-- The number with the given sign whose rank is `rank`, or infinity where
the rank lies above it. -/
def ofRank (negative : Bool) (rank : Nat) : Binary F :=
  .number negative (min rank F.infinityRank) (Nat.min_le_right _ _)

def zero (negative : Bool) : Binary F := .number negative 0 (Nat.zero_le _)

def infinity (negative : Bool) : Binary F := .number negative F.infinityRank (Nat.le_refl _)

instance inhabited : Inhabited (Binary F) := ⟨zero false⟩

/-- The smallest magnitude with a full significand. -/
def leastNormal : Binary F := ofRank false F.unit

def isNaN : Binary F → Bool
  | .nan => true
  | .number .. => false

def isFinite : Binary F → Bool
  | .nan => false
  | .number _ rank _ => rank < F.infinityRank

def isNegative : Binary F → Bool
  | .nan => false
  | .number negative _ _ => negative

/-! ## Order -/

/-- A rank counted upwards or downwards from zero. -/
def signedRank (negative : Bool) (rank : Nat) : Int :=
  if negative then -(rank : Int) else rank

/-- Both signs of zero are equal, and nothing is comparable with no number. -/
def le : Binary F → Binary F → Bool
  | .number n r _, .number n' r' _ => signedRank n r ≤ signedRank n' r'
  | _, _ => false

def lt : Binary F → Binary F → Bool
  | .number n r _, .number n' r' _ => signedRank n r < signedRank n' r'
  | _, _ => false

/-- Equality as numbers: both signs of zero are equal and `nan` equals nothing. -/
def same : Binary F → Binary F → Bool
  | .number n r _, .number n' r' _ => signedRank n r = signedRank n' r'
  | _, _ => false

instance instLE : LE (Binary F) := ⟨fun x y => x.le y = true⟩
instance instLT : LT (Binary F) := ⟨fun x y => x.lt y = true⟩

instance decidableLE (x y : Binary F) : Decidable (x ≤ y) :=
  inferInstanceAs (Decidable (x.le y = true))

instance decidableLT (x y : Binary F) : Decidable (x < y) :=
  inferInstanceAs (Decidable (x.lt y = true))

/-- The place of a number in the order that also puts the negative zero
before the positive one, and `nan` last. -/
def place : Binary F → Int
  | .number true rank _ => -(rank : Int) - 1
  | .number false rank _ => rank
  | .nan => F.infinityRank + 1

/-- The order of places, total even where `≤` is not. -/
def precedes (x y : Binary F) : Bool := x.place ≤ y.place

/-- The smaller number, the first of equal ones; an operand that is no number
is passed over. -/
protected def min (x y : Binary F) : Binary F :=
  if x.isNaN then y else if y.isNaN then x else if y < x then y else x

/-- The greater number, the first of equal ones; an operand that is no number
is passed over. -/
protected def max (x y : Binary F) : Binary F :=
  if x.isNaN then y else if y.isNaN then x else if x < y then y else x

instance instMin : Min (Binary F) := ⟨Binary.min⟩
instance instMax : Max (Binary F) := ⟨Binary.max⟩

/-- The number, or the end of `[lo, hi]` that it lies beyond. -/
def clamp (x lo hi : Binary F) : Binary F :=
  let y := if x < lo then lo else x
  if hi < y then hi else y

/-! ## Sign -/

def neg : Binary F → Binary F
  | .nan => .nan
  | .number negative rank h => .number (!negative) rank h

def abs : Binary F → Binary F
  | .nan => .nan
  | .number _ rank h => .number false rank h

instance instNeg : Neg (Binary F) := ⟨neg⟩

/-! ## Bit patterns -/

/-- The weight of the sign bit. -/
def signWeight (F : Format) : Nat := F.infinityRank + F.unit

/-- The number that a bit pattern stands for: below the sign bit stands the
rank, and patterns above the rank of infinity are no numbers. -/
def ofBits (bits : Nat) : Binary F :=
  let rank := bits % signWeight F
  if h : rank ≤ F.infinityRank then .number (signWeight F ≤ bits) rank h else .nan

/-- The bit pattern of a number; of the patterns that are no number, the one
with only the first bit of the significand set. -/
def toBits : Binary F → Nat
  | .nan => F.infinityRank + F.unit / 2
  | .number negative rank _ => (if negative then signWeight F else 0) + rank

end Binary

end DroneShow
