-- The arithmetic of a binary format. Each operation is the exact one on the
-- values, rounded once to the nearest number.
import DroneShow.Binary.Rounding

namespace DroneShow.Binary

variable {F : Format}

/-! ## Sums -/

/-- A significand moved up by `shift` binary places, with its sign. -/
def shifted (negative : Bool) (significand shift : Nat) : Int :=
  if negative then -((significand <<< shift : Nat) : Int) else (significand <<< shift : Nat)

/-- The sum of two finite numbers. An exact zero is negative only as the sum
of two negative zeros. -/
def addFinite (n : Bool) (r : Nat) (n' : Bool) (r' : Nat) : Binary F :=
  let low := min (F.binade r) (F.binade r')
  let sum := shifted n (F.significand r) (F.binade r - low)
    + shifted n' (F.significand r') (F.binade r' - low)
  if sum = 0 then zero (n && n')
  else ofScaled (sum < 0) sum.natAbs 1 (F.minExponent + low)

def add : Binary F → Binary F → Binary F
  | .number n r _, .number n' r' _ =>
    if r = F.infinityRank then
      if r' = F.infinityRank ∧ n ≠ n' then .nan else infinity n
    else if r' = F.infinityRank then infinity n'
    else addFinite n r n' r'
  | _, _ => .nan

def sub (x y : Binary F) : Binary F := add x (neg y)

/-! ## Products and quotients -/

def mul : Binary F → Binary F → Binary F
  | .number n r _, .number n' r' _ =>
    if r = F.infinityRank ∨ r' = F.infinityRank then
      if r = 0 ∨ r' = 0 then .nan else infinity (n != n')
    else
      ofScaled (n != n') (F.significand r * F.significand r') 1 (F.exponent r + F.exponent r')
  | _, _ => .nan

def div : Binary F → Binary F → Binary F
  | .number n r _, .number n' r' _ =>
    if r = F.infinityRank then
      if r' = F.infinityRank then .nan else infinity (n != n')
    else if r' = F.infinityRank then zero (n != n')
    else if r' = 0 then
      if r = 0 then .nan else infinity (n != n')
    else
      ofScaled (n != n') (F.significand r) (F.significand r') (F.exponent r - F.exponent r')
  | _, _ => .nan

instance instAdd : Add (Binary F) := ⟨add⟩
instance instSub : Sub (Binary F) := ⟨sub⟩
instance instMul : Mul (Binary F) := ⟨mul⟩
instance instDiv : Div (Binary F) := ⟨div⟩

/-- What is left of `x` after taking away whole multiples of `y` towards
zero; it has the sign of `x` and is exact. -/
def remainder : Binary F → Binary F → Binary F
  | .number n r _, .number _ r' _ =>
    if r = F.infinityRank ∨ r' = 0 then .nan
    else if r' = F.infinityRank then ofRank n r
    else
      let low := min (F.binade r) (F.binade r')
      let rest := (F.significand r <<< (F.binade r - low))
        % (F.significand r' <<< (F.binade r' - low))
      ofScaled n rest 1 (F.minExponent + low)
  | _, _ => .nan

/-- The remainder brought to `[0, |y|]`. A tiny negative remainder may round
up to `|y|` itself. -/
def euclideanRemainder (x y : Binary F) : Binary F :=
  let r := remainder x y
  if r < zero false then r + abs y else r

/-! ## Integers -/

/-- The magnitude of a finite rank rounded to the nearest integer, a half
away from zero. -/
def nearestInteger (F : Format) (rank : Nat) : Nat :=
  let e := F.exponent rank
  if 0 ≤ e then F.significand rank <<< e.toNat
  else (2 * F.significand rank + 1 <<< (-e).toNat) / (2 * (1 <<< (-e).toNat))

/-- The nearest integer, a half away from zero; the sign is kept. -/
def round : Binary F → Binary F
  | .nan => .nan
  | .number n r h =>
    if r = F.infinityRank then .number n r h else ofScaled n (nearestInteger F r) 1 0

/-- The magnitude of a finite rank without its fraction. -/
def integerPart (F : Format) (rank : Nat) : Nat :=
  let e := F.exponent rank
  if 0 ≤ e then F.significand rank <<< e.toNat else F.significand rank >>> (-e).toNat

/-- The integer part within `[lo, hi]`: values beyond an end give that end,
and no number gives zero. -/
def toIntWithin (lo hi : Int) : Binary F → Int
  | .nan => 0
  | .number n r _ =>
    if r = F.infinityRank then if n then lo else hi
    else
      let z : Int := if n then -(integerPart F r : Int) else integerPart F r
      max lo (min hi z)

/-! ## Other formats -/

/-- The nearest number of another format. -/
def convert {G : Format} : Binary F → Binary G
  | .nan => .nan
  | .number n r _ =>
    if r = F.infinityRank then infinity n
    else ofScaled n (F.significand r) 1 (F.exponent r)

/-- One with the sign of the number. -/
def signum : Binary F → Binary F
  | .nan => .nan
  | .number n _ _ => ofScaled n 1 1 0

end DroneShow.Binary
