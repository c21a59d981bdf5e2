-- Words of 16 bits in a byte string, the low byte first.
import DroneShow.Fault

namespace DroneShow

abbrev Bytes := Array UInt8

namespace Word

/-- The two bytes of a number below 65536. -/
def toBytes (n : Nat) : List UInt8 := [UInt8.ofNat n, UInt8.ofNat (n / 256)]

/-- The word that stands for a signed number. -/
def ofSigned (raw : Int) : Nat := (raw % 65536).toNat

/-- The word at an offset. -/
def read (bytes : Bytes) (offset : Nat) : Except Fault Nat :=
  match bytes[offset]?, bytes[offset + 1]? with
  | some lo, some hi => .ok (lo.toNat + 256 * hi.toNat)
  | _, _ => .error .truncatedData

/-- The signed number at an offset. -/
def readSigned (bytes : Bytes) (offset : Nat) : Except Fault Int := do
  let word ← read bytes offset
  pure (Int.bmod word 65536)

/-- `count` signed numbers from an offset on. -/
def readList (bytes : Bytes) : (count offset : Nat) → Except Fault (List Int)
  | 0, _ => .ok []
  | count + 1, offset => do
    let raw ← readSigned bytes offset
    let rest ← readList bytes count (offset + 2)
    pure (raw :: rest)

/-- Replaces the word at an offset. -/
def write (bytes : Bytes) (offset n : Nat) : Bytes :=
  (bytes.setIfInBounds offset (UInt8.ofNat n)).setIfInBounds (offset + 1) (UInt8.ofNat (n / 256))

end Word

end DroneShow
