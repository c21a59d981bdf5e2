-- How a record stores the curve of one axis, and the format byte that tells
-- it for all four.
import DroneShow.Axes

namespace DroneShow

/-- The kind of curve of one axis. The first control point is always the end
of the segment before and is not stored. -/
inductive AxisFormat where
  | constant | linear | cubic | seventh
deriving DecidableEq, Repr

namespace AxisFormat

/-- The format of the two low bits. -/
def ofBits (bits : Nat) : AxisFormat :=
  match bits % 4 with
  | 0 => .constant
  | 1 => .linear
  | 2 => .cubic
  | _ => .seventh

def bits : AxisFormat → Nat
  | .constant => 0
  | .linear => 1
  | .cubic => 2
  | .seventh => 3

/-- The number of control points in the record. -/
def storedPoints : AxisFormat → Nat
  | .constant => 0
  | .linear => 1
  | .cubic => 3
  | .seventh => 7

/-- The format that stores `count` control points. -/
def forStored? : Nat → Option AxisFormat
  | 0 => some .constant
  | 1 => some .linear
  | 3 => some .cubic
  | 7 => some .seventh
  | _ => none

/-- The formats in a byte: two bits for each axis, the lowest for x. -/
def ofByte (byte : UInt8) : Axes AxisFormat :=
  Axes.ofFn fun axis => ofBits (byte.toNat >>> (2 * axis.index))

/-- The byte that holds the formats. -/
def toByte (formats : Axes AxisFormat) : UInt8 :=
  UInt8.ofNat (formats.x.bits + 4 * formats.y.bits + 16 * formats.z.bits + 64 * formats.yaw.bits)

end AxisFormat

end DroneShow
