-- The stored form of a segment: a byte for the formats, a word for how many
-- milliseconds it lasts, and the stored control points, axis after axis, a
-- word each.
import DroneShow.Record.AxisFormat
import DroneShow.Record.Word

namespace DroneShow

structure Record where
  formats : Axes AxisFormat
  durationMs : Nat
  /-- The stored values of the control points of each axis. -/
  raws : Axes (List Int)
deriving DecidableEq

namespace Record

/-- The bytes before the first control point. -/
def prefixLength : Nat := 3

/-- The number of control points stored for the axes before `axis`. -/
def pointsBefore (formats : Axes AxisFormat) : Axis → Nat
  | .x => 0
  | .y => formats.x.storedPoints
  | .z => formats.x.storedPoints + formats.y.storedPoints
  | .yaw => formats.x.storedPoints + formats.y.storedPoints + formats.z.storedPoints

/-- Where the control points of `axis` begin in a record at `offset`. -/
def pointsOffset (formats : Axes AxisFormat) (offset : Nat) (axis : Axis) : Nat :=
  offset + prefixLength + 2 * pointsBefore formats axis

/-- The length of a record with these formats. -/
def length (formats : Axes AxisFormat) : Nat :=
  prefixLength + 2 * (pointsBefore formats .yaw + formats.yaw.storedPoints)

/-- The bytes of a record. -/
def toBytes (r : Record) : List UInt8 :=
  AxisFormat.toByte r.formats :: Word.toBytes r.durationMs
    ++ r.raws.toList.flatMap fun raws => raws.flatMap fun raw => Word.toBytes (Word.ofSigned raw)

/-- The control points of the record that starts at `offset`. -/
def readRaws (bytes : Bytes) (formats : Axes AxisFormat) (offset : Nat) :
    Except Fault (Axes (List Int)) :=
  Axes.ofFnM fun axis =>
    Word.readList bytes (formats.get axis).storedPoints (pointsOffset formats offset axis)

end Record

end DroneShow
