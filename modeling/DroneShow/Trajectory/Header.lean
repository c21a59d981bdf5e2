-- The header of a trajectory: a byte with the scale and, in its highest bit,
-- whether yaw is used, then the start pose as four words.
import DroneShow.Record.Quantum
import DroneShow.Record.Word

namespace DroneShow

structure Header where
  scale : Nat
  yawEnabled : Bool
  start : Pose
deriving DecidableEq

namespace Header

def length : Nat := 9

def maxScale : Nat := 127

/-- The weight of the bit that tells whether yaw is used. -/
def yawBit : Nat := 128

/-- The first byte of a header. -/
def firstByte (scale : Nat) (yawEnabled : Bool) : UInt8 :=
  UInt8.ofNat (scale % yawBit + if yawEnabled then yawBit else 0)

/-- The bytes of a header. -/
def encode (h : Header) : Except Fault Bytes := do
  let raws ← Quantum.encodePose h.scale h.start
  pure (firstByte h.scale h.yawEnabled
    :: raws.toList.flatMap fun raw => Word.toBytes (Word.ofSigned raw)).toArray

/-- The header at the beginning of the bytes. -/
def decode (bytes : Bytes) : Except Fault Header :=
  match bytes[0]? with
  | none => .error .truncatedHeader
  | some first =>
    if bytes.size < length then .error .truncatedHeader
    else
      let scale := first.toNat % yawBit
      if scale = 0 then .error .zeroScale
      else do
        let raws ← Axes.ofFnM fun axis => Word.readSigned bytes (1 + 2 * axis.index)
        pure ⟨scale, yawBit ≤ first.toNat, Quantum.decodePose scale raws⟩

end Header

end DroneShow
