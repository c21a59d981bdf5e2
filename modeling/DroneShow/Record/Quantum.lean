-- Stored values. A coordinate is stored as a whole number of scale units and
-- a yaw angle as a whole number of tenths of a degree, in 16 bits each.
import DroneShow.Axes

namespace DroneShow.Quantum

/-- The least and the greatest stored value. -/
def least : Int := -32768
def greatest : Int := 32767

/-- Tenths of a degree in a full turn. -/
def fullTurn : Int := 3600

def decodeCoordinate (scale : Nat) (raw : Int) : Single := Binary.ofInt raw * Binary.ofNat scale

/-- Stored yaw angles count modulo a full turn. -/
def decodeYaw (raw : Int) : Single := Yaw.normalize (Binary.ofInt (raw % fullTurn) / 10)

def decode (scale : Nat) : Axis → Int → Single
  | .yaw, raw => decodeYaw raw
  | _, raw => decodeCoordinate scale raw

def encodeCoordinate (scale : Nat) (value : Single) : Except Fault Int :=
  if !value.isFinite then .error .infiniteCoordinate
  else
    let quantized := (value / Binary.ofNat scale).round
    if quantized < Binary.ofInt least || Binary.ofInt greatest < quantized then
      .error .coordinateRange
    else .ok (quantized.toIntWithin least greatest)

/-- The range of tenths of a degree that are told apart, that of 64 bits. -/
def leastTenths : Int := -9223372036854775808
def greatestTenths : Int := 9223372036854775807

/-- Angles whose tenths lie beyond the range count as its end. -/
def encodeYaw (value : Single) : Except Fault Int :=
  if !value.isFinite then .error .infiniteYaw
  else .ok ((value * 10).round.toIntWithin leastTenths greatestTenths % fullTurn)

def encode (scale : Nat) : Axis → Single → Except Fault Int
  | .yaw, value => encodeYaw value
  | _, value => encodeCoordinate scale value

/-- The stored values of a pose. -/
def encodePose (scale : Nat) (p : Pose) : Except Fault (Axes Int) :=
  Axes.ofFnM fun axis => encode scale axis (p.get axis)

/-- The pose that stored values stand for. -/
def decodePose (scale : Nat) (raws : Axes Int) : Pose :=
  Axes.ofFn fun axis => decode scale axis (raws.get axis)

end DroneShow.Quantum
