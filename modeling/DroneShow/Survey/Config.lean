-- What a survey assumes of a drone: how it climbs, and how much of the flight
-- counts as its landing. Lengths are in units of coordinates, times in seconds.
import DroneShow.Scalar
import DroneShow.Fault

namespace DroneShow

/-- The least time for `distance` from rest to rest if neither `speed` nor
`acceleration` may be exceeded. Up to the distance that speeding up and
slowing down need together, the limit of speed plays no part. Without a finite
acceleration, the speed is there at once. -/
def travelTime {α : Type} [SqrtScalar α] (speed : α) (acceleration : Option α) (distance : α) :
    α :=
  match acceleration with
  | none => distance / speed
  | some a =>
    if !Scalar.isFinite a then distance / speed
    else
      let speedUpTime := speed / a
      let speedUpDistance := speed * speedUpTime / 2
      if distance < 2 * speedUpDistance then 2 * SqrtScalar.sqrt (distance / a)
      else 2 * speedUpTime + (distance - 2 * speedUpDistance) / speed

structure SurveyConfig where
  /-- How fast the drone climbs at takeoff. -/
  takeoffSpeed : Single
  /-- How fast it gains that speed; without a value, at once. -/
  acceleration : Option Single
  /-- How far above the start the takeoff ends. -/
  minAscent : Single
  /-- How much of the last descent the automatic landing takes over. -/
  preferredDescent : Single
  /-- How far a vertical segment may move along x and along y. -/
  maxDeviationXY : Single
deriving DecidableEq

namespace SurveyConfig

def standard : SurveyConfig := ⟨1000, none, 2500, 2500, 20⟩

/-- Whether a distance is usable: finite and not negative. -/
def isDistance (value : Single) : Bool := value.isFinite && 0 ≤ value

/-- Refuses parameters without a meaning; an infinite acceleration has one. -/
def validate (c : SurveyConfig) : Except Fault Unit :=
  if !(c.takeoffSpeed.isFinite && 0 < c.takeoffSpeed) then .error .takeoffSpeed
  else if c.acceleration.any fun a => a.isNaN || a ≤ 0 then .error .acceleration
  else if !([c.minAscent, c.preferredDescent, c.maxDeviationXY].all isDistance) then
    .error .distances
  else .ok ()

def travelTime (c : SurveyConfig) (distance : Single) : Single :=
  DroneShow.travelTime c.takeoffSpeed c.acceleration distance

end SurveyConfig

end DroneShow
