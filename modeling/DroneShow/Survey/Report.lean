-- The report of a survey as JSON text.
import DroneShow.Survey.Summary
import DroneShow.Decimal.Shortest
import DroneShow.Json.Text

namespace DroneShow

namespace Report

open Json (Document)

/-- Numbers have up to 13 places before the point and up to five zeros behind
it before an exponent is written, which has a sign in any case. -/
def style : Decimal.Style := ⟨13, 5, true⟩

/-- Infinities and no number are null. -/
def single (x : Single) : Document :=
  match Decimal.write? style x with
  | some text => .number text
  | none => .null

def natural (n : Nat) : Document := .number (toString n)

def interval (i : Interval Single) : Document :=
  .object [("min", single i.min), ("max", single i.max)]

def box (b : Box Single) : Document :=
  .object [("x", interval b.x), ("y", interval b.y), ("z", interval b.z)]

def pose (p : Pose) : Document :=
  .object [("x", single p.x), ("y", single p.y), ("z", single p.z), ("yaw", single p.yaw)]

def document (s : Summary) : Document :=
  .object
    [ ("components", natural s.components.bits)
    , ("duration_msec", natural s.durationMs)
    , ("duration_sec", single s.durationSec)
    , ("bounding_box", box s.box)
    , ("takeoff_time_sec", single s.takeoffSec)
    , ("landing_time_sec", single s.landingSec)
    , ("position_at_landing", pose s.landingPose)
    , ("start_to_end_distance_xy", single s.distanceXY) ]

end Report

/-- The report of a survey. -/
def Summary.report (s : Summary) : String := Json.render 0 (Report.document s)

end DroneShow
