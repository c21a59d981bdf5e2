-- Surveying a trajectory: its duration, its bounding box, and when to take
-- off and to land. One walk over the segments collects all parts.
import DroneShow.Survey.Components
import DroneShow.Survey.Config
import DroneShow.Region.Box
import DroneShow.Trajectory.Cursor

namespace DroneShow

/-- The result of a survey. A part that was not wanted keeps its initial value. -/
structure Summary where
  components : Components
  durationMs : Nat
  durationSec : Single
  box : Box Single
  /-- Infinite if the flight never gains the altitude of takeoff. -/
  takeoffSec : Single
  landingSec : Single
  landingPose : Pose
  distanceXY : Single
deriving DecidableEq

/-- What to survey, and how. -/
structure Survey where
  components : Components
  config : SurveyConfig

namespace Survey

def standard : Survey := ⟨.all, .standard⟩

/-- A survey of some components with the standard parameters. -/
def ofComponents (c : Components) : Survey := ⟨c, .standard⟩

/-! ## The walk -/

/-- What the walk has collected so far. -/
structure Tally where
  box : Box Single
  takeoff : Option Single
  /-- The first segment of the vertical run that reaches up to here. -/
  run : Option Segment

/-- Whether a segment goes down, or stays, with little drift. -/
def isVertical (maxDeviationXY : Single) (s : Segment) : Bool :=
  let d := s.finish.sub s.start
  d.x.abs ≤ maxDeviationXY && d.y.abs ≤ maxDeviationXY && d.z ≤ 0

/-- The box grown by all points of a segment. -/
def growBox (box : Box Single) (s : Segment) : Except Fault (Box Single) := do
  let path ← s.position
  box.includingPath path

/-- When the altitude of a segment first reaches a given one, if it does. -/
def altitudeTime (altitude : Single) (s : Segment) : Except Fault (Option Single) := do
  let path ← s.position
  let u ← path.z.firstReach altitude
  pure (u.map fun u => s.startSec + u * s.durationSec)

/-- The vertical run after one more segment. -/
def extendRun (maxDeviationXY : Single) (run : Option Segment) (s : Segment) : Option Segment :=
  if !isVertical maxDeviationXY s then none else run.or (some s)

/-- Adds one segment to the tally. -/
def step (v : Survey) (altitude : Single) (acc : Tally) (s : Segment) : Except Fault Tally := do
  let box ← if v.components.box then growBox acc.box s else pure acc.box
  let takeoff ←
    if v.components.takeoff && acc.takeoff.isNone then altitudeTime altitude s
    else pure acc.takeoff
  let run :=
    if v.components.landing then extendRun v.config.maxDeviationXY acc.run s else acc.run
  pure ⟨box, takeoff, run⟩

/-! ## Landing -/

/-- The last segment of a run that starts no lower than `target`. -/
def crossingOf (tr : Trajectory) (target : Single) (start : Segment) :
    Except Fault (Option Segment) := do
  let pick (acc : Option Segment) (s : Segment) : Except Fault (Option Segment) :=
    .ok (if target ≤ s.start.z then some s else acc)
  let (crossing, _) ← tr.foldFrom pick tr.maxSteps none start
  pure crossing

/-- When only `preferredDescent` of the final vertical run is left. Without
such a run this is the end of the flight; a run that is short enough is left
to the landing as a whole. -/
def landingTime (v : Survey) (tr : Trajectory) (run : Option Segment)
    (endAltitude durationSec : Single) : Except Fault Single :=
  match run with
  | none => .ok durationSec
  | some first => do
    let target := endAltitude + v.config.preferredDescent
    let crossing ← crossingOf tr target first
    match crossing with
    | none => pure first.startSec
    | some s =>
      let path ← s.position
      let u ← path.z.firstReach target
      pure (s.startSec + u.getD 0 * s.durationSec)

/-- The pose at a time, sought from the final hold. -/
def poseFrom (tr : Trajectory) (last : Segment) (t : Single) : Except Fault Pose :=
  match Cursor.seek tr t (Cursor.on last) with
  | .error e _ => .error e
  | .ok u c => c.segment.position.map fun path => path.eval u

/-- The time and the pose at which the landing takes over. -/
def landing (v : Survey) (tr : Trajectory) (run : Option Segment) (last : Segment)
    (durationSec : Single) : Except Fault (Single × Pose) := do
  let t ← v.landingTime tr run last.start.z durationSec
  let p ← poseFrom tr last t
  pure (t, p)

/-! ## The whole survey -/

/-- When the takeoff has to begin to be at its altitude in time. -/
def takeoffSec (v : Survey) : Option Single → Single
  | none => .infinity false
  | some t => t - v.config.travelTime v.config.minAscent

/-- Surveys a trajectory. -/
def run (v : Survey) (tr : Trajectory) : Except Fault Summary := do
  v.config.validate
  let wanted := v.components
  let altitude := tr.start.z + v.config.minAscent
  let init : Tally := ⟨if wanted.box then .ofPoint tr.start else .empty, none, none⟩
  let (tally, last) ← tr.fold (v.step altitude) init
  let durationSec := Segment.seconds last.startMs
  let (landingSec, landingPose) ←
    if wanted.landing then v.landing tr tally.run last durationSec else pure (0, Pose.origin)
  pure
    { components := wanted
      durationMs := last.startMs
      durationSec := durationSec
      box := tally.box
      takeoffSec := v.takeoffSec tally.takeoff
      landingSec := landingSec
      landingPose := landingPose
      distanceXY := if wanted.distance then tr.start.distanceXY last.start else 0 }

end Survey

namespace Trajectory

/-- The box around the whole flight. -/
def boundingBox (tr : Trajectory) : Except Fault (Box Single) :=
  ((Survey.ofComponents { Components.none with box := true }).run tr).map (·.box)

/-- When to begin a climb at `speed` in order to be `minAscent` above the start
together with the trajectory; infinite if that stays below. -/
def takeoffTime (tr : Trajectory) (minAscent speed : Single) (acceleration : Option Single) :
    Except Fault Single :=
  let config :=
    { SurveyConfig.standard with
      minAscent := minAscent, takeoffSpeed := speed, acceleration := acceleration }
  (Survey.run ⟨{ Components.none with takeoff := true }, config⟩ tr).map (·.takeoffSec)

/-- The proposed moment to hand over to the automatic landing. -/
def landingTime (tr : Trajectory) (preferredDescent maxDeviationXY : Single) :
    Except Fault Single :=
  let config :=
    { SurveyConfig.standard with
      preferredDescent := preferredDescent, maxDeviationXY := maxDeviationXY }
  (Survey.run ⟨{ Components.none with landing := true }, config⟩ tr).map (·.landingSec)

end Trajectory

end DroneShow
