-- The walk over the segments of a trajectory, from the header to the hold
-- behind the last record. Each segment starts where and when the one before
-- it ends.
import DroneShow.Trajectory.Basic

namespace DroneShow.Trajectory

/-- The segment at an offset, starting at the given time and pose. -/
def segmentAt (tr : Trajectory) (offset startMs : Nat) (start : Pose) : Except Fault Segment :=
  Segment.decode tr.bytes offset startMs start tr.scale

def firstSegment (tr : Trajectory) : Except Fault Segment :=
  tr.segmentAt tr.headerLength 0 tr.start

/-- The segment after `s`. The final hold has none and is followed by itself. -/
def segmentAfter (tr : Trajectory) (s : Segment) : Except Fault Segment :=
  if s.isTerminal then .ok s
  else tr.segmentAt (s.offset + s.length) s.endMs s.finish

/-- Enough steps to reach the final hold from any segment: after the first
step each further one passes a record of the bytes. -/
def maxSteps (tr : Trajectory) : Nat := tr.bytes.size + 1

/-- Folds the segments from `s` on, the final hold excepted, and also returns
that hold. A fault of `step` or of the decoding ends the walk. -/
def foldFrom {σ : Type} (tr : Trajectory) (step : σ → Segment → Except Fault σ) :
    Nat → σ → Segment → Except Fault (σ × Segment)
  | 0, acc, s => .ok (acc, s)
  | steps + 1, acc, s =>
    if s.isTerminal then .ok (acc, s)
    else
      match step acc s with
      | .error e => .error e
      | .ok acc =>
        match tr.segmentAfter s with
        | .error e => .error e
        | .ok next => foldFrom tr step steps acc next

/-- Folds all segments of the walk. -/
def fold {σ : Type} (tr : Trajectory) (step : σ → Segment → Except Fault σ) (init : σ) :
    Except Fault (σ × Segment) := do
  let first ← tr.firstSegment
  tr.foldFrom step tr.maxSteps init first

/-- The hold behind the last record. -/
def finalHold (tr : Trajectory) : Except Fault Segment := do
  let (_, last) ← tr.fold (fun _ _ => .ok ()) ()
  pure last

def endPose (tr : Trajectory) : Except Fault Pose := tr.finalHold.map (·.start)

def durationMs (tr : Trajectory) : Except Fault Nat := tr.finalHold.map (·.startMs)

def durationSec (tr : Trajectory) : Except Fault Single := tr.durationMs.map Segment.seconds

end DroneShow.Trajectory
