-- A cursor on the segments of a trajectory. It keeps the curves of its
-- segment once they were asked for. A move that fails leaves the cursor on
-- the last segment that was decoded.
import DroneShow.Trajectory.Walk

namespace DroneShow

structure Cursor where
  segment : Segment
  position : Option (Path Single)
  velocity : Option (Path Single)
  acceleration : Option (Path Single)

namespace Cursor

/-- A cursor on `s`, with no curve computed yet. -/
def on (s : Segment) : Cursor := ⟨s, none, none, none⟩

/-- What an operation answers, and the cursor that it leaves also on a fault. -/
abbrev Move := EStateM Fault Cursor

/-- Puts the cursor on a decoded segment. -/
def place : Except Fault Segment → Move Unit
  | .ok s => set (on s)
  | .error e => throw e

def rewind (tr : Trajectory) : Move Unit := place tr.firstSegment

/-- Moves to the segment after the current one; from the final hold, nowhere. -/
def next (tr : Trajectory) : Move Unit := fun c =>
  if c.segment.isTerminal then .ok () c else place (tr.segmentAfter c.segment) c

/-- Moves on while `behind` holds of the segment, at most to the final hold. -/
def advance (tr : Trajectory) (behind : Segment → Bool) : Nat → Move Unit
  | 0 => pure ()
  | steps + 1 => fun c =>
    if c.segment.isTerminal || !behind c.segment then .ok () c
    else
      match next tr c with
      | .error e c => .error e c
      | .ok _ c => advance tr behind steps c

/-- Where `t` lies in a segment, from zero to one. A segment without duration
counts as half passed. -/
def relativeTime (s : Segment) (t : Single) : Single :=
  if t.same (.infinity false) then 1
  else if s.durationMs = 0 then Binary.ofDecimal false 5 (-1)
  else ((t - s.startSec) / s.durationSec).clamp 0 1

/-- Goes back to the first segment if `t` lies before the current one. -/
def turnBack (tr : Trajectory) (t : Single) : Move Unit := fun c =>
  if t < c.segment.startSec then rewind tr c else .ok () c

/-- Moves on to the first segment that does not end before `t`. -/
def advanceTo (tr : Trajectory) (t : Single) : Move Unit :=
  advance tr (fun s => s.endSec < t) tr.maxSteps

/-- Finds the time `t`, in seconds: the cursor ends on its segment, and the
answer tells how much of that has passed. -/
def seek (tr : Trajectory) (t : Single) : Move Single :=
  if t.isNaN then throw .nanTime
  else do
    turnBack tr t
    advanceTo tr t
    let c ← get
    pure (relativeTime c.segment t)

/-- Moves to the final hold, which starts when the trajectory ends. -/
def runOut (tr : Trajectory) : Move Nat := do
  advance tr (fun _ => true) tr.maxSteps
  let c ← get
  pure c.segment.startMs

/-- How long the trajectory lasts. The cursor stays as it was. -/
def durationMs (tr : Trajectory) : Move Nat := fun c =>
  match runOut tr c with
  | .ok ms _ => .ok ms c
  | .error e _ => .error e c

/-! ## Curves of the current segment -/

/-- The answer of an earlier call, or else one computed and kept now. -/
def remember (known : Option (Path Single)) (compute : Except Fault (Path Single))
    (keep : Cursor → Path Single → Cursor) : Move (Path Single) :=
  match known with
  | some path => pure path
  | none =>
    match compute with
    | .ok path => do
      modify fun c => keep c path
      pure path
    | .error e => throw e

def positionCurve : Move (Path Single) := do
  let c ← get
  remember c.position c.segment.position fun c path => { c with position := some path }

def velocityCurve : Move (Path Single) := do
  let path ← positionCurve
  let c ← get
  remember c.velocity (.ok (c.segment.rate path)) fun c path => { c with velocity := some path }

def accelerationCurve : Move (Path Single) := do
  let path ← velocityCurve
  let c ← get
  remember c.acceleration (.ok (c.segment.rate path))
    fun c path => { c with acceleration := some path }

end Cursor

end DroneShow
