-- Playback: a trajectory and a cursor on it. Going forward in time only
-- advances the cursor; going back starts from the first segment again.
import DroneShow.Trajectory.Cursor

namespace DroneShow

structure Playback where
  trajectory : Trajectory
  cursor : Cursor

namespace Playback

/-- A playback on the first segment. -/
def ofTrajectory (tr : Trajectory) : Except Fault Playback := do
  let first ← tr.firstSegment
  pure ⟨tr, Cursor.on first⟩

/-- What an operation answers, and the playback that it leaves also on a fault. -/
abbrev Play := EStateM Fault Playback

/-- Runs an operation of the cursor on the trajectory of the playback. -/
def withCursor {α : Type} (move : Trajectory → Cursor.Move α) : Play α := fun p =>
  match move p.trajectory p.cursor with
  | .ok a c => .ok a { p with cursor := c }
  | .error e c => .error e { p with cursor := c }

def rewind : Play Unit := withCursor Cursor.rewind

def next : Play Unit := withCursor Cursor.next

/-- Decodes the record at any offset as if it started at the given time and pose. -/
def jump (offset startMs : Nat) (start : Pose) : Play Unit :=
  withCursor fun tr => Cursor.place (tr.segmentAt offset startMs start)

def seek (t : Single) : Play Single := withCursor fun tr => Cursor.seek tr t

def durationMs : Play Nat := withCursor Cursor.durationMs

def durationSec : Play Single := do
  let ms ← durationMs
  pure (Segment.seconds ms)

def positionAt (t : Single) : Play Pose := do
  let u ← seek t
  let path ← withCursor fun _ => Cursor.positionCurve
  pure (path.eval u)

def velocityAt (t : Single) : Play Pose := do
  let u ← seek t
  let path ← withCursor fun _ => Cursor.velocityCurve
  pure (path.eval u)

def accelerationAt (t : Single) : Play Pose := do
  let u ← seek t
  let path ← withCursor fun _ => Cursor.accelerationCurve
  pure (path.eval u)

def isAtEnd (p : Playback) : Bool := p.cursor.segment.isTerminal

/-- Takes over the cursor of an earlier moment or of another playback. -/
def restore (cursor : Cursor) : Play Unit := modify fun p => { p with cursor := cursor }

end Playback

end DroneShow
