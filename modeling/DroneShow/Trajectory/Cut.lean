-- Cutting a trajectory at a time. The record under the cut gets a shorter
-- duration and the control points of what remains of its curve.
import DroneShow.Trajectory.Walk

namespace DroneShow.Trajectory

/-- What an operation leaves of a trajectory, also on a fault. -/
abbrev Edit := EStateM Fault Trajectory

/-- Where a time falls in the walk. -/
inductive CutPlace where
  /-- Behind the last record. -/
  | past
  /-- At the start of the record at `offset`, or before it. -/
  | boundary (offset : Nat)
  /-- Strictly inside a segment. -/
  | inside (s : Segment)

/-- A time in seconds as whole milliseconds; times before the start count as zero. -/
def cutMs (t : Single) : Single := (max t 0 * 1000).round

/-- Searches the walk from `s` on for the time `ms`. -/
def cutPlaceFrom (tr : Trajectory) (ms : Single) : Nat → Segment → Except Fault CutPlace
  | 0, _ => .ok .past
  | steps + 1, s =>
    if s.isTerminal then .ok .past
    else if ms ≤ Binary.ofNat s.startMs then .ok (.boundary s.offset)
    else if ms < Binary.ofNat s.endMs then .ok (.inside s)
    else
      match tr.segmentAfter s with
      | .error e => .error e
      | .ok next => cutPlaceFrom tr ms steps next

def cutPlace (tr : Trajectory) (ms : Single) : Except Fault CutPlace := do
  let first ← tr.firstSegment
  cutPlaceFrom tr ms tr.maxSteps first

/-- The trajectory with changed bytes, which it owns. -/
def mapBytes (tr : Trajectory) (f : Bytes → Bytes) : Trajectory :=
  { tr with buffer := .owned (f tr.bytes) }

/-- Drops the bytes from `length` on. -/
def truncate (tr : Trajectory) (length : Nat) : Trajectory := tr.mapBytes (·.take length)

/-- Overwrites the word at an offset. -/
def writeWord (tr : Trajectory) (offset n : Nat) : Trajectory :=
  tr.mapBytes fun bytes => Word.write bytes offset n

/-- Overwrites stored values of one axis from an offset on. -/
def writePoints (axis : Axis) : (offset : Nat) → List Single → Edit Unit
  | _, [] => pure ()
  | offset, p :: rest => fun tr =>
    match Quantum.encode tr.scale axis p with
    | .error e => .error e tr
    | .ok raw => writePoints axis (offset + 2) rest (tr.writeWord offset (Word.ofSigned raw))

/-- Restricts the curve of one axis of a stored segment to `[0, u]`. A
constant axis stores nothing. -/
def restrictAxis (s : Segment) (u : Single) (axis : Axis) : Edit Unit :=
  if s.formats.get axis = .constant then pure ()
  else
    writePoints axis (Record.pointsOffset s.formats s.offset axis)
      (Bezier.restrict (s.points.get axis) u).tail

/-- The milliseconds from the start of a segment to the time `ms` inside it. -/
def msInto (s : Segment) (ms : Single) : Nat := (ms.toIntWithin 0 timeLimit).toNat - s.startMs

/-- Shortens a stored segment to end at `ms` and drops what follows it. -/
def shorten (s : Segment) (ms : Single) : Edit Unit := do
  let durationMs := msInto s ms
  let u := Binary.ofNat durationMs / Binary.ofNat s.durationMs
  Axis.all.forM (restrictAxis s u)
  modify fun tr => (tr.writeWord (s.offset + 1) durationMs).truncate (s.offset + s.length)

/-- Ends the trajectory at `t` seconds. Times past the end change nothing. The
bytes must be owned. -/
def cutAt (t : Single) : Edit Unit := fun tr =>
  if t.isNaN then .error .nanCutTime tr
  else if !tr.isOwned then .error (.misuse .cutOfBorrowed) tr
  else
    match tr.cutPlace (cutMs t) with
    | .error e => .error e tr
    | .ok .past => .ok () tr
    | .ok (.boundary offset) => .ok () (tr.truncate offset)
    | .ok (.inside s) => shorten s (cutMs t) tr

end DroneShow.Trajectory
