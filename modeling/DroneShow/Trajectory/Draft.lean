-- Building a trajectory record by record. The draft holds a header and
-- complete records, and knows where the last of them ends, both as a pose and
-- as the stored values of that pose. It may start behind the last record of a
-- trajectory, and it hands what it holds over as one.
import DroneShow.Trajectory.Walk

namespace DroneShow

/-- The longest duration of one record; longer lines are split. -/
def maxSegmentMs : Nat := 60000

structure Draft where
  bytes : Bytes
  scale : Nat
  yawEnabled : Bool
  last : Pose
  /-- The stored values of `last`. -/
  lastRaw : Axes Int
deriving DecidableEq

namespace Draft

/-- What an operation answers, and the draft that it leaves also on a fault. -/
abbrev Edit := EStateM Fault Draft

/-- Whether anything follows the header. -/
def hasSegments (b : Draft) : Bool := Header.length < b.bytes.size

/-! ## The start -/

/-- Moves the last pose, rounded to stored values. -/
def setLast (p : Pose) : Edit Unit := fun b =>
  match Quantum.encodePose b.scale p with
  | .error e => .error e b
  | .ok raws => .ok () { b with lastRaw := raws, last := Quantum.decodePose b.scale raws }

/-- Leaves only a header with the given start. -/
def reset (start : Pose) : Edit Unit := fun b =>
  match Header.encode ⟨b.scale, b.yawEnabled, start⟩ with
  | .error e => .error e b
  | .ok header => setLast start { b with bytes := header }

/-- The result of an operation with the draft that it leaves. -/
def run {α : Type} (op : Edit α) (b : Draft) : Except Fault (α × Draft) :=
  match op b with
  | .ok a b => .ok (a, b)
  | .error e _ => .error e

/-- A fresh draft at the origin, in which one step of a stored coordinate is
`scale` units long. -/
def new (scale : Nat) (yawEnabled : Bool) : Except Fault Draft :=
  if scale = 0 ∨ Header.maxScale < scale then .error .scaleRange
  else do
    let (_, b) ← run (reset Pose.origin) ⟨#[], scale, yawEnabled, Pose.origin, Axes.all 0⟩
    pure b

/-- Moves the start; allowed until the first record is appended. -/
def setStart (start : Pose) : Edit Unit := fun b =>
  if b.hasSegments then .error .lateStart b else reset start b

/-! ## Records -/

/-- Whether records of this draft store the axis at all. -/
def stores (b : Draft) : Axis → Bool
  | .yaw => b.yawEnabled
  | _ => true

/-- The stored values of the points on each axis that records store. -/
def encodePoints (b : Draft) (points : List Pose) : Except Fault (Axes (List Int)) :=
  Axes.ofFnM fun axis =>
    if b.stores axis then points.mapM fun p => Quantum.encode b.scale axis (p.get axis)
    else .ok []

/-- The record of a segment through `points`. An axis that stays at the last
stored value throughout is constant and stores nothing. -/
def recordOf (b : Draft) (points : List Pose) (durationMs : Nat) : Except Fault Record :=
  match AxisFormat.forStored? points.length with
  | none => .error .segmentPoints
  | some format =>
    if maxSegmentMs < durationMs then .error .longSegment
    else do
      let raws ← b.encodePoints points
      let moves axis := (raws.get axis).any (· != b.lastRaw.get axis)
      pure
        { formats := Axes.ofFn fun axis => if moves axis then format else .constant
          durationMs := durationMs
          raws := Axes.ofFn fun axis => if moves axis then raws.get axis else [] }

/-- Appends a record and moves to its end. -/
def write : Draft → Record → Draft
  | ⟨bytes, scale, yawEnabled, last, lastRaw⟩, r =>
    let endRaw axis := (r.raws.get axis).getLast?
    { bytes := bytes ++ r.toBytes
      scale := scale
      yawEnabled := yawEnabled
      last := Axes.ofFn fun axis =>
        ((endRaw axis).map (Quantum.decode scale axis)).getD (last.get axis)
      lastRaw := Axes.ofFn fun axis => (endRaw axis).getD (lastRaw.get axis) }

/-- Appends one segment that leads from the last pose along a Bezier curve. The
number of further control points, one, three or seven, is its degree. -/
def appendSegment (points : List Pose) (durationMs : Nat) : Edit Unit := fun b =>
  match b.recordOf points durationMs with
  | .error e => .error e b
  | .ok r => .ok () (b.write r)

/-- A cubic curve from the last pose; a long one is refused. -/
def appendCubic (control₁ control₂ target : Pose) (durationMs : Nat) : Edit Unit :=
  appendSegment [control₁, control₂, target] durationMs

/-! ## Lines and holds -/

/-- Halves a line until its parts are short enough. -/
def appendParts : Nat → Pose → Nat → Edit Unit
  | 0, target, ms => appendSegment [target] ms
  | depth + 1, target, ms =>
    if ms ≤ maxSegmentMs then appendSegment [target] ms
    else do
      let b ← get
      appendParts depth (b.last.midpoint target) (ms / 2)
      appendParts depth target (ms - ms / 2)

/-- A straight line from the last pose. The target is checked before any part
is written. -/
def appendLine (target : Pose) (durationMs : Nat) : Edit Unit := fun b =>
  match Quantum.encodePose b.scale target with
  | .error e => .error e b
  | .ok _ => appendParts (durationMs.log2 + 1) target durationMs b

/-- Holds the last pose in pieces of at most `maxSegmentMs`. -/
def holdPieces : Nat → Nat → Edit Unit
  | 0, _ => pure ()
  | pieces + 1, ms => fun b =>
    if ms = 0 then .ok () b
    else
      let piece := min ms maxSegmentMs
      match appendSegment [b.last] piece b with
      | .error e b => .error e b
      | .ok _ b => holdPieces pieces (ms - piece) b

/-- Stays at the last pose. -/
def hold (durationMs : Nat) : Edit Unit := holdPieces (durationMs / maxSegmentMs + 1) durationMs

/-! ## Continuing a trajectory -/

/-- A draft behind the last record of a trajectory. -/
def ofTrajectory (tr : Trajectory) : Except Fault Draft :=
  if tr.isEmpty then .error .notFound
  else do
    let p ← tr.endPose
    let (_, b) ← run (setLast p)
      ⟨tr.bytes, tr.scale, tr.yawEnabled, Pose.origin, Axes.all 0⟩
    pure b

/-! ## Handing over -/

/-- Takes the bytes out and starts anew from the last pose. -/
def takeBytes : Edit Bytes := fun b =>
  let bytes := b.bytes
  match reset b.last { b with bytes := #[] } with
  | .error e b => .error e b
  | .ok _ b => .ok bytes b

/-- The trajectory built so far; the draft starts anew from its end. -/
def finish : Edit Trajectory := fun b =>
  match takeBytes b with
  | .error e b => .error e b
  | .ok bytes b =>
    match Trajectory.ofBytes bytes with
    | .error e => .error e b
    | .ok tr => .ok tr b

end Draft

/-- Replaces the trajectory by the one in the draft, which starts anew. -/
def Trajectory.takeOver : EStateM Fault (Trajectory × Draft) Unit := fun (tr, b) =>
  match Draft.finish b with
  | .ok built b => .ok () (built, b)
  | .error e b => .error e (tr, b)

end DroneShow
