-- One segment of a flight: its time span and the control points of its curve
-- on each axis. Behind the last record stands a hold of the last
-- pose until the end of time.
import DroneShow.Record.Layout
import DroneShow.Record.Quantum
import DroneShow.Curve.Path

namespace DroneShow

/-- The last millisecond that the clock of a trajectory can show. -/
def timeLimit : Nat := 4294967295

structure Segment where
  /-- Where the record starts in the bytes of the trajectory. -/
  offset : Nat
  /-- The length of the record; only the final hold has none. -/
  length : Nat
  formats : Axes AxisFormat
  startMs : Nat
  durationMs : Nat
  start : Pose
  finish : Pose
  /-- The control points of each axis, from `start` on. -/
  points : Axes (List Single)
deriving DecidableEq

namespace Segment

/-- A time in milliseconds as seconds. -/
def seconds (ms : Nat) : Single := Binary.ofNat ms / 1000

/-- The hold of `start` from `startMs` until the end of time. -/
def hold (offset startMs : Nat) (start : Pose) : Segment where
  offset := offset
  length := 0
  formats := Axes.all .constant
  startMs := startMs
  durationMs := timeLimit - startMs
  start := start
  finish := start
  points := start.map fun a => [a]

/-- The segment of a record that starts at `start`. -/
def ofRecord (offset startMs : Nat) (start : Pose) (scale : Nat) (r : Record) : Segment :=
  let stored := Axes.ofFn fun axis => (r.raws.get axis).map (Quantum.decode scale axis)
  { offset := offset
    length := Record.length r.formats
    formats := r.formats
    startMs := startMs
    durationMs := r.durationMs
    start := start
    finish := Axes.ofFn fun axis => (stored.get axis).getLastD (start.get axis)
    points := Axes.ofFn fun axis => start.get axis :: stored.get axis }

/-- The segment at `offset`, which is the final hold where no bytes are left.
The clock is checked before the control points are read. -/
def decode (bytes : Bytes) (offset startMs : Nat) (start : Pose) (scale : Nat) :
    Except Fault Segment :=
  match bytes[offset]? with
  | none => .ok (hold offset startMs start)
  | some byte => do
    let durationMs ← Word.read bytes (offset + 1)
    if timeLimit < startMs + durationMs then .error .endOfTime
    else
      let formats := AxisFormat.ofByte byte
      let raws ← Record.readRaws bytes formats offset
      pure (ofRecord offset startMs start scale ⟨formats, durationMs, raws⟩)

/-- Whether this is the hold behind the last record. -/
def isTerminal (s : Segment) : Bool := s.length == 0

/-- The end of the segment, at the latest the end of time. -/
def endMs (s : Segment) : Nat := min (s.startMs + s.durationMs) timeLimit

def startSec (s : Segment) : Single := seconds s.startMs

def durationSec (s : Segment) : Single := seconds s.durationMs

def endSec (s : Segment) : Single := seconds (s.startMs + s.durationMs)

/-! ## Curves -/

/-- The position over the unit interval. -/
def position (s : Segment) : Except Fault (Path Single) := Path.ofPoints s.points

/-- The rate of change per second of a path over the unit interval. A segment
without duration has none. -/
def rate (s : Segment) (path : Path Single) : Path Single :=
  if s.durationMs = 0 then Path.rest else path.derivative.scale (1 / s.durationSec)

def velocity (s : Segment) : Except Fault (Path Single) := s.position.map s.rate

def acceleration (s : Segment) : Except Fault (Path Single) := s.velocity.map s.rate

end Segment

end DroneShow
