-- Encoded trajectories: the bytes together with what their header says.
import DroneShow.Trajectory.Header
import DroneShow.Trajectory.Segment

namespace DroneShow

/-- The bytes of a trajectory, borrowed from a caller or owned. -/
inductive Buffer where
  | view (bytes : Bytes)
  | owned (bytes : Bytes)
deriving DecidableEq

namespace Buffer

def bytes : Buffer → Bytes
  | .view bytes => bytes
  | .owned bytes => bytes

def isOwned : Buffer → Bool
  | .view _ => false
  | .owned _ => true

def size (b : Buffer) : Nat := b.bytes.size

def isEmpty (b : Buffer) : Bool := b.size == 0

/-- The same bytes, owned. -/
def toOwned (b : Buffer) : Buffer := .owned b.bytes

end Buffer

structure Trajectory where
  buffer : Buffer
  scale : Nat
  yawEnabled : Bool
  start : Pose
  /-- Where the first record starts. -/
  headerLength : Nat
deriving DecidableEq

namespace Trajectory

/-- No header and no record: stays at the origin. -/
def empty : Trajectory := ⟨.owned #[], 1, false, Pose.origin, 0⟩

/-- Reads the header. Without any bytes, the trajectory is an empty one. -/
def ofBuffer (buffer : Buffer) : Except Fault Trajectory :=
  if buffer.isEmpty then .ok { empty with buffer := buffer }
  else do
    let h ← Header.decode buffer.bytes
    pure ⟨buffer, h.scale, h.yawEnabled, h.start, Header.length⟩

/-- A trajectory that borrows its bytes. -/
def ofView (bytes : Bytes) : Except Fault Trajectory := ofBuffer (.view bytes)

/-- A trajectory that owns its bytes. -/
def ofBytes (bytes : Bytes) : Except Fault Trajectory := ofBuffer (.owned bytes)

def bytes (tr : Trajectory) : Bytes := tr.buffer.bytes

def isEmpty (tr : Trajectory) : Bool := tr.buffer.isEmpty

def isOwned (tr : Trajectory) : Bool := tr.buffer.isOwned

/-- Copies borrowed bytes, so that the trajectory can be changed. -/
def toOwned (tr : Trajectory) : Trajectory := { tr with buffer := tr.buffer.toOwned }

end Trajectory

end DroneShow
