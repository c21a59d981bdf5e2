-- The four axes of a flight: three of space and the yaw angle.
import DroneShow.Scalar
import DroneShow.Fault

namespace DroneShow

inductive Axis where
  | x | y | z | yaw
deriving DecidableEq, Repr

namespace Axis

/-- The axes in the order in which records store them. -/
def all : List Axis := [.x, .y, .z, .yaw]

def index : Axis → Nat
  | .x => 0
  | .y => 1
  | .z => 2
  | .yaw => 3

/-- The axis with a given index; indices above three belong to none. -/
def ofIndex? : Nat → Option Axis
  | 0 => some .x
  | 1 => some .y
  | 2 => some .z
  | 3 => some .yaw
  | _ => none

end Axis

/-- One value for each axis. -/
@[ext]
structure Axes (α : Type) where
  x : α
  y : α
  z : α
  yaw : α
deriving DecidableEq

namespace Axes

variable {α β γ : Type}

def get (v : Axes α) : Axis → α
  | .x => v.x
  | .y => v.y
  | .z => v.z
  | .yaw => v.yaw

def set (v : Axes α) (a : α) : Axis → Axes α
  | .x => { v with x := a }
  | .y => { v with y := a }
  | .z => { v with z := a }
  | .yaw => { v with yaw := a }

def ofFn (f : Axis → α) : Axes α := ⟨f .x, f .y, f .z, f .yaw⟩

def all (a : α) : Axes α := ⟨a, a, a, a⟩

def map (f : α → β) (v : Axes α) : Axes β := ⟨f v.x, f v.y, f v.z, f v.yaw⟩

def zipWith (f : α → β → γ) (v : Axes α) (w : Axes β) : Axes γ :=
  ⟨f v.x w.x, f v.y w.y, f v.z w.z, f v.yaw w.yaw⟩

def toList (v : Axes α) : List α := [v.x, v.y, v.z, v.yaw]

/-- Fills the axes in order; the first fault ends it. -/
def ofFnM {m : Type → Type} [Monad m] (f : Axis → m α) : m (Axes α) := do
  let x ← f .x
  let y ← f .y
  let z ← f .z
  let yaw ← f .yaw
  pure ⟨x, y, z, yaw⟩

/-- The value at an index, which must be that of an axis. -/
def atIndex (v : Axes α) (index : Nat) : Except Fault α :=
  match Axis.ofIndex? index with
  | some axis => .ok (v.get axis)
  | none => .error (.misuse (.axisOutOfRange index))

/-- Replaces the value at an index, which must be that of an axis. -/
def setIndex (v : Axes α) (index : Nat) (a : α) : Except Fault (Axes α) :=
  match Axis.ofIndex? index with
  | some axis => .ok (v.set a axis)
  | none => .error (.misuse (.axisOutOfRange index))

end Axes

/-- Where a drone is and which way it faces, in degrees; also how fast these change. -/
abbrev Pose := Axes Single

namespace Pose

def origin : Pose := Axes.all 0

def add (p q : Pose) : Pose := p.zipWith (· + ·) q

def sub (p q : Pose) : Pose := p.zipWith (· - ·) q

def divBy (p : Pose) (k : Single) : Pose := p.map (· / k)

/-- The point halfway between two poses, on every axis. -/
def midpoint (p q : Pose) : Pose := (p.add q).divBy 2

/-- Equality as numbers on every axis. -/
def same (p q : Pose) : Bool :=
  p.x.same q.x && p.y.same q.y && p.z.same q.z && p.yaw.same q.yaw

/-- The length of a horizontal vector. The squares are exact in the wider
format; an infinite part wins over a part that is no number. -/
def lengthXY (dx dy : Single) : Single :=
  if dx.abs.same (.infinity false) || dy.abs.same (.infinity false) then .infinity false
  else
    let x : Double := dx.convert
    let y : Double := dy.convert
    (x * x + y * y).sqrt.convert

/-- The horizontal distance; altitude and yaw do not count. -/
def distanceXY (p q : Pose) : Single := lengthXY (p.x - q.x) (p.y - q.y)

end Pose

/-- An angle in degrees brought to `[0, 360)`. A tiny negative angle, which
would round to the full turn, becomes zero. -/
def Yaw.normalize (degrees : Single) : Single :=
  let yaw := degrees.euclideanRemainder 360
  if (360 : Single) ≤ yaw then 0 else yaw

end DroneShow
