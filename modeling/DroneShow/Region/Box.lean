-- Boxes in space with sides along the axes; they know nothing of yaw.
import DroneShow.Region.Interval
import DroneShow.Curve.Path

namespace DroneShow

structure Box (α : Type) where
  x : Interval α
  y : Interval α
  z : Interval α
deriving DecidableEq

namespace Box

variable {α : Type} [Scalar α]

def ofPoint (p : Axes α) : Box α := ⟨.between p.x p.x, .between p.y p.y, .between p.z p.z⟩

def isEmpty (b : Box α) : Bool := b.x.isEmpty || b.y.isEmpty || b.z.isEmpty

def including (b : Box α) (p : Axes α) : Box α :=
  ⟨b.x.including p.x, b.y.including p.y, b.z.including p.z⟩

def contains (b : Box α) (p : Axes α) : Bool :=
  b.x.contains p.x && b.y.contains p.y && b.z.contains p.z

/-- Moves all six faces outwards by `margin`. -/
def widened (b : Box α) (margin : α) : Box α :=
  ⟨b.x.widened margin, b.y.widened margin, b.z.widened margin⟩

def empty : Box Single := ⟨.empty, .empty, .empty⟩

variable {β : Type} [RootScalar β] [Widening α β]

/-- The least box that also holds the whole path over the unit interval. -/
def includingPath (b : Box α) (path : Path α) : Except Fault (Box α) := do
  let x ← path.x.extent
  let y ← path.y.extent
  let z ← path.z.extent
  pure ⟨b.x.union x, b.y.union y, b.z.union z⟩

end Box

end DroneShow
