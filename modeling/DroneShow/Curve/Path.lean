-- Paths: one polynomial for each axis. A path is told by the control points of
-- its axes, and those of its first part are found by de Casteljau's scheme.
import DroneShow.Curve.Crossing
import DroneShow.Axes

namespace DroneShow

abbrev Path (α : Type) := Axes (Poly α)

namespace Path

variable {α : Type} [Scalar α]

def rest : Path α := Axes.all Poly.zero

def constant (p : Axes α) : Path α := p.map Poly.constant

def eval (path : Path α) (t : α) : Axes α := path.map (·.eval t)

def derivative (path : Path α) : Path α := path.map (·.derivative)

def scale (path : Path α) (factor : α) : Path α := path.map (·.scale factor)

/-- The polynomial at an index; every index above two is that of the yaw. -/
def atIndex (path : Path α) (index : Nat) : Poly α :=
  path.get ((Axis.ofIndex? index).getD .yaw)

variable {β : Type} [Scalar β] [Widening α β]

/-- The polynomial over the unit interval through the control points of one axis. -/
def axisCurve : List α → Except Fault (Poly α)
  | [p] => .ok (Poly.constant p)
  | [p, q] => .ok (Poly.linear 1 p q)
  | points => Poly.bezier 1 points

/-- The path over the unit interval through the control points of each axis. -/
def ofPoints (points : Axes (List α)) : Except Fault (Path α) :=
  Axes.ofFnM fun axis => axisCurve (points.get axis)

end Path

/-! ## The first part of a curve -/

namespace Bezier

variable {α : Type} [Scalar α]

/-- The point that divides the way from `a` to `b` in the ratio `t`. -/
def mix (t a b : α) : α := (1 - t) * a + t * b

/-- One step of the scheme: each pair of neighbours is mixed. -/
def column (t : α) : List α → List α
  | a :: b :: rest => mix t a b :: column t (b :: rest)
  | _ => []

/-- The heads of the first `n` columns. -/
def columnHeads (t : α) : Nat → List α → List α
  | n + 1, a :: rest => a :: columnHeads t n (column t (a :: rest))
  | _, _ => []

/-- The control points of the curve of `points` over `[0, t]`: the heads of
all columns of the scheme. -/
def restrict (points : List α) (t : α) : List α := columnHeads t points.length points

end Bezier

end DroneShow
