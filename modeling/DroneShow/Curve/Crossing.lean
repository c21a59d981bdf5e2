-- Where a curve first reaches a given value within the unit interval, and the
-- range of values that it takes there.
import DroneShow.Curve.Roots
import DroneShow.Region.Interval

namespace DroneShow.Poly

variable {α β : Type} [Scalar α] [RootScalar β] [Widening α β]

/-! ## The first reach -/

/-- The distance from the unit interval up to which a root belongs to it. -/
def domainSlack : β := Scalar.ofDecimal 1 6

/-- Whether `value` lies between `a` and `b`, up to a negligible amount. -/
def liesBetween (value a b : α) : Bool :=
  let lo := if a ≤ b then a else b
  let hi := if a ≤ b then b else a
  lo - negligible ≤ value && value ≤ hi + negligible

/-- `t` brought into the unit interval. -/
def clampUnit (t : α) : α :=
  let u := if t < 0 then 0 else t
  if 1 < u then 1 else u

def insideUnit (t : α) : Bool := 0 < t && t < 1

/-- Whether a quadratic with coefficients `c1` and `c2` above the constant may
reach `value`: its range is that of its ends, and of its vertex if inside. -/
def quadraticReaches (p : Poly α) (value start finish c1 c2 : α) : Bool :=
  let vertex := -c1 / (2 * c2)
  if insideUnit vertex then
    let peak := p.eval vertex
    liesBetween value (min (min start finish) peak) (max (max start finish) peak)
  else liesBetween value start finish

/-- Whether a cubic may reach `value`. Its ends bound its range if the slope has
one sign, which the slopes at zero, at one and at an inner vertex decide. -/
def cubicReaches (p : Poly α) (value start finish c2 c3 : α) : Bool :=
  let slope := p.derivative
  let s0 := slope.eval 0
  let s1 := slope.eval 1
  let vertex := -c2 / (3 * c3)
  let sv := if insideUnit vertex then slope.eval vertex else s0
  let monotone := (0 ≤ s0 && 0 ≤ s1 && 0 ≤ sv) || (s0 ≤ 0 && s1 ≤ 0 && sv ≤ 0)
  !monotone || liesBetween value start finish

/-- The first root close enough to the unit interval, brought into it. -/
def firstCrossing (p : Poly α) (value : α) : Except Fault (Option α) := do
  let ts ← p.rootsWide value
  let near := fun t : β => decide (-domainSlack ≤ t) && decide (t ≤ 1 + domainSlack)
  pure ((ts.find? near).map fun t => clampUnit (Widening.narrow t))

/-- The smallest parameter in `[0, 1]` at which the polynomial takes `value`,
if it takes it there. -/
def firstReach (p : Poly α) (value : α) : Except Fault (Option α) :=
  let start := p.eval 0
  if Scalar.abs (start - value) ≤ negligible then .ok (some 0)
  else
    let finish := p.eval 1
    match p.significant with
    | [] | [_] => .ok none
    | [c0, c1] =>
      .ok (if liesBetween value start finish then some (clampUnit ((value - c0) / c1)) else none)
    | [_, c1, c2] =>
      if p.quadraticReaches value start finish c1 c2 then p.firstCrossing value else .ok none
    | [_, _, c2, c3] =>
      if p.cubicReaches value start finish c2 c3 then p.firstCrossing value else .ok none
    | _ => p.firstCrossing value

/-! ## The range of values -/

/-- The parameters strictly inside the unit interval at which the slope is zero. -/
def turningPoints (p : Poly α) : Except Fault (List β) := do
  let ts ← p.derivative.rootsWide 0
  pure (ts.filter fun t => decide (0 < t) && decide (t < 1))

/-- The least and the greatest value over `[0, 1]`. A polynomial of degree
one or less takes them at the ends. -/
def extent (p : Poly α) : Except Fault (Interval α) := do
  let ends := Interval.between (p.eval 0) (p.eval 1)
  if p.significant.length ≤ 2 then pure ends
  else
    let ts ← p.turningPoints
    pure (ts.foldl (fun i t => i.including (p.eval (Widening.narrow t))) ends)

end DroneShow.Poly
