-- Real roots of polynomials of degree at most three, in closed form.
import DroneShow.Curve.Poly

namespace DroneShow.Roots

variable {β : Type} [RootScalar β]

/-- The relative size below which a discriminant counts as zero. -/
def tolerance : β := Scalar.ofDecimal 1 9

/-- Whether `value` is small beside `magnitude`. -/
def isSmallBeside (value magnitude : β) : Bool :=
  Scalar.abs value ≤ tolerance * max magnitude RootScalar.leastNormal

/-- The candidates for the roots of `a t^2 + b t + c`. The two of a positive
discriminant are found without subtracting nearly equal numbers. -/
def quadratic (a b c : β) : List β :=
  let discriminant := b * b - 4 * a * c
  if isSmallBeside discriminant (max (b * b) (Scalar.abs (4 * a * c))) then
    [-b / (2 * a)]
  else if 0 < discriminant then
    let q := -(Scalar.ofDecimal 5 1) * (b + RootScalar.signum b * SqrtScalar.sqrt discriminant)
    [q / a, c / q]
  else []

/-- The product of two complex numbers. -/
def complexMul (z w : β × β) : β × β := (z.1 * w.1 - z.2 * w.2, z.1 * w.2 + z.2 * w.1)

/-- The three real roots of a depressed cubic, moved by `shift`: each is twice
the real part of one of the cube roots of `re + im i`. -/
def threeReal (re im shift : β) : List β :=
  let u := CubeRoots.complexCbrt re im
  let v := complexMul u CubeRoots.thirdTurn
  let w := complexMul v CubeRoots.thirdTurn
  [u.1 + u.1 - shift, v.1 + v.1 - shift, w.1 + w.1 - shift]

/-- The candidates for the roots of `a t^3 + b t^2 + c t + d`. With
`t = x - b / (3 a)` the equation becomes `x^3 + p x + q = 0`, and the sign of
its discriminant tells how many roots are real. -/
def cubic (a b c d : β) : List β :=
  let bb := b / a
  let cc := c / a
  let dd := d / a
  let shift := bb / 3
  let p := cc - bb * bb / 3
  let q := 2 * bb * bb * bb / 27 - bb * cc / 3 + dd
  let halfQ := q / 2
  let thirdP := p / 3
  let discriminant := halfQ * halfQ + thirdP * thirdP * thirdP
  let size := Scalar.abs thirdP
  let magnitude := max (halfQ * halfQ) (size * (size * size))
  if isSmallBeside discriminant magnitude then
    if isSmallBeside p (bb * bb + Scalar.abs cc) then [-shift]
    else
      let u := CubeRoots.cbrt (-halfQ)
      [2 * u - shift, -u - shift]
  else if 0 < discriminant then
    let s := SqrtScalar.sqrt discriminant
    [CubeRoots.cbrt (-halfQ + s) + CubeRoots.cbrt (-halfQ - s) - shift]
  else threeReal (-halfQ) (SqrtScalar.sqrt (-discriminant)) shift

/-- The value and the slope at `t`, by Horner's scheme. -/
def valueSlope (coeffs : List β) (t : β) : β × β :=
  coeffs.foldr (fun c (value, slope) => (value * t + c, slope * t + value)) (0, 0)

/-- Newton steps on a root; they end early where no finite step exists. -/
def refine (coeffs : List β) : Nat → β → β
  | 0, t => t
  | steps + 1, t =>
    let (value, slope) := valueSlope coeffs t
    if Scalar.same slope 0 || !Scalar.isFinite slope then t
    else
      let next := t - value / slope
      if Scalar.isFinite next then refine coeffs steps next else t

/-- Puts a number into an ordered list, behind its equals. -/
def insert (x : β) : List β → List β
  | [] => [x]
  | y :: rest =>
    if RootScalar.precedes y x then y :: insert x rest else x :: y :: rest

def sort (xs : List β) : List β := xs.foldl (fun acc x => insert x acc) []

/-- The finite real roots of a polynomial given by its coefficients, in
increasing order. A constant has none, even where it is zero. -/
def ofCoeffs : List β → Except Fault (List β)
  | [] | [_] => .ok []
  | [c0, c1] => .ok (sort ([-c0 / c1].filter Scalar.isFinite))
  | [c0, c1, c2] => .ok (sort ((quadratic c2 c1 c0).filter Scalar.isFinite))
  | [c0, c1, c2, c3] =>
    let found := (cubic c3 c2 c1 c0).filter Scalar.isFinite
    .ok (sort (found.map (refine [c0, c1, c2, c3] 2)))
  | _ => .error .highDegree

end DroneShow.Roots

namespace DroneShow.Poly

variable {α β : Type} [Scalar α] [RootScalar β] [Widening α β]

/-- The significant coefficients in the wider system, `rhs` moved to the left. -/
def equation (p : Poly α) (rhs : α) : List β :=
  match p.significant.map Widening.widen with
  | [] => []
  | c0 :: rest => (c0 - Widening.widen rhs) :: rest

/-- The real solutions of `p(t) = rhs` in the wider system. -/
def rootsWide (p : Poly α) (rhs : α) : Except Fault (List β) := Roots.ofCoeffs (p.equation rhs)

/-- The real solutions of `p(t) = rhs` over the whole line, in increasing order. -/
def roots (p : Poly α) (rhs : α) : Except Fault (List α) := do
  let ts ← p.rootsWide rhs
  pure (ts.map Widening.narrow)

end DroneShow.Poly
