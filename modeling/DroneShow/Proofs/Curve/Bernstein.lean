-- The power form in exact arithmetic. Over the rationals, the conversion of
-- control points is exact: the polynomial has the values of their Bernstein form,
-- and its derivative those of the slope of that form.
import Mathlib.Analysis.Calculus.Deriv.Polynomial
import Mathlib.Analysis.Normed.Field.Lemmas
import Mathlib.RingTheory.Polynomial.Bernstein
import DroneShow.Proofs.Curve.Exact

namespace DroneShow.Poly

open Polynomial (C X)
open scoped Polynomial

variable {p : Poly ℚ} {points : List ℚ} {n i j : Nat} {duration : ℚ}

/-! ## Operations over the rationals -/

/-- The value of a polynomial over the rationals. -/
def rationalEval (p : Poly ℚ) (t : ℚ) : ℚ := @eval ℚ (Scalar.exact ℚ) p t

def rationalDerivative (p : Poly ℚ) : Poly ℚ := @derivative ℚ (Scalar.exact ℚ) p

/-- The coefficients of the derivative of those from degree `i` on. -/
def rationalWeighted (i : Nat) (cs : List ℚ) : List ℚ := @weighted ℚ (Scalar.exact ℚ) i cs

def rationalStretch (p : Poly ℚ) (factor : ℚ) : Poly ℚ :=
  @stretch ℚ ℚ (Scalar.exact ℚ) (Widening.exact ℚ) p factor

/-- The coefficients times `power`, `power * ratio` and so on. -/
def rationalStretched (ratio power : ℚ) (cs : List ℚ) : List ℚ :=
  @stretched ℚ ℚ (Scalar.exact ℚ) (Widening.exact ℚ) ratio power cs

/-- The power form of a curve over the rationals, run through in `duration`. -/
def rationalBezier (duration : ℚ) (points : List ℚ) : Except Fault (Poly ℚ) :=
  @bezier ℚ ℚ (Scalar.exact ℚ) (Scalar.exact ℚ) (Widening.exact ℚ) duration points

/-! ## Coefficients -/

/-- The polynomial with these coefficients, in increasing order of degree. -/
noncomputable def ofCoeffs (cs : List ℚ) : ℚ[X] := cs.foldr (fun c acc => acc * X + C c) 0

@[simp] theorem ofCoeffs_nil : ofCoeffs [] = 0 := rfl

theorem ofCoeffs_cons (c : ℚ) (cs : List ℚ) : ofCoeffs (c :: cs) = ofCoeffs cs * X + C c := rfl

theorem coeff_ofCoeffs (cs : List ℚ) (j : Nat) : (ofCoeffs cs).coeff j = cs.getD j 0 := by
  induction cs generalizing j with
  | nil => simp
  | cons c cs ih =>
    rw [ofCoeffs_cons, Polynomial.coeff_add]
    cases j with
    | zero => simp
    | succ j => simp [ih]

theorem rationalEval_eq (p : Poly ℚ) (t : ℚ) : p.rationalEval t = (ofCoeffs p.coeffs).eval t := by
  unfold rationalEval eval
  induction p.coeffs with
  | nil => simp
  | cons c cs ih =>
    rw [ofCoeffs_cons, List.foldr_cons, ih]
    simp

/-! ## The derivative -/

theorem rationalWeighted_cons (i : Nat) (c : ℚ) (cs : List ℚ) :
    rationalWeighted i (c :: cs) = i * c :: rationalWeighted (i + 1) cs := rfl

theorem getD_rationalWeighted (i j : Nat) (cs : List ℚ) :
    (rationalWeighted i cs).getD j 0 = (i + j : ℕ) * cs.getD j 0 := by
  induction cs generalizing i j with
  | nil => simp [rationalWeighted, weighted]
  | cons c cs ih =>
    rw [rationalWeighted_cons]
    cases j with
    | zero => simp
    | succ j =>
      rw [List.getD_cons_succ, ih, List.getD_cons_succ, Nat.add_right_comm, Nat.add_assoc]

theorem ofCoeffs_rationalWeighted (cs : List ℚ) :
    ofCoeffs (rationalWeighted 1 cs.tail) = Polynomial.derivative (ofCoeffs cs) := by
  ext j
  rw [Polynomial.coeff_derivative, coeff_ofCoeffs, coeff_ofCoeffs, getD_rationalWeighted,
    List.getD_eq_getElem?_getD, List.getElem?_tail, ← List.getD_eq_getElem?_getD]
  push_cast
  ring

/-- The derivative of the slots is that of the polynomial, also where it is zero. -/
theorem ofCoeffs_rationalDerivative (h : p.count ≤ polySlots) :
    ofCoeffs p.rationalDerivative.coeffs = Polynomial.derivative (ofCoeffs p.coeffs) := by
  rw [← ofCoeffs_rationalWeighted]
  by_cases hcount : p.count ≤ 1
  · have hzero : p.rationalDerivative.coeffs = [0] :=
      @coeffs_derivative_constant ℚ (Scalar.exact ℚ) p hcount
    have hnone : p.coeffs.tail = [] := by
      rw [← List.length_eq_zero_iff, List.length_tail, length_coeffs h]
      omega
    rw [hzero, hnone, ofCoeffs_cons]
    simp [rationalWeighted, weighted]
  · exact congrArg ofCoeffs (@coeffs_derivative ℚ (Scalar.exact ℚ) p h (not_le.mp hcount))

/-! ## The stretch -/

theorem rationalStretched_cons (ratio power c : ℚ) (cs : List ℚ) :
    rationalStretched ratio power (c :: cs) =
      c * power :: rationalStretched ratio (power * ratio) cs := rfl

/-- Increasing powers stand for another time. -/
theorem ofCoeffs_rationalStretched (ratio power : ℚ) (cs : List ℚ) :
    ofCoeffs (rationalStretched ratio power cs) =
      C power * (ofCoeffs cs).comp (C ratio * X) := by
  induction cs generalizing power with
  | nil => simp [rationalStretched, stretched]
  | cons c cs ih =>
    rw [rationalStretched_cons, ofCoeffs_cons, ih, ofCoeffs_cons]
    simp
    ring

theorem ofCoeffs_rationalStretch (h : p.count ≤ polySlots) (factor : ℚ) :
    ofCoeffs (p.rationalStretch factor).coeffs = (ofCoeffs p.coeffs).comp (C (1 / factor) * X) := by
  have hstretched :
      (p.rationalStretch factor).coeffs = rationalStretched (1 / factor) 1 p.coeffs :=
    @coeffs_stretch ℚ ℚ (Scalar.exact ℚ) (Widening.exact ℚ) p h factor
  rw [hstretched, ofCoeffs_rationalStretched, Polynomial.C_1, one_mul]

theorem eval_stretched (q : ℚ[X]) (factor t : ℚ) :
    (q.comp (C (1 / factor) * X)).eval t = q.eval (t / factor) := by
  rw [Polynomial.eval_comp, Polynomial.eval_mul, Polynomial.eval_C, Polynomial.eval_X, one_div,
    inv_mul_eq_div]

/-! ## The Bernstein form -/

/-- The ways to pick `j` of `n` and `i` of these, with the sign of `i + j`. -/
theorem coeff_bernsteinPolynomial (n i j : ℕ) :
    (bernsteinPolynomial ℚ n i).coeff j = (-1) ^ (i + j) * (n.choose j * j.choose i : ℕ) := by
  have hpow : (1 - X : ℚ[X]) ^ (n - i) = ((1 + X) ^ (n - i)).comp (C (-1) * X) := by
    simp [sub_eq_add_neg]
  unfold bernsteinPolynomial
  rw [mul_assoc, Polynomial.coeff_natCast_mul, Polynomial.coeff_X_pow_mul', hpow]
  by_cases hi : i ≤ j
  · obtain ⟨m, rfl⟩ := Nat.exists_eq_add_of_le hi
    have hsign : (-1 : ℚ) ^ (i + (i + m)) = (-1) ^ m := by
      rw [← add_assoc, pow_add, Even.neg_one_pow ⟨i, rfl⟩, one_mul]
    rw [if_pos hi, Polynomial.comp_C_mul_X_coeff, Polynomial.coeff_one_add_X_pow,
      Nat.choose_mul hi, hsign, Nat.add_sub_cancel_left]
    push_cast
    ring
  · rw [if_neg hi, Nat.choose_eq_zero_of_lt (not_le.mp hi)]
    simp

/-- The Bernstein form of control points, as a polynomial. -/
noncomputable def bernsteinForm (points : List ℚ) : ℚ[X] :=
  ∑ k ∈ Finset.range points.length,
    bernsteinPolynomial ℚ (points.length - 1) k * C (points.getD k 0)

theorem coeff_bernsteinForm (points : List ℚ) (j : Nat) :
    (bernsteinForm points).coeff j = ∑ k ∈ Finset.range points.length,
      (bernsteinPolynomial ℚ (points.length - 1) k).coeff j * points.getD k 0 := by
  simp [bernsteinForm]

theorem eval_bernsteinForm (points : List ℚ) (t : ℚ) :
    (bernsteinForm points).eval t = Bezier.curve points t := by
  unfold bernsteinForm Bezier.curve
  cases points with
  | nil => simp
  | cons a rest =>
    rw [Finset.Nat.sum_antidiagonal_eq_sum_range_succ_mk, Polynomial.eval_finsetSum]
    refine Finset.sum_congr rfl fun k _ => ?_
    simp [bernsteinPolynomial]
    ring

/-- The steps from one control point to the next. -/
def differences (points : List ℚ) : List ℚ :=
  List.zipWith (fun a b => b - a) points points.tail

@[simp] theorem length_differences (points : List ℚ) :
    (differences points).length = points.length - 1 := by
  simp [differences]

theorem getD_differences (h : i + 1 < points.length) :
    (differences points).getD i 0 = points.getD (i + 1) 0 - points.getD i 0 := by
  have hi : i < points.length := by omega
  simp [differences, List.getD_eq_getElem?_getD, List.getElem?_zipWith, h, hi]

/-- The slope of a Bernstein form is that of the differences, times the degree. Each control
point but the ends is taken from one of its terms and added in the next. -/
theorem derivative_bernsteinForm (points : List ℚ) :
    Polynomial.derivative (bernsteinForm points) =
      ((points.length - 1 : ℕ) : ℚ[X]) * bernsteinForm (differences points) := by
  cases hn : points.length with
  | zero => simp [bernsteinForm, hn]
  | succ n =>
    have hlast : (n : ℚ[X]) * bernsteinPolynomial ℚ (n - 1) n = 0 := by
      cases n with
      | zero => simp
      | succ n => rw [bernsteinPolynomial.eq_zero_of_lt ℚ (by omega), mul_zero]
    have hdifferences : bernsteinForm (differences points) =
        ∑ k ∈ Finset.range n, bernsteinPolynomial ℚ (n - 1) k *
          (C (points.getD (k + 1) 0) - C (points.getD k 0)) := by
      unfold bernsteinForm
      rw [length_differences, hn, Nat.add_sub_cancel]
      refine Finset.sum_congr rfl fun k hk => ?_
      have hlt := Finset.mem_range.mp hk
      rw [getD_differences (by omega), Polynomial.C_sub]
    calc Polynomial.derivative (bernsteinForm points)
        = ∑ k ∈ Finset.range (n + 1),
            Polynomial.derivative (bernsteinPolynomial ℚ n k) * C (points.getD k 0) := by
          unfold bernsteinForm
          rw [hn, Nat.add_sub_cancel, Polynomial.derivative_sum]
          refine Finset.sum_congr rfl fun k _ => ?_
          rw [Polynomial.derivative_mul, Polynomial.derivative_C, mul_zero, add_zero]
      _ = n * (∑ k ∈ Finset.range n, bernsteinPolynomial ℚ (n - 1) k * C (points.getD (k + 1) 0) -
            ∑ k ∈ Finset.range (n + 1), bernsteinPolynomial ℚ (n - 1) k * C (points.getD k 0)) := by
          rw [Finset.sum_range_succ', Finset.sum_range_succ', bernsteinPolynomial.derivative_zero,
            ← sub_sub, ← Finset.sum_sub_distrib, mul_sub, Finset.mul_sum, sub_eq_add_neg]
          refine congrArg₂ (· + ·) ?_ ?_
          · refine Finset.sum_congr rfl fun k _ => ?_
            rw [bernsteinPolynomial.derivative_succ]
            ring
          · ring
      _ = n * bernsteinForm (differences points) := by
          rw [Finset.sum_range_succ, ← sub_sub, ← Finset.sum_sub_distrib, mul_sub, ← mul_assoc,
            hlast, zero_mul, sub_zero, hdifferences]
          simp only [mul_sub]

/-! ## The conversion -/

/-- Coefficient `j` sums those of the Bernstein polynomials, times their control points. -/
theorem bezierSum_rational (hj : j ≤ n) (S : ℚ) (points : List ℚ) :
    @bezierSum ℚ ℚ (Scalar.exact ℚ) (Widening.exact ℚ) n j S i points =
      S + ∑ k ∈ Finset.range points.length,
        (bernsteinPolynomial ℚ n (i + k)).coeff j * points.getD k 0 := by
  induction points generalizing i S with
  | nil => simp [bezierSum]
  | cons a rest ih =>
    by_cases hji : j < i
    · rw [bezierSum_exact_of_lt hji, Finset.sum_eq_zero, add_zero]
      intro k _
      rw [coeff_bernsteinPolynomial, Nat.choose_eq_zero_of_lt (by omega : j < i + k)]
      simp
    · have hweight : (bernsteinPolynomial ℚ n i).coeff j =
          (if (i + j) % 2 = 1 then -1 else 1) * (n.choose j * j.choose i : ℕ) := by
        rw [coeff_bernsteinPolynomial]
        split
        next hodd => rw [Odd.neg_one_pow (Nat.odd_iff.mpr hodd)]
        next heven => rw [Even.neg_one_pow (Nat.even_iff.mpr (by omega))]
      rw [bezierSum_exact_cons hj (Nat.not_lt.mp hji), ih, List.length_cons,
        Finset.sum_range_succ', add_zero, hweight]
      simp only [List.getD_cons_succ, List.getD_cons_zero, Nat.add_right_comm i 1, Nat.add_assoc]
      ring

theorem ofCoeffs_bezierCoeff (hpos : points ≠ []) :
    ofCoeffs ((List.range points.length).map
      (@bezierCoeff ℚ ℚ (Scalar.exact ℚ) (Widening.exact ℚ) points)) = bernsteinForm points := by
  have hcount : 0 < points.length := List.length_pos_iff.mpr hpos
  ext j
  rw [coeff_ofCoeffs, coeff_bernsteinForm]
  by_cases hj : j < points.length
  · have hsum := bezierSum_rational (i := 0) (by omega : j ≤ points.length - 1) 0 points
    simp only [zero_add] at hsum
    rw [List.getD_eq_getElem _ _ (by simpa using hj), List.getElem_map, List.getElem_range, ← hsum]
    rfl
  · rw [List.getD_eq_default _ _ (by simpa using hj), Finset.sum_eq_zero]
    intro k _
    rw [coeff_bernsteinPolynomial, Nat.choose_eq_zero_of_lt (by omega : points.length - 1 < j)]
    simp

theorem rationalBezier_ok (hpos : points ≠ []) (hlen : points.length ≤ polySlots)
    (hd : 0 < duration) : ∃ p, rationalBezier duration points = .ok p ∧ p.count ≤ polySlots ∧
      ofCoeffs p.coeffs = (bernsteinForm points).comp (C (1 / duration) * X) := by
  have hcount : 0 < points.length := List.length_pos_iff.mpr hpos
  let p : Poly ℚ := ⟨(@zero ℚ (Scalar.exact ℚ)).writeSlots ((List.range points.length).map
    (@bezierCoeff ℚ ℚ (Scalar.exact ℚ) (Widening.exact ℚ) points)), points.length⟩
  have hp : ofCoeffs p.coeffs = bernsteinForm points := by
    rw [← ofCoeffs_bezierCoeff hpos, coeffs_writeSlots_range _ hlen]
  have hbezier : rationalBezier duration points =
      if duration = 1 then .ok p else .ok (p.rationalStretch duration) := by
    unfold rationalBezier bezier
    rw [if_neg (by omega), if_neg (not_le.mpr hd)]
    show (if decide (duration = (1 : ℕ)) = true then _ else _) = _
    rw [Nat.cast_one]
    simp only [decide_eq_true_eq]
    rfl
  rw [hbezier]
  by_cases hunit : duration = 1
  · rw [if_pos hunit, hunit]
    exact ⟨p, rfl, hlen, by simp [hp]⟩
  · rw [if_neg hunit]
    exact ⟨_, rfl, hlen, by rw [ofCoeffs_rationalStretch hlen, hp]⟩

/-- Control points convert exactly. Over the rationals, one to eight of them have a power form
in any positive duration. At all times its value is that of their Bernstein form, and the value
of its derivative is the slope of that form: that of the differences, times the degree, over the
duration. -/
theorem control_points_convert_exactly (hpos : points ≠ []) (hlen : points.length ≤ 8)
    (hd : 0 < duration) :
    ∃ p, rationalBezier duration points = .ok p ∧ ∀ t,
      p.rationalEval t = Bezier.curve points (t / duration) ∧
      HasDerivAt (fun s => Bezier.curve points (s / duration))
        (p.rationalDerivative.rationalEval t) t ∧
      p.rationalDerivative.rationalEval t =
        (points.length - 1 : ℕ) / duration * Bezier.curve (differences points) (t / duration) := by
  obtain ⟨p, hp, hcount, hcoeffs⟩ := rationalBezier_ok hpos hlen hd
  have hcurve : ∀ t, (ofCoeffs p.coeffs).eval t = Bezier.curve points (t / duration) := by
    intro t
    rw [hcoeffs, eval_stretched, eval_bernsteinForm]
  refine ⟨p, hp, fun t => ⟨?_, ?_, ?_⟩⟩
  · rw [rationalEval_eq, hcurve]
  · rw [rationalEval_eq, ofCoeffs_rationalDerivative hcount]
    simp only [← hcurve]
    exact (ofCoeffs p.coeffs).hasDerivAt t
  · rw [rationalEval_eq, ofCoeffs_rationalDerivative hcount, hcoeffs, Polynomial.derivative_comp,
      Polynomial.derivative_C_mul_X, Polynomial.eval_mul, Polynomial.eval_C, eval_stretched,
      derivative_bernsteinForm, Polynomial.eval_mul, Polynomial.eval_natCast, eval_bernsteinForm]
    ring

/-- A curve of the third degree halfway through two seconds. -/
theorem a_cubic_converts_exactly :
    ∃ p, rationalBezier 2 [0, 8, 24, 16] = .ok p ∧ p.rationalEval 1 = 14 ∧
      p.rationalDerivative.rationalEval 1 = 12 := by
  obtain ⟨p, hp, hvalues⟩ := control_points_convert_exactly
    (List.cons_ne_nil (0 : ℚ) [8, 24, 16]) (by decide) (two_pos : (0 : ℚ) < 2)
  obtain ⟨hvalue, -, hslope⟩ := hvalues 1
  refine ⟨p, hp, hvalue.trans ?_, hslope.trans ?_⟩
  · simp [Bezier.curve, Finset.Nat.antidiagonal_succ, Nat.choose]
    norm_num
  · simp [differences, Bezier.curve, Finset.Nat.antidiagonal_succ, Nat.choose]
    norm_num

end DroneShow.Poly
