-- Cubics and their depressed forms. The discriminant bounds the slope at every root from
-- below, so that what the closed form gives for slightly wrong radicals is close to a root,
-- and every root is close to something that it gives.
import Mathlib.Analysis.Complex.Norm
import Mathlib.Analysis.Real.Sqrt
import Mathlib.Tactic.LinearCombination
import Mathlib.Topology.Order.IntermediateValue
import Mathlib.Topology.Instances.Real.Lemmas

namespace DroneShow.Roots

variable {w h x c e : ℝ}

/-- The cubic without a term of second degree, in the form that the closed form works on. -/
def depressed (w h x : ℝ) : ℝ := x ^ 3 + 3 * w * x + 2 * h

/-- A third of the linear coefficient of the depressed cubic. -/
noncomputable def linearThird (β γ : ℝ) : ℝ := (γ - β * β / 3) / 3

/-- Half of the constant of the depressed cubic. -/
noncomputable def constantHalf (β γ δ : ℝ) : ℝ := (2 * β * β * β / 27 - β * γ / 3 + δ) / 2

theorem depressed_shifted (β γ δ t : ℝ) :
    depressed (linearThird β γ) (constantHalf β γ δ) (t + β / 3) = t ^ 3 + β * t ^ 2 + γ * t + δ := by
  unfold depressed linearThird constantHalf
  ring

/-- The discriminant of `a t ^ 3 + b t ^ 2 + c t + d`. -/
def cubicDiscriminant (a b c d : ℝ) : ℝ :=
  b ^ 2 * c ^ 2 - 4 * a * c ^ 3 - 4 * b ^ 3 * d - 27 * a ^ 2 * d ^ 2 + 18 * a * b * c * d

/-- For some `R`, the coefficients are at most those of a threefold root of size `R`, and the
discriminant is at least that of roots at distances of `R / 2`. -/
def LargeDiscriminant (a b c d : ℝ) : Prop :=
  ∃ R : ℝ, |b| ≤ 3 * R * |a| ∧ |c| ≤ 3 * R ^ 2 * |a| ∧ |d| ≤ R ^ 3 * |a| ∧
    R ^ 6 * a ^ 4 ≤ 64 * |cubicDiscriminant a b c d|

/-- The complex solutions of `f s = v`, three of them, keep apart: the product of their distances
is at least that of distances of half the size of the greatest one. -/
def Apart (f : ℝ → ℝ) (v : ℝ) : Prop :=
  ∃ (a R : ℝ) (z₁ z₂ z₃ : ℂ), (∀ s : ℝ, (f s - v : ℂ) = a * ((s - z₁) * (s - z₂) * (s - z₃))) ∧
    ‖z₁‖ ≤ R ∧ ‖z₂‖ ≤ R ∧ ‖z₃‖ ≤ R ∧ (R / 2) ^ 3 ≤ ‖(z₁ - z₂) * (z₁ - z₃) * (z₂ - z₃)‖

/-! ## Roots and the discriminant -/

/-- At a root, the discriminant is told by the slope there. -/
theorem discriminant_at_root (hx : depressed w h x = 0) :
    4 * (h ^ 2 + w ^ 3) = (x ^ 2 + w) ^ 2 * (x ^ 2 + 4 * w) := by
  unfold depressed at hx
  linear_combination (2 * h - x ^ 3 - 3 * w * x) * hx

/-- The values at two places differ by the distance times a mean slope. -/
theorem depressed_sub (w h x y : ℝ) : depressed w h y - depressed w h x =
    (y - x) * (3 * (x ^ 2 + w) + 3 * x * (y - x) + (y - x) ^ 2) := by
  unfold depressed
  ring

theorem abs_root_le (hw : |w| ≤ 2) (hh : |h| ≤ 3) (hx : depressed w h x = 0) : |x| ≤ 3 := by
  by_contra hlarge
  have h3 := not_le.mp hlarge
  have hcube : |x| ^ 3 ≤ 6 * |x| + 6 := by
    have heq : x ^ 3 = -(3 * w * x + 2 * h) := by
      unfold depressed at hx
      linarith
    rw [← abs_pow, heq, abs_neg]
    refine (abs_add_le _ _).trans ?_
    rw [abs_mul, abs_mul 3, abs_mul 2, abs_two, abs_of_pos (three_pos (α := ℝ))]
    nlinarith [abs_nonneg x]
  nlinarith [mul_pos (sub_pos.mpr h3) (sub_pos.mpr h3)]

/-! ## Slopes -/

/-- With three real roots, the slope at none of them is small. -/
theorem slope_of_three (hw : |w| ≤ 201 / 100) (hD : 1 / 7000 ≤ -(h ^ 2 + w ^ 3))
    (hx : depressed w h x = 0) : 1 / 120 ≤ |x ^ 2 + w| := by
  have heq := discriminant_at_root hx
  have hw' := (abs_le.mp hw).1
  have hsq : (1 / 120) ^ 2 ≤ (x ^ 2 + w) ^ 2 := by
    nlinarith [mul_nonneg (sq_nonneg (x ^ 2 + w)) (sq_nonneg x),
      mul_nonneg (sq_nonneg (x ^ 2 + w)) (by linarith : 0 ≤ 201 / 100 + w)]
  have habs := sq_le_sq.mp hsq
  rwa [abs_of_pos (by norm_num)] at habs

/-- A positive discriminant leaves no second real root. -/
theorem cofactor_pos (hD : 0 < h ^ 2 + w ^ 3) (hx : depressed w h x = 0) : 0 < x ^ 2 + 4 * w := by
  have heq := discriminant_at_root hx
  by_contra hle
  nlinarith [mul_nonneg (sq_nonneg (x ^ 2 + w)) (neg_nonneg.mpr (not_lt.mp hle))]

theorem le_of_cube_le {a t k : ℝ} (ht : 0 ≤ t) (hk : k ≤ t) (h : a ^ 3 ≤ t ^ 2 * k) : a ≤ t := by
  refine le_of_pow_le_pow_left₀ three_ne_zero ht (h.trans ?_)
  rw [pow_succ t 2]
  exact mul_le_mul_of_nonneg_left hk (sq_nonneg t)

/-- With one real root, one of the factors of the discriminant there has its share of it; the
greater of both, which the sign of the linear coefficient tells. -/
theorem factors_of_one (hD : 1 / 6912 ≤ h ^ 2 + w ^ 3) (hx : depressed w h x = 0) :
    (0 ≤ w ∧ 1 / 20 ≤ x ^ 2 + w ∧ 1 / 12 ≤ x ^ 2 + 4 * w) ∨
      (w ≤ 0 ∧ 1 / 12 ≤ x ^ 2 + w ∧ 0 < x ^ 2 + 4 * w) := by
  have heq := discriminant_at_root hx
  have hpos := cofactor_pos (by linarith) hx
  rcases le_total 0 w with hw | hw
  · left
    have hτ : 0 ≤ x ^ 2 + w := by positivity
    have hle : (x ^ 2 + w) ^ 2 ≤ (x ^ 2 + 4 * w) ^ 2 := pow_le_pow_left₀ hτ (by linarith) 2
    have hshare : (1 / 12) ^ 3 ≤ (x ^ 2 + 4 * w) ^ 2 * (x ^ 2 + 4 * w) := by
      linarith [mul_le_mul_of_nonneg_right hle hpos.le]
    refine ⟨hw, ?_, le_of_cube_le hpos.le le_rfl hshare⟩
    exact le_of_cube_le (k := (x ^ 2 + 4 * w) / 4) hτ (by linarith [sq_nonneg x]) (by linarith)
  · right
    exact ⟨hw, le_of_cube_le (k := x ^ 2 + 4 * w) (by linarith) (by linarith) (by linarith), hpos⟩

/-- The curve is then steep at the root, also against the place of the root. -/
theorem slope_of_one (hD : 1 / 6912 ≤ h ^ 2 + w ^ 3) (hx : depressed w h x = 0) :
    1 / 20 ≤ x ^ 2 + w ∧ |x| ≤ 9 / 2 * (x ^ 2 + w) := by
  rcases factors_of_one hD hx with ⟨hw, hτ, -⟩ | ⟨hw, hτ, hpos⟩
  · have hsq : 1 / 20 * (x ^ 2 + w) ≤ (x ^ 2 + w) ^ 2 := by
      rw [pow_two (x ^ 2 + w)]
      exact mul_le_mul_of_nonneg_right hτ (by linarith)
    refine ⟨hτ, abs_le_of_sq_le_sq ?_ (by linarith)⟩
    rw [mul_pow]
    linarith
  · have hsq : 1 / 12 * (x ^ 2 + w) ≤ (x ^ 2 + w) ^ 2 := by
      rw [pow_two (x ^ 2 + w)]
      exact mul_le_mul_of_nonneg_right hτ (by linarith)
    refine ⟨by linarith, abs_le_of_sq_le_sq ?_ (by linarith)⟩
    rw [mul_pow]
    linarith

/-- A step of Newton's method with errors in the value and in the slope. -/
theorem newton_near {y v s d E : ℝ} (hx : depressed w h x = 0) (hy : |y - x| ≤ d) (hd : d ≤ 1)
    (hv : |v - depressed w h y| ≤ E) (hs : |s - 3 * (y ^ 2 + w)| ≤ E) (hτ : 0 < |x ^ 2 + w|)
    (hflat : 6 * |x| * d + 3 * d ^ 2 + E ≤ |x ^ 2 + w| / 10) :
    s ≠ 0 ∧ |y - v / s - x| * (29 / 10 * |x ^ 2 + w|) ≤ d ^ 2 * (3 * |x| + 2 * d) + 2 * E := by
  have hd0 : 0 ≤ d := (abs_nonneg _).trans hy
  have hE : 0 ≤ E := (abs_nonneg _).trans hv
  have hsteep : 29 / 10 * |x ^ 2 + w| ≤ |s| := by
    have hsplit : 3 * (x ^ 2 + w) = s + (-(s - 3 * (y ^ 2 + w)) + -(6 * x * (y - x)) + -(3 * (y - x) ^ 2)) := by
      ring
    have htri : 3 * |x ^ 2 + w| ≤ |s| + (E + 6 * |x| * d + 3 * d ^ 2) := by
      calc 3 * |x ^ 2 + w| = |3 * (x ^ 2 + w)| := by rw [abs_mul, abs_of_pos (three_pos (α := ℝ))]
        _ ≤ |s| + (|s - 3 * (y ^ 2 + w)| + 6 * |x| * |y - x| + 3 * |y - x| ^ 2) := by
          rw [hsplit]
          refine (abs_add_le _ _).trans (add_le_add le_rfl ((abs_add_three _ _ _).trans_eq ?_))
          rw [abs_neg, abs_neg, abs_neg, abs_mul, abs_mul, abs_mul, abs_pow,
            abs_of_pos (three_pos (α := ℝ)), abs_of_pos (by norm_num : (0 : ℝ) < 6)]
        _ ≤ |s| + (E + 6 * |x| * d + 3 * d ^ 2) := by gcongr
    linarith
  have hs0 : s ≠ 0 := by
    rintro rfl
    rw [abs_zero] at hsteep
    linarith
  refine ⟨hs0, ?_⟩
  have hsplit : (y - v / s - x) * s = (y - x) ^ 2 * (3 * x + 2 * (y - x)) +
      ((y - x) * (s - 3 * (y ^ 2 + w)) + -(v - depressed w h y)) := by
    have hdiff := depressed_sub w h x y
    rw [hx, sub_zero] at hdiff
    field_simp
    rw [hdiff]
    ring
  calc |y - v / s - x| * (29 / 10 * |x ^ 2 + w|) ≤ |y - v / s - x| * |s| := by gcongr
    _ = |(y - v / s - x) * s| := (abs_mul _ _).symm
    _ ≤ |y - x| ^ 2 * |3 * x + 2 * (y - x)| + (|y - x| * |s - 3 * (y ^ 2 + w)| + |v - depressed w h y|) := by
      rw [hsplit]
      refine (abs_add_le _ _).trans (add_le_add ?_ ((abs_add_le _ _).trans ?_))
      · rw [abs_mul, abs_pow]
      · rw [abs_mul, abs_neg]
    _ ≤ d ^ 2 * (3 * |x| + 2 * d) + (1 * E + E) := by
      have hbend : |3 * x + 2 * (y - x)| ≤ 3 * |x| + 2 * d := by
        refine (abs_add_le _ _).trans ?_
        rw [abs_mul, abs_mul, abs_two, abs_of_pos (three_pos (α := ℝ))]
        gcongr
      gcongr
      exact hy.trans hd
    _ = d ^ 2 * (3 * |x| + 2 * d) + 2 * E := by ring

/-! ## One real root -/

/-- The mean slope between the root and a place on its side is not small. -/
theorem mean_slope_of_one {y : ℝ} (hD : 1 / 6912 ≤ h ^ 2 + w ^ 3) (hx : depressed w h x = 0)
    (hside : w ≤ 0 → 0 ≤ x * y) :
    1 / 48 ≤ 3 * (x ^ 2 + w) + 3 * x * (y - x) + (y - x) ^ 2 ∧
      |y| ≤ 47 / 10 * (3 * (x ^ 2 + w) + 3 * x * (y - x) + (y - x) ^ 2) := by
  have hmean : 3 / 8 * |y| ^ 2 + 1 / 32 ≤ 3 * (x ^ 2 + w) + 3 * x * (y - x) + (y - x) ^ 2 ∨
      |y| ^ 2 + 1 / 36 ≤ 3 * (x ^ 2 + w) + 3 * x * (y - x) + (y - x) ^ 2 := by
    rw [sq_abs]
    rcases factors_of_one hD hx with ⟨hw, -, hκ⟩ | ⟨hw, hτ, hpos⟩
    · left
      linarith [sq_nonneg (2 * y + x), sq_nonneg (2 * x + y)]
    · right
      linarith [hside hw]
  rcases hmean with hmean | hmean
  · exact ⟨by linarith [sq_nonneg |y|], by linarith [sq_nonneg |y|, sq_nonneg (|y| - 2 / 7)]⟩
  · exact ⟨by linarith [sq_nonneg |y|], by linarith [sq_nonneg |y|, sq_nonneg (|y| - 1 / 8)]⟩

/-- The sum of the radicals is on the side of the root where the linear coefficient is negative:
the constant is not small, so that its sign is that of the sum of the cubes. -/
theorem side_of_one {y z : ℝ} (hD : 1 / 6912 ≤ h ^ 2 + w ^ 3) (hx : depressed w h x = 0)
    (hsum : |y ^ 3 + z ^ 3 + 2 * h| ≤ 1 / 10 ^ 10) (hw : w ≤ 0) : 0 ≤ x * (y + z) := by
  have hpos := cofactor_pos (by linarith) hx
  have hroot : x * (x ^ 2 + 3 * w) = -(2 * h) := by
    unfold depressed at hx
    linarith
  have hsame : 0 < -(2 * h) * (y ^ 3 + z ^ 3) := by
    have hcube : w ^ 3 ≤ 0 := Odd.pow_nonpos (by decide) hw
    have herr : (y ^ 3 + z ^ 3 + 2 * h) ^ 2 ≤ (1 / 10 ^ 10) ^ 2 := sq_le_sq' (abs_le.mp hsum).1 (abs_le.mp hsum).2
    linarith [sq_nonneg (y ^ 3 + z ^ 3)]
  have hfactors : 0 ≤ (x ^ 2 + 3 * w) * (y ^ 2 - y * z + z ^ 2) :=
    mul_nonneg (by linarith) (by linarith [sq_nonneg (y - z), sq_nonneg (y + z)])
  refine (pos_of_mul_pos_left ?_ hfactors).le
  calc 0 < -(2 * h) * (y ^ 3 + z ^ 3) := hsame
    _ = x * (y + z) * ((x ^ 2 + 3 * w) * (y ^ 2 - y * z + z ^ 2)) := by
      rw [← hroot]
      ring

/-- The sum of two radicals is near the root if their product and the sum of their cubes
are nearly as the coefficients say. -/
theorem near_of_one {y z : ℝ} (hD : 1 / 6912 ≤ h ^ 2 + w ^ 3) (hx : depressed w h x = 0)
    (hprod : |y * z + w| ≤ 1 / 9600) (hsum : |y ^ 3 + z ^ 3 + 2 * h| ≤ 1 / 10 ^ 10) :
    |y + z - x| ≤ 147 / 100000 := by
  have hvalue : depressed w h (y + z) = 3 * (y * z + w) * (y + z) + (y ^ 3 + z ^ 3 + 2 * h) := by
    unfold depressed
    ring
  obtain ⟨hlow, hplace⟩ := mean_slope_of_one hD hx (side_of_one hD hx hsum)
  have hdiff := depressed_sub w h x (y + z)
  rw [hx, sub_zero, hvalue] at hdiff
  generalize 3 * (x ^ 2 + w) + 3 * x * (y + z - x) + (y + z - x) ^ 2 = slope at hlow hplace hdiff
  have hslope : 0 < slope := by linarith
  refine le_of_mul_le_mul_right ?_ hslope
  calc |y + z - x| * slope = |3 * (y * z + w) * (y + z) + (y ^ 3 + z ^ 3 + 2 * h)| := by
        rw [hdiff, abs_mul, abs_of_pos hslope]
    _ ≤ 3 * |y * z + w| * |y + z| + |y ^ 3 + z ^ 3 + 2 * h| := by
        refine (abs_add_le _ _).trans_eq ?_
        rw [abs_mul, abs_mul, abs_of_pos (three_pos (α := ℝ))]
    _ ≤ 3 * (1 / 9600) * (47 / 10 * slope) + 1 / 10 ^ 10 := by gcongr
    _ ≤ 147 / 100000 * slope := by linarith

/-! ## Three real roots -/

/-- A small value where the slope is not small has a root next to it. -/
theorem exists_root_near (hc : |c| ≤ 3) (hslope : 1 / 150 ≤ |c ^ 2 + w|) (hvalue : |depressed w h c| ≤ e)
    (he : e ≤ 1 / 10 ^ 6) : ∃ x, depressed w h x = 0 ∧ |x - c| ≤ 100 * e := by
  have he0 : 0 ≤ e := (abs_nonneg _).trans hvalue
  have hcont : Continuous (depressed w h) := by
    unfold depressed
    fun_prop
  have hright := depressed_sub w h c (c + 100 * e)
  have hleft := depressed_sub w h c (c - 100 * e)
  rw [add_sub_cancel_left] at hright
  rw [sub_sub_cancel_left] at hleft
  rw [abs_le] at hc hvalue
  have hzero : (0 : ℝ) ∈ Set.uIcc (depressed w h (c - 100 * e)) (depressed w h (c + 100 * e)) := by
    rw [Set.mem_uIcc]
    rcases le_abs.mp hslope with hrise | hfall
    · left
      exact ⟨by nlinarith, by nlinarith⟩
    · right
      exact ⟨by nlinarith, by nlinarith⟩
  obtain ⟨x, hx, hroot⟩ := intermediate_value_uIcc hcont.continuousOn hzero
  refine ⟨x, hroot, ?_⟩
  rw [Set.uIcc_of_le (by linarith)] at hx
  rw [abs_le]
  exact ⟨by linarith [hx.1], by linarith [hx.2]⟩

/-- Twice the real parts of the cube roots of a complex number, of which `y` and `z` are the
real and the imaginary part of one. -/
noncomputable def thirds (y z : ℝ) : List ℝ := [2 * y, -y - √3 * z, -y + √3 * z]

/-- The cubic whose roots these are differs from the given one by errors of its coefficients. -/
theorem depressed_eq_thirds (w h x y z : ℝ) :
    depressed w h x = ((thirds y z).map (x - ·)).prod + 3 * (y ^ 2 + z ^ 2 + w) * x +
      2 * (y ^ 3 - 3 * y * z ^ 2 + h) := by
  have h3 : √(3 : ℝ) ^ 2 = 3 := Real.sq_sqrt (by norm_num)
  simp only [thirds, depressed, List.map_cons, List.map_nil, List.prod_cons, List.prod_nil]
  linear_combination (x - 2 * y) * z ^ 2 * h3

theorem abs_thirds_le {y z : ℝ} (h : y ^ 2 + z ^ 2 ≤ 201 / 100) (hc : c ∈ thirds y z) : |c| ≤ 3 := by
  have h3 : √(3 : ℝ) ^ 2 = 3 := Real.sq_sqrt (by norm_num)
  apply abs_le_of_sq_le_sq _ (by norm_num)
  simp only [thirds, List.mem_cons, List.not_mem_nil, or_false] at hc
  rcases hc with rfl | rfl | rfl
  · nlinarith
  · nlinarith [sq_nonneg (√3 * y - z)]
  · nlinarith [sq_nonneg (√3 * y + z)]

theorem exists_small_factor {a b c d : ℝ} (hd : 0 ≤ d) (h : |a * b * c| ≤ d ^ 3) :
    |a| ≤ d ∨ |b| ≤ d ∨ |c| ≤ d := by
  by_contra hlarge
  rw [not_or, not_or] at hlarge
  obtain ⟨ha, hb, hc⟩ := hlarge
  have hlt : d * d * d < |a| * |b| * |c| :=
    mul_lt_mul'' (mul_lt_mul'' (not_le.mp ha) (not_le.mp hb) hd hd) (not_le.mp hc) (mul_nonneg hd hd) hd
  rw [abs_mul, abs_mul] at h
  linarith [pow_succ d 2, pow_two d]

/-- Nearly right cube roots leave a small value at the numbers that are made of them, and
small factors at the roots. -/
theorem small_at_thirds {y z : ℝ} (hsize : |y ^ 2 + z ^ 2 + w| ≤ 1 / 10 ^ 10)
    (hpart : |y ^ 3 - 3 * y * z ^ 2 + h| ≤ 1 / 10 ^ 10) (hx : |x| ≤ 3) :
    |depressed w h x - ((thirds y z).map (x - ·)).prod| ≤ 11 / 10 ^ 10 := by
  rw [depressed_eq_thirds w h x y z, add_assoc, add_sub_cancel_left]
  refine (abs_add_le _ _).trans ?_
  rw [abs_mul, abs_mul, abs_mul, abs_two, abs_of_pos (three_pos (α := ℝ))]
  calc 3 * |y ^ 2 + z ^ 2 + w| * |x| + 2 * |y ^ 3 - 3 * y * z ^ 2 + h|
      ≤ 3 * (1 / 10 ^ 10) * 3 + 2 * (1 / 10 ^ 10) := by gcongr
    _ = 11 / 10 ^ 10 := by norm_num

/-- Each of these numbers is an exact root of a cubic with nearly the same coefficients,
so that the slope there is not small either. -/
theorem slope_at_thirds {y z : ℝ} (hw : |w| ≤ 2) (hh : |h| ≤ 3) (hD : 1 / 6912 ≤ -(h ^ 2 + w ^ 3))
    (hsize : |y ^ 2 + z ^ 2 + w| ≤ 1 / 10 ^ 10) (hpart : |y ^ 3 - 3 * y * z ^ 2 + h| ≤ 1 / 10 ^ 10)
    (hc : c ∈ thirds y z) : 1 / 150 ≤ |c ^ 2 + w| := by
  have hroot : depressed (-(y ^ 2 + z ^ 2)) (-(y ^ 3 - 3 * y * z ^ 2)) c = 0 := by
    have hzero : ((thirds y z).map (c - ·)).prod = 0 :=
      List.prod_eq_zero (List.mem_map.mpr ⟨c, hc, sub_self c⟩)
    rw [depressed_eq_thirds _ _ c y z, hzero]
    ring
  obtain ⟨p, hp⟩ : ∃ p, p = -(y ^ 2 + z ^ 2) := ⟨_, rfl⟩
  obtain ⟨q, hq⟩ : ∃ q, q = -(y ^ 3 - 3 * y * z ^ 2) := ⟨_, rfl⟩
  have hwp : |w - p| ≤ 1 / 10 ^ 10 := by rwa [hp, sub_neg_eq_add, add_comm]
  have hhq : |h - q| ≤ 1 / 10 ^ 10 := by rwa [hq, sub_neg_eq_add, add_comm]
  rw [← hp, ← hq] at hroot
  have hp2 : |p| ≤ 201 / 100 := by
    have htri := abs_sub_abs_le_abs_sub p w
    rw [abs_sub_comm] at htri
    linarith
  have hq3 : |q| ≤ 4 := by
    have htri := abs_sub_abs_le_abs_sub q h
    rw [abs_sub_comm] at htri
    linarith
  have hsquare : |h ^ 2 - q ^ 2| ≤ 1 / 10 ^ 10 * (2 : ℕ) * 4 ^ 1 :=
    (abs_pow_sub_pow_le h q 2).trans (by
      gcongr
      exact max_le (by linarith) hq3)
  have hcube : |w ^ 3 - p ^ 3| ≤ 1 / 10 ^ 10 * (3 : ℕ) * (201 / 100) ^ 2 :=
    (abs_pow_sub_pow_le w p 3).trans (by
      gcongr
      exact max_le (by linarith) hp2)
  have hD' : 1 / 7000 ≤ -(q ^ 2 + p ^ 3) := by
    rw [abs_le] at hsquare hcube
    norm_num at hsquare hcube
    linarith
  have hslope := slope_of_three hp2 hD' hroot
  have htri := abs_sub_abs_le_abs_sub (c ^ 2 + p) (c ^ 2 + w)
  rw [add_sub_add_left_eq_sub, abs_sub_comm p w] at htri
  linarith

/-- Nearly right cube roots give three numbers next to the roots, with one next to each. -/
theorem near_of_three {y z : ℝ} (hw : |w| ≤ 2) (hh : |h| ≤ 3) (hD : 1 / 6912 ≤ -(h ^ 2 + w ^ 3))
    (hsize : |y ^ 2 + z ^ 2 + w| ≤ 1 / 10 ^ 10) (hpart : |y ^ 3 - 3 * y * z ^ 2 + h| ≤ 1 / 10 ^ 10) :
    (∀ c ∈ thirds y z, ∃ x, depressed w h x = 0 ∧ |c - x| ≤ 1 / 5000000) ∧
      ∀ x, depressed w h x = 0 → ∃ c ∈ thirds y z, |c - x| ≤ 1 / 5000000 := by
  have hvalue : ∀ c ∈ thirds y z, |c| ≤ 3 ∧ |depressed w h c| ≤ 11 / 10 ^ 10 := by
    intro c hc
    have hc3 : |c| ≤ 3 := abs_thirds_le (by linarith [(abs_le.mp hsize).2, (abs_le.mp hw).1]) hc
    have hzero : ((thirds y z).map (c - ·)).prod = 0 :=
      List.prod_eq_zero (List.mem_map.mpr ⟨c, hc, sub_self c⟩)
    have hsmall := small_at_thirds hsize hpart hc3
    rw [hzero, sub_zero] at hsmall
    exact ⟨hc3, hsmall⟩
  constructor
  · intro c hc
    obtain ⟨hc3, hsmall⟩ := hvalue c hc
    obtain ⟨x, hx, hnear⟩ :=
      exists_root_near hc3 (slope_at_thirds hw hh hD hsize hpart hc) hsmall (by norm_num)
    rw [abs_sub_comm] at hnear
    exact ⟨x, hx, hnear.trans (by norm_num)⟩
  · intro x hx
    have hx3 := abs_root_le hw hh hx
    have hslope := slope_of_three (hw.trans (by norm_num)) (by linarith) hx
    have hsmall := small_at_thirds hsize hpart hx3
    rw [hx, zero_sub, abs_neg] at hsmall
    have hfactor : ∃ c ∈ thirds y z, |x - c| ≤ 11 / 10000 := by
      have hprod : |(x - 2 * y) * (x - (-y - √3 * z)) * (x - (-y + √3 * z))| ≤ (11 / 10000) ^ 3 := by
        simp only [thirds, List.map_cons, List.map_nil, List.prod_cons, List.prod_nil, mul_one] at hsmall
        rw [mul_assoc]
        exact hsmall.trans (by norm_num)
      simp only [thirds, List.mem_cons, List.not_mem_nil, or_false, exists_eq_or_imp, exists_eq_left]
      exact exists_small_factor (by norm_num) hprod
    obtain ⟨c, hc, hnear⟩ := hfactor
    rw [abs_sub_comm] at hnear
    refine ⟨c, hc, ?_⟩
    have hmean : 3 / 200 ≤ |3 * (x ^ 2 + w) + (3 * x * (c - x) + (c - x) ^ 2)| := by
      have hbend : |3 * x * (c - x) + (c - x) ^ 2| ≤ 1 / 100 := by
        refine (abs_add_le _ _).trans ?_
        rw [abs_mul, abs_mul, abs_of_pos (three_pos (α := ℝ)), abs_pow]
        calc 3 * |x| * |c - x| + |c - x| ^ 2 ≤ 3 * 3 * (11 / 10000) + (11 / 10000) ^ 2 := by gcongr
          _ ≤ 1 / 100 := by norm_num
      have htri := abs_sub_abs_le_abs_add (3 * (x ^ 2 + w)) (3 * x * (c - x) + (c - x) ^ 2)
      rw [abs_mul, abs_of_pos (three_pos (α := ℝ))] at htri
      linarith
    have hle := (hvalue c hc).2
    have hdiff := depressed_sub w h x c
    rw [hx, sub_zero] at hdiff
    rw [hdiff, abs_mul, add_assoc] at hle
    nlinarith [abs_nonneg (c - x)]

end DroneShow.Roots
