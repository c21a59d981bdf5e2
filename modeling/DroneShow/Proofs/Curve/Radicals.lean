-- Square roots and cube roots in the wider format. Squared or cubed again, they are the
-- number up to a few roundings of itself, whatever its size. The cube roots are those of
-- a library, of which nothing is known but how accurate they are.
import Mathlib.Analysis.SpecialFunctions.Pow.Complex
import Mathlib.Analysis.SpecialFunctions.Pow.Real
import DroneShow.Proofs.Curve.Scale

namespace DroneShow

/-- The principal cube root of `p + q i`. -/
noncomputable def principalCbrt (p q : ℝ) : ℂ := (⟨p, q⟩ : ℂ) ^ ((3 : ℕ)⁻¹ : ℂ)

/-- What is relied on of the cube roots of a library. For numbers of moderate size they are finite,
and off by at most sixteen units in the last place of the exact root, for a complex number in
terms of its modulus. -/
structure CubeRoots.Accurate [CubeRoots Double] : Prop where
  cbrt : ∀ {x : Double} {q : ℚ} {c : ℝ}, x.Represents q → |q| ≤ 2 ^ 200 → c ^ 3 = q →
    (CubeRoots.cbrt x).Approx c (|c| / 2 ^ 48)
  complexCbrt : ∀ {x y : Double} {p q : ℚ}, x.Represents p → y.Represents q → |p| ≤ 2 ^ 200 →
    1 / 2 ^ 200 ≤ q → q ≤ 2 ^ 200 →
    (CubeRoots.complexCbrt x y).1.Approx (principalCbrt p q).re (‖principalCbrt p q‖ / 2 ^ 48) ∧
      (CubeRoots.complexCbrt x y).2.Approx (principalCbrt p q).im (‖principalCbrt p q‖ / 2 ^ 48)
  thirdTurn : (CubeRoots.thirdTurn : Double × Double).1.Approx (Real.cos (2 * Real.pi / 3)) (1 / 2 ^ 48) ∧
    (CubeRoots.thirdTurn : Double × Double).2.Approx (Real.sin (2 * Real.pi / 3)) (1 / 2 ^ 48)

namespace Roots

open Binary

variable {x y : Double} {p q : ℚ} {ρ w : ℝ}

/-- A size of which the format has all significands, just above a real number. -/
theorem exists_spans (hlow : 2 ^ (-400 : ℤ) ≤ ρ) (hhigh : ρ ≤ 2 ^ 200) :
    ∃ b : ℚ, binary64.Spans b ∧ ρ ≤ b ∧ (b : ℝ) ≤ 41 / 40 * ρ := by
  have hpos : 0 < ρ := lt_of_lt_of_le (by positivity) hlow
  obtain ⟨b, hb, hb'⟩ := exists_rat_btwn (by linarith : ρ < 41 / 40 * ρ)
  refine ⟨b, ⟨?_, 202, covers_double (by decide) (by decide), ?_⟩, hb.le, hb'.le⟩
  · rw [show binary64.minExponent + ((binary64.precision - 1 : Nat) : ℤ) = -1022 from rfl]
    have hleast : (2 : ℚ) ^ (-1022 : ℤ) ≤ 2 ^ (-400 : ℤ) := zpow_le_zpow_right₀ one_le_two (by decide)
    refine hleast.trans ?_
    rw [← Rat.cast_le (K := ℝ), Rat.cast_zpow, Rat.cast_ofNat]
    exact hlow.trans hb.le
  · rw [← Rat.cast_lt (K := ℝ), Rat.cast_zpow, Rat.cast_ofNat]
    calc (b : ℝ) ≤ 41 / 40 * 2 ^ 200 := hb'.le.trans (by gcongr)
      _ < 2 ^ (202 : ℤ) := by norm_num

theorem square_near {z : ℝ} (hρ : 0 ≤ ρ) (h : |z - ρ| ≤ 41 / 10 / 2 ^ 53 * ρ) :
    |z ^ 2 - ρ ^ 2| ≤ 9 / 2 ^ 53 * ρ ^ 2 := by
  have hz : |z + ρ| ≤ 202 / 100 * ρ := by
    have htri := abs_add_three (z - ρ) ρ ρ
    rw [sub_add_cancel, abs_of_nonneg hρ] at htri
    linarith
  calc |z ^ 2 - ρ ^ 2| = |z + ρ| * |z - ρ| := by rw [sq_sub_sq, abs_mul]
    _ ≤ 202 / 100 * ρ * (41 / 10 / 2 ^ 53 * ρ) := by gcongr
    _ = 41 / 10 * (202 / 100) / 2 ^ 53 * ρ ^ 2 := by ring
    _ ≤ 9 / 2 ^ 53 * ρ ^ 2 := by
      gcongr
      norm_num

theorem sqrt_square (hx : x.Represents q) (hlow : 1 / 2 ^ 200 ≤ q) (hhigh : q ≤ 2 ^ 200) :
    ∃ z : ℚ, (SqrtScalar.sqrt x : Double).Represents z ∧ 0 < z ∧
      |(z : ℝ) ^ 2 - q| ≤ 9 / 2 ^ 53 * q := by
  have hlowR : (1 / 2 ^ 100 : ℝ) ^ 2 ≤ q := by
    rw [← Rat.cast_le (K := ℝ)] at hlow
    push_cast at hlow
    linarith
  have hhighR : (q : ℝ) ≤ (2 ^ 100) ^ 2 := by
    rw [← Rat.cast_le (K := ℝ)] at hhigh
    push_cast at hhigh
    linarith
  have hlow' := Real.le_sqrt_of_sq_le hlowR
  have hhigh' := (Real.sqrt_le_left (by positivity)).mpr hhighR
  have hsq := Real.sq_sqrt ((by positivity : (0 : ℝ) ≤ (1 / 2 ^ 100) ^ 2).trans hlowR)
  have hleast : (2 : ℝ) ^ (-400 : ℤ) ≤ 2 * √(q : ℝ) :=
    calc (2 : ℝ) ^ (-400 : ℤ) ≤ 2 ^ (-100 : ℤ) := zpow_le_zpow_right₀ one_le_two (by decide)
      _ = 1 / 2 ^ 100 := by norm_num
      _ ≤ 2 * √(q : ℝ) := by linarith
  obtain ⟨b, hb, hle, hge⟩ := exists_spans hleast (by linarith)
  obtain ⟨z, hz, herr⟩ := sqrt_approx hx (lt_of_lt_of_le (by positivity) hlow) hb hle
  rw [roundoff_double] at herr
  generalize √(q : ℝ) = ρ at *
  have hnear : |(z : ℝ) - ρ| ≤ 41 / 10 / 2 ^ 53 * ρ := by
    push_cast at herr
    linarith
  have hz0 : (0 : ℝ) < z := by
    rw [abs_le] at hnear
    linarith
  refine ⟨z, hz, by exact_mod_cast hz0, ?_⟩
  rw [← hsq]
  exact square_near (by linarith) hnear

/-! ## Cube roots -/

theorem exists_cube (r : ℝ) : ∃ c : ℝ, c ^ 3 = r := by
  have hroot := Real.rpow_inv_natCast_pow (abs_nonneg r) three_ne_zero
  rcases abs_choice r with hr | hr
  · exact ⟨_, hroot.trans hr⟩
  · refine ⟨-|r| ^ ((3 : ℕ)⁻¹ : ℝ), ?_⟩
    rw [Odd.neg_pow (by decide), hroot, hr, neg_neg]

theorem cube_near {z c : ℝ} (h : |z - c| ≤ |c| / 2 ^ 48) : |z ^ 3 - c ^ 3| ≤ 97 / 2 ^ 53 * |c ^ 3| := by
  have hmax : max |z| |c| ≤ 100001 / 100000 * |c| := by
    apply max_le
    · have htri := abs_add_le (z - c) c
      rw [sub_add_cancel] at htri
      linarith [abs_nonneg c]
    · linarith [abs_nonneg c]
  calc |z ^ 3 - c ^ 3| ≤ |z - c| * (3 : ℕ) * max |z| |c| ^ 2 := abs_pow_sub_pow_le z c 3
    _ ≤ |c| / 2 ^ 48 * (3 : ℕ) * (100001 / 100000 * |c|) ^ 2 := by gcongr
    _ = 3 * (100001 / 100000) ^ 2 / 2 ^ 48 * |c ^ 3| := by
      rw [abs_pow]
      push_cast
      ring
    _ ≤ 97 / 2 ^ 53 * |c ^ 3| := mul_le_mul_of_nonneg_right (by norm_num) (abs_nonneg _)

theorem cbrt_cube [CubeRoots Double] (hroots : CubeRoots.Accurate) (hx : x.Represents q)
    (hhigh : |q| ≤ 2 ^ 200) : ∃ z : ℚ, (CubeRoots.cbrt x).Represents z ∧
      |(z : ℝ) ^ 3 - q| ≤ 97 / 2 ^ 53 * |(q : ℝ)| := by
  obtain ⟨c, hc⟩ := exists_cube q
  obtain ⟨z, hz, herr⟩ := hroots.cbrt hx hhigh hc
  refine ⟨z, hz, ?_⟩
  rw [← hc]
  exact cube_near herr

theorem cube_re (c : ℂ) : (c ^ 3).re = c.re ^ 3 - 3 * c.re * c.im ^ 2 := by
  simp only [pow_succ, pow_zero, one_mul, Complex.mul_re, Complex.mul_im]
  ring

theorem principalCbrt_cube (p q : ℝ) : principalCbrt p q ^ 3 = ⟨p, q⟩ :=
  Complex.cpow_nat_inv_pow _ three_ne_zero

theorem norm_principalCbrt (p q : ℝ) : ‖principalCbrt p q‖ ^ 6 = p ^ 2 + q ^ 2 := by
  rw [show 6 = 3 * 2 from rfl, pow_mul, ← norm_pow, principalCbrt_cube, Complex.sq_norm, Complex.normSq_mk]
  ring

/-- The parts of a cube root tell its modulus and the real part of its cube, also where they are
off by a small part of the modulus. -/
theorem complex_cube_near {c : ℂ} {Y Z : ℝ} (hY : |Y - c.re| ≤ ‖c‖ / 2 ^ 48) (hZ : |Z - c.im| ≤ ‖c‖ / 2 ^ 48) :
    |Y ^ 2 + Z ^ 2 - ‖c‖ ^ 2| ≤ ‖c‖ ^ 2 / 2 ^ 45 ∧
      |Y ^ 3 - 3 * Y * Z ^ 2 - (c ^ 3).re| ≤ ‖c‖ ^ 3 / 2 ^ 45 := by
  obtain ⟨d, hd⟩ : ∃ d : ℂ, d = ⟨Y, Z⟩ := ⟨_, rfl⟩
  have hdist : ‖d - c‖ ≤ 2 * (‖c‖ / 2 ^ 48) := by
    refine (Complex.norm_le_abs_re_add_abs_im _).trans ?_
    rw [hd, two_mul]
    exact add_le_add hY hZ
  have hsize : ‖d‖ ≤ 101 / 100 * ‖c‖ := by
    have htri := norm_add_le (d - c) c
    rw [sub_add_cancel] at htri
    linarith [norm_nonneg c]
  have hsquare : Y ^ 2 + Z ^ 2 = ‖d‖ ^ 2 := by
    rw [hd, Complex.sq_norm, Complex.normSq_mk]
    ring
  have hcube : Y ^ 3 - 3 * Y * Z ^ 2 = (d ^ 3).re := by rw [cube_re, hd]
  constructor
  · calc |Y ^ 2 + Z ^ 2 - ‖c‖ ^ 2| = (‖d‖ + ‖c‖) * |‖d‖ - ‖c‖| := by
          rw [hsquare, sq_sub_sq, abs_mul, abs_of_nonneg (by positivity)]
      _ ≤ (101 / 100 * ‖c‖ + ‖c‖) * (2 * (‖c‖ / 2 ^ 48)) := by
          gcongr
          exact (abs_norm_sub_norm_le d c).trans hdist
      _ = 402 / 100 / 2 ^ 48 * ‖c‖ ^ 2 := by ring
      _ ≤ 1 / 2 ^ 45 * ‖c‖ ^ 2 := mul_le_mul_of_nonneg_right (by norm_num) (by positivity)
      _ = ‖c‖ ^ 2 / 2 ^ 45 := one_div_mul_eq_div _ _
  · have hsplit : d ^ 3 - c ^ 3 = (d - c) * (d ^ 2 + d * c + c ^ 2) := by ring
    calc |Y ^ 3 - 3 * Y * Z ^ 2 - (c ^ 3).re| = |(d ^ 3 - c ^ 3).re| := by rw [hcube, Complex.sub_re]
      _ ≤ ‖d - c‖ * ‖d ^ 2 + d * c + c ^ 2‖ := by
          rw [← norm_mul, ← hsplit]
          exact Complex.abs_re_le_norm _
      _ ≤ 2 * (‖c‖ / 2 ^ 48) * ((101 / 100 * ‖c‖) ^ 2 + 101 / 100 * ‖c‖ * ‖c‖ + ‖c‖ ^ 2) := by
          gcongr
          refine norm_add₃_le.trans ?_
          rw [norm_pow, norm_mul, norm_pow]
          gcongr
      _ = 2 * ((101 / 100) ^ 2 + 101 / 100 + 1) / 2 ^ 48 * ‖c‖ ^ 3 := by ring
      _ ≤ 1 / 2 ^ 45 * ‖c‖ ^ 3 := mul_le_mul_of_nonneg_right (by norm_num) (by positivity)
      _ = ‖c‖ ^ 3 / 2 ^ 45 := one_div_mul_eq_div _ _

theorem complexCbrt_cube [CubeRoots Double] (hroots : CubeRoots.Accurate) (hx : x.Represents p)
    (hy : y.Represents q) (hp : |p| ≤ 2 ^ 200) (hlow : 1 / 2 ^ 200 ≤ q) (hhigh : q ≤ 2 ^ 200) :
    ∃ (Y Z : ℚ) (μ : ℝ), (CubeRoots.complexCbrt x y).1.Represents Y ∧
      (CubeRoots.complexCbrt x y).2.Represents Z ∧ 0 < μ ∧ μ ^ 6 = (p : ℝ) ^ 2 + (q : ℝ) ^ 2 ∧
      |(Y : ℝ) ^ 2 + (Z : ℝ) ^ 2 - μ ^ 2| ≤ μ ^ 2 / 2 ^ 45 ∧
      |(Y : ℝ) ^ 3 - 3 * Y * Z ^ 2 - p| ≤ μ ^ 3 / 2 ^ 45 := by
  obtain ⟨⟨Y, hY, hYerr⟩, Z, hZ, hZerr⟩ := hroots.complexCbrt hx hy hp hlow hhigh
  obtain ⟨hsize, hpart⟩ := complex_cube_near hYerr hZerr
  rw [principalCbrt_cube] at hpart
  refine ⟨Y, Z, _, hY, hZ, ?_, norm_principalCbrt p q, hsize, hpart⟩
  have hq : (0 : ℝ) < q := by exact_mod_cast lt_of_lt_of_le (by positivity) hlow
  refine lt_of_le_of_ne (norm_nonneg _) fun hzero => ?_
  have hsum := norm_principalCbrt p q
  rw [← hzero, zero_pow (by decide)] at hsum
  linarith [sq_nonneg (p : ℝ), pow_pos hq 2]

/-! ## Radicals of one real root -/

/-- Numbers are near each other if their cubes are. -/
theorem abs_sub_le_of_cube {x y e : ℝ} (he : 0 ≤ e) (h : 4 * |x ^ 3 - y ^ 3| ≤ e ^ 3) : |x - y| ≤ e := by
  refine le_of_pow_le_pow_left₀ three_ne_zero he (le_trans ?_ h)
  have hsplit : 4 * (x ^ 3 - y ^ 3) = (x - y) * ((x - y) ^ 2 + 3 * (x + y) ^ 2) := by ring
  have hpos : 0 ≤ (x - y) ^ 2 + 3 * (x + y) ^ 2 := by positivity
  calc |x - y| ^ 3 = |x - y| * (x - y) ^ 2 := by rw [pow_succ', sq_abs]
    _ ≤ |x - y| * ((x - y) ^ 2 + 3 * (x + y) ^ 2) := by
      gcongr
      linarith [sq_nonneg (x + y)]
    _ = |4 * (x ^ 3 - y ^ 3)| := by rw [hsplit, abs_mul, abs_of_nonneg hpos]
    _ = 4 * |x ^ 3 - y ^ 3| := by rw [abs_mul, abs_of_pos (four_pos (α := ℝ))]

section OneRoot

variable {η σ p q a b u z : ℝ} (hu : u ≤ 1 / 2 ^ 53) (hu0 : 0 ≤ u) (hη : |η - z| ≤ 24 * u)
  (hp : |p - (-η + σ)| ≤ 15 / 2 * u) (hq : |q - (-η - σ)| ≤ 15 / 2 * u) (hp' : |p| ≤ 15 / 2)
  (hq' : |q| ≤ 15 / 2)

include hu hu0 hη hp hq hp' hq'

/-- The radicands, with an error of a few roundings `u`, are the two roots of a quadratic, so
that an error of the square root hardly moves their product. -/
theorem radicands_product (hw : |w| ≤ 2) (hz : |z| ≤ 3)
    (hσ : |σ ^ 2 - (z * z + w * w * w)| ≤ 475 * u) :
    |p * q - (-w) ^ 3| ≤ 734 * u ∧ |p * q| ≤ 81 / 10 := by
  have hu' : u ≤ 1 / 10000 := hu.trans (by norm_num)
  have hη6 : |η + z| ≤ 601 / 100 := by
    have htri := abs_add_three (η - z) z z
    rw [show η - z + z + z = η + z by ring] at htri
    linarith
  have hfirst : |(η - z) * (η + z)| ≤ 145 * u := by
    rw [abs_mul]
    calc |η - z| * |η + z| ≤ 24 * u * (601 / 100) := by gcongr
      _ ≤ 145 * u := by linarith
  have hpσ : |-η + σ| ≤ 751 / 100 := by
    have htri := abs_sub_abs_le_abs_sub (-η + σ) p
    rw [abs_sub_comm] at htri
    linarith
  have hsecond : |(p - (-η + σ)) * q + (-η + σ) * (q - (-η - σ))| ≤ 114 * u := by
    refine (abs_add_le _ _).trans ?_
    rw [abs_mul, abs_mul]
    calc |p - (-η + σ)| * |q| + |-η + σ| * |q - (-η - σ)|
        ≤ 15 / 2 * u * (15 / 2) + 751 / 100 * (15 / 2 * u) := by gcongr
      _ ≤ 114 * u := by linarith
  have hproduct : |p * q - (-w) ^ 3| ≤ 734 * u := by
    have hsplit : p * q - (-w) ^ 3 = ((p - (-η + σ)) * q + (-η + σ) * (q - (-η - σ))) +
        (η - z) * (η + z) + -(σ ^ 2 - (z * z + w * w * w)) := by ring
    rw [hsplit]
    refine (abs_add_three _ _ _).trans ?_
    rw [abs_neg]
    linarith
  refine ⟨hproduct, ?_⟩
  have hw8 : |(-w) ^ 3| ≤ 2 ^ 3 := by
    rw [abs_pow, abs_neg]
    gcongr
  have htri := abs_sub_abs_le_abs_sub (p * q) ((-w) ^ 3)
  linarith

theorem radicals_product (hw : |w| ≤ 2) (hz : |z| ≤ 3) (hσ : |σ ^ 2 - (z * z + w * w * w)| ≤ 475 * u)
    (ha : |a ^ 3 - p| ≤ 97 * u * |p|) (hb : |b ^ 3 - q| ≤ 97 * u * |q|) : |a * b + w| ≤ 1 / 9600 := by
  obtain ⟨hproduct, hpq⟩ := radicands_product hu hu0 hη hp hq hp' hq' hw hz hσ
  have hb8 : |b ^ 3| ≤ 101 / 100 * |q| := by
    have hu' : 97 * u * |q| ≤ 1 / 100 * |q| :=
      mul_le_mul_of_nonneg_right (by linarith [hu.trans (by norm_num : _ ≤ (1 : ℝ) / 10000)]) (abs_nonneg q)
    have htri := abs_add_le (b ^ 3 - q) q
    rw [sub_add_cancel] at htri
    linarith
  have hcubes : |(a ^ 3 - p) * b ^ 3 + p * (b ^ 3 - q)| ≤ 1580 * u := by
    refine (abs_add_le _ _).trans ?_
    rw [abs_mul, abs_mul]
    calc |a ^ 3 - p| * |b ^ 3| + |p| * |b ^ 3 - q|
        ≤ 97 * u * |p| * (101 / 100 * |q|) + |p| * (97 * u * |q|) := by gcongr
      _ = 97 * (201 / 100) * u * |p * q| := by
        rw [abs_mul]
        ring
      _ ≤ 97 * (201 / 100) * u * (81 / 10) := by gcongr
      _ ≤ 1580 * u := by linarith
  rw [← sub_neg_eq_add]
  apply abs_sub_le_of_cube (by norm_num)
  have hsplit : (a * b) ^ 3 - (-w) ^ 3 = ((a ^ 3 - p) * b ^ 3 + p * (b ^ 3 - q)) + (p * q - (-w) ^ 3) := by ring
  calc 4 * |(a * b) ^ 3 - (-w) ^ 3| ≤ 4 * (1580 * u + 734 * u) := by
        rw [hsplit]
        gcongr
        exact (abs_add_le _ _).trans (add_le_add hcubes hproduct)
    _ ≤ 4 * (2314 * (1 / 2 ^ 53)) := by linarith
    _ ≤ (1 / 9600) ^ 3 := by norm_num

theorem radicals_sum (ha : |a ^ 3 - p| ≤ 97 * u * |p|) (hb : |b ^ 3 - q| ≤ 97 * u * |q|) :
    |a ^ 3 + b ^ 3 + 2 * z| ≤ 1 / 10 ^ 10 := by
  have hsplit : a ^ 3 + b ^ 3 + 2 * z =
      ((a ^ 3 - p) + (b ^ 3 - q)) + ((p - (-η + σ)) + (q - (-η - σ))) + -(2 * (η - z)) := by ring
  have hpu : u * |p| ≤ u * (15 / 2) := by gcongr
  have hqu : u * |q| ≤ u * (15 / 2) := by gcongr
  have htri := abs_add_le (a ^ 3 - p) (b ^ 3 - q)
  have htri' := abs_add_le (p - (-η + σ)) (q - (-η - σ))
  rw [hsplit]
  refine (abs_add_three _ _ _).trans ?_
  rw [abs_neg, abs_mul, abs_two]
  have hsmall : 1600 * u ≤ 1 / 10 ^ 10 := by
    refine (mul_le_mul_of_nonneg_left hu (by norm_num)).trans (by norm_num)
  linarith

end OneRoot

/-! ## Radicals of three real roots -/

/-- The modulus of the complex radical, from the parts `e` and `s` of its cube. -/
theorem modulus_near {m e s z : ℝ} (hm : m ^ 6 = e ^ 2 + s ^ 2) (hz : |z| ≤ 3)
    (hw : 1 / 6912 ≤ -(z * z + w * w * w)) (he : |e - z| ≤ 24 * (1 / 2 ^ 53))
    (hs : |s ^ 2 - -(z * z + w * w * w)| ≤ 475 * (1 / 2 ^ 53)) : |m ^ 2 + w| ≤ 1 / 2 / 10 ^ 10 := by
  have hsixth : |m ^ 6 + w * w * w| ≤ 650 / 2 ^ 53 := by
    have hsplit : m ^ 6 + w * w * w = (e - z) * (e + z) + (s ^ 2 - -(z * z + w * w * w)) := by
      rw [hm]
      ring
    have hsum : |e + z| ≤ 7 := by
      have htri := abs_add_three (e - z) z z
      rw [show e - z + z + z = e + z by ring] at htri
      linarith
    rw [hsplit]
    refine (abs_add_le _ _).trans ?_
    rw [abs_mul]
    calc |e - z| * |e + z| + |s ^ 2 - -(z * z + w * w * w)|
        ≤ 24 * (1 / 2 ^ 53) * 7 + 475 * (1 / 2 ^ 53) := by gcongr
      _ ≤ 650 / 2 ^ 53 := by norm_num
  have hw20 : 1 / 20 ≤ -w := by
    refine le_of_not_gt fun hlt => ?_
    have hcube : (-w) ^ 3 < (1 / 20) ^ 3 := Odd.strictMono_pow (by decide) hlt
    linarith [mul_self_nonneg z]
  have hsplit : m ^ 6 + w * w * w = (m ^ 2 + w) * (m ^ 4 + m ^ 2 * -w + w ^ 2) := by ring
  have hfactor : 1 / 400 ≤ m ^ 4 + m ^ 2 * -w + w ^ 2 := by
    have hw0 : 0 ≤ -w := by linarith
    have hrest : 0 ≤ m ^ 4 + m ^ 2 * -w := by positivity
    have hsq : (1 / 20) ^ 2 ≤ (-w) ^ 2 := pow_le_pow_left₀ (by norm_num) hw20 2
    linarith
  rw [hsplit, abs_mul, abs_of_pos (lt_of_lt_of_le (by norm_num) hfactor)] at hsixth
  have hle : |m ^ 2 + w| * (1 / 400) ≤ 650 / 2 ^ 53 := le_trans (by gcongr) hsixth
  norm_num at hle ⊢
  linarith

/-- What the parts of a complex cube root tell does not depend on the unit. -/
theorem cube_in_units {R μ p y z : ℝ} (hR : 0 < R) (hsize : |y ^ 2 + z ^ 2 - μ ^ 2| ≤ μ ^ 2 / 2 ^ 45)
    (hpart : |y ^ 3 - 3 * y * z ^ 2 - p| ≤ μ ^ 3 / 2 ^ 45) :
    |(y / R) ^ 2 + (z / R) ^ 2 - (μ / R) ^ 2| ≤ (μ / R) ^ 2 / 2 ^ 45 ∧
      |(y / R) ^ 3 - 3 * (y / R) * (z / R) ^ 2 - p / R ^ 3| ≤ (μ / R) ^ 3 / 2 ^ 45 := by
  constructor
  · have hsplit : (y / R) ^ 2 + (z / R) ^ 2 - (μ / R) ^ 2 = (y ^ 2 + z ^ 2 - μ ^ 2) / R ^ 2 := by ring
    rw [hsplit, abs_div, abs_of_pos (pow_pos hR 2), div_pow, div_right_comm]
    gcongr
  · have hsplit : (y / R) ^ 3 - 3 * (y / R) * (z / R) ^ 2 - p / R ^ 3 =
        (y ^ 3 - 3 * y * z ^ 2 - p) / R ^ 3 := by ring
    rw [hsplit, abs_div, abs_of_pos (pow_pos hR 3), div_pow, div_right_comm]
    gcongr

/-- So they nearly have the modulus and the cube that the coefficients say, and are of moderate
size. -/
theorem parts_near {m e s t z : ℝ} (hm0 : 0 ≤ m) (hm : |m ^ 2 + w| ≤ 1 / 2 / 10 ^ 10) (hw : |w| ≤ 2)
    (he : |e - z| ≤ 24 * (1 / 2 ^ 53)) (hsize : |s ^ 2 + t ^ 2 - m ^ 2| ≤ m ^ 2 / 2 ^ 45)
    (hpart : |s ^ 3 - 3 * s * t ^ 2 - -e| ≤ m ^ 3 / 2 ^ 45) :
    |s ^ 2 + t ^ 2 + w| ≤ 1 / 10 ^ 10 ∧ |s ^ 3 - 3 * s * t ^ 2 + z| ≤ 1 / 10 ^ 10 ∧
      s ^ 2 + t ^ 2 ≤ (3 / 2) ^ 2 := by
  have hm2 : m ^ 2 ≤ 201 / 100 := by linarith [(abs_le.mp hm).2, (abs_le.mp hw).1]
  have hm3 : m ^ 3 ≤ 3 := by
    have hm1 : m ≤ 142 / 100 :=
      le_of_pow_le_pow_left₀ two_ne_zero (by norm_num) (hm2.trans (by norm_num))
    calc m ^ 3 = m ^ 2 * m := pow_succ m 2
      _ ≤ 201 / 100 * (142 / 100) := by gcongr
      _ ≤ 3 := by norm_num
  refine ⟨?_, ?_, ?_⟩
  · have hsplit : s ^ 2 + t ^ 2 + w = (s ^ 2 + t ^ 2 - m ^ 2) + (m ^ 2 + w) := by ring
    rw [hsplit]
    refine (abs_add_le _ _).trans ?_
    linarith
  · have hsplit : s ^ 3 - 3 * s * t ^ 2 + z = (s ^ 3 - 3 * s * t ^ 2 - -e) + -(e - z) := by ring
    rw [hsplit]
    refine (abs_add_le _ _).trans ?_
    rw [abs_neg]
    linarith
  · rw [abs_le] at hsize
    linarith

end Roots

end DroneShow
