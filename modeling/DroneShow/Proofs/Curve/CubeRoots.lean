-- The computed cube roots are as accurate as the closed forms rely on. A real root is rounded
-- once. Of a complex root, the exact parts lie in the sector of the principal value, where the
-- integer root is right to more digits than it is rounded to.
import DroneShow.Proofs.Binary.ComplexRoot
import DroneShow.Proofs.Curve.Cubic

namespace DroneShow.Roots

open Binary

variable {x y : Double} {p q : ℚ} {c : ℝ}

/-! ## Real roots -/

/-- The size of a number, from its significand and its exponent. -/
theorem abs_of_number {n : Bool} {r : ℕ} {hr : r ≤ binary64.infinityRank}
    (h : (number n r hr : Double).Represents q) :
    |(q : ℝ)| = binary64.significand r * 2 ^ binary64.exponent r ∧ (q : ℝ) = signFactor n * |(q : ℝ)| := by
  obtain ⟨-, hval⟩ := h
  have habs : |q| = binary64.magnitude r := by
    rw [hval, abs_signFactor_mul, abs_of_nonneg (binary64.magnitude_nonneg r)]
  constructor
  · rw [← Rat.cast_abs, habs, Format.magnitude]
    push_cast
    rfl
  · rw [← Rat.cast_abs, habs, hval]
    push_cast
    rfl

theorem eq_signed_of_cube {n : Bool} {r : ℝ} (hc : c ^ 3 = r) (hr : r = signFactor n * |r|) :
    c = signFactor n * |c| := by
  have hsign : ((signFactor n : ℚ) : ℝ) ^ 3 = signFactor n := by
    cases n with
    | false => simp
    | true => norm_num
  refine (Odd.pow_inj (n := 3) (by decide)).mp ?_
  rw [mul_pow, hsign, ← abs_pow, hc, ← hr]

/-- The root of a number that is not zero is not too small. -/
theorem two_zpow_le_of_cube {r : ℕ} (hsig : binary64.significand r ≠ 0)
    (hc : |c| ^ 3 = binary64.significand r * 2 ^ binary64.exponent r) : 2 ^ (-358 : ℤ) ≤ |c| := by
  refine le_of_pow_le_pow_left₀ three_ne_zero (abs_nonneg c) ?_
  rw [← zpow_natCast, ← zpow_mul, hc, ← one_mul ((2 : ℝ) ^ _)]
  gcongr
  · exact_mod_cast Nat.one_le_iff_ne_zero.mpr hsig
  · norm_num
  · show (-1074 : ℤ) ≤ -1074 + (binary64.binade r : ℤ)
    omega

theorem abs_le_of_cube (hhigh : |q| ≤ 2 ^ 200) (hc : c ^ 3 = q) : |c| ≤ 2 ^ 100 := by
  refine le_of_pow_le_pow_left₀ three_ne_zero (by positivity) ?_
  rw [← abs_pow, hc, ← Rat.cast_abs]
  rw [← Rat.cast_le (K := ℝ)] at hhigh
  push_cast at hhigh ⊢
  exact hhigh.trans (by norm_num)

theorem cbrt_near (hx : x.Represents q) (hhigh : |q| ≤ 2 ^ 200) (hc : c ^ 3 = q) :
    (Binary.cbrt x).Approx c (|c| / 2 ^ 48) := by
  cases x with
  | nan => exact hx.elim
  | number n r hr =>
    obtain ⟨hsize, hsigned⟩ := abs_of_number hx
    have hrun : Binary.cbrt (number n r hr : Double) =
        rootScaled 3 n (binary64.significand r) (binary64.exponent r) := if_neg hx.1.ne
    rw [hrun]
    by_cases hsig : binary64.significand r = 0
    · rw [hsig, Nat.cast_zero, zero_mul, abs_eq_zero, ← hc] at hsize
      rw [eq_zero_of_pow_eq_zero hsize]
      refine ⟨0, ?_, by norm_num⟩
      unfold rootScaled
      rw [if_pos hsig]
      exact ⟨by decide, by simp⟩
    · have hcube : |c| ^ 3 = binary64.significand r * 2 ^ binary64.exponent r := by
        rw [← abs_pow, hc, hsize]
      have hlow := two_zpow_le_of_cube hsig hcube
      have hleast : (2 : ℝ) ^ (-400 : ℤ) ≤ 2 * |c| :=
        (zpow_le_zpow_right₀ one_le_two (by decide)).trans (hlow.trans (by linarith [abs_nonneg c]))
      obtain ⟨b, hb, hle, hge⟩ := exists_spans hleast (by linarith [abs_le_of_cube hhigh hc])
      have hnear := rootScaled_approx three_pos n hsig (abs_nonneg c) hcube hb hle
      rw [← eq_signed_of_cube hc hsigned, roundoff_double] at hnear
      refine hnear.mono ?_
      push_cast
      linarith [abs_nonneg c]

/-! ## Complex roots -/

/-- A number is near `r` if it was rounded from a value near `r`, both in terms of a size `s`. -/
theorem near_of_rounds {z : Double} {t : ℚ} {r s : ℝ} (hs : Room s) (hs0 : 0 ≤ s) (hz : z.Rounds t)
    (hr : |r| ≤ s) (ht : |t - r| ≤ s / 2 ^ 50) : z.Approx r (s / 2 ^ 48) := by
  have hpos := hs.pos
  have habs := abs_of_nonneg hs0
  rw [habs] at hpos
  have hpart : r / s * s = r := div_mul_cancel₀ r hpos.ne'
  have hle : |r / s| ≤ 1 := by
    rw [abs_div, habs]
    exact div_le_one_of_le₀ hr hs0
  have herr : |(t : ℝ) - r / s * s| ≤ 8 * (|s| / 2 ^ 53) := by
    rw [hpart, habs]
    linarith
  have hsized := Sized.of_rounds hs hz hle (by norm_num) herr (by norm_num)
  have hnear := hsized.approx
  rw [hpart, habs] at hnear
  exact hnear.mono (by linarith)

/-- The principal cube root of a number with a positive imaginary part has an angle of at most a
third of a half turn. -/
theorem principalCbrt_sector {p q : ℝ} (hq : 0 < q) :
    ‖principalCbrt p q‖ ≤ 2 * (principalCbrt p q).re ∧ 0 ≤ (principalCbrt p q).im := by
  obtain ⟨w, hw⟩ : ∃ w : ℂ, w = ⟨p, q⟩ := ⟨_, rfl⟩
  have him : w.im = q := by rw [hw]
  have hw0 : w ≠ 0 := by
    rintro rfl
    exact hq.ne him
  have hroot : principalCbrt p q = Complex.exp (Complex.log w * 3⁻¹) := by
    rw [principalCbrt, ← hw, Complex.cpow_def_of_ne_zero hw0, Nat.cast_ofNat]
  have hangle : (Complex.log w * 3⁻¹).im = w.arg / 3 := by
    rw [← Complex.log_im]
    simp [Complex.mul_im, div_eq_mul_inv]
  have harg0 : 0 ≤ w.arg := Complex.arg_nonneg_iff.mpr (him ▸ hq.le)
  have harg := Complex.arg_le_pi w
  rw [hroot, Complex.norm_exp, Complex.exp_re, Complex.exp_im, hangle]
  have hexp := Real.exp_pos (Complex.log w * 3⁻¹).re
  have hcos : 1 / 2 ≤ Real.cos (w.arg / 3) := by
    rw [← Real.cos_pi_div_three]
    exact Real.cos_le_cos_of_nonneg_of_le_pi (by linarith) (by linarith [Real.pi_pos]) (by linarith)
  have hsin : 0 ≤ Real.sin (w.arg / 3) := Real.sin_nonneg_of_nonneg_of_le_pi (by linarith) (by linarith)
  constructor
  · linarith [mul_le_mul_of_nonneg_left hcos hexp.le]
  · positivity

theorem room_principalCbrt {p q : ℝ} (hp : |p| ≤ 2 ^ 200) (hlow : 1 / 2 ^ 200 ≤ q) (hhigh : q ≤ 2 ^ 200) :
    Room ‖principalCbrt p q‖ := by
  have hsum := norm_principalCbrt p q
  have hq0 : 0 ≤ q := le_trans (by positivity) hlow
  have hp2 : p ^ 2 ≤ (2 ^ 200) ^ 2 := by
    rw [← sq_abs]
    exact pow_le_pow_left₀ (abs_nonneg p) hp 2
  have hq2 := pow_le_pow_left₀ (by positivity) hlow 2
  have hq2' := pow_le_pow_left₀ hq0 hhigh 2
  constructor
  · rw [abs_norm]
    refine le_of_pow_le_pow_left₀ (n := 6) (by decide) (norm_nonneg _) ?_
    rw [hsum]
    norm_num at hq2 ⊢
    linarith [sq_nonneg p]
  · rw [abs_norm]
    refine le_of_pow_le_pow_left₀ (n := 6) (by decide) (by positivity) ?_
    rw [hsum]
    norm_num at hp2 hq2' ⊢
    linarith

theorem complexCbrt_near (hx : x.Represents p) (hy : y.Represents q) (hp : |p| ≤ 2 ^ 200)
    (hlow : 1 / 2 ^ 200 ≤ q) (hhigh : q ≤ 2 ^ 200) :
    (Binary.complexCbrt x y).1.Approx (principalCbrt p q).re (‖principalCbrt p q‖ / 2 ^ 48) ∧
      (Binary.complexCbrt x y).2.Approx (principalCbrt p q).im (‖principalCbrt p q‖ / 2 ^ 48) := by
  have hq0 : 0 < q := lt_of_lt_of_le (by positivity) hlow
  have hqR : (0 : ℝ) < q := by exact_mod_cast hq0
  have hroom : Room ‖principalCbrt p q‖ := room_principalCbrt (by exact_mod_cast hp)
    (by
      rw [← Rat.cast_le (K := ℝ)] at hlow
      push_cast at hlow
      exact hlow) (by exact_mod_cast hhigh)
  obtain ⟨hre, him⟩ := principalCbrt_sector (p := p) hqR
  have hcube : (principalCbrt p q ^ 3).re = p := by rw [principalCbrt_cube]
  have hmodulus := norm_principalCbrt p q
  generalize principalCbrt p q = c at *
  have hparts : c.re ^ 2 + c.im ^ 2 = ‖c‖ ^ 2 := by
    rw [Complex.sq_norm, Complex.normSq_apply]
    ring
  rw [cube_re] at hcube
  obtain ⟨Y, Z, hY, hZ, hYerr, hZerr⟩ :=
    complexCbrt_rounds hx hy hq0 (norm_nonneg c) hmodulus hparts hcube hre him
  exact ⟨near_of_rounds hroom (norm_nonneg c) hY (Complex.abs_re_le_norm c) hYerr,
    near_of_rounds hroom (norm_nonneg c) hZ (Complex.abs_im_le_norm c) hZerr⟩

/-! ## The third of a turn -/

theorem thirdTurn_near :
    (CubeRoots.thirdTurn : Double × Double).1.Approx (Real.cos (2 * Real.pi / 3)) (1 / 2 ^ 48) ∧
      (CubeRoots.thirdTurn : Double × Double).2.Approx (Real.sin (2 * Real.pi / 3)) (1 / 2 ^ 48) := by
  have hangle : 2 * Real.pi / 3 = Real.pi - Real.pi / 3 := by ring
  rw [hangle, Real.cos_pi_sub, Real.cos_pi_div_three, Real.sin_pi_sub, Real.sin_pi_div_three]
  constructor
  · have hrounds : (Binary.ofDecimal false 4999999999999998 (-16) : Double).Rounds
        (4999999999999998 / 10 ^ 16) := ofDecimal_rounds (k := 16) (by decide) (by decide)
    exact (near_of_rounds room_unit zero_le_one hrounds (by norm_num [abs_of_pos])
      (by norm_num [abs_of_pos])).neg
  · have hrounds : (Binary.ofDecimal false 8660254037844387 (-16) : Double).Rounds
        (8660254037844387 / 10 ^ 16) := ofDecimal_rounds (k := 16) (by decide) (by decide)
    have hlow : 17320508075688772 / 10 ^ 16 ≤ √(3 : ℝ) := Real.le_sqrt_of_sq_le (by norm_num)
    have hhigh : √(3 : ℝ) ≤ 17320508075688773 / 10 ^ 16 :=
      Real.sqrt_le_iff.mpr ⟨by norm_num, by norm_num⟩
    refine near_of_rounds room_unit zero_le_one hrounds ?_ ?_
    · exact abs_le.mpr ⟨by linarith, by linarith⟩
    · push_cast
      exact abs_le.mpr ⟨by linarith, by linarith⟩

/-- The computed cube roots can be relied on. -/
theorem accurate_cubeRoots : CubeRoots.Accurate where
  cbrt := cbrt_near
  complexCbrt := complexCbrt_near
  thirdTurn := thirdTurn_near

end DroneShow.Roots
