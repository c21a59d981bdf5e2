-- Cubics whose complex roots keep apart. The discriminant, the product of the squared distances
-- of the roots, is then not small against the coefficients, and none of the roots is flat. In
-- units of the greatest root this bounds everything that the closed form computes.
import DroneShow.Proofs.Curve.Newton

namespace DroneShow.Roots

variable {A B C D : ℤ} {r : ℝ}

theorem coefficients_of_roots {a b c d e : ℝ} {z₁ z₂ z₃ : ℂ}
    (h : ∀ s : ℝ, (a * s ^ 3 + b * s ^ 2 + c * s + d : ℂ) = e * ((s - z₁) * (s - z₂) * (s - z₃))) :
    (a : ℂ) = e ∧ (b : ℂ) = -(e * (z₁ + z₂ + z₃)) ∧ (c : ℂ) = e * (z₁ * z₂ + z₁ * z₃ + z₂ * z₃) ∧
      (d : ℂ) = -(e * (z₁ * z₂ * z₃)) := by
  have h0 := h 0
  have h1 := h 1
  have hneg := h (-1)
  have h2 := h 2
  push_cast at h0 h1 hneg h2
  refine ⟨?_, ?_, ?_, ?_⟩
  · linear_combination (h2 - 3 * h1 + 3 * h0 - hneg) / 6
  · linear_combination (h1 + hneg) / 2 - h0
  · linear_combination (h1 - hneg) / 2 - (h2 - 3 * h1 + 3 * h0 - hneg) / 6
  · linear_combination h0

/-- Roots that keep apart, in terms of the coefficients. -/
theorem Apart.largeDiscriminant {f : ℝ → ℝ} {v a b c d : ℝ}
    (hf : ∀ s, f s - v = a * s ^ 3 + b * s ^ 2 + c * s + d) (h : Apart f v) : LargeDiscriminant a b c d := by
  obtain ⟨e, R, z₁, z₂, z₃, hroots, h1, h2, h3, hdist⟩ := h
  obtain ⟨ha, hb, hc, hd⟩ := coefficients_of_roots (a := a) (b := b) (c := c) (d := d) fun s => by
    rw [← hroots]
    exact_mod_cast (hf s).symm
  obtain rfl : a = e := by exact_mod_cast ha
  have hR := (norm_nonneg z₁).trans h1
  have hnorm : ∀ x : ℝ, |x| = ‖(x : ℂ)‖ := fun x => (Complex.norm_real x).symm
  refine ⟨R, ?_, ?_, ?_, ?_⟩
  · rw [hnorm, hb, norm_neg, norm_mul, ← hnorm, mul_comm]
    refine mul_le_mul_of_nonneg_right (norm_add₃_le.trans ?_) (abs_nonneg a)
    linarith
  · rw [hnorm, hc, norm_mul, ← hnorm, mul_comm]
    refine mul_le_mul_of_nonneg_right (norm_add₃_le.trans ?_) (abs_nonneg a)
    rw [norm_mul, norm_mul, norm_mul]
    have h12 := mul_le_mul h1 h2 (norm_nonneg _) hR
    have h13 := mul_le_mul h1 h3 (norm_nonneg _) hR
    have h23 := mul_le_mul h2 h3 (norm_nonneg _) hR
    linarith
  · rw [hnorm, hd, norm_neg, norm_mul, ← hnorm, mul_comm]
    refine mul_le_mul_of_nonneg_right ?_ (abs_nonneg a)
    rw [norm_mul, norm_mul, pow_succ, pow_two]
    gcongr
  · have hdisc : (cubicDiscriminant a b c d : ℂ) = a ^ 4 * ((z₁ - z₂) * (z₁ - z₃) * (z₂ - z₃)) ^ 2 := by
      unfold cubicDiscriminant
      push_cast
      rw [hb, hc, hd]
      ring
    rw [hnorm, hdisc, norm_mul, norm_pow, norm_pow, ← hnorm, Even.pow_abs (by decide)]
    have hsq := pow_le_pow_left₀ (pow_nonneg (div_nonneg hR zero_le_two) 3) hdist 2
    calc R ^ 6 * a ^ 4 = 64 * (a ^ 4 * ((R / 2) ^ 3) ^ 2) := by ring
      _ ≤ 64 * (a ^ 4 * ‖(z₁ - z₂) * (z₁ - z₃) * (z₂ - z₃)‖ ^ 2) := by
        gcongr

theorem cubicDiscriminant_in_units (A R β γ δ : ℝ) :
    cubicDiscriminant A (β * R * A) (γ * R ^ 2 * A) (δ * R ^ 3 * A) =
      -(108 * (A ^ 4 * R ^ 6) * (constantHalf β γ δ ^ 2 + linearThird β γ ^ 3)) := by
  unfold cubicDiscriminant constantHalf linearThird
  ring

theorem slope_in_units (A R β γ t : ℝ) :
    3 * A * (t * R) ^ 2 + 2 * (β * R * A) * (t * R) + γ * R ^ 2 * A =
      3 * (A * R ^ 2) * ((t + β / 3) ^ 2 + linearThird β γ) := by
  unfold linearThird
  ring

/-- Where the roots keep apart, none of them is flat. -/
theorem slope_of_apart {w h x : ℝ} (hw : |w| ≤ 2) (hD : 1 / 6912 ≤ |h ^ 2 + w ^ 3|)
    (hx : depressed w h x = 0) : 1 / 120 ≤ |x ^ 2 + w| := by
  rcases le_abs.mp hD with hone | hthree
  · exact (by linarith [(slope_of_one hone hx).1] : 1 / 120 ≤ x ^ 2 + w).trans (le_abs_self _)
  · exact slope_of_three (hw.trans (by norm_num)) (by linarith) hx

/-- A unit whose cube makes up for the leading coefficient is not small. -/
theorem unit_low {R : ℝ} (hA : A ≠ 0) (hA' : |A| ≤ 2 ^ 18) (hD : D ≠ 0) (hle : |(D : ℝ)| ≤ R ^ 3 * |(A : ℝ)|) :
    1 / 64 ≤ R := by
  have hpos : (0 : ℝ) < |(A : ℝ)| := by exact_mod_cast abs_pos.mpr hA
  have hhigh : |(A : ℝ)| ≤ 2 ^ 18 := by exact_mod_cast hA'
  have hone : (1 : ℝ) ≤ |(D : ℝ)| := by exact_mod_cast Int.one_le_abs hD
  by_contra hlt
  have hcube : R ^ 3 < (1 / 64) ^ 3 := Odd.strictMono_pow (by decide) (not_le.mp hlt)
  linarith [mul_lt_mul_of_pos_right hcube hpos]

/-- The unit of a cubic whose roots keep apart, with a root of moderate slope. The slope bounds the
unit, the more so the steeper the cubic is there in units. -/
theorem exists_reduced (hA : A ≠ 0) (hA' : |A| ≤ 2 ^ 18) (hD : D ≠ 0)
    (hlarge : LargeDiscriminant A B C D) (hr : A * r ^ 3 + B * r ^ 2 + C * r + D = 0)
    (hslope : |3 * A * r ^ 2 + 2 * B * r + C| ≤ 196602) :
    ∃ R β γ δ : ℝ, Reduced A B C D R β γ δ ∧
      1 / 6912 ≤ |constantHalf β γ δ ^ 2 + linearThird β γ ^ 3| ∧
      R ^ 2 * |(r / R + β / 3) ^ 2 + linearThird β γ| ≤ 65534 := by
  obtain ⟨R, hB, hC, hDR, hdisc⟩ := hlarge
  have hAR : (A : ℝ) ≠ 0 := by exact_mod_cast hA
  have hA1 : (1 : ℝ) ≤ |(A : ℝ)| := by exact_mod_cast Int.one_le_abs hA
  have hlow := unit_low hA hA' hD hDR
  have hR : 0 < R := by linarith
  have hscale : ∀ (X : ℝ) {M : ℝ} {k : ℕ}, |X| ≤ M * R ^ k * |(A : ℝ)| →
      ∃ ξ : ℝ, X = ξ * R ^ k * A ∧ |ξ| ≤ M := by
    intro X M k hle
    have hunit : R ^ k * A ≠ 0 := mul_ne_zero (pow_pos hR k).ne' hAR
    refine ⟨X / (R ^ k * A), ?_, ?_⟩
    · rw [mul_assoc, div_mul_cancel₀ _ hunit]
    · rwa [abs_div, div_le_iff₀ (abs_pos.mpr hunit), abs_mul, abs_of_pos (pow_pos hR k), ← mul_assoc]
  obtain ⟨β, hβ, hβ3⟩ := hscale B (k := 1) (by rwa [pow_one])
  obtain ⟨γ, hγ, hγ3⟩ := hscale C hC
  obtain ⟨δ, hδ, hδ1⟩ := hscale D (M := 1) (by rwa [one_mul])
  rw [pow_one] at hβ
  have hD' : 1 / 6912 ≤ |constantHalf β γ δ ^ 2 + linearThird β γ ^ 3| := by
    have hunit : 0 < (A : ℝ) ^ 4 * R ^ 6 := mul_pos (Even.pow_pos (by decide) hAR) (pow_pos hR 6)
    rw [hβ, hγ, hδ, cubicDiscriminant_in_units, abs_neg, abs_mul, abs_of_pos (mul_pos (by norm_num) hunit)] at hdisc
    refine le_of_mul_le_mul_left ?_ hunit
    linarith
  have hw : |linearThird β γ| ≤ 2 := by
    unfold linearThird
    rw [abs_le] at hβ3 hγ3 ⊢
    constructor <;> nlinarith
  have hx : depressed (linearThird β γ) (constantHalf β γ δ) (r / R + β / 3) = 0 := by
    have hvalue := value_in_units hβ hγ hδ (r / R)
    rw [div_mul_cancel₀ _ hR.ne', hr, eq_comm, mul_eq_zero] at hvalue
    exact hvalue.resolve_left (mul_ne_zero hAR (pow_pos hR 3).ne')
  have hunits := slope_in_units A R β γ (r / R)
  rw [div_mul_cancel₀ _ hR.ne', ← hβ, ← hγ] at hunits
  have hsteep := slope_of_apart hw hD' hx
  have hunit : R ^ 2 * |(r / R + β / 3) ^ 2 + linearThird β γ| ≤ 65534 := by
    rw [hunits, abs_mul, abs_mul, abs_mul, abs_of_pos (pow_pos hR 2), abs_of_pos (three_pos (α := ℝ))] at hslope
    have hlead : 1 * (R ^ 2 * |(r / R + β / 3) ^ 2 + linearThird β γ|) ≤
        |(A : ℝ)| * (R ^ 2 * |(r / R + β / 3) ^ 2 + linearThird β γ|) :=
      mul_le_mul_of_nonneg_right hA1 (by positivity)
    linarith
  have hhigh : R ≤ 2 ^ 12 := by
    refine le_of_pow_le_pow_left₀ two_ne_zero (by norm_num) ?_
    linarith [mul_le_mul_of_nonneg_left hsteep (sq_nonneg R)]
  exact ⟨R, β, γ, δ, ⟨hA, hA'.trans (by norm_num), hlow, hhigh, hβ, hγ, hδ, hβ3, hγ3, hδ1⟩, hD', hunit⟩

end DroneShow.Roots
