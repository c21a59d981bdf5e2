-- The roots of a quadratic with whole coefficients. A quadratic that is taken well below
-- and well above zero has a discriminant far from zero, so that it is computed exactly and
-- both roots are found with hardly an error.
import Mathlib.Tactic.LinearCombination
import DroneShow.Curve.Roots
import DroneShow.Proofs.Binary.Root
import DroneShow.Proofs.Binary.Whole

namespace DroneShow.Roots

open Binary

theorem covers_double {m : ℤ} (hlow : -1021 ≤ m) (hhigh : m ≤ 1000) : binary64.Covers m := by
  refine ⟨?_, ?_, by decide⟩
  · show (-1074 : ℤ) + (52 : Nat) + 1 ≤ m
    omega
  · show m - (52 : Nat) - (-1074) < (2046 : Nat)
    omega

theorem spans_double {m : Nat} (h : m ≤ 900) : binary64.Spans (2 ^ m) := by
  refine ⟨?_, m + 1, covers_double (by omega) (by omega), ?_⟩
  · rw [show binary64.minExponent + ((binary64.precision - 1 : Nat) : ℤ) = -1022 from rfl]
    exact (zpow_le_one_of_nonpos₀ one_le_two (by decide)).trans (one_le_pow₀ one_le_two)
  · rw [← zpow_natCast]
    exact zpow_lt_zpow_right₀ one_lt_two (by omega)

theorem roundoff_double : binary64.roundoff = 1 / 2 ^ 53 := by
  unfold Format.roundoff
  rw [show (-(binary64.precision - 1 : Nat) - 1 : ℤ) = -(53 : ℕ) by decide, zpow_neg, zpow_natCast,
    one_div]

/-! ## The discriminant -/

variable {a b c : Double} {A B C : ℤ}

theorem tolerance_represents [CubeRoots Double] :
    ∃ τ : ℚ, (tolerance : Double).Represents τ ∧ 0 ≤ τ ∧ τ ≤ 1 / 2 ^ 28 := by
  have hrounds : (tolerance : Double).Rounds (1 / 1000000000) :=
    ⟨false, 1, 1000000000, 0, by decide, rfl, by norm_num⟩
  obtain ⟨z, hz, herr, hnonneg⟩ := hrounds.near (m := -29) (covers_double (by decide) (by decide))
    (by norm_num [abs_of_pos])
  refine ⟨z, hz, hnonneg (by norm_num), ?_⟩
  have hsmall : (2 : ℚ) ^ (-29 - ((binary64.precision - 1 : Nat) : ℤ) - 2) ≤ 1 / 2 ^ 30 := by
    rw [show (-29 - ((binary64.precision - 1 : Nat) : ℤ) - 2) = -(83 : ℕ) by decide, zpow_neg,
      zpow_natCast]
    norm_num
  rw [abs_le] at herr
  norm_num at herr hsmall ⊢
  linarith

theorem leastNormal_represents :
    ∃ q : ℚ, (leastNormal : Double).Represents q ∧ 0 ≤ q ∧ q ≤ 1 / 2 ^ 100 := by
  have hrank : min binary64.unit binary64.infinityRank = 0 * binary64.unit + binary64.unit := by decide
  refine ⟨binary64.unit * 2 ^ (binary64.minExponent + (0 : ℕ)), ⟨by decide, ?_⟩, by positivity, ?_⟩
  · rw [signFactor_false, one_mul, hrank,
      binary64.magnitude_place (Nat.le_mul_of_pos_left _ two_pos) (.inl rfl)]
  · rw [binary64.unit_eq_pow, Nat.cast_pow, ← zpow_natCast, Nat.cast_ofNat, ← zpow_add₀ two_ne_zero,
      one_div, ← zpow_natCast, ← zpow_neg]
    exact zpow_le_zpow_right₀ one_le_two (by decide)

/-- A discriminant that is not small beside its greater term is told apart from zero. -/
theorem isSmallBeside_eq_false [CubeRoots Double] {x y : Double} {v m : ℚ} (hx : x.Represents v) (hy : y.Represents m)
    (hv : 1 / 2 ^ 80 ≤ |v|) (hv' : |v| ≤ 2 ^ 200) (hle : m ≤ 2 ^ 20 * |v|) :
    isSmallBeside x y = false := by
  obtain ⟨τ, hτ, hτ0, hτ1⟩ := tolerance_represents
  obtain ⟨q, hq, hq0, hq1⟩ := leastNormal_represents
  have hprod0 : 0 ≤ τ * max m q := mul_nonneg hτ0 (hq0.trans (le_max_right _ _))
  have hprod : τ * max m q ≤ |v| / 2 ^ 8 := by
    have hmax : max m q ≤ 2 ^ 20 * |v| := max_le hle (by linarith)
    calc τ * max m q ≤ 1 / 2 ^ 28 * (2 ^ 20 * |v|) := by gcongr
      _ = |v| / 2 ^ 8 := by ring
  have hcovers : |τ * max m q| < 2 ^ (200 : ℤ) := by
    rw [abs_of_nonneg hprod0]
    norm_num
    linarith
  obtain ⟨z, hz, herr⟩ := (mul_rounds hτ (hy.max hq)).relative (covers_double (by decide) (by decide)) hcovers
  have hlt : z < |v| := by
    rw [roundoff_double, abs_of_nonneg hprod0] at herr
    rcases herr with herr | herr
    · linarith [(abs_le.mp herr).2]
    · have hleast : |z - τ * max m q| ≤ 2 ^ (-100 : ℤ) :=
        herr.trans (zpow_le_zpow_right₀ one_le_two (by decide))
      norm_num at hleast hv
      linarith [(abs_le.mp hleast).2]
  have habs : (Scalar.abs x).Represents |v| := hx.abs
  unfold isSmallBeside
  rw [decide_eq_false_iff_not]
  intro hsmall
  exact absurd ((le_iff_of_represents habs hz).mp hsmall) (not_le.mpr hlt)

/-! ## Both roots -/

theorem signum_represents [CubeRoots Double] (h : b.Represents B) :
    ∃ σ : ℤ, (RootScalar.signum b).Represents σ ∧ |σ| = 1 ∧ σ * B = |B| := by
  cases b with
  | nan => exact h.elim
  | number n r hr =>
    obtain ⟨-, hval⟩ := h
    have hmag := Format.magnitude_nonneg (F := binary64) r
    have hrounds : ∀ {σ : ℤ}, (σ : ℚ) = signFactor n → |σ| = 1 →
        (ofScaled n 1 1 0 : Double).Represents σ := fun {σ} hσ hone =>
      Rounds.exact ⟨n, 1, 1, 0, Nat.one_pos, rfl, by rw [hσ]; norm_num⟩ (exact_whole (by omega))
    cases n with
    | false =>
      refine ⟨1, hrounds (by simp) rfl, rfl, ?_⟩
      have hB : 0 ≤ B := by
        rw [signFactor_false, one_mul] at hval
        exact_mod_cast hval.symm ▸ hmag
      rw [one_mul, abs_of_nonneg hB]
    | true =>
      refine ⟨-1, hrounds (by simp) rfl, rfl, ?_⟩
      have hB : B ≤ 0 := by
        rw [signFactor_true, neg_one_mul] at hval
        have hle : (B : ℚ) ≤ 0 := by linarith
        exact_mod_cast hle
      rw [neg_one_mul, abs_of_nonpos hB]

theorem half_approx : (-(Scalar.ofDecimal 5 1) : Double).Approx (-(1 / 2)) (1 / 2 ^ 53) := by
  have hrounds : (Scalar.ofDecimal 5 1 : Double).Rounds (5 / 10) :=
    ⟨false, 5, 10, 0, by decide, rfl, by norm_num⟩
  have happrox := hrounds.approx (r := 1 / 2) (e := 0) (spans_double (m := 0) (by decide))
    (by norm_num) (by norm_num)
  rw [roundoff_double] at happrox
  exact (happrox.mono (by norm_num)).neg

/-- The half sum that both roots are taken from: nothing cancels in it. -/
theorem half_sum_approx [CubeRoots Double] {d : Double} {D : ℤ} (hb : b.Represents B) (hd : d.Represents D) (hD : 5 ≤ D)
    (hD' : D ≤ 2 ^ 39) (hB : |B| ≤ 2 ^ 19) :
    ∃ q : ℝ, (-(Scalar.ofDecimal 5 1) * (b + RootScalar.signum b * SqrtScalar.sqrt d)).Approx q
      (1 / 2 ^ 29) ∧ 1 ≤ |q| ∧ |q| ≤ 2 ^ 20 ∧ (2 * q + B) ^ 2 = D := by
  obtain ⟨σ, hσ, hone, hσB⟩ := signum_represents hb
  have hDR : (5 : ℝ) ≤ D := by exact_mod_cast hD
  have hS2 : (2 : ℝ) ≤ √D := Real.le_sqrt_of_sq_le (by linarith)
  have hSle : √(D : ℝ) ≤ 2 ^ 20 := Real.sqrt_le_iff.mpr ⟨by norm_num, by
    have hle : (D : ℝ) ≤ 2 ^ 39 := by exact_mod_cast hD'
    linarith⟩
  have hsqrt : (SqrtScalar.sqrt d : Double).Approx √(D : ℝ) (1 / 2 ^ 31) := by
    have happrox := sqrt_approx hd (by exact_mod_cast (by omega : 0 < D))
      (spans_double (m := 21) (by decide)) (by push_cast; linarith)
    rw [roundoff_double] at happrox
    exact happrox.mono (by norm_num)
  have honeR : |(σ : ℝ)| = 1 := by exact_mod_cast congrArg (Int.cast (R := ℝ)) hone
  have hBR : |(B : ℝ)| ≤ 2 ^ 19 := by exact_mod_cast hB
  have hsize : |(B : ℝ) + σ * √(D : ℝ)| = |(B : ℝ)| + √D := by
    have hσBR : (σ : ℝ) * B = |(B : ℝ)| := by exact_mod_cast congrArg (Int.cast (R := ℝ)) hσB
    have hσσ : (σ : ℝ) * σ = 1 := by rw [← abs_mul_abs_self, honeR, one_mul]
    calc |(B : ℝ) + σ * √(D : ℝ)| = |(σ : ℝ) * (B + σ * √D)| := by rw [abs_mul, honeR, one_mul]
      _ = abs (|(B : ℝ)| + √D) := by rw [mul_add, hσBR, ← mul_assoc, hσσ, one_mul]
      _ = |(B : ℝ)| + √D := abs_of_nonneg (by positivity)
  have hsigned : (RootScalar.signum b * SqrtScalar.sqrt d : Double).Approx (σ * √(D : ℝ)) (1 / 2 ^ 30) := by
    have happrox := hσ.approx.mul hsqrt (spans_double (m := 21) (by decide)) (by
      rw [Rat.cast_intCast, abs_mul, honeR, abs_of_nonneg (Real.sqrt_nonneg (D : ℝ))]
      push_cast
      linarith)
    rw [Rat.cast_intCast, roundoff_double, honeR] at happrox
    exact happrox.mono (by norm_num)
  have hsum : (b + RootScalar.signum b * SqrtScalar.sqrt d : Double).Approx (B + σ * √(D : ℝ))
      (1 / 2 ^ 30 + 1 / 2 ^ 32) := by
    have happrox := hb.approx.add hsigned (spans_double (m := 21) (by decide)) (by
      rw [Rat.cast_intCast, hsize]
      push_cast
      linarith)
    rw [Rat.cast_intCast, roundoff_double] at happrox
    exact happrox.mono (by norm_num)
  have hhalf : |-(1 / 2 : ℝ)| = 1 / 2 := by rw [abs_neg, abs_of_pos one_half_pos]
  refine ⟨-(1 / 2) * (B + σ * √(D : ℝ)), ?_, ?_, ?_, ?_⟩
  · have happrox := half_approx.mul hsum (spans_double (m := 21) (by decide)) (by
      rw [abs_mul, hhalf, hsize]
      push_cast
      linarith)
    rw [hhalf, hsize, roundoff_double] at happrox
    refine happrox.mono ?_
    push_cast
    linarith
  · rw [abs_mul, hhalf, hsize]
    linarith [abs_nonneg (B : ℝ)]
  · rw [abs_mul, hhalf, hsize]
    linarith
  · have hσσ : (σ : ℝ) ^ 2 = 1 := by rw [← sq_abs, honeR, one_pow]
    calc (2 * (-(1 / 2) * (B + σ * √(D : ℝ))) + B) ^ 2 = (σ : ℝ) ^ 2 * √(D : ℝ) ^ 2 := by ring
      _ = (D : ℝ) := by rw [hσσ, Real.sq_sqrt (by linarith), one_mul]

/-- The discriminant is computed exactly, and it is not taken for zero. -/
theorem discriminant_whole [CubeRoots Double] (ha : a.Represents A) (hb : b.Represents B) (hc : c.Represents C)
    (hA : A ≠ 0) (hA' : |A| ≤ 2 ^ 19) (hB : |B| ≤ 2 ^ 19) (hC : |C| ≤ 65534)
    (hD : 4 * |A| < B * B - 4 * A * C) :
    (b * b - 4 * a * c).Represents ((B * B - 4 * A * C : ℤ) : ℚ) ∧ B * B - 4 * A * C ≤ 2 ^ 39 ∧
      isSmallBeside (b * b - 4 * a * c) (max (b * b) (Scalar.abs (4 * a * c))) = false := by
  have hApos : 1 ≤ |A| := Int.one_le_abs hA
  have hBB : B * B ≤ 2 ^ 38 := by nlinarith [abs_nonneg B, abs_mul_abs_self B]
  have hAC : |4 * A * C| ≤ 4 * |A| * 65534 := by
    rw [abs_mul, abs_mul, abs_of_pos four_pos]
    gcongr
  have hfour : (4 : Double).Represents ((4 : ℤ) : ℚ) := by
    have hnat := ofNat_represents (F := binary64) (k := 4)
      (by exact_mod_cast exact_whole (k := 4) (by decide))
    exact_mod_cast hnat
  have hbb := hb.whole_mul hb (exact_whole (by rw [abs_mul_self]; omega))
  have h4a := hfour.whole_mul ha (exact_whole (by rw [abs_mul]; norm_num; omega))
  have h4ac := h4a.whole_mul hc (exact_whole (by omega))
  have htri := abs_sub (B * B) (4 * A * C)
  rw [abs_mul_self] at htri
  have hdisc := hbb.whole_sub h4ac (exact_whole (by omega))
  have hDle := le_abs_self (B * B - 4 * A * C)
  have hACle := le_abs_self (4 * A * C)
  have hmagnitude : (max (b * b) (Scalar.abs (4 * a * c)) : Double).Represents
      ((max (B * B) |4 * A * C| : ℤ) : ℚ) := by
    rw [Int.cast_max, Int.cast_abs]
    exact hbb.max h4ac.abs
  have hsize : |((B * B - 4 * A * C : ℤ) : ℚ)| = ((B * B - 4 * A * C : ℤ) : ℚ) :=
    abs_of_nonneg (by exact_mod_cast (by omega : 0 ≤ B * B - 4 * A * C))
  have hone : (1 : ℚ) ≤ ((B * B - 4 * A * C : ℤ) : ℚ) := by
    exact_mod_cast (by omega : 1 ≤ B * B - 4 * A * C)
  refine ⟨hdisc, by omega, isSmallBeside_eq_false hdisc hmagnitude ?_ ?_ ?_⟩
  · rw [hsize]
    exact le_trans (by norm_num) hone
  · rw [hsize]
    exact_mod_cast (by omega : B * B - 4 * A * C ≤ 2 ^ 200)
  · rw [hsize]
    exact_mod_cast max_le (by omega : B * B ≤ 2 ^ 20 * (B * B - 4 * A * C)) (by omega)

/-- The quotient of the half sum by the leading coefficient. -/
theorem first_root_approx {x : Double} {q : ℝ} (hx : x.Approx q (1 / 2 ^ 29)) (hq : |q| ≤ 2 ^ 20)
    (ha : a.Represents A) (hA : A ≠ 0) : (x / a).Approx (q / A) (1 / 2 ^ 27 * (1 + |q / A|)) := by
  have hAR : (1 : ℝ) ≤ |(A : ℝ)| := by exact_mod_cast Int.one_le_abs hA
  have hsize : |q / A| ≤ 2 ^ 20 := by
    rw [abs_div]
    exact (div_le_self (abs_nonneg q) hAR).trans hq
  have hshare : 1 / 2 ^ 29 / |(A : ℝ)| ≤ 1 / 2 ^ 29 := div_le_self (by norm_num) hAR
  have happrox := hx.div ha (by exact_mod_cast hA) (spans_double (m := 21) (by decide)) (by
    rw [Rat.cast_intCast]
    push_cast
    linarith)
  rw [Rat.cast_intCast, roundoff_double] at happrox
  refine happrox.mono ?_
  push_cast
  linarith [abs_nonneg (q / A)]

/-- The quotient of the constant by the half sum. -/
theorem second_root_approx {x : Double} {q : ℝ} (hx : x.Approx q (1 / 2 ^ 29)) (hq : 1 ≤ |q|)
    (hc : c.Represents C) (hC : |C| ≤ 65534) : (c / x).Approx (C / q) (1 / 2 ^ 27 * (1 + |C / q|)) := by
  obtain ⟨w, hw, herr⟩ := hx
  have hw2 : (1 / 2 : ℝ) ≤ |(w : ℝ)| := by
    have htri := abs_sub_abs_le_abs_sub q w
    rw [abs_sub_comm] at htri
    norm_num at herr
    linarith
  have hw0 : (w : ℝ) ≠ 0 := by
    intro h0
    rw [h0, abs_zero] at hw2
    norm_num at hw2
  have hq0 : q ≠ 0 := by
    rintro rfl
    norm_num at hq
  have hsize : |C / q| ≤ 65534 := by
    have hCR : |(C : ℝ)| ≤ 65534 := by exact_mod_cast hC
    rw [abs_div]
    exact (div_le_self (abs_nonneg _) hq).trans hCR
  have hmoved : |(C / w : ℝ) - C / q| ≤ 1 / 2 ^ 28 * |C / q| := by
    have hsplit : (C / w : ℝ) - C / q = C / q * ((q - w) / w) := by field_simp
    rw [hsplit, abs_mul, mul_comm, abs_div, abs_sub_comm]
    refine mul_le_mul_of_nonneg_right ?_ (abs_nonneg _)
    rw [div_le_iff₀ (by linarith)]
    norm_num at herr
    linarith
  have happrox := (div_rounds hc hw (by exact_mod_cast hw0)).approx (r := C / q)
    (spans_double (m := 17) (by decide)) (by push_cast; exact hmoved) (by
      push_cast
      linarith)
  rw [roundoff_double] at happrox
  refine happrox.mono ?_
  push_cast
  linarith [abs_nonneg (C / q)]

/-- The quadratic is the product of its leading coefficient with the distances to both roots,
and these are found up to a small part of their size. -/
theorem quadratic_of_discriminant [CubeRoots Double] (ha : a.Represents A) (hb : b.Represents B) (hc : c.Represents C)
    (hA : A ≠ 0) (hA' : |A| ≤ 2 ^ 19) (hB : |B| ≤ 2 ^ 19) (hC : |C| ≤ 65534)
    (hD : 4 * |A| < B * B - 4 * A * C) :
    ∃ t₁ t₂ : Double, ∃ r₁ r₂ : ℝ, quadratic a b c = [t₁, t₂] ∧
      t₁.Approx r₁ (1 / 2 ^ 27 * (1 + |r₁|)) ∧ t₂.Approx r₂ (1 / 2 ^ 27 * (1 + |r₂|)) ∧
      ∀ s : ℝ, A * s ^ 2 + B * s + C = A * ((s - r₁) * (s - r₂)) := by
  obtain ⟨hdisc, hDle, hlarge⟩ := discriminant_whole ha hb hc hA hA' hB hC hD
  have hApos := Int.one_le_abs hA
  obtain ⟨q, hq, hq1, hq2, hqD⟩ := half_sum_approx hb hdisc (by omega) hDle hB
  have hpositive : 0 < b * b - 4 * a * c := by
    have hzero : (0 : Double).Represents ((0 : ℕ) : ℚ) :=
      ofNat_represents (by simpa using binary64.exact_zero)
    rw [lt_iff_of_represents hzero hdisc]
    exact_mod_cast (by omega : 0 < B * B - 4 * A * C)
  have hlist : quadratic a b c =
      [-(Scalar.ofDecimal 5 1) * (b + RootScalar.signum b * SqrtScalar.sqrt (b * b - 4 * a * c)) / a,
        c / (-(Scalar.ofDecimal 5 1) *
          (b + RootScalar.signum b * SqrtScalar.sqrt (b * b - 4 * a * c)))] := by
    unfold quadratic
    simp only [hlarge, hpositive, if_true]
    rfl
  refine ⟨_, _, q / A, C / q, hlist, first_root_approx hq hq2 ha hA, second_root_approx hq hq1 hc hC, ?_⟩
  intro s
  have hA0 : (A : ℝ) ≠ 0 := by exact_mod_cast hA
  have hq0 : q ≠ 0 := by
    rintro rfl
    norm_num at hq1
  have hroots : A * (q / A + C / q) = -B := by
    push_cast at hqD
    field_simp
    linear_combination 1 / 4 * hqD
  have hprod : A * (q / A * (C / q)) = C := by field_simp
  linear_combination s * hroots - hprod

end DroneShow.Roots
