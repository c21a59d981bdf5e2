-- The closed form for the roots of a cubic whose roots keep apart. Its radicals are computed
-- with errors that are small against the size of the roots; the discriminant is then told
-- apart from zero, and the candidates are next to the roots.
import DroneShow.Proofs.Curve.Depressed
import DroneShow.Proofs.Curve.Radicals

namespace DroneShow.Roots

open Binary

variable {a b c d : Double} {A B C D : ℤ} {R β γ δ : ℝ}

/-! ## The equation in units of its roots -/

/-- The coefficients of `A t ^ 3 + B t ^ 2 + C t + D` in units of `R` for the parameter: they are
at most those of a threefold root at a distance of one unit. -/
structure Reduced (A B C D : ℤ) (R β γ δ : ℝ) : Prop where
  lead : A ≠ 0
  lead_le : |A| ≤ 2 ^ 20
  low : 1 / 64 ≤ R
  high : R ≤ 2 ^ 12
  second : (B : ℝ) = β * R * A
  third : (C : ℝ) = γ * R ^ 2 * A
  last : (D : ℝ) = δ * R ^ 3 * A
  second_le : |β| ≤ 3
  third_le : |γ| ≤ 3
  last_le : |δ| ≤ 1

theorem Reduced.pos (h : Reduced A B C D R β γ δ) : 0 < R := lt_of_lt_of_le (by norm_num) h.low

theorem Reduced.room (h : Reduced A B C D R β γ δ) {k : ℕ} (hk : k ≤ 6) : Room (R ^ k) := by
  have habs := abs_of_pos (pow_pos h.pos k)
  constructor <;> rw [habs]
  · calc (1 / 2 ^ 100 : ℝ) ≤ (1 / 64) ^ 6 := by norm_num
      _ ≤ (1 / 64) ^ k := pow_le_pow_of_le_one (by norm_num) (by norm_num) hk
      _ ≤ R ^ k := pow_le_pow_left₀ (by norm_num) h.low k
  · calc R ^ k ≤ (2 ^ 12) ^ k := pow_le_pow_left₀ h.pos.le h.high k
      _ ≤ (2 ^ 12) ^ 6 := pow_le_pow_right₀ (by norm_num) hk
      _ ≤ 2 ^ 100 := by norm_num

theorem Reduced.cube_le (h : Reduced A B C D R β γ δ) : 1 / 2 ^ 18 ≤ R ^ 3 ∧ R ^ 3 ≤ 2 ^ 36 := by
  have hlow := pow_le_pow_left₀ (by norm_num) h.low 3
  have hhigh := pow_le_pow_left₀ h.pos.le h.high 3
  norm_num at hlow hhigh ⊢
  exact ⟨hlow, hhigh⟩

theorem value_in_units {A B C D : ℝ} (hB : B = β * R * A) (hC : C = γ * R ^ 2 * A)
    (hD : D = δ * R ^ 3 * A) (t : ℝ) : A * (t * R) ^ 3 + B * (t * R) ^ 2 + C * (t * R) + D =
      A * R ^ 3 * depressed (linearThird β γ) (constantHalf β γ δ) (t + β / 3) := by
  rw [depressed_shifted, hB, hC, hD]
  ring

theorem Reduced.root_iff (h : Reduced A B C D R β γ δ) (t : ℝ) :
    A * (t * R) ^ 3 + B * (t * R) ^ 2 + C * (t * R) + D = 0 ↔
      depressed (linearThird β γ) (constantHalf β γ δ) (t + β / 3) = 0 := by
  have hA : (A : ℝ) ≠ 0 := by exact_mod_cast h.lead
  rw [value_in_units h.second h.third h.last, mul_eq_zero,
    or_iff_right (mul_ne_zero hA (pow_pos h.pos 3).ne')]

/-! ## The coefficients -/

theorem Reduced.quotient {x : Double} {X : ℤ} {k : ℕ} {ξ M : ℝ} (h : Reduced A B C D R β γ δ)
    (hx : x.Represents X) (ha : a.Represents A) (hX : (X : ℝ) = ξ * R ^ k * A) (hξ : |ξ| ≤ M)
    (hM : M ≤ 3) (hk : k ≤ 6) : Sized (R ^ k) (x / a) ξ M (M + 1 / 100) := by
  have hA : (A : ℝ) ≠ 0 := by exact_mod_cast h.lead
  have hsized := Sized.of_rounds (e := 0) (h.room hk) (div_rounds hx ha (by exact_mod_cast h.lead)) hξ
    (hM.trans (by norm_num)) (by
      push_cast
      rw [hX, mul_div_assoc, div_self hA, mul_one, sub_self, abs_zero, zero_mul]) (by norm_num)
  rwa [zero_add] at hsized

theorem two_represents : (2 : Double).Represents ((2 : ℕ) : ℚ) := literal_represents (by decide)

theorem three_represents : (3 : Double).Represents ((3 : ℕ) : ℚ) := literal_represents (by decide)

section Coefficients

variable (h : Reduced A B C D R β γ δ) (ha : a.Represents A) (hb : b.Represents B)
  (hc : c.Represents C) (hd : d.Represents D)

include h

theorem Reduced.room_one : Room R := by
  have hroom := h.room (k := 1) (by decide)
  rwa [pow_one] at hroom

include ha hb

theorem Reduced.second_sized : Sized R (b / a) β 3 (31 / 10) := by
  have hsized := h.quotient (k := 1) hb ha (by rw [pow_one, h.second]) h.second_le le_rfl (by decide)
  rw [pow_one] at hsized
  exact hsized.mono le_rfl (by norm_num)

theorem Reduced.shift_sized : Sized R (b / a / 3) (β / 3) 1 3 :=
  ((h.second_sized ha hb).div h.room_one three_represents (by norm_num) (by norm_num) (by norm_num)
    (by norm_num)).mono (by norm_num) (by norm_num)

include hc

theorem Reduced.linear_sized : Sized (R ^ 2) ((c / a - b / a * (b / a) / 3) / 3) (linearThird β γ) 2 10 := by
  have hroom := h.room (k := 2) (by decide)
  have hbb := h.second_sized ha hb
  have hcc := h.quotient hc ha h.third h.third_le le_rfl (by decide)
  have hsq := (hbb.mul hroom hbb (pow_two R).symm h.room_one h.room_one (by norm_num) (by norm_num)).mono
    (N := 9) (f := 28) (by norm_num) (by norm_num)
  have hthird := (hsq.div hroom three_represents (by norm_num) three_pos (by norm_num) (by norm_num)).mono
    (N := 3) (f := 125 / 10) (by norm_num) (by norm_num)
  have hp := (hcc.sub hroom hthird (by norm_num) (by norm_num)).mono (N := 6) (f := 22) (by norm_num)
    (by norm_num)
  exact (hp.div hroom three_represents (by norm_num) three_pos (by norm_num) (by norm_num)).mono
    (by norm_num) (by norm_num)

include hd

theorem Reduced.constant_sized :
    Sized (R ^ 3) ((2 * (b / a) * (b / a) * (b / a) / 27 - b / a * (c / a) / 3 + d / a) / 2)
      (constantHalf β γ δ) 3 24 := by
  have hroom2 := h.room (k := 2) (by decide)
  have hroom := h.room (k := 3) (by decide)
  have hroom0 : Room 1 := by
    have hroom := h.room (k := 0) (by decide)
    rwa [pow_zero] at hroom
  have hbb := h.second_sized ha hb
  have hcc := h.quotient hc ha h.third h.third_le le_rfl (by decide)
  have hdd := h.quotient hd ha h.last h.last_le (by norm_num) (by decide)
  have h2 : Sized 1 (2 : Double) 2 2 0 := .exact two_represents (by norm_num) (by norm_num)
  have hdouble := (h2.mul h.room_one hbb (one_mul R) hroom0 h.room_one (by norm_num) (by norm_num)).mono
    (N := 6) (f := 125 / 10) (by norm_num) (by norm_num)
  have hsq := (hdouble.mul hroom2 hbb (pow_two R).symm h.room_one h.room_one (by norm_num) (by norm_num)).mono
    (N := 18) (f := 75) (by norm_num) (by norm_num)
  have hcube := (hsq.mul hroom hbb (pow_succ R 2).symm hroom2 h.room_one (by norm_num) (by norm_num)).mono
    (N := 54) (f := 336) (by norm_num) (by norm_num)
  have hfirst := (hcube.div hroom (literal_represents (k := 27) (by decide)) (n := 27) (by norm_num)
    (by norm_num) (by norm_num) (by norm_num)).mono (N := 2) (f := 145 / 10) (by norm_num) (by norm_num)
  have hprod := (hbb.mul hroom hcc (pow_succ' R 2).symm h.room_one hroom2 (by norm_num) (by norm_num)).mono
    (N := 9) (f := 28) (by norm_num) (by norm_num)
  have hsecond := (hprod.div hroom three_represents (by norm_num) three_pos (by norm_num) (by norm_num)).mono
    (N := 3) (f := 125 / 10) (by norm_num) (by norm_num)
  have hdiff := (hfirst.sub hroom hsecond (by norm_num) (by norm_num)).mono (N := 5) (f := 325 / 10)
    (by norm_num) (by norm_num)
  have hq := (hdiff.add hroom hdd (by norm_num) (by norm_num)).mono (N := 6) (f := 40) (by norm_num)
    (by norm_num)
  exact (hq.div hroom two_represents (by norm_num) two_pos (by norm_num) (by norm_num)).mono
    (by norm_num) (by norm_num)

end Coefficients

/-! ## The discriminant -/

section Discriminant

variable {x y : Double} {w z r : ℝ} (h : Reduced A B C D R β γ δ)

include h

theorem discriminant_sized (hx : Sized (R ^ 2) x w 2 10) (hy : Sized (R ^ 3) y z 3 24) :
    Sized (R ^ 6) (y * y + x * x * x) (z * z + w * w * w) 17 310 := by
  have hroom2 := h.room (k := 2) (by decide)
  have hroom3 := h.room (k := 3) (by decide)
  have hroom4 := h.room (k := 4) (by decide)
  have hroom := h.room (k := 6) (by decide)
  have hyy := (hy.mul hroom hy (pow_add R 3 3).symm hroom3 hroom3 (by norm_num) (by norm_num)).mono
    (N := 9) (f := 154) (by norm_num) (by norm_num)
  have hxx := (hx.mul hroom4 hx (pow_add R 2 2).symm hroom2 hroom2 (by norm_num) (by norm_num)).mono
    (N := 4) (f := 441 / 10) (by norm_num) (by norm_num)
  have hxxx := (hxx.mul hroom hx (pow_add R 4 2).symm hroom4 hroom2 (by norm_num) (by norm_num)).mono
    (N := 8) (f := 137) (by norm_num) (by norm_num)
  exact (hyy.add hroom hxxx (by norm_num) (by norm_num)).mono (by norm_num) (by norm_num)

/-- The size and the sign of a discriminant are told by the exact one. -/
theorem discriminant_represents (hx : Sized (R ^ 6) x r 17 310) (hr : 1 / 6912 ≤ |r|) :
    ∃ v : ℚ, x.Represents v ∧ R ^ 6 / 7000 ≤ |(v : ℝ)| ∧ 1 / 2 ^ 80 ≤ |v| ∧ |v| ≤ 2 ^ 200 ∧
      (0 < v ↔ 0 < r) := by
  have hpos := pow_pos h.pos 6
  obtain ⟨v, hv, -⟩ := hx.approx
  have hnear := hx.near hpos.ne' hv
  have hhigh := hx.abs_le hv (by norm_num)
  rw [abs_of_pos hpos] at hhigh
  have hlow : R ^ 6 / 7000 ≤ |(v : ℝ)| := by
    have htri := abs_sub_abs_le_abs_sub r (v / R ^ 6)
    rw [abs_sub_comm, abs_div, abs_of_pos hpos] at htri
    have hle := (le_div_iff₀ hpos).mp (by linarith : 1 / 7000 ≤ |(v : ℝ)| / R ^ 6)
    linarith
  have hR6 : (1 / 64) ^ 6 ≤ R ^ 6 := pow_le_pow_left₀ (by norm_num) h.low 6
  have hR6' : R ^ 6 ≤ (2 ^ 12) ^ 6 := pow_le_pow_left₀ h.pos.le h.high 6
  refine ⟨v, hv, hlow, ?_, ?_, ?_⟩
  · rw [← Rat.cast_le (K := ℝ)]
    push_cast
    linarith
  · rw [← Rat.cast_le (K := ℝ)]
    push_cast
    linarith
  · rw [← Rat.cast_pos (K := ℝ), ← div_pos_iff_of_pos_right hpos]
    rw [abs_le] at hnear
    rcases le_abs.mp hr with hpositive | hnegative
    · exact iff_of_true (by linarith) (by linarith)
    · exact iff_of_false (by linarith) (by linarith)

theorem discriminant_pos_iff (hx : Sized (R ^ 6) x r 17 310) (hr : 1 / 6912 ≤ |r|) : 0 < x ↔ 0 < r := by
  obtain ⟨v, hv, -, -, -, hsign⟩ := discriminant_represents h hx hr
  have hzero : (0 : Double).Represents ((0 : ℕ) : ℚ) := literal_represents (Nat.zero_le _)
  rw [lt_iff_of_represents hzero hv, Nat.cast_zero, hsign]

/-- The discriminant is not taken for zero. -/
theorem discriminant_large [CubeRoots Double] (hx : Sized (R ^ 2) x w 2 10) (hy : Sized (R ^ 3) y z 3 24)
    (hD : 1 / 6912 ≤ |z * z + w * w * w|) : isSmallBeside (y * y + x * x * x)
      (max (y * y) (Scalar.abs x * (Scalar.abs x * Scalar.abs x))) = false := by
  have hroom2 := h.room (k := 2) (by decide)
  have hroom3 := h.room (k := 3) (by decide)
  have hroom4 := h.room (k := 4) (by decide)
  have hroom := h.room (k := 6) (by decide)
  obtain ⟨v, hv, hlow, hlow', hhigh', -⟩ := discriminant_represents h (discriminant_sized h hx hy) hD
  have habs := hx.abs (pow_pos h.pos 2)
  have hyy := hy.mul hroom hy (pow_add R 3 3).symm hroom3 hroom3 (by norm_num) (by norm_num)
  have hxx := (habs.mul hroom4 habs (pow_add R 2 2).symm hroom2 hroom2 (by norm_num) (by norm_num)).mono
    (N := 4) (f := 441 / 10) (by norm_num) (by norm_num)
  have hxxx := habs.mul hroom hxx (pow_add R 2 4).symm hroom2 hroom4 (by norm_num) (by norm_num)
  obtain ⟨m, hm, -⟩ := hyy.approx
  obtain ⟨n, hn, -⟩ := hxxx.approx
  have hm9 := hyy.abs_le hm (by norm_num)
  have hn8 := hxxx.abs_le hn (by norm_num)
  rw [abs_of_pos (pow_pos h.pos 6)] at hm9 hn8
  refine isSmallBeside_eq_false hv (hm.max hn) hlow' hhigh' ?_
  rw [← Rat.cast_le (K := ℝ)]
  push_cast
  apply max_le
  · linarith [le_abs_self (m : ℝ), pow_pos h.pos 6]
  · linarith [le_abs_self (n : ℝ), pow_pos h.pos 6]

theorem discriminant_root (hx : Sized (R ^ 6) x r 17 310) (hr : 1 / 6912 ≤ r) :
    ∃ q : ℚ, (SqrtScalar.sqrt x : Double).Represents q ∧ 1 / 2 ^ 200 ≤ q ∧ |(q : ℝ)| ≤ 17 / 4 * R ^ 3 ∧
      |(q / R ^ 3) ^ 2 - r| ≤ 475 * (1 / 2 ^ 53) := by
  have hpos := pow_pos h.pos 6
  have hpos3 := pow_pos h.pos 3
  obtain ⟨v, hv, -, hlow, hhigh, hsign⟩ := discriminant_represents h hx (hr.trans (le_abs_self r))
  have hv0 := hsign.mpr (by linarith)
  have hnear := hx.near hpos.ne' hv
  have hsize := hx.abs_le hv (by norm_num)
  rw [abs_of_pos hpos, abs_of_pos (by exact_mod_cast hv0)] at hsize
  rw [abs_of_pos hv0] at hlow hhigh
  obtain ⟨q, hq, hq0, herr⟩ := sqrt_square hv (le_trans (by norm_num) hlow) hhigh
  have herr' : |(q / R ^ 3) ^ 2 - v / R ^ 6| ≤ 162 * (1 / 2 ^ 53) := by
    have hsplit : (q / R ^ 3) ^ 2 - v / R ^ 6 = ((q : ℝ) ^ 2 - v) / R ^ 6 := by
      rw [div_pow, ← pow_mul, sub_div]
    rw [hsplit, abs_div, abs_of_pos hpos, div_le_iff₀ hpos]
    linarith
  have hsq : |(q / R ^ 3) ^ 2 - r| ≤ 475 * (1 / 2 ^ 53) :=
    (abs_sub_le _ _ _).trans ((add_le_add herr' hnear).trans (by norm_num))
  refine ⟨q, hq, ?_, ?_, hsq⟩
  · have hq0' : (0 : ℝ) < q := by exact_mod_cast hq0
    have hshare : 1 / 84 ≤ q / R ^ 3 := by
      refine le_of_pow_le_pow_left₀ two_ne_zero (by positivity) ?_
      linarith [(abs_le.mp hsq).1]
    rw [le_div_iff₀ hpos3] at hshare
    rw [← Rat.cast_le (K := ℝ)]
    push_cast
    linarith [h.cube_le.1]
  · rw [← div_le_iff₀ hpos3, ← abs_of_pos hpos3, ← abs_div]
    apply abs_le_of_sq_le_sq _ (by norm_num)
    linarith [(abs_le.mp hsq).2, (abs_le.mp hx.le).2]

end Discriminant

/-! ## One real root -/

theorem cbrt_sized [CubeRoots Double] (hroots : CubeRoots.Accurate) {x : Double} {r : ℝ}
    (h : Reduced A B C D R β γ δ) (hx : Sized (R ^ 3) x r (74 / 10) (15 / 2)) :
    ∃ p a : ℝ, |p - r| ≤ 15 / 2 * (1 / 2 ^ 53) ∧ |p| ≤ 15 / 2 ∧ |a ^ 3 - p| ≤ 97 * (1 / 2 ^ 53) * |p| ∧
      Sized R (CubeRoots.cbrt x) a 2 0 := by
  have hpos := pow_pos h.pos 3
  obtain ⟨p, hp, -⟩ := hx.approx
  have hsize := hx.abs_le hp (by norm_num)
  rw [abs_of_pos hpos] at hsize
  obtain ⟨a, ha, haerr⟩ := cbrt_cube hroots hp (by
    rw [← Rat.cast_le (K := ℝ)]
    push_cast
    linarith [h.cube_le.2])
  have hcube : |(a / R) ^ 3 - p / R ^ 3| ≤ 97 * (1 / 2 ^ 53) * |p / R ^ 3| := by
    rw [div_pow, ← sub_div, abs_div, abs_div, abs_of_pos hpos, ← mul_div_assoc]
    gcongr
    linarith
  have hp7 : |p / R ^ 3| ≤ 15 / 2 := by
    rw [abs_div, abs_of_pos hpos, div_le_iff₀ hpos]
    linarith
  refine ⟨p / R ^ 3, a / R, hx.near hpos.ne' hp, hp7, hcube, .of_represents h.pos ha ?_⟩
  refine le_of_pow_le_pow_left₀ three_ne_zero (mul_nonneg zero_le_two h.pos.le) ?_
  have htri := abs_add_le ((a : ℝ) ^ 3 - p) p
  rw [sub_add_cancel, abs_pow] at htri
  rw [mul_pow]
  linarith

section Radicals

variable [CubeRoots Double] (hroots : CubeRoots.Accurate) {x y : Double} {w z : ℝ}
  (h : Reduced A B C D R β γ δ) (hx : Sized (R ^ 2) x w 2 10) (hy : Sized (R ^ 3) y z 3 24)

include hroots h hx hy

theorem radicals_of_one (hD : 1 / 6912 ≤ z * z + w * w * w) :
    ∃ a b : ℝ, |a * b + w| ≤ 1 / 9600 ∧ |a ^ 3 + b ^ 3 + 2 * z| ≤ 1 / 10 ^ 10 ∧
      Sized R (CubeRoots.cbrt (-y + SqrtScalar.sqrt (y * y + x * x * x)) +
        CubeRoots.cbrt (-y - SqrtScalar.sqrt (y * y + x * x * x))) (a + b) 4 5 := by
  have hroom := h.room (k := 3) (by decide)
  have hpos := pow_pos h.pos 3
  obtain ⟨σ, hσ, -, hσ4, hσD⟩ := discriminant_root h (discriminant_sized h hx hy) hD
  generalize SqrtScalar.sqrt (y * y + x * x * x) = s at hσ
  obtain ⟨η, hη, -⟩ := hy.approx
  have hη3 := hy.abs_le hη (by norm_num)
  rw [abs_of_pos hpos] at hη3
  have hsσ := Sized.of_represents hpos hσ hσ4
  have hyη := (Sized.of_represents hpos hη hη3).neg
  obtain ⟨p, a, hp, hp7, ha, hsa⟩ := cbrt_sized hroots h
    ((hyη.add hroom hsσ (by norm_num) (by norm_num)).mono (by norm_num) (by norm_num))
  obtain ⟨q, b, hq, hq7, hb, hsb⟩ := cbrt_sized hroots h
    ((hyη.sub hroom hsσ (by norm_num) (by norm_num)).mono (by norm_num) (by norm_num))
  have hηz := hy.near hpos.ne' hη
  exact ⟨a, b, radicals_product le_rfl (by positivity) hηz hp hq hp7 hq7 hx.le hy.le hσD ha hb,
    radicals_sum le_rfl (by positivity) hηz hp hq hp7 hq7 ha hb,
    (hsa.add h.room_one hsb (by norm_num) (by norm_num)).mono (by norm_num) (by norm_num)⟩

theorem radicals_of_three (hD : 1 / 6912 ≤ -(z * z + w * w * w)) :
    ∃ a b : ℝ, |a ^ 2 + b ^ 2 + w| ≤ 1 / 10 ^ 10 ∧ |a ^ 3 - 3 * a * b ^ 2 + z| ≤ 1 / 10 ^ 10 ∧
      Sized R (CubeRoots.complexCbrt (-y) (SqrtScalar.sqrt (-(y * y + x * x * x)))).1 a (3 / 2) 0 ∧
      Sized R (CubeRoots.complexCbrt (-y) (SqrtScalar.sqrt (-(y * y + x * x * x)))).2 b (3 / 2) 0 := by
  have hpos := pow_pos h.pos 3
  obtain ⟨σ, hσ, hσlow, hσ4, hσD⟩ := discriminant_root h (discriminant_sized h hx hy).neg hD
  generalize SqrtScalar.sqrt (-(y * y + x * x * x)) = s at hσ
  obtain ⟨η, hη, -⟩ := hy.approx
  have hηz := hy.near hpos.ne' hη
  have hη3 := hy.abs_le hη (by norm_num)
  rw [abs_of_pos hpos] at hη3
  have hηhigh : |-η| ≤ 2 ^ 200 := by
    rw [abs_neg, ← Rat.cast_le (K := ℝ)]
    push_cast
    linarith [h.cube_le.2]
  have hσhigh : σ ≤ 2 ^ 200 := by
    rw [← Rat.cast_le (K := ℝ)]
    push_cast
    linarith [h.cube_le.2, le_abs_self (σ : ℝ)]
  obtain ⟨Y, Z, μ, hY, hZ, hμ0, hμ, hsize, hpart⟩ :=
    complexCbrt_cube hroots (neg_represents hη) hσ hηhigh hσlow hσhigh
  have hmodulus : |(μ / R) ^ 2 + w| ≤ 1 / 2 / 10 ^ 10 := by
    refine modulus_near (e := η / R ^ 3) (s := σ / R ^ 3) ?_ hy.le hD hηz hσD
    rw [div_pow, hμ]
    push_cast
    field_simp
  obtain ⟨hsize', hpart'⟩ := cube_in_units h.pos hsize hpart
  rw [Rat.cast_neg, neg_div] at hpart'
  obtain ⟨hsquares, hcubes, hle⟩ :=
    parts_near (div_pos hμ0 h.pos).le hmodulus hx.le hηz hsize' hpart'
  have hsized : ∀ {u : Double} {q : ℚ}, u.Represents q → (q / R) ^ 2 ≤ (3 / 2) ^ 2 →
      Sized R u (q / R) (3 / 2) 0 := fun {u q} hq hle =>
    .exact hq (div_mul_cancel₀ _ h.pos.ne').symm (abs_le_of_sq_le_sq hle (by norm_num))
  exact ⟨Y / R, Z / R, hsquares, hcubes, hsized hY (by linarith [sq_nonneg (Z / R : ℝ)]),
    hsized hZ (by linarith [sq_nonneg (Y / R : ℝ)])⟩

end Radicals

/-! ## The candidates -/

theorem room_unit : Room 1 := by
  constructor <;> norm_num

theorem thirdTurn_sized [CubeRoots Double] (hroots : CubeRoots.Accurate) :
    Sized 1 (CubeRoots.thirdTurn : Double × Double).1 (-(1 / 2)) (1 / 2) 32 ∧
      Sized 1 (CubeRoots.thirdTurn : Double × Double).2 (√3 / 2) (7 / 8) 32 := by
  obtain ⟨hcos, hsin⟩ := hroots.thirdTurn
  have hangle : 2 * Real.pi / 3 = Real.pi - Real.pi / 3 := by ring
  have hunit : (1 / 2 ^ 48 : ℝ) = 32 * (|1| / 2 ^ 53) := by
    rw [abs_one]
    norm_num
  rw [hangle, Real.cos_pi_sub, Real.cos_pi_div_three, hunit] at hcos
  rw [hangle, Real.sin_pi_sub, Real.sin_pi_div_three, hunit] at hsin
  refine ⟨⟨by norm_num [abs_of_pos], by rwa [mul_one]⟩, ⟨?_, by rwa [mul_one]⟩⟩
  have hsqrt : √(3 : ℝ) ≤ 7 / 4 := Real.sqrt_le_iff.mpr ⟨by norm_num, by norm_num⟩
  rw [abs_of_nonneg (by positivity)]
  linarith

/-- Twice a real part, moved back to the parameter of the equation. -/
theorem candidate_sized {x y : Double} {r s : ℝ} (h : Reduced A B C D R β γ δ) (hx : Sized R x r 3 300)
    (hy : Sized R y s 1 3) :
    Sized R (x + x - y) (r + r - s) 7 700 :=
  ((hx.add h.room_one hx (by norm_num) (by norm_num)).sub h.room_one hy (by norm_num) (by norm_num)).mono
    (by norm_num) (by norm_num)

section Candidates

variable [CubeRoots Double] (hroots : CubeRoots.Accurate) (h : Reduced A B C D R β γ δ)

include hroots h

theorem turn_sized {u : Double × Double} {y z M e : ℝ} (hy : Sized R u.1 y M e) (hz : Sized R u.2 z M e)
    (hM : M ≤ 3) (he : e ≤ 1000) :
    Sized R (complexMul u CubeRoots.thirdTurn).1 (y * -(1 / 2) - z * (√3 / 2)) (11 / 8 * M)
        (11 / 8 * e + 67 * M + 1) ∧
      Sized R (complexMul u CubeRoots.thirdTurn).2 (y * (√3 / 2) + z * -(1 / 2)) (11 / 8 * M)
        (11 / 8 * e + 67 * M + 1) := by
  have hroom := h.room_one
  have hM0 : 0 ≤ M := (abs_nonneg y).trans hy.le
  have he0 := hy.nonneg hroom
  obtain ⟨hcos, hsin⟩ := thirdTurn_sized hroots
  have hyc := hy.mul hroom hcos (mul_one R) hroom room_unit (by linarith) (by linarith)
  have hzc := hz.mul hroom hcos (mul_one R) hroom room_unit (by linarith) (by linarith)
  have hys := hy.mul hroom hsin (mul_one R) hroom room_unit (by linarith) (by linarith)
  have hzs := hz.mul hroom hsin (mul_one R) hroom room_unit (by linarith) (by linarith)
  exact ⟨(hyc.sub hroom hzs (by linarith) (by linarith)).mono (by linarith) (by linarith),
    (hys.add hroom hzc (by linarith) (by linarith)).mono (by linarith) (by linarith)⟩

variable (ha : a.Represents A) (hb : b.Represents B) (hc : c.Represents C) (hd : d.Represents D)

include ha hb hc hd

/-- With one real root, the only candidate is the sum of two radicals. -/
theorem cubic_of_one (hD : 1 / 6912 ≤ constantHalf β γ δ * constantHalf β γ δ +
      linearThird β γ * linearThird β γ * linearThird β γ) :
    ∃ y z : ℝ, |y * z + linearThird β γ| ≤ 1 / 9600 ∧
      |y ^ 3 + z ^ 3 + 2 * constantHalf β γ δ| ≤ 1 / 10 ^ 10 ∧
      List.Forall₂ (fun (t : Double) r => Sized R t (r - β / 3) 7 700) (cubic a b c d) [y + z] := by
  have hlin := h.linear_sized ha hb hc
  have hconst := h.constant_sized ha hb hc hd
  have hlarge := discriminant_large h hlin hconst (hD.trans (le_abs_self _))
  have hpos := (discriminant_pos_iff h (discriminant_sized h hlin hconst) (hD.trans (le_abs_self _))).mpr
    (by linarith)
  obtain ⟨y, z, hprod, hsum, hradicals⟩ := radicals_of_one hroots h hlin hconst hD
  refine ⟨y, z, hprod, hsum, ?_⟩
  unfold cubic
  simp only [hlarge, hpos, Bool.false_eq_true, if_false, if_true]
  exact .cons ((hradicals.sub h.room_one (h.shift_sized ha hb) (by norm_num) (by norm_num)).mono
    (by norm_num) (by norm_num)) .nil

/-- With three real roots, the candidates are twice the real parts of the complex radicals. -/
theorem cubic_of_three (hD : 1 / 6912 ≤ -(constantHalf β γ δ * constantHalf β γ δ +
      linearThird β γ * linearThird β γ * linearThird β γ)) :
    ∃ y z : ℝ, |y ^ 2 + z ^ 2 + linearThird β γ| ≤ 1 / 10 ^ 10 ∧
      |y ^ 3 - 3 * y * z ^ 2 + constantHalf β γ δ| ≤ 1 / 10 ^ 10 ∧
      List.Forall₂ (fun (t : Double) r => Sized R t (r - β / 3) 7 700) (cubic a b c d) (thirds y z) := by
  have hlin := h.linear_sized ha hb hc
  have hconst := h.constant_sized ha hb hc hd
  have hlarge := discriminant_large h hlin hconst (hD.trans (neg_le_abs _))
  have hneg := mt (discriminant_pos_iff h (discriminant_sized h hlin hconst) (hD.trans (neg_le_abs _))).mp
    (by linarith)
  obtain ⟨y, z, hsize, hpart, hy, hz⟩ := radicals_of_three hroots h hlin hconst hD
  have hshift := h.shift_sized ha hb
  refine ⟨y, z, hsize, hpart, ?_⟩
  unfold cubic threeReal
  simp only [hlarge, hneg, Bool.false_eq_true, if_false]
  generalize CubeRoots.complexCbrt (α := Double) _ _ = u at hy hz
  obtain ⟨hy', hz'⟩ := turn_sized hroots h hy hz (by norm_num) (by norm_num)
  obtain ⟨hy'', -⟩ := turn_sized hroots h hy' hz' (by norm_num) (by norm_num)
  have h3 : √(3 : ℝ) * √3 = 3 := Real.mul_self_sqrt (by norm_num)
  have hmono : ∀ {x : Double} {r M e : ℝ}, Sized R x r M e → M ≤ 3 → e ≤ 300 →
      Sized R (x + x - b / a / 3) (r + r - β / 3) 7 700 := fun hx hM he =>
    candidate_sized h (hx.mono hM he) hshift
  have hfirst := hmono hy (by norm_num) (by norm_num)
  have hsecond := hmono hy' (by norm_num) (by norm_num)
  have hthird := hmono hy'' (by norm_num) (by norm_num)
  refine .cons ?_ (.cons ?_ (.cons ?_ .nil))
  · convert hfirst using 1
    ring
  · convert hsecond using 1
    ring
  · convert hthird using 1
    linear_combination y / 2 * h3

end Candidates

end DroneShow.Roots
