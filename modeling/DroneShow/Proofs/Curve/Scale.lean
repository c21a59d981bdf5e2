-- Computed numbers in units of a scale. The size of the exact number and the error of the
-- computed one are both told in these units, and each operation has one rule for both, so
-- that the error of a formula is read off its shape.
import DroneShow.Proofs.Curve.Quadratic

namespace DroneShow.Roots

open Binary

variable {S T U r s M N e f : ℝ} {x y : Double} {q : ℚ}

/-- Scales with room for the sums and products of a few numbers. -/
structure Room (S : ℝ) : Prop where
  low : 1 / 2 ^ 100 ≤ |S|
  high : |S| ≤ 2 ^ 100

theorem Room.pos (h : Room S) : 0 < |S| := lt_of_lt_of_le (by positivity) h.low

/-- The number is finite and `r` in units of the scale, up to `e` roundings of the unit;
the size of `r` is at most `M`. -/
structure Sized (S : ℝ) (x : Double) (r M e : ℝ) : Prop where
  le : |r| ≤ M
  approx : x.Approx (r * S) (e * (|S| / 2 ^ 53))

theorem Sized.mono (h : Sized S x r M e) (hM : M ≤ N) (he : e ≤ f) : Sized S x r N f where
  le := h.le.trans hM
  approx := h.approx.mono (by gcongr)

theorem Sized.nonneg (h : Sized S x r M e) (hS : Room S) : 0 ≤ e := by
  have hS' := hS.pos
  exact nonneg_of_mul_nonneg_left h.approx.nonneg (by positivity)

theorem Sized.exact (h : x.Represents q) (hq : (q : ℝ) = r * S) (hr : |r| ≤ M) : Sized S x r M 0 where
  le := hr
  approx := by
    rw [zero_mul, ← hq]
    exact h.approx

theorem literal_represents {k : ℕ} (h : k ≤ 2 ^ 53) : (Scalar.ofNat k : Double).Represents k :=
  ofNat_represents (by exact_mod_cast exact_whole (k := k) (by rw [Nat.abs_cast]; omega))

/-- Rounding adds the size of the number to its error. -/
theorem Sized.of_rounds (hS : Room S) (h : x.Rounds q) (hr : |r| ≤ M) (hM : M ≤ 2 ^ 60)
    (hq : |(q : ℝ) - r * S| ≤ e * (|S| / 2 ^ 53)) (he : e ≤ 2 ^ 40) :
    Sized S x r M (e + M + 1 / 100) := by
  obtain ⟨hlow, hhigh⟩ := hS
  have hS' : 0 < |S| := lt_of_lt_of_le (by positivity) hlow
  have hsize : |(q : ℝ)| ≤ (M + 1 / 2 ^ 13) * |S| := by
    have htri := abs_add_le ((q : ℝ) - r * S) (r * S)
    rw [sub_add_cancel, abs_mul] at htri
    calc |(q : ℝ)| ≤ e * (|S| / 2 ^ 53) + |r| * |S| := htri.trans (by gcongr)
      _ ≤ 2 ^ 40 * (|S| / 2 ^ 53) + M * |S| := by gcongr
      _ = (M + 1 / 2 ^ 13) * |S| := by ring
  have hlt : |q| < 2 ^ (200 : ℤ) := by
    suffices hreal : |(q : ℝ)| < 2 ^ (200 : ℤ) by exact_mod_cast hreal
    calc |(q : ℝ)| ≤ (2 ^ 60 + 1 / 2 ^ 13) * 2 ^ 100 := hsize.trans (by gcongr)
      _ < 2 ^ (200 : ℤ) := by norm_num
  obtain ⟨z, hz, herr⟩ := h.relative (covers_double (by decide) (by decide)) hlt
  have herr' : |(z : ℝ) - q| ≤ (M + 1 / 100) * (|S| / 2 ^ 53) := by
    rw [roundoff_double] at herr
    rcases herr with hrel | habs
    · rw [← Rat.cast_le (K := ℝ)] at hrel
      push_cast at hrel
      calc |(z : ℝ) - q| ≤ |(q : ℝ)| * (1 / 2 ^ 53) := hrel
        _ ≤ (M + 1 / 2 ^ 13) * |S| * (1 / 2 ^ 53) := by gcongr
        _ ≤ (M + 1 / 100) * |S| * (1 / 2 ^ 53) := by
          gcongr
          norm_num
        _ = (M + 1 / 100) * (|S| / 2 ^ 53) := by ring
    · have hM0 : 0 ≤ M := (abs_nonneg r).trans hr
      have hleast : |z - q| ≤ 2 ^ (-200 : ℤ) :=
        habs.trans (zpow_le_zpow_right₀ one_le_two (by decide))
      rw [← Rat.cast_le (K := ℝ)] at hleast
      push_cast at hleast
      calc |(z : ℝ) - q| ≤ 2 ^ (-200 : ℤ) := hleast
        _ ≤ (0 + 1 / 100) * (1 / 2 ^ 100 / 2 ^ 53) := by norm_num
        _ ≤ (M + 1 / 100) * (|S| / 2 ^ 53) := by gcongr
  refine ⟨hr, z, hz, ?_⟩
  have htri := abs_sub_le (z : ℝ) q (r * S)
  calc |(z : ℝ) - r * S| ≤ (M + 1 / 100) * (|S| / 2 ^ 53) + e * (|S| / 2 ^ 53) :=
        htri.trans (add_le_add herr' hq)
    _ = (e + M + 1 / 100) * (|S| / 2 ^ 53) := by ring

theorem Sized.add (hS : Room S) (hx : Sized S x r M e) (hy : Sized S y s N f)
    (hM : M + N ≤ 2 ^ 60) (he : e + f ≤ 2 ^ 40) :
    Sized S (x + y) (r + s) (M + N) (e + f + (M + N) + 1 / 100) := by
  obtain ⟨p, hp, hpe⟩ := hx.approx
  obtain ⟨q, hq, hqf⟩ := hy.approx
  refine .of_rounds hS (add_rounds hp hq) ((abs_add_le r s).trans (add_le_add hx.le hy.le)) hM ?_ he
  push_cast
  rw [add_mul, add_sub_add_comm, add_mul]
  exact (abs_add_le _ _).trans (add_le_add hpe hqf)

theorem Sized.neg (hx : Sized S x r M e) : Sized S (-x) (-r) M e where
  le := by
    rw [abs_neg]
    exact hx.le
  approx := by
    rw [neg_mul]
    exact hx.approx.neg

theorem Sized.abs (hS : 0 < S) (hx : Sized S x r M e) : Sized S (Scalar.abs x) |r| M e where
  le := by
    rw [abs_abs]
    exact hx.le
  approx := by
    obtain ⟨p, hp, hpe⟩ := hx.approx
    refine ⟨|p|, hp.abs, ?_⟩
    rw [Rat.cast_abs, ← abs_of_pos hS, ← abs_mul, abs_of_pos hS]
    exact (abs_abs_sub_abs_le _ _).trans hpe

theorem Sized.sub (hS : Room S) (hx : Sized S x r M e) (hy : Sized S y s N f)
    (hM : M + N ≤ 2 ^ 60) (he : e + f ≤ 2 ^ 40) :
    Sized S (x - y) (r - s) (M + N) (e + f + (M + N) + 1 / 100) := by
  rw [sub_eq_add_neg]
  exact hx.add hS hy.neg hM he

theorem Sized.mul (hU : Room U) (hx : Sized S x r M e) (hy : Sized T y s N f) (hST : S * T = U)
    (hS : Room S) (hT : Room T) (hM : M * N ≤ 2 ^ 60) (he : e * N + M * f + e * f / 2 ^ 53 ≤ 2 ^ 40) :
    Sized U (x * y) (r * s) (M * N) (e * N + M * f + e * f / 2 ^ 53 + M * N + 1 / 100) := by
  have hS' := hS.pos
  have hT' := hT.pos
  have he0 := hx.nonneg hS
  have hf0 := hy.nonneg hT
  have hM0 : 0 ≤ M := (abs_nonneg r).trans hx.le
  obtain ⟨p, hp, hpe⟩ := hx.approx
  obtain ⟨q, hq, hqf⟩ := hy.approx
  refine .of_rounds hU (mul_rounds hp hq) ?_ hM ?_ he
  · rw [abs_mul]
    exact mul_le_mul hx.le hy.le (abs_nonneg s) hM0
  · push_cast
    have hsplit : (p : ℝ) * q - r * s * U =
        (p - r * S) * (s * T) + r * S * (q - s * T) + (p - r * S) * (q - s * T) := by
      rw [← hST]
      ring
    rw [hsplit]
    refine (abs_add_three _ _ _).trans ?_
    rw [abs_mul, abs_mul (r * S), abs_mul (_ - _) (_ - _), abs_mul s, abs_mul r]
    calc |(p : ℝ) - r * S| * (|s| * |T|) + |r| * |S| * |q - s * T| + |p - r * S| * |q - s * T|
        ≤ e * (|S| / 2 ^ 53) * (N * |T|) + M * |S| * (f * (|T| / 2 ^ 53)) +
            e * (|S| / 2 ^ 53) * (f * (|T| / 2 ^ 53)) := by
          gcongr
          · exact hy.le
          · exact hx.le
      _ = (e * N + M * f + e * f / 2 ^ 53) * (|U| / 2 ^ 53) := by
          rw [← hST, abs_mul]
          ring

theorem Sized.div {n : ℝ} (hS : Room S) (hx : Sized S x r M e) (hy : y.Represents q) (hq : (q : ℝ) = n)
    (hn : 0 < n) (hM : M / n ≤ 2 ^ 60) (he : e / n ≤ 2 ^ 40) :
    Sized S (x / y) (r / n) (M / n) (e / n + M / n + 1 / 100) := by
  obtain ⟨p, hp, hpe⟩ := hx.approx
  have hq0 : q ≠ 0 := by
    rintro rfl
    rw [Rat.cast_zero] at hq
    linarith
  refine .of_rounds hS (div_rounds hp hy hq0) ?_ hM ?_ he
  · rw [abs_div, abs_of_pos hn]
    exact div_le_div_of_nonneg_right hx.le hn.le
  · push_cast
    have hsplit : (p : ℝ) / n - r / n * S = (p - r * S) / n := by ring
    rw [hq, hsplit, abs_div, abs_of_pos hn, div_mul_eq_mul_div]
    gcongr

theorem Sized.abs_le (hx : Sized S x r M e) (hq : x.Represents q) (he : e ≤ 2 ^ 40) :
    |(q : ℝ)| ≤ (M + 1 / 100) * |S| := by
  obtain ⟨p, hp, hpe⟩ := hx.approx
  obtain rfl := hp.unique hq
  have htri := abs_add_le ((p : ℝ) - r * S) (r * S)
  rw [sub_add_cancel, abs_mul] at htri
  calc |(p : ℝ)| ≤ e * (|S| / 2 ^ 53) + |r| * |S| := htri.trans (by gcongr)
    _ ≤ 2 ^ 40 * (|S| / 2 ^ 53) + M * |S| := by
      gcongr
      exact hx.le
    _ ≤ (M + 1 / 100) * |S| := by
      nlinarith [abs_nonneg S]

/-- The computed number itself, in units of the scale. -/
theorem Sized.of_represents (hS : 0 < S) (hx : x.Represents q) (hM : |(q : ℝ)| ≤ M * S) :
    Sized S x (q / S) M 0 := by
  refine .exact hx (div_mul_cancel₀ _ hS.ne').symm ?_
  rwa [abs_div, abs_of_pos hS, div_le_iff₀ hS]

theorem Sized.near (hS : S ≠ 0) (hx : Sized S x r M e) (hq : x.Represents q) :
    |q / S - r| ≤ e * (1 / 2 ^ 53) := by
  obtain ⟨p, hp, hpe⟩ := hx.approx
  obtain rfl := hp.unique hq
  have hsplit : (p : ℝ) / S - r = (p - r * S) / S := by
    rw [sub_div, mul_div_cancel_right₀ _ hS]
  rw [hsplit, abs_div, div_le_iff₀ (abs_pos.mpr hS)]
  exact hpe.trans_eq (by ring)

end DroneShow.Roots
