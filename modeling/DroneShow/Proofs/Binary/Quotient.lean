-- Quotients beside a fixed value. Two numbers of a format never lie so close
-- together as rounding may move them, so a quotient is rounded to a value whose
-- product with the divisor is a number only if it is that value, and rounding
-- leaves it on its side of all such values.
import DroneShow.Proofs.Binary.Relative

namespace DroneShow

/-! ## The spacing of numbers -/

namespace Format

variable {F : Format} {a b : ℚ} {r r' : Nat}

theorem roundoff_mul_two_unit (F : Format) : F.roundoff * (2 * F.unit) = 1 := by
  rw [roundoff, two_unit, ← zpow_add₀ two_ne_zero, ← zpow_zero (2 : ℚ)]
  congr 1
  omega

theorem roundoff_le_half (F : Format) : F.roundoff ≤ 1 / 2 := by
  have hunit : (1 : ℚ) ≤ F.unit := by exact_mod_cast F.unit_pos
  have hmul := F.roundoff_mul_two_unit
  have hpos := F.roundoff_pos
  nlinarith

/-- The next magnitude is further away than rounding moves a value of that size. -/
theorem magnitude_add_roundoff_lt (h : r < r') :
    F.magnitude r + F.roundoff * F.magnitude r < F.magnitude r' := by
  have hstep : (0 : ℚ) < 2 ^ F.exponent r := by positivity
  have hsig : (F.significand r : ℚ) < 2 * F.unit := by exact_mod_cast F.significand_lt r
  have hmove : F.roundoff * F.magnitude r < 2 ^ F.exponent r := by
    calc F.roundoff * F.magnitude r = F.roundoff * F.significand r * 2 ^ F.exponent r := by
          rw [magnitude, mul_assoc]
      _ < F.roundoff * (2 * F.unit) * 2 ^ F.exponent r := by
          have := F.roundoff_pos
          gcongr
      _ = 2 ^ F.exponent r := by rw [roundoff_mul_two_unit, one_mul]
  have hnext : F.magnitude (r + 1) ≤ F.magnitude r' := F.magnitude_strictMono.monotone h
  rw [magnitude_succ] at hnext
  linarith

theorem Exact.eq_of_close (ha : F.Exact a) (hb : F.Exact b) (h : |a - b| ≤ F.roundoff * |a|)
    (h' : |a - b| ≤ F.roundoff * |b|) : a = b := by
  obtain ⟨r, -, hr⟩ := ha
  obtain ⟨r', -, hr'⟩ := hb
  obtain ⟨hdown, hup⟩ := abs_le.mp (abs_abs_sub_abs_le_abs_sub a b)
  rw [← hr, ← hr'] at hdown hup
  rw [← hr] at h
  rw [← hr'] at h'
  have heq : |a| = |b| := by
    rw [← hr, ← hr']
    rcases lt_trichotomy r r' with hlt | rfl | hgt
    · have := magnitude_add_roundoff_lt (F := F) hlt
      linarith
    · rfl
    · have := magnitude_add_roundoff_lt (F := F) hgt
      linarith
  rcases abs_eq_abs.mp heq with hsame | hneg
  · exact hsame
  · have hdouble : |a - b| = 2 * |b| := by
      rw [hneg, ← neg_add', abs_neg, ← two_mul, abs_mul, abs_of_pos two_pos]
    have hhalf := F.roundoff_le_half
    have hnonneg := abs_nonneg b
    rw [hr'] at h'
    have hzero : |b| = 0 := by nlinarith
    rw [hneg, abs_eq_zero.mp hzero, neg_zero]

/-! ## The step of a value -/

/-- Half a step, which is as far as rounding moves a value. -/
theorem half_step (F : Format) (num den : Nat) (e : Int) :
    F.step num den e / 2 = F.roundoff * (F.unit * F.step num den e) := by
  calc F.step num den e / 2 = F.roundoff * (2 * F.unit) * F.step num den e / 2 := by
        rw [roundoff_mul_two_unit, one_mul]
    _ = F.roundoff * (F.unit * F.step num den e) := by ring

/-- A value that is rounded behind the first binade has a full significand, and
so has the number to which it is rounded. -/
theorem unit_mul_step_le (F : Format) {num den : Nat} {e : Int} (hd : 0 < den)
    (h : 2 * F.unit * 2 ^ F.minExponent < F.magnitude (F.nearestRank num den e)) :
    F.unit * F.step num den e ≤ (num : ℚ) / den * 2 ^ e ∧
      F.unit * F.step num den e ≤ F.magnitude (F.nearestRank num den e) := by
  have hstep := F.step_pos num den e
  have hn : num ≠ 0 := by
    rintro rfl
    have hzero : F.magnitude (F.nearestRank 0 den e) = 0 := by simp [nearestRank]
    rw [hzero] at h
    exact absurd h (not_lt.mpr (by positivity))
  obtain ⟨s, hplace, hs, hfull, -⟩ := F.nearestRank_place hn hd e
  have hmag : F.magnitude (F.nearestRank num den e) = s * F.step num den e := by
    rw [hplace, F.magnitude_place hs hfull, step]
  have hbinade : F.targetBinade num den e ≠ 0 := by
    intro hfirst
    have hsq : (s : ℚ) ≤ 2 * F.unit := by exact_mod_cast hs
    rw [hmag, step, hfirst, Nat.cast_zero, add_zero] at h
    exact absurd h (not_lt.mpr (mul_le_mul_of_nonneg_right hsq (by positivity)))
  have hsq : (F.unit : ℚ) ≤ s := by exact_mod_cast hfull.resolve_left hbinade
  refine ⟨(F.steps_bounds hn hd e).2.resolve_left hbinade, ?_⟩
  rw [hmag]
  gcongr

end Format

namespace Binary

variable {F : Format} {x y : Binary F} {p q d w t : ℚ}

/-! ## Rounding a quotient -/

/-- Behind the first binade, a value is moved by little against itself, and
also against the number to which it is moved. -/
theorem Rounds.error_le (h : x.Rounds q) (hw : x.Represents w)
    (hlow : 2 * F.unit * 2 ^ F.minExponent < |w|) :
    |w - q| ≤ F.roundoff * |q| ∧ |w - q| ≤ F.roundoff * |w| := by
  obtain ⟨n, num, den, e, hd, rfl, rfl⟩ := h
  obtain ⟨hlt, hval⟩ := hw
  obtain rfl : w = signFactor n * F.magnitude (F.nearestRank num den e) := by
    rw [hval, Nat.min_eq_left (by omega)]
  have hnonneg : (0 : ℚ) ≤ num / den * 2 ^ e := by positivity
  rw [abs_signFactor_mul, abs_of_nonneg (F.magnitude_nonneg _)] at hlow
  rw [signFactor_mul_sub, abs_signFactor_mul, abs_signFactor_mul, abs_of_nonneg hnonneg,
    abs_of_nonneg (F.magnitude_nonneg _)]
  obtain ⟨hvalue, hnumber⟩ := F.unit_mul_step_le hd hlow
  have herr := F.nearestRank_error num hd e
  rw [F.half_step] at herr
  have hpos := F.roundoff_pos
  exact ⟨herr.trans (by gcongr), herr.trans (by gcongr)⟩

/-- A quotient that is rounded to `w` is `w`, where the format has the product
of `w` and the divisor. -/
theorem div_eq_of_represents (hx : x.Represents p) (hy : y.Represents d) (hd : d ≠ 0)
    (hw : (x / y).Represents w) (hback : F.Exact (w * d))
    (hlow : 2 * F.unit * 2 ^ F.minExponent < |w|) : p / d = w := by
  obtain ⟨hquot, hnumber⟩ := (div_rounds hx hy hd).error_le hw hlow
  have hapart : |p - w * d| = |w - p / d| * |d| := by
    rw [← abs_mul, sub_mul, div_mul_cancel₀ _ hd, abs_sub_comm]
  have hsize : |p / d| * |d| = |p| := by rw [← abs_mul, div_mul_cancel₀ _ hd]
  have hclose : p = w * d := by
    refine hx.exact.eq_of_close hback ?_ ?_
    · rw [hapart, ← hsize, ← mul_assoc]
      gcongr
    · rw [hapart, abs_mul w d, ← mul_assoc]
      gcongr
  rw [hclose, mul_div_cancel_right₀ _ hd]

/-- Rounding a quotient leaves it on its side of a value that the format has
together with its product with the divisor. -/
theorem div_sides (hx : x.Represents p) (hy : y.Represents d) (hd : d ≠ 0)
    (hw : (x / y).Represents w) (ht : F.Exact t) (hback : F.Exact (t * d))
    (hlow : 2 * F.unit * 2 ^ F.minExponent < |t|) :
    (w < t ↔ p / d < t) ∧ (t < w ↔ t < p / d) := by
  obtain ⟨z, hz⟩ := exists_number ht
  have hquot := div_rounds hx hy hd
  have hbelow (h : p / d ≤ t) : w ≤ t := (le_iff_of_represents hw hz).mp (hquot.mono hz.rounds h)
  have habove (h : t ≤ p / d) : t ≤ w := (le_iff_of_represents hz hw).mp (hz.rounds.mono hquot h)
  have hhit (h : w = t) : p / d = t := by
    subst h
    exact div_eq_of_represents hx hy hd hw hback hlow
  constructor
  · refine ⟨fun h => not_le.mp fun hle => ?_, fun h => ?_⟩
    · exact absurd (habove hle) (not_le.mpr h)
    · exact lt_of_le_of_ne (hbelow h.le) fun heq => h.ne (hhit heq)
  · refine ⟨fun h => not_le.mp fun hle => ?_, fun h => ?_⟩
    · exact absurd (hbelow hle) (not_le.mpr h)
    · exact lt_of_le_of_ne (habove h.le) fun heq => h.ne' (hhit heq.symm)

end Binary

end DroneShow
