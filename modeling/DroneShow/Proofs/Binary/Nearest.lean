-- Rounding finds the nearest magnitude. A value that is a magnitude is its
-- own rounding, and any other value is missed by at most half a step.
import DroneShow.Proofs.Binary.Magnitude

namespace DroneShow

/-! ## Quotients -/

theorem le_roundDiv {num den k : Nat} (hd : 0 < den) (h : k * den ≤ num) :
    k ≤ roundDiv num den := by
  have hk : k ≤ num / den := (Nat.le_div_iff_mul_le hd).mpr h
  unfold roundDiv
  simp only
  split <;> omega

theorem roundDiv_le {num den k : Nat} (hd : 0 < den) (h : num ≤ k * den) :
    roundDiv num den ≤ k := by
  have hdm := Nat.div_add_mod num den
  unfold roundDiv
  simp only
  rcases Nat.lt_or_ge (num / den) k with hlt | hge
  · split <;> omega
  · have hmul : k * den ≤ den * (num / den) := by
      rw [Nat.mul_comm]
      exact Nat.mul_le_mul_left _ hge
    have hmod : num % den = 0 := by omega
    have hk : num / den ≤ k := by
      rw [← Nat.mul_div_cancel k hd]
      exact Nat.div_le_div_right h
    rw [hmod, if_neg (by omega)]
    exact hk

theorem roundDiv_mul {den : Nat} (hd : 0 < den) (k : Nat) : roundDiv (k * den) den = k :=
  Nat.le_antisymm (roundDiv_le hd (Nat.le_refl _)) (le_roundDiv hd (Nat.le_refl _))

theorem roundDiv_error {num den : Nat} (hd : 0 < den) :
    |(roundDiv num den : ℚ) - num / den| ≤ 1 / 2 := by
  have hdq : (0 : ℚ) < den := by exact_mod_cast hd
  have hquot : (num : ℚ) / den = (num / den : Nat) + ((num % den : Nat) : ℚ) / den := by
    rw [eq_comm, ← mul_div_cancel_left₀ ((num / den : Nat) : ℚ) hdq.ne', ← add_div]
    congr 1
    exact_mod_cast Nat.div_add_mod num den
  rw [hquot, abs_le]
  unfold roundDiv
  simp only
  split
  · have hup : (1 : ℚ) / 2 ≤ ((num % den : Nat) : ℚ) / den := by
      rw [le_div_iff₀ hdq, one_div, inv_mul_le_iff₀ two_pos]
      exact_mod_cast (show den ≤ 2 * (num % den) by omega)
    have hlt : ((num % den : Nat) : ℚ) / den < 1 := by
      rw [div_lt_one hdq]
      exact_mod_cast Nat.mod_lt num hd
    push_cast
    constructor <;> linarith
  · have hdown : ((num % den : Nat) : ℚ) / den ≤ 1 / 2 := by
      rw [div_le_iff₀ hdq, one_div, le_inv_mul_iff₀ two_pos]
      exact_mod_cast (show 2 * (num % den) ≤ den by omega)
    have hpos : (0 : ℚ) ≤ ((num % den : Nat) : ℚ) / den := by positivity
    constructor <;> linarith

/-! ## The binary logarithm of a quotient -/

theorem two_pow_log2_le {n : Nat} (hn : n ≠ 0) : (2 : ℚ) ^ (n.log2 : Int) ≤ n := by
  rw [zpow_natCast]
  exact_mod_cast Nat.log2_self_le hn

theorem lt_two_pow_log2 (n : Nat) : (n : ℚ) < 2 ^ ((n.log2 : Int) + 1) := by
  have h : n < 2 ^ (n.log2 + 1) := Nat.lt_log2_self
  have hq : (n : ℚ) < (2 : ℚ) ^ (n.log2 + 1) := by exact_mod_cast h
  exact_mod_cast hq

/-- The comparison by which the logarithm is corrected. -/
theorem quotient_lt_two_pow {num den : Nat} (hd : 0 < den) (k : Int) :
    (num : ℚ) / den < 2 ^ k ↔
      if 0 ≤ k then num >>> k.toNat < den else num <<< (-k).toNat < den := by
  have hdq : (0 : ℚ) < den := by exact_mod_cast hd
  split
  · rename_i hk
    obtain ⟨n, rfl⟩ := Int.eq_ofNat_of_zero_le hk
    rw [div_lt_iff₀ hdq, Int.toNat_natCast, Nat.shiftRight_eq_div_pow,
      Nat.div_lt_iff_lt_mul (Nat.two_pow_pos n), Nat.mul_comm den, zpow_natCast]
    exact_mod_cast Iff.rfl
  · rename_i hk
    obtain ⟨n, hn⟩ := Int.eq_ofNat_of_zero_le (show 0 ≤ -k by omega)
    obtain rfl : k = -(n : Int) := by omega
    rw [neg_neg, Int.toNat_natCast, Nat.shiftLeft_eq, zpow_neg, zpow_natCast, div_lt_iff₀ hdq,
      inv_mul_eq_div, lt_div_iff₀ (by positivity)]
    exact_mod_cast Iff.rfl

theorem log2Div_bounds {num den : Nat} (hn : num ≠ 0) (hd : 0 < den) :
    (2 : ℚ) ^ log2Div num den ≤ num / den ∧ (num : ℚ) / den < 2 ^ (log2Div num den + 1) := by
  have hdq : (0 : ℚ) < den := by exact_mod_cast hd
  have hlow := two_pow_log2_le hn
  have hhigh := lt_two_pow_log2 num
  have hlow' := two_pow_log2_le hd.ne'
  have hhigh' := lt_two_pow_log2 den
  have hup : (num : ℚ) / den < 2 ^ ((num.log2 : Int) - den.log2 + 1) := by
    rw [div_lt_iff₀ hdq]
    calc (num : ℚ) < 2 ^ ((num.log2 : Int) + 1) := hhigh
      _ = 2 ^ ((num.log2 : Int) - den.log2 + 1) * 2 ^ (den.log2 : Int) := by
        rw [← zpow_add₀ two_ne_zero]
        congr 1
        ring
      _ ≤ 2 ^ ((num.log2 : Int) - den.log2 + 1) * den := by gcongr
  have hdown : (2 : ℚ) ^ ((num.log2 : Int) - den.log2 - 1) ≤ num / den := by
    rw [le_div_iff₀ hdq]
    calc (2 : ℚ) ^ ((num.log2 : Int) - den.log2 - 1) * den
        ≤ 2 ^ ((num.log2 : Int) - den.log2 - 1) * 2 ^ ((den.log2 : Int) + 1) := by gcongr
      _ = 2 ^ (num.log2 : Int) := by
        rw [← zpow_add₀ two_ne_zero]
        congr 1
        ring
      _ ≤ num := hlow
  have hlog : log2Div num den =
      if (num : ℚ) / den < 2 ^ ((num.log2 : Int) - den.log2) then (num.log2 : Int) - den.log2 - 1
      else (num.log2 : Int) - den.log2 := by
    simp only [quotient_lt_two_pow hd]
    unfold log2Div
    simp only
    split <;> rfl
  rw [hlog]
  split
  · rename_i h
    exact ⟨hdown, by rwa [sub_add_cancel]⟩
  · rename_i h
    exact ⟨not_lt.mp h, hup⟩

/-! ## Ranks -/

namespace Format

variable (F : Format)

theorem two_unit : (2 * F.unit : ℚ) = 2 ^ (((F.precision - 1 : Nat) : Int) + 1) := by
  rw [F.unit_eq_pow, zpow_add_one₀ two_ne_zero, zpow_natCast]
  push_cast
  ring

theorem unit_cast : (F.unit : ℚ) = 2 ^ ((F.precision - 1 : Nat) : Int) := by
  rw [F.unit_eq_pow, zpow_natCast]
  push_cast
  rfl

/-- One step of the binade in which a value is rounded. -/
def step (num den : Nat) (e : Int) : ℚ := 2 ^ (F.minExponent + F.targetBinade num den e)

theorem step_pos (num den : Nat) (e : Int) : 0 < F.step num den e := by
  unfold step
  positivity

/-- A value has at most twice a unit of steps, and not less than a unit
unless it is rounded in the first binade. -/
theorem steps_bounds {num den : Nat} (hn : num ≠ 0) (hd : 0 < den) (e : Int) :
    (num : ℚ) / den * 2 ^ e < 2 * F.unit * F.step num den e ∧
      (F.targetBinade num den e = 0 ∨ F.unit * F.step num den e ≤ (num : ℚ) / den * 2 ^ e) := by
  obtain ⟨hlow, hhigh⟩ := log2Div_bounds hn hd
  have hb : F.targetBinade num den e =
      (log2Div num den + e - (F.precision - 1 : Nat) - F.minExponent).toNat := rfl
  generalize log2Div num den = l at hlow hhigh hb
  unfold step
  constructor
  · calc (num : ℚ) / den * 2 ^ e < 2 ^ (l + 1) * 2 ^ e := by gcongr
      _ = 2 ^ (l + 1 + e) := by rw [← zpow_add₀ two_ne_zero]
      _ ≤ 2 ^ (((F.precision - 1 : Nat) : Int) + 1 + (F.minExponent + F.targetBinade num den e)) :=
        zpow_le_zpow_right₀ one_le_two (by omega)
      _ = 2 * F.unit * 2 ^ (F.minExponent + F.targetBinade num den e) := by
        rw [zpow_add₀ two_ne_zero, two_unit]
  · rcases Nat.eq_zero_or_pos (F.targetBinade num den e) with h | h
    · exact .inl h
    · right
      calc F.unit * (2 : ℚ) ^ (F.minExponent + F.targetBinade num den e)
          = 2 ^ (((F.precision - 1 : Nat) : Int) + (F.minExponent + F.targetBinade num den e)) := by
            rw [zpow_add₀ two_ne_zero ((F.precision - 1 : Nat) : Int), unit_cast]
        _ = 2 ^ (l + e) := by
          congr 1
          omega
        _ = 2 ^ l * 2 ^ e := zpow_add₀ two_ne_zero _ _
        _ ≤ (num : ℚ) / den * 2 ^ e := by gcongr

/-- The steps are counted in integers: both ways of shifting divide the
value by a step. -/
theorem nearestRank_quotient {num den : Nat} (hn : num ≠ 0) (hd : 0 < den) (e : Int) :
    ∃ n d, 0 < d ∧ F.nearestRank num den e = F.targetBinade num den e * F.unit + roundDiv n d ∧
      (n : ℚ) / d = (num : ℚ) / den * 2 ^ e / F.step num den e := by
  have hshift : ∀ k : Int, e - (F.minExponent + F.targetBinade num den e) = k →
      (num : ℚ) / den * 2 ^ e / F.step num den e = num / den * 2 ^ k := by
    rintro k rfl
    unfold step
    rw [zpow_sub₀ two_ne_zero, mul_div_assoc]
  unfold nearestRank
  simp only [hn, if_false]
  split
  · rename_i hk
    refine ⟨_, _, hd, rfl, ?_⟩
    obtain ⟨k, hk⟩ := Int.eq_ofNat_of_zero_le hk
    rw [hshift _ hk, hk, Int.toNat_natCast, Nat.shiftLeft_eq, zpow_natCast]
    push_cast
    ring
  · rename_i hk
    obtain ⟨k, hk⟩ := Int.eq_ofNat_of_zero_le
      (show 0 ≤ -(e - (F.minExponent + F.targetBinade num den e)) by omega)
    refine ⟨_, _, ?_, rfl, ?_⟩
    · rw [Nat.shiftLeft_eq]
      exact Nat.mul_pos hd (Nat.two_pow_pos _)
    · rw [hshift (-(k : Int)) (by omega), hk, Int.toNat_natCast, Nat.shiftLeft_eq, zpow_neg,
        zpow_natCast]
      push_cast
      have hdq : (den : ℚ) ≠ 0 := by exact_mod_cast hd.ne'
      field_simp

/-- Where a value is rounded to, as a number of steps in its binade. -/
theorem nearestRank_place {num den : Nat} (hn : num ≠ 0) (hd : 0 < den) (e : Int) :
    ∃ s, F.nearestRank num den e = F.targetBinade num den e * F.unit + s ∧ s ≤ 2 * F.unit ∧
      (F.targetBinade num den e = 0 ∨ F.unit ≤ s) ∧
      |(s : ℚ) - (num : ℚ) / den * 2 ^ e / F.step num den e| ≤ 1 / 2 := by
  obtain ⟨n, d, hpos, hrank, hval⟩ := F.nearestRank_quotient hn hd e
  obtain ⟨hhigh, hlow⟩ := F.steps_bounds hn hd e
  have hstep := F.step_pos num den e
  have hdq : (0 : ℚ) < d := by exact_mod_cast hpos
  refine ⟨roundDiv n d, hrank, roundDiv_le hpos ?_, ?_, ?_⟩
  · have h : (n : ℚ) / d < 2 * F.unit := by rwa [hval, div_lt_iff₀ hstep]
    rw [div_lt_iff₀ hdq] at h
    exact_mod_cast h.le
  · refine hlow.imp_right fun h => le_roundDiv hpos ?_
    have h' : (F.unit : ℚ) ≤ n / d := by rwa [hval, le_div_iff₀ hstep]
    rw [le_div_iff₀ hdq] at h'
    exact_mod_cast h'
  · rw [← hval]
    exact roundDiv_error hpos

theorem nearestRank_error (num : Nat) {den : Nat} (hd : 0 < den) (e : Int) :
    |F.magnitude (F.nearestRank num den e) - (num : ℚ) / den * 2 ^ e| ≤ F.step num den e / 2 := by
  have hstep := F.step_pos num den e
  by_cases hn : num = 0
  · subst hn
    simp only [nearestRank, if_true, magnitude_zero]
    simpa using half_pos hstep |>.le
  · obtain ⟨s, hrank, hs, hb, herr⟩ := F.nearestRank_place hn hd e
    rw [hrank, F.magnitude_place hs hb]
    have hsplit : (s : ℚ) * 2 ^ (F.minExponent + F.targetBinade num den e) -
        (num : ℚ) / den * 2 ^ e =
        (s - (num : ℚ) / den * 2 ^ e / F.step num den e) * F.step num den e := by
      rw [sub_mul, div_mul_cancel₀ _ hstep.ne']
      rfl
    rw [hsplit, abs_mul, abs_of_pos hstep]
    have := mul_le_mul_of_nonneg_right herr hstep.le
    linarith

/-! ## Values that are magnitudes -/

theorem eq_zero_of_magnitude {rank : Nat} (h : F.magnitude rank = 0) : rank = 0 := by
  obtain ⟨hplace, hfull⟩ := F.place_of_rank rank
  have hu := F.unit_pos
  have hs : F.significand rank = 0 := by
    unfold magnitude at h
    have hpow : (2 : ℚ) ^ F.exponent rank ≠ 0 := by positivity
    exact_mod_cast (mul_eq_zero.mp h).resolve_right hpow
  rcases hfull with hb | hb
  · rw [hb, hs] at hplace
    omega
  · omega

theorem targetBinade_of_magnitude {num den rank : Nat} {e : Int} (hn : num ≠ 0) (hd : 0 < den)
    (h : (num : ℚ) / den * 2 ^ e = F.magnitude rank) :
    F.targetBinade num den e = F.binade rank := by
  obtain ⟨hlow, hhigh⟩ := log2Div_bounds hn hd
  have hb : F.targetBinade num den e =
      (log2Div num den + e - (F.precision - 1 : Nat) - F.minExponent).toNat := rfl
  generalize log2Div num den = l at hlow hhigh hb
  obtain ⟨-, hfull⟩ := F.place_of_rank rank
  have hpow : (0 : ℚ) < 2 ^ F.exponent rank := by positivity
  have hexp : F.exponent rank = F.minExponent + F.binade rank := rfl
  have hsig : (F.significand rank : ℚ) < 2 * F.unit := by exact_mod_cast F.significand_lt rank
  have hup : l + e < (F.precision - 1 : Nat) + 1 + F.exponent rank := by
    refine (zpow_lt_zpow_iff_right₀ (a := (2 : ℚ)) one_lt_two).mp ?_
    calc (2 : ℚ) ^ (l + e) = 2 ^ l * 2 ^ e := zpow_add₀ two_ne_zero _ _
      _ ≤ (num : ℚ) / den * 2 ^ e := by gcongr
      _ = F.significand rank * 2 ^ F.exponent rank := h
      _ < 2 * F.unit * 2 ^ F.exponent rank := by gcongr
      _ = 2 ^ (((F.precision - 1 : Nat) : Int) + 1 + F.exponent rank) := by
        rw [two_unit, zpow_add₀ two_ne_zero (((F.precision - 1 : Nat) : Int) + 1)]
  rcases Nat.eq_zero_or_pos (F.binade rank) with h0 | hpos
  · omega
  · have hunit : (F.unit : ℚ) ≤ F.significand rank := by
      exact_mod_cast hfull.resolve_left hpos.ne'
    have hdown : ((F.precision - 1 : Nat) : Int) + F.exponent rank < l + e + 1 := by
      refine (zpow_lt_zpow_iff_right₀ (a := (2 : ℚ)) one_lt_two).mp ?_
      calc (2 : ℚ) ^ (((F.precision - 1 : Nat) : Int) + F.exponent rank)
          = F.unit * 2 ^ F.exponent rank := by rw [unit_cast, zpow_add₀ two_ne_zero]
        _ ≤ F.significand rank * 2 ^ F.exponent rank := by gcongr
        _ = (num : ℚ) / den * 2 ^ e := h.symm
        _ < 2 ^ (l + 1) * 2 ^ e := by gcongr
        _ = 2 ^ (l + e + 1) := by
          rw [← zpow_add₀ two_ne_zero]
          congr 1
          ring
    omega

theorem nearestRank_of_magnitude {num den rank : Nat} {e : Int} (hd : 0 < den)
    (h : (num : ℚ) / den * 2 ^ e = F.magnitude rank) : F.nearestRank num den e = rank := by
  by_cases hn : num = 0
  · subst hn
    have hzero : F.magnitude rank = 0 := by rw [← h]; simp
    rw [F.eq_zero_of_magnitude hzero]
    rfl
  · obtain ⟨n, d, hpos, hrank, hval⟩ := F.nearestRank_quotient hn hd e
    have hb := F.targetBinade_of_magnitude hn hd h
    have hdq : (d : ℚ) ≠ 0 := by exact_mod_cast hpos.ne'
    have hmul : n = F.significand rank * d := by
      have hstep : F.step num den e = 2 ^ F.exponent rank := by rw [step, hb, exponent]
      have hpow : (2 : ℚ) ^ F.exponent rank ≠ 0 := by positivity
      rw [h, hstep, magnitude, mul_div_cancel_right₀ _ hpow, div_eq_iff hdq] at hval
      exact_mod_cast hval
    rw [hrank, hmul, roundDiv_mul hpos, hb]
    exact (F.place_of_rank rank).1.symm

/-! ## Values below a power of two -/

theorem targetBinade_le {num den : Nat} {e m : Int} (hn : num ≠ 0) (hd : 0 < den)
    (h : (num : ℚ) / den * 2 ^ e < 2 ^ m) :
    (F.targetBinade num den e : Int) ≤ max 0 (m - 1 - (F.precision - 1 : Nat) - F.minExponent) := by
  obtain ⟨hlow, -⟩ := log2Div_bounds hn hd
  have hlog : log2Div num den + e < m := by
    refine (zpow_lt_zpow_iff_right₀ (a := (2 : ℚ)) one_lt_two).mp ?_
    calc (2 : ℚ) ^ (log2Div num den + e) = 2 ^ log2Div num den * 2 ^ e := zpow_add₀ two_ne_zero _ _
      _ ≤ (num : ℚ) / den * 2 ^ e := by gcongr
      _ < 2 ^ m := h
  unfold targetBinade
  omega

/-- Below a power of two that is no less than a full significand, rounding
misses a value by at most half a step at that power. -/
theorem nearestRank_error_of_lt {num den : Nat} {e m : Int} (hd : 0 < den)
    (hm : F.minExponent + (F.precision - 1 : Nat) + 1 ≤ m) (h : (num : ℚ) / den * 2 ^ e < 2 ^ m) :
    |F.magnitude (F.nearestRank num den e) - (num : ℚ) / den * 2 ^ e| ≤
      2 ^ (m - (F.precision - 1 : Nat) - 2) := by
  by_cases hn : num = 0
  · subst hn
    simp only [nearestRank, if_true, magnitude_zero]
    simp only [Nat.cast_zero, zero_div, zero_mul, sub_self, abs_zero]
    positivity
  · have hb := F.targetBinade_le hn hd h
    calc |F.magnitude (F.nearestRank num den e) - (num : ℚ) / den * 2 ^ e|
        ≤ F.step num den e / 2 := F.nearestRank_error num hd e
      _ = 2 ^ (F.minExponent + F.targetBinade num den e - 1) := by
        rw [step, zpow_sub_one₀ two_ne_zero, div_eq_mul_inv]
      _ ≤ 2 ^ (m - (F.precision - 1 : Nat) - 2) := zpow_le_zpow_right₀ one_le_two (by omega)

theorem nearestRank_lt_infinity {num den : Nat} {e m : Int} (hd : 0 < den)
    (hm : m - 1 - (F.precision - 1 : Nat) - F.minExponent + 1 < F.binades) (hF : 1 < F.binades)
    (h : (num : ℚ) / den * 2 ^ e < 2 ^ m) : F.nearestRank num den e < F.infinityRank := by
  have hu := F.unit_pos
  by_cases hn : num = 0
  · subst hn
    simp only [nearestRank, if_true]
    exact Nat.mul_pos (Nat.succ_pos _) hu
  · have hb := F.targetBinade_le hn hd h
    obtain ⟨s, hrank, hs, -⟩ := F.nearestRank_place hn hd e
    have hle : F.targetBinade num den e + 2 ≤ F.binades := by omega
    calc F.nearestRank num den e = F.targetBinade num den e * F.unit + s := hrank
      _ ≤ F.targetBinade num den e * F.unit + 2 * F.unit := by omega
      _ = (F.targetBinade num den e + 2) * F.unit := by ring
      _ ≤ F.binades * F.unit := Nat.mul_le_mul_right _ hle
      _ < F.infinityRank := Nat.mul_lt_mul_of_pos_right (Nat.lt_succ_self _) hu

end Format

end DroneShow
