-- The travel time in exact arithmetic. A climb from rest to rest gains and loses its speed
-- at the same rate and never exceeds a limit. The longer it takes the further it leads, so
-- each distance is covered by one climb alone, and that one takes the travel time.
import Mathlib.Analysis.SpecialFunctions.Integrals.Basic
import DroneShow.Proofs.Binary.Sum
import DroneShow.Proofs.Curve.Exact
import DroneShow.Proofs.Survey.Parts

namespace DroneShow.Climb

open Binary

variable {v a d s T : ℝ} {c : SurveyConfig} {x : Single}

/-! ## Climbs from rest to rest -/

/-- The speed at time `t` of a climb that takes `duration`. It is as high as the limit allows,
and as the rate allows at which it grows from rest and falls to rest again. -/
noncomputable def speedAt (limit acceleration duration t : ℝ) : ℝ :=
  min limit (min (acceleration * t) (acceleration * (duration - t)))

/-- How far the climb leads. -/
noncomputable def distance (limit acceleration duration : ℝ) : ℝ :=
  ∫ t in (0 : ℝ)..duration, speedAt limit acceleration duration t

/-- How far it leads in a first part of that length, as long as it does not slow down. -/
noncomputable def startDistance (limit acceleration length : ℝ) : ℝ :=
  ∫ t in (0 : ℝ)..length, min limit (acceleration * t)

theorem continuous_start (v a : ℝ) : Continuous fun t => min v (a * t) := by fun_prop

theorem continuous_speedAt (v a T : ℝ) : Continuous (speedAt v a T) := by
  unfold speedAt
  fun_prop

/-- It does not slow down before its middle. -/
theorem speedAt_start (ha : 0 ≤ a) {t : ℝ} (ht : t ≤ T / 2) : speedAt v a T t = min v (a * t) := by
  have hslower : a * t ≤ a * (T - t) := mul_le_mul_of_nonneg_left (by linarith) ha
  unfold speedAt
  rw [min_eq_left hslower]

/-- It slows down as it sped up. -/
theorem speedAt_mirror (v a T t : ℝ) : speedAt v a T (T - t) = speedAt v a T t := by
  unfold speedAt
  rw [sub_sub_cancel, min_comm (a * (T - t))]

/-- Both halves lead equally far. -/
theorem distance_eq (ha : 0 ≤ a) (hT : 0 ≤ T) :
    distance v a T = 2 * startDistance v a (T / 2) := by
  have hcont := continuous_speedAt v a T
  have hfirst : ∫ t in (0 : ℝ)..T / 2, speedAt v a T t = startDistance v a (T / 2) := by
    apply intervalIntegral.integral_congr
    intro t ht
    rw [Set.uIcc_of_le (by linarith)] at ht
    exact speedAt_start ha ht.2
  have hsecond : ∫ t in T / 2..T, speedAt v a T t = startDistance v a (T / 2) := by
    have hmirror := intervalIntegral.integral_comp_sub_left (a := 0) (b := T / 2) (speedAt v a T) T
    simp only [speedAt_mirror, sub_zero, sub_half] at hmirror
    rw [← hmirror, hfirst]
  calc distance v a T
      = (∫ t in (0 : ℝ)..T / 2, speedAt v a T t) + ∫ t in T / 2..T, speedAt v a T t :=
        (intervalIntegral.integral_add_adjacent_intervals (hcont.intervalIntegrable _ _)
          (hcont.intervalIntegrable _ _)).symm
    _ = 2 * startDistance v a (T / 2) := by
        rw [hfirst, hsecond]
        ring

/-! ## The start of a climb -/

/-- Until the limit is reached, speed grows at a steady rate. -/
theorem startDistance_short (ha : 0 < a) (hs : 0 ≤ s) (hshort : s ≤ v / a) :
    startDistance v a s = a * s ^ 2 / 2 := by
  have hramp : startDistance v a s = ∫ t in (0 : ℝ)..s, a * t := by
    apply intervalIntegral.integral_congr
    intro t ht
    rw [Set.uIcc_of_le hs] at ht
    have hbelow : a * t ≤ v := by
      rw [mul_comm]
      exact (le_div_iff₀ ha).mp (ht.2.trans hshort)
    exact min_eq_right hbelow
  rw [hramp, intervalIntegral.integral_const_mul, integral_id]
  ring

/-- From then on, it stays at the limit. -/
theorem startDistance_long (hv : 0 ≤ v) (ha : 0 < a) (hlong : v / a ≤ s) :
    startDistance v a s = v * s - v * v / a / 2 := by
  have hcont := continuous_start v a
  have hcruise : ∫ t in v / a..s, min v (a * t) = v * (s - v / a) := by
    have hlimit : ∫ t in v / a..s, min v (a * t) = ∫ _ in v / a..s, v := by
      apply intervalIntegral.integral_congr
      intro t ht
      rw [Set.uIcc_of_le hlong] at ht
      have habove : v ≤ a * t := by
        rw [mul_comm]
        exact (div_le_iff₀ ha).mp ht.1
      exact min_eq_left habove
    rw [hlimit, intervalIntegral.integral_const, smul_eq_mul, mul_comm]
  calc startDistance v a s
      = startDistance v a (v / a) + ∫ t in v / a..s, min v (a * t) :=
        (intervalIntegral.integral_add_adjacent_intervals (hcont.intervalIntegrable _ _)
          (hcont.intervalIntegrable _ _)).symm
    _ = a * (v / a) ^ 2 / 2 + v * (s - v / a) := by
        rw [startDistance_short ha (div_nonneg hv ha.le) le_rfl, hcruise]
    _ = v * s - v * v / a / 2 := by
        field_simp
        ring

/-- It is never still, so the longer it takes the further it leads. -/
theorem startDistance_strictMonoOn (hv : 0 < v) (ha : 0 < a) :
    StrictMonoOn (startDistance v a) (Set.Ici 0) := by
  intro s hs s' _ hlt
  have hcont := continuous_start v a
  have hpos : 0 < ∫ t in s..s', min v (a * t) := by
    apply intervalIntegral.intervalIntegral_pos_of_pos_on (hcont.intervalIntegrable _ _) _ hlt
    intro t ht
    exact lt_min hv (mul_pos ha (lt_of_le_of_lt hs ht.1))
  have hsplit : startDistance v a s + ∫ t in s..s', min v (a * t) = startDistance v a s' :=
    intervalIntegral.integral_add_adjacent_intervals (hcont.intervalIntegrable _ _)
      (hcont.intervalIntegrable _ _)
  linarith

theorem startDistance_le (v a : ℝ) (hs : 0 ≤ s) : startDistance v a s ≤ v * s := by
  calc startDistance v a s
      ≤ ∫ _ in (0 : ℝ)..s, v := by
        apply intervalIntegral.integral_mono_on hs ((continuous_start v a).intervalIntegrable _ _)
          intervalIntegrable_const
        intro t _
        exact min_le_left _ _
    _ = v * s := by rw [intervalIntegral.integral_const, sub_zero, smul_eq_mul, mul_comm]

/-! ## The time of a climb -/

theorem distance_strictMonoOn (hv : 0 < v) (ha : 0 < a) :
    StrictMonoOn (distance v a) (Set.Ici 0) := by
  intro T hT T' hT' hlt
  have hhalf : 0 ≤ T / 2 := div_nonneg hT zero_le_two
  have hhalf' : 0 ≤ T' / 2 := div_nonneg hT' zero_le_two
  have hstart := startDistance_strictMonoOn hv ha hhalf hhalf' (div_lt_div_of_pos_right hlt two_pos)
  rw [distance_eq ha.le hT, distance_eq ha.le hT']
  linarith

theorem distance_le (ha : 0 ≤ a) (hT : 0 ≤ T) : distance v a T ≤ v * T := by
  have hstart := startDistance_le v a (div_nonneg hT zero_le_two)
  rw [distance_eq ha hT]
  linarith

/-- The travel time in exact arithmetic. -/
noncomputable def exactTravelTime (speed : ℝ) (acceleration : Option ℝ) (distance : ℝ) : ℝ :=
  @travelTime ℝ (RootScalar.exact false).toSqrtScalar speed acceleration distance

theorem exactTravelTime_some : exactTravelTime v (some a) d =
    if d < v * v / a then 2 * √(d / a) else 2 * (v / a) + (d - v * v / a) / v := by
  have hswitch : 2 * (v * (v / a) / 2) = v * v / a := by ring
  have htime : exactTravelTime v (some a) d =
      if d < ((2 : ℕ) : ℝ) * (v * (v / a) / (2 : ℕ)) then ((2 : ℕ) : ℝ) * √(d / a)
      else ((2 : ℕ) : ℝ) * (v / a) + (d - ((2 : ℕ) : ℝ) * (v * (v / a) / (2 : ℕ))) / v := rfl
  rw [htime, Nat.cast_ofNat, hswitch]

/-- A climb that leads so far just reaches the limit. -/
theorem sqrt_switch (hv : 0 ≤ v) (ha : 0 ≤ a) : √(v * v / a / a) = v / a := by
  rw [show v * v / a / a = (v / a) * (v / a) by ring]
  exact Real.sqrt_mul_self (div_nonneg hv ha)

/-- Up to that distance, the time is that without a limit. -/
theorem exactTravelTime_short (hv : 0 < v) (ha : 0 < a) (hd : d ≤ v * v / a) :
    exactTravelTime v (some a) d = 2 * √(d / a) := by
  rw [exactTravelTime_some]
  rcases lt_or_eq_of_le hd with hlt | heq
  · rw [if_pos hlt]
  · rw [if_neg heq.not_lt, heq, sqrt_switch hv.le ha.le, sub_self, zero_div, add_zero]

theorem exactTravelTime_long (hd : v * v / a ≤ d) :
    exactTravelTime v (some a) d = 2 * (v / a) + (d - v * v / a) / v := by
  rw [exactTravelTime_some, if_neg (not_lt.mpr hd)]

theorem exactTravelTime_nonneg (hv : 0 < v) (ha : 0 < a) (d : ℝ) :
    0 ≤ exactTravelTime v (some a) d := by
  rcases le_total d (v * v / a) with hd | hd
  · rw [exactTravelTime_short hv ha hd]
    positivity
  · have hrest := sub_nonneg.mpr hd
    rw [exactTravelTime_long hd]
    positivity

/-- A climb of that time leads as far as it should. -/
theorem distance_exactTravelTime (hv : 0 < v) (ha : 0 < a) (hd : 0 ≤ d) :
    distance v a (exactTravelTime v (some a) d) = d := by
  rw [distance_eq ha.le (exactTravelTime_nonneg hv ha d)]
  rcases le_total d (v * v / a) with hle | hle
  · have hhalf : exactTravelTime v (some a) d / 2 = √(d / a) := by
      rw [exactTravelTime_short hv ha hle]
      ring
    have hshort : √(d / a) ≤ v / a := by
      rw [← sqrt_switch hv.le ha.le]
      exact Real.sqrt_le_sqrt (div_le_div_of_nonneg_right hle ha.le)
    rw [hhalf, startDistance_short ha (Real.sqrt_nonneg _) hshort,
      Real.sq_sqrt (div_nonneg hd ha.le)]
    field_simp
  · have hhalf : exactTravelTime v (some a) d / 2 = v / a + (d - v * v / a) / v / 2 := by
      rw [exactTravelTime_long hle]
      ring
    have hrest : 0 ≤ (d - v * v / a) / v / 2 :=
      div_nonneg (div_nonneg (sub_nonneg.mpr hle) hv.le) zero_le_two
    rw [hhalf, startDistance_long hv.le ha (le_add_of_nonneg_right hrest)]
    field_simp
    ring

/-- No other climb leads as far: a longer one leads further. -/
theorem eq_exactTravelTime (hv : 0 < v) (ha : 0 < a) (hd : 0 ≤ d) (hT : 0 ≤ T)
    (hcovers : distance v a T = d) : T = exactTravelTime v (some a) d := by
  apply (distance_strictMonoOn hv ha).injOn hT (exactTravelTime_nonneg hv ha d)
  rw [hcovers, distance_exactTravelTime hv ha hd]

theorem exactTravelTime_strictMonoOn (hv : 0 < v) (ha : 0 < a) :
    StrictMonoOn (exactTravelTime v (some a)) (Set.Ici 0) := by
  intro d hd d' hd' hlt
  apply ((distance_strictMonoOn hv ha).lt_iff_lt (exactTravelTime_nonneg hv ha d)
    (exactTravelTime_nonneg hv ha d')).mp
  rw [distance_exactTravelTime hv ha hd, distance_exactTravelTime hv ha hd']
  exact hlt

/-- At full speed throughout, it would take no longer. -/
theorem div_le_exactTravelTime (hv : 0 < v) (ha : 0 < a) (hd : 0 ≤ d) :
    d / v ≤ exactTravelTime v (some a) d := by
  have hle := distance_le (v := v) ha.le (exactTravelTime_nonneg hv ha d)
  rw [distance_exactTravelTime hv ha hd] at hle
  exact (div_le_iff₀' hv).mpr hle

/-! ## The law -/

/-- Valid limits of a climb are positive numbers, if speed is not there at once. -/
theorem exists_limits (hc : c.validate = .ok ()) (hx : c.acceleration = some x)
    (hfinite : x.isFinite = true) : ∃ v a : ℚ,
      c.takeoffSpeed.Represents v ∧ x.Represents a ∧ 0 < v ∧ 0 < a := by
  obtain ⟨hspeed, hacceleration, -⟩ := SurveyConfig.validate_eq_ok_iff.mp hc
  obtain ⟨hspeedFinite, hspeedPos⟩ : c.takeoffSpeed.isFinite = true ∧ 0 < c.takeoffSpeed := by
    simpa using hspeed
  obtain ⟨-, hpos⟩ : x.isNaN = false ∧ ¬ x ≤ 0 := by simpa [hx] using hacceleration
  obtain ⟨v, hv⟩ := exists_represents hspeedFinite
  obtain ⟨a, ha⟩ := exists_represents hfinite
  refine ⟨v, a, hv, ha, (lt_iff_of_represents Quantum.zero_represents hv).mp hspeedPos, ?_⟩
  rw [le_iff_of_represents ha Quantum.zero_represents] at hpos
  exact not_le.mp hpos

/-- The travel time solves the climb. With valid limits, and read exactly, it is the one time
in which a climb from rest to rest leads as far as the distance. Both formulas for it hold
where they meet; it grows with the distance, and is no less than at full speed throughout. -/
theorem travel_time_solves_the_climb (hc : c.validate = .ok ()) (hx : c.acceleration = some x)
    (hfinite : x.isFinite = true) : ∃ v a : ℚ,
      c.takeoffSpeed.Represents v ∧ x.Represents a ∧ 0 < v ∧ 0 < a ∧
      (∀ d : ℝ, 0 ≤ d → 0 ≤ exactTravelTime v (some ↑a) d ∧
        distance v a (exactTravelTime v (some ↑a) d) = d ∧
        (∀ T, 0 ≤ T → distance v a T = d → T = exactTravelTime v (some ↑a) d) ∧
        d / v ≤ exactTravelTime v (some ↑a) d) ∧
      (∀ d : ℝ, d ≤ v * v / a → exactTravelTime v (some ↑a) d = 2 * √(d / a)) ∧
      (∀ d : ℝ, v * v / a ≤ d →
        exactTravelTime v (some ↑a) d = 2 * (v / a) + (d - v * v / a) / v) ∧
      StrictMonoOn (exactTravelTime v (some ↑a)) (Set.Ici 0) := by
  obtain ⟨v, a, hspeed, hacceleration, hv, ha⟩ := exists_limits hc hx hfinite
  have hvR : (0 : ℝ) < v := by exact_mod_cast hv
  have haR : (0 : ℝ) < a := by exact_mod_cast ha
  refine ⟨v, a, hspeed, hacceleration, hv, ha, ?_, ?_, ?_, ?_⟩
  · intro d hd
    refine ⟨exactTravelTime_nonneg hvR haR d, distance_exactTravelTime hvR haR hd, ?_, ?_⟩
    · intro T hT hcovers
      exact eq_exactTravelTime hvR haR hd hT hcovers
    · exact div_le_exactTravelTime hvR haR hd
  · intro d hd
    exact exactTravelTime_short hvR haR hd
  · intro d hd
    exact exactTravelTime_long hd
  · exact exactTravelTime_strictMonoOn hvR haR

/-- Speeding up for two seconds and slowing down for two, with one at full speed between. -/
theorem a_climb_takes_five_seconds :
    ({ SurveyConfig.standard with takeoffSpeed := 2, acceleration := some 1 } :
      SurveyConfig).validate = .ok () ∧
    exactTravelTime 2 (some 1) 6 = 5 ∧ distance 2 1 5 = 6 ∧
    exactTravelTime 2 (some 1) 1 = 2 ∧ distance 2 1 2 = 1 := by
  have hvalid : ({ SurveyConfig.standard with takeoffSpeed := 2, acceleration := some 1 } :
      SurveyConfig).validate = .ok () := by decide
  obtain ⟨v, a, hspeed, hacceleration, -, -, hclimb, hshort, hlong, -⟩ :=
    travel_time_solves_the_climb hvalid rfl (by decide)
  have hexact : binary32.Exact 2 := by exact_mod_cast Quantum.exact_int (k := 2) (by decide)
  obtain rfl : v = 2 := hspeed.unique (two_represents hexact)
  obtain rfl : a = 1 := hacceleration.unique Quantum.one_represents
  have hfive := hlong 6 (by norm_num)
  have htwo := hshort 1 (by norm_num)
  obtain ⟨-, hsix, -⟩ := hclimb 6 (by norm_num)
  obtain ⟨-, hone, -⟩ := hclimb 1 (by norm_num)
  norm_num at hfive htwo hsix hone
  rw [hfive] at hsix
  rw [htwo] at hone
  exact ⟨hvalid, hfive, hsix, htwo, hone⟩

end DroneShow.Climb
