-- The extent of a curve in exact arithmetic. A curve has its greatest and its least value
-- at an end or where its slope is zero. Not all such places are looked at: two that are
-- close count as one. What this loses is less than what counts as zero.
import Mathlib.Analysis.Calculus.LocalExtr.Basic
import Mathlib.Topology.Order.Compact
import DroneShow.Curve.Crossing
import DroneShow.Proofs.Curve.Exact
import DroneShow.Proofs.Curve.Newton

namespace DroneShow

variable {f f' : ℝ → ℝ} {ε s t : ℝ} {xs ts : List ℝ} {negativeZero : Bool}

/-! ## Greatest and least values -/

/-- A function is nowhere in the unit interval much greater than at the best of some places,
if these have its ends and come near each value that it takes with slope zero. -/
theorem exists_greater (hf : ∀ t, HasDerivAt f (f' t) t) (h0 : 0 ∈ xs) (h1 : 1 ∈ xs)
    (hε : 0 ≤ ε) (hnear : ∀ t, 0 < t → t < 1 → f' t = 0 → ∃ x ∈ xs, |f x - f t| ≤ ε)
    (hs : 0 ≤ s) (hs' : s ≤ 1) : ∃ x ∈ xs, f s ≤ f x + ε := by
  have hcontinuous : ContinuousOn f (Set.Icc 0 1) :=
    fun t _ => (hf t).continuousAt.continuousWithinAt
  obtain ⟨m, ⟨hm, hm'⟩, hmax⟩ :=
    isCompact_Icc.exists_isMaxOn (Set.nonempty_Icc.mpr zero_le_one) hcontinuous
  have hle : f s ≤ f m := hmax ⟨hs, hs'⟩
  rcases hm.eq_or_lt with rfl | hpos
  · exact ⟨0, h0, by linarith⟩
  rcases hm'.eq_or_lt with rfl | hlt
  · exact ⟨1, h1, by linarith⟩
  have hlocal : IsLocalMax f m := hmax.isLocalMax (Icc_mem_nhds hpos hlt)
  obtain ⟨x, hx, hxm⟩ := hnear m hpos hlt (hlocal.hasDerivAt_eq_zero (hf m))
  rw [abs_le] at hxm
  exact ⟨x, hx, by linarith⟩

theorem exists_less (hf : ∀ t, HasDerivAt f (f' t) t) (h0 : 0 ∈ xs) (h1 : 1 ∈ xs)
    (hε : 0 ≤ ε) (hnear : ∀ t, 0 < t → t < 1 → f' t = 0 → ∃ x ∈ xs, |f x - f t| ≤ ε)
    (hs : 0 ≤ s) (hs' : s ≤ 1) : ∃ x ∈ xs, f x - ε ≤ f s := by
  have hneg : ∀ t, HasDerivAt (fun t => -f t) (-f' t) t := fun t => (hf t).neg
  have hnear' : ∀ t, 0 < t → t < 1 → -f' t = 0 → ∃ x ∈ xs, |-f x - -f t| ≤ ε := by
    intro t ht ht' hzero
    obtain ⟨x, hx, hxt⟩ := hnear t ht ht' (neg_eq_zero.mp hzero)
    refine ⟨x, hx, ?_⟩
    rwa [neg_sub_neg, abs_sub_comm]
  obtain ⟨x, hx, hle⟩ := exists_greater hneg h0 h1 hε hnear' hs hs'
  exact ⟨x, hx, by linarith⟩

/-! ## Intervals of values -/

namespace Interval

variable {i : Interval ℝ}

/-- The bounds are the least and the greatest value at some places. -/
structure Spans (i : Interval ℝ) (f : ℝ → ℝ) (xs : List ℝ) : Prop where
  bounds : ∀ x ∈ xs, i.min ≤ f x ∧ f x ≤ i.max
  least : ∃ x ∈ xs, f x = i.min
  greatest : ∃ x ∈ xs, f x = i.max

/-- The least interval of two values. -/
noncomputable def exactBetween (a b : ℝ) : Interval ℝ := @between ℝ (Scalar.exact ℝ) a b

noncomputable def exactIncluding (i : Interval ℝ) (value : ℝ) : Interval ℝ :=
  @including ℝ (Scalar.exact ℝ) i value

theorem exactBetween_eq (a b : ℝ) : exactBetween a b = ⟨Min.min a b, Max.max a b⟩ := rfl

theorem exactIncluding_eq (value : ℝ) :
    i.exactIncluding value = ⟨Min.min i.min value, Max.max i.max value⟩ := rfl

theorem spans_between (f : ℝ → ℝ) (s t : ℝ) : (exactBetween (f s) (f t)).Spans f [s, t] := by
  rw [exactBetween_eq]
  constructor
  · simp
  · rcases min_choice (f s) (f t) with h | h <;> simp [h]
  · rcases max_choice (f s) (f t) with h | h <;> simp [h]

theorem Spans.including (h : i.Spans f xs) (t : ℝ) :
    (i.exactIncluding (f t)).Spans f (t :: xs) := by
  obtain ⟨x, hx, hleast⟩ := h.least
  obtain ⟨y, hy, hgreatest⟩ := h.greatest
  rw [exactIncluding_eq]
  constructor
  · refine List.forall_mem_cons.mpr ⟨⟨min_le_right _ _, le_max_right _ _⟩, ?_⟩
    intro z hz
    obtain ⟨hlow, hhigh⟩ := h.bounds z hz
    exact ⟨min_le_of_left_le hlow, le_max_of_le_left hhigh⟩
  · rcases min_choice i.min (f t) with hmin | hmin
    · exact ⟨x, List.mem_cons_of_mem t hx, hleast.trans hmin.symm⟩
    · exact ⟨t, List.mem_cons_self, hmin.symm⟩
  · rcases max_choice i.max (f t) with hmax | hmax
    · exact ⟨y, List.mem_cons_of_mem t hy, hgreatest.trans hmax.symm⟩
    · exact ⟨t, List.mem_cons_self, hmax.symm⟩

/-- One place after the other, an interval comes to span all of them. -/
theorem Spans.foldl (h : i.Spans f xs) (ts : List ℝ) :
    (ts.foldl (fun i t => i.exactIncluding (f t)) i).Spans f (ts.reverse ++ xs) := by
  induction ts generalizing i xs with
  | nil => exact h
  | cons t ts ih =>
    rw [List.foldl_cons, List.reverse_cons, List.append_assoc]
    exact ih (h.including t)

/-- The number lies in the interval, up to what counts as zero. -/
def Holds (i : Interval ℝ) (x : ℝ) : Prop :=
  i.min - Poly.exactNegligible ≤ x ∧ x ≤ i.max + Poly.exactNegligible

/-- The interval holds all values of a function on the unit interval, and its bounds are
such values. -/
structure Tight (i : Interval ℝ) (f : ℝ → ℝ) : Prop where
  ordered : i.min ≤ i.max
  holds : ∀ t, 0 ≤ t → t ≤ 1 → i.Holds (f t)
  least : ∃ t, 0 ≤ t ∧ t ≤ 1 ∧ f t = i.min
  greatest : ∃ t, 0 ≤ t ∧ t ≤ 1 ∧ f t = i.max

end Interval

/-! ## The roots of a slope -/

namespace Roots

variable {a b c : ℤ}

/-- The candidates for the roots of a quadratic. -/
noncomputable def exactQuadratic (negativeZero : Bool) (a b c : ℝ) : List ℝ :=
  @quadratic ℝ (RootScalar.exact negativeZero) a b c

theorem exactQuadratic_eq (a b c : ℝ) : exactQuadratic negativeZero a b c =
    if |b * b - 4 * a * c| ≤ 1 / 10 ^ 9 * max (max (b * b) |4 * a * c|) (1 / 2 ^ 1022) then
      [-b / (2 * a)]
    else if 0 < b * b - 4 * a * c then
      [-(5 / 10) * (b + exactSignum negativeZero b * √(b * b - 4 * a * c)) / a,
        c / (-(5 / 10) * (b + exactSignum negativeZero b * √(b * b - 4 * a * c)))]
    else [] := by
  have hraw : exactQuadratic negativeZero a b c =
      if decide (|b * b - (4 : ℕ) * a * c| ≤
          (1 : ℕ) / 10 ^ 9 * max (max (b * b) |(4 : ℕ) * a * c|) (1 / (2 : ℕ) ^ 1022)) = true then
        [-b / ((2 : ℕ) * a)]
      else if (0 : ℕ) < b * b - (4 : ℕ) * a * c then
        [-((5 : ℕ) / 10 ^ 1) * (b + exactSignum negativeZero b * √(b * b - (4 : ℕ) * a * c)) / a,
          c / (-((5 : ℕ) / 10 ^ 1) * (b + exactSignum negativeZero b * √(b * b - (4 : ℕ) * a * c)))]
      else [] := rfl
  rw [hraw]
  simp only [decide_eq_true_eq, Nat.cast_zero, Nat.cast_one, Nat.cast_ofNat, pow_one]

/-- With the sign of `b`, neither sum nor product cancels: each root is one of the two. -/
theorem mem_of_root {x y z σ ρ : ℝ} (hx : x ≠ 0) (hroot : x * t ^ 2 + y * t + z = 0)
    (hσ : σ ^ 2 = 1) (hsign : σ * y = |y|) (hρ : 0 < ρ) (hsquare : ρ ^ 2 = (2 * x * t + y) ^ 2) :
    t = -(5 / 10) * (y + σ * ρ) / x ∨ t = z / (-(5 / 10) * (y + σ * ρ)) := by
  have hsum : 0 < σ * (y + σ * ρ) := by
    have hexpand : σ * (y + σ * ρ) = |y| + ρ := by linear_combination hsign + ρ * hσ
    rw [hexpand]
    positivity
  have hfactors : (2 * x * t + y + σ * ρ) * (2 * x * t + y - σ * ρ) = 0 := by
    linear_combination -hsquare - ρ ^ 2 * hσ
  rcases mul_eq_zero.mp hfactors with hminus | hplus
  · left
    rw [eq_div_iff hx]
    linarith
  · right
    have hne : -(5 / 10) * (y + σ * ρ) ≠ 0 :=
      mul_ne_zero (by norm_num) (right_ne_zero_of_mul hsum.ne')
    rw [eq_div_iff hne]
    linear_combination t / 2 * hplus - hroot

/-- A discriminant counts as zero only where it is tiny beside the square of the middle
coefficient, by the integers between. -/
theorem discriminant_small {least : ℝ} (hpos : 0 ≤ b * b - 4 * a * c) (hleast : least ≤ 1)
    (hsmall : |(b * b - 4 * a * c : ℝ)| ≤
      1 / 10 ^ 9 * max (max (b * b : ℝ) |(4 * a * c : ℝ)|) least) :
    (b * b - 4 * a * c : ℝ) ≤ b ^ 2 / 10 ^ 9 := by
  rcases hpos.eq_or_lt with hzero | hlt
  · have hzero' : (b * b - 4 * a * c : ℝ) = 0 := by exact_mod_cast hzero.symm
    rw [hzero']
    positivity
  have hone : (1 : ℝ) ≤ b * b - 4 * a * c := by exact_mod_cast hlt
  rw [abs_of_pos (by linarith)] at hsmall
  rcases max_choice (max (b * b : ℝ) |(4 * a * c : ℝ)|) least with hmax | hmax
  · rcases max_choice (b * b : ℝ) |(4 * a * c : ℝ)| with hmax' | hmax'
    · rw [hmax, hmax'] at hsmall
      linarith
    · rw [hmax, hmax'] at hsmall
      have hle : (b * b : ℝ) ≤ |(4 * a * c : ℝ)| := by
        rw [← hmax']
        exact le_max_left _ _
      rcases abs_cases (4 * a * c : ℝ) with ⟨habs, -⟩ | ⟨habs, -⟩
      · rw [habs] at hle
        linarith
      · rw [habs] at hsmall
        nlinarith [mul_self_nonneg (b : ℝ)]
  · rw [hmax] at hsmall
    linarith

/-- Each root of a quadratic is among the candidates, or it is so close to the other one that
the place between them is. -/
theorem root_mem_exactQuadratic (negativeZero : Bool) (ha : a ≠ 0)
    (hroot : (a : ℝ) * t ^ 2 + b * t + c = 0) :
    t ∈ exactQuadratic negativeZero a b c ∨
      (-b / (2 * a) : ℝ) ∈ exactQuadratic negativeZero a b c ∧
        (2 * a * t + b) ^ 2 ≤ (b : ℝ) ^ 2 / 10 ^ 9 := by
  have haR : (a : ℝ) ≠ 0 := by exact_mod_cast ha
  have hsquare : (b * b - 4 * a * c : ℝ) = (2 * a * t + b) ^ 2 := by
    linear_combination -4 * a * hroot
  have hpos : 0 ≤ b * b - 4 * a * c := by
    have hposR : (0 : ℝ) ≤ b * b - 4 * a * c := hsquare ▸ sq_nonneg _
    exact_mod_cast hposR
  rw [exactQuadratic_eq]
  split
  · rename_i hsmall
    right
    rw [← hsquare]
    refine ⟨List.mem_singleton_self _, discriminant_small hpos ?_ hsmall⟩
    exact (div_le_one (by positivity)).mpr (one_le_pow₀ one_le_two)
  · rename_i hlarge
    left
    have hlt : (0 : ℝ) < b * b - 4 * a * c := by
      rw [hsquare]
      refine lt_of_le_of_ne (sq_nonneg _) ?_
      intro hzero
      apply hlarge
      rw [hsquare, ← hzero, abs_zero]
      positivity
    obtain ⟨hσ, hsign⟩ := exactSignum_spec negativeZero (b : ℝ)
    have hmem := mem_of_root haR hroot hσ hsign (Real.sqrt_pos.mpr hlt)
      (by rw [Real.sq_sqrt hlt.le, hsquare])
    rw [if_pos hlt]
    simpa using hmem

theorem mem_kept {ts : List ℝ} : t ∈ @sort ℝ (RootScalar.exact negativeZero)
    (ts.filter (Scalar.exact ℝ).isFinite) ↔ t ∈ ts := by
  rw [@mem_sort ℝ (RootScalar.exact negativeZero), List.mem_filter]
  exact and_iff_left rfl

theorem exists_ofCoeffs_line (negativeZero : Bool) (c0 c1 : ℝ) :
    ∃ ts, @ofCoeffs ℝ (RootScalar.exact negativeZero) [c0, c1] = .ok ts ∧
      ∀ t, t ∈ ts ↔ t = -c0 / c1 :=
  ⟨_, rfl, fun _ => mem_kept.trans List.mem_singleton⟩

theorem exists_ofCoeffs_quadratic (negativeZero : Bool) (a b c : ℝ) :
    ∃ ts, @ofCoeffs ℝ (RootScalar.exact negativeZero) [c, b, a] = .ok ts ∧
      ∀ t, t ∈ ts ↔ t ∈ exactQuadratic negativeZero a b c :=
  ⟨_, rfl, fun _ => mem_kept⟩

end Roots

namespace Poly

open Roots (exactQuadratic exists_ofCoeffs_line exists_ofCoeffs_quadratic root_mem_exactQuadratic)

variable {p : Poly ℝ} {cs ds : List ℤ}

/-! ## Turning points -/

/-- The parameters strictly inside the unit interval at which the slope is zero. -/
noncomputable def exactTurningPoints (negativeZero : Bool) (p : Poly ℝ) : Except Fault (List ℝ) :=
  @turningPoints ℝ ℝ (Scalar.exact ℝ) (RootScalar.exact negativeZero) (Widening.exact ℝ) p

/-- The extent over the unit interval. -/
noncomputable def exactExtent (negativeZero : Bool) (p : Poly ℝ) : Except Fault (Interval ℝ) :=
  @extent ℝ ℝ (Scalar.exact ℝ) (RootScalar.exact negativeZero) (Widening.exact ℝ) p

theorem exactExtent_eq (negativeZero : Bool) (p : Poly ℝ) : exactExtent negativeZero p =
    if p.exactSignificant.length ≤ 2 then .ok (.exactBetween (p.exactEval 0) (p.exactEval 1))
    else (exactTurningPoints negativeZero p).map fun ts =>
      ts.foldl (fun i t => i.exactIncluding (p.exactEval t))
        (.exactBetween (p.exactEval 0) (p.exactEval 1)) := by
  rw [← Scalar.exact_zero, ← Scalar.exact_one]
  rfl

theorem exactTurningPoints_eq (negativeZero : Bool) (p : Poly ℝ) :
    exactTurningPoints negativeZero p =
      (@rootsWide ℝ ℝ (Scalar.exact ℝ) (RootScalar.exact negativeZero) (Widening.exact ℝ)
        p.exactDerivative 0).map fun ts => ts.filter fun t => decide (0 < t) && decide (t < 1) := by
  rw [← Scalar.exact_zero, ← Scalar.exact_one]
  rfl

theorem Exactly.rootsWide (h : p.Exactly ds) :
    @rootsWide ℝ ℝ (Scalar.exact ℝ) (RootScalar.exact negativeZero) (Widening.exact ℝ) p 0 =
      @Roots.ofCoeffs ℝ (RootScalar.exact negativeZero) ((trimmed ds).map (↑)) := by
  have hsignificant := h.significant
  unfold exactSignificant at hsignificant
  unfold Poly.rootsWide equation
  rw [hsignificant, List.map_map]
  cases trimmed ds with
  | nil => rfl
  | cons d ds =>
    show @Roots.ofCoeffs ℝ (RootScalar.exact negativeZero) (((d : ℝ) - 0) :: ds.map (↑)) = _
    rw [sub_zero]
    rfl

/-- Where the slope is zero inside the unit interval, the value is near one at the ends or
at one of the places found. -/
structure Turns (cs : List ℤ) (ts : List ℝ) : Prop where
  inside : ∀ t ∈ ts, 0 < t ∧ t < 1
  near : ∀ t, 0 < t → t < 1 → wholeValue (wholeSlope cs) t = 0 →
    ∃ x ∈ ts.reverse ++ [0, 1], |wholeValue cs x - wholeValue cs t| ≤ exactNegligible

theorem turns_trimmed_iff : Turns (trimmed cs) ts ↔ Turns cs ts := by
  have hslope : ∀ t, wholeValue (wholeSlope (trimmed cs)) t = wholeValue (wholeSlope cs) t := by
    intro t
    rw [← trimmed_wholeSlope, wholeValue_trimmed]
  constructor
  · rintro ⟨hinside, hnear⟩
    exact ⟨hinside, by simpa only [hslope, wholeValue_trimmed] using hnear⟩
  · rintro ⟨hinside, hnear⟩
    exact ⟨hinside, by simpa only [hslope, wholeValue_trimmed] using hnear⟩

/-- Between two places where the slope of a cubic is zero, it changes by little if these
are close. -/
theorem cubic_near {a b c x v : ℝ} (ha : |a| ≤ 10 ^ 8) (hroot : a * t ^ 2 + b * t + c = 0)
    (hv : 2 * a * v + b = 0) (hx : |x - t| ≤ |v - t|) (hclose : |v - t| ≤ 1 / 30000) :
    |(a / 3 * x ^ 3 + b / 2 * x ^ 2 + c * x) - (a / 3 * t ^ 3 + b / 2 * t ^ 2 + c * t)| ≤
      1 / 10 ^ 5 := by
  have hdiff : (a / 3 * x ^ 3 + b / 2 * x ^ 2 + c * x) - (a / 3 * t ^ 3 + b / 2 * t ^ 2 + c * t) =
      a * (x - t) ^ 2 * ((x - t) / 3 - (v - t)) := by
    linear_combination (x - t) * hroot + (x - t) ^ 2 / 2 * hv
  have hfirst : |a * (x - t) ^ 2| ≤ 10 ^ 8 * (1 / 30000) ^ 2 := by
    rw [abs_mul, abs_pow]
    gcongr
    exact hx.trans hclose
  have hsecond : |(x - t) / 3 - (v - t)| ≤ 1 / 30000 / 3 + 1 / 30000 := by
    refine (abs_sub _ _).trans ?_
    rw [abs_div, abs_of_pos (three_pos : (0 : ℝ) < 3)]
    gcongr
    exact hx.trans hclose
  rw [hdiff, abs_mul]
  calc |a * (x - t) ^ 2| * |(x - t) / 3 - (v - t)|
      ≤ 10 ^ 8 * (1 / 30000) ^ 2 * (1 / 30000 / 3 + 1 / 30000) := by gcongr
    _ ≤ 1 / 10 ^ 5 := by norm_num

/-- A root inside the unit interval is near the vertex if the discriminant is tiny. -/
theorem vertex_near {a b v : ℝ} (ha : a ≠ 0) (ht : 0 < t) (ht' : t < 1) (hv : 2 * a * v + b = 0)
    (hsmall : (2 * a * t + b) ^ 2 ≤ b ^ 2 / 10 ^ 9) : |v - t| ≤ 1 / 30000 := by
  have hsquare : (v - t) ^ 2 ≤ v ^ 2 / 10 ^ 9 := by
    have hb : b = -(2 * a * v) := by linarith
    have hpos : 0 < (2 * a) ^ 2 := by positivity
    rw [hb] at hsmall
    have hscaled : (2 * a) ^ 2 * (v - t) ^ 2 ≤ (2 * a) ^ 2 * (v ^ 2 / 10 ^ 9) := by
      linarith
    exact le_of_mul_le_mul_left hscaled hpos
  have hv' : |v| ≤ 1 + |v - t| := by
    have htri := abs_sub_abs_le_abs_sub v t
    rw [abs_of_pos ht] at htri
    linarith
  by_contra hfar
  rw [not_le] at hfar
  rw [← sq_abs (v - t), ← sq_abs v] at hsquare
  nlinarith [abs_nonneg v, abs_nonneg (v - t)]

/-- The roots strictly inside the unit interval. -/
noncomputable def insideOnly (ts : List ℝ) : List ℝ :=
  ts.filter fun t => decide (0 < t) && decide (t < 1)

theorem mem_insideOnly : t ∈ insideOnly ts ↔ t ∈ ts ∧ 0 < t ∧ t < 1 := by
  simp [insideOnly, List.mem_filter]

theorem near_of_found (f : ℝ → ℝ) (hfound : t ∈ ts) (ht : 0 < t) (ht' : t < 1) :
    ∃ x ∈ (insideOnly ts).reverse ++ [0, 1], |f x - f t| ≤ exactNegligible := by
  refine ⟨t, by simp [mem_insideOnly, hfound, ht, ht'], ?_⟩
  rw [sub_self, abs_zero]
  exact exactNegligible_pos.le

/-- The places are sought on the significant part of the slope. -/
theorem Exactly.turningPoints (h : p.Exactly cs) (hcs : 2 ≤ cs.length) :
    exactTurningPoints negativeZero p =
      (@Roots.ofCoeffs ℝ (RootScalar.exact negativeZero)
        ((wholeSlope (trimmed cs)).map (↑))).map insideOnly := by
  rw [exactTurningPoints_eq, (h.derivative hcs).rootsWide, trimmed_wholeSlope]
  rfl

/-! ## Turning points by degree -/

theorem turns_of_line (hdegree : (trimmed cs).length ≤ 2) : Turns cs [] := by
  rw [← turns_trimmed_iff]
  refine ⟨by simp, ?_⟩
  intro t _ _ hzero
  refine ⟨0, by simp, ?_⟩
  have hconstant : wholeValue (trimmed cs) 0 = wholeValue (trimmed cs) t := by
    generalize trimmed cs = es at *
    match es, hdegree with
    | [], _ => rfl
    | [c0], _ => simp
    | [c0, c1], _ =>
      have hc1 : c1 = 0 := by simpa [wholeSlope, wholeWeighted] using hzero
      simp [hc1]
  rw [hconstant, sub_self, abs_zero]
  exact exactNegligible_pos.le

theorem turns_of_quadratic (negativeZero : Bool) (c0 c1 : ℤ) {c2 : ℤ} (hc2 : c2 ≠ 0) :
    ∃ ts, @Roots.ofCoeffs ℝ (RootScalar.exact negativeZero)
      ((wholeSlope [c0, c1, c2]).map (↑)) = .ok ts ∧ Turns [c0, c1, c2] (insideOnly ts) := by
  obtain ⟨ts, hts, hmem⟩ := exists_ofCoeffs_line negativeZero
    ((1 * c1 : ℤ) : ℝ) (((1 + 1) * c2 : ℤ) : ℝ)
  refine ⟨ts, hts, fun t ht => (mem_insideOnly.mp ht).2, ?_⟩
  intro t ht ht' hzero
  have hroot : t = -((1 * c1 : ℤ) : ℝ) / (((1 + 1) * c2 : ℤ) : ℝ) := by
    have hne : (((1 + 1) * c2 : ℤ) : ℝ) ≠ 0 := by exact_mod_cast mul_ne_zero two_ne_zero hc2
    rw [eq_div_iff hne]
    simp only [wholeSlope, List.tail_cons, wholeWeighted, wholeValue_cons, wholeValue_nil] at hzero
    linarith
  exact near_of_found _ ((hmem t).mpr hroot) ht ht'

/-- Of a place that was found, the unit interval has at least its nearer end. -/
theorem exists_nearer {v : ℝ} (hv : v ∈ ts) (ht : 0 < t) (ht' : t < 1) :
    ∃ x ∈ (insideOnly ts).reverse ++ [0, 1], |x - t| ≤ |v - t| := by
  by_cases hlow : v ≤ 0
  · refine ⟨0, by simp, ?_⟩
    rw [abs_of_neg (by linarith), abs_of_neg (by linarith)]
    linarith
  · by_cases hhigh : 1 ≤ v
    · refine ⟨1, by simp, ?_⟩
      rw [abs_of_pos (by linarith), abs_of_pos (by linarith)]
      linarith
    · rw [not_le] at hlow hhigh
      exact ⟨v, by simp [mem_insideOnly, hv, hlow, hhigh], le_rfl⟩

theorem turns_of_cubic (negativeZero : Bool) (c0 c1 c2 : ℤ) {c3 : ℤ} (hc3 : c3 ≠ 0)
    (hsize : |c3| ≤ 33292288) :
    ∃ ts, @Roots.ofCoeffs ℝ (RootScalar.exact negativeZero)
      ((wholeSlope [c0, c1, c2, c3]).map (↑)) = .ok ts ∧
        Turns [c0, c1, c2, c3] (insideOnly ts) := by
  have hslope : wholeSlope [c0, c1, c2, c3] = [c1, 2 * c2, 3 * c3] := by
    simp [wholeSlope, wholeWeighted]
  have ha : 3 * c3 ≠ 0 := mul_ne_zero three_ne_zero hc3
  have haR : ((3 * c3 : ℤ) : ℝ) ≠ 0 := by exact_mod_cast ha
  have hbound : |((3 * c3 : ℤ) : ℝ)| ≤ 10 ^ 8 := by
    have hle : |3 * c3| ≤ 10 ^ 8 := by
      rw [abs_mul]
      norm_num
      omega
    exact_mod_cast hle
  obtain ⟨ts, hts, hmem⟩ := exists_ofCoeffs_quadratic negativeZero
    ((3 * c3 : ℤ) : ℝ) ((2 * c2 : ℤ) : ℝ) c1
  rw [hslope]
  refine ⟨ts, hts, fun t ht => (mem_insideOnly.mp ht).2, ?_⟩
  intro t ht ht' hzero
  have hroot : ((3 * c3 : ℤ) : ℝ) * t ^ 2 + ((2 * c2 : ℤ) : ℝ) * t + c1 = 0 := by
    rw [hslope] at hzero
    simp only [wholeValue_cons, wholeValue_nil] at hzero
    linarith
  rcases root_mem_exactQuadratic negativeZero ha hroot with hfound | ⟨hfound, hsmall⟩
  · exact near_of_found _ ((hmem t).mpr hfound) ht ht'
  · obtain ⟨v, hv⟩ : ∃ v : ℝ, v = -((2 * c2 : ℤ) : ℝ) / (2 * ((3 * c3 : ℤ) : ℝ)) := ⟨_, rfl⟩
    have hvertex : 2 * ((3 * c3 : ℤ) : ℝ) * v + ((2 * c2 : ℤ) : ℝ) = 0 := by
      rw [hv, mul_div_cancel₀ _ (mul_ne_zero two_ne_zero haR), neg_add_cancel]
    rw [← hv] at hfound
    obtain ⟨x, hx, hnearer⟩ := exists_nearer ((hmem v).mpr hfound) ht ht'
    have hnear := cubic_near hbound hroot hvertex hnearer (vertex_near haR ht ht' hvertex hsmall)
    refine ⟨x, hx, ?_⟩
    rw [exactNegligible_eq]
    convert hnear using 2
    simp only [wholeValue_cons, wholeValue_nil]
    push_cast
    ring

theorem Exactly.exists_turns (negativeZero : Bool) (h : p.Exactly cs) (hlen : cs.length ≤ 4)
    (hsize : |cs.getD 3 0| ≤ 33292288) (hcurved : 2 < (trimmed cs).length) :
    ∃ ts, exactTurningPoints negativeZero p = .ok ts ∧ Turns cs ts := by
  have hle : (trimmed cs).length ≤ 4 := (length_trimmed_le cs).trans hlen
  have hlast : ∀ hne : trimmed cs ≠ [], (trimmed cs).getLast hne ≠ 0 :=
    fun hne => getLast_trimmed hne
  have hturns : ∀ {ts}, Turns (trimmed cs) ts → Turns cs ts := turns_trimmed_iff.mp
  rw [← getD_trimmed] at hsize
  rw [h.turningPoints (hcurved.le.trans (length_trimmed_le cs))]
  generalize trimmed cs = es at *
  match es, hcurved, hle with
  | [c0, c1, c2], _, _ =>
    obtain ⟨ts, hts, hturn⟩ := turns_of_quadratic negativeZero c0 c1 (by simpa using hlast)
    rw [hts]
    exact ⟨_, rfl, hturns hturn⟩
  | [c0, c1, c2, c3], _, _ =>
    obtain ⟨ts, hts, hturn⟩ := turns_of_cubic negativeZero c0 c1 c2 (by simpa using hlast)
      (by simpa using hsize)
    rw [hts]
    exact ⟨_, rfl, hturns hturn⟩

/-- Places of which the ends are two and the others turning points span a tight extent. -/
theorem Turns.tight {i : Interval ℝ} (h : Turns cs ts)
    (hspans : i.Spans (wholeValue cs) (ts.reverse ++ [0, 1])) : i.Tight (wholeValue cs) := by
  have hmem : ∀ x ∈ ts.reverse ++ [0, 1], 0 ≤ x ∧ x ≤ 1 := by
    intro x hx
    rcases List.mem_append.mp hx with hx | hx
    · obtain ⟨hpos, hlt⟩ := h.inside x (List.mem_reverse.mp hx)
      exact ⟨hpos.le, hlt.le⟩
    · rcases List.mem_pair.mp hx with rfl | rfl <;> simp
  constructor
  · obtain ⟨x, hx, hmin⟩ := hspans.least
    rw [← hmin]
    exact (hspans.bounds x hx).2
  · intro t ht ht'
    have h0 : (0 : ℝ) ∈ ts.reverse ++ [0, 1] := by simp
    have h1 : (1 : ℝ) ∈ ts.reverse ++ [0, 1] := by simp
    have hε := exactNegligible_pos.le
    obtain ⟨x, hx, hlow⟩ := exists_less (hasDerivAt_wholeValue cs) h0 h1 hε h.near ht ht'
    obtain ⟨y, hy, hhigh⟩ := exists_greater (hasDerivAt_wholeValue cs) h0 h1 hε h.near ht ht'
    have hbelow := (hspans.bounds x hx).1
    have habove := (hspans.bounds y hy).2
    exact ⟨by linarith, by linarith⟩
  · obtain ⟨x, hx, hmin⟩ := hspans.least
    exact ⟨x, (hmem x hx).1, (hmem x hx).2, hmin⟩
  · obtain ⟨x, hx, hmax⟩ := hspans.greatest
    exact ⟨x, (hmem x hx).1, (hmem x hx).2, hmax⟩

theorem Exactly.extent (negativeZero : Bool) (h : p.Exactly cs) (hlen : cs.length ≤ 4)
    (hsize : |cs.getD 3 0| ≤ 33292288) :
    ∃ i, exactExtent negativeZero p = .ok i ∧ i.Tight (wholeValue cs) := by
  have hspans := (Interval.spans_between (wholeValue cs) 0 1).foldl
  rw [exactExtent_eq, h.significant, List.length_map]
  simp only [h.eval]
  split
  · rename_i hline
    exact ⟨_, rfl, (turns_of_line hline).tight (hspans [])⟩
  · rename_i hcurved
    obtain ⟨ts, hts, hturns⟩ := h.exists_turns negativeZero hlen hsize (not_le.mp hcurved)
    rw [hts]
    exact ⟨_, rfl, hturns.tight (hspans ts)⟩

/-! ## Curves -/

variable {ks : List ℤ}

theorem abs_third_le (hlen : ks.length ≤ 4) (hks : ∀ k ∈ ks, |k| ≤ 32768 * 127) :
    |(wholeCoeffs ks).getD 3 0| ≤ 33292288 := by
  match ks, hlen with
  | [], _ => simp [wholeCoeffs]
  | [a], _ => simp [wholeCoeffs_one]
  | [a, b], _ => simp [wholeCoeffs_two]
  | [a, b, c], _ => simp [wholeCoeffs_three]
  | [a, b, c, d], _ =>
    simp only [List.forall_mem_cons, abs_le] at hks
    simp only [wholeCoeffs_four, List.getD_cons_succ, List.getD_cons_zero, abs_le]
    omega

/-- The extent of the power form of a curve is that of the curve. -/
theorem exists_tight (negativeZero : Bool) (hpos : ks ≠ []) (hlen : ks.length ≤ 4)
    (hks : ∀ k ∈ ks, |k| ≤ 32768 * 127) (h : p.Exactly (wholeCoeffs ks)) :
    ∃ i, exactExtent negativeZero p = .ok i ∧ i.Tight (Bezier.curve (ks.map (↑))) := by
  have hcurve : Bezier.curve (ks.map (↑)) = wholeValue (wholeCoeffs ks) :=
    funext (curve_eq_power hpos hlen)
  rw [hcurve]
  exact h.extent negativeZero (by rwa [length_wholeCoeffs]) (abs_third_le hlen hks)

end Poly

end DroneShow
