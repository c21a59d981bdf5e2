-- Where a curve crosses a value. A curve that clearly crosses a value is found to reach it, at
-- a place where it is within one of it, if it is below the third degree or its roots keep apart.
-- Where they do not, the closed form for the third degree loses crossings: its test for equal
-- roots looks at the size of all roots, and the steps that improve a root lead away from where
-- several of them meet.
import DroneShow.Proofs.Curve.CubeRoots
import DroneShow.Proofs.Curve.Reach
import DroneShow.Proofs.Curve.Separation

namespace DroneShow

open Binary

namespace Poly

variable {p : Poly Single} {cs : List ℤ} {value t : Single} {z : Double} {τ q : ℚ} {v : ℤ}

/-! ## From a root to an answer -/

theorem clampUnit_represents (ht : t.Represents q) :
    (clampUnit t).Represents (min (max q 0) 1) := by
  have hzero := Quantum.zero_represents
  have hone := Quantum.one_represents
  have hlow : (if t < 0 then 0 else t).Represents (max q 0) := by
    by_cases hq : q < 0
    · rw [if_pos ((lt_iff_of_represents ht hzero).mpr hq), max_eq_right hq.le]
      exact hzero
    · rw [if_neg (mt (lt_iff_of_represents ht hzero).mp hq), max_eq_left (not_lt.mp hq)]
      exact ht
  unfold clampUnit
  simp only
  by_cases hq : 1 < max q 0
  · rw [if_pos ((lt_iff_of_represents hone hlow).mpr hq), min_eq_right hq.le]
    exact hone
  · rw [if_neg (mt (lt_iff_of_represents hone hlow).mp hq), min_eq_left (not_lt.mp hq)]
    exact hlow

/-- Bringing a number into the unit interval leads away from a place by no more than that
place is outside of it. -/
theorem abs_clamp_sub_le {w r d e : ℚ} (hd : 0 ≤ d) (hlow : -d ≤ r) (hhigh : r ≤ 1 + d)
    (h : |w - r| ≤ e) : |min (max w 0) 1 - r| ≤ d + e := by
  have he := (abs_nonneg _).trans h
  rw [abs_le] at h ⊢
  constructor
  · rcases min_choice (max w 0) 1 with hmin | hmin
    · linarith [le_max_left w 0]
    · linarith
  · have hle : min (max w 0) 1 ≤ max w 0 := min_le_left _ _
    rcases max_choice w 0 with hmax | hmax
    · linarith [hle.trans_eq hmax]
    · linarith [hle.trans_eq hmax]

theorem domainSlack_represents [CubeRoots Double] :
    ∃ ε : ℚ, (domainSlack : Double).Represents ε ∧ 1 / 2 ^ 20 ≤ ε ∧ ε ≤ 9 / 2 ^ 23 := by
  have hrounds : (domainSlack : Double).Rounds (1 / 1000000) :=
    ⟨false, 1, 1000000, 0, by decide, rfl, by norm_num⟩
  obtain ⟨z, hz, herr, -⟩ := hrounds.near (m := -19) (Roots.covers_double (by decide) (by decide))
    (by norm_num [abs_of_pos])
  have hsmall : (2 : ℚ) ^ (-19 - ((binary64.precision - 1 : Nat) : ℤ) - 2) ≤ 1 / 2 ^ 70 := by
    rw [show (-19 - ((binary64.precision - 1 : Nat) : ℤ) - 2) = -(73 : ℕ) by decide, zpow_neg,
      zpow_natCast]
    norm_num
  rw [abs_le] at herr
  refine ⟨z, hz, ?_, ?_⟩
  · norm_num at herr hsmall ⊢
    linarith
  · norm_num at herr hsmall ⊢
    linarith

/-- Whether a root counts as one in the unit interval. -/
def isNear [CubeRoots Double] (z : Double) : Bool := decide (-domainSlack ≤ z) && decide (z ≤ 1 + domainSlack)

theorem double_one : (1 : Double).Represents ((1 : ℕ) : ℚ) :=
  ofNat_represents (by exact_mod_cast exact_whole (k := 1) (by decide))

theorem isNear_of_mem [CubeRoots Double] (hz : z.Represents τ) (hlow : -(1 / 2 ^ 20) ≤ τ) (hhigh : τ ≤ 1 + 1 / 2 ^ 20) :
    isNear z = true := by
  obtain ⟨ε, hε, hε0, -⟩ := domainSlack_represents
  unfold isNear
  rw [Bool.and_eq_true, decide_eq_true_eq, decide_eq_true_eq]
  constructor
  · exact (le_iff_of_represents (neg_represents hε) hz).mpr (by linarith)
  · refine hz.rounds.mono (add_rounds double_one hε) ?_
    push_cast
    linarith

theorem mem_of_isNear [CubeRoots Double] (h : isNear z = true) :
    ∃ τ : ℚ, z.Represents τ ∧ -(5 / 2 ^ 22) ≤ τ ∧ τ ≤ 1 + 5 / 2 ^ 22 := by
  obtain ⟨ε, hε, hε0, hε1⟩ := domainSlack_represents
  unfold isNear at h
  rw [Bool.and_eq_true, decide_eq_true_eq, decide_eq_true_eq] at h
  obtain ⟨w, hw, herr⟩ := (add_rounds double_one hε).within (Roots.spans_double (m := 1) (by decide))
    (by
      push_cast
      rw [abs_of_pos (by linarith)]
      linarith)
  obtain ⟨τ, hτ, hlow, hhigh⟩ := represents_between (neg_represents hε) hw h.1 h.2
  rw [Roots.roundoff_double, abs_le] at herr
  push_cast at herr
  exact ⟨τ, hτ, by linarith, by linarith⟩

/-- The answer for a root in the unit interval lies there, next to the root. -/
theorem clampUnit_narrow (hz : z.Represents τ) (hlow : -(5 / 2 ^ 22) ≤ τ)
    (hhigh : τ ≤ 1 + 5 / 2 ^ 22) :
    ∃ x : ℚ, (clampUnit (Widening.narrow z : Single)).Represents x ∧ 0 ≤ x ∧ x ≤ 1 ∧
      |x - τ| ≤ 11 / 2 ^ 23 := by
  obtain ⟨q, hq, herr⟩ := (convert_rounds (G := binary32) hz).within (spans_single (m := 1) (by decide))
    (by
      rw [abs_le]
      constructor <;> linarith)
  rw [roundoff_single] at herr
  refine ⟨_, clampUnit_represents hq, le_min (le_max_right _ _) zero_le_one, min_le_right _ _, ?_⟩
  refine (abs_clamp_sub_le (by norm_num) hlow hhigh herr).trans ?_
  norm_num

/-- The value is answered at a place in the unit interval where the function is within one of it. -/
def Answers (outcome : Except Fault (Option Single)) (f : ℝ → ℝ) (v : ℝ) : Prop :=
  ∃ (t : Single) (x : ℚ), outcome = .ok (some t) ∧ t.Represents x ∧ 0 ≤ x ∧ x ≤ 1 ∧ |f x - v| ≤ 1

theorem continuous_wholeValue (cs : List ℤ) : Continuous (wholeValue cs) := by
  induction cs with
  | nil => exact continuous_const
  | cons c rest ih => exact (ih.mul continuous_id).add continuous_const

theorem ClearlyCrosses.attained {r : ℝ} (h : ClearlyCrosses (wholeValue cs) r) :
    ∃ s, 0 ≤ s ∧ s ≤ 1 ∧ wholeValue cs s = r := by
  obtain ⟨s₁, hs₁, s₂, hs₂, hbelow, habove⟩ := h
  have hbetween : r ∈ Set.uIcc (wholeValue cs s₁) (wholeValue cs s₂) :=
    Set.mem_uIcc_of_le (by linarith) (by linarith)
  obtain ⟨s, hs, heq⟩ := intermediate_value_uIcc (continuous_wholeValue cs).continuousOn hbetween
  obtain ⟨hlow, hhigh⟩ := Set.uIcc_subset_Icc hs₁ hs₂ hs
  exact ⟨s, hlow, hhigh, heq⟩

/-- If a root in the unit interval is found, and what is found near it is next to roots, the
value is answered. -/
theorem firstCrossing_answers [CubeRoots Double] {zs : List Double} {r : ℝ} (hm : Moderate cs)
    (hroots : p.rootsWide value = .ok zs) (hr0 : 0 ≤ r) (hr1 : r ≤ 1)
    (hsome : ∃ z ∈ zs, z.Approx r (1 / 2 ^ 20))
    (hall : ∀ z ∈ zs, ∀ τ : ℚ, z.Represents τ → |(τ : ℝ)| ≤ 2 →
      ∃ s, wholeValue cs s = v ∧ |τ - s| ≤ 1 / 2 ^ 20) :
    Answers (p.firstCrossing value) (wholeValue cs) v := by
  have hrun : p.firstCrossing value =
      .ok ((zs.find? isNear).map fun z => clampUnit (Widening.narrow z)) := by
    unfold firstCrossing
    rw [hroots]
    rfl
  obtain ⟨z, hz, τ, hτ, herr⟩ := hsome
  have hfound : (zs.find? isNear).isSome = true := by
    rw [abs_le] at herr
    rw [List.find?_isSome]
    refine ⟨z, hz, isNear_of_mem hτ ?_ ?_⟩
    · rw [← Rat.cast_le (K := ℝ)]
      push_cast
      linarith
    · rw [← Rat.cast_le (K := ℝ)]
      push_cast
      linarith
  obtain ⟨w, hw⟩ := Option.isSome_iff_exists.mp hfound
  obtain ⟨ω, hω, hωlow, hωhigh⟩ := mem_of_isNear (List.find?_some hw)
  obtain ⟨x, hx, hx0, hx1, hnear⟩ := clampUnit_narrow hω hωlow hωhigh
  refine ⟨_, x, by rw [hrun, hw]; rfl, hx, hx0, hx1, ?_⟩
  rw [← Rat.cast_le (K := ℝ)] at hωlow hωhigh hnear
  push_cast at hωlow hωhigh hnear
  obtain ⟨s, hs, hωs⟩ := hall w (List.mem_of_find?_eq_some hw) ω hω
    (abs_le.mpr ⟨by linarith, by linarith⟩)
  have hxs : |(x : ℝ) - s| ≤ 19 / 2 ^ 23 :=
    (abs_sub_le _ _ _).trans ((add_le_add hnear hωs).trans (by norm_num))
  have hslope := hm.near (by exact_mod_cast hx0) (by exact_mod_cast hx1) (hxs.trans (by norm_num))
  rw [hs] at hslope
  exact hslope.trans (by linarith)

/-! ## Quadratics -/

/-- A clear crossing keeps the discriminant away from zero. -/
theorem discriminant_of_crosses {A B C : ℝ} (hA : A ≠ 0)
    (h : ClearlyCrosses (fun s => A * s ^ 2 + B * s + C) 0) : 4 * |A| < B * B - 4 * A * C := by
  obtain ⟨s₁, -, s₂, -, hbelow, habove⟩ := h
  have hsquare : ∀ s : ℝ, 4 * A * (A * s ^ 2 + B * s + C) = (2 * A * s + B) ^ 2 - (B * B - 4 * A * C) := by
    intro s
    ring
  rcases lt_or_gt_of_ne hA with hneg | hpos
  · rw [abs_of_neg hneg]
    nlinarith [hsquare s₂, sq_nonneg (2 * A * s₂ + B)]
  · rw [abs_of_pos hpos]
    nlinarith [hsquare s₁, sq_nonneg (2 * A * s₁ + B)]

theorem near_of_relative {r : ℝ} (h : z.Approx r (1 / 2 ^ 27 * (1 + |r|))) (hz : z.Represents τ)
    (hτ : |(τ : ℝ)| ≤ 2) : |τ - r| ≤ 1 / 2 ^ 20 := by
  obtain ⟨τ', hτ', herr⟩ := h
  obtain rfl := hz.unique hτ'
  have htri := abs_sub_abs_le_abs_sub r τ
  rw [abs_sub_comm] at htri
  norm_num at herr ⊢
  linarith

theorem firstCrossing_quadratic [CubeRoots Double] {c0 c1 c2 : ℤ} (hm : Moderate cs)
    (hcs : ∀ s : ℝ, wholeValue cs s = c2 * s ^ 2 + c1 * s + c0) (hc2 : c2 ≠ 0) (hb0 : |c0| ≤ 32767)
    (hb1 : |c1| ≤ 2 ^ 19) (hb2 : |c2| ≤ 2 ^ 19) {x0 x1 x2 : Single} (hsig : p.significant = [x0, x1, x2])
    (hx0 : x0.Represents c0) (hx1 : x1.Represents c1) (hx2 : x2.Represents c2)
    (hv : value.Represents v) (hbv : |v| ≤ 32767) (hcross : ClearlyCrosses (wholeValue cs) v) :
    Answers (p.firstCrossing value) (wholeValue cs) v := by
  have hw0 := hx0.widen
  have hw1 := hx1.widen
  have hw2 := hx2.widen
  have hwv := hv.widen
  have hsub := abs_sub c0 v
  have hconst := hw0.whole_sub hwv (exact_whole (by omega))
  have hmoved : ClearlyCrosses (fun s : ℝ => c2 * s ^ 2 + c1 * s + (c0 - v : ℤ)) 0 := by
    obtain ⟨s₁, hs₁, s₂, hs₂, hbelow, habove⟩ := hcross
    refine ⟨s₁, hs₁, s₂, hs₂, ?_, ?_⟩
    · rw [hcs] at hbelow
      push_cast
      linarith
    · rw [hcs] at habove
      push_cast
      linarith
  have hdisc : 4 * |c2| < c1 * c1 - 4 * c2 * (c0 - v) := by
    exact_mod_cast discriminant_of_crosses (by exact_mod_cast hc2) hmoved
  obtain ⟨t₁, t₂, r₁, r₂, hlist, ht₁, ht₂, hfactor⟩ :=
    Roots.quadratic_of_discriminant hw2 hw1 hconst hc2 hb2 hb1 (by omega) hdisc
  have hrun : p.rootsWide value = .ok (Roots.sort [t₁, t₂]) := by
    have hfinite : [t₁, t₂].filter Scalar.isFinite = [t₁, t₂] := by
      rw [List.filter_eq_self]
      intro t ht
      rcases List.mem_pair.mp ht with rfl | rfl
      · exact ht₁.isFinite
      · exact ht₂.isFinite
    unfold rootsWide equation
    rw [hsig]
    show Except.ok (Roots.sort ((Roots.quadratic _ _ _).filter _)) = _
    rw [hlist, hfinite]
  have hroot : ∀ r : ℝ, wholeValue cs r = v ↔ r = r₁ ∨ r = r₂ := by
    intro r
    have hzero := hfactor r
    push_cast at hzero
    rw [hcs, ← sub_eq_zero, show c2 * r ^ 2 + c1 * r + c0 - v = c2 * ((r - r₁) * (r - r₂)) by linarith,
      mul_eq_zero, or_iff_right (by exact_mod_cast hc2), mul_eq_zero, sub_eq_zero, sub_eq_zero]
  obtain ⟨r, hr0, hr1, hr⟩ := hcross.attained
  have hrelative : 1 / 2 ^ 27 * (1 + |r|) ≤ 1 / 2 ^ 20 := by
    rw [abs_of_nonneg hr0]
    linarith
  refine firstCrossing_answers hm hrun hr0 hr1 ?_ ?_
  · rcases (hroot r).mp hr with rfl | rfl
    · exact ⟨t₁, Roots.mem_sort.mpr (by simp), ht₁.mono hrelative⟩
    · exact ⟨t₂, Roots.mem_sort.mpr (by simp), ht₂.mono hrelative⟩
  · intro z hz τ hτ hnear
    rcases List.mem_pair.mp (Roots.mem_sort.mp hz) with rfl | rfl
    · exact ⟨r₁, (hroot r₁).mpr (.inl rfl), near_of_relative ht₁ hτ hnear⟩
    · exact ⟨r₂, (hroot r₂).mpr (.inr rfl), near_of_relative ht₂ hτ hnear⟩

/-! ## Cubics -/

/-- A cubic whose roots keep apart answers each value that it clearly crosses. -/
theorem firstCrossing_cubic [CubeRoots Double] (hroots : CubeRoots.Accurate) {c0 c1 c2 c3 : ℤ}
    (hm : Moderate [c0, c1, c2, c3]) (hc3 : c3 ≠ 0)
    (hc0 : c0 ≠ v) {x0 x1 x2 x3 : Single} (hsig : p.significant = [x0, x1, x2, x3])
    (hx0 : x0.Represents c0) (hx1 : x1.Represents c1) (hx2 : x2.Represents c2)
    (hx3 : x3.Represents c3) (hv : value.Represents v) (hbv : |v| ≤ 32767)
    (hcross : ClearlyCrosses (wholeValue [c0, c1, c2, c3]) v)
    (hapart : Roots.Apart (wholeValue [c0, c1, c2, c3]) v) :
    Answers (p.firstCrossing value) (wholeValue [c0, c1, c2, c3]) v := by
  have hb0 : |c0| ≤ 32767 := hm.start
  have hb1 : |c1| ≤ 196602 := hm.first
  have hb2 : |c2| ≤ 393204 := hm.second
  have hb3 : |c3| ≤ 262136 := hm.third
  have hsub := abs_sub c0 v
  have hconst := hx0.widen.whole_sub hv.widen
    (exact_whole (by omega))
  have hvalue : ∀ s : ℝ, wholeValue [c0, c1, c2, c3] s - v =
      c3 * s ^ 3 + c2 * s ^ 2 + c1 * s + (c0 - v : ℤ) := by
    intro s
    simp
    ring
  obtain ⟨r, hr0, hr1, hr⟩ := hcross.attained
  have hroot := hvalue r
  rw [hr, sub_self, eq_comm] at hroot
  have hslope := hm.slope_le hr0 hr1
  simp only [List.getD_cons_zero, List.getD_cons_succ] at hslope
  obtain ⟨R, β, γ, δ, hreduced, hdisc, hR⟩ := Roots.exists_reduced hc3 (by omega) (sub_ne_zero.mpr hc0)
    (hapart.largeDiscriminant hvalue) hroot (by convert hslope using 2; ring)
  obtain ⟨zs, hzs, hleft, hright⟩ := Roots.ofCoeffs_finds hroots hreduced hx3.widen
    hx2.widen hx1.widen hconst hroot hdisc hR
  have hrun : p.rootsWide value = .ok zs := by
    unfold rootsWide equation
    rw [hsig]
    exact hzs
  refine firstCrossing_answers hm hrun hr0 hr1 ?_ ?_
  · exact hright r hroot
  · intro z hz τ hτ _
    obtain ⟨s, hs, τ', hτ', herr⟩ := hleft z hz
    obtain rfl := hτ.unique hτ'
    exact ⟨s, sub_eq_zero.mp ((hvalue s).trans hs), herr⟩

/-! ## Lines -/

theorem line_answers {c0 c1 : ℤ} (hm : Moderate cs) (hcs : ∀ s : ℝ, wholeValue cs s = c1 * s + c0)
    (hc1 : c1 ≠ 0) (hb0 : |c0| ≤ 32767) {x0 x1 : Single} (hx0 : x0.Represents c0)
    (hx1 : x1.Represents c1) (hv : value.Represents v) (hbv : |v| ≤ 32767)
    (hcross : ClearlyCrosses (wholeValue cs) v) :
    Answers (.ok (some (clampUnit ((value - x0) / x1)))) (wholeValue cs) v := by
  obtain ⟨r, hr0, hr1, hr⟩ := hcross.attained
  have hc1R : (c1 : ℝ) ≠ 0 := by exact_mod_cast hc1
  have hplace : (v - c0) / c1 = r := by
    rw [hcs] at hr
    rw [div_eq_iff hc1R]
    linarith
  have hinside : 0 ≤ ((v - c0) / c1 : ℚ) ∧ ((v - c0) / c1 : ℚ) ≤ 1 := by
    suffices h : 0 ≤ ((v - c0) / c1 : ℝ) ∧ ((v - c0) / c1 : ℝ) ≤ 1 by exact_mod_cast h
    rw [hplace]
    exact ⟨hr0, hr1⟩
  have hsub := abs_sub v c0
  have hnum := hv.whole_sub hx0 (single_whole (by omega))
  have hdiv := div_rounds hnum hx1 (by exact_mod_cast hc1)
  rw [Int.cast_sub] at hdiv
  obtain ⟨w, hw, herr⟩ := hdiv.within (spans_single (m := 0) (by decide)) (by
    rw [abs_of_nonneg hinside.1]
    linarith [hinside.2])
  rw [roundoff_single] at herr
  have hclamp := abs_clamp_sub_le le_rfl (by linarith [hinside.1]) (by linarith [hinside.2]) herr
  have hlow : (0 : ℚ) ≤ min (max w 0) 1 := le_min (le_max_right _ _) zero_le_one
  have hhigh : min (max w 0) 1 ≤ (1 : ℚ) := min_le_right _ _
  refine ⟨_, _, rfl, clampUnit_represents hw, hlow, hhigh, ?_⟩
  generalize min (max w 0) 1 = x at hclamp hlow hhigh
  rw [← Rat.cast_le (K := ℝ)] at hclamp
  push_cast at hclamp
  rw [hplace] at hclamp
  have hslope := hm.near (by exact_mod_cast hlow) (by exact_mod_cast hhigh) (hclamp.trans (by norm_num))
  rw [hr] at hslope
  linarith

/-- The ends of a line enclose each value that it clearly crosses. -/
theorem liesBetween_line {c0 c1 : ℤ} {start finish : Single}
    (hcs : ∀ s : ℝ, wholeValue cs s = c1 * s + c0) (hstart : start.Represents c0)
    (hfinish : finish.Represents ((c0 + c1 : ℤ) : ℚ)) (hv : value.Represents v)
    (hcross : ClearlyCrosses (wholeValue cs) v) : liesBetween value start finish = true := by
  obtain ⟨s₁, ⟨hs₁, hs₁'⟩, s₂, ⟨hs₂, hs₂'⟩, hbelow, habove⟩ := hcross
  rw [hcs] at hbelow habove
  apply liesBetween_of_mem hstart hfinish hv
  · rw [min_le_iff]
    rcases le_total 0 (c1 : ℝ) with hc1 | hc1
    · left
      have hle : (c0 : ℝ) ≤ v := by linarith [mul_nonneg hc1 hs₁]
      exact_mod_cast hle
    · right
      have hle : (c0 + c1 : ℝ) ≤ v := by linarith [le_mul_of_le_one_right hc1 hs₁']
      exact_mod_cast hle
  · rw [le_max_iff]
    rcases le_total 0 (c1 : ℝ) with hc1 | hc1
    · right
      have hle : (v : ℝ) ≤ c0 + c1 := by linarith [mul_le_of_le_one_right hc1 hs₂']
      exact_mod_cast hle
    · left
      have hle : (v : ℝ) ≤ c0 := by linarith [mul_nonpos_of_nonpos_of_nonneg hc1 hs₂]
      exact_mod_cast hle

/-! ## Curves -/

/-- The start is the answer exactly where it has the value; else the answer depends on the
significant coefficients. -/
theorem firstReach_start (h : p.Whole cs) (hm : Moderate cs) (hv : value.Represents v)
    (hbv : |v| ≤ 32767) : (p.eval 0).Represents (cs.getD 0 0 : ℤ) ∧
      (Scalar.abs (p.eval 0 - value) ≤ negligible ↔ cs.getD 0 0 = v) := by
  obtain ⟨k, hk, hval, -⟩ := h.eval_represents hm zero_represents le_rfl zero_le_one
  have hstart : cs.getD 0 0 = k := by
    rw [hm.wholeValue_eq] at hval
    have hval' : (cs.getD 0 0 : ℝ) = k := by simpa using hval
    exact_mod_cast hval'
  rw [← hstart] at hk
  have hsub := abs_sub (cs.getD 0 0) v
  have hb := hm.start
  have hdiff := hk.whole_sub hv (single_whole (by omega))
  refine ⟨hk, (abs_le_negligible_iff hdiff).trans sub_eq_zero⟩

theorem firstReach_at_start [CubeRoots Double] (h : p.Whole cs) (hm : Moderate cs) (hv : value.Represents v)
    (hbv : |v| ≤ 32767) (heq : cs.getD 0 0 = v) : Answers (p.firstReach value) (wholeValue cs) v := by
  have hequal := (firstReach_start h hm hv hbv).2.mpr heq
  unfold firstReach
  simp only
  rw [if_pos hequal]
  refine ⟨0, 0, rfl, Quantum.zero_represents, le_rfl, zero_le_one, ?_⟩
  rw [hm.wholeValue_eq, heq]
  simp

theorem firstReach_line [CubeRoots Double] {c0 c1 : ℤ} (h : p.Whole cs) (hm : Moderate cs) (hds : trimmed cs = [c0, c1])
    (hv : value.Represents v) (hbv : |v| ≤ 32767) (hne : cs.getD 0 0 ≠ v)
    (hcross : ClearlyCrosses (wholeValue cs) v) : Answers (p.firstReach value) (wholeValue cs) v := by
  obtain ⟨hstart, htest⟩ := firstReach_start h hm hv hbv
  obtain ⟨k, hfinish, hk, -⟩ := h.eval_represents hm one_represents zero_le_one le_rfl
  have hsig := h.significant
  rw [hds] at hsig
  obtain ⟨x0, xs, hx0, hrest, hsig⟩ := List.forall₂_cons_right_iff.mp hsig
  obtain ⟨x1, ys, hx1, hnil, rfl⟩ := List.forall₂_cons_right_iff.mp hrest
  obtain rfl := List.forall₂_nil_right_iff.mp hnil
  have hcs : ∀ s : ℝ, wholeValue cs s = c1 * s + c0 := fun s => by
    rw [← wholeValue_trimmed, hds]
    simp
  have hk' : k = c0 + c1 := by
    rw [hcs, Int.cast_one, mul_one] at hk
    exact_mod_cast (by linarith : (k : ℝ) = c0 + c1)
  have hlast : ∀ h, (trimmed cs).getLast h ≠ 0 := getLast_trimmed
  have hbounds := hm.trimmed
  rw [hds] at hlast hbounds
  have hc1 : c1 ≠ 0 := hlast (by simp)
  rw [← getD_trimmed, hds] at hstart
  rw [hk'] at hfinish
  unfold firstReach
  simp only
  rw [if_neg (mt htest.mp hne), hsig]
  simp only
  rw [if_pos (liesBetween_line hcs hstart hfinish hv hcross)]
  exact line_answers hm hcs hc1 hbounds.start hx0 hx1 hv hbv hcross

theorem firstReach_quadratic [CubeRoots Double] {c0 c1 c2 : ℤ} (h : p.Whole cs) (hm : Moderate cs)
    (hds : trimmed cs = [c0, c1, c2]) (hv : value.Represents v) (hbv : |v| ≤ 32767)
    (hne : cs.getD 0 0 ≠ v) (hcross : ClearlyCrosses (wholeValue cs) v) :
    Answers (p.firstReach value) (wholeValue cs) v := by
  obtain ⟨hstart, htest⟩ := firstReach_start h hm hv hbv
  obtain ⟨k, hfinish, hk, -⟩ := h.eval_represents hm one_represents zero_le_one le_rfl
  have hsig := h.significant
  rw [hds] at hsig
  obtain ⟨x0, xs, hx0, hrest, hsig⟩ := List.forall₂_cons_right_iff.mp hsig
  obtain ⟨x1, ys, hx1, hrest', rfl⟩ := List.forall₂_cons_right_iff.mp hrest
  obtain ⟨x2, zs, hx2, hnil, rfl⟩ := List.forall₂_cons_right_iff.mp hrest'
  obtain rfl := List.forall₂_nil_right_iff.mp hnil
  have hcs : ∀ s : ℝ, wholeValue cs s = c2 * s ^ 2 + c1 * s + c0 := fun s => by
    rw [← wholeValue_trimmed, hds]
    simp
    ring
  have hk' : k = c0 + c1 + c2 := by
    rw [hcs, Int.cast_one] at hk
    exact_mod_cast (by linarith : (k : ℝ) = c0 + c1 + c2)
  have hlast : ∀ h, (trimmed cs).getLast h ≠ 0 := getLast_trimmed
  have hbounds := hm.trimmed
  rw [hds] at hlast hbounds
  have hc2 : c2 ≠ 0 := hlast (by simp)
  rw [← getD_trimmed, hds] at hstart
  rw [hk'] at hfinish
  have hb1 : |c1| ≤ 2 ^ 19 := hbounds.first.trans (by decide)
  have hb2 : |c2| ≤ 2 ^ 19 := hbounds.second.trans (by decide)
  unfold firstReach
  simp only
  rw [if_neg (mt htest.mp hne), hsig]
  simp only
  rw [if_pos (quadraticReaches_of_crosses h hm hcs hc2 hb2 hx1 hx2 hstart hfinish hv hcross)]
  exact firstCrossing_quadratic hm hcs hc2 hbounds.start hb1 hb2 hsig hx0 hx1 hx2 hv hbv hcross

theorem firstReach_cubic [CubeRoots Double] (hroots : CubeRoots.Accurate) {c0 c1 c2 c3 : ℤ}
    (h : p.Whole [c0, c1, c2, c3])
    (hm : Moderate [c0, c1, c2, c3]) (hc3 : c3 ≠ 0) (hv : value.Represents v) (hbv : |v| ≤ 32767)
    (hne : c0 ≠ v) (hcross : ClearlyCrosses (wholeValue [c0, c1, c2, c3]) v)
    (hapart : Roots.Apart (wholeValue [c0, c1, c2, c3]) v) :
    Answers (p.firstReach value) (wholeValue [c0, c1, c2, c3]) v := by
  obtain ⟨hstart, htest⟩ := firstReach_start h hm hv hbv
  obtain ⟨k, hfinish, hk, -⟩ := h.eval_represents hm one_represents zero_le_one le_rfl
  have hsig := h.significant
  rw [show [c0, c1, c2, c3] = [c0, c1, c2] ++ [c3] from rfl, trimmed_concat, if_neg hc3] at hsig
  obtain ⟨x0, xs, hx0, hrest, hsig⟩ := List.forall₂_cons_right_iff.mp hsig
  obtain ⟨x1, ys, hx1, hrest', rfl⟩ := List.forall₂_cons_right_iff.mp hrest
  obtain ⟨x2, zs, hx2, hrest'', rfl⟩ := List.forall₂_cons_right_iff.mp hrest'
  obtain ⟨x3, ws, hx3, hnil, rfl⟩ := List.forall₂_cons_right_iff.mp hrest''
  obtain rfl := List.forall₂_nil_right_iff.mp hnil
  have hk' : k = c0 + c1 + c2 + c3 := by
    have hval : (c3 + c2 + c1 + c0 : ℝ) = k := by simpa using hk
    exact_mod_cast (by linarith : (k : ℝ) = c0 + c1 + c2 + c3)
  rw [hk'] at hfinish
  unfold firstReach
  simp only
  rw [if_neg (mt htest.mp hne), hsig]
  simp only
  rw [if_pos (cubicReaches_of_crosses h hm hc3 hx2 hx3 hstart hfinish hv hcross)]
  exact firstCrossing_cubic hroots hm hc3 hne hsig hx0 hx1 hx2 hx3 hv hbv hcross hapart

theorem two_le_length_of_crosses {r : ℝ} (hcross : ClearlyCrosses (wholeValue cs) r) :
    2 ≤ (trimmed cs).length := by
  obtain ⟨s₁, -, s₂, -, hbelow, habove⟩ := hcross
  rw [← wholeValue_trimmed] at hbelow habove
  match trimmed cs, hbelow, habove with
  | [], hbelow, habove =>
    rw [wholeValue_nil] at hbelow habove
    linarith
  | [c0], hbelow, habove =>
    rw [wholeValue_cons, wholeValue_nil, zero_mul] at hbelow habove
    linarith
  | _ :: _ :: _, _, _ => simp

/-- Every clear crossing is answered below the third degree, and where the roots keep apart. -/
theorem firstReach_answers [CubeRoots Double] (hroots : CubeRoots.Accurate) (h : p.Whole cs)
    (hm : Moderate cs) (hv : value.Represents v) (hbv : |v| ≤ 32767) (hcross : ClearlyCrosses (wholeValue cs) v)
    (hcase : (trimmed cs).length ≤ 3 ∨ Roots.Apart (wholeValue cs) v) :
    Answers (p.firstReach value) (wholeValue cs) v := by
  by_cases hne : cs.getD 0 0 = v
  · exact firstReach_at_start h hm hv hbv hne
  have htwo := two_le_length_of_crosses hcross
  have hcount := hm.count
  have hle := length_trimmed_le cs
  match hds : trimmed cs, htwo, hle.trans hcount with
  | [c0, c1], _, _ => exact firstReach_line h hm hds hv hbv hne hcross
  | [c0, c1, c2], _, _ => exact firstReach_quadratic h hm hds hv hbv hne hcross
  | [c0, c1, c2, c3], _, _ =>
    have hall : trimmed cs = cs := (List.rdropWhile_prefix _ cs).eq_of_length_le
      (hcount.trans_eq (congrArg List.length hds).symm)
    have hlast : ∀ h, (trimmed cs).getLast h ≠ 0 := getLast_trimmed
    rw [hds] at hall hlast hcase
    subst hall
    exact firstReach_cubic hroots h hm (hlast (by simp)) hv hbv hne hcross (hcase.resolve_left (by simp))

/-- A clear crossing of a curve with whole control points of stored size is answered, at a
place of the unit interval where the curve is within one of the value, if the curve is below
the third degree or its three roots keep apart. This holds with the cube roots of any library
that are as accurate as is relied on. -/
theorem clear_crossing_is_answered [CubeRoots Double] (hroots : CubeRoots.Accurate) {ks : List ℤ}
    {v : ℤ} (hlen : ks.length = 3 ∨ ks.length = 4) (hks : ∀ k ∈ ks, |k| ≤ 32767) (hv : |v| ≤ 32767)
    (hcross : ClearlyCrosses (Bezier.curve (ks.map Int.cast)) v) :
    ∃ p : Poly Single, bezier 1 (ks.map ofInt) = .ok p ∧
      (p.degree ≤ 2 ∨ Roots.Apart (Bezier.curve (ks.map Int.cast)) v →
        Answers (p.firstReach (ofInt v)) (Bezier.curve (ks.map Int.cast)) v) := by
  obtain ⟨p, hp, hwhole⟩ := bezier_ofInt_whole (List.ne_nil_of_length_pos (by omega : 0 < ks.length)) (by omega)
    fun k hk => (hks k hk).trans (by decide)
  have hm := moderate_wholeCoeffs hlen hks
  have hvalue := ofInt_whole (hv.trans (by decide))
  have hcurve : Bezier.curve (ks.map Int.cast) = wholeValue (wholeCoeffs ks) :=
    funext (curve_eq_wholeValue hlen)
  rw [hcurve] at hcross ⊢
  have hdegree : p.degree = (trimmed (wholeCoeffs ks)).length - 1 := by
    rw [degree, hwhole.significant.length_eq]
  exact ⟨p, hp, fun hcase =>
    firstReach_answers hroots hwhole hm hvalue hv hcross (hcase.imp_left fun hle => by omega)⟩

/-- The curve `6 t ^ 3 - 3 t ^ 2 + 6 t` from 0 to 9 is answered where it passes 3. Its roots
there are one half and the imaginary units. -/
theorem a_rise_is_answered : CubeRoots.Accurate ∧
    ClearlyCrosses (Bezier.curve (([0, 2, 3, 9] : List ℤ).map Int.cast)) (3 : ℤ) ∧
      Roots.Apart (Bezier.curve (([0, 2, 3, 9] : List ℤ).map Int.cast)) (3 : ℤ) ∧
      ∃ p : Poly Single, bezier 1 (([0, 2, 3, 9] : List ℤ).map ofInt) = .ok p ∧
        Answers (p.firstReach (ofInt 3)) (Bezier.curve (([0, 2, 3, 9] : List ℤ).map Int.cast)) (3 : ℤ) := by
  have hcurve : ∀ s : ℝ, Bezier.curve (([0, 2, 3, 9] : List ℤ).map Int.cast) s = 6 * s ^ 3 - 3 * s ^ 2 + 6 * s := by
    intro s
    rw [curve_eq_wholeValue (.inr rfl), wholeCoeffs_four]
    norm_num
    ring
  have hcross : ClearlyCrosses (Bezier.curve (([0, 2, 3, 9] : List ℤ).map Int.cast)) (3 : ℤ) :=
    ⟨0, by norm_num, 1, by norm_num, by rw [hcurve]; norm_num, by rw [hcurve]; norm_num⟩
  have hapart : Roots.Apart (Bezier.curve (([0, 2, 3, 9] : List ℤ).map Int.cast)) (3 : ℤ) := by
    refine ⟨6, 1, 1 / 2, Complex.I, -Complex.I, ?_, by norm_num, by simp, by simp, ?_⟩
    · intro s
      rw [hcurve]
      push_cast
      linear_combination (6 * s - 3) * Complex.I_sq
    · have hprod : (1 / 2 - Complex.I) * (1 / 2 - -Complex.I) * (Complex.I - -Complex.I) = 5 / 2 * Complex.I := by
        linear_combination -2 * Complex.I * Complex.I_sq
      rw [hprod]
      norm_num
  obtain ⟨p, hp, hanswers⟩ := clear_crossing_is_answered Roots.accurate_cubeRoots (.inr rfl)
    (by decide) (by decide) hcross
  exact ⟨Roots.accurate_cubeRoots, hcross, hapart, p, hp, hanswers (.inr hapart)⟩

set_option maxRecDepth 4000 in
/-- The curve `19208 (t - 9 / 14) ^ 3` passes zero at a threefold root. Where three roots meet, the
steps that improve a root divide one rounding error by another. They lead out of the unit
interval, and the search finds nothing, whatever the cube roots are. -/
theorem a_clear_crossing_is_lost :
    ClearlyCrosses (Bezier.curve (([-5103, 2835, -1575, 875] : List ℤ).map Int.cast)) (0 : ℤ) ∧
      ∀ [CubeRoots Double], (bezier 1 (([-5103, 2835, -1575, 875] : List ℤ).map ofInt) >>=
        fun p : Poly Single => p.firstReach (ofInt 0)) = .ok none := by
  refine ⟨⟨0, by norm_num, 1, by norm_num, ?_, ?_⟩, rfl⟩
  · rw [curve_eq_wholeValue (.inr rfl), wholeCoeffs_four]
    norm_num
  · rw [curve_eq_wholeValue (.inr rfl), wholeCoeffs_four]
    norm_num

/-- Two crossings near 0.1 and near 0.9 are lost where the third root is so far away that the
discriminant counts as zero. -/
example : (bezier 1 (([0, 30000, 30000, 1] : List ℤ).map ofInt) >>=
    fun p : Poly Single => p.firstReach (ofInt 8100)) = .ok none := by decide +kernel

end Poly

end DroneShow
