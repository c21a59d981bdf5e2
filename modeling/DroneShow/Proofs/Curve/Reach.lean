-- The short cuts of the search for a value. They compare the value with the ends of the
-- curve and with its vertex, and never turn away a value that the curve clearly crosses.
import Mathlib.Tactic.FieldSimp
import DroneShow.Curve.Crossing
import DroneShow.Proofs.Curve.Value

namespace DroneShow.Poly

open Binary

/-! ## Ranges of polynomials -/

section Range

variable {a b c d s : ℝ}

/-- On the unit interval, a quadratic is at most its value at an end or at its inner vertex. -/
theorem quadratic_le (ha : a ≠ 0) (hs : 0 ≤ s) (hs' : s ≤ 1) :
    a * s ^ 2 + b * s ≤ max 0 (a + b) ∨
      (0 < -b / (2 * a) ∧ -b / (2 * a) < 1 ∧
        a * s ^ 2 + b * s ≤ a * (-b / (2 * a)) ^ 2 + b * (-b / (2 * a))) := by
  rcases lt_or_gt_of_ne ha with hneg | hpos
  · by_cases h0 : b ≤ 0
    · left
      have hle : a * s ^ 2 + b * s ≤ 0 := by nlinarith [mul_nonneg hs hs]
      exact le_max_of_le_left hle
    · by_cases h1 : a + b < -a
      · right
        have h2a : 2 * a < 0 := by linarith
        refine ⟨div_pos_of_neg_of_neg (by linarith) h2a, (div_lt_one_of_neg h2a).mpr (by linarith), ?_⟩
        have hvertex : a * (-b / (2 * a)) ^ 2 + b * (-b / (2 * a)) - (a * s ^ 2 + b * s) =
            -a * (s - -b / (2 * a)) ^ 2 := by
          field_simp
          ring
        have hsq := mul_nonneg (neg_nonneg.mpr hneg.le) (sq_nonneg (s - -b / (2 * a)))
        linarith
      · left
        have hslope : 0 ≤ a * (1 + s) + b := by nlinarith
        have hle : a * s ^ 2 + b * s ≤ a + b := by
          nlinarith [mul_nonneg (sub_nonneg.mpr hs') hslope]
        exact le_max_of_le_right hle
  · left
    have hle : a * s ^ 2 + b * s ≤ s * (a + b) := by
      nlinarith [mul_nonneg (mul_nonneg hpos.le hs) (sub_nonneg.mpr hs')]
    refine hle.trans ?_
    rcases le_total (a + b) 0 with hab | hab
    · exact le_max_of_le_left (mul_nonpos_of_nonneg_of_nonpos hs hab)
    · exact le_max_of_le_right (mul_le_of_le_one_left hab hs')

/-- A quadratic that rises above a value does so past an end or at its inner vertex. -/
theorem quadratic_above {v : ℝ} (ha : a ≠ 0) (hs : 0 ≤ s) (hs' : s ≤ 1)
    (h : v + 1 < a * s ^ 2 + b * s + c) : v ≤ c ∨ v ≤ c + b + a ∨
      (0 < -b / (2 * a) ∧ -b / (2 * a) < 1 ∧ v + 1 < a * (-b / (2 * a)) ^ 2 + b * (-b / (2 * a)) + c) := by
  rcases quadratic_le (b := b) ha hs hs' with hends | ⟨h0, h1, hle⟩
  · rcases le_max_iff.mp hends with hle | hle
    · exact .inl (by linarith)
    · exact .inr (.inl (by linarith))
  · exact .inr (.inr ⟨h0, h1, by linarith⟩)

theorem quadratic_below {v : ℝ} (ha : a ≠ 0) (hs : 0 ≤ s) (hs' : s ≤ 1)
    (h : a * s ^ 2 + b * s + c < v - 1) : c ≤ v ∨ c + b + a ≤ v ∨
      (0 < -b / (2 * a) ∧ -b / (2 * a) < 1 ∧ a * (-b / (2 * a)) ^ 2 + b * (-b / (2 * a)) + c < v - 1) := by
  have hneg := quadratic_above (b := -b) (c := -c) (v := -v) (neg_ne_zero.mpr ha) hs hs' (by linarith)
  rw [mul_neg, neg_div_neg_eq] at hneg
  rcases hneg with hle | hle | ⟨h0, h1, hlt⟩
  · exact .inl (neg_le_neg_iff.mp hle)
  · exact .inr (.inl (by linarith))
  · exact .inr (.inr ⟨h0, h1, by linarith⟩)

/-- A cubic whose slope does not fall below `-e` in the unit interval loses at most `e` there. Its
mean slope is that of Simpson's rule, which is exact for quadratics. -/
theorem cubic_le {e x y : ℝ} (he : 0 ≤ e) (hx : 0 ≤ x) (hxy : x ≤ y) (hy : y ≤ 1)
    (hslope : ∀ s, 0 ≤ s → s ≤ 1 → -e ≤ 3 * a * s ^ 2 + 2 * b * s + c) :
    a * x ^ 3 + b * x ^ 2 + c * x - e ≤ a * y ^ 3 + b * y ^ 2 + c * y := by
  have hleft := hslope x hx (hxy.trans hy)
  have hright := hslope y (hx.trans hxy) hy
  have hmiddle := hslope ((x + y) / 2) (by linarith) (by linarith)
  have hmean : a * y ^ 3 + b * y ^ 2 + c * y - (a * x ^ 3 + b * x ^ 2 + c * x) =
      (y - x) * (((3 * a * x ^ 2 + 2 * b * x + c) +
        4 * (3 * a * ((x + y) / 2) ^ 2 + 2 * b * ((x + y) / 2) + c) +
        (3 * a * y ^ 2 + 2 * b * y + c)) / 6) := by ring
  have hgain : (y - x) * -e ≤ (y - x) * (((3 * a * x ^ 2 + 2 * b * x + c) +
        4 * (3 * a * ((x + y) / 2) ^ 2 + 2 * b * ((x + y) / 2) + c) +
        (3 * a * y ^ 2 + 2 * b * y + c)) / 6) := by
    apply mul_le_mul_of_nonneg_left
    · linarith
    · linarith
  have hloss : (y - x) * e ≤ e := mul_le_of_le_one_left he (by linarith)
  linarith

end Range

/-! ## Numbers in the tests -/

variable {x y value : Single} {n m : ℤ} {p q r : ℚ}

theorem zero_represents : (0 : Single).Represents ((0 : ℤ) : ℚ) := by
  rw [Int.cast_zero]
  exact Quantum.zero_represents

theorem one_represents : (1 : Single).Represents ((1 : ℤ) : ℚ) := by
  rw [Int.cast_one]
  exact Quantum.one_represents

/-- A value between two others passes the test, which has some room besides. -/
theorem liesBetween_of_mem (hx : x.Represents p) (hy : y.Represents q) (hv : value.Represents r)
    (hlo : min p q ≤ r) (hhi : r ≤ max p q) : liesBetween value x y = true := by
  obtain ⟨e, he, he0, -⟩ := negligible_represents
  have hbelow : ∀ {z : Single} {w : ℚ}, z.Represents w → w ≤ r → z - negligible ≤ value :=
    fun {z w} hz hw => (sub_rounds hz he).mono hv.rounds (by linarith)
  have habove : ∀ {z : Single} {w : ℚ}, z.Represents w → r ≤ w → value ≤ z + negligible :=
    fun {z w} hz hw => hv.rounds.mono (add_rounds hz he) (by linarith)
  unfold liesBetween
  simp only [Bool.and_eq_true, decide_eq_true_eq]
  by_cases hle : p ≤ q
  · rw [if_pos ((le_iff_of_represents hx hy).mpr hle), if_pos ((le_iff_of_represents hx hy).mpr hle)]
    rw [min_eq_left hle] at hlo
    rw [max_eq_right hle] at hhi
    exact ⟨hbelow hx hlo, habove hy hhi⟩
  · have hnot := mt (le_iff_of_represents hx hy).mp hle
    rw [if_neg hnot, if_neg hnot]
    rw [min_eq_right (le_of_not_ge hle)] at hlo
    rw [max_eq_left (le_of_not_ge hle)] at hhi
    exact ⟨hbelow hy hlo, habove hx hhi⟩

/-- What is found inside of the unit interval is a number there. -/
theorem insideUnit_represents (h : insideUnit x = true) :
    ∃ w, x.Represents w ∧ 0 < w ∧ w < 1 := by
  unfold insideUnit at h
  simp only [Bool.and_eq_true, decide_eq_true_eq] at h
  obtain ⟨w, hw, -, -⟩ := represents_between Quantum.zero_represents Quantum.one_represents
    (Binary.le_of_lt h.1) (Binary.le_of_lt h.2)
  exact ⟨w, hw, (lt_iff_of_represents Quantum.zero_represents hw).mp h.1,
    (lt_iff_of_represents hw Quantum.one_represents).mp h.2⟩

theorem insideUnit_iff (hx : x.Represents p) : insideUnit x = true ↔ 0 < p ∧ p < 1 := by
  unfold insideUnit
  rw [Bool.and_eq_true, decide_eq_true_eq, decide_eq_true_eq,
    lt_iff_of_represents Quantum.zero_represents hx, lt_iff_of_represents hx Quantum.one_represents]

/-- A quotient of whole numbers that lies inside of the unit interval is not rounded out of it. -/
theorem insideUnit_div (hx : x.Represents n) (hy : y.Represents m) (hm : m ≠ 0)
    (hm' : |m| ≤ 2 ^ 20) (h0 : 0 < (n : ℝ) / m) (h1 : (n : ℝ) / m < 1) :
    ∃ w : ℚ, (x / y).Represents w ∧ 0 < w ∧ w < 1 ∧ |(w : ℝ) - n / m| ≤ 1 / 2 ^ 24 := by
  replace h0 : 0 < (n : ℚ) / m := by
    rw [← Rat.cast_pos (K := ℝ)]
    push_cast
    exact h0
  replace h1 : (n : ℚ) / m < 1 := by
    rw [← Rat.cast_lt (K := ℝ)]
    push_cast
    exact h1
  have hmQ : (0 : ℚ) < |(m : ℚ)| := by exact_mod_cast abs_pos.mpr hm
  have hstep : 1 / 2 ^ 20 ≤ 1 / |(m : ℚ)| :=
    one_div_le_one_div_of_le hmQ (by exact_mod_cast hm')
  have hgap : ∀ {k : ℤ}, 0 < (k : ℚ) / m → 1 / |(m : ℚ)| ≤ (k : ℚ) / m := fun {k} hk => by
    rw [← abs_of_pos hk, abs_div]
    have hk0 : k ≠ 0 := by
      rintro rfl
      simp at hk
    gcongr
    exact_mod_cast Int.one_le_abs hk0
  have hrest : (1 : ℚ) - n / m = ((m - n : ℤ) : ℚ) / m := by
    have hm0 : (m : ℚ) ≠ 0 := by exact_mod_cast hm
    push_cast
    field_simp
  have hlow := hgap h0
  have hhigh := hgap (k := m - n) (by rw [← hrest]; linarith)
  rw [← hrest] at hhigh
  obtain ⟨w, hw, herr⟩ := (div_rounds hx hy (by exact_mod_cast hm)).within (spans_single (m := 0)
    (by decide)) (by rw [abs_of_pos h0]; linarith)
  rw [pow_zero, one_mul, roundoff_single] at herr
  obtain ⟨hleft, hright⟩ := abs_le.mp herr
  have hslack : (1 : ℚ) / 2 ^ 24 < 1 / 2 ^ 20 := by norm_num
  refine ⟨w, hw, by linarith, by linarith, ?_⟩
  have herrR := (Rat.cast_le (K := ℝ)).mpr herr
  push_cast at herrR
  exact herrR

/-! ## Short cuts -/

/-- In the unit interval, the function goes from below `v - 1` to above `v + 1`. -/
def ClearlyCrosses (f : ℝ → ℝ) (v : ℝ) : Prop :=
  ∃ s₁ ∈ Set.Icc (0 : ℝ) 1, ∃ s₂ ∈ Set.Icc (0 : ℝ) 1, f s₁ < v - 1 ∧ v + 1 < f s₂

variable {poly : Poly Single} {cs : List ℤ} {c0 c1 c2 c3 v α β : ℤ} {x1 x2 x3 start finish : Single}

theorem two_represents : (2 : Single).Represents ((2 : ℤ) : ℚ) := by
  have hnat := ofNat_represents (F := binary32) (Quantum.exact_nat (k := 2) (by decide))
  exact_mod_cast hnat

theorem three_represents : (3 : Single).Represents ((3 : ℤ) : ℚ) := by
  have hnat := ofNat_represents (F := binary32) (Quantum.exact_nat (k := 3) (by decide))
  exact_mod_cast hnat

theorem single_whole {k : ℤ} (h : |k| ≤ 2 ^ 24) : binary32.Exact k :=
  Quantum.exact_int (by rw [Int.abs_eq_natAbs] at h; omega)

theorem vertex_value_approx (h : poly.Whole cs) (hm : Moderate cs)
    (hcs : ∀ s : ℝ, wholeValue cs s = c2 * s ^ 2 + c1 * s + c0) (hc2 : c2 ≠ 0)
    (hb2 : |c2| ≤ 2 ^ 19) (hx1 : x1.Represents c1) (hx2 : x2.Represents c2)
    (h0 : 0 < -(c1 : ℝ) / (2 * c2)) (h1 : -(c1 : ℝ) / (2 * c2) < 1) :
    insideUnit (-x1 / (2 * x2)) = true ∧ (poly.eval (-x1 / (2 * x2))).Approx
      (c2 * (-(c1 : ℝ) / (2 * c2)) ^ 2 + c1 * (-(c1 : ℝ) / (2 * c2)) + c0) (3 / 4) := by
  have hc2R : (c2 : ℝ) ≠ 0 := by exact_mod_cast hc2
  have hden : (2 * x2).Represents ((2 * c2 : ℤ) : ℚ) :=
    two_represents.whole_mul hx2 (single_whole (by rw [abs_mul, abs_two]; omega))
  have hvertex := insideUnit_div hx1.whole_neg hden (by omega) (by rw [abs_mul, abs_two]; omega)
  push_cast at hvertex
  obtain ⟨w, hw, hw0, hw1, hnear⟩ := hvertex h0 h1
  obtain ⟨π, hπ, herr⟩ := h.eval_approx hm hw hw0.le hw1.le
  refine ⟨(insideUnit_iff hw).mpr ⟨hw0, hw1⟩, π, hπ, ?_⟩
  have hbent : c2 * (w : ℝ) ^ 2 + c1 * w + c0 -
      (c2 * (-(c1 : ℝ) / (2 * c2)) ^ 2 + c1 * (-(c1 : ℝ) / (2 * c2)) + c0) =
      c2 * (w - -(c1 : ℝ) / (2 * c2)) ^ 2 := by
    field_simp
    ring
  have hsmall : |c2 * ((w : ℝ) - -(c1 : ℝ) / (2 * c2)) ^ 2| ≤ 1 / 4 := by
    have hc2' : |(c2 : ℝ)| ≤ 2 ^ 19 := by exact_mod_cast hb2
    rw [abs_mul, abs_sq]
    calc |(c2 : ℝ)| * ((w : ℝ) - -(c1 : ℝ) / (2 * c2)) ^ 2 ≤ 2 ^ 19 * (1 / 2 ^ 24) ^ 2 := by
          gcongr ?_ * ?_
          exact sq_le_sq' (abs_le.mp hnear).1 (abs_le.mp hnear).2
      _ ≤ 1 / 4 := by norm_num
  rw [← hbent] at hsmall
  rw [hcs] at herr
  exact (abs_sub_le _ _ _).trans ((add_le_add herr hsmall).trans (by norm_num))

/-- The range that a quadratic is tested against reaches each value that it clearly crosses. -/
theorem quadraticReaches_of_crosses (h : poly.Whole cs) (hm : Moderate cs)
    (hcs : ∀ s : ℝ, wholeValue cs s = c2 * s ^ 2 + c1 * s + c0) (hc2 : c2 ≠ 0)
    (hb2 : |c2| ≤ 2 ^ 19) (hx1 : x1.Represents c1) (hx2 : x2.Represents c2)
    (hstart : start.Represents c0) (hfinish : finish.Represents ((c0 + c1 + c2 : ℤ) : ℚ))
    (hv : value.Represents v) (hcross : ClearlyCrosses (wholeValue cs) v) :
    poly.quadraticReaches value start finish x1 x2 = true := by
  obtain ⟨s₁, ⟨hs₁, hs₁'⟩, s₂, ⟨hs₂, hs₂'⟩, hbelow, habove⟩ := hcross
  rw [hcs] at hbelow habove
  have hc2R : (c2 : ℝ) ≠ 0 := by exact_mod_cast hc2
  have hlowest := quadratic_below hc2R hs₁ hs₁' hbelow
  have hhighest := quadratic_above hc2R hs₂ hs₂' habove
  have hvertex := vertex_value_approx h hm hcs hc2 hb2 hx1 hx2
  generalize -(c1 : ℝ) / (2 * c2) = V at hlowest hhighest hvertex
  unfold quadraticReaches
  simp only
  by_cases hin : insideUnit (-x1 / (2 * x2)) = true
  · rw [if_pos hin]
    obtain ⟨w, hw, hw0, hw1⟩ := insideUnit_represents hin
    obtain ⟨π, hπ, -⟩ := h.eval_approx hm hw hw0.le hw1.le
    have hpeak : 0 < V → V < 1 → |(π : ℝ) - (c2 * V ^ 2 + c1 * V + c0)| ≤ 3 / 4 := by
      intro h0 h1
      obtain ⟨-, π', hπ', hnear⟩ := hvertex h0 h1
      obtain rfl := hπ.unique hπ'
      exact hnear
    apply liesBetween_of_mem ((hstart.min hfinish).min hπ) ((hstart.max hfinish).max hπ) hv
    · apply min_le_of_left_le
      rw [min_le_iff, min_le_iff]
      rcases hlowest with hle | hle | ⟨h0, h1, hlt⟩
      · exact .inl (.inl (by exact_mod_cast hle))
      · exact .inl (.inr (by exact_mod_cast hle))
      · right
        have hle : (π : ℝ) ≤ v := by linarith [(abs_le.mp (hpeak h0 h1)).2]
        exact_mod_cast hle
    · apply le_max_of_le_right
      rw [le_max_iff, le_max_iff]
      rcases hhighest with hle | hle | ⟨h0, h1, hlt⟩
      · exact .inl (.inl (by exact_mod_cast hle))
      · exact .inl (.inr (by exact_mod_cast hle))
      · right
        have hle : (v : ℝ) ≤ π := by linarith [(abs_le.mp (hpeak h0 h1)).1]
        exact_mod_cast hle
  · rw [if_neg hin]
    apply liesBetween_of_mem hstart hfinish hv
    · rw [min_le_iff]
      rcases hlowest with hle | hle | ⟨h0, h1, -⟩
      · exact .inl (by exact_mod_cast hle)
      · exact .inr (by exact_mod_cast hle)
      · exact absurd (hvertex h0 h1).1 hin
    · rw [le_max_iff]
      rcases hhighest with hle | hle | ⟨h0, h1, -⟩
      · exact .inl (by exact_mod_cast hle)
      · exact .inr (by exact_mod_cast hle)
      · exact absurd (hvertex h0 h1).1 hin

/-- A cubic that hardly falls goes from its start to its end past every value it clearly crosses. -/
theorem rising_ends {a b c d v e s₁ s₂ : ℝ} (he : 0 ≤ e) (he' : e ≤ 1)
    (hends : 0 ≤ c ∧ 0 ≤ 3 * a + 2 * b + c) (ha : a ≠ 0)
    (hvertex : 0 < -b / (3 * a) → -b / (3 * a) < 1 →
      -e ≤ 3 * a * (-b / (3 * a)) ^ 2 + 2 * b * (-b / (3 * a)) + c)
    (hs₁ : 0 ≤ s₁ ∧ s₁ ≤ 1) (hs₂ : 0 ≤ s₂ ∧ s₂ ≤ 1)
    (hbelow : a * s₁ ^ 3 + b * s₁ ^ 2 + c * s₁ + d < v - 1)
    (habove : v + 1 < a * s₂ ^ 3 + b * s₂ ^ 2 + c * s₂ + d) : d ≤ v ∧ v ≤ a + b + c + d := by
  have hV : -(-(2 * b)) / (2 * -(3 * a)) = -b / (3 * a) := by field_simp
  have hslope : ∀ s, 0 ≤ s → s ≤ 1 → -e ≤ 3 * a * s ^ 2 + 2 * b * s + c := by
    intro s hs hs'
    rcases quadratic_le (a := -(3 * a)) (b := -(2 * b)) (by simpa using ha) hs hs' with hle | hle
    · rcases le_max_iff.mp hle with hle | hle <;> linarith [hends.1, hends.2]
    · rw [hV] at hle
      linarith [hvertex hle.1 hle.2.1, hle.2.2]
  have hfrom := cubic_le he le_rfl hs₁.1 hs₁.2 hslope
  have hto := cubic_le he hs₂.1 hs₂.2 le_rfl hslope
  constructor <;> linarith

theorem Whole.length_coeffs (h : poly.Whole cs) : poly.count = cs.length := by
  rw [← Poly.length_coeffs h.count, h.coeffs.length_eq]

theorem Whole.derivative (h : poly.Whole [c0, c1, c2, c3]) (hm : Moderate [c0, c1, c2, c3]) :
    poly.derivative.Whole [c1, 2 * c2, 3 * c3] := by
  have hcount : poly.count = 4 := h.length_coeffs
  obtain ⟨-, hcoeffs⟩ := h
  match hslots : poly.coeffs, hcoeffs with
  | [y0, y1, y2, y3], .cons _ (.cons hy1 (.cons hy2 (.cons hy3 .nil))) =>
    have hone := one_represents.whole_mul hy1 (single_whole (by have := hm.first; simp at *; omega))
    have htwo := two_represents.whole_mul hy2 (single_whole (by have := hm.second; simp at *; omega))
    have hthree := three_represents.whole_mul hy3 (single_whole (by have := hm.third; simp at *; omega))
    rw [one_mul] at hone
    have hslope : poly.derivative.coeffs = weighted 1 [y1, y2, y3] := by
      rw [coeffs_derivative (by simp [hcount, polySlots]) (by omega), hslots, List.tail_cons]
    refine ⟨?_, ?_⟩
    · unfold Poly.derivative
      rw [if_neg (by omega), hcount]
      exact (by decide : 4 - 1 ≤ polySlots)
    · rw [hslope]
      exact .cons hone (.cons htwo (.cons hthree .nil))

theorem Moderate.slope_size_le (hm : Moderate [c0, c1, c2, c3]) :
    size [c1, 2 * c2, 3 * c3] ≤ 1769418 := by
  have hfirst := hm.first
  have hsecond := hm.second
  have hthird := hm.third
  simp [size] at *
  omega

theorem vertex_slope_approx (h : poly.Whole [c0, c1, c2, c3]) (hm : Moderate [c0, c1, c2, c3])
    (hc3 : c3 ≠ 0) (hx2 : x2.Represents c2) (hx3 : x3.Represents c3)
    (h0 : 0 < -(c2 : ℝ) / (3 * c3)) (h1 : -(c2 : ℝ) / (3 * c3) < 1) :
    insideUnit (-x2 / (3 * x3)) = true ∧
      (poly.derivative.eval (-x2 / (3 * x3))).Approx
        (3 * c3 * (-(c2 : ℝ) / (3 * c3)) ^ 2 + 2 * c2 * (-(c2 : ℝ) / (3 * c3)) + c1) (7 / 8) := by
  have hthird : |c3| ≤ 262136 := by simpa using hm.third
  have hden : (3 * x3).Represents ((3 * c3 : ℤ) : ℚ) :=
    three_represents.whole_mul hx3 (single_whole (by rw [abs_mul]; norm_num; omega))
  have hvertex := insideUnit_div hx2.whole_neg hden (by omega) (by rw [abs_mul]; norm_num; omega)
  push_cast at hvertex
  obtain ⟨w, hw, hw0, hw1, hnear⟩ := hvertex h0 h1
  have hsize : (size [c1, 2 * c2, 3 * c3] : ℝ) ≤ 1769418 := by exact_mod_cast hm.slope_size_le
  have hb : (((2 ^ 21 : ℚ) : ℝ) * binary32.roundoff) = 1 / 8 := by
    rw [roundoff_single]
    norm_num
  obtain ⟨g, hg, herr⟩ := horner_approx (h.derivative hm).coeffs hw hw0.le hw1.le
    (spans_single (m := 21) (by decide)) (by
      rw [hb, List.length_cons, List.length_cons, List.length_cons, List.length_nil]
      push_cast
      linarith)
  rw [hb] at herr
  refine ⟨(insideUnit_iff hw).mpr ⟨hw0, hw1⟩, g, hg, ?_⟩
  have hc3R : (c3 : ℝ) ≠ 0 := by exact_mod_cast hc3
  have hbent : 3 * c3 * (w : ℝ) ^ 2 + 2 * c2 * w + c1 -
      (3 * c3 * (-(c2 : ℝ) / (3 * c3)) ^ 2 + 2 * c2 * (-(c2 : ℝ) / (3 * c3)) + c1) =
      3 * c3 * (w - -(c2 : ℝ) / (3 * c3)) ^ 2 := by
    field_simp
    ring
  have hsmall : |3 * (c3 : ℝ) * (w - -(c2 : ℝ) / (3 * c3)) ^ 2| ≤ 1 / 8 := by
    have hc3' : |3 * (c3 : ℝ)| ≤ 2 ^ 20 := by
      rw [abs_mul, abs_of_pos three_pos]
      have hle : |(c3 : ℝ)| ≤ 262136 := by exact_mod_cast hthird
      linarith
    rw [abs_mul, abs_sq]
    calc |3 * (c3 : ℝ)| * (w - -(c2 : ℝ) / (3 * c3)) ^ 2 ≤ 2 ^ 20 * (1 / 2 ^ 24) ^ 2 := by
          gcongr ?_ * ?_
          exact sq_le_sq' (abs_le.mp hnear).1 (abs_le.mp hnear).2
      _ ≤ 1 / 8 := by norm_num
  rw [← hbent] at hsmall
  have hhorner : wholeValue [c1, 2 * c2, 3 * c3] w = 3 * c3 * (w : ℝ) ^ 2 + 2 * c2 * w + c1 := by
    simp
    ring
  rw [hhorner] at herr
  have htri := abs_sub_le (g : ℝ) (3 * c3 * (w : ℝ) ^ 2 + 2 * c2 * w + c1)
    (3 * c3 * (-(c2 : ℝ) / (3 * c3)) ^ 2 + 2 * c2 * (-(c2 : ℝ) / (3 * c3)) + c1)
  norm_num at herr
  linarith

/-- Only a cubic whose slopes have one sign is compared with its ends, so that each value
that a cubic clearly crosses is let through. -/
theorem cubicReaches_of_crosses (h : poly.Whole [c0, c1, c2, c3])
    (hm : Moderate [c0, c1, c2, c3]) (hc3 : c3 ≠ 0) (hx2 : x2.Represents c2)
    (hx3 : x3.Represents c3) (hstart : start.Represents c0)
    (hfinish : finish.Represents ((c0 + c1 + c2 + c3 : ℤ) : ℚ)) (hv : value.Represents v)
    (hcross : ClearlyCrosses (wholeValue [c0, c1, c2, c3]) v) :
    poly.cubicReaches value start finish x2 x3 = true := by
  obtain ⟨s₁, hs₁, s₂, hs₂, hbelow, habove⟩ := hcross
  have hvalue : ∀ s : ℝ, wholeValue [c0, c1, c2, c3] s = c3 * s ^ 3 + c2 * s ^ 2 + c1 * s + c0 := by
    intro s
    simp
    ring
  rw [hvalue] at hbelow habove
  have hc3R : (c3 : ℝ) ≠ 0 := by exact_mod_cast hc3
  have hsize : size [c1, 2 * c2, 3 * c3] ≤ 2 ^ 24 := hm.slope_size_le.trans (by decide)
  obtain ⟨g0, hg0, hg0val, -⟩ := horner_whole (h.derivative hm).coeffs zero_represents le_rfl
    zero_le_one hsize
  obtain ⟨g1, hg1, hg1val, -⟩ := horner_whole (h.derivative hm).coeffs one_represents zero_le_one
    le_rfl hsize
  have hg0c : (c1 : ℝ) = g0 := by simpa using hg0val
  have hg1c : (3 * c3 + 2 * c2 + c1 : ℝ) = g1 := by simpa using hg1val
  have hvertex := vertex_slope_approx h hm hc3 hx2 hx3
  have hends : (c0 ≤ v ∧ v ≤ c3 + c2 + c1 + c0) ∨ (v ≤ c0 ∧ c3 + c2 + c1 + c0 ≤ v) →
      liesBetween value start finish = true := by
    intro hor
    apply liesBetween_of_mem hstart hfinish hv
    · rw [min_le_iff]
      exact hor.imp (fun hup => by exact_mod_cast hup.1) (fun hdown => by
        have hle : c0 + c1 + c2 + c3 ≤ v := by omega
        exact_mod_cast hle)
    · rw [le_max_iff, or_comm]
      exact hor.imp (fun hup => by
        have hle : v ≤ c0 + c1 + c2 + c3 := by omega
        exact_mod_cast hle) (fun hdown => by exact_mod_cast hdown.1)
  unfold cubicReaches
  simp only [Bool.or_eq_true, Bool.not_eq_true']
  rw [or_iff_not_imp_left, Bool.not_eq_false, Bool.or_eq_true]
  simp only [Bool.and_eq_true, decide_eq_true_eq]
  intro hmono
  apply hends
  rcases hmono with ⟨⟨h0, h1⟩, hmid⟩ | ⟨⟨h0, h1⟩, hmid⟩
  · left
    have h0' : (0 : ℤ) ≤ g0 := by exact_mod_cast (le_iff_of_represents zero_represents hg0).mp h0
    have h1' : (0 : ℤ) ≤ g1 := by exact_mod_cast (le_iff_of_represents zero_represents hg1).mp h1
    have hrise := rising_ends (e := 7 / 8) (by norm_num) (by norm_num)
      ⟨by rw [hg0c]; exact_mod_cast h0', by rw [hg1c]; exact_mod_cast h1'⟩ hc3R
      (fun hV0 hV1 => by
        obtain ⟨hin, g, hg, herr⟩ := hvertex hV0 hV1
        rw [if_pos hin] at hmid
        have hg0 : (0 : ℝ) ≤ g := by
          exact_mod_cast (le_iff_of_represents Quantum.zero_represents hg).mp hmid
        linarith [(abs_le.mp herr).2]) hs₁ hs₂ hbelow habove
    exact_mod_cast hrise
  · right
    have h0' : g0 ≤ (0 : ℤ) := by exact_mod_cast (le_iff_of_represents hg0 zero_represents).mp h0
    have h1' : g1 ≤ (0 : ℤ) := by exact_mod_cast (le_iff_of_represents hg1 zero_represents).mp h1
    have hV : -(-(c2 : ℝ)) / (3 * -c3) = -c2 / (3 * c3) := by rw [mul_neg, neg_div_neg_eq]
    have hfall := rising_ends (a := -c3) (b := -c2) (c := -c1) (d := -c0) (v := -v) (e := 7 / 8)
      (by norm_num) (by norm_num)
      ⟨by have hle : (g0 : ℝ) ≤ 0 := by exact_mod_cast h0'
          linarith,
        by have hle : (g1 : ℝ) ≤ 0 := by exact_mod_cast h1'
           linarith⟩ (neg_ne_zero.mpr hc3R)
      (fun hV0 hV1 => by
        rw [hV] at hV0 hV1 ⊢
        obtain ⟨hin, g, hg, herr⟩ := hvertex hV0 hV1
        rw [if_pos hin] at hmid
        have hg0 : (g : ℝ) ≤ 0 := by
          exact_mod_cast (le_iff_of_represents hg Quantum.zero_represents).mp hmid
        linarith [(abs_le.mp herr).1]) hs₂ hs₁ (by linarith) (by linarith)
    have hstart' : (v : ℝ) ≤ c0 := by linarith [hfall.1]
    have hfinish' : (c3 + c2 + c1 + c0 : ℝ) ≤ v := by linarith [hfall.2]
    exact ⟨by exact_mod_cast hstart', by exact_mod_cast hfinish'⟩

end DroneShow.Poly
