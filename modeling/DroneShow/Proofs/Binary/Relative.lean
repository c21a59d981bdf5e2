-- Computed numbers beside exact ones. A value with a full significand is moved by
-- rounding at most by its own size in units of the last place, so that each operation
-- adds to the errors of its operands one more that is relative to the size of the result.
import Mathlib.Data.Real.Basic
import DroneShow.Proofs.Binary.Sum

namespace DroneShow

namespace Format

variable {F : Format}

/-- The step at a value is the least one, or small against the value. -/
theorem step_le (F : Format) {num den : Nat} (hn : num ≠ 0) (hd : 0 < den) (e : Int) :
    F.step num den e = 2 ^ F.minExponent ∨
      F.step num den e ≤ (num : ℚ) / den * 2 ^ e * 2 ^ (-((F.precision - 1 : Nat) : Int)) := by
  obtain ⟨hlow, -⟩ := log2Div_bounds hn hd
  unfold step targetBinade
  generalize log2Div num den = l at hlow ⊢
  rcases Int.lt_or_le 0 (l + e - (F.precision - 1 : Nat) - F.minExponent) with hpos | hle
  · right
    have hexp : F.minExponent + ((l + e - (F.precision - 1 : Nat) - F.minExponent).toNat : Int) =
        l + e + -((F.precision - 1 : Nat) : Int) := by omega
    rw [hexp, zpow_add₀ two_ne_zero, zpow_add₀ two_ne_zero]
    gcongr
  · left
    rw [Int.toNat_eq_zero.mpr hle]
    simp

/-- The greatest relative error of rounding a value with a full significand. -/
def roundoff (F : Format) : ℚ := 2 ^ (-(F.precision - 1 : Nat) - 1 : Int)

theorem roundoff_pos (F : Format) : 0 < F.roundoff := by
  unfold roundoff
  positivity

/-- Values up to this size are rounded within its part `roundoff`. -/
def Spans (F : Format) (b : ℚ) : Prop :=
  2 ^ (F.minExponent + (F.precision - 1 : Nat)) ≤ b ∧ ∃ m, F.Covers m ∧ b < 2 ^ m

theorem Spans.pos {b : ℚ} (h : F.Spans b) : 0 < b :=
  lt_of_lt_of_le (by positivity) h.1

end Format

namespace Binary

variable {F : Format} {x y : Binary F} {q b : ℚ} {m : Int}

theorem Rounds.relative (h : x.Rounds q) (hm : F.Covers m) (hq : |q| < 2 ^ m) :
    ∃ z, x.Represents z ∧
      (|z - q| ≤ |q| * F.roundoff ∨ |z - q| ≤ 2 ^ (F.minExponent - 1)) := by
  by_cases h0 : q = 0
  · subst h0
    refine ⟨0, h.exact F.exact_zero, .inr ?_⟩
    rw [sub_self, abs_zero]
    positivity
  · obtain ⟨n, num, den, e, hd, rfl, rfl⟩ := h
    have hnonneg : (0 : ℚ) ≤ num / den * 2 ^ e := by positivity
    rw [abs_signFactor_mul, abs_of_nonneg hnonneg] at hq ⊢
    have hn : num ≠ 0 := by
      rintro rfl
      simp at h0
    have hlt := F.nearestRank_lt_infinity hd (by have := hm.2.1; omega) hm.2.2 hq
    have herr := F.nearestRank_error num hd e
    refine ⟨signFactor n * F.magnitude (F.nearestRank num den e), ?_, ?_⟩
    · simp only [ofScaled, ofRank, Represents, Nat.min_eq_left hlt.le]
      exact ⟨hlt, trivial⟩
    · rw [signFactor_mul_sub]
      unfold Format.roundoff
      rcases F.step_le hn hd e with hstep | hstep
      · right
        rw [hstep] at herr
        rw [zpow_sub_one₀ two_ne_zero]
        linarith
      · left
        rw [zpow_sub_one₀ two_ne_zero]
        linarith

/-- The least error is in reach of the relative one from the first full significand on. -/
theorem least_error_eq (F : Format) : (2 : ℚ) ^ (F.minExponent - 1) =
    2 ^ (F.minExponent + (F.precision - 1 : Nat)) * F.roundoff := by
  unfold Format.roundoff
  rw [← zpow_add₀ two_ne_zero]
  congr 1
  omega

theorem Rounds.within (h : x.Rounds q) (hb : F.Spans b) (hq : |q| ≤ b) :
    ∃ z, x.Represents z ∧ |z - q| ≤ b * F.roundoff := by
  obtain ⟨hlow, m, hm, hlt⟩ := hb
  obtain ⟨z, hz, herr⟩ := h.relative hm (lt_of_le_of_lt hq hlt)
  have hpos := F.roundoff_pos
  refine ⟨z, hz, ?_⟩
  rcases herr with herr | herr
  · exact herr.trans (by gcongr)
  · rw [least_error_eq] at herr
    exact herr.trans (by gcongr)

/-! ## Errors of computed numbers -/

variable {r s e f : ℝ}

/-- The number is finite and at most `e` away from the real number `r`. -/
def Approx (x : Binary F) (r e : ℝ) : Prop := ∃ z : ℚ, x.Represents z ∧ |(z : ℝ) - r| ≤ e

theorem Represents.approx (h : x.Represents q) : x.Approx q 0 :=
  ⟨q, h, by rw [sub_self, abs_zero]⟩

/-- The exact value of a finite number. -/
noncomputable def real : Binary F → ℝ
  | .nan => 0
  | .number n rank _ => (signFactor n * F.magnitude rank : ℚ)

theorem Represents.real (h : x.Represents q) : x.real = q := by
  cases x with
  | nan => exact h.elim
  | number n rank hrank => rw [h.2, Binary.real]

theorem Approx.mono (h : x.Approx r e) (hle : e ≤ f) : x.Approx r f :=
  h.imp fun _ ⟨hz, herr⟩ => ⟨hz, herr.trans hle⟩

theorem Approx.nonneg (h : x.Approx r e) : 0 ≤ e := by
  obtain ⟨z, -, herr⟩ := h
  exact (abs_nonneg _).trans herr

theorem Approx.isFinite (h : x.Approx r e) : x.isFinite = true := by
  obtain ⟨z, hz, -⟩ := h
  exact hz.isFinite

theorem Rounds.approx (h : x.Rounds q) (hb : F.Spans b) (hq : |(q : ℝ) - r| ≤ e)
    (hr : |r| + e ≤ b) : x.Approx r (e + b * F.roundoff) := by
  have hqb : |q| ≤ b := by
    have htri := abs_add_le r ((q : ℝ) - r)
    rw [add_sub_cancel] at htri
    have hle : |(q : ℝ)| ≤ b := by linarith
    exact_mod_cast hle
  obtain ⟨z, hz, herr⟩ := h.within hb hqb
  have herr' : |(z : ℝ) - q| ≤ b * F.roundoff := by exact_mod_cast herr
  refine ⟨z, hz, ?_⟩
  have htri := abs_add_le ((z : ℝ) - q) (q - r)
  rw [sub_add_sub_cancel] at htri
  linarith

theorem Approx.add (hx : x.Approx r e) (hy : y.Approx s f) (hb : F.Spans b)
    (h : |r + s| + (e + f) ≤ b) : (x + y).Approx (r + s) (e + f + b * F.roundoff) := by
  obtain ⟨p, hp, hpe⟩ := hx
  obtain ⟨q, hq, hqf⟩ := hy
  refine (add_rounds hp hq).approx hb ?_ h
  push_cast
  rw [add_sub_add_comm]
  exact (abs_add_le _ _).trans (add_le_add hpe hqf)

theorem Approx.mul (hx : x.Approx r e) (hy : y.Approx s f) (hb : F.Spans b)
    (h : |r * s| + (e * |s| + |r| * f + e * f) ≤ b) :
    (x * y).Approx (r * s) (e * |s| + |r| * f + e * f + b * F.roundoff) := by
  obtain ⟨p, hp, hpe⟩ := hx
  obtain ⟨q, hq, hqf⟩ := hy
  refine (mul_rounds hp hq).approx hb ?_ h
  push_cast
  have hsplit : (p : ℝ) * q - r * s = (p - r) * s + r * (q - s) + (p - r) * (q - s) := by ring
  rw [hsplit]
  refine (abs_add_three _ _ _).trans ?_
  rw [abs_mul, abs_mul, abs_mul]
  have he : 0 ≤ e := (abs_nonneg _).trans hpe
  gcongr

theorem Approx.neg (hx : x.Approx r e) : (-x).Approx (-r) e := by
  obtain ⟨p, hp, hpe⟩ := hx
  refine ⟨-p, neg_represents hp, ?_⟩
  rwa [Rat.cast_neg, ← neg_sub', abs_neg]

theorem Approx.div (hx : x.Approx r e) (hy : y.Represents q) (hq : q ≠ 0) (hb : F.Spans b)
    (h : |r / q| + e / |(q : ℝ)| ≤ b) : (x / y).Approx (r / q) (e / |(q : ℝ)| + b * F.roundoff) := by
  obtain ⟨p, hp, hpe⟩ := hx
  refine (div_rounds hp hy hq).approx hb ?_ h
  push_cast
  rw [← sub_div, abs_div]
  gcongr

end Binary

end DroneShow
