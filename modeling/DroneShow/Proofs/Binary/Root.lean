-- Square roots and cube roots of numbers. The integer root is the floor of the
-- exact one, and what it cuts off is told by one more bit, so that the rounded
-- root is next to the exact one.
import Mathlib.Analysis.Real.Sqrt
import DroneShow.Binary.Roots
import DroneShow.Proofs.Binary.Relative

namespace DroneShow

variable {n x bits root : Nat}

/-! ## Integer roots -/

/-- The bits that were tried leave the root within one step of the next bit. -/
theorem rootBits_bounds (hlow : root ^ n ≤ x) (hhigh : x < (root + 2 ^ bits) ^ n) :
    rootBits n x bits root ^ n ≤ x ∧ x < (rootBits n x bits root + 1) ^ n := by
  induction bits generalizing root with
  | zero => exact ⟨hlow, by simpa [rootBits] using hhigh⟩
  | succ bits ih =>
    unfold rootBits
    simp only [Nat.shiftLeft_eq, Nat.one_mul]
    by_cases hnext : Nat.pow (root + 2 ^ bits) n ≤ x
    · rw [if_pos hnext]
      refine ih hnext ?_
      rwa [Nat.add_assoc, ← Nat.two_mul, ← Nat.pow_succ']
    · rw [if_neg hnext]
      exact ih hlow (Nat.not_le.mp hnext)

theorem floorRoot_bounds (hn : 0 < n) (x : Nat) :
    floorRoot n x ^ n ≤ x ∧ x < (floorRoot n x + 1) ^ n := by
  unfold floorRoot
  refine rootBits_bounds ?_ ?_
  · rw [zero_pow hn.ne']
    exact Nat.zero_le x
  · have hlog : x.log2 < n * (x.log2 / n + 1) := by
      have hdiv := Nat.lt_div_mul_add hn (a := x.log2)
      rw [Nat.mul_add, Nat.mul_comm, Nat.mul_one]
      exact hdiv
    calc x < 2 ^ (x.log2 + 1) := Nat.lt_log2_self
      _ ≤ 2 ^ (n * (x.log2 / n + 1)) := Nat.pow_le_pow_right (by omega) hlog
      _ = (0 + 2 ^ (x.log2 / n + 1)) ^ n := by rw [Nat.zero_add, ← Nat.pow_mul, Nat.mul_comm]

/-! ## Rounded roots -/

namespace Binary

variable {F : Format} {ρ : ℝ} {num : Nat} {e : ℤ}

/-- A shift by a wanted number of bits, and by the few more that make the rest of the
exponent divisible. -/
theorem exponent_of_shift (hn : 0 < n) (e : ℤ) (wanted : ℕ) :
    e = (wanted + ((e - wanted) % n).toNat : ℕ) +
      n * ((e - (wanted + ((e - wanted) % n).toNat : ℕ)) / n) := by
  have hmod := Int.emod_nonneg (e - wanted) (by exact_mod_cast hn.ne' : (n : ℤ) ≠ 0)
  have hdiv := Int.emod_add_mul_ediv (e - wanted) n
  have hmultiple : e - (wanted + ((e - wanted) % n).toNat : ℕ) = n * ((e - wanted) / n) := by
    push_cast
    rw [Int.toNat_of_nonneg hmod]
    linarith
  rw [hmultiple, Int.mul_ediv_cancel_left _ (by exact_mod_cast hn.ne')]
  linarith

/-- The number of which the integer root is taken has room for two bits more than a
significand, and what it leaves to the exponent has a root that is a power of two. -/
theorem rootScaled_shift (F : Format) (hn : 0 < n) (hnum : num ≠ 0) (e : ℤ) :
    ∃ (shift : Nat) (k : ℤ), e = shift + n * k ∧ 2 ^ (n * (F.precision + 2)) ≤ num <<< shift ∧
      ∀ negative, (rootScaled n negative num e : Binary F) =
        ofScaled negative (2 * floorRoot n (num <<< shift) +
          if Nat.pow (floorRoot n (num <<< shift)) n = num <<< shift then 0 else 1) 1 (k - 1) := by
  generalize hwanted : n * (F.precision + 2) - num.log2 = wanted
  refine ⟨wanted + ((e - wanted) % n).toNat, _, exponent_of_shift hn e wanted, ?_, fun negative => ?_⟩
  · rw [Nat.shiftLeft_eq]
    calc 2 ^ (n * (F.precision + 2)) ≤ 2 ^ (num.log2 + (wanted + ((e - wanted) % n).toNat)) :=
          Nat.pow_le_pow_right (by decide) (by omega)
      _ = 2 ^ num.log2 * 2 ^ (wanted + ((e - wanted) % n).toNat) := pow_add _ _ _
      _ ≤ num * 2 ^ (wanted + ((e - wanted) % n).toNat) :=
          Nat.mul_le_mul_right _ (Nat.log2_self_le hnum)
  · unfold rootScaled
    rw [if_neg hnum]
    simp only [hwanted]

/-- The root of the integer is within a half of what the rounding is given. -/
theorem floorRoot_near (hn : 0 < n) {σ : ℝ} (hσ : 0 ≤ σ) (h : σ ^ n = x) :
    |((2 * floorRoot n x + if Nat.pow (floorRoot n x) n = x then 0 else 1 : ℕ) : ℝ) / 2 - σ| ≤
      1 / 2 ∧ floorRoot n x ≤ σ ∧ σ < floorRoot n x + 1 := by
  obtain ⟨hlow, hhigh⟩ := floorRoot_bounds hn x
  have hlow' : (floorRoot n x : ℝ) ≤ σ := by
    refine (pow_le_pow_iff_left₀ (by positivity) hσ hn.ne').mp ?_
    rw [h]
    exact_mod_cast hlow
  have hhigh' : σ < floorRoot n x + 1 := by
    refine (pow_lt_pow_iff_left₀ hσ (by positivity) hn.ne').mp ?_
    rw [h]
    exact_mod_cast hhigh
  refine ⟨?_, hlow', hhigh'⟩
  rw [abs_le]
  by_cases hexact : Nat.pow (floorRoot n x) n = x
  · have hroot : σ = floorRoot n x := by
      refine (pow_left_inj₀ hσ (by positivity) hn.ne').mp ?_
      rw [h]
      exact_mod_cast hexact.symm
    rw [if_pos hexact, hroot]
    push_cast
    constructor <;> linarith
  · rw [if_neg hexact]
    push_cast
    constructor <;> linarith

/-- A root is off by hardly more than one rounding. -/
theorem rootScaled_approx (hn : 0 < n) (negative : Bool) (hnum : num ≠ 0) (hρ : 0 ≤ ρ)
    (h : ρ ^ n = num * 2 ^ e) {b : ℚ} (hb : F.Spans b) (hle : 2 * ρ ≤ b) :
    (rootScaled n negative num e : Binary F).Approx (signFactor negative * ρ)
      (2 * (b * F.roundoff)) := by
  obtain ⟨shift, k, he, hlarge, hroot⟩ := rootScaled_shift F hn hnum e
  rw [hroot negative]
  have hσ : (ρ / 2 ^ k) ^ n = (num <<< shift : ℕ) := by
    rw [div_pow, h, Nat.shiftLeft_eq, he, zpow_add₀ two_ne_zero, mul_comm (n : ℤ) k, zpow_mul, zpow_natCast,
      zpow_natCast, ← mul_assoc, mul_div_assoc, div_self (by positivity)]
    push_cast
    ring
  obtain ⟨hnear, hlow, -⟩ := floorRoot_near hn (by positivity) hσ
  have hbits : 2 ^ (F.precision + 2) ≤ floorRoot n (num <<< shift) := by
    obtain ⟨-, hhigh⟩ := floorRoot_bounds hn (num <<< shift)
    rw [mul_comm, pow_mul] at hlarge
    exact Nat.lt_succ_iff.mp (lt_of_pow_lt_pow_left₀ n (Nat.zero_le _) (hlarge.trans_lt hhigh))
  have hscale : (2 : ℝ) ^ k * 2 ^ (F.precision + 2) ≤ ρ := by
    rw [le_div_iff₀ (by positivity)] at hlow
    refine le_trans ?_ hlow
    rw [mul_comm]
    gcongr
    exact_mod_cast hbits
  generalize 2 * floorRoot n (num <<< shift) +
    (if Nat.pow (floorRoot n (num <<< shift)) n = num <<< shift then 0 else 1) = root at hnear ⊢
  have hrounds : (ofScaled negative root 1 (k - 1) : Binary F).Rounds
      (signFactor negative * (root / 2 * 2 ^ k)) := by
    refine ⟨negative, root, 1, k - 1, Nat.one_pos, rfl, ?_⟩
    rw [zpow_sub_one₀ two_ne_zero, Nat.cast_one]
    ring
  have hk : (0 : ℝ) < 2 ^ k := by positivity
  have hroundoff : 1 / 2 ^ (F.precision + 3) ≤ (F.roundoff : ℝ) := by
    unfold Format.roundoff
    push_cast
    rw [one_div, ← zpow_natCast, ← zpow_neg]
    exact zpow_le_zpow_right₀ one_le_two (by omega)
  have hsmall : (2 : ℝ) ^ k / 2 ≤ b * F.roundoff :=
    calc (2 : ℝ) ^ k / 2 = 2 * (2 ^ k * 2 ^ (F.precision + 2)) * (1 / 2 ^ (F.precision + 3)) / 2 := by
          rw [pow_succ 2 (F.precision + 2)]
          field_simp
      _ ≤ b * (1 / 2 ^ (F.precision + 3)) / 2 := by
          gcongr
          linarith
      _ ≤ b * (1 / 2 ^ (F.precision + 3)) := half_le_self (by have := hb.pos; positivity)
      _ ≤ b * F.roundoff := by
          have := hb.pos
          gcongr
  have hone : (2 : ℝ) ^ k ≤ ρ :=
    (le_mul_of_one_le_right hk.le (one_le_pow₀ one_le_two)).trans hscale
  have hsign : |(signFactor negative : ℝ)| = 1 := by cases negative <;> simp [signFactor]
  refine (hrounds.approx (r := signFactor negative * ρ) (e := 2 ^ k / 2) hb ?_ ?_).mono (by linarith)
  · push_cast
    have hsplit : (root : ℝ) / 2 * 2 ^ k - ρ = (root / 2 - ρ / 2 ^ k) * 2 ^ k := by field_simp
    rw [← mul_sub, abs_mul, hsign, one_mul, hsplit, abs_mul, abs_of_pos hk]
    calc |(root : ℝ) / 2 - ρ / 2 ^ k| * 2 ^ k ≤ 1 / 2 * 2 ^ k := by gcongr
      _ = 2 ^ k / 2 := by ring
  · rw [abs_mul, hsign, one_mul, abs_of_nonneg hρ]
    linarith

theorem sqrt_approx {x : Binary F} {q b : ℚ} (hx : x.Represents q) (hq : 0 < q) (hb : F.Spans b)
    (hle : 2 * √(q : ℝ) ≤ b) : (sqrt x).Approx (√(q : ℝ)) (2 * (b * F.roundoff)) := by
  obtain ⟨r, hr, rfl, hval⟩ := hx.eq_positive hq
  have hsig : F.significand r ≠ 0 := by
    intro h0
    rw [← hval, Format.magnitude, h0] at hq
    simp at hq
  have hr0 : r ≠ 0 := by
    rintro rfl
    rw [← hval, Format.magnitude_zero] at hq
    exact hq.false
  have hroot := rootScaled_approx (n := 2) two_pos false hsig (Real.sqrt_nonneg q) (e := F.exponent r)
    (by
      rw [Real.sq_sqrt (by exact_mod_cast hq.le), ← hval, Format.magnitude]
      push_cast
      rfl) hb hle
  simpa [sqrt, hr0, hr.ne] using hroot

end Binary

end DroneShow
