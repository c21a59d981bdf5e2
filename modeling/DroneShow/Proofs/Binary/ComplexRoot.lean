-- Cube roots of complex numbers. The real part of the integer root solves the equation of
-- the triple angle up to one unit, and the imaginary part completes the modulus. Where the
-- equation or the modulus has a double root, half of the digits are lost, and those that
-- are left are still more than a significand has.
import Mathlib.Tactic.LinearCombination
import DroneShow.Proofs.Binary.Root

namespace DroneShow.Binary

/-! ## Integer roots -/

/-- The cosine of the triple angle at `x`, for a modulus whose square is `r`. -/
def tripled (r x : ℤ) : ℤ := x * (4 * (x * x)) - x * (3 * r)

variable {r x bits b n : ℕ} {a : ℤ}

/-- Of the numbers from the first one on, the greatest is found that is not too large. -/
theorem cosineBits_bounds (h : a < tripled r ((x + 2 ^ bits : ℕ) : ℤ)) :
    (cosineBits r a bits x = x ∨ tripled r (cosineBits r a bits x) ≤ a) ∧
      a < tripled r (cosineBits r a bits x + 1) := by
  induction bits generalizing x with
  | zero => exact ⟨.inl rfl, by simpa [cosineBits] using h⟩
  | succ bits ih =>
    have hstep : cosineBits r a (bits + 1) x = cosineBits r a bits
        (if tripled r ((x + 2 ^ bits : ℕ) : ℤ) ≤ a then x + 2 ^ bits else x) := by
      rw [← Nat.one_mul (2 ^ bits), ← Nat.shiftLeft_eq]
      rfl
    rw [hstep]
    by_cases hnext : tripled r ((x + 2 ^ bits : ℕ) : ℤ) ≤ a
    · rw [if_pos hnext]
      obtain ⟨hlow, hhigh⟩ := ih (x := x + 2 ^ bits) (by rwa [Nat.add_assoc, ← Nat.two_mul, ← Nat.pow_succ'])
      refine ⟨.inr ?_, hhigh⟩
      rcases hlow with heq | hle
      · rwa [heq]
      · exact hle
    · rw [if_neg hnext]
      exact ih (not_le.mp hnext)

theorem le_cosineBits (r : ℕ) (a : ℤ) (bits x : ℕ) : x ≤ cosineBits r a bits x := by
  induction bits generalizing x with
  | zero => exact le_rfl
  | succ bits ih =>
    unfold cosineBits
    refine le_trans ?_ (ih _)
    split
    · exact Nat.le_add_right _ _
    · exact le_rfl

theorem lt_tripled (hr : a ^ 2 < (r + 1 : ℤ) ^ 3) (hn : r + 1 ≤ n * n) : a < tripled r n := by
  have hnZ : (r + 1 : ℤ) ≤ n * n := by exact_mod_cast hn
  have hle : (n : ℤ) * (r + 4) ≤ tripled r n := by
    have hsplit : tripled r n = n * (4 * (n * n) - 3 * r) := by
      unfold tripled
      ring
    rw [hsplit]
    gcongr
    linarith
  refine lt_of_lt_of_le (lt_of_pow_lt_pow_left₀ 2 (by positivity) (hr.trans_le ?_)) hle
  nlinarith [mul_le_mul_of_nonneg_right hnZ (by positivity : (0 : ℤ) ≤ (r + 4) ^ 2)]

/-- At half of the modulus, the cosine is hardly too large. -/
theorem tripled_half_le (hr : a ^ 2 < (r + 1 : ℤ) ^ 3) (hpos : 1 ≤ r) (hx : (2 * x) ^ 2 ≤ r)
    (hx' : r < (2 * x + 2) ^ 2) : tripled r x ≤ a + 10 * r := by
  have hposR : (1 : ℝ) ≤ r := by exact_mod_cast hpos
  obtain ⟨y, hy⟩ : ∃ y : ℝ, y = √r := ⟨_, rfl⟩
  have hysq : y ^ 2 = r := by rw [hy, Real.sq_sqrt (by linarith)]
  have hy1 : 1 ≤ y := by
    rw [hy]
    exact Real.one_le_sqrt.mpr hposR
  have hlow : 2 * (x : ℝ) ≤ y := by
    refine le_of_pow_le_pow_left₀ two_ne_zero (by linarith) ?_
    rw [hysq]
    exact_mod_cast hx
  have hhigh : y ≤ 2 * (x : ℝ) + 2 := by
    refine le_of_pow_le_pow_left₀ two_ne_zero (by positivity) ?_
    rw [hysq]
    exact_mod_cast hx'.le
  have ha : -(y ^ 3 + 2 * y) ≤ (a : ℝ) := by
    have hsq : (a : ℝ) ^ 2 ≤ (y ^ 3 + 2 * y) ^ 2 := by
      have hrR : (a : ℝ) ^ 2 < (r + 1) ^ 3 := by exact_mod_cast hr
      rw [← hysq] at hrR
      nlinarith [pow_le_pow_right₀ hy1 (by decide : 2 ≤ 4)]
    exact (abs_le.mp (abs_le_of_sq_le_sq hsq (by positivity))).1
  have htripled : ((tripled r x : ℤ) : ℝ) = (x + y) * (y - 2 * x) ^ 2 - y ^ 3 := by
    unfold tripled
    push_cast
    rw [← hysq]
    ring
  have hbend : (x + y) * (y - 2 * x) ^ 2 ≤ 2 * y * 2 ^ 2 := by
    have hx0 : (0 : ℝ) ≤ x := x.cast_nonneg
    gcongr
    · linarith
    · linarith
  suffices h : ((tripled r x : ℤ) : ℝ) ≤ a + 10 * r by exact_mod_cast h
  rw [htripled]
  nlinarith

/-- The principal cube root of a complex number, up to a few units of its square. -/
theorem principalCubeRoot_bounds {m : ℕ} (hm : m = floorRoot 3 (a.natAbs * a.natAbs + b * b))
    (hpos : 1 ≤ m) : |tripled m (principalCubeRoot a b).1 - a| ≤ 25 * m ∧
      (principalCubeRoot a b).1 ^ 2 + (principalCubeRoot a b).2 ^ 2 ≤ m ∧
      m ≤ (principalCubeRoot a b).1 ^ 2 + (principalCubeRoot a b).2 ^ 2 + 2 * (principalCubeRoot a b).2 ∧
      m + 1 ≤ (2 * (principalCubeRoot a b).1 + 2) ^ 2 := by
  have hr : a ^ 2 < (m + 1 : ℤ) ^ 3 := by
    obtain ⟨-, hlt⟩ := floorRoot_bounds three_pos (a.natAbs * a.natAbs + b * b)
    rw [← hm] at hlt
    have hle : a.natAbs * a.natAbs < (m + 1) ^ 3 := lt_of_le_of_lt (Nat.le_add_right _ _) hlt
    rw [← Int.natAbs_sq, pow_two]
    exact_mod_cast hle
  obtain ⟨hlow, hhigh⟩ := floorRoot_bounds two_pos m
  unfold principalCubeRoot
  simp only [← hm]
  generalize hs : floorRoot 2 m = s at hlow hhigh
  have hbeyond : a < tripled m ((s / 2 + 2 ^ (s.log2 + 1) : ℕ) : ℤ) := by
    apply lt_tripled hr
    have hs1 : s + 1 ≤ s / 2 + 2 ^ (s.log2 + 1) := by
      have := Nat.lt_log2_self (n := s)
      omega
    calc m + 1 ≤ (s + 1) ^ 2 := hhigh
      _ = (s + 1) * (s + 1) := pow_two _
      _ ≤ _ := Nat.mul_le_mul hs1 hs1
  obtain ⟨hfound, hnext⟩ := cosineBits_bounds hbeyond
  have hhalf := le_cosineBits m a (s.log2 + 1) (s / 2)
  generalize cosineBits m a (s.log2 + 1) (s / 2) = x at hfound hnext hhalf
  have hle : tripled m x ≤ a + 10 * m := by
    rcases hfound with rfl | hle
    · exact tripled_half_le hr hpos ((Nat.pow_le_pow_left (by omega) 2).trans hlow)
        (hhigh.trans_le (Nat.pow_le_pow_left (by omega) 2))
    · linarith
  have hxs : x ≤ s := by
    rcases hfound with rfl | hle
    · exact Nat.div_le_self _ _
    · by_contra hlt
      refine absurd (lt_tripled hr ?_) (not_lt.mpr hle)
      calc m + 1 ≤ (s + 1) ^ 2 := hhigh
        _ = (s + 1) * (s + 1) := pow_two _
        _ ≤ x * x := Nat.mul_le_mul (by omega) (by omega)
  have hxm : x ^ 2 ≤ m := (Nat.pow_le_pow_left hxs 2).trans hlow
  have hroom : tripled m (x + 1) - tripled m x ≤ 25 * m := by
    have hxZ : (x : ℤ) ^ 2 ≤ m := by exact_mod_cast hxm
    have hx1 : (x : ℤ) ≤ x ^ 2 := by exact_mod_cast Nat.le_self_pow two_ne_zero x
    have hposZ : (1 : ℤ) ≤ m := by exact_mod_cast hpos
    unfold tripled
    linarith
  obtain ⟨him, him'⟩ := floorRoot_bounds two_pos (m - x * x)
  generalize floorRoot 2 (m - x * x) = y at him him'
  rw [pow_two] at hxm
  refine ⟨abs_le.mpr ⟨by linarith, by linarith⟩, ?_, ?_, ?_⟩
  · rw [pow_two]
    omega
  · rw [add_pow_two] at him'
    rw [pow_two]
    omega
  · exact Nat.succ_le_of_lt (hhigh.trans_le (Nat.pow_le_pow_left (by omega) 2))

/-- The square of the modulus of the root, against the integer that stands for it. -/
theorem modulus_bounds {m : ℕ} {ν : ℝ} (hm : m = floorRoot 3 (a.natAbs * a.natAbs + b * b))
    (hlarge : 2 ^ 360 ≤ max a.natAbs b) (h : ν ^ 6 = (a : ℝ) ^ 2 + (b : ℝ) ^ 2) :
    2 ^ 240 ≤ m ∧ (m : ℝ) ≤ ν ^ 2 ∧ ν ^ 2 < m + 1 := by
  obtain ⟨hlow, hhigh⟩ := floorRoot_bounds three_pos (a.natAbs * a.natAbs + b * b)
  rw [← hm] at hlow hhigh
  have hcube : (ν ^ 2) ^ 3 = ((a.natAbs * a.natAbs + b * b : ℕ) : ℝ) := by
    push_cast
    rw [Nat.cast_natAbs, Int.cast_abs, abs_mul_abs_self, ← pow_mul, h]
    ring
  refine ⟨?_, ?_, ?_⟩
  · have hsum : (2 ^ 240) ^ 3 ≤ a.natAbs * a.natAbs + b * b := by
      rw [← pow_mul, show 240 * 3 = 360 + 360 from rfl, pow_add]
      rcases le_max_iff.mp hlarge with ha | hb
      · exact (Nat.mul_le_mul ha ha).trans (Nat.le_add_right _ _)
      · exact (Nat.mul_le_mul hb hb).trans (Nat.le_add_left _ _)
    exact Nat.lt_succ_iff.mp (lt_of_pow_lt_pow_left₀ 3 (Nat.zero_le _) (hsum.trans_lt hhigh))
  · refine le_of_pow_le_pow_left₀ three_ne_zero (by positivity) ?_
    rw [hcube]
    exact_mod_cast hlow
  · refine lt_of_pow_lt_pow_left₀ 3 (by positivity) ?_
    rw [hcube]
    exact_mod_cast hhigh

/-! ## The exact root -/

section Exact

variable {ν g h y z ρ : ℝ}

/-- The equation of the triple angle, at a number and at the real part of the exact root. -/
theorem tripled_sub (ν g y : ℝ) : 4 * y ^ 3 - 3 * ν ^ 2 * y - (4 * g ^ 3 - 3 * ν ^ 2 * g) =
    (y - g) * (4 * (y ^ 2 + y * g + g ^ 2) - 3 * ν ^ 2) := by
  ring

/-- An integer with a small error in its own equation has a small one in the exact equation, which
has the square of the modulus in place of the integer next to it. -/
theorem tripled_near {m y : ℕ} (hν : 2 ^ 120 ≤ ν) (hc : g ^ 2 + h ^ 2 = ν ^ 2)
    (hcube : g ^ 3 - 3 * g * h ^ 2 = a) (hyν : y ≤ ν) (hlow : m ≤ ν ^ 2) (hhigh : ν ^ 2 < m + 1)
    (htriple : |((tripled m y : ℤ) : ℝ) - a| ≤ 25 * m) :
    |(y - g) * (4 * ((y : ℝ) ^ 2 + y * g + g ^ 2) - 3 * ν ^ 2)| ≤ 26 * ν ^ 2 := by
  have hsplit : (y - g) * (4 * ((y : ℝ) ^ 2 + y * g + g ^ 2) - 3 * ν ^ 2) =
      (((tripled m y : ℤ) : ℝ) - a) + -(3 * (y * (ν ^ 2 - m))) := by
    rw [← tripled_sub, ← hcube, ← hc]
    unfold tripled
    push_cast
    ring
  have hν0 : 0 ≤ ν := le_trans (by positivity) hν
  have hmodulus : y * (ν ^ 2 - m) ≤ ν * 1 := by
    gcongr
    linarith
  have hmodulus0 : 0 ≤ y * (ν ^ 2 - m) := mul_nonneg y.cast_nonneg (by linarith)
  have hν2 : 2 ^ 120 * ν ≤ ν ^ 2 := by
    rw [pow_two]
    exact mul_le_mul_of_nonneg_right hν hν0
  rw [hsplit]
  refine (abs_add_le _ _).trans ?_
  rw [abs_neg, abs_of_nonneg (by positivity : 0 ≤ 3 * (y * (ν ^ 2 - m)))]
  linarith

/-- From half of the modulus on, the equation tells the real part up to the square root of its
error: the two of its roots that may meet do so at half of the modulus. -/
theorem real_part_near (hρ : 2 ^ 60 ≤ ρ) (hν : ν = ρ ^ 2) (hg : ν ≤ 2 * g) (hy : ν ≤ 2 * y + 2)
    (h : |(y - g) * (4 * (y ^ 2 + y * g + g ^ 2) - 3 * ν ^ 2)| ≤ 26 * ν ^ 2) : |y - g| ≤ 3 * ρ := by
  have hν0 : 0 < ν := by
    rw [hν]
    positivity
  by_contra hfar
  have hD := not_le.mp hfar
  have hslope : 6 * ν * (|y - g| - 2) ≤ 4 * (y ^ 2 + y * g + g ^ 2) - 3 * ν ^ 2 := by
    have hmin : |y - g| - 2 ≤ y - ν / 2 + (g - ν / 2) := by
      have hle : |y - g| ≤ y - ν / 2 + (g - ν / 2) + 2 := abs_le.mpr ⟨by linarith, by linarith⟩
      linarith
    calc 6 * ν * (|y - g| - 2) ≤ 6 * ν * (y - ν / 2 + (g - ν / 2)) := by gcongr
      _ ≤ 4 * (y ^ 2 + y * g + g ^ 2) - 3 * ν ^ 2 := by
        linarith [sq_nonneg (y - ν / 2 + (g - ν / 2)), sq_nonneg (y - ν / 2), sq_nonneg (g - ν / 2)]
  have hroom : 3 * ρ * (6 * ν * (3 * ρ - 2)) ≤ 26 * ν ^ 2 := by
    refine le_trans ?_ h
    rw [abs_mul]
    have hpos : 0 ≤ 6 * ν * (3 * ρ - 2) := by
      have hρ2 : 0 ≤ 3 * ρ - 2 := by linarith
      positivity
    have hle : 6 * ν * (3 * ρ - 2) ≤ |4 * (y ^ 2 + y * g + g ^ 2) - 3 * ν ^ 2| := by
      refine le_trans ?_ (hslope.trans (le_abs_self _))
      gcongr
    gcongr
  have hρ3 : 0 < ρ ^ 3 := by positivity
  rw [hν] at hroom
  linarith [mul_le_mul_of_nonneg_left hρ hρ3.le]

/-- Where the exact imaginary part is at most two thirds of the modulus, the real parts are not
small, and the equation is steep between them. -/
theorem slope_of_small_imaginary (hν : 2 ^ 120 ≤ ν) (hc : g ^ 2 + h ^ 2 = ν ^ 2) (hg : ν ≤ 2 * g)
    (hh : 0 ≤ h) (hsmall : 3 * h ≤ 2 * ν) (hy : ν ≤ 2 * y + 2) :
    3 / 2 * ν ^ 2 ≤ 4 * (y ^ 2 + y * g + g ^ 2) - 3 * ν ^ 2 := by
  have hg' : 74 / 100 * ν ≤ g := by
    have hsquares := pow_le_pow_left₀ (by positivity) hsmall 2
    refine le_of_pow_le_pow_left₀ two_ne_zero (by linarith) ?_
    linarith [sq_nonneg ν]
  have hy0 : 0 ≤ ν / 2 - 1 := by linarith
  have hle : (ν / 2 - 1) ^ 2 + (ν / 2 - 1) * (74 / 100 * ν) + (74 / 100 * ν) ^ 2 ≤
      y ^ 2 + y * g + g ^ 2 := by
    gcongr <;> linarith
  have hν2 := mul_le_mul_of_nonneg_right hν (by linarith : 0 ≤ ν)
  linarith

/-- The imaginary parts complete the moduli, so that they differ as the real parts do. -/
theorem imaginary_sub_le (hc : g ^ 2 + h ^ 2 = ν ^ 2) (hg : 0 ≤ g) (hgν : g ≤ ν) (hh : 0 ≤ h)
    (hy : 0 ≤ y) (hyν : y ≤ ν) (hz : 0 ≤ z) (hzν : z ≤ ν) (hlow : y ^ 2 + z ^ 2 ≤ ν ^ 2)
    (hhigh : ν ^ 2 ≤ y ^ 2 + z ^ 2 + 2 * z + 1) (hν : 1 ≤ ν) :
    |z - h| * (z + h) ≤ 2 * ν * |y - g| + 3 * ν := by
  have hdiff : |y ^ 2 - g ^ 2| ≤ 2 * ν * |y - g| := by
    rw [sq_sub_sq, abs_mul]
    gcongr
    exact abs_le.mpr ⟨by linarith, by linarith⟩
  rw [← abs_of_nonneg (add_nonneg hz hh), ← abs_mul, mul_comm, ← sq_sub_sq]
  rw [abs_le] at hdiff ⊢
  constructor <;> linarith

/-- The imaginary part is small only where the real part is near the modulus, and there the real
part is told up to its error. -/
theorem imaginary_part_near (hρ : 2 ^ 60 ≤ ρ) (hν : ν = ρ ^ 2) (hc : g ^ 2 + h ^ 2 = ν ^ 2)
    (hg : ν ≤ 2 * g) (hh : 0 ≤ h) (hy : ν ≤ 2 * y + 2) (hyν : y ≤ ν) (hz : 0 ≤ z) (hzν : z ≤ ν)
    (hlow : y ^ 2 + z ^ 2 ≤ ν ^ 2) (hhigh : ν ^ 2 ≤ y ^ 2 + z ^ 2 + 2 * z + 1)
    (heq : |(y - g) * (4 * (y ^ 2 + y * g + g ^ 2) - 3 * ν ^ 2)| ≤ 26 * ν ^ 2) :
    |z - h| ≤ 10 * ρ := by
  have hν120 : 2 ^ 120 ≤ ν := by
    rw [hν, show 120 = 60 * 2 from rfl, pow_mul]
    exact pow_le_pow_left₀ (by norm_num) hρ 2
  have hν0 : 0 < ν := lt_of_lt_of_le (by positivity) hν120
  have hgν : g ≤ ν := le_of_pow_le_pow_left₀ two_ne_zero (by linarith) (by linarith [sq_nonneg h])
  have hsquares := imaginary_sub_le hc (by linarith) hgν hh (by linarith) hyν hz hzν hlow hhigh
    (by linarith)
  rcases le_total (2 * ν) (3 * h) with hlarge | hsmall
  · have hD := real_part_near hρ hν hg hy heq
    have hsum : |z - h| * (2 * ν) ≤ 3 * (2 * ν * (3 * ρ) + 3 * ν) := by
      calc |z - h| * (2 * ν) ≤ |z - h| * (3 * (z + h)) :=
            mul_le_mul_of_nonneg_left (by linarith) (abs_nonneg _)
        _ = 3 * (|z - h| * (z + h)) := by ring
        _ ≤ 3 * (2 * ν * |y - g| + 3 * ν) := by gcongr
        _ ≤ 3 * (2 * ν * (3 * ρ) + 3 * ν) := by gcongr
    refine le_of_mul_le_mul_right (hsum.trans ?_) (by linarith : 0 < 2 * ν)
    linarith [mul_le_mul_of_nonneg_right hρ hν0.le]
  · have hsteep := slope_of_small_imaginary hν120 hc hg hh hsmall hy
    have hD : |y - g| ≤ 18 := by
      rw [abs_mul, abs_of_nonneg (le_trans (by positivity) hsteep)] at heq
      refine le_of_mul_le_mul_right ?_ (by positivity : 0 < 3 / 2 * ν ^ 2)
      calc |y - g| * (3 / 2 * ν ^ 2)
          ≤ |y - g| * (4 * (y ^ 2 + y * g + g ^ 2) - 3 * ν ^ 2) := by gcongr
        _ ≤ 26 * ν ^ 2 := heq
        _ ≤ 18 * (3 / 2 * ν ^ 2) := by linarith [sq_nonneg ν]
    refine abs_le_of_sq_le_sq ?_ (by positivity)
    calc (z - h) ^ 2 = |z - h| * |z - h| := by rw [abs_mul_abs_self, pow_two]
      _ ≤ |z - h| * (z + h) := by
        gcongr
        exact abs_le.mpr ⟨by linarith, by linarith⟩
      _ ≤ 2 * ν * 18 + 3 * ν := hsquares.trans (by gcongr)
      _ ≤ (10 * ρ) ^ 2 := by
        rw [mul_pow, ← hν]
        linarith

/-- Of a number of many digits, the parts of the cube root are right to half of them. -/
theorem principalCubeRoot_near (hlarge : 2 ^ 360 ≤ max a.natAbs b) (hν0 : 0 ≤ ν)
    (hν : ν ^ 6 = (a : ℝ) ^ 2 + (b : ℝ) ^ 2) (hc : g ^ 2 + h ^ 2 = ν ^ 2)
    (hcube : g ^ 3 - 3 * g * h ^ 2 = a) (hg : ν ≤ 2 * g) (hh : 0 ≤ h) :
    |((principalCubeRoot a b).1 : ℝ) - g| ≤ ν / 2 ^ 50 ∧
      |((principalCubeRoot a b).2 : ℝ) - h| ≤ ν / 2 ^ 50 := by
  obtain ⟨m, hm⟩ : ∃ m, m = floorRoot 3 (a.natAbs * a.natAbs + b * b) := ⟨_, rfl⟩
  obtain ⟨hm240, hνm, hνm'⟩ := modulus_bounds hm hlarge hν
  obtain ⟨htriple, hsize, hsize', hhalf⟩ := principalCubeRoot_bounds hm (Nat.one_le_two_pow.trans hm240)
  generalize (principalCubeRoot a b).1 = y at *
  generalize (principalCubeRoot a b).2 = z at *
  replace hsize : (y : ℝ) ^ 2 + (z : ℝ) ^ 2 ≤ m := by exact_mod_cast hsize
  replace hsize' : (m : ℝ) ≤ (y : ℝ) ^ 2 + (z : ℝ) ^ 2 + 2 * z := by exact_mod_cast hsize'
  replace hhalf : (m + 1 : ℝ) ≤ (2 * (y : ℝ) + 2) ^ 2 := by exact_mod_cast hhalf
  replace htriple : |((tripled m y : ℤ) : ℝ) - a| ≤ 25 * m := by exact_mod_cast htriple
  replace hm240 : (2 ^ 240 : ℝ) ≤ m := by exact_mod_cast hm240
  have hy0 : (0 : ℝ) ≤ y := y.cast_nonneg
  have hz0 : (0 : ℝ) ≤ z := z.cast_nonneg
  have hyν : (y : ℝ) ≤ ν :=
    le_of_pow_le_pow_left₀ two_ne_zero hν0 (by linarith [sq_nonneg (z : ℝ)])
  have hzν : (z : ℝ) ≤ ν :=
    le_of_pow_le_pow_left₀ two_ne_zero hν0 (by linarith [sq_nonneg (y : ℝ)])
  have hνy : ν ≤ 2 * y + 2 := le_of_pow_le_pow_left₀ two_ne_zero (by positivity) (by linarith)
  have hν1 : 2 ^ 120 ≤ ν := by
    refine le_of_pow_le_pow_left₀ two_ne_zero hν0 ?_
    rw [← pow_mul]
    exact hm240.trans hνm
  obtain ⟨ρ, hρ⟩ : ∃ ρ, ρ = √ν := ⟨_, rfl⟩
  have hνρ : ν = ρ ^ 2 := by rw [hρ, Real.sq_sqrt hν0]
  have hρ60 : 2 ^ 60 ≤ ρ := by
    rw [hρ]
    apply Real.le_sqrt_of_sq_le
    rwa [← pow_mul]
  have heq := tripled_near hν1 hc hcube hyν hνm hνm' htriple
  have hsmall : 10 * ρ ≤ ν / 2 ^ 50 := by
    have hρ0 : 0 ≤ ρ := le_trans (by positivity) hρ60
    rw [hνρ, le_div_iff₀ (by positivity)]
    linarith [mul_le_mul_of_nonneg_right hρ60 hρ0]
  constructor
  · exact (real_part_near hρ60 hνρ hg hνy heq).trans (by linarith)
  · exact (imaginary_part_near hρ60 hνρ hc hg hh hνy hyν hz0 hzν (by linarith) (by linarith)
      heq).trans hsmall

end Exact

/-! ## Roots of numbers -/

variable {F : Format} {x y : Binary F} {p q : ℚ} {μ : ℝ}

theorem le_shifted {wanted extra bits : ℕ} (hn : n ≠ 0) (hbits : bits ≤ wanted) :
    2 ^ bits ≤ n <<< (wanted - n.log2 + extra) := by
  rw [Nat.shiftLeft_eq]
  calc 2 ^ bits ≤ 2 ^ (n.log2 + (wanted - n.log2 + extra)) := Nat.pow_le_pow_right two_pos (by omega)
    _ = 2 ^ n.log2 * 2 ^ (wanted - n.log2 + extra) := pow_add _ _ _
    _ ≤ n * 2 ^ (wanted - n.log2 + extra) := Nat.mul_le_mul_right _ (Nat.log2_self_le hn)

/-- The parts are brought to whole numbers of many digits, and what that leaves to the
exponent is a third power. -/
theorem complexCbrt_scaled (hx : x.Represents p) (hy : y.Represents q) (hq : 0 < q) :
    ∃ (a : ℤ) (b : ℕ) (k : ℤ), p = a * 2 ^ (3 * k) ∧ q = b * 2 ^ (3 * k) ∧
      2 ^ 360 ≤ max a.natAbs b ∧ complexCbrt x y =
        (ofScaled false (principalCubeRoot a b).1 1 k, ofScaled false (principalCubeRoot a b).2 1 k) := by
  cases x with
  | nan => exact hx.elim
  | number n r hr =>
    obtain ⟨hlt, hval⟩ := hx
    obtain ⟨r', hr', rfl, hval'⟩ := hy.eq_positive hq
    have hr0 : r' ≠ 0 := by
      rintro rfl
      rw [← hval', Format.magnitude_zero] at hq
      exact hq.false
    have hrun : ¬ (r = F.infinityRank ∨ r' = F.infinityRank) := by
      rw [not_or]
      exact ⟨hlt.ne, hr'.ne⟩
    unfold complexCbrt
    simp only
    rw [if_neg hrun, if_neg fun hzero => hr0 hzero.2]
    rw [← magnitude_shifted (Nat.min_le_left _ (F.binade r')), ← mul_assoc, ← shifted_cast] at hval
    rw [← magnitude_shifted (Nat.min_le_right (F.binade r) _)] at hval'
    generalize F.minExponent + ((min (F.binade r) (F.binade r') : ℕ) : ℤ) = e at *
    generalize shifted n (F.significand r) _ = a at *
    generalize F.significand r' <<< _ = b at *
    have hb : b ≠ 0 := by
      rintro rfl
      rw [← hval', Nat.cast_zero, zero_mul] at hq
      exact hq.false
    generalize hwanted : 3 * cubeRootBits - max a.natAbs.log2 b.log2 = wanted
    have he := exponent_of_shift three_pos e wanted
    rw [Nat.cast_ofNat] at he
    have hpow : (2 : ℚ) ^ e = 2 ^ (wanted + ((e - wanted) % 3).toNat) *
        2 ^ (3 * ((e - (wanted + ((e - wanted) % 3).toNat : ℕ)) / 3)) := by
      rw [← zpow_natCast, ← zpow_add₀ two_ne_zero, ← he]
    refine ⟨_, _, _, ?_, ?_, ?_, rfl⟩
    · rw [hval, hpow, Nat.shiftLeft_eq]
      push_cast
      ring
    · rw [← hval', hpow, Nat.shiftLeft_eq]
      push_cast
      ring
    · rw [Int.natAbs_mul, Int.natAbs_natCast, Nat.shiftLeft_eq, one_mul, ← Nat.shiftLeft_eq]
      rcases Nat.lt_or_ge b.log2 a.natAbs.log2 with hlt | hle
      · have ha : a.natAbs ≠ 0 := by
          intro h0
          rw [h0] at hlt
          exact absurd hlt (Nat.not_lt_zero _)
        rw [max_eq_left hlt.le] at hwanted
        exact le_max_of_le_left (hwanted ▸ le_shifted ha (by decide))
      · rw [max_eq_right hle] at hwanted
        exact le_max_of_le_right (hwanted ▸ le_shifted hb (by decide))

/-- The parts of the principal cube root are found with as many digits as they are rounded to. -/
theorem complexCbrt_rounds {g h : ℝ} (hx : x.Represents p) (hy : y.Represents q) (hq : 0 < q) (hμ0 : 0 ≤ μ)
    (hμ : μ ^ 6 = (p : ℝ) ^ 2 + (q : ℝ) ^ 2) (hc : g ^ 2 + h ^ 2 = μ ^ 2) (hcube : g ^ 3 - 3 * g * h ^ 2 = p)
    (hg : μ ≤ 2 * g) (hh : 0 ≤ h) : ∃ Y Z : ℚ, (complexCbrt x y).1.Rounds Y ∧
      (complexCbrt x y).2.Rounds Z ∧ |(Y : ℝ) - g| ≤ μ / 2 ^ 50 ∧ |(Z : ℝ) - h| ≤ μ / 2 ^ 50 := by
  obtain ⟨a, b, k, rfl, rfl, hlarge, hroot⟩ := complexCbrt_scaled hx hy hq
  obtain ⟨u, hu⟩ : ∃ u : ℝ, u = 2 ^ k := ⟨_, rfl⟩
  have hu0 : 0 < u := by
    rw [hu]
    positivity
  have hpow : (2 : ℝ) ^ (3 * k) = u ^ 3 := by
    rw [hu, mul_comm, zpow_mul]
    rfl
  have hscale : ∀ t : ℝ, ∃ s, t = s * u := fun t => ⟨t / u, (div_mul_cancel₀ t hu0.ne').symm⟩
  obtain ⟨ν, rfl⟩ := hscale μ
  obtain ⟨g, rfl⟩ := hscale g
  obtain ⟨h, rfl⟩ := hscale h
  push_cast [hpow] at hμ hcube
  have hν : ν ^ 6 = (a : ℝ) ^ 2 + (b : ℝ) ^ 2 := by
    refine mul_right_cancel₀ (pow_ne_zero 6 hu0.ne') ?_
    linear_combination hμ
  have hc' : g ^ 2 + h ^ 2 = ν ^ 2 := by
    refine mul_right_cancel₀ (pow_ne_zero 2 hu0.ne') ?_
    linear_combination hc
  have hcube' : g ^ 3 - 3 * g * h ^ 2 = a := by
    refine mul_right_cancel₀ (pow_ne_zero 3 hu0.ne') ?_
    linear_combination hcube
  obtain ⟨hre, him⟩ := principalCubeRoot_near hlarge (nonneg_of_mul_nonneg_left hμ0 hu0) hν hc' hcube'
    (le_of_mul_le_mul_right (by linarith) hu0) (nonneg_of_mul_nonneg_left hh hu0)
  rw [hroot]
  refine ⟨(principalCubeRoot a b).1 * 2 ^ k, (principalCubeRoot a b).2 * 2 ^ k,
    ⟨false, _, 1, k, one_pos, rfl, by simp⟩, ⟨false, _, 1, k, one_pos, rfl, by simp⟩, ?_, ?_⟩
  · push_cast
    rw [← hu, ← sub_mul, abs_mul, abs_of_pos hu0, mul_div_right_comm]
    gcongr
  · push_cast
    rw [← hu, ← sub_mul, abs_mul, abs_of_pos hu0, mul_div_right_comm]
    gcongr

end DroneShow.Binary
