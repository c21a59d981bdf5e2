-- The arithmetic of binary numbers as arithmetic of exact values. A finite
-- number represents one rational number; an operation represents the exact
-- result where the format has it, and otherwise a value close to it.
import DroneShow.Proofs.Binary.Nearest

namespace DroneShow

/-! ## The order of magnitudes -/

namespace Format

variable (F : Format)

theorem magnitude_succ (rank : Nat) :
    F.magnitude (rank + 1) = F.magnitude rank + 2 ^ F.exponent rank := by
  obtain ⟨hplace, hfull⟩ := F.place_of_rank rank
  have hlt := F.significand_lt rank
  have hnext : rank + 1 = F.binade rank * F.unit + (F.significand rank + 1) := by omega
  rw [hnext, F.magnitude_place (by omega) (by omega), magnitude, exponent]
  push_cast
  ring

theorem magnitude_strictMono : StrictMono F.magnitude := by
  refine strictMono_nat_of_lt_succ fun rank => ?_
  rw [magnitude_succ]
  have : (0 : ℚ) < 2 ^ F.exponent rank := by positivity
  linarith

/-- The format has a finite number of this magnitude. -/
def Exact (q : ℚ) : Prop := ∃ rank < F.infinityRank, F.magnitude rank = |q|

/-- Below `2 ^ m` the format has no infinity and full significands. -/
def Covers (m : Int) : Prop :=
  F.minExponent + (F.precision - 1 : Nat) + 1 ≤ m ∧
    m - (F.precision - 1 : Nat) - F.minExponent < F.binades ∧ 1 < F.binades

theorem exact_zero : F.Exact 0 :=
  ⟨0, Nat.mul_pos (Nat.succ_pos _) F.unit_pos, by simp⟩

/-- A format whose steps can be ones counts up to twice a full significand. -/
theorem exact_intCast {F : Format} (hlow : F.minExponent ≤ 0)
    (hhigh : (-F.minExponent).toNat + 2 ≤ F.binades) {k : Int} (hk : k.natAbs ≤ 2 * F.unit) :
    F.Exact k := by
  obtain ⟨rank, hle, hval⟩ := F.exists_magnitude (-F.minExponent).toNat hk
  refine ⟨rank, ?_, ?_⟩
  · calc rank ≤ ((-F.minExponent).toNat + 2) * F.unit := hle
      _ ≤ F.binades * F.unit := Nat.mul_le_mul_right _ hhigh
      _ < F.infinityRank := Nat.mul_lt_mul_of_pos_right (Nat.lt_succ_self _) F.unit_pos
  · rw [hval, show F.minExponent + ((-F.minExponent).toNat : Int) = 0 by omega, zpow_zero, mul_one,
      Nat.cast_natAbs, Int.cast_abs]

end Format

namespace Binary

variable {F : Format} {x y : Binary F} {p q : ℚ}

/-- A sign as a factor. -/
def signFactor (negative : Bool) : ℚ := if negative then -1 else 1

@[simp] theorem signFactor_false : signFactor false = 1 := rfl

@[simp] theorem signFactor_true : signFactor true = -1 := rfl

theorem signFactor_bne (n n' : Bool) : signFactor (n != n') = signFactor n * signFactor n' := by
  cases n <;> cases n' <;> simp

theorem abs_signFactor_mul (n : Bool) (q : ℚ) : |signFactor n * q| = |q| := by
  cases n <;> simp

theorem signFactor_mul_sub (n : Bool) (p q : ℚ) :
    |signFactor n * p - signFactor n * q| = |p - q| := by
  rw [← mul_sub, abs_signFactor_mul]

/-- The number is finite and `q` is its exact value. -/
def Represents : Binary F → ℚ → Prop
  | .nan, _ => False
  | .number n rank _, q => rank < F.infinityRank ∧ q = signFactor n * F.magnitude rank

theorem Represents.isFinite (h : x.Represents q) : x.isFinite = true := by
  cases x with
  | nan => exact h.elim
  | number n rank hrank => simpa [Binary.isFinite] using h.1

/-! ## Comparison -/

theorem signedRank_lt_iff (n n' : Bool) (r r' : Nat) :
    signedRank n r < signedRank n' r' ↔
      signFactor n * F.magnitude r < signFactor n' * F.magnitude r' := by
  have hmono : ∀ a b : Nat, F.magnitude a < F.magnitude b ↔ a < b :=
    fun a b => F.magnitude_strictMono.lt_iff_lt
  have hpos : ∀ a : Nat, 0 < F.magnitude a ↔ 0 < a := fun a => by
    rw [← F.magnitude_zero, hmono]
  have hr := F.magnitude_nonneg r
  have hr' := F.magnitude_nonneg r'
  cases n <;> cases n' <;> simp only [signedRank, signFactor, if_true, Bool.false_eq_true, if_false]
  · rw [one_mul, one_mul, hmono]
    omega
  · constructor
    · intro h
      omega
    · intro h
      linarith
  · constructor
    · intro h
      rcases Nat.eq_zero_or_pos r with h0 | h0
      · have := (hpos r').mpr (by omega)
        linarith
      · have := (hpos r).mpr h0
        linarith
    · intro h
      by_contra hle
      obtain ⟨rfl, rfl⟩ : r = 0 ∧ r' = 0 := by omega
      simp at h
  · rw [neg_one_mul, neg_one_mul, neg_lt_neg_iff, neg_lt_neg_iff, hmono]
    omega

theorem lt_iff_of_represents (hx : x.Represents p) (hy : y.Represents q) : x < y ↔ p < q := by
  cases x with
  | nan => exact hx.elim
  | number n r hr =>
    cases y with
    | nan => exact hy.elim
    | number n' r' hr' =>
      rw [hx.2, hy.2, ← signedRank_lt_iff]
      simp [LT.lt, Binary.lt]

theorem le_iff_of_represents (hx : x.Represents p) (hy : y.Represents q) : x ≤ y ↔ p ≤ q := by
  cases x with
  | nan => exact hx.elim
  | number n r hr =>
    cases y with
    | nan => exact hy.elim
    | number n' r' hr' =>
      rw [hx.2, hy.2, ← not_lt, ← signedRank_lt_iff, not_lt]
      simp [LE.le, Binary.le]

/-! ## Rounded values -/

/-- The number is the exact value `q` rounded once. -/
def Rounds (x : Binary F) (q : ℚ) : Prop :=
  ∃ n num den e, 0 < den ∧ x = ofScaled n num den e ∧ q = signFactor n * (num / den * 2 ^ e)

theorem Rounds.exact (h : x.Rounds q) (hq : F.Exact q) : x.Represents q := by
  obtain ⟨n, num, den, e, hd, rfl, rfl⟩ := h
  obtain ⟨rank, hlt, hval⟩ := hq
  have hnonneg : (0 : ℚ) ≤ num / den * 2 ^ e := by positivity
  rw [abs_signFactor_mul, abs_of_nonneg hnonneg] at hval
  simp only [ofScaled, ofRank, F.nearestRank_of_magnitude hd hval.symm, Represents,
    Nat.min_eq_left hlt.le, hval]
  exact ⟨hlt, trivial⟩

/-- Below a power of two, rounding moves a value by little and never past zero. -/
theorem Rounds.near (h : x.Rounds q) {m : Int} (hm : F.Covers m) (hq : |q| < 2 ^ m) :
    ∃ z, x.Represents z ∧ |z - q| ≤ 2 ^ (m - (F.precision - 1 : Nat) - 2) ∧ (0 ≤ q → 0 ≤ z) := by
  by_cases h0 : q = 0
  · subst h0
    refine ⟨0, h.exact F.exact_zero, ?_, fun _ => le_refl _⟩
    rw [sub_self, abs_zero]
    positivity
  · obtain ⟨n, num, den, e, hd, rfl, rfl⟩ := h
    have hnonneg : (0 : ℚ) ≤ num / den * 2 ^ e := by positivity
    rw [abs_signFactor_mul, abs_of_nonneg hnonneg] at hq
    have hlt := F.nearestRank_lt_infinity hd (by have := hm.2.1; omega) hm.2.2 hq
    have hmag := F.magnitude_nonneg (F.nearestRank num den e)
    refine ⟨signFactor n * F.magnitude (F.nearestRank num den e), ?_, ?_, ?_⟩
    · simp only [ofScaled, ofRank, Represents, Nat.min_eq_left hlt.le]
      exact ⟨hlt, trivial⟩
    · rw [signFactor_mul_sub]
      exact F.nearestRank_error_of_lt hd hm.1 hq
    · cases n with
      | false =>
        intro _
        simpa using hmag
      | true =>
        intro hle
        have : (num : ℚ) / den * 2 ^ e = 0 := by
          rw [signFactor_true] at hle
          linarith
        exact absurd (by rw [this, mul_zero]) h0

/-! ## Operations that round once -/

theorem ofInt_rounds (k : Int) : (ofInt k : Binary F).Rounds k := by
  refine ⟨decide (k < 0), k.natAbs, 1, 0, Nat.one_pos, rfl, ?_⟩
  rw [zpow_zero, mul_one, Nat.cast_one, div_one, Nat.cast_natAbs, Int.cast_abs]
  rcases lt_or_ge k 0 with hk | hk
  · have hkq : (k : ℚ) < 0 := by exact_mod_cast hk
    simp [hk, abs_of_neg hkq]
  · have hkq : (0 : ℚ) ≤ k := by exact_mod_cast hk
    simp [not_lt.mpr hk, abs_of_nonneg hkq]

theorem ofNat_rounds (k : Nat) : (ofNat k : Binary F).Rounds k :=
  ⟨false, k, 1, 0, Nat.one_pos, rfl, by simp⟩

theorem mul_rounds (hx : x.Represents p) (hy : y.Represents q) : (x * y).Rounds (p * q) := by
  cases x with
  | nan => exact hx.elim
  | number n r hr =>
    cases y with
    | nan => exact hy.elim
    | number n' r' hr' =>
      obtain ⟨hlt, rfl⟩ := hx
      obtain ⟨hlt', rfl⟩ := hy
      refine ⟨n != n', F.significand r * F.significand r', 1, F.exponent r + F.exponent r',
        Nat.one_pos, ?_, ?_⟩
      · show mul _ _ = _
        simp [mul, hlt.ne, hlt'.ne]
      · rw [signFactor_bne, zpow_add₀ two_ne_zero]
        push_cast
        unfold Format.magnitude
        ring

theorem div_rounds (hx : x.Represents p) (hy : y.Represents q) (hq : q ≠ 0) :
    (x / y).Rounds (p / q) := by
  cases x with
  | nan => exact hx.elim
  | number n r hr =>
    cases y with
    | nan => exact hy.elim
    | number n' r' hr' =>
      obtain ⟨hlt, rfl⟩ := hx
      obtain ⟨hlt', rfl⟩ := hy
      have h0 : r' ≠ 0 := by
        rintro rfl
        simp at hq
      have hsig : F.significand r' ≠ 0 := by
        intro hs
        simp [Format.magnitude, hs] at hq
      refine ⟨n != n', F.significand r, F.significand r', F.exponent r - F.exponent r',
        Nat.pos_of_ne_zero hsig, ?_, ?_⟩
      · show div _ _ = _
        simp [div, hlt.ne, hlt'.ne, h0]
      · rw [signFactor_bne, zpow_sub₀ two_ne_zero]
        unfold Format.magnitude
        cases n' <;> simp only [signFactor_true, signFactor_false] <;> field_simp

/-! ## Integers -/

theorem ofInt_represents {k : Int} (h : F.Exact k) : (ofInt k : Binary F).Represents k :=
  (ofInt_rounds k).exact h

theorem ofNat_represents {k : Nat} (h : F.Exact k) : (ofNat k : Binary F).Represents k :=
  (ofNat_rounds k).exact h

/-- A magnitude less than a half away from an integer is rounded to it. -/
theorem nearestInteger_of_near {rank k : Nat} (h : |F.magnitude rank - k| < 1 / 2) :
    nearestInteger F rank = k := by
  rw [abs_lt] at h
  unfold nearestInteger
  simp only
  split
  · rename_i he
    obtain ⟨t, ht⟩ := Int.eq_ofNat_of_zero_le he
    have hval : F.magnitude rank = ((F.significand rank <<< t : Nat) : ℚ) := by
      unfold Format.magnitude
      rw [ht, zpow_natCast, Nat.shiftLeft_eq]
      push_cast
      rfl
    rw [hval] at h
    rw [ht, Int.toNat_natCast]
    have hup : ((F.significand rank <<< t : Nat) : ℚ) < (k + 1 : Nat) := by
      push_cast at h ⊢
      linarith
    have hdown : (k : ℚ) < ((F.significand rank <<< t : Nat) : ℚ) + 1 := by linarith
    have hup' : F.significand rank <<< t < k + 1 := by exact_mod_cast hup
    have hdown' : k < F.significand rank <<< t + 1 := by exact_mod_cast hdown
    omega
  · rename_i he
    obtain ⟨t, ht⟩ := Int.eq_ofNat_of_zero_le (show 0 ≤ -F.exponent rank by omega)
    rw [ht, Int.toNat_natCast, Nat.shiftLeft_eq, Nat.one_mul]
    have hpow : (0 : ℚ) < 2 ^ t := by positivity
    have hval : F.magnitude rank = F.significand rank / 2 ^ t := by
      unfold Format.magnitude
      rw [show F.exponent rank = -(t : Int) by omega, zpow_neg, zpow_natCast, div_eq_mul_inv]
    rw [hval] at h
    obtain ⟨hdown, hup⟩ := h
    have hlow : k * (2 * 2 ^ t) ≤ 2 * F.significand rank + 2 ^ t := by
      have : (k : ℚ) - 1 / 2 < F.significand rank / 2 ^ t := by linarith
      rw [lt_div_iff₀ hpow] at this
      have hq : (k * (2 * 2 ^ t) : ℚ) ≤ 2 * F.significand rank + 2 ^ t := by linarith
      exact_mod_cast hq
    have hhigh : 2 * F.significand rank + 2 ^ t < (k + 1) * (2 * 2 ^ t) := by
      have : (F.significand rank : ℚ) / 2 ^ t < k + 1 / 2 := by linarith
      rw [div_lt_iff₀ hpow] at this
      have hq : (2 * F.significand rank + 2 ^ t : ℚ) < (k + 1) * (2 * 2 ^ t) := by linarith
      exact_mod_cast hq
    exact Nat.div_eq_of_lt_le hlow hhigh

theorem round_represents {k : Int} (hx : x.Represents q) (h : |q - k| < 1 / 2)
    (hk : F.Exact k) : x.round.Represents k := by
  cases x with
  | nan => exact hx.elim
  | number n r hr =>
    obtain ⟨hlt, rfl⟩ := hx
    have hmag := F.magnitude_nonneg r
    have hsign : (k : ℚ) = signFactor n * (k.natAbs : Nat) := by
      rw [abs_lt] at h
      rw [Nat.cast_natAbs, Int.cast_abs]
      cases n with
      | false =>
        have hpos : (-1 : ℚ) < k := by
          rw [signFactor_false] at h
          linarith
        have hpos' : -1 < k := by exact_mod_cast hpos
        have hk0 : (0 : ℚ) ≤ k := by exact_mod_cast (show 0 ≤ k by omega)
        rw [signFactor_false, one_mul, abs_of_nonneg hk0]
      | true =>
        have hneg : (k : ℚ) < 1 := by
          rw [signFactor_true] at h
          linarith
        have hneg' : k < 1 := by exact_mod_cast hneg
        have hk0 : (k : ℚ) ≤ 0 := by exact_mod_cast (show k ≤ 0 by omega)
        rw [signFactor_true, abs_of_nonpos hk0]
        ring
    have hnear : |F.magnitude r - (k.natAbs : Nat)| < 1 / 2 := by
      rwa [hsign, signFactor_mul_sub] at h
    have hround : (round (number n r hr) : Binary F) = ofScaled n k.natAbs 1 0 := by
      simp only [round, hlt.ne, if_false, nearestInteger_of_near hnear]
    rw [hround]
    refine Rounds.exact ⟨n, k.natAbs, 1, 0, Nat.one_pos, rfl, ?_⟩ hk
    rw [hsign]
    simp

theorem integerPart_of_magnitude {rank k : Nat} (h : F.magnitude rank = k) :
    integerPart F rank = k := by
  unfold integerPart
  simp only
  unfold Format.magnitude at h
  split
  · rename_i he
    obtain ⟨t, ht⟩ := Int.eq_ofNat_of_zero_le he
    rw [ht, zpow_natCast] at h
    rw [ht, Int.toNat_natCast, Nat.shiftLeft_eq]
    exact_mod_cast h
  · rename_i he
    obtain ⟨t, ht⟩ := Int.eq_ofNat_of_zero_le (show 0 ≤ -F.exponent rank by omega)
    rw [show F.exponent rank = -(t : Int) by omega, zpow_neg, zpow_natCast, ← div_eq_mul_inv,
      div_eq_iff (by positivity)] at h
    rw [ht, Int.toNat_natCast, Nat.shiftRight_eq_div_pow]
    have hmul : F.significand rank = k * 2 ^ t := by exact_mod_cast h
    rw [hmul, Nat.mul_div_cancel _ (Nat.two_pow_pos t)]

theorem toIntWithin_eq_clamp {k : Int} (hx : x.Represents k) (lo hi : Int) :
    x.toIntWithin lo hi = max lo (min hi k) := by
  cases x with
  | nan => exact hx.elim
  | number n r hr =>
    obtain ⟨hlt, hval⟩ := hx
    have hmag : F.magnitude r = (k.natAbs : Nat) := by
      rw [Nat.cast_natAbs, Int.cast_abs, hval, abs_signFactor_mul,
        abs_of_nonneg (F.magnitude_nonneg r)]
    have hint := integerPart_of_magnitude hmag
    have hsign : (if n then -(integerPart F r : Int) else integerPart F r) = k := by
      rw [hint]
      cases n with
      | false =>
        have hk : (0 : ℚ) ≤ k := by
          rw [hval, signFactor_false, one_mul]
          exact F.magnitude_nonneg r
        have hk' : 0 ≤ k := by exact_mod_cast hk
        simp only [Bool.false_eq_true, if_false]
        omega
      | true =>
        have hk : (k : ℚ) ≤ 0 := by
          rw [hval, signFactor_true]
          have := F.magnitude_nonneg r
          linarith
        have hk' : k ≤ 0 := by exact_mod_cast hk
        simp only [if_true]
        omega
    simp only [toIntWithin, hlt.ne, if_false, hsign]

theorem toIntWithin_of_represents {k lo hi : Int} (hx : x.Represents k) (hlo : lo ≤ k)
    (hhi : k ≤ hi) : x.toIntWithin lo hi = k := by
  rw [toIntWithin_eq_clamp hx]
  omega

/-! ## Remainders -/

theorem magnitude_shifted {rank low : Nat} (h : low ≤ F.binade rank) :
    ((F.significand rank <<< (F.binade rank - low) : Nat) : ℚ) * 2 ^ (F.minExponent + low) =
      F.magnitude rank := by
  rw [Nat.shiftLeft_eq]
  push_cast
  unfold Format.magnitude Format.exponent
  rw [mul_assoc, ← zpow_natCast, ← zpow_add₀ two_ne_zero]
  congr 2
  omega

theorem euclideanRemainder_of_lt (hx : x.Represents p) (hy : y.Represents q) (hp : 0 ≤ p)
    (hpq : p < q) : euclideanRemainder x y = x := by
  cases x with
  | nan => exact hx.elim
  | number n r hr =>
    cases y with
    | nan => exact hy.elim
    | number n' r' hr' =>
      have hrep : (number n r hr : Binary F).Represents p := hx
      obtain ⟨hlt, hval⟩ := hx
      obtain ⟨hlt', hval'⟩ := hy
      have hmag : F.magnitude r = p := by
        rw [← abs_of_nonneg hp, hval, abs_signFactor_mul, abs_of_nonneg (F.magnitude_nonneg r)]
      have hmag' : F.magnitude r' = q := by
        rw [← abs_of_nonneg (hp.trans hpq.le), hval', abs_signFactor_mul,
          abs_of_nonneg (F.magnitude_nonneg r')]
      have h0 : r' ≠ 0 := by
        rintro rfl
        rw [F.magnitude_zero] at hmag'
        linarith
      have hr0 := magnitude_shifted (F := F) (Nat.min_le_left (F.binade r) (F.binade r'))
      have hr0' := magnitude_shifted (F := F) (Nat.min_le_right (F.binade r) (F.binade r'))
      have hpow : (0 : ℚ) < 2 ^ (F.minExponent + (min (F.binade r) (F.binade r') : Nat)) := by
        positivity
      have hsteps : F.significand r <<< (F.binade r - min (F.binade r) (F.binade r')) <
          F.significand r' <<< (F.binade r' - min (F.binade r) (F.binade r')) := by
        have h : F.magnitude r < F.magnitude r' := by rwa [hmag, hmag']
        rw [← hr0, ← hr0', mul_lt_mul_iff_of_pos_right hpow] at h
        exact_mod_cast h
      have hnear : F.nearestRank (F.significand r <<< (F.binade r - min (F.binade r) (F.binade r')))
          1 (F.minExponent + (min (F.binade r) (F.binade r') : Nat)) = r := by
        refine F.nearestRank_of_magnitude Nat.one_pos ?_
        rw [Nat.cast_one, div_one]
        exact hr0
      have hrem : remainder (number n r hr : Binary F) (number n' r' hr') = number n r hr := by
        simp only [remainder, hlt.ne, hlt'.ne, h0, or_self, if_false, Nat.mod_eq_of_lt hsteps,
          ofScaled, ofRank, hnear, Nat.min_eq_left hlt.le]
      have hzero : (zero false : Binary F).Represents 0 :=
        ⟨Nat.mul_pos (Nat.succ_pos _) F.unit_pos, by simp⟩
      have hneg : ¬ (number n r hr : Binary F) < zero false := by
        rw [lt_iff_of_represents hrep hzero]
        exact not_lt.mpr hp
      simp only [euclideanRemainder, hrem, hneg, if_false]

end Binary

end DroneShow
