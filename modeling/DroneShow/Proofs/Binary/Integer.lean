-- Integers next to a number. Rounding a number to an integer gives the nearest
-- one, a half away from zero, and every format with steps of one has it.
import DroneShow.Proofs.Binary.Sum

namespace DroneShow

/-! ## The nearest integer of a value -/

/-- The integer nearest to a value, a half away from zero. -/
def nearestInt (q : ℚ) : ℤ := if 0 ≤ q then ⌊q + 1 / 2⌋ else -⌊-q + 1 / 2⌋

theorem nearestInt_mono {p q : ℚ} (h : p ≤ q) : nearestInt p ≤ nearestInt q := by
  unfold nearestInt
  have hhalf : ∀ r : ℚ, 0 ≤ r → 0 ≤ ⌊r + 1 / 2⌋ := fun r hr => Int.floor_nonneg.mpr (by linarith)
  by_cases hp : 0 ≤ p
  · rw [if_pos hp, if_pos (hp.trans h)]
    exact Int.floor_mono (by linarith)
  · rw [if_neg hp]
    have hlow := hhalf (-p) (by linarith)
    by_cases hq : 0 ≤ q
    · have hhigh := hhalf q hq
      rw [if_pos hq]
      omega
    · rw [if_neg hq]
      exact neg_le_neg (Int.floor_mono (by linarith))

/-- An integer is reached from the value a half below it on, and this value
reaches it itself if it is positive. -/
theorem le_nearestInt_iff {k : ℤ} {q : ℚ} :
    k ≤ nearestInt q ↔ if 0 < k then (k : ℚ) - 1 / 2 ≤ q else (k : ℚ) - 1 / 2 < q := by
  unfold nearestInt
  by_cases hq : 0 ≤ q
  · rw [if_pos hq, Int.le_floor]
    split
    · constructor <;> intro h <;> linarith
    · rename_i hk
      have hk' : (k : ℚ) ≤ 0 := by exact_mod_cast not_lt.mp hk
      constructor <;> intro h <;> linarith
  · rw [if_neg hq, le_neg, ← Int.lt_add_one_iff, Int.floor_lt]
    push_cast
    split
    · rename_i hk
      have hk' : (1 : ℚ) ≤ k := by exact_mod_cast hk
      constructor <;> intro h <;> linarith
    · constructor <;> intro h <;> linarith

@[simp] theorem nearestInt_intCast (k : ℤ) : nearestInt k = k := by
  have hfloor : ∀ n : ℤ, ⌊(n : ℚ) + 1 / 2⌋ = n := by
    intro n
    rw [Int.floor_eq_iff]
    constructor <;> linarith
  unfold nearestInt
  split
  · exact hfloor k
  · have hneg := hfloor (-k)
    push_cast at hneg
    rw [hneg, neg_neg]

theorem nearestInt_bounds (q : ℚ) : q - 1 / 2 ≤ nearestInt q ∧ (nearestInt q : ℚ) ≤ q + 1 / 2 := by
  unfold nearestInt
  split
  · have hlow := Int.lt_floor_add_one (q + 1 / 2)
    have hhigh := Int.floor_le (q + 1 / 2)
    constructor <;> linarith
  · have hlow := Int.lt_floor_add_one (-q + 1 / 2)
    have hhigh := Int.floor_le (-q + 1 / 2)
    push_cast
    constructor <;> linarith

namespace Binary

variable {F : Format} {x : Binary F} {q : ℚ}

/-! ## Rounding to an integer -/

theorem nearestInteger_eq_floor (F : Format) (rank : Nat) :
    (nearestInteger F rank : ℤ) = ⌊F.magnitude rank + 1 / 2⌋ := by
  unfold nearestInteger Format.magnitude
  simp only
  split
  · rename_i he
    obtain ⟨t, ht⟩ := Int.eq_ofNat_of_zero_le he
    rw [ht, Int.toNat_natCast, zpow_natCast, Nat.shiftLeft_eq, eq_comm, Int.floor_eq_iff]
    push_cast
    constructor <;> linarith
  · rename_i he
    obtain ⟨t, ht⟩ := Int.eq_ofNat_of_zero_le (show 0 ≤ -F.exponent rank by omega)
    have hpow : (0 : ℚ) < 2 ^ t := by positivity
    have hquot : (F.significand rank : ℚ) * 2 ^ F.exponent rank + 1 / 2 =
        ((2 * F.significand rank + 2 ^ t : Nat) : ℚ) / (2 * 2 ^ t : Nat) := by
      rw [show F.exponent rank = -(t : Int) by omega, zpow_neg, zpow_natCast]
      push_cast
      field_simp
    rw [ht, Int.toNat_natCast, Nat.shiftLeft_eq, Nat.one_mul, hquot, Rat.floor_natCast_div_natCast,
      Int.natCast_ediv]

theorem exact_nearestInteger (hlow : F.minExponent ≤ 0)
    (hhigh : (-F.minExponent).toNat + 2 ≤ F.binades) {rank : Nat} (hr : rank < F.infinityRank) :
    F.Exact (nearestInteger F rank : ℤ) := by
  rcases lt_or_ge (F.exponent rank) 0 with hneg | hpos
  · refine Format.exact_intCast hlow hhigh ?_
    rw [Int.natAbs_natCast]
    refine le_trans ?_ (F.significand_lt rank).le
    unfold nearestInteger
    simp only
    rw [if_neg (by omega), Nat.shiftLeft_eq, Nat.one_mul]
    have hpow : 1 ≤ 2 ^ (-F.exponent rank).toNat := Nat.one_le_two_pow
    refine Nat.le_of_lt_succ ((Nat.div_lt_iff_lt_mul (by omega)).mpr ?_)
    nlinarith
  · refine ⟨rank, hr, ?_⟩
    obtain ⟨t, ht⟩ := Int.eq_ofNat_of_zero_le hpos
    unfold nearestInteger Format.magnitude
    simp only
    rw [ht, if_pos (by omega), Int.toNat_natCast, zpow_natCast, Nat.shiftLeft_eq, Int.cast_natCast,
      Nat.abs_cast]
    push_cast
    rfl

/-- Rounding a number gives the nearest integer, without a second rounding. -/
theorem round_represents_nearestInt (hlow : F.minExponent ≤ 0)
    (hhigh : (-F.minExponent).toNat + 2 ≤ F.binades) (hx : x.Represents q) :
    x.round.Represents (nearestInt q) := by
  cases x with
  | nan => exact hx.elim
  | number n r hr =>
    obtain ⟨hlt, rfl⟩ := hx
    have hmag := F.magnitude_nonneg r
    have hsigned : ((nearestInt (signFactor n * F.magnitude r) : ℤ) : ℚ) =
        signFactor n * (nearestInteger F r : ℤ) := by
      rw [nearestInteger_eq_floor]
      cases n with
      | false => simp [nearestInt, hmag]
      | true =>
        rw [signFactor_true, neg_one_mul, neg_one_mul]
        unfold nearestInt
        split
        · have hzero : F.magnitude r = 0 := by linarith
          rw [hzero]
          norm_num
        · rw [neg_neg]
          push_cast
          rfl
    have hround : (round (number n r hr) : Binary F) = ofScaled n (nearestInteger F r) 1 0 := by
      simp [round, hlt.ne]
    rw [hround, hsigned]
    refine Rounds.exact ⟨n, nearestInteger F r, 1, 0, Nat.one_pos, rfl, by simp⟩ ?_
    obtain ⟨rank, hrank, hval⟩ := exact_nearestInteger hlow hhigh hlt
    exact ⟨rank, hrank, by rw [hval, abs_signFactor_mul]⟩

theorem round_infinity (n : Bool) : (round (infinity n) : Binary F) = infinity n := by
  simp [round, infinity]

/-- An integer strictly inside of the range is the nearest one, of a finite number. -/
theorem exists_of_round_toIntWithin {lo hi : ℤ} (hlow : F.minExponent ≤ 0)
    (hhigh : (-F.minExponent).toNat + 2 ≤ F.binades) (hx : x.isNaN = false)
    (hlo : lo < x.round.toIntWithin lo hi) (hhi : x.round.toIntWithin lo hi < hi) :
    ∃ w, x.Represents w ∧ nearestInt w = x.round.toIntWithin lo hi := by
  rcases hfinite : x.isFinite with _ | _
  · cases x with
    | nan => cases hx
    | number n r hr =>
      have hr : r = F.infinityRank := by
        simp only [isFinite, decide_eq_false_iff_not] at hfinite
        omega
      cases n <;> simp [round, toIntWithin, hr] at hlo hhi
  · obtain ⟨w, hw⟩ := exists_represents hfinite
    refine ⟨w, hw, ?_⟩
    rw [toIntWithin_eq_clamp (round_represents_nearestInt hlow hhigh hw)] at hlo hhi ⊢
    omega

end Binary

end DroneShow
