-- Whole numbers in both formats. Sums and products of whole numbers are exact as long
-- as they fit the significand, and every number of the smaller format is one of the larger.
import DroneShow.Proofs.Binary.Sum

namespace DroneShow.Binary

variable {F G : Format} {x y : Binary F} {p q : ℚ} {k l : ℤ}

/-! ## Exact whole numbers -/

theorem exact_whole {k : ℤ} (h : |k| ≤ 2 ^ 53) : binary64.Exact k := by
  refine Format.exact_intCast (by decide) (by decide) ?_
  have hunit : 2 * binary64.unit = 2 ^ 53 := by decide
  rw [hunit]
  rw [Int.abs_eq_natAbs] at h
  omega

theorem Represents.whole_add (hx : x.Represents k) (hy : y.Represents l)
    (h : F.Exact ((k + l : ℤ) : ℚ)) : (x + y).Represents ((k + l : ℤ) : ℚ) :=
  Rounds.exact (by rw [Int.cast_add]; exact add_rounds hx hy) h

theorem Represents.whole_sub (hx : x.Represents k) (hy : y.Represents l)
    (h : F.Exact ((k - l : ℤ) : ℚ)) : (x - y).Represents ((k - l : ℤ) : ℚ) :=
  Rounds.exact (by rw [Int.cast_sub]; exact sub_rounds hx hy) h

theorem Represents.whole_mul (hx : x.Represents k) (hy : y.Represents l)
    (h : F.Exact ((k * l : ℤ) : ℚ)) : (x * y).Represents ((k * l : ℤ) : ℚ) :=
  Rounds.exact (by rw [Int.cast_mul]; exact mul_rounds hx hy) h

theorem Represents.whole_neg (hx : x.Represents k) : (-x).Represents ((-k : ℤ) : ℚ) := by
  rw [Int.cast_neg]
  exact neg_represents hx

/-! ## Magnitudes and order -/

theorem Represents.abs (hx : x.Represents p) : x.abs.Represents |p| := by
  cases x with
  | nan => exact hx.elim
  | number n r hr =>
    obtain ⟨hlt, rfl⟩ := hx
    refine ⟨hlt, ?_⟩
    rw [abs_signFactor_mul, abs_of_nonneg (F.magnitude_nonneg r), signFactor_false, one_mul]

theorem Represents.max (hx : x.Represents p) (hy : y.Represents q) :
    (Max.max x y).Represents (Max.max p q) := by
  show (Binary.max x y).Represents _
  unfold Binary.max
  rw [hx.isNaN, hy.isNaN]
  by_cases hlt : p < q
  · simpa [(lt_iff_of_represents hx hy).mpr hlt, max_eq_right hlt.le] using hy
  · simpa [mt (lt_iff_of_represents hx hy).mp hlt, max_eq_left (not_lt.mp hlt)] using hx

theorem Represents.min (hx : x.Represents p) (hy : y.Represents q) :
    (Min.min x y).Represents (Min.min p q) := by
  show (Binary.min x y).Represents _
  unfold Binary.min
  rw [hx.isNaN, hy.isNaN]
  by_cases hlt : q < p
  · simpa [(lt_iff_of_represents hy hx).mpr hlt, min_eq_right hlt.le] using hy
  · simpa [mt (lt_iff_of_represents hy hx).mp hlt, min_eq_left (not_lt.mp hlt)] using hx

/-! ## The other format -/

theorem convert_rounds (hx : x.Represents p) : (convert x : Binary G).Rounds p := by
  cases x with
  | nan => exact hx.elim
  | number n r hr =>
    obtain ⟨hlt, rfl⟩ := hx
    refine ⟨n, F.significand r, 1, F.exponent r, Nat.one_pos, ?_, ?_⟩
    · simp [convert, hlt.ne]
    · rw [Nat.cast_one, div_one]
      rfl

theorem exact_double (h : binary32.Exact p) : binary64.Exact p := by
  obtain ⟨rank, hlt, hval⟩ := h
  have hbinade : binary32.binade rank ≤ 253 := by
    have hquot : rank / binary32.unit < 255 :=
      (Nat.div_lt_iff_lt_mul binary32.unit_pos).mpr hlt
    unfold Format.binade
    omega
  have hsig : binary32.significand rank ≤ 2 * binary64.unit :=
    (binary32.significand_lt rank).le.trans (by decide)
  obtain ⟨rank', hle, hval'⟩ := binary64.exists_magnitude (925 + binary32.binade rank) hsig
  refine ⟨rank', ?_, ?_⟩
  · calc rank' ≤ (925 + binary32.binade rank + 2) * binary64.unit := hle
      _ ≤ 1180 * binary64.unit := Nat.mul_le_mul_right _ (by omega)
      _ < binary64.infinityRank := by decide
  · have hexp : binary64.minExponent + ((925 + binary32.binade rank : Nat) : ℤ) =
        binary32.exponent rank := by
      show (-1074 : ℤ) + ((925 + binary32.binade rank : Nat) : ℤ) = -149 + binary32.binade rank
      omega
    rw [hval', hexp, ← hval, Format.magnitude]

theorem Represents.widen {x : Single} (hx : x.Represents p) :
    (Widening.widen x : Double).Represents p :=
  (convert_rounds hx).exact (exact_double hx.exact)

/-! ## Decimal fractions -/

theorem ofDecimal_rounds {digits k : ℕ} (hd : digits ≠ 0) (hk : k ≤ 400) :
    (ofDecimal false digits (-k) : Binary F).Rounds (digits / 10 ^ k) := by
  unfold ofDecimal decimalReach
  rw [if_neg hd, if_neg (by omega), if_neg (by omega)]
  by_cases h0 : k = 0
  · subst h0
    refine ⟨false, digits, 1, 0, Nat.one_pos, by simp, by simp⟩
  · rw [if_neg (by omega), neg_neg, Int.toNat_natCast]
    exact ⟨false, digits, 10 ^ k, 0, by positivity, rfl, by simp⟩

end DroneShow.Binary
