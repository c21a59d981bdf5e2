-- Rounding respects the order. A greater value is never rounded to a smaller
-- number, so every operation that rounds once is monotone in its exact result.
import DroneShow.Proofs.Binary.Value

namespace DroneShow

/-! ## Quotients -/

/-- A rounded quotient reaches `k` from half a step below it on, and at just
half a step only if `k` is even. -/
theorem le_roundDiv_iff {num den k : Nat} (hd : 0 < den) : k ≤ roundDiv num den ↔
    2 * (k * den) < 2 * num + den ∨ (2 * (k * den) = 2 * num + den ∧ k % 2 = 0) := by
  have hdm := Nat.div_add_mod num den
  have hmod := Nat.mod_lt num hd
  unfold roundDiv
  simp only
  generalize num / den = quotient at hdm ⊢
  generalize num % den = rest at hdm hmod ⊢
  rw [Nat.mul_comm] at hdm
  rcases Nat.lt_trichotomy k (quotient + 1) with hlt | rfl | hgt
  · have hle : k * den ≤ quotient * den := Nat.mul_le_mul_right _ (by omega)
    split <;> omega
  · rw [Nat.add_mul]
    split <;> omega
  · have hle : (quotient + 2) * den ≤ k * den := Nat.mul_le_mul_right _ (by omega)
    rw [Nat.add_mul] at hle
    split <;> omega

theorem roundDiv_mono {num den num' den' : Nat} (hd : 0 < den) (hd' : 0 < den')
    (h : (num : ℚ) / den ≤ num' / den') : roundDiv num den ≤ roundDiv num' den' := by
  have hdq : (0 : ℚ) < den := by exact_mod_cast hd
  have hdq' : (0 : ℚ) < den' := by exact_mod_cast hd'
  rw [div_le_div_iff₀ hdq hdq'] at h
  have hcross : num * den' ≤ num' * den := by exact_mod_cast h
  have hself := (le_roundDiv_iff hd).mp (Nat.le_refl (roundDiv num den))
  rw [le_roundDiv_iff hd']
  generalize roundDiv num den = k at hself ⊢
  have hscale : 2 * (k * den') * den = 2 * (k * den) * den' := by ring
  have hvalue : (2 * num + den) * den' ≤ (2 * num' + den') * den := by nlinarith
  rcases hself with hlt | ⟨heq, heven⟩
  · left
    have hlt' : 2 * (k * den) * den' < (2 * num + den) * den' := Nat.mul_lt_mul_of_pos_right hlt hd'
    rw [← hscale] at hlt'
    exact Nat.lt_of_mul_lt_mul_right (lt_of_lt_of_le hlt' hvalue)
  · rw [← heq, ← hscale] at hvalue
    have hle := Nat.le_of_mul_le_mul_right hvalue hd
    rcases Nat.lt_or_eq_of_le hle with hlt | heq'
    · exact .inl hlt
    · exact .inr ⟨heq', heven⟩

/-! ## Ranks -/

namespace Format

variable (F : Format)

theorem targetBinade_mono {num den num' den' : Nat} {e e' : Int} (hn : num ≠ 0) (hd : 0 < den)
    (hn' : num' ≠ 0) (hd' : 0 < den') (h : (num : ℚ) / den * 2 ^ e ≤ (num' : ℚ) / den' * 2 ^ e') :
    F.targetBinade num den e ≤ F.targetBinade num' den' e' := by
  obtain ⟨hlow, -⟩ := log2Div_bounds hn hd
  obtain ⟨-, hhigh⟩ := log2Div_bounds hn' hd'
  have hlog : log2Div num den + e < log2Div num' den' + 1 + e' := by
    refine (zpow_lt_zpow_iff_right₀ (a := (2 : ℚ)) one_lt_two).mp ?_
    calc (2 : ℚ) ^ (log2Div num den + e) = 2 ^ log2Div num den * 2 ^ e := zpow_add₀ two_ne_zero _ _
      _ ≤ (num : ℚ) / den * 2 ^ e := by gcongr
      _ ≤ (num' : ℚ) / den' * 2 ^ e' := h
      _ < 2 ^ (log2Div num' den' + 1) * 2 ^ e' := by gcongr
      _ = 2 ^ (log2Div num' den' + 1 + e') := (zpow_add₀ two_ne_zero _ _).symm
  unfold targetBinade
  omega

theorem nearestRank_mono {num den num' den' : Nat} {e e' : Int} (hd : 0 < den) (hd' : 0 < den')
    (h : (num : ℚ) / den * 2 ^ e ≤ (num' : ℚ) / den' * 2 ^ e') :
    F.nearestRank num den e ≤ F.nearestRank num' den' e' := by
  by_cases hn : num = 0
  · simp [nearestRank, hn]
  · have hn' : num' ≠ 0 := by
      rintro rfl
      have hpos : (0 : ℚ) < (num : ℚ) / den * 2 ^ e := by
        have : (0 : ℚ) < num := by exact_mod_cast Nat.pos_of_ne_zero hn
        positivity
      simp only [Nat.cast_zero, zero_div, zero_mul] at h
      linarith
    rcases Nat.lt_or_eq_of_le (F.targetBinade_mono hn hd hn' hd' h) with hlt | heq
    · obtain ⟨s, hrank, hs, -, -⟩ := F.nearestRank_place hn hd e
      obtain ⟨s', hrank', -, hs', -⟩ := F.nearestRank_place hn' hd' e'
      have hfull : F.unit ≤ s' := hs'.resolve_left (by omega)
      have hstep : (F.targetBinade num den e + 1) * F.unit ≤ F.targetBinade num' den' e' * F.unit :=
        Nat.mul_le_mul_right _ hlt
      rw [Nat.add_mul] at hstep
      omega
    · obtain ⟨n, d, hpos, hrank, hval⟩ := F.nearestRank_quotient hn hd e
      obtain ⟨n', d', hpos', hrank', hval'⟩ := F.nearestRank_quotient hn' hd' e'
      have hstep : F.step num den e = F.step num' den' e' := by rw [step, step, heq]
      rw [hrank, hrank', heq]
      refine Nat.add_le_add_left (roundDiv_mono hpos hpos' ?_) _
      rw [hval, hval', hstep]
      exact div_le_div_of_nonneg_right h (F.step_pos num' den' e').le

end Format

namespace Binary

variable {F : Format} {x y z : Binary F} {p q : ℚ}

/-! ## The order of numbers -/

theorem number_le_iff {n n' : Bool} {r r' : Nat} {h : r ≤ F.infinityRank}
    {h' : r' ≤ F.infinityRank} :
    (number n r h : Binary F) ≤ number n' r' h' ↔ signedRank n r ≤ signedRank n' r' := by
  simp [LE.le, Binary.le]

theorem number_lt_iff {n n' : Bool} {r r' : Nat} {h : r ≤ F.infinityRank}
    {h' : r' ≤ F.infinityRank} :
    (number n r h : Binary F) < number n' r' h' ↔ signedRank n r < signedRank n' r' := by
  simp [LT.lt, Binary.lt]

theorem not_nan_le : ¬ (nan : Binary F) ≤ y := by simp [LE.le, Binary.le]

theorem not_le_nan : ¬ x ≤ (nan : Binary F) := by cases x <;> simp [LE.le, Binary.le]

theorem not_nan_lt : ¬ (nan : Binary F) < y := by simp [LT.lt, Binary.lt]

theorem not_lt_nan : ¬ x < (nan : Binary F) := by cases x <;> simp [LT.lt, Binary.lt]

protected theorem le_refl (hx : x.isNaN = false) : x ≤ x := by
  cases x with
  | nan => simp [isNaN] at hx
  | number n r h => exact number_le_iff.mpr (Int.le_refl _)

protected theorem le_trans (h : x ≤ y) (h' : y ≤ z) : x ≤ z := by
  cases x with
  | nan => exact absurd h not_nan_le
  | number n r hr =>
    cases y with
    | nan => exact absurd h not_le_nan
    | number n' r' hr' =>
      cases z with
      | nan => exact absurd h' not_le_nan
      | number n'' r'' hr'' =>
        rw [number_le_iff] at h h' ⊢
        exact Int.le_trans h h'

protected theorem not_lt (hx : x.isNaN = false) (hy : y.isNaN = false) : ¬ x < y ↔ y ≤ x := by
  cases x with
  | nan => simp [isNaN] at hx
  | number n r hr =>
    cases y with
    | nan => simp [isNaN] at hy
    | number n' r' hr' => rw [number_lt_iff, number_le_iff, Int.not_lt]

protected theorem not_le (hx : x.isNaN = false) (hy : y.isNaN = false) : ¬ x ≤ y ↔ y < x := by
  rw [← Binary.not_lt hy hx, not_not]

theorem isNaN_of_lt (h : x < y) : x.isNaN = false ∧ y.isNaN = false := by
  cases x with
  | nan => exact absurd h not_nan_lt
  | number n r hr =>
    cases y with
    | nan => exact absurd h not_lt_nan
    | number n' r' hr' => exact ⟨rfl, rfl⟩

theorem isNaN_of_le (h : x ≤ y) : x.isNaN = false ∧ y.isNaN = false := by
  cases x with
  | nan => exact absurd h not_nan_le
  | number n r hr =>
    cases y with
    | nan => exact absurd h not_le_nan
    | number n' r' hr' => exact ⟨rfl, rfl⟩

protected theorem not_lt_of_le (h : x ≤ y) : ¬ y < x :=
  (Binary.not_lt (isNaN_of_le h).2 (isNaN_of_le h).1).mpr h

theorem le_of_lt (h : x < y) : x ≤ y := by
  obtain ⟨hx, hy⟩ := isNaN_of_lt h
  by_contra hle
  rw [Binary.not_le hx hy] at hle
  cases x with
  | nan => exact not_nan_lt h
  | number n r hr =>
    cases y with
    | nan => exact not_lt_nan h
    | number n' r' hr' =>
      rw [number_lt_iff] at h hle
      omega

protected theorem lt_of_le_of_lt (h : x ≤ y) (h' : y < z) : x < z := by
  obtain ⟨hx, -⟩ := isNaN_of_le h
  obtain ⟨-, hz⟩ := isNaN_of_lt h'
  rw [← Binary.not_le hz hx]
  intro hle
  exact Binary.not_lt_of_le (Binary.le_trans hle h) h'

protected theorem lt_of_lt_of_le (h : x < y) (h' : y ≤ z) : x < z := by
  obtain ⟨hx, -⟩ := isNaN_of_lt h
  obtain ⟨-, hz⟩ := isNaN_of_le h'
  rw [← Binary.not_le hz hx]
  intro hle
  exact Binary.not_lt_of_le (Binary.le_trans h' hle) h

theorem same_iff : x.same y = true ↔ x ≤ y ∧ y ≤ x := by
  cases x with
  | nan => simp [same, not_nan_le]
  | number n r hr =>
    cases y with
    | nan => simp [same, not_le_nan]
    | number n' r' hr' =>
      rw [number_le_iff, number_le_iff]
      simp only [same, decide_eq_true_eq]
      omega

theorem same_comm : x.same y = y.same x := by
  rw [Bool.eq_iff_iff, same_iff, same_iff, and_comm]

/-! ## Rounded values -/

theorem le_infinity (hx : x.isNaN = false) : x ≤ infinity false := by
  cases x with
  | nan => simp [isNaN] at hx
  | number n r hr =>
    refine number_le_iff.mpr ?_
    cases n <;> simp only [signedRank, if_true, Bool.false_eq_true, if_false] <;> omega

theorem Represents.isNaN (h : x.Represents q) : x.isNaN = false := by
  cases x with
  | nan => exact h.elim
  | number n r hr => rfl

theorem Represents.unique (h : x.Represents p) (h' : x.Represents q) : p = q :=
  le_antisymm ((le_iff_of_represents h h').mp (Binary.le_refl h.isNaN))
    ((le_iff_of_represents h' h).mp (Binary.le_refl h.isNaN))

theorem Rounds.isNaN (h : x.Rounds q) : x.isNaN = false := by
  obtain ⟨n, num, den, e, -, rfl, -⟩ := h
  rfl

theorem Represents.rounds (h : x.Represents q) : x.Rounds q := by
  cases x with
  | nan => exact h.elim
  | number n r hr =>
    obtain ⟨hlt, rfl⟩ := h
    have hrank : F.nearestRank (F.significand r) 1 (F.exponent r) = r := by
      refine F.nearestRank_of_magnitude Nat.one_pos ?_
      rw [Nat.cast_one, div_one]
      rfl
    refine ⟨n, F.significand r, 1, F.exponent r, Nat.one_pos, ?_, ?_⟩
    · simp only [ofScaled, ofRank, hrank, Nat.min_eq_left hlt.le]
    · rw [Nat.cast_one, div_one]
      rfl

theorem Rounds.mono (hx : x.Rounds p) (hy : y.Rounds q) (h : p ≤ q) : x ≤ y := by
  obtain ⟨n, num, den, e, hd, rfl, rfl⟩ := hx
  obtain ⟨n', num', den', e', hd', rfl, rfl⟩ := hy
  have hv : (0 : ℚ) ≤ (num : ℚ) / den * 2 ^ e := by positivity
  have hv' : (0 : ℚ) ≤ (num' : ℚ) / den' * 2 ^ e' := by positivity
  unfold ofScaled ofRank
  rw [number_le_iff]
  cases n <;> cases n' <;>
    simp only [signedRank, signFactor, if_true, Bool.false_eq_true, if_false] at h ⊢
  · rw [one_mul, one_mul] at h
    have hrank := F.nearestRank_mono hd hd' h
    omega
  · have hzero : ∀ {a b : Nat} {c : Int}, 0 < b → (a : ℚ) / b * 2 ^ c ≤ 0 →
        F.nearestRank a b c = 0 := by
      intro a b c hb hle
      have hmono : F.nearestRank a b c ≤ F.nearestRank 0 1 0 :=
        F.nearestRank_mono hb Nat.one_pos (by simpa using hle)
      simpa [Format.nearestRank] using hmono
    have hr := hzero (a := num) (c := e) hd (by linarith)
    have hr' := hzero (a := num') (c := e') hd' (by linarith)
    omega
  · omega
  · rw [neg_one_mul, neg_one_mul, neg_le_neg_iff] at h
    have hrank := F.nearestRank_mono hd' hd h
    omega

theorem ofNat_mono {a b : Nat} (h : a ≤ b) : (ofNat a : Binary F) ≤ ofNat b :=
  (ofNat_rounds a).mono (ofNat_rounds b) (by exact_mod_cast h)

theorem same_of_represents (hx : x.Represents q) (hy : y.Represents q) : x.same y = true :=
  same_iff.mpr ⟨hx.rounds.mono hy.rounds le_rfl, hy.rounds.mono hx.rounds le_rfl⟩

end Binary

end DroneShow
