-- Sums and halves. A sum is the exact one rounded once, doubling is exact
-- short of overflow, and half a sum lies between the numbers that were added.
import DroneShow.Proofs.Binary.Order
import DroneShow.Scalar

namespace DroneShow

/-! ## The greatest magnitudes -/

namespace Format

variable {F : Format} {q : ℚ} {m : Int}

theorem magnitude_infinityRank (F : Format) : F.magnitude F.infinityRank =
    2 ^ (((F.precision - 1 : Nat) : Int) + (F.minExponent + F.binades)) := by
  have hplace : F.infinityRank = F.binades * F.unit + F.unit := by
    rw [infinityRank, Nat.add_mul, Nat.one_mul]
  rw [hplace, F.magnitude_place (by omega) (.inr (Nat.le_refl _)), unit_cast,
    ← zpow_add₀ two_ne_zero]

theorem lt_infinityRank {rank : Nat} (hm : F.Covers m) (h : F.magnitude rank < 2 ^ m) :
    rank < F.infinityRank := by
  rw [← F.magnitude_strictMono.lt_iff_lt, magnitude_infinityRank]
  refine lt_of_lt_of_le h (zpow_le_zpow_right₀ one_le_two ?_)
  have := hm.2.1
  omega

/-- Finite magnitudes end one step of the last binade below infinity. -/
theorem magnitude_add_le (hF : 1 ≤ F.binades) {rank : Nat} (h : rank < F.infinityRank) :
    F.magnitude rank + 2 ^ (F.minExponent + F.binades - 1) ≤ F.magnitude F.infinityRank := by
  have hu := F.unit_pos
  obtain ⟨last, hlast⟩ : ∃ last, F.infinityRank = last + 1 := ⟨F.infinityRank - 1, by omega⟩
  have hquot : last / F.unit = F.binades := by
    refine Nat.div_eq_of_lt_le ?_ ?_
    · rw [infinityRank, Nat.add_mul, Nat.one_mul] at hlast
      omega
    · rw [infinityRank] at hlast
      omega
  have hexponent : F.exponent last = F.minExponent + F.binades - 1 := by
    rw [exponent, binade, hquot]
    omega
  rw [hlast, magnitude_succ, hexponent]
  have hle := F.magnitude_strictMono.monotone (show rank ≤ last by omega)
  linarith

/-- A value less than half such a step above a finite one is not rounded to infinity. -/
theorem nearestRank_lt_infinityRank {num den : Nat} {e : Int} (hF : 1 ≤ F.binades) (hd : 0 < den)
    (h : (num : ℚ) / den * 2 ^ e + 2 ^ (F.minExponent + F.binades - 2) <
      F.magnitude F.infinityRank) : F.nearestRank num den e < F.infinityRank := by
  have hhalf : (0 : ℚ) < 2 ^ (F.minExponent + F.binades - 2) := by positivity
  have hlt : (num : ℚ) / den * 2 ^ e <
      2 ^ (((F.precision - 1 : Nat) : Int) + (F.minExponent + F.binades)) := by
    rw [← magnitude_infinityRank]
    linarith
  have herr := F.nearestRank_error_of_lt hd (by omega) hlt
  rw [show ((F.precision - 1 : Nat) : Int) + (F.minExponent + F.binades) -
    (F.precision - 1 : Nat) - 2 = F.minExponent + F.binades - 2 by omega, abs_le] at herr
  rw [← F.magnitude_strictMono.lt_iff_lt]
  linarith

theorem Exact.double (h : F.Exact q) (hm : F.Covers m) (hq : |2 * q| < 2 ^ m) :
    F.Exact (2 * q) := by
  obtain ⟨rank, -, hval⟩ := h
  obtain ⟨rank', -, hval'⟩ :=
    F.exists_magnitude (F.binade rank + 1) (F.significand_lt rank).le
  have htwice : F.magnitude rank' = |2 * q| := by
    rw [hval', abs_mul, ← hval, abs_of_pos (two_pos (α := ℚ))]
    unfold magnitude exponent
    push_cast
    rw [← add_assoc, zpow_add_one₀ two_ne_zero]
    ring
  exact ⟨rank', lt_infinityRank hm (by rwa [htwice]), htwice⟩

end Format

namespace Binary

variable {F : Format} {x y lo hi : Binary F} {a b p q r : ℚ}

/-! ## Values -/

theorem Represents.exact (h : x.Represents q) : F.Exact q := by
  cases x with
  | nan => exact h.elim
  | number n rank hr =>
    obtain ⟨hlt, rfl⟩ := h
    exact ⟨rank, hlt, by rw [abs_signFactor_mul, abs_of_nonneg (F.magnitude_nonneg rank)]⟩

theorem exists_represents (h : x.isFinite = true) : ∃ q, x.Represents q := by
  cases x with
  | nan => simp [isFinite] at h
  | number n rank hr => exact ⟨_, by simpa [isFinite] using h, rfl⟩

theorem exists_number (h : F.Exact q) : ∃ x : Binary F, x.Represents q := by
  obtain ⟨rank, hlt, hval⟩ := h
  refine ⟨number (decide (q < 0)) rank hlt.le, hlt, ?_⟩
  rw [hval]
  rcases lt_or_ge q 0 with hneg | hpos
  · simp [hneg, abs_of_neg hneg]
  · simp [not_lt.mpr hpos, abs_of_nonneg hpos]

theorem represents_between (hlo : lo.Represents p) (hhi : hi.Represents q) (h : lo ≤ x)
    (h' : x ≤ hi) : ∃ c, x.Represents c ∧ p ≤ c ∧ c ≤ q := by
  have hfinite : x.isFinite = true := by
    cases x with
    | nan => exact absurd h not_le_nan
    | number n rank hr =>
      cases lo with
      | nan => exact hlo.elim
      | number n₁ r₁ hr₁ =>
        cases hi with
        | nan => exact hhi.elim
        | number n₂ r₂ hr₂ =>
          have hlt₁ := hlo.1
          have hlt₂ := hhi.1
          rw [number_le_iff] at h h'
          simp only [isFinite, decide_eq_true_eq]
          cases n <;> cases n₁ <;> cases n₂ <;>
            simp only [signedRank, if_true, Bool.false_eq_true, if_false] at h h' <;> omega
  obtain ⟨c, hc⟩ := exists_represents hfinite
  exact ⟨c, hc, (le_iff_of_represents hlo hc).mp h, (le_iff_of_represents hc hhi).mp h'⟩

theorem Rounds.between (h : x.Rounds r) (hlo : lo.Represents p) (hhi : hi.Represents q)
    (hp : p ≤ r) (hq : r ≤ q) : ∃ c, x.Represents c ∧ p ≤ c ∧ c ≤ q :=
  represents_between hlo hhi (hlo.rounds.mono h hp) (h.mono hhi.rounds hq)

/-! ## Sums and differences -/

theorem shifted_cast (n : Bool) (significand shift : Nat) :
    ((shifted n significand shift : Int) : ℚ) = signFactor n * (significand <<< shift : Nat) := by
  cases n with
  | false =>
    show (((significand <<< shift : Nat) : Int) : ℚ) = 1 * _
    rw [one_mul, Int.cast_natCast]
  | true =>
    show ((-((significand <<< shift : Nat) : Int) : Int) : ℚ) = -1 * _
    rw [neg_one_mul, Int.cast_neg, Int.cast_natCast]

theorem addFinite_rounds (n n' : Bool) (r r' : Nat) : (addFinite n r n' r' : Binary F).Rounds
    (signFactor n * F.magnitude r + signFactor n' * F.magnitude r') := by
  have hr := magnitude_shifted (F := F) (Nat.min_le_left (F.binade r) (F.binade r'))
  have hr' := magnitude_shifted (F := F) (Nat.min_le_right (F.binade r) (F.binade r'))
  unfold addFinite
  simp only
  generalize hsum : shifted n (F.significand r) (F.binade r - min (F.binade r) (F.binade r')) +
    shifted n' (F.significand r') (F.binade r' - min (F.binade r) (F.binade r')) = sum
  have hvalue : signFactor n * F.magnitude r + signFactor n' * F.magnitude r' =
      sum * 2 ^ (F.minExponent + (min (F.binade r) (F.binade r') : Nat)) := by
    rw [← hsum, ← hr, ← hr']
    push_cast
    rw [shifted_cast, shifted_cast]
    ring
  rw [hvalue]
  split
  · rename_i hzero
    refine ⟨n && n', 0, 1, 0, Nat.one_pos, ?_, by simp [hzero]⟩
    simp [ofScaled, ofRank, Format.nearestRank, zero]
  · refine ⟨decide (sum < 0), sum.natAbs, 1, _, Nat.one_pos, rfl, ?_⟩
    rw [Nat.cast_one, div_one, Nat.cast_natAbs, Int.cast_abs, ← mul_assoc]
    congr 1
    rcases lt_or_ge sum 0 with hneg | hpos
    · have hneg' : (sum : ℚ) < 0 := by exact_mod_cast hneg
      simp [hneg, abs_of_neg hneg']
    · have hpos' : (0 : ℚ) ≤ sum := by exact_mod_cast hpos
      simp [not_lt.mpr hpos, abs_of_nonneg hpos']

theorem add_rounds (hx : x.Represents p) (hy : y.Represents q) : (x + y).Rounds (p + q) := by
  cases x with
  | nan => exact hx.elim
  | number n r hr =>
    cases y with
    | nan => exact hy.elim
    | number n' r' hr' =>
      obtain ⟨hlt, rfl⟩ := hx
      obtain ⟨hlt', rfl⟩ := hy
      have hadd : (number n r hr : Binary F) + number n' r' hr' = addFinite n r n' r' := by
        show add _ _ = _
        simp [add, hlt.ne, hlt'.ne]
      rw [hadd]
      exact addFinite_rounds n n' r r'

theorem neg_represents (hx : x.Represents p) : (neg x).Represents (-p) := by
  cases x with
  | nan => exact hx.elim
  | number n r hr =>
    obtain ⟨hlt, rfl⟩ := hx
    refine ⟨hlt, ?_⟩
    cases n <;> simp

theorem sub_rounds (hx : x.Represents p) (hy : y.Represents q) : (x - y).Rounds (p - q) := by
  show (x + neg y).Rounds (p - q)
  rw [sub_eq_add_neg]
  exact add_rounds hx (neg_represents hy)

theorem Represents.abs_add_le (hF : 1 ≤ F.binades) (h : x.Represents p) :
    |p| + 2 ^ (F.minExponent + F.binades - 1) ≤ F.magnitude F.infinityRank := by
  obtain ⟨rank, hlt, hval⟩ := h.exact
  rw [← hval]
  exact Format.magnitude_add_le hF hlt

/-- A sum with a number that is small against the greatest ones does not overflow. -/
theorem add_isFinite (hF : 1 ≤ F.binades) (hx : x.Represents p) (hy : y.Represents q)
    (hp : |p| < 2 ^ (F.minExponent + F.binades - 2)) : (x + y).isFinite = true := by
  have htop := hy.abs_add_le hF
  rw [show F.minExponent + F.binades - 1 = F.minExponent + F.binades - 2 + 1 by omega,
    zpow_add_one₀ two_ne_zero] at htop
  have hsum := abs_add_le p q
  obtain ⟨n, num, den, e, hd, hround, hval⟩ := add_rounds hx hy
  have hnonneg : (0 : ℚ) ≤ num / den * 2 ^ e := by positivity
  have habs : |p + q| = num / den * 2 ^ e := by
    rw [hval, abs_signFactor_mul, abs_of_nonneg hnonneg]
  have hlt : F.nearestRank num den e < F.infinityRank :=
    Format.nearestRank_lt_infinityRank hF hd (by linarith)
  rw [hround, ofScaled, ofRank]
  simpa [isFinite] using hlt

theorem exists_div (hx : x.Represents p) (hy : y.Represents q) (hq : 1 ≤ q) :
    ∃ c, (x / y).Represents c := by
  have hpos : 0 < q := by linarith
  obtain ⟨z, hz⟩ := exists_number F.exact_zero
  have hquot := div_rounds hx hy hpos.ne'
  rcases le_total 0 p with hp | hp
  · obtain ⟨c, hc, -⟩ := hquot.between hz hx (by positivity) (div_le_self hp hq)
    exact ⟨c, hc⟩
  · have hle : p ≤ p / q := by
      rw [le_div_iff₀ hpos]
      exact mul_le_of_one_le_right hp hq
    obtain ⟨c, hc, -⟩ := hquot.between hx hz hle (div_nonpos_of_nonpos_of_nonneg hp hpos.le)
    exact ⟨c, hc⟩

/-! ## Halves -/

theorem two_represents (h : F.Exact 2) : (2 : Binary F).Represents 2 := by
  have hnat := ofNat_represents (F := F) (k := 2) (by exact_mod_cast h)
  exact_mod_cast hnat

theorem half_sum_between {m : Int} (h2 : F.Exact 2) (hm : F.Covers m) (hx : x.Represents a)
    (hy : y.Represents b) (hlo : lo.Represents p) (hhi : hi.Represents q) (hpa : p ≤ a)
    (hpb : p ≤ b) (haq : a ≤ q) (hbq : b ≤ q) (hp : |2 * p| < 2 ^ m) (hq : |2 * q| < 2 ^ m) :
    ∃ c, ((x + y) / 2).Represents c ∧ p ≤ c ∧ c ≤ q := by
  obtain ⟨lo', hlo'⟩ := exists_number (hlo.exact.double hm hp)
  obtain ⟨hi', hhi'⟩ := exists_number (hhi.exact.double hm hq)
  obtain ⟨s, hs, hps, hsq⟩ :=
    (add_rounds hx hy).between hlo' hhi' (by linarith) (by linarith)
  exact (div_rounds hs (two_represents h2) two_ne_zero).between hlo hhi (by linarith) (by linarith)

theorem addFinite_self (n : Bool) (r : Nat) : (addFinite n r n r : Binary F) =
    ofScaled n (2 * F.significand r) 1 (F.exponent r) := by
  unfold addFinite shifted
  simp only [Nat.min_self, Nat.sub_self, Nat.shiftLeft_zero]
  rcases Nat.eq_zero_or_pos (F.significand r) with h0 | hpos
  · rw [h0]
    cases n <;> simp [ofScaled, ofRank, Format.nearestRank, zero]
  · cases n with
    | false =>
      simp only [Bool.false_eq_true, if_false]
      rw [if_neg (by omega), decide_eq_false (by omega),
        show ((F.significand r : Int) + F.significand r).natAbs = 2 * F.significand r by omega]
      rfl
    | true =>
      simp only [if_true]
      rw [if_neg (by omega), decide_eq_true (by omega),
        show (-(F.significand r : Int) + -F.significand r).natAbs = 2 * F.significand r by omega]
      rfl

theorem add_self_eq {n : Bool} {r r₂ : Nat} (hr : r ≤ F.infinityRank) (hlt : r < F.infinityRank)
    (hlt₂ : r₂ < F.infinityRank) (h : F.magnitude r₂ = 2 * F.magnitude r) :
    (number n r hr : Binary F) + number n r hr = number n r₂ hlt₂.le := by
  have hadd : (number n r hr : Binary F) + number n r hr = addFinite n r n r := by
    show add _ _ = _
    simp [add, hlt.ne]
  have hrank : F.nearestRank (2 * F.significand r) 1 (F.exponent r) = r₂ := by
    refine F.nearestRank_of_magnitude Nat.one_pos ?_
    rw [h, Format.magnitude]
    push_cast
    ring
  rw [hadd, addFinite_self, ofScaled, hrank]
  simp only [ofRank, Nat.min_eq_left hlt₂.le]

theorem Represents.eq_positive (h : x.Represents q) (hq : 0 < q) :
    ∃ r, ∃ hr : r < F.infinityRank, x = number false r hr.le ∧ F.magnitude r = q := by
  cases x with
  | nan => exact h.elim
  | number n r hr =>
    obtain ⟨hlt, hval⟩ := h
    have hmag := F.magnitude_nonneg r
    cases n with
    | false =>
      rw [signFactor_false, one_mul] at hval
      exact ⟨r, hlt, rfl, hval.symm⟩
    | true =>
      rw [signFactor_true] at hval
      linarith

theorem div_positive_eq {n : Bool} {r r' s : Nat} (hr : r < F.infinityRank)
    (hr' : r' < F.infinityRank) (hs : s < F.infinityRank) (hpos : 0 < F.magnitude r')
    (h : F.magnitude r / F.magnitude r' = F.magnitude s) :
    (number n r hr.le : Binary F) / number false r' hr'.le = number n s hs.le := by
  have h0 : r' ≠ 0 := by
    rintro rfl
    simp at hpos
  have hsig : F.significand r' ≠ 0 := by
    intro hzero
    simp [Format.magnitude, hzero] at hpos
  have hrank : F.nearestRank (F.significand r) (F.significand r') (F.exponent r - F.exponent r') =
      s := by
    refine F.nearestRank_of_magnitude (Nat.pos_of_ne_zero hsig) ?_
    rw [← h, zpow_sub₀ two_ne_zero, Format.magnitude, Format.magnitude]
    field_simp
  show div _ _ = _
  simp [div, hr.ne, hr'.ne, h0, ofScaled, hrank, ofRank, Nat.min_eq_left hs.le]

theorem half_double (h2 : F.Exact 2) (hx : x.Represents p) (hp : F.Exact (2 * p)) :
    (x + x) / 2 = x := by
  obtain ⟨r', hlt', htwo, hval'⟩ := (two_represents h2).eq_positive two_pos
  cases x with
  | nan => exact hx.elim
  | number n r hr =>
    obtain ⟨hlt, rfl⟩ := hx
    obtain ⟨r₂, hlt₂, hval₂⟩ := hp
    rw [abs_mul, abs_signFactor_mul, abs_of_pos (two_pos (α := ℚ)),
      abs_of_nonneg (F.magnitude_nonneg r)] at hval₂
    rw [add_self_eq hr hlt hlt₂ hval₂, htwo]
    refine div_positive_eq hlt₂ hlt' hlt (hval' ▸ two_pos) ?_
    rw [hval₂, hval']
    ring

end Binary

end DroneShow
