-- Operations that keep the order of numbers. The exact operations do, and
-- rounding does; the infinities are the ends of the order and stay them.
import DroneShow.Proofs.Binary.Sum

namespace DroneShow.Binary

variable {F G : Format} {x y z lo hi : Binary F} {q : ℚ}

/-! ## The ends of the order -/

theorem neg_infinity_le (hx : x.isNaN = false) : infinity true ≤ x := by
  cases x with
  | nan => simp [isNaN] at hx
  | number n r hr =>
    refine number_le_iff.mpr ?_
    cases n <;> simp only [signedRank, if_true, Bool.false_eq_true, if_false] <;> omega

/-- Numbers in order are finite, or the first is the lower end or the second the upper. -/
theorem le_cases (h : x ≤ y) : x = infinity true ∨ y = infinity false ∨
    ∃ p q, x.Represents p ∧ y.Represents q ∧ p ≤ q := by
  cases x with
  | nan => exact absurd h not_nan_le
  | number n r hr =>
    cases y with
    | nan => exact absurd h not_le_nan
    | number n' r' hr' =>
      have hpos : 0 < F.infinityRank := Nat.mul_pos (Nat.succ_pos _) F.unit_pos
      by_cases hfinite : r < F.infinityRank ∧ r' < F.infinityRank
      · have hx : (number n r hr).Represents (signFactor n * F.magnitude r) := ⟨hfinite.1, rfl⟩
        have hy : (number n' r' hr').Represents (signFactor n' * F.magnitude r') := ⟨hfinite.2, rfl⟩
        exact .inr (.inr ⟨_, _, hx, hy, (le_iff_of_represents hx hy).mp h⟩)
      · rw [number_le_iff] at h
        cases n <;> cases n' <;>
          simp only [signedRank, if_true, Bool.false_eq_true, if_false] at h
        · obtain rfl : r' = F.infinityRank := by omega
          exact .inr (.inl rfl)
        · omega
        · rcases Nat.lt_or_ge r F.infinityRank with hlt | hge
          · obtain rfl : r' = F.infinityRank := by omega
            exact .inr (.inl rfl)
          · obtain rfl : r = F.infinityRank := by omega
            exact .inl rfl
        · obtain rfl : r = F.infinityRank := by omega
          exact .inl rfl

theorem mono_of_finite {f : Binary F → Binary G}
    (hfinite : ∀ {x y p q}, x.Represents p → y.Represents q → p ≤ q → f x ≤ f y)
    (hends : ∀ n, f (infinity n) = infinity n) (h : x ≤ y) : f x ≤ f y := by
  have hnumber : ∀ {z}, z ≤ z → (f z).isNaN = false := by
    intro z hz
    rcases le_cases hz with rfl | rfl | ⟨p, -, hp, -, -⟩
    · rw [hends]
      rfl
    · rw [hends]
      rfl
    · exact (isNaN_of_le (hfinite hp hp le_rfl)).1
  obtain ⟨hx, hy⟩ := isNaN_of_le h
  rcases le_cases h with rfl | rfl | ⟨p, q, hp, hq, hle⟩
  · rw [hends]
    exact neg_infinity_le (hnumber (Binary.le_refl hy))
  · rw [hends false]
    exact le_infinity (hnumber (Binary.le_refl hx))
  · exact hfinite hp hq hle

/-! ## Operations -/

theorem sub_mono (h : x ≤ y) (hz : z.Represents q) : x - z ≤ y - z := by
  refine mono_of_finite (f := (· - z)) (fun hx hy hpq => ?_) (fun n => ?_) h
  · exact (sub_rounds hx hz).mono (sub_rounds hy hz) (by linarith)
  · cases z with
    | nan => exact hz.elim
    | number n' r' hr' =>
      show add (infinity n) (neg (number n' r' hr')) = infinity n
      simp [add, neg, infinity, hz.1.ne]

theorem div_mono (h : x ≤ y) (hz : z.Represents q) (hq : 0 < q) : x / z ≤ y / z := by
  refine mono_of_finite (f := (· / z)) (fun hx hy hpq => ?_) (fun n => ?_) h
  · exact (div_rounds hx hz hq.ne').mono (div_rounds hy hz hq.ne')
      (div_le_div_of_nonneg_right hpq hq.le)
  · obtain ⟨r, hr, rfl, -⟩ := hz.eq_positive hq
    show div (infinity n) (number false r hr.le) = infinity n
    simp [div, infinity, hr.ne]

theorem raise_mono (h : x ≤ y) (hlo : lo.isNaN = false) :
    (if x < lo then lo else x) ≤ if y < lo then lo else y := by
  obtain ⟨hx, hy⟩ := isNaN_of_le h
  by_cases hylow : y < lo
  · rw [if_pos (Binary.lt_of_le_of_lt h hylow), if_pos hylow]
    exact Binary.le_refl hlo
  · rw [if_neg hylow]
    split
    · exact (Binary.not_lt hy hlo).mp hylow
    · exact h

theorem lower_mono (h : x ≤ y) (hhi : hi.isNaN = false) :
    (if hi < x then hi else x) ≤ if hi < y then hi else y := by
  obtain ⟨hx, hy⟩ := isNaN_of_le h
  by_cases hxhigh : hi < x
  · rw [if_pos hxhigh, if_pos (Binary.lt_of_lt_of_le hxhigh h)]
    exact Binary.le_refl hhi
  · rw [if_neg hxhigh]
    split
    · exact (Binary.not_lt hhi hx).mp hxhigh
    · exact h

theorem clamp_mono (h : x ≤ y) (hlo : lo.isNaN = false) (hhi : hi.isNaN = false) :
    x.clamp lo hi ≤ y.clamp lo hi := lower_mono (raise_mono h hlo) hhi

end DroneShow.Binary
