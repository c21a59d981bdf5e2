-- The exact magnitudes of a binary format. Every rank stands for a rational
-- number, its significand times a power of two, and every small multiple of
-- such a power has a rank.
import DroneShow.Binary.Arithmetic
import Mathlib.Algebra.Order.Field.Power
import Mathlib.Data.Rat.Floor
import Mathlib.Tactic.FieldSimp
import Mathlib.Tactic.Linarith
import Mathlib.Tactic.Positivity
import Mathlib.Tactic.Ring

namespace DroneShow.Format

variable (F : Format)

/-- The exact magnitude of a rank. -/
def magnitude (rank : Nat) : ℚ := F.significand rank * 2 ^ F.exponent rank

theorem unit_eq_pow : F.unit = 2 ^ (F.precision - 1) := F.unit_eq

theorem unit_pos : 0 < F.unit := by
  rw [F.unit_eq_pow]
  exact Nat.two_pow_pos _

/-! ## Places in a binade -/

/-- The first binade starts at zero, and every other one with a full significand. -/
theorem binade_place {b s : Nat} (hs : s < 2 * F.unit) (hb : b = 0 ∨ F.unit ≤ s) :
    F.binade (b * F.unit + s) = b := by
  unfold binade
  rw [Nat.add_comm, Nat.add_mul_div_right _ _ F.unit_pos]
  rcases Nat.lt_or_ge s F.unit with h | h
  · rw [Nat.div_eq_of_lt h]
    omega
  · have hone : s / F.unit = 1 := Nat.div_eq_of_lt_le (by omega) (by omega)
    omega

theorem significand_place {b s : Nat} (hs : s < 2 * F.unit) (hb : b = 0 ∨ F.unit ≤ s) :
    F.significand (b * F.unit + s) = s := by
  unfold significand
  rw [F.binade_place hs hb]
  omega

/-- The last place of a binade is also the first one of the next. -/
theorem magnitude_place {b s : Nat} (hs : s ≤ 2 * F.unit) (hb : b = 0 ∨ F.unit ≤ s) :
    F.magnitude (b * F.unit + s) = s * 2 ^ (F.minExponent + b) := by
  rcases Nat.lt_or_ge s (2 * F.unit) with h | h
  · unfold magnitude exponent
    rw [F.binade_place h hb, F.significand_place h hb]
  · have he : s = F.unit + F.unit := by omega
    have hcarry : b * F.unit + s = (b + 1) * F.unit + F.unit := by
      rw [he, Nat.add_mul]
      omega
    have hfull : F.unit < 2 * F.unit := by
      have := F.unit_pos
      omega
    unfold magnitude exponent
    rw [hcarry, F.binade_place hfull (.inr (Nat.le_refl _)),
      F.significand_place hfull (.inr (Nat.le_refl _)), he]
    push_cast
    rw [← add_assoc, zpow_add_one₀ two_ne_zero]
    ring

theorem significand_lt (rank : Nat) : F.significand rank < 2 * F.unit := by
  have hu := F.unit_pos
  have hdm := Nat.div_add_mod rank F.unit
  have hmod := Nat.mod_lt rank hu
  unfold significand binade
  rcases Nat.eq_zero_or_pos (rank / F.unit) with h | h
  · rw [h] at hdm ⊢
    omega
  · obtain ⟨k, hk⟩ := Nat.exists_eq_succ_of_ne_zero h.ne'
    rw [hk] at hdm ⊢
    have : F.unit * k.succ = k * F.unit + F.unit := by rw [Nat.mul_succ, Nat.mul_comm]
    simp only [Nat.succ_sub_one]
    omega

theorem place_of_rank (rank : Nat) :
    rank = F.binade rank * F.unit + F.significand rank ∧
      (F.binade rank = 0 ∨ F.unit ≤ F.significand rank) := by
  have hle : F.binade rank * F.unit ≤ rank :=
    le_trans (Nat.mul_le_mul_right _ (Nat.sub_le _ _)) (Nat.div_mul_le_self _ _)
  refine ⟨by unfold significand; omega, ?_⟩
  rcases Nat.eq_zero_or_pos (rank / F.unit) with h | h
  · left
    simp [binade, h]
  · right
    have hlow : (F.binade rank + 1) * F.unit ≤ rank := by
      unfold binade
      rw [Nat.sub_add_cancel h]
      exact Nat.div_mul_le_self _ _
    rw [Nat.add_mul] at hlow
    unfold significand
    omega

theorem magnitude_nonneg (rank : Nat) : 0 ≤ F.magnitude rank := by
  unfold magnitude
  positivity

@[simp] theorem magnitude_zero : F.magnitude 0 = 0 := by
  simp [magnitude, significand]

/-! ## Multiples of a power of two -/

/-- A multiple that a significand can count has a rank, whatever the power. -/
theorem exists_magnitude (b : Nat) {s : Nat} (hs : s ≤ 2 * F.unit) :
    ∃ rank ≤ (b + 2) * F.unit, F.magnitude rank = s * 2 ^ (F.minExponent + b) := by
  induction b generalizing s with
  | zero => exact ⟨0 * F.unit + s, by omega, F.magnitude_place hs (.inl rfl)⟩
  | succ b ih =>
    rcases Nat.lt_or_ge s F.unit with h | h
    · obtain ⟨rank, hle, hval⟩ := ih (s := 2 * s) (by omega)
      refine ⟨rank, le_trans hle (Nat.mul_le_mul_right _ (by omega)), ?_⟩
      rw [hval]
      push_cast
      rw [← add_assoc, zpow_add_one₀ two_ne_zero]
      ring
    · refine ⟨(b + 1) * F.unit + s, ?_, F.magnitude_place hs (.inr h)⟩
      have : (b + 1 + 2) * F.unit = (b + 1) * F.unit + 2 * F.unit := Nat.add_mul _ _ _
      omega

end DroneShow.Format
