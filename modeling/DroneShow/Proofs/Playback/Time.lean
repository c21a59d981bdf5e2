-- The times of a playback, in seconds. The clock of the walk counts whole
-- milliseconds; the cursor compares them as seconds, which keep their order,
-- and tells a time by how much of a segment has passed.
import DroneShow.Proofs.Binary.Integer
import DroneShow.Proofs.Record.Quantum
import DroneShow.Trajectory.Cursor

namespace DroneShow

/-! ## Numbers within bounds -/

namespace Binary

variable {F : Format} {x y lo hi : Binary F} {q : ℚ}

theorem le_max_left (hx : x.isNaN = false) (hy : y.isNaN = false) : x ≤ max x y := by
  show x ≤ Binary.max x y
  unfold Binary.max
  simp only [hx, hy, Bool.false_eq_true, if_false]
  split
  · rename_i h
    exact le_of_lt h
  · exact Binary.le_refl hx

theorem le_max_right (hx : x.isNaN = false) (hy : y.isNaN = false) : y ≤ max x y := by
  show y ≤ Binary.max x y
  unfold Binary.max
  simp only [hx, hy, Bool.false_eq_true, if_false]
  split
  · exact Binary.le_refl hy
  · rename_i h
    exact (Binary.not_lt hx hy).mp h

theorem clamp_mem (hx : x.isNaN = false) (h : lo ≤ hi) : lo ≤ x.clamp lo hi ∧ x.clamp lo hi ≤ hi := by
  obtain ⟨hlo, hhi⟩ := isNaN_of_le h
  unfold clamp
  simp only
  by_cases hlow : x < lo
  · rw [if_pos hlow, if_neg ((Binary.not_lt hhi hlo).mpr h)]
    exact ⟨Binary.le_refl hlo, h⟩
  · rw [if_neg hlow]
    split
    · exact ⟨h, Binary.le_refl hhi⟩
    · rename_i hhigh
      exact ⟨(Binary.not_lt hx hlo).mp hlow, (Binary.not_lt hhi hx).mp hhigh⟩

/-- Only the difference of two infinities is no number. -/
theorem sub_isNaN (hx : x.isNaN = false) (hy : y.Represents q) : (x - y).isNaN = false := by
  cases x with
  | nan => simp [isNaN] at hx
  | number n r hr =>
    cases y with
    | nan => exact hy.elim
    | number n' r' hr' =>
      have hlt := hy.1.ne
      show (add (number n r hr) (neg (number n' r' hr'))).isNaN = false
      by_cases hinf : r = F.infinityRank
      · simp [add, neg, hinf, hlt, infinity, isNaN]
      · simp only [add, neg, hinf, hlt, if_false]
        exact (addFinite_rounds n (!n') r r').isNaN

theorem div_isNaN (hx : x.isNaN = false) (hy : y.Represents q) (hq : q ≠ 0) :
    (x / y).isNaN = false := by
  cases x with
  | nan => simp [isNaN] at hx
  | number n r hr =>
    cases y with
    | nan => exact hy.elim
    | number n' r' hr' =>
      obtain ⟨hlt, rfl⟩ := hy
      have h0 : r' ≠ 0 := by
        rintro rfl
        simp at hq
      show (div _ _).isNaN = false
      by_cases hinf : r = F.infinityRank
      · simp [div, hinf, hlt.ne, infinity, isNaN]
      · simp [div, hinf, hlt.ne, h0, ofScaled, ofRank, isNaN]

end Binary

namespace Segment

open Binary
open Quantum (zero_represents)

variable {s : Segment} {t : Single} {a b ms : Nat}

/-! ## Seconds -/

theorem thousand_represents : (1000 : Single).Represents (1000 : ℚ) := by
  have hnat := ofNat_represents (F := binary32) (Quantum.exact_nat (k := 1000) (by decide))
  exact_mod_cast hnat

theorem ofNat_clock (h : ms ≤ timeLimit) : ∃ q, (Binary.ofNat ms : Single).Represents q := by
  have hlt : |(ms : ℚ)| < 2 ^ (32 : Int) := by
    rw [Nat.abs_cast]
    unfold timeLimit at h
    exact_mod_cast (show ms < 4294967296 by omega)
  obtain ⟨q, hq, -⟩ :=
    (ofNat_rounds ms).near (Quantum.covers_single (by decide) (by decide)) hlt
  exact ⟨q, hq⟩

theorem seconds_mono (h : a ≤ b) (hb : b ≤ timeLimit) : seconds a ≤ seconds b := by
  obtain ⟨p, hp⟩ := ofNat_clock (h.trans hb)
  obtain ⟨q, hq⟩ := ofNat_clock hb
  have hpq := (le_iff_of_represents hp hq).mp (ofNat_mono h)
  refine (div_rounds hp thousand_represents (by norm_num)).mono
    (div_rounds hq thousand_represents (by norm_num)) ?_
  exact div_le_div_of_nonneg_right hpq (by norm_num)

theorem seconds_represents (h : ms ≤ timeLimit) : ∃ q, (seconds ms).Represents q := by
  obtain ⟨p, hp⟩ := ofNat_clock h
  have hpos : 0 ≤ p := by
    rw [← le_iff_of_represents zero_represents hp]
    exact ofNat_mono (Nat.zero_le ms)
  obtain ⟨q, hq, -⟩ := (div_rounds hp thousand_represents (by norm_num)).between zero_represents hp
    (by positivity) (by linarith)
  exact ⟨q, hq⟩

theorem seconds_pos (hpos : 0 < ms) (h : ms ≤ timeLimit) : 0 < seconds ms :=
  Binary.lt_of_lt_of_le (show (0 : Single) < seconds 1 by decide) (seconds_mono hpos h)

/-! ## The passed part -/

/-- The segment ends in time. -/
def OnClock (s : Segment) : Prop := s.startMs + s.durationMs ≤ timeLimit

theorem OnClock.startSec_le_endSec (h : s.OnClock) : s.startSec ≤ s.endSec :=
  seconds_mono (Nat.le_add_right _ _) h

theorem OnClock.relativeTime_mem (h : s.OnClock) (ht : t.isNaN = false) :
    0 ≤ Cursor.relativeTime s t ∧ Cursor.relativeTime s t ≤ 1 := by
  unfold Cursor.relativeTime
  split
  · exact ⟨by decide, by decide⟩
  split
  · exact ⟨by decide, by decide⟩
  · rename_i hms
    have hstart : s.startMs ≤ timeLimit := le_trans (Nat.le_add_right _ _) h
    have hduration : s.durationMs ≤ timeLimit := le_trans (Nat.le_add_left _ _) h
    obtain ⟨p, hp⟩ := seconds_represents hstart
    obtain ⟨q, hq⟩ := seconds_represents hduration
    have hpos := seconds_pos (Nat.pos_of_ne_zero hms) hduration
    rw [lt_iff_of_represents zero_represents hq] at hpos
    exact clamp_mem (div_isNaN (sub_isNaN ht hp) hq hpos.ne') (by decide)

end Segment

end DroneShow
