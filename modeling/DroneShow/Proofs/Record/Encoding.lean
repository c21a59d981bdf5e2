-- The order of stored coordinates. Storing is rounding to whole scale units,
-- so that it keeps the order, and what lies between two coordinates that can
-- be stored can be stored between them.
import DroneShow.Proofs.Binary.Integer
import DroneShow.Proofs.Record.Quantum

namespace DroneShow.Quantum

open Binary

variable {scale : Nat} {x y v : Single} {a b k : Int} {p q r w : ℚ}

/-! ## Scale units -/

theorem scale_represents (hs : scale ≤ 127) :
    (Binary.ofNat scale : Single).Represents (scale : ℚ) :=
  ofNat_represents (exact_nat (by omega))

theorem exists_units (hpos : 0 < scale) (hs : scale ≤ 127) (hv : v.Represents q) :
    ∃ w, (v / Binary.ofNat scale).Represents w :=
  exists_div hv (scale_represents hs) (by exact_mod_cast hpos)

/-! ## Storing -/

/-- What is stored for a coordinate is the nearest whole number of its units. -/
theorem encodeCoordinate_of_units (hv : v.Represents q)
    (hw : (v / Binary.ofNat scale).Represents w) : encodeCoordinate scale v =
      if Stored (nearestInt w) then .ok (nearestInt w) else .error .coordinateRange := by
  have hround := round_represents_nearestInt (F := binary32) (by decide) (by decide) hw
  have hlow : (v / Binary.ofNat scale).round < Binary.ofInt least ↔ nearestInt w < least := by
    rw [lt_iff_of_represents hround (ofInt_represents (exact_int (by decide)))]
    exact Int.cast_lt
  have hhigh : Binary.ofInt greatest < (v / Binary.ofNat scale).round ↔
      greatest < nearestInt w := by
    rw [lt_iff_of_represents (ofInt_represents (exact_int (by decide))) hround]
    exact Int.cast_lt
  unfold encodeCoordinate
  simp only [hv.isFinite, Bool.not_true, Bool.false_eq_true, if_false, hlow, hhigh, Bool.or_eq_true,
    decide_eq_true_eq]
  by_cases hstored : Stored (nearestInt w)
  · obtain ⟨hl, hg⟩ := hstored
    rw [if_neg (by omega), if_pos ⟨hl, hg⟩, toIntWithin_of_represents hround hl hg]
  · rw [if_neg hstored, if_pos]
    rw [Stored, not_and_or] at hstored
    omega

theorem isFinite_of_encodeCoordinate (h : encodeCoordinate scale v = .ok k) :
    v.isFinite = true := by
  by_contra hinf
  rw [Bool.not_eq_true] at hinf
  unfold encodeCoordinate at h
  rw [hinf] at h
  cases h

theorem encodeCoordinate_eq_ok_iff (hpos : 0 < scale) (hs : scale ≤ 127) (hv : v.Represents q) :
    encodeCoordinate scale v = .ok k ↔
      ∃ w, (v / Binary.ofNat scale).Represents w ∧ nearestInt w = k ∧ Stored k := by
  constructor
  · intro h
    obtain ⟨w, hw⟩ := exists_units hpos hs hv
    rw [encodeCoordinate_of_units hv hw] at h
    split at h
    · rename_i hstored
      cases h
      exact ⟨w, hw, rfl, hstored⟩
    · cases h
  · rintro ⟨w, hw, rfl, hstored⟩
    rw [encodeCoordinate_of_units hv hw, if_pos hstored]

theorem units_mono {u w : ℚ} (hs : scale ≤ 127) (hpos : 0 < scale) (hx : x.Represents p)
    (hy : y.Represents q) (hu : (x / Binary.ofNat scale).Represents u)
    (hw : (y / Binary.ofNat scale).Represents w) (h : p ≤ q) : u ≤ w := by
  have hscale : (0 : ℚ) < scale := by exact_mod_cast hpos
  rw [← le_iff_of_represents hu hw]
  exact (div_rounds hx (scale_represents hs) hscale.ne').mono
    (div_rounds hy (scale_represents hs) hscale.ne') (div_le_div_of_nonneg_right h hscale.le)

/-- Between two coordinates that can be stored, any can be, and in their order. -/
theorem encodeCoordinate_between (hpos : 0 < scale) (hs : scale ≤ 127) (hx : x.Represents p)
    (hv : v.Represents q) (hy : y.Represents r) (hpq : p ≤ q) (hqr : q ≤ r)
    (ha : encodeCoordinate scale x = .ok a) (hb : encodeCoordinate scale y = .ok b) :
    ∃ k, encodeCoordinate scale v = .ok k ∧ a ≤ k ∧ k ≤ b := by
  obtain ⟨t, ht, rfl, hlow⟩ := (encodeCoordinate_eq_ok_iff hpos hs hx).mp ha
  obtain ⟨u, hu, rfl, hhigh⟩ := (encodeCoordinate_eq_ok_iff hpos hs hy).mp hb
  obtain ⟨w, hw⟩ := exists_units hpos hs hv
  have hfrom := nearestInt_mono (units_mono hs hpos hx hv ht hw hpq)
  have hto := nearestInt_mono (units_mono hs hpos hv hy hw hu hqr)
  have hstored : Stored (nearestInt w) := ⟨hlow.1.trans hfrom, hto.trans hhigh.2⟩
  exact ⟨nearestInt w, (encodeCoordinate_eq_ok_iff hpos hs hv).mpr ⟨w, hw, rfl, hstored⟩, hfrom, hto⟩

/-! ## Midpoints -/

theorem abs_lt_of_encodeCoordinate (hpos : 0 < scale) (hs : scale ≤ 127) (hv : v.Represents q)
    (h : encodeCoordinate scale v = .ok k) : |q| < 2 ^ (23 : Int) := by
  obtain ⟨w, hw, rfl, hstored⟩ := (encodeCoordinate_eq_ok_iff hpos hs hv).mp h
  obtain ⟨hnear, hnear'⟩ := nearestInt_bounds w
  have hlow : (-32768 : ℚ) ≤ nearestInt w := by exact_mod_cast hstored.1
  have hhigh : (nearestInt w : ℚ) ≤ 32767 := by exact_mod_cast hstored.2
  have hscale : (0 : ℚ) < scale := by exact_mod_cast hpos
  have hs' : (scale : ℚ) ≤ 127 := by exact_mod_cast hs
  have hquot := div_rounds hv (scale_represents hs) hscale.ne'
  have hlt : q / scale < 32770 := by
    by_contra hle
    have hbound := ofInt_represents (F := binary32) (exact_int (k := 32770) (by decide))
    have hmono := hbound.rounds.mono hquot (by exact_mod_cast not_lt.mp hle)
    rw [le_iff_of_represents hbound hw] at hmono
    have : (32770 : ℚ) ≤ w := by exact_mod_cast hmono
    linarith
  have hgt : -32770 < q / scale := by
    by_contra hle
    have hbound := ofInt_represents (F := binary32) (exact_int (k := -32770) (by decide))
    have hmono := hquot.mono hbound.rounds (by exact_mod_cast not_lt.mp hle)
    rw [le_iff_of_represents hw hbound] at hmono
    have : w ≤ (-32770 : ℚ) := by exact_mod_cast hmono
    linarith
  rw [div_lt_iff₀ hscale] at hlt
  rw [lt_div_iff₀ hscale] at hgt
  rw [abs_lt]
  norm_num
  constructor <;> nlinarith

theorem abs_double_lt (h : |q| < 2 ^ (23 : Int)) : |2 * q| < 2 ^ (24 : Int) := by
  rw [abs_mul, abs_of_pos (two_pos (α := ℚ))]
  norm_num at h ⊢
  linarith

theorem half_sum_mem (hx : x.Represents p) (hy : y.Represents q) (hp : |p| < 2 ^ (23 : Int))
    (hq : |q| < 2 ^ (23 : Int)) :
    ∃ c, ((x + y) / 2).Represents c ∧ (p ≤ q → p ≤ c ∧ c ≤ q) ∧ (q ≤ p → q ≤ c ∧ c ≤ p) := by
  have hp' := abs_double_lt hp
  have hq' := abs_double_lt hq
  have htwo : binary32.Exact 2 := by exact_mod_cast exact_int (k := 2) (by decide)
  have hcovers : binary32.Covers 24 := covers_single (by decide) (by decide)
  rcases le_total p q with hle | hle
  · obtain ⟨c, hc, hpc, hcq⟩ :=
      half_sum_between htwo hcovers hx hy hx hy le_rfl hle hle le_rfl hp' hq'
    exact ⟨c, hc, fun _ => ⟨hpc, hcq⟩, fun hge => ⟨hge.trans hpc, hcq.trans hge⟩⟩
  · obtain ⟨c, hc, hqc, hcp⟩ :=
      half_sum_between htwo hcovers hx hy hy hx hle le_rfl le_rfl hle hq' hp'
    exact ⟨c, hc, fun hge => ⟨hge.trans hqc, hcp.trans hge⟩, fun _ => ⟨hqc, hcp⟩⟩

/-- Halfway between two coordinates that can be stored, one is stored between
them. -/
theorem encodeCoordinate_half_sum (hpos : 0 < scale) (hs : scale ≤ 127)
    (ha : encodeCoordinate scale x = .ok a) (hb : encodeCoordinate scale y = .ok b) :
    ∃ k, encodeCoordinate scale ((x + y) / 2) = .ok k ∧ min a b ≤ k ∧ k ≤ max a b := by
  obtain ⟨p, hx⟩ := exists_represents (isFinite_of_encodeCoordinate ha)
  obtain ⟨q, hy⟩ := exists_represents (isFinite_of_encodeCoordinate hb)
  obtain ⟨c, hc, hup, hdown⟩ := half_sum_mem hx hy (abs_lt_of_encodeCoordinate hpos hs hx ha)
    (abs_lt_of_encodeCoordinate hpos hs hy hb)
  rcases le_total p q with hle | hle
  · obtain ⟨hpc, hcq⟩ := hup hle
    obtain ⟨k, hk, hak, hkb⟩ := encodeCoordinate_between hpos hs hx hc hy hpc hcq ha hb
    exact ⟨k, hk, (min_le_left a b).trans hak, hkb.trans (le_max_right a b)⟩
  · obtain ⟨hqc, hcp⟩ := hdown hle
    obtain ⟨k, hk, hbk, hka⟩ := encodeCoordinate_between hpos hs hy hc hx hqc hcp hb ha
    exact ⟨k, hk, (min_le_right a b).trans hbk, hka.trans (le_max_left a b)⟩

/-! ## Decoded values -/

theorem decode_represents {raw : Int} (hs : scale ≤ 127) (hr : Stored raw) (axis : Axis) :
    ∃ q, (decode scale axis raw).Represents q ∧ |q| < 2 ^ (23 : Int) := by
  have hcoordinate : ∃ q, (decodeCoordinate scale raw).Represents q ∧ |q| < 2 ^ (23 : Int) := by
    refine ⟨_, decodeCoordinate_represents hs hr, ?_⟩
    have habs : (|raw * (scale : Int)|) ≤ 32768 * 127 := by
      rw [abs_mul, Nat.abs_cast]
      have hraw : |raw| ≤ 32768 := by
        rw [abs_le]
        rw [stored_iff] at hr
        omega
      have hscale : (scale : Int) ≤ 127 := by omega
      exact mul_le_mul hraw hscale (by omega) (by omega)
    have hcast : |(raw : ℚ) * scale| ≤ 32768 * 127 := by exact_mod_cast habs
    norm_num at hcast ⊢
    linarith
  cases axis with
  | x => exact hcoordinate
  | y => exact hcoordinate
  | z => exact hcoordinate
  | yaw =>
    obtain ⟨q, hq, hlow, hhigh⟩ := decodeYaw_represents raw
    refine ⟨q, hq, ?_⟩
    rw [abs_of_nonneg hlow]
    norm_num
    linarith

theorem exists_encodeYaw (hv : v.isFinite = true) : ∃ k, encodeYaw v = .ok k :=
  ⟨_, encodeYaw_eq_ok_iff.mpr ⟨hv, rfl⟩⟩

theorem isFinite_of_encodeYaw (h : encodeYaw v = .ok k) : v.isFinite = true :=
  (encodeYaw_eq_ok_iff.mp h).1

/-- Halfway from a decoded value to any that can be stored, one can be stored.
An angle may be as great as a number can be: less than a turn more does not
make it infinite. -/
theorem exists_encode_half_sum {raw : Int} {axis : Axis} (hpos : 0 < scale) (hs : scale ≤ 127)
    (hr : Stored raw) (h : encode scale axis v = .ok k) :
    ∃ k', encode scale axis ((decode scale axis raw + v) / 2) = .ok k' := by
  have hcoordinate : ∀ {k}, encodeCoordinate scale v = .ok k →
      ∃ k', encodeCoordinate scale ((decodeCoordinate scale raw + v) / 2) = .ok k' := by
    intro k hk
    obtain ⟨k', hk', -⟩ :=
      encodeCoordinate_half_sum hpos hs (encodeCoordinate_decodeCoordinate hpos hs hr) hk
    exact ⟨k', hk'⟩
  cases axis with
  | x => exact hcoordinate h
  | y => exact hcoordinate h
  | z => exact hcoordinate h
  | yaw =>
    obtain ⟨q, hq, hlow, hhigh⟩ := decodeYaw_represents raw
    obtain ⟨p, hp⟩ := exists_represents (isFinite_of_encodeYaw h)
    have hsum : (decodeYaw raw + v).isFinite = true := by
      refine add_isFinite (by decide) hq hp ?_
      rw [abs_of_nonneg hlow]
      norm_num [binary32]
      linarith
    obtain ⟨s, hs⟩ := exists_represents hsum
    have htwo : binary32.Exact 2 := by exact_mod_cast exact_int (k := 2) (by decide)
    obtain ⟨c, hc⟩ := exists_div hs (two_represents htwo) (by norm_num)
    exact exists_encodeYaw hc.isFinite

theorem half_double_decode {raw : Int} (hs : scale ≤ 127) (hr : Stored raw) (axis : Axis) :
    (decode scale axis raw + decode scale axis raw) / 2 = decode scale axis raw := by
  obtain ⟨q, hq, hlt⟩ := decode_represents hs hr axis
  have htwo : binary32.Exact 2 := by exact_mod_cast exact_int (k := 2) (by decide)
  exact half_double htwo hq
    (hq.exact.double (covers_single (by decide) (by decide)) (abs_double_lt hlt))

end DroneShow.Quantum
