-- Storing rounds once. A coordinate is divided by the scale, which rounds, and
-- the quotient is brought to an integer, which rounds again. The first rounding
-- never leads past a half, so both together are one rounding of the exact quotient.
import DroneShow.Proofs.Binary.Quotient
import DroneShow.Proofs.Record.Encoding

namespace DroneShow.Quantum

open Binary

variable {scale : Nat} {v : Single} {k : Int} {q w : ℚ}

/-! ## Halves -/

theorem exact_half {m : Int} (h : m.natAbs ≤ 16777216) : binary32.Exact (m / 2) := by
  obtain ⟨rank, hrank, hval⟩ := binary32.exists_magnitude 148 (s := m.natAbs) h
  refine ⟨rank, lt_of_le_of_lt hrank (by decide), ?_⟩
  rw [hval, Nat.cast_natAbs, Int.cast_abs, abs_div, abs_of_pos (two_pos (α := ℚ)),
    div_eq_mul_inv]
  norm_num [binary32]

/-- A half below an integer is far from the first binade. -/
theorem least_lt_abs_half (k : Int) :
    2 * (binary32.unit : ℚ) * 2 ^ binary32.minExponent < |(k : ℚ) - 1 / 2| := by
  have hfar : (1 : ℚ) / 2 ≤ |(k : ℚ) - 1 / 2| := by
    rcases lt_or_ge 0 k with hpos | hneg
    · have hpos' : (1 : ℚ) ≤ k := by exact_mod_cast hpos
      exact le_trans (by linarith) (le_abs_self _)
    · have hneg' : (k : ℚ) ≤ 0 := by exact_mod_cast hneg
      exact le_trans (by linarith) (neg_le_abs _)
  refine lt_of_lt_of_le ?_ hfar
  norm_num [binary32]

/-! ## Units -/

/-- The rounded units lie on the same side as the exact ones of every half that
matters, also of those at both ends of the range. -/
theorem units_sides (hpos : 0 < scale) (hs : scale ≤ 127) (hv : v.Represents q)
    (hw : (v / Binary.ofNat scale).Represents w) (hk : k.natAbs ≤ 32769) :
    (w < k - 1 / 2 ↔ q / scale < k - 1 / 2) ∧ ((k : ℚ) - 1 / 2 < w ↔ k - 1 / 2 < q / scale) := by
  have hhalf : ((2 * k - 1 : Int) : ℚ) / 2 = k - 1 / 2 := by
    push_cast
    ring
  have hback : (((2 * k - 1) * scale : Int) : ℚ) / 2 = (k - 1 / 2) * scale := by
    push_cast
    ring
  have hprod : ((2 * k - 1) * (scale : Int)).natAbs ≤ 16777216 := by
    rw [Int.natAbs_mul, Int.natAbs_natCast]
    calc (2 * k - 1).natAbs * scale ≤ 65539 * 127 := Nat.mul_le_mul (by omega) hs
      _ ≤ 16777216 := by decide
  have hscale : (scale : ℚ) ≠ 0 := by exact_mod_cast hpos.ne'
  exact div_sides hv (scale_represents hs) hscale hw (hhalf ▸ exact_half (by omega))
    (hback ▸ exact_half hprod) (least_lt_abs_half k)

theorem le_nearestInt_units (hpos : 0 < scale) (hs : scale ≤ 127) (hv : v.Represents q)
    (hw : (v / Binary.ofNat scale).Represents w) (hk : k.natAbs ≤ 32769) :
    k ≤ nearestInt w ↔ k ≤ nearestInt (q / scale) := by
  obtain ⟨hbelow, habove⟩ := units_sides hpos hs hv hw hk
  rw [le_nearestInt_iff, le_nearestInt_iff, ← not_lt, ← not_lt, hbelow, habove]

/-! ## Storing -/

/-- What is stored for a coordinate is the integer nearest to its exact quotient
by the scale, if that can be stored. -/
theorem encodeCoordinate_of_quotient (hpos : 0 < scale) (hs : scale ≤ 127)
    (hv : v.Represents q) : encodeCoordinate scale v =
      if Stored (nearestInt (q / scale)) then .ok (nearestInt (q / scale))
      else .error .coordinateRange := by
  obtain ⟨w, hw⟩ := exists_units hpos hs hv
  have hreach (k : Int) (hk : k.natAbs ≤ 32769) := le_nearestInt_units hpos hs hv hw hk
  rw [encodeCoordinate_of_units hv hw]
  generalize nearestInt w = rounded at hreach ⊢
  generalize nearestInt (q / scale) = exact at hreach ⊢
  have hlow := hreach (-32768) (by decide)
  have hhigh := hreach 32768 (by decide)
  by_cases hstored : Stored exact
  · have heq : rounded = exact := by
      rw [stored_iff] at hstored
      have hself := hreach exact (by omega)
      have hnext := hreach (exact + 1) (by omega)
      omega
    rw [heq]
  · have hrounded : ¬ Stored rounded := by
      rw [stored_iff] at hstored ⊢
      omega
    rw [if_neg hstored, if_neg hrounded]

/-- Storing and reading back moves a coordinate by at most half the scale. -/
theorem decodeCoordinate_near (hpos : 0 < scale) (hs : scale ≤ 127) (hv : v.Represents q)
    (h : encodeCoordinate scale v = .ok k) :
    ∃ p, (decodeCoordinate scale k).Represents p ∧ |p - q| ≤ scale / 2 := by
  rw [encodeCoordinate_of_quotient hpos hs hv] at h
  split at h
  · rename_i hstored
    cases h
    refine ⟨_, decodeCoordinate_represents hs hstored, ?_⟩
    obtain ⟨hlow, hhigh⟩ := nearestInt_bounds (q / scale)
    have hscale : (0 : ℚ) < scale := by exact_mod_cast hpos
    have hq : q = q / scale * scale := (div_mul_cancel₀ q hscale.ne').symm
    have hnear : |(nearestInt (q / scale) : ℚ) - q / scale| ≤ 1 / 2 := by
      rw [abs_le]
      constructor <;> linarith
    calc |(nearestInt (q / scale) : ℚ) * scale - q|
        = |(nearestInt (q / scale) : ℚ) - q / scale| * scale := by
          rw [← abs_of_pos hscale, ← abs_mul, sub_mul, abs_of_pos hscale, ← hq]
      _ ≤ 1 / 2 * scale := by gcongr
      _ = scale / 2 := by ring
  · cases h

/-- Storing is exact. At every scale, what is stored for a finite number is the
integer nearest to the exact quotient, a half away from zero, and numbers for
which that integer cannot be stored are refused. So a number that is read back
is within half the scale of the one that was stored, and what was read is stored
as it was. -/
theorem storing_rounds_once (hpos : 0 < scale) (hs : scale ≤ 127) :
    (∀ v : Single, v.isFinite = true → ∃ q, v.Represents q ∧
      (encodeCoordinate scale v = if Stored (nearestInt (q / scale))
        then .ok (nearestInt (q / scale)) else .error .coordinateRange) ∧
      ∀ k, encodeCoordinate scale v = .ok k →
        ∃ p, (decodeCoordinate scale k).Represents p ∧ |p - q| ≤ scale / 2) ∧
    ∀ raw, Stored raw → encodeCoordinate scale (decodeCoordinate scale raw) = .ok raw := by
  refine ⟨fun v hfinite => ?_, fun raw hr => encodeCoordinate_decodeCoordinate hpos hs hr⟩
  obtain ⟨q, hv⟩ := exists_represents hfinite
  exact ⟨q, hv, encodeCoordinate_of_quotient hpos hs hv,
    fun k h => decodeCoordinate_near hpos hs hv h⟩

/-- The last number before four and a half, at a scale of three: its exact units
are just below a half, and it is stored with the integer below. -/
theorem just_below_a_half : ∃ (v : Single) (q : ℚ), v = Binary.ofBits 1083179007 ∧
    v.Represents q ∧ encodeCoordinate 3 v = .ok 1 ∧ nearestInt (q / (3 : Nat)) = 1 ∧
    (∃ p, (decodeCoordinate 3 1).Represents p ∧ |p - q| ≤ (3 : Nat) / 2) ∧
    encodeCoordinate 3 (decodeCoordinate 3 (-32768)) = .ok (-32768) := by
  obtain ⟨hstore, hagain⟩ := storing_rounds_once (show 0 < 3 by decide) (by decide)
  obtain ⟨q, hv, hencode, hnear⟩ := hstore (Binary.ofBits 1083179007) (by decide +kernel)
  have hone : encodeCoordinate 3 (Binary.ofBits 1083179007) = .ok 1 := by decide +kernel
  refine ⟨_, q, rfl, hv, hone, ?_, hnear 1 hone, hagain _ (by decide)⟩
  rw [hone] at hencode
  split at hencode
  · exact (Except.ok.inj hencode).symm
  · cases hencode

end DroneShow.Quantum
