-- Stored values survive decoding: a decoded coordinate is stored as the same
-- number again, and a decoded yaw angle as the same number of tenths up to
-- whole turns.
import DroneShow.Proofs.Axes
import DroneShow.Proofs.Binary.Value
import DroneShow.Proofs.Record.Word

namespace DroneShow.Quantum

open Binary

theorem Stored.natAbs_le {raw : Int} (h : Stored raw) : raw.natAbs ≤ 32768 := by
  rw [stored_iff] at h
  omega

/-! ## Exact numbers of the 32-bit format -/

theorem exact_int {k : Int} (h : k.natAbs ≤ 16777216) : binary32.Exact k :=
  Format.exact_intCast (by decide) (by decide) h

theorem exact_nat {k : Nat} (h : k ≤ 16777216) : binary32.Exact k := by
  have hint := exact_int (k := (k : Int)) (by omega)
  exact_mod_cast hint

theorem zero_represents : (0 : Single).Represents (0 : ℚ) := by
  have hnat := ofNat_represents (F := binary32) (exact_nat (k := 0) (by decide))
  exact_mod_cast hnat

theorem one_represents : (1 : Single).Represents (1 : ℚ) := by
  have hnat := ofNat_represents (F := binary32) (exact_nat (k := 1) (by decide))
  exact_mod_cast hnat

theorem covers_single {m : Int} (hlow : -125 ≤ m) (hhigh : m ≤ 127) : binary32.Covers m := by
  refine ⟨?_, ?_, by decide⟩
  · show (-149 : Int) + (23 : Nat) + 1 ≤ m
    omega
  · show m - (23 : Nat) - (-149) < (254 : Nat)
    omega

/-! ## Coordinates -/

theorem decodeCoordinate_represents {scale : Nat} {raw : Int} (hs : scale ≤ 127) (hr : Stored raw) :
    (decodeCoordinate scale raw).Represents ((raw : ℚ) * scale) := by
  have habs := hr.natAbs_le
  refine (mul_rounds (ofInt_represents (exact_int (by omega)))
    (ofNat_represents (exact_nat (by omega)))).exact ?_
  have hprod : (raw * (scale : Int)).natAbs ≤ 16777216 := by
    rw [Int.natAbs_mul, Int.natAbs_natCast]
    calc raw.natAbs * scale ≤ 32768 * 127 := Nat.mul_le_mul habs hs
      _ ≤ 16777216 := by decide
  exact_mod_cast exact_int hprod

theorem encodeCoordinate_decodeCoordinate {scale : Nat} {raw : Int} (hpos : 0 < scale)
    (hs : scale ≤ 127) (hr : Stored raw) :
    encodeCoordinate scale (decodeCoordinate scale raw) = .ok raw := by
  have habs := hr.natAbs_le
  have hexact := exact_int (k := raw) (by omega)
  have hscale : (scale : ℚ) ≠ 0 := by exact_mod_cast hpos.ne'
  have hvalue := decodeCoordinate_represents hs hr
  have hquot : (decodeCoordinate scale raw / Binary.ofNat scale).Represents raw := by
    have hdiv := div_rounds hvalue (ofNat_represents (exact_nat (by omega))) hscale
    rw [mul_div_cancel_right₀ _ hscale] at hdiv
    exact hdiv.exact hexact
  have hround : (decodeCoordinate scale raw / Binary.ofNat scale).round.Represents raw :=
    round_represents hquot (by simp) hexact
  have hlow : ¬ (decodeCoordinate scale raw / Binary.ofNat scale).round < Binary.ofInt least := by
    rw [lt_iff_of_represents hround (ofInt_represents (exact_int (by decide)))]
    exact not_lt.mpr (by exact_mod_cast hr.1)
  have hhigh :
      ¬ Binary.ofInt greatest < (decodeCoordinate scale raw / Binary.ofNat scale).round := by
    rw [lt_iff_of_represents (ofInt_represents (exact_int (by decide))) hround]
    exact not_lt.mpr (by exact_mod_cast hr.2)
  have hint : (decodeCoordinate scale raw / Binary.ofNat scale).round.toIntWithin least greatest
      = raw := toIntWithin_of_represents hround hr.1 hr.2
  simp [encodeCoordinate, hvalue.isFinite, hlow, hhigh, hint]

/-! ## Yaw angles -/

theorem ten_represents : (10 : Single).Represents (10 : ℚ) := by
  have hnat := ofNat_represents (F := binary32) (exact_nat (k := 10) (by decide))
  exact_mod_cast hnat

/-- Tenths of a degree as degrees miss the exact angle by next to nothing. -/
theorem tenths_represents {k : Int} (hlo : 0 ≤ k) (hhi : k < fullTurn) :
    ∃ z, (Binary.ofInt k / 10 : Single).Represents z ∧ |z - k / 10| ≤ 2 ^ (-16 : Int) ∧ 0 ≤ z := by
  unfold fullTurn at hhi
  have hlo' : (0 : ℚ) ≤ k := by exact_mod_cast hlo
  have hhi' : (k : ℚ) < 3600 := by exact_mod_cast hhi
  have hk := ofInt_represents (F := binary32) (exact_int (k := k) (by omega))
  have hlt : |(k : ℚ) / 10| < 2 ^ (9 : Int) := by
    rw [abs_of_nonneg (by positivity)]
    norm_num
    linarith
  obtain ⟨z, hrep, herr, hpos⟩ :=
    (div_rounds hk ten_represents (by norm_num)).near (covers_single (by decide) (by decide)) hlt
  exact ⟨z, hrep, herr, hpos (by positivity)⟩

theorem normalize_of_represents {x : Single} {q : ℚ} (hx : x.Represents q) (hlo : 0 ≤ q)
    (hhi : q < 360) : Yaw.normalize x = x := by
  have h360 : (360 : Single).Represents (360 : ℚ) := by
    have := ofNat_represents (F := binary32) (exact_nat (k := 360) (by decide))
    exact_mod_cast this
  have hrem : x.euclideanRemainder 360 = x := euclideanRemainder_of_lt hx h360 hlo hhi
  have hle : ¬ (360 : Single) ≤ x := by
    rw [le_iff_of_represents h360 hx]
    exact not_le.mpr hhi
  unfold Yaw.normalize
  simp only [hrem, hle, if_false]

/-- A decoded angle misses the exact one by next to nothing and is below a full turn. -/
theorem decodeYaw_near (raw : Int) : ∃ z, (decodeYaw raw).Represents z ∧
    |z - (raw % fullTurn : Int) / 10| ≤ 2 ^ (-16 : Int) ∧ 0 ≤ z ∧ z < 360 := by
  have hlo : 0 ≤ raw % fullTurn := Int.emod_nonneg _ (by decide)
  have hhi : raw % fullTurn < fullTurn := Int.emod_lt_of_pos _ (by decide)
  obtain ⟨z, hz, herr, hz0⟩ := tenths_represents hlo hhi
  have hk : ((raw % fullTurn : Int) : ℚ) ≤ 3599 := by
    unfold fullTurn at hhi ⊢
    exact_mod_cast (show raw % 3600 ≤ 3599 by omega)
  have hlt : z < 360 := by
    have hsmall : (2 : ℚ) ^ (-16 : Int) = 1 / 65536 := by norm_num
    rw [hsmall, abs_le] at herr
    linarith
  refine ⟨z, ?_, herr, hz0, hlt⟩
  unfold decodeYaw
  rwa [normalize_of_represents hz hz0 hlt]

theorem decodeYaw_represents (raw : Int) :
    ∃ q, (decodeYaw raw).Represents q ∧ 0 ≤ q ∧ q < 360 := by
  obtain ⟨z, hz, -, hz0, hlt⟩ := decodeYaw_near raw
  exact ⟨z, hz, hz0, hlt⟩

/-- The tenths of a degree of an angle, before whole turns are taken away. -/
def tenths (value : Single) : Int := (value * 10).round.toIntWithin leastTenths greatestTenths

theorem encodeYaw_eq_ok_iff {value : Single} {k : Int} :
    encodeYaw value = .ok k ↔ value.isFinite = true ∧ tenths value % fullTurn = k := by
  unfold encodeYaw tenths
  cases value.isFinite <;> simp

theorem tenths_decodeYaw (raw : Int) : tenths (decodeYaw raw) = raw % fullTurn := by
  have hlo : 0 ≤ raw % fullTurn := Int.emod_nonneg _ (by decide)
  have hhi : raw % fullTurn < fullTurn := Int.emod_lt_of_pos _ (by decide)
  obtain ⟨z, hz, herr, hz0, hlt⟩ := decodeYaw_near raw
  generalize raw % fullTurn = k at hlo hhi herr
  have hsmall : (2 : ℚ) ^ (-16 : Int) = 1 / 65536 := by norm_num
  rw [hsmall, abs_le] at herr
  have hbound : |z * 10| < 2 ^ (12 : Int) := by
    rw [abs_of_nonneg (by linarith)]
    norm_num
    linarith
  obtain ⟨w, hw, hwerr, -⟩ :=
    (mul_rounds hz ten_represents).near (covers_single (by decide) (by decide)) hbound
  have hclose : |w - k| < 1 / 2 := by
    have hsmall' : (2 : ℚ) ^ ((12 : Int) - (binary32.precision - 1 : Nat) - 2) = 1 / 8192 := by
      norm_num [binary32]
    rw [hsmall', abs_le] at hwerr
    rw [abs_lt]
    constructor <;> linarith
  unfold fullTurn at hhi
  refine toIntWithin_of_represents (round_represents hw hclose (exact_int (by omega))) ?_ ?_
  · unfold leastTenths
    omega
  · unfold greatestTenths
    omega

theorem encodeYaw_decodeYaw (raw : Int) : encodeYaw (decodeYaw raw) = .ok (raw % fullTurn) := by
  obtain ⟨z, hz, -⟩ := decodeYaw_near raw
  rw [encodeYaw_eq_ok_iff, tenths_decodeYaw]
  exact ⟨hz.isFinite, Int.emod_emod_of_dvd _ (dvd_refl fullTurn)⟩

/-! ## All axes -/

/-- The number that is stored again for a stored one: yaw angles lose whole turns. -/
def canonical : Axis → Int → Int
  | .yaw, raw => raw % fullTurn
  | _, raw => raw

theorem encode_decode {scale : Nat} {raw : Int} (hpos : 0 < scale) (hs : scale ≤ 127)
    (hr : Stored raw) (axis : Axis) :
    encode scale axis (decode scale axis raw) = .ok (canonical axis raw) := by
  cases axis with
  | yaw => exact encodeYaw_decodeYaw raw
  | x => exact encodeCoordinate_decodeCoordinate hpos hs hr
  | y => exact encodeCoordinate_decodeCoordinate hpos hs hr
  | z => exact encodeCoordinate_decodeCoordinate hpos hs hr

@[simp] theorem decode_canonical (scale : Nat) (axis : Axis) (raw : Int) :
    decode scale axis (canonical axis raw) = decode scale axis raw := by
  cases axis <;> simp [decode, canonical, decodeYaw]

theorem stored_emod (raw : Int) : Stored (raw % fullTurn) := by
  have hlo := Int.emod_nonneg raw (show fullTurn ≠ 0 by decide)
  have hhi := Int.emod_lt_of_pos raw (show 0 < fullTurn by decide)
  unfold fullTurn at hlo hhi ⊢
  rw [stored_iff]
  omega

theorem stored_canonical {axis : Axis} {raw : Int} (h : Stored raw) :
    Stored (canonical axis raw) := by
  cases axis with
  | yaw => exact stored_emod raw
  | x => exact h
  | y => exact h
  | z => exact h

theorem toIntWithin_mem {F : Format} {lo hi : Int} (hlo : lo ≤ 0) (hhi : 0 ≤ hi) (x : Binary F) :
    lo ≤ x.toIntWithin lo hi ∧ x.toIntWithin lo hi ≤ hi := by
  unfold toIntWithin
  split
  · exact ⟨hlo, hhi⟩
  · simp only
    split
    · split <;> omega
    · omega

theorem stored_of_encode {scale : Nat} {axis : Axis} {value : Single} {raw : Int}
    (h : encode scale axis value = .ok raw) : Stored raw := by
  have hcoordinate : ∀ {v : Single}, encodeCoordinate scale v = .ok raw → Stored raw := by
    intro v hv
    unfold encodeCoordinate at hv
    simp only at hv
    split at hv
    · simp at hv
    · split at hv
      · simp at hv
      · cases hv
        exact toIntWithin_mem (by decide) (by decide) _
  cases axis with
  | yaw =>
    simp only [encode, encodeYaw] at h
    split at h
    · simp at h
    · cases h
      exact stored_emod _
  | x => exact hcoordinate h
  | y => exact hcoordinate h
  | z => exact hcoordinate h

/-! ## Poses -/

theorem encodePose_eq_ok_iff {scale : Nat} {p : Pose} {raws : Axes Int} :
    encodePose scale p = .ok raws ↔ ∀ axis, encode scale axis (p.get axis) = .ok (raws.get axis) :=
  Axes.ofFnM_eq_ok_iff

@[simp] theorem get_decodePose (scale : Nat) (raws : Axes Int) (axis : Axis) :
    (decodePose scale raws).get axis = decode scale axis (raws.get axis) :=
  Axes.get_ofFn _ _

/-- A decoded pose is stored without loss: what is stored for it decodes to it again. -/
theorem encodePose_decodePose {scale : Nat} {raws : Axes Int} (hpos : 0 < scale) (hs : scale ≤ 127)
    (hr : ∀ axis, Stored (raws.get axis)) :
    ∃ again, encodePose scale (decodePose scale raws) = .ok again ∧
      (∀ axis, Stored (again.get axis)) ∧ decodePose scale again = decodePose scale raws := by
  refine ⟨Axes.ofFn fun axis => canonical axis (raws.get axis), ?_, ?_, ?_⟩
  · rw [encodePose_eq_ok_iff]
    intro axis
    rw [get_decodePose, Axes.get_ofFn]
    exact encode_decode hpos hs (hr axis) axis
  · intro axis
    rw [Axes.get_ofFn]
    exact stored_canonical (hr axis)
  · apply Axes.ext_get
    intro axis
    simp

end DroneShow.Quantum
