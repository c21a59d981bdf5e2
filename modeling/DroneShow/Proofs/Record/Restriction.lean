-- Parts of stored curves. Their control points are rounded many times before
-- they are stored again, but stay so near to the hull of the stored ones that
-- all of them can be stored.
import DroneShow.Proofs.Curve.Hull
import DroneShow.Proofs.Outcome
import DroneShow.Proofs.Record.Encoding

namespace DroneShow.Quantum

open Binary
open Bezier (Near Part Within exactRestrict exactRestrict_cons exactRestrict_mem grain rounds_near)

variable {scale : Nat} {t v : Single} {q u : ℚ} {axis : Axis}

/-! ## Coordinates among the axes -/

theorem decode_coordinate (h : axis ≠ .yaw) : decode scale axis = decodeCoordinate scale := by
  cases axis with
  | yaw => exact absurd rfl h
  | _ => rfl

theorem encode_coordinate (h : axis ≠ .yaw) : encode scale axis = encodeCoordinate scale := by
  cases axis with
  | yaw => exact absurd rfl h
  | _ => rfl

/-! ## Points near stored ones -/

/-- Coordinates a quarter of a unit beyond the stored ones can be stored. -/
theorem exists_encodeCoordinate (hpos : 0 < scale) (hs : scale ≤ 127) (hv : v.Represents q)
    (hlow : (least - 1 / 4 : ℚ) * scale ≤ q) (hhigh : q ≤ (greatest + 1 / 4 : ℚ) * scale) :
    ∃ k, encodeCoordinate scale v = .ok k := by
  have hscale : (0 : ℚ) < scale := by exact_mod_cast hpos
  rw [← le_div_iff₀ hscale] at hlow
  rw [← div_le_iff₀ hscale] at hhigh
  norm_num [least, greatest] at hlow hhigh
  obtain ⟨w, hw, herr⟩ := rounds_near (m := 16)
    (div_rounds hv (scale_represents hs) hscale.ne') (covers_single (by decide) (by decide)) (by
      rw [abs_lt]
      norm_num
      constructor <;> linarith)
  rw [show grain 16 = 1 / 512 by norm_num [grain], abs_le] at herr
  obtain ⟨hdown, hup⟩ := nearestInt_bounds w
  have hle : (nearestInt w : ℚ) < ((32768 : Int) : ℚ) := by
    push_cast
    linarith
  have hge : ((-32769 : Int) : ℚ) < nearestInt w := by
    push_cast
    linarith
  have hle' : nearestInt w < 32768 := by exact_mod_cast hle
  have hge' : -32769 < nearestInt w := by exact_mod_cast hge
  have hstored : Stored (nearestInt w) := by
    rw [stored_iff]
    omega
  exact ⟨_, (encodeCoordinate_eq_ok_iff hpos hs hv).mpr ⟨w, hw, rfl, hstored⟩⟩

theorem decodeCoordinates_represent {raws : List Int} (hs : scale ≤ 127)
    (h : ∀ raw ∈ raws, Stored raw) :
    List.Forall₂ Represents (raws.map (decodeCoordinate scale))
      (raws.map fun k : Int => (k : ℚ) * scale) := by
  refine List.forall₂_map_left_iff.mpr (List.forall₂_map_right_iff.mpr ?_)
  rw [List.forall₂_same]
  intro raw hraw
  exact decodeCoordinate_represents hs (h raw hraw)

theorem within_decodeCoordinate {raws : List Int} (hs : scale ≤ 127)
    (h : ∀ raw ∈ raws, Stored raw) :
    Within (least * scale) (greatest * scale) (raws.map (decodeCoordinate scale)) := by
  intro x hx
  obtain ⟨raw, hraw, rfl⟩ := List.mem_map.mp hx
  obtain ⟨hlow, hhigh⟩ := h raw hraw
  refine ⟨_, decodeCoordinate_represents hs (h raw hraw), ?_, ?_⟩
  · exact mul_le_mul_of_nonneg_right (by exact_mod_cast hlow) (by positivity)
  · exact mul_le_mul_of_nonneg_right (by exact_mod_cast hhigh) (by positivity)

theorem within_decodeYaw (raws : List Int) : Within 0 360 (raws.map decodeYaw) := by
  intro x hx
  obtain ⟨raw, -, rfl⟩ := List.mem_map.mp hx
  obtain ⟨q, hq, hlow, hhigh⟩ := decodeYaw_represents raw
  exact ⟨q, hq, hlow, hhigh.le⟩

/-- A size that bounds all decoded coordinates, and whose grains are small
against the scale. -/
theorem exists_size (hpos : 0 < scale) (hs : scale ≤ 127) :
    ∃ m, binary32.Covers m ∧ 32768 * (scale : ℚ) ≤ 2 ^ m / 2 ∧ 48 * grain m ≤ 3 / 16 * scale := by
  have hscale : (0 : ℚ) < scale := by exact_mod_cast hpos
  have hlow := two_pow_log2_le hpos.ne'
  have hhigh := lt_two_pow_log2 scale
  have hlog : scale.log2 < 7 := by
    rw [Nat.log2_lt hpos.ne']
    omega
  generalize hm : (scale.log2 : Int) = e at hlow hhigh
  have hpow : (2 : ℚ) ^ (e + 17) = 2 ^ e * 131072 := by
    rw [zpow_add₀ two_ne_zero]
    norm_num
  rw [zpow_add_one₀ two_ne_zero] at hhigh
  refine ⟨e + 17, covers_single (by omega) (by omega), ?_, ?_⟩
  · rw [hpow]
    linarith
  · unfold grain
    rw [hpow]
    linarith

/-- A part of a curve through stored coordinates has points that can be
stored: the errors of all roundings are less than a quarter of a unit. -/
theorem restrict_coordinates {raws : List Int} (hpos : 0 < scale) (hs : scale ≤ 127)
    (hraws : ∀ raw ∈ raws, Stored raw) (hlen : raws.length ≤ 8) (ht : t.Represents u) (hu : 0 ≤ u)
    (hu' : u ≤ 1) : ∀ x ∈ Bezier.restrict (raws.map (decodeCoordinate scale)) t,
      ∃ k, encodeCoordinate scale x = .ok k := by
  have hscale : (0 : ℚ) < scale := by exact_mod_cast hpos
  obtain ⟨m, hm, hsize, hgrain⟩ := exists_size hpos hs
  have hparts := (within_decodeCoordinate hs hraws).restrict ht hu hu' hm (by simpa using hlen)
    (by norm_num [least]; linarith) (by norm_num [greatest]; linarith)
  intro x hx
  obtain ⟨q, hq, hq₁, hq₂⟩ := hparts x hx
  exact exists_encodeCoordinate hpos hs hq (by linarith) (by linarith)

/-- A part of a curve through stored values has points that can be stored, on
every axis. -/
theorem restrict_encodes {raws : List Int} (hpos : 0 < scale) (hs : scale ≤ 127)
    (hraws : ∀ raw ∈ raws, Stored raw) (hlen : raws.length ≤ 8) (ht : t.Represents u) (hu : 0 ≤ u)
    (hu' : u ≤ 1) (axis : Axis) : ∀ x ∈ Bezier.restrict (raws.map (decode scale axis)) t,
      ∃ k, encode scale axis x = .ok k := by
  by_cases haxis : axis = .yaw
  · subst haxis
    intro x hx
    have hcovers : binary32.Covers 10 := covers_single (by decide) (by decide)
    obtain ⟨q, hq, -⟩ := (within_decodeYaw raws).restrict ht hu hu' hcovers (by simpa using hlen)
      (by norm_num) (by norm_num) x hx
    exact exists_encodeYaw hq.isFinite
  · rw [decode_coordinate haxis, encode_coordinate haxis]
    exact restrict_coordinates hpos hs hraws hlen ht hu hu'

/-! ## Points stored again -/

/-- Storing a coordinate moves it by little more than half a unit. -/
theorem encodeCoordinate_near {k : Int} (hpos : 0 < scale) (hs : scale ≤ 127) (hv : v.Represents q)
    (hq : |q| < 65536 * scale) (h : encodeCoordinate scale v = .ok k) :
    |(k : ℚ) * scale - q| ≤ 257 / 512 * scale := by
  have hscale : (0 : ℚ) < scale := by exact_mod_cast hpos
  obtain ⟨w, hw, rfl, -⟩ := (encodeCoordinate_eq_ok_iff hpos hs hv).mp h
  have hquot : |q / scale| < 2 ^ (16 : Int) := by
    rw [abs_div, abs_of_pos hscale, div_lt_iff₀ hscale]
    norm_num
    exact hq
  obtain ⟨w', hw', herr⟩ := rounds_near (div_rounds hv (scale_represents hs) hscale.ne')
    (covers_single (by decide) (by decide)) hquot
  rw [Represents.unique hw' hw, show grain 16 = 1 / 512 by norm_num [grain], abs_le] at herr
  obtain ⟨hdown, hup⟩ := nearestInt_bounds w
  have hunit : |(nearestInt w : ℚ) - q / scale| ≤ 257 / 512 := by
    rw [abs_le]
    constructor <;> linarith
  have hmul := mul_le_mul_of_nonneg_right hunit hscale.le
  rw [← abs_of_pos hscale, ← abs_mul, sub_mul, abs_of_pos hscale,
    div_mul_cancel₀ _ hscale.ne'] at hmul
  exact hmul

/-- Coordinates near exact ones are stored less than a unit away from these. -/
theorem encodeCoordinates_near {points : List Single} {exacts : List ℚ} {raws : List Int}
    (hpos : 0 < scale) (hs : scale ≤ 127) (hnear : Near (3 / 16 * scale) points exacts)
    (hexact : ∀ e ∈ exacts, |e| ≤ 32768 * scale)
    (h : points.mapM (encodeCoordinate scale) = .ok raws) :
    List.Forall₂ (fun p e : ℚ => |p - e| ≤ scale) (raws.map fun k : Int => (k : ℚ) * scale)
      exacts := by
  have hscale : (0 : ℚ) < scale := by exact_mod_cast hpos
  rw [mapM_eq_ok_iff] at h
  induction h generalizing exacts with
  | nil =>
    cases hnear
    exact .nil
  | cons hraw _ ih =>
    cases hnear with
    | cons hhead hrest =>
      obtain ⟨q, hq, herr⟩ := hhead
      have he := hexact _ List.mem_cons_self
      rw [abs_le] at herr he
      have hstored := encodeCoordinate_near hpos hs hq (abs_lt.mpr ⟨by linarith, by linarith⟩) hraw
      rw [abs_le] at hstored
      refine .cons (abs_le.mpr ⟨by linarith, by linarith⟩) ?_
      exact ih hrest fun e he => hexact e (List.mem_cons_of_mem _ he)

/-- A part of a curve through stored coordinates is stored with points less than
a unit away from the exact ones. -/
theorem restrict_coordinates_near {raw : Int} {raws raws' : List Int} (hpos : 0 < scale)
    (hs : scale ≤ 127) (hraws : ∀ k ∈ raw :: raws, Stored k) (hlen : (raw :: raws).length ≤ 8)
    (hpart : Part t u)
    (h : (Bezier.restrict ((raw :: raws).map (decodeCoordinate scale)) t).tail.mapM
      (encodeCoordinate scale) = .ok raws') :
    List.Forall₂ (fun p e : ℚ => |p - e| ≤ scale)
      ((raw :: raws').map fun k : Int => (k : ℚ) * scale)
      (exactRestrict ((raw :: raws).map fun k : Int => (k : ℚ) * scale) u) := by
  have hscale : (0 : ℚ) < scale := by exact_mod_cast hpos
  obtain ⟨m, hm, hsize, hgrain⟩ := exists_size hpos hs
  have hnear : Near 0 ((raw :: raws).map (decodeCoordinate scale))
      ((raw :: raws).map fun k : Int => (k : ℚ) * scale) :=
    (decodeCoordinates_represent hs hraws).imp fun _ e hx => ⟨e, hx, by simp⟩
  have hexact : ∀ e ∈ (raw :: raws).map fun k : Int => (k : ℚ) * scale,
      -(32768 * (scale : ℚ)) ≤ e ∧ e ≤ 32768 * scale := by
    intro e he
    obtain ⟨k, hk, rfl⟩ := List.mem_map.mp he
    have habs := (hraws k hk).natAbs_le
    have hlow : (-32768 : ℚ) ≤ k := by exact_mod_cast show (-32768 : Int) ≤ k by omega
    have hhigh : (k : ℚ) ≤ 32768 := by exact_mod_cast show k ≤ (32768 : Int) by omega
    constructor
    · nlinarith
    · nlinarith
  have hparts := (hnear.restrict hpart hm (by simpa using hlen) fun e he =>
    ⟨by linarith [(hexact e he).1], (hexact e he).2.trans hsize⟩).mono hgrain
  have hhull := exactRestrict_mem hpart.nonneg hpart.le_one hexact
  rw [List.map_cons, Bezier.restrict_cons, List.tail_cons] at h
  rw [List.map_cons, List.map_cons, Bezier.restrict_cons, exactRestrict_cons] at hparts
  rw [List.map_cons, exactRestrict_cons] at hhull
  rw [List.map_cons, List.map_cons, exactRestrict_cons]
  refine .cons (by simp) ?_
  cases hparts with
  | cons _ hparts =>
    exact encodeCoordinates_near hpos hs hparts
      (fun e he => abs_le.mpr (hhull e (List.mem_cons_of_mem _ he))) h

end DroneShow.Quantum
