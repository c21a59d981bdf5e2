-- The curve that a cut leaves. The record under the cut stores rounded control
-- points of the first part of its curve, so that its new curve stays less than
-- a stored unit away from the one that it had, at all times.
import Mathlib.Data.Real.Basic
import DroneShow.Proofs.Trajectory.Faults

namespace DroneShow

open Binary
open Record (spellAll totalMs)

/-! ## Curves over the reals -/

/-- Control points near those of an exact part give a curve near that part. -/
theorem Bezier.curve_part_near {P Q : List ℚ} {u δ : ℚ} {σ : ℝ} (hδ : 0 ≤ δ)
    (h : List.Forall₂ (fun q e => |q - e| ≤ δ) Q (exactRestrict P u)) (hσ : 0 ≤ σ) (hσ' : σ ≤ 1) :
    |curve (Q.map ((↑) : ℚ → ℝ)) σ - curve (P.map ((↑) : ℚ → ℝ)) (σ * u)| ≤ δ := by
  have hpart : exactRestrict (P.map ((↑) : ℚ → ℝ)) (u : ℝ) =
      (exactRestrict P u).map ((↑) : ℚ → ℝ) := exactRestrict_map (Rat.castHom ℝ) P u
  have hreal : List.Forall₂ (fun q e : ℝ => |q - e| ≤ δ) (Q.map ((↑) : ℚ → ℝ))
      (exactRestrict (P.map ((↑) : ℚ → ℝ)) (u : ℝ)) := by
    rw [hpart, List.forall₂_map_left_iff, List.forall₂_map_right_iff]
    refine h.imp fun q e hqe => ?_
    exact_mod_cast hqe
  rw [← curve_exactRestrict]
  exact curve_near (by exact_mod_cast hδ) hσ hσ' hreal

/-- On an axis the curve of `s'` is, up to the scale at each time, the curve of
`s` for as long as `s'` lasts. -/
def Segment.Follows (scale : Nat) (axis : Axis) (s s' : Segment) : Prop :=
  ∃ P Q : List ℚ, List.Forall₂ Represents (s.points.get axis) P ∧
    List.Forall₂ Represents (s'.points.get axis) Q ∧
    ∀ σ : ℝ, 0 ≤ σ → σ ≤ 1 →
      |Bezier.curve (Q.map ((↑) : ℚ → ℝ)) σ -
        Bezier.curve (P.map ((↑) : ℚ → ℝ)) (σ * s'.durationMs / s.durationMs)| ≤ scale

namespace Trajectory

variable {tr tr' : Trajectory} {t : Single} {r : Record} {rs : List Record}

/-- What is left of a record follows it on all axes of coordinates. -/
theorem Parsed.follows {k : Nat} {raws : Axes (List Int)} {axis : Axis} (hp : tr.Parsed)
    (hrs : ∀ r ∈ rs, r.WellFormed) (hr : r.WellFormed) (hlt : k < r.durationMs)
    (offset startMs : Nat) (haxis : axis ≠ .yaw)
    (h : restrictedRaws tr.scale
      (Segment.ofRecord offset startMs (Record.endPose tr.scale tr.start rs) tr.scale r)
      (Binary.ofNat k / Binary.ofNat r.durationMs) = .ok raws) :
    Segment.Follows tr.scale axis
      (Segment.ofRecord offset startMs (Record.endPose tr.scale tr.start rs) tr.scale r)
      (Segment.ofRecord offset startMs (Record.endPose tr.scale tr.start rs) tr.scale
        ⟨r.formats, k, raws⟩) := by
  have hlimit := hr.duration_lt
  have hr' := wellFormed_of_restricted k (fits_ofRecord hr) (by omega) h
  obtain ⟨hpos, hmax, -⟩ := hp.exists_startRaws
  obtain ⟨first, hfirst, hpose⟩ := hp.exists_endRaws hrs
  have hvalues : ∀ r' : Record, r'.WellFormed → List.Forall₂ Represents
      ((Segment.ofRecord offset startMs (Quantum.decodePose tr.scale first) tr.scale
        r').points.get axis)
      ((first.get axis :: r'.raws.get axis).map fun raw : Int => (raw : ℚ) * tr.scale) := by
    intro r' hr'
    rw [Record.points_ofRecord, Quantum.decode_coordinate haxis]
    exact Quantum.decodeCoordinates_represent hmax (stored_points (hfirst axis) hr').1
  obtain ⟨hpoints, hlen⟩ := stored_points (hfirst axis) hr
  have hstored := Axes.ofFnM_eq_ok_iff.mp h axis
  rw [restricted, hpose, Record.points_ofRecord, Quantum.decode_coordinate haxis,
    Quantum.encode_coordinate haxis] at hstored
  have hnear := Quantum.restrict_coordinates_near hpos hmax hpoints hlen
    (Bezier.part_of_ms hlt hlimit) hstored
  rw [hpose]
  refine ⟨_, _, hvalues r hr, hvalues _ hr', fun σ hσ hσ' => ?_⟩
  have hcurve := Bezier.curve_part_near (by positivity) hnear hσ hσ'
  push_cast at hcurve
  rw [← mul_div_assoc] at hcurve
  exact hcurve

/-- A cut keeps to the curves. It leaves the first of the segments as they are,
and shortens at most one more, which is the last then. That one starts where and
when it did, and on each axis of coordinates its new curve stays within the
scale of the part that it had in the same time. -/
theorem cut_follows_the_curve (hp : tr.Parsed) (h : cutAt t tr = .ok () tr') :
    tr'.course.segments <+: tr.course.segments ∨
      ∃ front s back s', tr.course.segments = front ++ s :: back ∧
        tr'.course.segments = front ++ [s'] ∧
        s' = { s with durationMs := s'.durationMs, finish := s'.finish, points := s'.points } ∧
        0 < s'.durationMs ∧ s'.durationMs < s.durationMs ∧
        ∀ axis, axis ≠ .yaw → s.Follows tr.scale axis s' := by
  obtain ⟨ht, howned⟩ := isOwned_of_cutAt h
  obtain ⟨rs, rest, more, hpassed, hremains, rfl⟩ := cutAt_remains hp howned ht h
  have hsegments : (tr.holding (tr.bytes.toList.take tr.headerLength ++
      spellAll (rs ++ more))).course.segments =
        Segment.ofRecords tr.scale tr.headerLength 0 tr.start (rs ++ more) :=
    congrArg Course.segments (course_of_spells (hremains.kept.spells hpassed hp.headerLength_le)
      (hremains.kept.inTime hpassed.inTime))
  have hprefix := ofRecords_prefix_course hpassed.wellFormed hpassed.inTime hpassed.bytes
  cases hremains with
  | all =>
    left
    rw [hsegments, List.append_nil]
    exact hprefix
  | none hsame =>
    left
    rw [hsegments, List.append_nil]
    exact hprefix
  | @part r rest k raws hr htime hlow hlt hms hraws =>
    right
    have hwith : ∀ r' ∈ rs ++ [r], r'.WellFormed :=
      List.forall_mem_append.mpr ⟨hpassed.wellFormed, by simpa using hr⟩
    have hbytes : tr.bytes.toList.drop tr.headerLength = spellAll (rs ++ [r]) ++ rest := by
      rw [hpassed.bytes]
      simp
    obtain ⟨back, hback⟩ := ofRecords_prefix_course hwith (by simpa using htime) hbytes
    rw [Segment.ofRecords_append _ _ _ _ _ hpassed.wellFormed, Nat.zero_add, List.append_assoc]
      at hback
    rw [Segment.ofRecords_append _ _ _ _ _ hpassed.wellFormed, Nat.zero_add] at hsegments
    exact ⟨_, _, back, _, hback.symm, hsegments, rfl, hlow, hlt, fun axis haxis =>
      hp.follows hpassed.wellFormed hr hlt _ _ haxis hraws⟩

/-- Up along a curve with four control points in a second, cut at three tenths. -/
theorem a_cut_climb_is_followed : ∃ tr tr' s s',
    ofBytes #[1, 0, 0, 0, 0, 0, 0, 0, 0, 0x20, 0xe8, 0x03, 10, 0, 40, 0, 45, 0] = .ok tr ∧
    cutAt (.ofDecimal false 3 (-1)) tr = .ok () tr' ∧
    tr.course.segments = [s] ∧ tr'.course.segments = [s'] ∧
    s.points.get .z = [0, 10, 40, 45] ∧ s'.durationMs < s.durationMs ∧
    ∀ axis, axis ≠ .yaw → s.Follows tr.scale axis s' := by
  obtain ⟨tr, hparse, hruns, hbefore, hleft⟩ : ∃ tr,
      ofBytes #[1, 0, 0, 0, 0, 0, 0, 0, 0, 0x20, 0xe8, 0x03, 10, 0, 40, 0, 45, 0] = .ok tr ∧
      (answer (cutAt (.ofDecimal false 3 (-1)) tr)).isOk = true ∧
      tr.course.segments.map (fun s => (s.durationMs, s.points.get .z)) =
        [(1000, [0, 10, 40, 45])] ∧
      (left (cutAt (.ofDecimal false 3 (-1)) tr)).course.segments.map (·.durationMs) = [300] :=
    ⟨_, rfl, by decide +kernel, by decide +kernel, by decide +kernel⟩
  have hcut := eq_ok_left hruns
  obtain ⟨s, hs, hsegment⟩ := List.map_eq_singleton_iff.mp hbefore
  obtain ⟨s', hs', hms⟩ := List.map_eq_singleton_iff.mp hleft
  obtain ⟨hsms, hpoints⟩ := Prod.mk.inj hsegment
  rcases cut_follows_the_curve (parsed_of_ofBuffer hparse).1 hcut with
    hsame | ⟨front, s₁, back, s₁', hs₁, hs₁', -, -, hlt, hfollows⟩
  · rw [hs, hs'] at hsame
    obtain rfl : s' = s := by simpa using hsame
    omega
  · have hlen := congrArg List.length (hs.symm.trans hs₁)
    simp only [List.length_cons, List.length_nil, List.length_append] at hlen
    obtain rfl : front = [] := List.length_eq_zero_iff.mp (by omega)
    obtain rfl : back = [] := List.length_eq_zero_iff.mp (by omega)
    obtain rfl : s = s₁ := by simpa using hs.symm.trans hs₁
    obtain rfl : s' = s₁' := by simpa using hs'.symm.trans hs₁'
    exact ⟨tr, _, s, s', hparse, hcut, hs, hs', hpoints, hlt, hfollows⟩

end Trajectory

end DroneShow
