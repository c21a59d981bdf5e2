-- Where operations that change a trajectory can fail. A cut fails before it
-- writes, as all points of the curve that remains can be stored. A landing
-- fails before its cut, or behind it when the descent takes too long; only
-- then the trajectory is left without the end that it had.
import DroneShow.Proofs.Record.Restriction
import DroneShow.Proofs.Trajectory.Touchdown

namespace DroneShow.Trajectory

open Binary
open Quantum (Stored)
open Record (spellAll totalMs)

variable {tr tr' : Trajectory} {t : Single} {e : Fault} {r : Record} {rs : List Record}
  {rest : List UInt8}

/-! ## Cuts -/

theorem storedPoints_le (format : AxisFormat) : format.storedPoints ≤ 7 := by
  cases format <;> decide

theorem stored_points {raw : Int} {axis : Axis} (hraw : Stored raw) (hr : r.WellFormed) :
    (∀ k ∈ raw :: r.raws.get axis, Stored k) ∧ (raw :: r.raws.get axis).length ≤ 8 := by
  have hcount := hr.count axis
  have hmost := storedPoints_le (r.formats.get axis)
  rw [List.length_cons]
  exact ⟨List.forall_mem_cons.mpr ⟨hraw, hr.stored axis⟩, by omega⟩

/-- All control points of a part of a record's curve can be stored, if the record
begins at a pose that records behind the header lead to. -/
theorem Parsed.restrict_encodes {u : Single} {q : ℚ} (hp : tr.Parsed)
    (hrs : ∀ r ∈ rs, r.WellFormed) (hr : r.WellFormed) (offset startMs : Nat)
    (hu : u.Represents q) (hlow : 0 ≤ q) (hhigh : q ≤ 1) (axis : Axis) :
    ∀ x ∈ Bezier.restrict ((Segment.ofRecord offset startMs
        (Record.endPose tr.scale tr.start rs) tr.scale r).points.get axis) u,
      ∃ raw, Quantum.encode tr.scale axis x = .ok raw := by
  obtain ⟨hpos, hmax, -⟩ := hp.exists_startRaws
  obtain ⟨raws, hstored, hpose⟩ := hp.exists_endRaws hrs
  obtain ⟨hpoints, hlen⟩ := stored_points (hstored axis) hr
  rw [hpose, Record.points_ofRecord]
  exact Quantum.restrict_encodes hpos hmax hpoints hlen hu hlow hhigh axis

/-- So a record can be shortened to any part of its duration. -/
theorem Parsed.exists_restrictedRaws {ms : Nat} (hp : tr.Parsed)
    (hrs : ∀ r ∈ rs, r.WellFormed) (hr : r.WellFormed) (hms : ms < r.durationMs)
    (offset startMs : Nat) :
    ∃ parts, restrictedRaws tr.scale
      (Segment.ofRecord offset startMs (Record.endPose tr.scale tr.start rs) tr.scale r)
      (Binary.ofNat ms / Binary.ofNat r.durationMs) = .ok parts := by
  obtain ⟨q, hq, hlow, hhigh, -⟩ := (Bezier.part_of_ms hms hr.duration_lt).rounded
  refine Axes.exists_ofFnM fun axis => exists_mapM fun x hx => ?_
  exact hp.restrict_encodes hrs hr offset startMs hq hlow hhigh axis x (List.mem_of_mem_tail hx)

/-- The segment under a cut is shortened without a fault, and not only to the
part that the cut asks for: all points of any part can be stored. -/
theorem Parsed.inside_encodes {s : Segment} (hp : tr.Parsed) (howned : tr.isOwned = true)
    (ht : t.isNaN = false) (hplace : tr.cutPlace (cutMs t) = .ok (.inside s)) :
    (∃ tr', shorten s (cutMs t) tr = .ok () tr') ∧
    ∀ (u : Single) (q : ℚ), u.Represents q → 0 ≤ q → q ≤ 1 → ∀ axis,
      ∀ x ∈ Bezier.restrict (s.points.get axis) u,
        ∃ raw, Quantum.encode tr.scale axis x = .ok raw := by
  obtain ⟨rs, rest, hpassed, hbehind⟩ := cutPlace_behind (cutMs_nonneg ht) hplace
  cases hbehind with
  | @inside r rest hr htime hstart hend =>
    obtain ⟨k, hlow, hhigh, -, hshorten⟩ :=
      shorten_inside hp.headerLength_le howned ht hpassed hr htime hstart hend
    obtain ⟨parts, hparts⟩ := hp.exists_restrictedRaws hpassed.wellFormed hr
      (show k - totalMs rs < r.durationMs by omega) (tr.headerLength + (spellAll rs).length)
      (totalMs rs)
    exact ⟨⟨_, (hshorten _).mpr ⟨parts, hparts, rfl⟩⟩, fun u q hu hlow hhigh axis =>
      hp.restrict_encodes hpassed.wellFormed hr _ _ hu hlow hhigh axis⟩

/-- A cut that fails has written nothing. It fails for a time that is no number,
and where the search for its place meets a record that cannot be decoded. -/
theorem cutAt_eq_error_iff (hp : tr.Parsed) (howned : tr.isOwned = true) :
    cutAt t tr = .error e tr' ↔
      tr' = tr ∧ if t.isNaN then e = .nanCutTime else tr.cutPlace (cutMs t) = .error e := by
  unfold cutAt
  cases ht : t.isNaN with
  | true =>
    simp only [if_true, EStateM.Result.error.injEq]
    constructor
    · rintro ⟨rfl, rfl⟩
      exact ⟨rfl, rfl⟩
    · rintro ⟨rfl, rfl⟩
      exact ⟨rfl, rfl⟩
  | false =>
    rw [howned]
    simp only [Bool.not_true, Bool.false_eq_true, if_false]
    cases hplace : tr.cutPlace (cutMs t) with
    | error e' =>
      simp only [EStateM.Result.error.injEq, Except.error.injEq]
      constructor
      · rintro ⟨rfl, rfl⟩
        exact ⟨rfl, rfl⟩
      · rintro ⟨rfl, rfl⟩
        exact ⟨rfl, rfl⟩
    | ok place =>
      cases place with
      | past => simp
      | boundary offset => simp
      | inside s =>
        obtain ⟨⟨tr'', hshorten⟩, -⟩ := hp.inside_encodes howned ht hplace
        simp [hshorten]

theorem eq_of_cutAt_error (hp : tr.Parsed) (h : cutAt t tr = .error e tr') : tr' = tr := by
  cases howned : tr.isOwned with
  | true => exact ((cutAt_eq_error_iff hp howned).mp h).1
  | false =>
    unfold cutAt at h
    rw [howned] at h
    split at h
    · cases h
      rfl
    · cases h
      rfl

/-- A cut that fails leaves the trajectory as it was, whatever bytes follow the
header: it fails before it writes. Once the segment under the cut is found, all
points of any part of its curve can be stored, and it is shortened. -/
theorem failed_cut_changes_nothing {bytes : Bytes} (hp : ofBytes bytes = .ok tr) (t : Single) :
    (∀ e tr', cutAt t tr = .error e tr' ↔
      tr' = tr ∧ if t.isNaN then e = .nanCutTime else tr.cutPlace (cutMs t) = .error e) ∧
    ∀ s, t.isNaN = false → tr.cutPlace (cutMs t) = .ok (.inside s) →
      (∃ tr', shorten s (cutMs t) tr = .ok () tr') ∧
      ∀ (u : Single) (q : ℚ), u.Represents q → 0 ≤ q → q ≤ 1 → ∀ axis,
        ∀ x ∈ Bezier.restrict (s.points.get axis) u,
          ∃ raw, Quantum.encode tr.scale axis x = .ok raw := by
  obtain ⟨hparsed, -⟩ := parsed_of_ofBuffer hp
  have howned := isOwned_of_ofBytes hp
  exact ⟨fun e tr' => cutAt_eq_error_iff hparsed howned,
    fun s ht hplace => hparsed.inside_encodes howned ht hplace⟩

/-- Behind a climb of one second stands a record that is cut off. A cut behind
the climb fails, and one inside it does not. -/
theorem a_torn_record_is_not_cut : ∃ tr,
    ofBytes #[1, 0, 0, 0, 0, 0, 0, 0, 0, 0x10, 0xe8, 0x03, 10, 0, 0x10, 0xe8] = .ok tr ∧
    cutAt 2 tr = .error .truncatedData tr ∧
    ∃ s tr', tr.cutPlace (cutMs (.ofDecimal false 5 (-1))) = .ok (.inside s) ∧
      s.points.get .z = [0, 10] ∧ shorten s (cutMs (.ofDecimal false 5 (-1))) tr = .ok () tr' := by
  obtain ⟨tr, hparse, hfails, hfound⟩ : ∃ tr,
      ofBytes #[1, 0, 0, 0, 0, 0, 0, 0, 0, 0x10, 0xe8, 0x03, 10, 0, 0x10, 0xe8] = .ok tr ∧
      answer (cutAt 2 tr) = .error .truncatedData ∧
      (match tr.cutPlace (cutMs (.ofDecimal false 5 (-1))) with
        | .ok (.inside s) => s.points.get .z == [0, 10]
        | _ => false) = true := ⟨_, rfl, by decide +kernel, by decide +kernel⟩
  split at hfound
  · rename_i s hplace
    obtain ⟨hfault, -⟩ := failed_cut_changes_nothing hparse 2
    obtain ⟨-, hinside⟩ := failed_cut_changes_nothing hparse (.ofDecimal false 5 (-1))
    obtain ⟨⟨tr', hshorten⟩, -⟩ := hinside s (by decide) hplace
    have hcut := eq_error_left hfails
    obtain ⟨hsame, -⟩ := (hfault _ _).mp hcut
    rw [hsame] at hcut
    exact ⟨tr, hparse, hcut, s, tr', hplace, eq_of_beq hfound, hshorten⟩
  · cases hfound

/-! ## Landings -/

/-- A landing from an end of the cut that takes too long to descend from. -/
structure LandsTooLate (tr : Trajectory) (summary : Summary) (velocity : Single)
    (cut : Trajectory) : Prop where
  accepts : Accepts tr summary velocity
  cuts : cutAt summary.landingSec tr = .ok () cut
  tooLong : ∃ p, cut.endPose = .ok p ∧ TooLong p.z tr.start.z velocity

/-- A landing that fails leaves the trajectory as it was, or has cut it: then
the descent from the end of the cut takes too long. Whenever it does, the
landing fails with just that and leaves the cut. -/
theorem failed_landing_leaves_the_cut {bytes : Bytes} (hp : ofBytes bytes = .ok tr)
    (summary : Summary) (velocity : Single) :
    (∀ e tr', replaceEndByLanding summary velocity tr = .error e tr' →
      tr' = tr ∨ e = .longLanding ∧ LandsTooLate tr summary velocity tr') ∧
    ∀ cut, LandsTooLate tr summary velocity cut →
      replaceEndByLanding summary velocity tr = .error .longLanding cut := by
  obtain ⟨hparsed, -⟩ := parsed_of_ofBuffer hp
  rcases replaceEndByLanding_cases summary velocity tr with ⟨hnot, e', he'⟩ | ⟨haccepts, hrun⟩
  · constructor
    · intro e tr' h
      rw [he'] at h
      cases h
      exact .inl rfl
    · intro cut h
      exact absurd h.accepts hnot
  cases hcut : cutAt summary.landingSec tr with
  | error e' cut' =>
    rw [hcut] at hrun
    constructor
    · intro e tr' h
      rw [hrun] at h
      cases h
      exact .inl (eq_of_cutAt_error hparsed hcut)
    · intro cut h
      rw [h.cuts] at hcut
      cases hcut
  | ok _ cut' =>
    obtain ⟨flown, p, -, hend, ⟨hlong, hfails⟩ | ⟨hshort, _, _, _, built, hlands, -⟩⟩ :=
      replaceEndByLanding_of_cut hparsed haccepts hcut
    · constructor
      · intro e tr' h
        rw [hfails] at h
        cases h
        exact .inr ⟨rfl, haccepts, hcut, p, hend, hlong⟩
      · intro cut h
        have hsame := hcut.symm.trans h.cuts
        cases hsame
        exact hfails
    · constructor
      · intro e tr' h
        rw [hlands] at h
        cases h
      · intro cut h
        have hsame := hcut.symm.trans h.cuts
        cases hsame
        obtain ⟨p', hend', hlong⟩ := h.tooLong
        rw [hend] at hend'
        cases hend'
        exact absurd hlong hshort

/-- Up ten thousand units and down again. From the end of the cut, a tenth of a
thousandth of a unit per second is too slow for the clock. -/
theorem a_slow_landing_lands_too_late : ∃ tr cut,
    ofBytes #[1, 0, 0, 0, 0, 0, 0, 0, 0, 0x10, 0x10, 0x27, 0x10, 0x27, 0x10, 0x10, 0x27, 0, 0] =
      .ok tr ∧
    LandsTooLate tr (landingAt (.ofDecimal false 175 (-1))) (.ofDecimal false 1 (-4)) cut ∧
    cut ≠ tr := by
  obtain ⟨tr, hparse, hfails, hcut⟩ : ∃ tr,
      ofBytes #[1, 0, 0, 0, 0, 0, 0, 0, 0, 0x10, 0x10, 0x27, 0x10, 0x27, 0x10, 0x10, 0x27, 0, 0] =
        .ok tr ∧
      answer (replaceEndByLanding (landingAt (.ofDecimal false 175 (-1)))
        (.ofDecimal false 1 (-4)) tr) = .error .longLanding ∧
      left (replaceEndByLanding (landingAt (.ofDecimal false 175 (-1)))
        (.ofDecimal false 1 (-4)) tr) ≠ tr :=
    ⟨_, rfl, by decide +kernel, by decide +kernel⟩
  obtain ⟨hleaves, -⟩ := failed_landing_leaves_the_cut hparse
    (landingAt (.ofDecimal false 175 (-1))) (.ofDecimal false 1 (-4))
  rcases hleaves _ _ (eq_error_left hfails) with hsame | ⟨-, hlate⟩
  · exact absurd hsame hcut
  · exact ⟨tr, _, hparse, hlate, hcut⟩

/-- That landing fails, and has thrown the end of the flight away. -/
theorem a_failed_landing_loses_the_end : ∃ tr tr',
    ofBytes #[1, 0, 0, 0, 0, 0, 0, 0, 0, 0x10, 0x10, 0x27, 0x10, 0x27, 0x10, 0x10, 0x27, 0, 0] =
      .ok tr ∧
    replaceEndByLanding (landingAt (.ofDecimal false 175 (-1))) (.ofDecimal false 1 (-4)) tr =
      .error .longLanding tr' ∧
    tr'.bytes ≠ tr.bytes ∧ tr.durationMs = .ok 20000 ∧ tr'.durationMs = .ok 17500 := by
  refine ⟨_, _, rfl, eq_error_left ?_, ?_, ?_, ?_⟩ <;> decide +kernel

end DroneShow.Trajectory
