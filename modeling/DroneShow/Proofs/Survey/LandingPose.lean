-- Where the landing takes over. A survey seeks its landing from the final hold,
-- a fresh playback from the first segment. They find the same pose, unless the
-- landing takes over just at the end of the flight: there the survey rests on
-- the final hold, and the playback on the first segment that does not end earlier.
import DroneShow.Proofs.Playback.Curves
import DroneShow.Proofs.Survey.Parts
import DroneShow.Proofs.Record.Encoding
import DroneShow.Proofs.Trajectory.Grammar

namespace DroneShow

variable {tr : Trajectory} {s : Segment} {t : Single}

/-! ## Curves of the walk -/

theorem Path.exists_axisCurve {α β : Type} [Scalar α] [Scalar β] [Widening α β] {points : List α}
    (hpos : points ≠ []) (hlen : points.length ≤ polySlots) : ∃ p, axisCurve points = .ok p := by
  match points with
  | [p] => exact ⟨_, rfl⟩
  | [p, q] => exact ⟨_, rfl⟩
  | p :: q :: r :: rest =>
    show ∃ c, Poly.bezier 1 (p :: q :: r :: rest) = .ok c
    unfold Poly.bezier
    rw [if_neg (by rw [List.length_cons] at *; omega)]
    split
    · exact ⟨_, rfl⟩
    · simp only
      split <;> exact ⟨_, rfl⟩

theorem Segment.exists_position {bytes : Bytes} {offset startMs scale : Nat} {start : Pose}
    (h : Segment.decode bytes offset startMs start scale = .ok s) :
    ∃ path, s.position = .ok path := by
  unfold position Path.ofPoints
  refine Axes.exists_ofFnM fun axis => ?_
  rcases Segment.decode_eq_ok h with ⟨-, rfl⟩ | ⟨r, -, hr, -, -, rfl⟩
  · have hpoints : (hold offset startMs start).points.get axis = [start.get axis] := by
      cases axis <;> rfl
    rw [hpoints]
    exact ⟨_, rfl⟩
  · have hcount := hr.count axis
    have hpoints : ((ofRecord offset startMs start scale r).points.get axis).length =
        (r.raws.get axis).length + 1 := by
      simp [ofRecord]
    refine Path.exists_axisCurve ?_ ?_
    · simp [ofRecord]
    · rw [hpoints, hcount]
      cases r.formats.get axis <;> decide

theorem Trajectory.Visits.exists_position (h : tr.Visits s) : ∃ path, s.position = .ok path := by
  induction h with
  | first h => exact Segment.exists_position h
  | @after s s' _ hafter ih =>
    unfold Trajectory.segmentAfter at hafter
    split at hafter
    · cases hafter
      exact ih
    · exact Segment.exists_position hafter

namespace Survey

/-! ## The pose at the landing -/

/-- The survey asks what a playback on the final hold would answer. -/
theorem poseFrom_eq (tr : Trajectory) (last : Segment) (t : Single) : poseFrom tr last t =
    Playback.recomputed Segment.position t ⟨tr, Cursor.on last⟩ := by
  have hanswer : answer (Playback.seek t ⟨tr, Cursor.on last⟩) =
      answer (Cursor.seek tr t (Cursor.on last)) := Playback.answer_withCursor _ _
  have hleft : left (Playback.seek t ⟨tr, Cursor.on last⟩) =
      ⟨tr, left (Cursor.seek tr t (Cursor.on last))⟩ := Playback.left_withCursor _ _
  unfold poseFrom Playback.recomputed
  rw [hanswer, hleft]
  cases Cursor.seek tr t (Cursor.on last) <;> rfl

theorem landing_eq_ok {v : Survey} {s : Summary} (hwanted : v.components.landing = true)
    (h : v.run tr = .ok s) : ∃ last, tr.finalHold = .ok last ∧ s.durationSec = last.startSec ∧
      poseFrom tr last s.landingSec = .ok s.landingPose := by
  obtain ⟨-, last, hlast, htells⟩ := run_eq_ok_iff.mp h
  have hpart := htells.landing
  unfold landingPart landing at hpart
  rw [if_pos hwanted] at hpart
  obtain ⟨t, -, hpart⟩ := bind_eq_ok_iff.mp hpart
  obtain ⟨p, hpose, hpart⟩ := bind_eq_ok_iff.mp hpart
  cases hpart
  exact ⟨last, hlast, htells.durationSec, hpose⟩

theorem isNaN_of_poseFrom {last : Segment} {p : Pose} (h : poseFrom tr last t = .ok p) :
    t.isNaN = false := by
  by_contra hnan
  rw [Bool.not_eq_false] at hnan
  unfold poseFrom Cursor.seek at h
  rw [if_pos hnan] at h
  cases h

/-- Away from the end of the flight, a fresh playback finds the same. -/
theorem recomputed_fresh {value : Segment → Except Fault (Path Single)} {fresh : Playback}
    (hv : tr.Visits s) (hfresh : Playback.ofTrajectory tr = .ok fresh) (ht : t.isNaN = false)
    (hne : s.startSec.same t = false) :
    Playback.recomputed value t fresh = Playback.recomputed value t ⟨tr, Cursor.on s⟩ := by
  have hshows : (⟨tr, Cursor.on s⟩ : Playback).Shows tr := ⟨rfl, hv⟩
  obtain ⟨hanswer, hsegment⟩ := hshows.seek_eq_fresh hfresh ht hne
  unfold Playback.recomputed
  rw [hanswer, hsegment]

theorem exists_find {last : Segment} (h : tr.finalHold = .ok last) (t : Single) :
    ∃ seg, tr.course.find t = .ok seg := by
  unfold Course.find
  split
  · exact ⟨_, rfl⟩
  · exact ⟨last, Trajectory.finalHold_eq_outcome ▸ h⟩

/-- A fresh playback answers with the curve of the segment that a scan finds. -/
theorem positionAt_fresh {fresh : Playback} {seg : Segment} {path : Path Single}
    (hfresh : Playback.ofTrajectory tr = .ok fresh) (ht : t.isNaN = false)
    (hfind : tr.course.find t = .ok seg) (hpath : seg.position = .ok path) :
    Playback.recomputed Segment.position t fresh = .ok (path.eval (Cursor.relativeTime seg t)) := by
  obtain ⟨hanswer, hfound⟩ := Playback.seek_fresh hfresh ht
  unfold Playback.recomputed
  cases hseek : Playback.seek t fresh with
  | error e p =>
    rw [hseek, hfind] at hanswer
    cases hanswer
  | ok u p =>
    have hsegment := (hfound u p hseek).symm.trans hfind
    rw [hseek, hfind] at hanswer
    cases hanswer
    rw [left_ok, Except.ok.inj hsegment, hpath]
    rfl

theorem visits_of_find {fresh : Playback} {seg : Segment}
    (hfresh : Playback.ofTrajectory tr = .ok fresh) (ht : t.isNaN = false)
    (hfind : tr.course.find t = .ok seg) : tr.Visits seg := by
  obtain ⟨first, hfirst, rfl⟩ := Playback.ofTrajectory_eq_ok hfresh
  obtain ⟨hanswer, hfound⟩ := Playback.seek_fresh hfresh ht
  have hkept := Playback.keeps_seek (Cursor.onWalk_lasting tr) t ⟨tr, Cursor.on first⟩
    ⟨rfl, .first hfirst⟩
  cases hseek : Playback.seek t ⟨tr, Cursor.on first⟩ with
  | error e p =>
    rw [hseek, hfind] at hanswer
    cases hanswer
  | ok u p =>
    rw [hseek] at hkept
    have hsegment := (hfound u p hseek).symm.trans hfind
    rw [← Except.ok.inj hsegment]
    exact hkept.cursor

/-! ## At the end of the flight -/

theorem finalHold_eq_hold {last : Segment} (h : tr.finalHold = .ok last) :
    ∃ offset startMs rs, (∀ r ∈ rs, r.WellFormed) ∧
      last = Segment.hold offset startMs (Record.endPose tr.scale tr.start rs) := by
  obtain ⟨rs, hspells, hms⟩ := Trajectory.spells_of_finalHold h
  rw [Trajectory.finalHold_eq_outcome, Trajectory.course_of_spells hspells hms] at h
  cases h
  exact ⟨_, _, rs, hspells.wellFormed, rfl⟩

theorem position_hold (offset startMs : Nat) (p : Pose) :
    (Segment.hold offset startMs p).position = .ok (Path.constant p) := by
  unfold Segment.position Path.ofPoints
  refine Axes.ofFnM_eq_ok_iff.mpr fun axis => ?_
  cases axis <;> rfl

/-- A constant curve keeps the value of a finite point. -/
theorem same_eval_constant {c u : Single} {q r : ℚ} (hc : c.Represents q) (hu : u.Represents r) :
    ((Poly.constant c).eval u).same c = true := by
  have hzero : ((0 : Single) * u).Represents 0 := by
    have hprod := Binary.mul_rounds Quantum.zero_represents hu
    rw [zero_mul] at hprod
    exact hprod.exact binary32.exact_zero
  have hsum := Binary.add_rounds hzero hc
  rw [zero_add] at hsum
  exact Binary.same_of_represents (hsum.exact hc.exact) hc

/-- Resting on the final hold, the survey finds the pose at the end. -/
theorem same_pose_at_end {last : Segment} {p : Pose} (hp : tr.Parsed) (h : tr.finalHold = .ok last)
    (hpose : poseFrom tr last t = .ok p) (hsame : last.startSec.same t = true) :
    p.same last.start = true := by
  have hv := Trajectory.visits_of_finalHold h
  have ht := isNaN_of_poseFrom hpose
  have hseek := Cursor.seek_at_start (show tr.Visits (Cursor.on last).segment from hv) ht hsame
  obtain ⟨hlow, hhigh⟩ := hv.places.onClock.relativeTime_mem ht
  obtain ⟨r, hr, -⟩ := Binary.represents_between Quantum.zero_represents Quantum.one_represents
    hlow hhigh
  obtain ⟨-, hmax, -⟩ := hp.exists_startRaws
  obtain ⟨offset, startMs, rs, hrs, rfl⟩ := finalHold_eq_hold h
  obtain ⟨raws, hstored, hend⟩ := hp.exists_endRaws hrs
  unfold poseFrom at hpose
  rw [hseek] at hpose
  simp only [Cursor.on, position_hold, Except.map, Except.ok.injEq] at hpose
  rw [← hpose]
  refine Pose.same_iff.mpr fun axis => ?_
  obtain ⟨q, hq, -⟩ := Quantum.decode_represents hmax (hstored axis) axis
  rw [← Quantum.get_decodePose, ← hend] at hq
  have haxis := same_eval_constant hq hr
  cases axis <;> exact haxis

/-! ## The law -/

/-- A survey and a fresh playback agree on where the landing takes over, unless
it takes over just at the end of the flight. The pose that a survey tells is
always what a playback on the final hold answers for the time of the landing. A
fresh playback answers the same if that time is not the duration. If it is,
the survey tells the pose at the end, while the playback answers with the curve
of the first segment that does not end before. -/
theorem landing_pose_is_seen_from_the_end {buffer : Buffer} {v : Survey} {s : Summary}
    (hp : Trajectory.ofBuffer buffer = .ok tr) (hwanted : v.components.landing = true)
    (h : v.run tr = .ok s) :
    ∃ fresh last p, Playback.ofTrajectory tr = .ok fresh ∧ tr.finalHold = .ok last ∧
      answer (Playback.positionAt s.landingSec ⟨tr, Cursor.on last⟩) = .ok s.landingPose ∧
      answer (Playback.positionAt s.landingSec fresh) = .ok p ∧
      (s.landingSec.same s.durationSec = false → p = s.landingPose) ∧
      (s.landingSec.same s.durationSec = true →
        s.landingPose.same last.start = true ∧
        ∃ seg path, tr.course.find s.landingSec = .ok seg ∧ seg.position = .ok path ∧
          p = path.eval (Cursor.relativeTime seg s.landingSec)) := by
  obtain ⟨hparsed, -⟩ := Trajectory.parsed_of_ofBuffer hp
  obtain ⟨last, hlast, hduration, hpose⟩ := landing_eq_ok hwanted h
  have ht := isNaN_of_poseFrom hpose
  have hv := Trajectory.visits_of_finalHold hlast
  obtain ⟨first, hfirst⟩ := hv.exists_first
  have hfresh : Playback.ofTrajectory tr = .ok ⟨tr, Cursor.on first⟩ :=
    bind_eq_ok_iff.mpr ⟨first, hfirst, rfl⟩
  obtain ⟨seg, hfind⟩ := exists_find hlast s.landingSec
  obtain ⟨path, hpath⟩ := (visits_of_find hfresh ht hfind).exists_position
  have hanswer := positionAt_fresh hfresh ht hfind hpath
  have hquery : ∀ {seg : Segment}, tr.Visits seg →
      answer (Playback.positionAt s.landingSec ⟨tr, Cursor.on seg⟩) =
        Playback.recomputed Segment.position s.landingSec ⟨tr, Cursor.on seg⟩ := by
    intro seg hseg
    exact Playback.answer_query Cursor.positionCurve_computes _
      ⟨rfl, (Cursor.sound_lasting tr).enter hseg⟩
  rw [poseFrom_eq] at hpose
  refine ⟨_, last, _, hfresh, hlast, (hquery hv).trans hpose,
    (hquery (.first hfirst)).trans hanswer, ?_, ?_⟩
  · intro hne
    rw [hduration, Binary.same_comm] at hne
    rw [recomputed_fresh hv hfresh ht hne, hpose] at hanswer
    exact (Except.ok.inj hanswer).symm
  · intro hsame
    rw [hduration, Binary.same_comm] at hsame
    rw [← poseFrom_eq] at hpose
    exact ⟨same_pose_at_end hparsed hlast hpose hsame, seg, path, hfind, hpath, rfl⟩

/-- Ten seconds up and five down: the landing takes over before the end of the flight. -/
theorem a_descent_is_seen_from_the_start : ∃ tr fresh s,
    Trajectory.ofBytes #[1, 0, 0, 0, 0, 0, 0, 0, 0, 0x10, 0x10, 0x27, 0x10, 0x27,
      0x10, 0x88, 0x13, 0, 0] = .ok tr ∧
    Playback.ofTrajectory tr = .ok fresh ∧ run standard tr = .ok s ∧
    s.landingSec.same s.durationSec = false ∧
    answer (Playback.positionAt s.landingSec fresh) = .ok s.landingPose := by
  obtain ⟨tr, hparse, hlands⟩ : ∃ tr, Trajectory.ofBytes #[1, 0, 0, 0, 0, 0, 0, 0, 0,
      0x10, 0x10, 0x27, 0x10, 0x27, 0x10, 0x88, 0x13, 0, 0] = .ok tr ∧
      (run standard tr).map (fun s => s.landingSec.same s.durationSec) = .ok false :=
    ⟨_, rfl, by decide +kernel⟩
  obtain ⟨s, hrun, hne⟩ := map_eq_ok_iff.mp hlands
  obtain ⟨fresh, -, p, hfresh, -, -, hanswer, hagree, -⟩ :=
    landing_pose_is_seen_from_the_end hparse rfl hrun
  rw [hagree hne] at hanswer
  exact ⟨tr, fresh, s, hparse, hfresh, hrun, hne, hanswer⟩

/-- After a second, a jump without duration ends the flight. The survey tells
where it leads to, and a fresh playback where it begins. -/
theorem a_jump_at_the_end_is_not_seen : ∃ tr fresh s p,
    Trajectory.ofBytes #[1, 0, 0, 0, 0, 0, 0, 0, 0, 0x01, 0xe8, 0x03, 100, 0,
      0x01, 0, 0, 200, 0] = .ok tr ∧
    Playback.ofTrajectory tr = .ok fresh ∧ run standard tr = .ok s ∧
    answer (Playback.positionAt s.landingSec fresh) = .ok p ∧
    s.landingPose = ⟨200, 0, 0, 0⟩ ∧ p = ⟨100, 0, 0, 0⟩ ∧ p.same s.landingPose = false := by
  obtain ⟨tr, fresh, hparse, hfresh, hlands, hanswer⟩ : ∃ tr fresh, Trajectory.ofBytes
      #[1, 0, 0, 0, 0, 0, 0, 0, 0, 0x01, 0xe8, 0x03, 100, 0, 0x01, 0, 0, 200, 0] = .ok tr ∧
      Playback.ofTrajectory tr = .ok fresh ∧
      (run standard tr).map (fun s => (s.landingSec, s.landingPose)) =
        .ok (1, ⟨200, 0, 0, 0⟩) ∧
      answer (Playback.positionAt 1 fresh) = .ok ⟨100, 0, 0, 0⟩ :=
    ⟨_, _, rfl, rfl, by decide +kernel, by decide +kernel⟩
  obtain ⟨s, hrun, hlands⟩ := map_eq_ok_iff.mp hlands
  obtain ⟨hsec, hpose⟩ := Prod.mk.inj hlands
  rw [← hsec] at hanswer
  exact ⟨tr, fresh, s, _, hparse, hfresh, hrun, hanswer, hpose, rfl, by rw [hpose]; decide⟩

end Survey

end DroneShow
