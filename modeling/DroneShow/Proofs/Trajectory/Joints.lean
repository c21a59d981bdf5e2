-- Where the segments of a flight meet. Each segment begins where the one before it
-- ends, and its curve begins there as well. The curve also ends where the segment
-- does, if the coefficients are computed without rounding: constant and linear curves
-- always, and cubic ones up to a scale of 42.
import DroneShow.Proofs.Curve.Ends
import DroneShow.Proofs.Survey.LandingPose
import DroneShow.Proofs.Trajectory.Links

namespace DroneShow

open Quantum (Stored decodePose)

/-! ## Decoded segments -/

namespace Segment

variable {s : Segment} {scale : Nat} {axis : Axis}

/-- The segment begins at stored coordinates. It holds them, or follows a record. -/
inductive Decoded (scale : Nat) : Segment → Prop
  | held {raws : Axes Int} (offset startMs : Nat) :
    (∀ axis, Stored (raws.get axis)) →
    Decoded scale (hold offset startMs (decodePose scale raws))
  | stored {raws : Axes Int} {r : Record} (offset startMs : Nat) :
    (∀ axis, Stored (raws.get axis)) → r.WellFormed →
    Decoded scale (ofRecord offset startMs (decodePose scale raws) scale r)

theorem decoded_of_decode {bytes : Bytes} {offset startMs : Nat} {raws : Axes Int}
    (hraws : ∀ axis, Stored (raws.get axis))
    (h : decode bytes offset startMs (decodePose scale raws) scale = .ok s) : s.Decoded scale := by
  rcases decode_eq_ok h with ⟨-, rfl⟩ | ⟨r, -, hr, -, -, rfl⟩
  · exact .held offset startMs hraws
  · exact .stored offset startMs hraws hr

/-- What begins at stored coordinates ends at such. -/
theorem Decoded.exists_finishRaws (h : s.Decoded scale) :
    ∃ raws, (∀ axis, Stored (raws.get axis)) ∧ s.finish = decodePose scale raws := by
  cases h with
  | @held raws _ _ hraws => exact ⟨raws, hraws, rfl⟩
  | @stored raws r _ _ hraws hr =>
    rw [Record.finish_ofRecord]
    exact Record.endPose_stored scale hraws (List.forall_mem_singleton.mpr hr)

/-- An axis has up to eight control points, the first of them at the start, and all
are finite. -/
theorem Decoded.exists_points (hs : scale ≤ 127) (h : s.Decoded scale) (axis : Axis) :
    ∃ xs, s.points.get axis = s.start.get axis :: xs ∧ xs.length ≤ 7 ∧
      ∀ y ∈ s.start.get axis :: xs, ∃ r, y.Represents r ∧ |r| ≤ 2 ^ 23 := by
  have hbounded : ∀ {raw}, Stored raw →
      ∃ r, (Quantum.decode scale axis raw).Represents r ∧ |r| ≤ 2 ^ 23 := by
    intro raw hraw
    obtain ⟨r, hr, hlt⟩ := Quantum.decode_represents hs hraw axis
    exact ⟨r, hr, by exact_mod_cast hlt.le⟩
  cases h with
  | @held raws _ _ hraws =>
    refine ⟨[], by cases axis <;> rfl, by decide, List.forall_mem_singleton.mpr ?_⟩
    simp only [Segment.hold, Quantum.get_decodePose]
    exact hbounded (hraws axis)
  | @stored raws r _ _ hraws hr =>
    refine ⟨(r.raws.get axis).map (Quantum.decode scale axis), by simp [ofRecord], ?_, ?_⟩
    · rw [List.length_map, hr.count]
      cases r.formats.get axis <;> decide
    · simp only [ofRecord, Quantum.get_decodePose]
      rw [List.forall_mem_cons, List.forall_mem_map]
      exact ⟨hbounded (hraws axis), fun raw hraw => hbounded (hr.stored axis raw hraw)⟩

/-- On an axis of space, the control points are whole multiples of the scale. -/
theorem Decoded.exists_through (hs : scale ≤ 127) (h : s.Decoded scale) (haxis : axis ≠ .yaw) :
    ∃ raw raws, (∀ raw' ∈ raw :: raws, Stored raw') ∧
      s.Through axis (raw * scale) (raws.map fun raw' => raw' * (scale : ℤ)) := by
  cases h with
  | @held raws offset startMs hraws =>
    have hwhole := Quantum.decodeCoordinate_whole hs (hraws axis)
    have hstart : (decodePose scale raws).get axis =
        Quantum.decodeCoordinate scale (raws.get axis) := by
      rw [Quantum.get_decodePose, Quantum.decode_coordinate haxis]
    have hpoints : (hold offset startMs (decodePose scale raws)).points.get axis =
        [(decodePose scale raws).get axis] := by
      cases axis <;> rfl
    have hformat : (hold offset startMs (decodePose scale raws)).formats.get axis = .constant := by
      cases axis <;> rfl
    rw [← hstart] at hwhole
    refine ⟨raws.get axis, [], List.forall_mem_singleton.mpr (hraws axis), ?_, hwhole, hwhole, ?_, ?_⟩
    · rw [hpoints]
      exact .cons hwhole .nil
    · rw [hformat]
      rfl
    · exact List.forall_mem_singleton.mpr
        (Quantum.abs_mul_scale_le (by exact_mod_cast hs) (hraws axis))
  | @stored raws r offset startMs hraws hr =>
    exact ⟨raws.get axis, r.raws.get axis,
      List.forall_mem_cons.mpr ⟨hraws axis, fun raw hraw => hr.stored axis raw hraw⟩,
      through_ofRecord hs hraws hr haxis offset startMs⟩

/-! ## Curves at their ends -/

variable {path : Path Single}

theorem axisCurve_of_position (hpath : s.position = .ok path) (axis : Axis) :
    Path.axisCurve (s.points.get axis) = .ok (path.get axis) := by
  unfold position Path.ofPoints at hpath
  exact Axes.ofFnM_eq_ok_iff.mp hpath axis

theorem get_eval (path : Path Single) (t : Single) (axis : Axis) :
    (path.eval t).get axis = (path.get axis).eval t := by
  cases axis <;> rfl

theorem Decoded.eval_zero (hs : scale ≤ 127) (h : s.Decoded scale)
    (hpath : s.position = .ok path) (axis : Axis) :
    ((path.eval 0).get axis).same (s.start.get axis) = true := by
  obtain ⟨xs, hpoints, hlen, hfinite⟩ := h.exists_points hs axis
  obtain ⟨q, hq, -⟩ := hfinite _ List.mem_cons_self
  have hcurve := axisCurve_of_position hpath axis
  rw [hpoints] at hcurve
  rw [get_eval]
  exact Binary.same_of_represents (Poly.axisCurve_begins hlen hq hfinite hcurve).eval_zero hq

/-- The formats whose curves are computed without rounding where they end. -/
def ExactFormat (scale : Nat) (format : AxisFormat) : Prop :=
  format = .constant ∨ format = .linear ∨ (format = .cubic ∧ scale ≤ 42)

theorem ExactFormat.endsExactly {raw : ℤ} {raws : List ℤ} {format : AxisFormat}
    (hformat : ExactFormat scale format) (hs : scale ≤ 127)
    (hstored : ∀ raw' ∈ raw :: raws, Stored raw') (hcount : raws.length = format.storedPoints) :
    Poly.EndsExactly (raw * scale) (raws.map fun raw' => raw' * (scale : ℤ)) := by
  have hsize : ∀ most : ℤ, (scale : ℤ) ≤ most →
      ∀ k ∈ raw * scale :: raws.map (fun raw' => raw' * (scale : ℤ)), |k| ≤ 32768 * most := by
    intro most hmost
    rw [← List.map_cons (f := fun raw' => raw' * (scale : ℤ)), List.forall_mem_map]
    exact fun raw' hmem => Quantum.abs_mul_scale_le hmost (hstored raw' hmem)
  unfold Poly.EndsExactly
  rw [List.length_map, hcount]
  rcases hformat with rfl | rfl | ⟨rfl, hsmall⟩
  · exact .inl ⟨by decide, hsize 127 (by exact_mod_cast hs)⟩
  · exact .inl ⟨by decide, hsize 127 (by exact_mod_cast hs)⟩
  · exact .inr ⟨rfl, hsize 42 (by exact_mod_cast hsmall)⟩

/-- A curve that is computed without rounding ends at the end of its segment. -/
theorem Decoded.eval_one (hs : scale ≤ 127) (h : s.Decoded scale) (hpath : s.position = .ok path)
    (haxis : axis ≠ .yaw) (hformat : ExactFormat scale (s.formats.get axis)) :
    ((path.eval 1).get axis).same (s.finish.get axis) = true := by
  obtain ⟨raw, raws, hstored, hthrough⟩ := h.exists_through hs haxis
  have hcount := hthrough.count
  rw [List.length_map] at hcount
  rw [get_eval]
  exact Binary.same_of_represents
    (Poly.axisCurve_ends hthrough.points (hformat.endsExactly hs hstored hcount)
      (axisCurve_of_position hpath axis)) hthrough.finish

end Segment

namespace Trajectory

variable {tr : Trajectory} {s s' : Segment}

/-! ## Walks -/

theorem Visits.decoded (hp : tr.Parsed) (h : tr.Visits s) : s.Decoded tr.scale := by
  induction h with
  | first hfirst =>
    obtain ⟨-, -, raws, hraws, hstart⟩ := hp.exists_startRaws
    unfold firstSegment segmentAt at hfirst
    rw [hstart] at hfirst
    exact Segment.decoded_of_decode hraws hfirst
  | @after s s' _ hafter ih =>
    obtain ⟨raws, hraws, hfinish⟩ := ih.exists_finishRaws
    unfold segmentAfter segmentAt at hafter
    split at hafter
    · cases hafter
      exact ih
    · rw [hfinish] at hafter
      exact Segment.decoded_of_decode hraws hafter

/-- The walk goes on where a segment ends; on the final hold it stays. -/
theorem Visits.start_after (hp : tr.Parsed) (h : tr.Visits s) (hafter : tr.segmentAfter s = .ok s') :
    s'.start = s.finish := by
  unfold segmentAfter segmentAt at hafter
  split at hafter
  · rename_i hterminal
    cases hafter
    cases h.decoded hp with
    | held => rfl
    | @stored raws r offset startMs =>
      rw [isTerminal_ofRecord] at hterminal
      cases hterminal
  · rcases Segment.decode_eq_ok hafter with ⟨-, rfl⟩ | ⟨r, -, -, -, -, rfl⟩ <;> rfl

/-- Playback does not jump where two segments meet. The curve of each segment that
a walk comes to begins at the start of the segment, on every axis. In space it ends
at the end of the segment if it is constant or linear, and if it is cubic and the
scale is at most 42. There the next segment starts. -/
theorem curves_meet_at_joints (hp : tr.Parsed) (h : tr.Visits s) :
    ∃ path, s.position = .ok path ∧
      (∀ axis, ((path.eval 0).get axis).same (s.start.get axis) = true) ∧
      (∀ axis, axis ≠ .yaw → Segment.ExactFormat tr.scale (s.formats.get axis) →
        ((path.eval 1).get axis).same (s.finish.get axis) = true) ∧
      ∀ s', tr.segmentAfter s = .ok s' → s'.start = s.finish := by
  obtain ⟨-, hmax, -⟩ := hp.exists_startRaws
  have hdecoded := h.decoded hp
  obtain ⟨path, hpath⟩ := h.exists_position
  exact ⟨path, hpath, hdecoded.eval_zero hmax hpath,
    fun axis haxis hformat => hdecoded.eval_one hmax hpath haxis hformat,
    fun s' hafter => h.start_after hp hafter⟩

/-- A cubic curve at a scale of 42, with control points at both ends of the stored
range. It ends where the final hold starts. -/
theorem a_cubic_meets_the_final_hold : ∃ tr s s' path,
    ofBytes #[42, 0xff, 0x7f, 0, 0, 0, 0, 0, 0, 0x02, 0xe8, 0x03,
      0, 0x80, 0xff, 0x7f, 0, 0x80] = .ok tr ∧
    tr.Visits s ∧ tr.segmentAfter s = .ok s' ∧ s.position = .ok path ∧
    (path.eval 0).x.same s.start.x = true ∧ (path.eval 1).x.same s'.start.x = true ∧
    s'.start.x = -1376256 := by
  obtain ⟨tr, s, s', hparse, hfirst, hcubic, hafter, hend⟩ : ∃ tr s s', ofBytes #[42, 0xff, 0x7f,
      0, 0, 0, 0, 0, 0, 0x02, 0xe8, 0x03, 0, 0x80, 0xff, 0x7f, 0, 0x80] = .ok tr ∧
      tr.firstSegment = .ok s ∧ Segment.ExactFormat tr.scale (s.formats.get .x) ∧
      tr.segmentAfter s = .ok s' ∧ s'.start.x = -1376256 :=
    ⟨_, _, _, rfl, rfl, .inr (.inr ⟨rfl, le_rfl⟩), rfl, by decide +kernel⟩
  obtain ⟨path, hpath, hzero, hone, hjoint⟩ :=
    curves_meet_at_joints (parsed_of_ofBuffer hparse).1 (.first hfirst)
  have hx := hone .x (by decide) hcubic
  rw [← hjoint s' hafter] at hx
  exact ⟨tr, s, s', path, hparse, .first hfirst, hafter, hpath, hzero .x, hx, hend⟩

-- At the next scale, the third coefficient is 16907901, which is no number of the
-- format, and the curve ends a millimetre beyond.
example : ∃ tr s path, ofBytes #[43, 0xff, 0x7f, 0, 0, 0, 0, 0, 0, 0x02, 0xe8, 0x03,
      0, 0x80, 0xfe, 0x7f, 0, 0x80] = .ok tr ∧ tr.firstSegment = .ok s ∧
    s.position = .ok path ∧ (path.eval 1).x = -1409025 ∧ s.finish.x = -1409024 :=
  ⟨_, _, _, rfl, rfl, rfl, by decide +kernel, by decide +kernel⟩

end Trajectory

end DroneShow
