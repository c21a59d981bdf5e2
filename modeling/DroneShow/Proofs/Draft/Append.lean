-- Appending one segment. The record of a segment is well formed, stores an
-- axis only where some point leaves the last stored value, and decodes to the
-- curve through the points as they are stored.
import DroneShow.Proofs.Outcome
import DroneShow.Proofs.Trajectory.Segment
import DroneShow.Proofs.Record.Quantum
import DroneShow.Trajectory.Draft

namespace DroneShow

theorem AxisFormat.storedPoints_of_forStored {count : Nat} {format : AxisFormat}
    (h : forStored? count = some format) : format.storedPoints = count := by
  unfold forStored? at h
  split at h <;> cases h <;> rfl

namespace Draft

open Quantum (Stored)

variable {b b' : Draft} {points : List Pose} {ms : Nat} {r : Record}

/-! ## Encoding the points -/

theorem stores_eq_false_iff {axis : Axis} :
    b.stores axis = false ↔ axis = .yaw ∧ b.yawEnabled = false := by
  cases axis <;> simp [stores]

theorem encodePoints_eq_ok_iff {raws : Axes (List Int)} :
    b.encodePoints points = .ok raws ↔ ∀ axis,
      if b.stores axis then
        List.Forall₂ (fun p raw => Quantum.encode b.scale axis (p.get axis) = .ok raw)
          points (raws.get axis)
      else raws.get axis = [] := by
  unfold encodePoints
  rw [Axes.ofFnM_eq_ok_iff]
  refine forall_congr' fun axis => ?_
  split
  · exact mapM_eq_ok_iff
  · rw [Except.ok.injEq, eq_comm]

/-- Every point of a stored axis has its encoded value, and no other axis has any. -/
theorem length_of_encodePoints {raws : Axes (List Int)} (h : b.encodePoints points = .ok raws)
    {axis : Axis} (hne : raws.get axis ≠ []) : (raws.get axis).length = points.length := by
  have haxis := encodePoints_eq_ok_iff.mp h axis
  split at haxis
  · exact haxis.length_eq.symm
  · exact absurd haxis hne

theorem stored_of_encodePoints {raws : Axes (List Int)} (h : b.encodePoints points = .ok raws)
    {axis : Axis} {raw : Int} (hm : raw ∈ raws.get axis) : Stored raw := by
  have haxis := encodePoints_eq_ok_iff.mp h axis
  split at haxis
  · generalize raws.get axis = l at haxis hm
    clear h
    induction haxis with
    | nil => simp at hm
    | cons hp _ ih =>
      rcases List.mem_cons.mp hm with rfl | hm
      · exact Quantum.stored_of_encode hp
      · exact ih hm
  · rw [haxis] at hm
    simp at hm

/-- Whether the axis leaves the last stored value at some of the points. -/
def Moves (b : Draft) (raws : Axes (List Int)) (axis : Axis) : Prop :=
  ∃ raw ∈ raws.get axis, raw ≠ b.lastRaw.get axis

/-- Whether the axis is an unused yaw angle, or stays at the last stored value
at all of the points. -/
def Stays (b : Draft) (points : List Pose) (axis : Axis) : Prop :=
  (axis = .yaw ∧ b.yawEnabled = false) ∨
    ∀ p ∈ points, Quantum.encode b.scale axis (p.get axis) = .ok (b.lastRaw.get axis)

theorem not_moves_iff_stays {raws : Axes (List Int)} (h : b.encodePoints points = .ok raws)
    (axis : Axis) : ¬ b.Moves raws axis ↔ b.Stays points axis := by
  have haxis := encodePoints_eq_ok_iff.mp h axis
  clear h
  rw [Stays, ← stores_eq_false_iff, Moves]
  cases hs : b.stores axis with
  | false =>
    rw [hs, if_neg Bool.false_ne_true] at haxis
    simp [haxis]
  | true =>
    rw [hs, if_pos rfl] at haxis
    generalize raws.get axis = l at haxis
    induction haxis with
    | nil => simp
    | cons hp _ ih =>
      simp only [Bool.true_eq_false, false_or] at ih ⊢
      simp only [List.mem_cons, exists_eq_or_imp, forall_eq_or_imp, not_or, ih, hp, not_not,
        Except.ok.injEq, ne_eq]

/-! ## The record -/

theorem recordOf_eq_ok (h : b.recordOf points ms = .ok r) : ∃ format raws,
    AxisFormat.forStored? points.length = some format ∧ ms ≤ maxSegmentMs ∧
    b.encodePoints points = .ok raws ∧ r.durationMs = ms ∧ ∀ axis,
      (b.Moves raws axis ∧ r.formats.get axis = format ∧ r.raws.get axis = raws.get axis) ∨
      (¬ b.Moves raws axis ∧ r.formats.get axis = .constant ∧ r.raws.get axis = []) := by
  unfold recordOf at h
  rcases hf : AxisFormat.forStored? points.length with _ | format
  · rw [hf] at h
    cases h
  · rw [hf] at h
    simp only at h
    split at h
    · cases h
    · rename_i hms
      rw [bind_eq_ok_iff] at h
      obtain ⟨raws, hraws, hr⟩ := h
      cases hr
      refine ⟨format, raws, rfl, Nat.not_lt.mp hms, hraws, rfl, fun axis => ?_⟩
      have hany : (raws.get axis).any (· != b.lastRaw.get axis) = true ↔ b.Moves raws axis := by
        simp [Moves]
      by_cases hmove : b.Moves raws axis
      · refine .inl ⟨hmove, ?_, ?_⟩
        · simp only [Axes.get_ofFn, hany.mpr hmove, if_true]
        · simp only [Axes.get_ofFn, hany.mpr hmove, if_true]
      · have hstay : (raws.get axis).any (· != b.lastRaw.get axis) = false := by
          rw [Bool.eq_false_iff]
          exact fun h => hmove (hany.mp h)
        refine .inr ⟨hmove, ?_, ?_⟩
        · simp only [Axes.get_ofFn, hstay, Bool.false_eq_true, if_false]
        · simp only [Axes.get_ofFn, hstay, Bool.false_eq_true, if_false]

theorem durationMs_of_recordOf (h : b.recordOf points ms = .ok r) : r.durationMs = ms := by
  obtain ⟨_, _, _, _, _, hms, _⟩ := recordOf_eq_ok h
  exact hms

theorem wellFormed_of_recordOf (h : b.recordOf points ms = .ok r) : r.WellFormed := by
  obtain ⟨format, raws, hformat, hshort, hraws, hms, haxes⟩ := recordOf_eq_ok h
  refine ⟨?_, fun axis => ?_, fun axis raw hm => ?_⟩
  · unfold maxSegmentMs at hshort
    omega
  · rcases haxes axis with ⟨⟨raw, hraw, _⟩, hf, hl⟩ | ⟨_, hf, hl⟩
    · rw [hf, hl, AxisFormat.storedPoints_of_forStored hformat]
      exact length_of_encodePoints hraws (List.ne_nil_of_mem hraw)
    · rw [hf, hl]
      rfl
  · rcases haxes axis with ⟨_, _, hl⟩ | ⟨_, _, hl⟩
    · rw [hl] at hm
      exact stored_of_encodePoints hraws hm
    · rw [hl] at hm
      simp at hm

/-- Where an axis stays, the record holds nothing; where it moves, all its points. -/
theorem axis_of_recordOf (h : b.recordOf points ms = .ok r) (axis : Axis) :
    (r.formats.get axis = .constant ↔ b.Stays points axis) ∧
    (b.Stays points axis → r.raws.get axis = []) ∧
    (¬ b.Stays points axis →
      points.mapM (fun p => Quantum.encode b.scale axis (p.get axis)) = .ok (r.raws.get axis)) := by
  obtain ⟨format, raws, hformat, _, hraws, _, haxes⟩ := recordOf_eq_ok h
  rw [← not_moves_iff_stays hraws axis]
  rcases haxes axis with ⟨hmove, hf, hl⟩ | ⟨hstay, hf, hl⟩
  · obtain ⟨raw, hraw, hne⟩ := hmove
    have hcount := length_of_encodePoints hraws (List.ne_nil_of_mem hraw)
    have hpos := List.length_pos_of_mem hraw
    have hstored := AxisFormat.storedPoints_of_forStored hformat
    refine ⟨⟨fun hconst => ?_, fun hstay => absurd ⟨raw, hraw, hne⟩ hstay⟩,
      fun hstay => absurd ⟨raw, hraw, hne⟩ hstay, fun _ => ?_⟩
    · rw [hf] at hconst
      rw [hconst] at hstored
      simp only [AxisFormat.storedPoints] at hstored
      omega
    · have haxis := encodePoints_eq_ok_iff.mp hraws axis
      rw [hl, mapM_eq_ok_iff]
      split at haxis
      · exact haxis
      · rw [haxis] at hraw
        simp at hraw
  · exact ⟨⟨fun _ => hstay, fun _ => hf⟩, fun _ => hl, fun hmove => absurd hstay hmove⟩

/-- A point that can be stored can be led to, if not for too long. -/
theorem exists_recordOf_point {p : Pose} {raws : Axes Int}
    (h : Quantum.encodePose b.scale p = .ok raws) (hms : ms ≤ maxSegmentMs) :
    ∃ r, b.recordOf [p] ms = .ok r := by
  rw [Quantum.encodePose_eq_ok_iff] at h
  obtain ⟨lists, hlists⟩ : ∃ lists, b.encodePoints [p] = .ok lists := by
    refine ⟨Axes.ofFn fun axis => if b.stores axis then [raws.get axis] else [], ?_⟩
    rw [encodePoints_eq_ok_iff]
    intro axis
    rw [Axes.get_ofFn]
    cases b.stores axis with
    | false => rfl
    | true => exact .cons (h axis) .nil
  have hshort : ¬ maxSegmentMs < ms := Nat.not_lt.mpr hms
  simp only [recordOf, List.length_singleton, AxisFormat.forStored?, hshort, if_false, hlists]
  exact ⟨_, rfl⟩

theorem appendSegment_eq_ok_iff :
    appendSegment points ms b = .ok () b' ↔ ∃ r, b.recordOf points ms = .ok r ∧ b' = b.write r := by
  unfold appendSegment
  cases b.recordOf points ms with
  | error e => simp
  | ok r => simp [eq_comm]

/-! ## Writing it -/

section

variable (b : Draft) (r : Record)

@[simp] theorem bytes_write : (b.write r).bytes = b.bytes ++ r.toBytes := rfl

theorem size_write : (b.write r).bytes.size = b.bytes.size + r.toBytes.length := by
  rw [bytes_write, ← Array.length_toList, Array.toList_appendList, List.length_append,
    Array.length_toList]

@[simp] theorem scale_write : (b.write r).scale = b.scale := rfl

theorem get_last_write (axis : Axis) : (b.write r).last.get axis =
    ((r.raws.get axis).getLast?.map (Quantum.decode b.scale axis)).getD (b.last.get axis) :=
  Axes.get_ofFn _ _

theorem get_lastRaw_write (axis : Axis) :
    (b.write r).lastRaw.get axis = (r.raws.get axis).getLast?.getD (b.lastRaw.get axis) :=
  Axes.get_ofFn _ _

theorem last_write (h : b.last = Quantum.decodePose b.scale b.lastRaw) :
    (b.write r).last = Quantum.decodePose b.scale (b.write r).lastRaw := by
  apply Axes.ext_get
  intro axis
  rw [get_last_write, Quantum.get_decodePose, get_lastRaw_write, h, Quantum.get_decodePose]
  cases (r.raws.get axis).getLast? <;> rfl

end

/-! ## The law -/

/-- Decoding undoes appending. The bytes grow by one record. At the end of the
old bytes it decodes, at any time that it does not overrun, to a segment of
that length and duration. On each axis the segment is constant just when the
axis stays; otherwise it leads through the points as they are stored. -/
theorem decode_undoes_append (h : appendSegment points ms b = .ok () b') :
    ∃ r : Record, r.WellFormed ∧ b'.bytes = b.bytes ++ r.toBytes ∧
      ∀ startMs, startMs + ms ≤ timeLimit → ∃ s,
        Segment.decode b'.bytes b.bytes.size startMs b.last b.scale = .ok s ∧
        s.length = b'.bytes.size - b.bytes.size ∧ s.startMs = startMs ∧ s.durationMs = ms ∧
        ∀ axis, (s.formats.get axis = .constant ↔ b.Stays points axis) ∧
          (b.Stays points axis → s.points.get axis = [b.last.get axis]) ∧
          (¬ b.Stays points axis → ∃ raws,
            points.mapM (fun p => Quantum.encode b.scale axis (p.get axis)) = .ok raws ∧
            s.points.get axis = b.last.get axis :: raws.map (Quantum.decode b.scale axis)) := by
  obtain ⟨r, hr, rfl⟩ := appendSegment_eq_ok_iff.mp h
  have hwf := wellFormed_of_recordOf hr
  have hms := durationMs_of_recordOf hr
  refine ⟨r, hwf, bytes_write b r, fun startMs hlate => ?_⟩
  have hdrop : (b.write r).bytes.toList.drop b.bytes.size = r.toBytes ++ [] := by
    simp
  have hdecode := Segment.decode_of_record b.last b.scale hwf (by rwa [hms]) hdrop
  refine ⟨_, hdecode, ?_, rfl, hms, fun axis => ?_⟩
  · have hlen := hwf.length_toBytes
    rw [size_write, hlen, Nat.add_sub_cancel_left]
    rfl
  · obtain ⟨hformat, hstays, hmoves⟩ := axis_of_recordOf hr axis
    have hpoints : (Segment.ofRecord b.bytes.size startMs b.last b.scale r).points.get axis =
        b.last.get axis :: (r.raws.get axis).map (Quantum.decode b.scale axis) := by
      simp [Segment.ofRecord]
    refine ⟨hformat, fun h => ?_, fun h => ⟨_, hmoves h, hpoints⟩⟩
    rw [hpoints, hstays h, List.map_nil]

/-- A line along x from the origin: the other axes stay. -/
theorem decode_undoes_a_line : ∃ b b', new 2 true = .ok b ∧
    appendSegment [⟨100, 0, 0, 0⟩] 1500 b = .ok () b' ∧
    ∃ s, Segment.decode b'.bytes b.bytes.size 0 b.last b.scale = .ok s ∧
      s.length = b'.bytes.size - b.bytes.size ∧ s.durationMs = 1500 ∧
      s.points.get .x = [0, 100] ∧ s.points.get .yaw = [0] := by
  refine ⟨_, _, rfl, rfl, ?_⟩
  obtain ⟨r, -, -, hdecode⟩ := decode_undoes_append (show appendSegment [⟨100, 0, 0, 0⟩] 1500
    ⟨#[130, 0, 0, 0, 0, 0, 0, 0, 0], 2, true, Pose.origin, Axes.all 0⟩ = .ok () _ from rfl)
  obtain ⟨s, hs, hlen, -, hms, haxes⟩ := hdecode 0 (by decide)
  obtain ⟨raws, hraws, hx⟩ := (haxes .x).2.2 (by unfold Stays; decide)
  have hyaw := (haxes .yaw).2.1 (.inr (by decide))
  cases hraws
  exact ⟨s, hs, hlen, hms, hx, hyaw⟩

end Draft

end DroneShow
