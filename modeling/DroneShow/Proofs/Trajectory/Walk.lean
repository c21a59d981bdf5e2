-- The course of a walk: which segments it passes and how it ends. Every fold
-- over a trajectory follows it, and over complete records it passes exactly
-- their segments.
import DroneShow.Proofs.Trajectory.Segment
import DroneShow.Trajectory.Walk

namespace DroneShow

/-- The segments of records in a row, each of which starts where and when the
one before it ends. -/
def Segment.ofRecords (scale : Nat) : (offset startMs : Nat) → Pose → List Record → List Segment
  | _, _, _, [] => []
  | offset, startMs, start, r :: rs =>
    let s := ofRecord offset startMs start scale r
    s :: ofRecords scale (offset + s.length) (startMs + s.durationMs) s.finish rs

@[simp] theorem Segment.length_ofRecords (scale offset startMs : Nat) (start : Pose)
    (rs : List Record) : (ofRecords scale offset startMs start rs).length = rs.length := by
  induction rs generalizing offset startMs start with
  | nil => rfl
  | cons r rs ih => simp [ofRecords, ih]

theorem Segment.ofRecords_append (scale offset startMs : Nat) (start : Pose)
    {rs : List Record} (rs' : List Record) (hr : ∀ r ∈ rs, r.WellFormed) :
    ofRecords scale offset startMs start (rs ++ rs') =
      ofRecords scale offset startMs start rs ++
        ofRecords scale (offset + (Record.spellAll rs).length) (startMs + Record.totalMs rs)
          (Record.endPose scale start rs) rs' := by
  induction rs generalizing offset startMs start with
  | nil => simp [ofRecords]
  | cons r rs ih =>
    obtain ⟨hwf, hrs⟩ := List.forall_mem_cons.mp hr
    have hsize : (ofRecord offset startMs start scale r).length = r.toBytes.length :=
      hwf.length_toBytes.symm
    rw [List.cons_append, ofRecords, ofRecords, ih _ _ _ hrs, Record.endPose_cons,
      ← Record.finish_ofRecord, hsize, Record.spellAll_cons, List.length_append,
      Record.totalMs_cons, ← Nat.add_assoc, ← Nat.add_assoc]
    rfl

/-- What a walk passes, the final hold excepted, and where it ends: on the
final hold or with a fault. -/
structure Course where
  segments : List Segment
  outcome : Except Fault Segment

namespace Trajectory

variable {σ : Type} {tr : Trajectory}

/-! ## The course -/

/-- The course of the walk from a segment on. -/
def courseFrom (tr : Trajectory) : Nat → Segment → Course
  | 0, s => ⟨[], .ok s⟩
  | steps + 1, s =>
    if s.isTerminal then ⟨[], .ok s⟩
    else
      match tr.segmentAfter s with
      | .error e => ⟨[s], .error e⟩
      | .ok next => ⟨s :: (tr.courseFrom steps next).segments, (tr.courseFrom steps next).outcome⟩

/-- The course of the walk from a segment that still has to be decoded. -/
def courseAt (tr : Trajectory) (steps : Nat) : Except Fault Segment → Course
  | .error e => ⟨[], .error e⟩
  | .ok s => tr.courseFrom steps s

def course (tr : Trajectory) : Course := tr.courseAt tr.maxSteps tr.firstSegment

theorem courseFrom_succ (steps : Nat) {s : Segment} (h : s.isTerminal = false) :
    tr.courseFrom (steps + 1) s =
      ⟨s :: (tr.courseAt steps (tr.segmentAfter s)).segments,
        (tr.courseAt steps (tr.segmentAfter s)).outcome⟩ := by
  rw [courseFrom, h, if_neg Bool.false_ne_true]
  cases tr.segmentAfter s <;> rfl

theorem courseAt_terminal (steps : Nat) {s : Segment} (h : s.isTerminal = true) :
    tr.courseAt steps (.ok s) = ⟨[], .ok s⟩ := by
  cases steps with
  | zero => rfl
  | succ steps => rw [courseAt, courseFrom, if_pos h]

theorem foldFrom_eq_courseFrom (step : σ → Segment → Except Fault σ) (steps : Nat) (acc : σ)
    (s : Segment) : tr.foldFrom step steps acc s =
      ((tr.courseFrom steps s).segments.foldlM step acc).bind fun acc =>
        (tr.courseFrom steps s).outcome.map fun last => (acc, last) := by
  induction steps generalizing acc s with
  | zero => rfl
  | succ steps ih =>
    unfold foldFrom courseFrom
    split
    · rfl
    · cases hstep : step acc s with
      | error e => cases tr.segmentAfter s <;> simp [hstep, bind, Except.bind]
      | ok acc' =>
        cases tr.segmentAfter s with
        | error e => simp [hstep, bind, Except.bind, Except.map, pure, Except.pure]
        | ok next => simp [hstep, bind, Except.bind, ih]

/-- A fold handles the segments of the course in their order; only then the
outcome of the walk counts. -/
theorem fold_eq_course (step : σ → Segment → Except Fault σ) (init : σ) :
    tr.fold step init = (tr.course.segments.foldlM step init).bind fun acc =>
      tr.course.outcome.map fun last => (acc, last) := by
  unfold fold course
  cases tr.firstSegment with
  | error e => rfl
  | ok first => exact foldFrom_eq_courseFrom step tr.maxSteps init first

theorem finalHold_eq_outcome : tr.finalHold = tr.course.outcome := by
  have hunit : ∀ l : List Segment,
      l.foldlM (fun _ _ => .ok ()) () = (.ok () : Except Fault Unit) := by
    intro l
    induction l with
    | nil => rfl
    | cons s l ih => exact ih
  unfold finalHold
  rw [fold_eq_course, hunit]
  cases tr.course.outcome <;> rfl

/-! ## The course over records -/

theorem isTerminal_ofRecord (offset startMs scale : Nat) (start : Pose) (r : Record) :
    (Segment.ofRecord offset startMs start scale r).isTerminal = false := by
  have hpos := Record.length_pos r.formats
  unfold Record.prefixLength at hpos
  simp only [Segment.isTerminal, Segment.ofRecord, beq_eq_false_iff_ne, ne_eq]
  omega

theorem segmentAfter_ofRecord {offset startMs : Nat} {r : Record} (start : Pose)
    (hr : r.WellFormed) (hms : startMs + r.durationMs ≤ timeLimit) :
    tr.segmentAfter (Segment.ofRecord offset startMs start tr.scale r) =
      tr.segmentAt (offset + r.toBytes.length) (startMs + r.durationMs)
        (Record.endPose tr.scale start [r]) := by
  have hend : (Segment.ofRecord offset startMs start tr.scale r).endMs = startMs + r.durationMs :=
    Nat.min_eq_left hms
  unfold segmentAfter
  rw [isTerminal_ofRecord, hend, Record.finish_ofRecord, hr.length_toBytes]
  rfl

theorem courseAt_records {offset startMs : Nat} {rs : List Record} {rest : List UInt8}
    (start : Pose) (steps : Nat) (hr : ∀ r ∈ rs, r.WellFormed)
    (hms : startMs + Record.totalMs rs ≤ timeLimit)
    (h : tr.bytes.toList.drop offset = Record.spellAll rs ++ rest) :
    tr.courseAt (rs.length + steps) (tr.segmentAt offset startMs start) =
      let after := tr.courseAt steps (tr.segmentAt (offset + (Record.spellAll rs).length)
        (startMs + Record.totalMs rs) (Record.endPose tr.scale start rs))
      ⟨Segment.ofRecords tr.scale offset startMs start rs ++ after.segments, after.outcome⟩ := by
  induction rs generalizing offset startMs start with
  | nil => simp [Segment.ofRecords]
  | cons r rs ih =>
    have hwf := hr r List.mem_cons_self
    rw [Record.spellAll_cons, List.append_assoc] at h
    rw [Record.totalMs_cons] at hms
    have hend : startMs + r.durationMs ≤ timeLimit := by omega
    have hdecode : tr.segmentAt offset startMs start =
        .ok (Segment.ofRecord offset startMs start tr.scale r) :=
      Segment.decode_of_record start tr.scale hwf hend h
    have hrest : startMs + r.durationMs + Record.totalMs rs ≤ timeLimit := by omega
    have htail := ih (Record.endPose tr.scale start [r])
      (fun r' hm => hr r' (List.mem_cons_of_mem _ hm)) hrest (Word.drop_add h)
    have hlength : offset + r.toBytes.length + (Record.spellAll rs).length =
        offset + (Record.spellAll (r :: rs)).length := by
      rw [Record.spellAll_cons, List.length_append, Nat.add_assoc]
    rw [← segmentAfter_ofRecord start hwf hend, hlength, ← Record.endPose_cons, Nat.add_assoc,
      ← Record.totalMs_cons] at htail
    have hsize : (Segment.ofRecord offset startMs start tr.scale r).length = r.toBytes.length :=
      hwf.length_toBytes.symm
    rw [hdecode, List.length_cons, Nat.add_right_comm, courseAt,
      courseFrom_succ _ (isTerminal_ofRecord _ _ _ _ _), htail, Segment.ofRecords,
      Record.finish_ofRecord, hsize]
    rfl

theorem exists_maxSteps {rs : List Record} {rest : List UInt8} (hr : ∀ r ∈ rs, r.WellFormed)
    (h : tr.bytes.toList.drop tr.headerLength = Record.spellAll rs ++ rest) :
    ∃ steps, tr.maxSteps = rs.length + steps := by
  have hspell := Record.length_spellAll hr
  have hsize : (tr.bytes.toList.drop tr.headerLength).length ≤ tr.bytes.size := by simp
  rw [h, List.length_append] at hsize
  unfold Record.prefixLength at hspell
  refine ⟨tr.maxSteps - rs.length, ?_⟩
  unfold maxSteps
  omega

/-- A walk begins with the complete records that end in time. -/
theorem ofRecords_prefix_course {rs : List Record} {rest : List UInt8}
    (hr : ∀ r ∈ rs, r.WellFormed) (hms : Record.totalMs rs ≤ timeLimit)
    (h : tr.bytes.toList.drop tr.headerLength = Record.spellAll rs ++ rest) :
    Segment.ofRecords tr.scale tr.headerLength 0 tr.start rs <+: tr.course.segments := by
  obtain ⟨steps, hsteps⟩ := exists_maxSteps hr h
  unfold course firstSegment
  rw [hsteps, courseAt_records tr.start steps hr (by rwa [Nat.zero_add]) h]
  exact List.prefix_append _ _

theorem course_of_spells {rs : List Record}
    (h : Record.Spells rs (tr.bytes.toList.drop tr.headerLength))
    (hms : Record.totalMs rs ≤ timeLimit) :
    tr.course = ⟨Segment.ofRecords tr.scale tr.headerLength 0 tr.start rs,
      .ok (Segment.hold (tr.headerLength + (Record.spellAll rs).length) (Record.totalMs rs)
        (Record.endPose tr.scale tr.start rs))⟩ := by
  obtain ⟨hr, hbytes⟩ := h
  rw [← List.append_nil (Record.spellAll rs)] at hbytes
  obtain ⟨steps, hsteps⟩ := exists_maxSteps hr hbytes
  have hend : tr.segmentAt (tr.headerLength + (Record.spellAll rs).length) (0 + Record.totalMs rs)
      (Record.endPose tr.scale tr.start rs) = .ok (Segment.hold _ _ _) :=
    Segment.decode_of_end _ _ (Word.drop_add hbytes)
  unfold course firstSegment
  rw [hsteps, courseAt_records tr.start steps hr (by rwa [Nat.zero_add]) hbytes, hend,
    courseAt_terminal steps rfl]
  simp only [List.append_nil, Nat.zero_add]

/-- A record that offends ends the walk behind the records before it. -/
theorem course_of_offends {rs : List Record} {rest : List UInt8} {e : Fault}
    (hr : ∀ r ∈ rs, r.WellFormed)
    (h : tr.bytes.toList.drop tr.headerLength = Record.spellAll rs ++ rest)
    (hms : Record.totalMs rs ≤ timeLimit) (he : Record.Offends (Record.totalMs rs) rest e) :
    tr.course = ⟨Segment.ofRecords tr.scale tr.headerLength 0 tr.start rs, .error e⟩ := by
  obtain ⟨steps, hsteps⟩ := exists_maxSteps hr h
  have hend : tr.segmentAt (tr.headerLength + (Record.spellAll rs).length) (0 + Record.totalMs rs)
      (Record.endPose tr.scale tr.start rs) = .error e := by
    refine Segment.decode_of_offends _ _ ?_
    rwa [Word.drop_add h, Nat.zero_add]
  unfold course firstSegment
  rw [hsteps, courseAt_records tr.start steps hr (by rwa [Nat.zero_add]) h, hend]
  simp only [courseAt, List.append_nil]

end Trajectory

end DroneShow
