-- What a walk runs through. Each of its segments begins where the one before it
-- ends, the coordinates of all control points are whole numbers of bounded size,
-- and a walk from one of its segments on passes the rest of them.
import DroneShow.Proofs.Binary.Whole
import DroneShow.Proofs.Record.Restriction
import DroneShow.Proofs.Trajectory.Grammar

namespace DroneShow

open Binary
open Quantum (Stored)
open Record (spellAll totalMs)

/-! ## Control points -/

namespace Segment

/-- On an axis, the segment leads from the whole number `k` through `ks`. -/
structure Through (s : Segment) (axis : Axis) (k : ℤ) (ks : List ℤ) : Prop where
  points : List.Forall₂ (fun x (k : ℤ) => x.Represents k) (s.points.get axis) (k :: ks)
  start : (s.start.get axis).Represents k
  finish : (s.finish.get axis).Represents (ks.getLastD k)
  count : ks.length = (s.formats.get axis).storedPoints
  bounded : ∀ k' ∈ k :: ks, |k'| ≤ 32768 * 127

variable {s : Segment} {axis : Axis} {k : ℤ} {ks : List ℤ}

theorem Through.abs_start (h : s.Through axis k ks) : |k| ≤ 32768 * 127 :=
  h.bounded k List.mem_cons_self

theorem Through.abs_finish (h : s.Through axis k ks) : |ks.getLastD k| ≤ 32768 * 127 := by
  rw [List.getLastD_eq_getLast?]
  cases hlast : ks.getLast? with
  | none => exact h.abs_start
  | some l => exact h.bounded l (List.mem_cons_of_mem _ (List.mem_of_getLast? hlast))

/-- The way along an axis is the exact difference of its ends. -/
theorem Through.sub (h : s.Through axis k ks) :
    (s.finish.get axis - s.start.get axis).Represents ((ks.getLastD k - k : ℤ) : ℚ) := by
  have hstart := h.abs_start
  have hfinish := h.abs_finish
  have hdiff := abs_sub (ks.getLastD k) k
  refine h.finish.whole_sub h.start (Quantum.exact_int ?_)
  rw [Int.abs_eq_natAbs] at hdiff
  omega

end Segment

namespace Quantum

variable {scale : Nat} {raw : Int}

theorem decodeCoordinate_whole (hs : scale ≤ 127) (hr : Stored raw) :
    (decodeCoordinate scale raw).Represents ((raw * scale : ℤ) : ℚ) := by
  exact_mod_cast decodeCoordinate_represents hs hr

theorem abs_mul_scale_le {most : ℤ} (hs : (scale : ℤ) ≤ most) (hr : Stored raw) :
    |raw * (scale : ℤ)| ≤ 32768 * most := by
  have hraw : |raw| ≤ 32768 := by
    rw [Int.abs_eq_natAbs]
    exact_mod_cast hr.natAbs_le
  rw [abs_mul, Nat.abs_cast]
  exact mul_le_mul hraw hs (by omega) (by omega)

theorem decodePose_whole {raws : Axes Int} {axis : Axis} (hs : scale ≤ 127)
    (hraws : ∀ axis, Stored (raws.get axis)) (haxis : axis ≠ .yaw) :
    ∃ k : ℤ, ((decodePose scale raws).get axis).Represents k ∧ |k| ≤ 32768 * 127 := by
  rw [get_decodePose, decode_coordinate haxis]
  exact ⟨_, decodeCoordinate_whole hs (hraws axis),
    abs_mul_scale_le (by exact_mod_cast hs) (hraws axis)⟩

end Quantum

/-- Records that begin at a decoded pose lead through decoded control points. -/
theorem Segment.through_ofRecord {scale : Nat} {raws : Axes Int} {r : Record} {axis : Axis}
    (hs : scale ≤ 127) (hraws : ∀ axis, Stored (raws.get axis)) (hr : r.WellFormed)
    (haxis : axis ≠ .yaw) (offset startMs : Nat) :
    (ofRecord offset startMs (Quantum.decodePose scale raws) scale r).Through axis
      (raws.get axis * scale) ((r.raws.get axis).map fun raw => raw * (scale : ℤ)) := by
  have hdecode : Quantum.decode scale axis = Quantum.decodeCoordinate scale :=
    Quantum.decode_coordinate haxis
  have hstored : ∀ raw ∈ raws.get axis :: r.raws.get axis, Stored raw :=
    List.forall_mem_cons.mpr ⟨hraws axis, fun raw hraw => hr.stored axis raw hraw⟩
  refine ⟨?_, ?_, ?_, ?_, ?_⟩
  · rw [Record.points_ofRecord, hdecode]
    change List.Forall₂ _ _ ((raws.get axis :: r.raws.get axis).map fun raw => raw * (scale : ℤ))
    rw [List.forall₂_map_left_iff, List.forall₂_map_right_iff, List.forall₂_same]
    exact fun raw hraw => Quantum.decodeCoordinate_whole hs (hstored raw hraw)
  · show ((Quantum.decodePose scale raws).get axis).Represents _
    rw [Quantum.get_decodePose, hdecode]
    exact Quantum.decodeCoordinate_whole hs (hraws axis)
  · rw [Record.finish_ofRecord, Record.endPose, Axes.get_ofFn, Quantum.get_decodePose, hdecode,
      Record.lastRaw?, List.flatMap_singleton, List.getLastD_eq_getLast?, List.getLast?_map]
    cases hlast : (r.raws.get axis).getLast? with
    | none => exact Quantum.decodeCoordinate_whole hs (hraws axis)
    | some raw =>
      have hmem := List.mem_cons_of_mem (raws.get axis) (List.mem_of_getLast? hlast)
      exact Quantum.decodeCoordinate_whole hs (hstored raw hmem)
  · rw [List.length_map]
    exact hr.count axis
  · intro k' hk'
    change k' ∈ (raws.get axis :: r.raws.get axis).map fun raw => raw * (scale : ℤ) at hk'
    obtain ⟨raw, hraw, rfl⟩ := List.mem_map.mp hk'
    exact Quantum.abs_mul_scale_le (by exact_mod_cast hs) (hstored raw hraw)

theorem Segment.through_ofRecords {scale : Nat} {raws : Axes Int} {rs : List Record} {axis : Axis}
    (hs : scale ≤ 127) (hraws : ∀ axis, Stored (raws.get axis)) (hrs : ∀ r ∈ rs, r.WellFormed)
    (haxis : axis ≠ .yaw) (offset startMs : Nat) :
    ∀ s ∈ ofRecords scale offset startMs (Quantum.decodePose scale raws) rs,
      ∃ k ks, s.Through axis k ks := by
  induction rs generalizing offset startMs raws with
  | nil => simp [ofRecords]
  | cons r rs ih =>
    obtain ⟨hr, hrest⟩ := List.forall_mem_cons.mp hrs
    obtain ⟨raws', hraws', hpose⟩ := Record.endPose_stored scale hraws
      (show ∀ r' ∈ [r], r'.WellFormed by simpa using hr)
    rw [ofRecords, Record.finish_ofRecord, hpose]
    refine List.forall_mem_cons.mpr ⟨⟨_, _, through_ofRecord hs hraws hr haxis offset startMs⟩, ?_⟩
    exact ih hraws' hrest _ _

/-- On each axis there is one control point more than the record stores. -/
theorem Segment.length_points_ofRecords {rs : List Record} (hrs : ∀ r ∈ rs, r.WellFormed)
    (scale offset startMs : Nat) (start : Pose) (axis : Axis) :
    ∀ s ∈ ofRecords scale offset startMs start rs,
      (s.points.get axis).length = (s.formats.get axis).storedPoints + 1 := by
  induction rs generalizing offset startMs start with
  | nil => simp [ofRecords]
  | cons r rs ih =>
    obtain ⟨hr, hrest⟩ := List.forall_mem_cons.mp hrs
    rw [ofRecords]
    refine List.forall_mem_cons.mpr ⟨?_, ih hrest _ _ _⟩
    simp [ofRecord, hr.count axis]

/-! ## Links -/

/-- The segments lead from one pose to another, each from where the one before it ends. -/
def Segment.Link : Pose → List Segment → Pose → Prop
  | p, [], q => p = q
  | p, s :: rest, q => s.start = p ∧ Link s.finish rest q

theorem Segment.link_cons {s : Segment} {rest : List Segment} {q : Pose} :
    Link s.start (s :: rest) q ↔ Link s.finish rest q := by simp [Link]

theorem Segment.link_append {p q : Pose} {l l' : List Segment} :
    Link p (l ++ l') q ↔ ∃ m, Link p l m ∧ Link m l' q := by
  induction l generalizing p with
  | nil => simp [Link]
  | cons s l ih =>
    rw [List.cons_append, Link, ih]
    simp only [Link, and_assoc, exists_and_left]

theorem Segment.link_ofRecords (scale offset startMs : Nat) (start : Pose) (rs : List Record) :
    Link start (ofRecords scale offset startMs start rs) (Record.endPose scale start rs) := by
  induction rs generalizing offset startMs start with
  | nil => rfl
  | cons r rs ih =>
    rw [Record.endPose_cons, ← Record.finish_ofRecord offset startMs]
    exact ⟨rfl, ih _ _ _⟩

namespace Trajectory

variable {σ : Type} {tr : Trajectory} {s last first : Segment} {axis : Axis}
  {before rest : List Segment} {steps : Nat}

/-! ## The course -/

theorem Parsed.exists_through (hp : tr.Parsed) (hlast : tr.finalHold = .ok last)
    (hs : s ∈ tr.course.segments) (haxis : axis ≠ .yaw) : ∃ k ks, s.Through axis k ks := by
  obtain ⟨-, hmax, raws, hraws, hstart⟩ := hp.exists_startRaws
  obtain ⟨rs, hspells, hms⟩ := spells_of_finalHold hlast
  rw [course_of_spells hspells hms, hstart] at hs
  exact Segment.through_ofRecords hmax hraws hspells.wellFormed haxis _ _ s hs

theorem length_points (hlast : tr.finalHold = .ok last) (hs : s ∈ tr.course.segments)
    (axis : Axis) : (s.points.get axis).length = (s.formats.get axis).storedPoints + 1 := by
  obtain ⟨rs, hspells, hms⟩ := spells_of_finalHold hlast
  rw [course_of_spells hspells hms] at hs
  exact Segment.length_points_ofRecords hspells.wellFormed _ _ _ _ axis s hs

theorem Parsed.start_whole (hp : tr.Parsed) (haxis : axis ≠ .yaw) :
    ∃ k : ℤ, (tr.start.get axis).Represents k ∧ |k| ≤ 32768 * 127 := by
  obtain ⟨-, hmax, raws, hraws, hstart⟩ := hp.exists_startRaws
  rw [hstart]
  exact Quantum.decodePose_whole hmax hraws haxis

theorem Parsed.end_whole (hp : tr.Parsed) (hlast : tr.finalHold = .ok last)
    (haxis : axis ≠ .yaw) :
    ∃ k : ℤ, (last.start.get axis).Represents k ∧ |k| ≤ 32768 * 127 := by
  obtain ⟨-, hmax, -⟩ := hp.exists_startRaws
  obtain ⟨rs, hspells, hms⟩ := spells_of_finalHold hlast
  obtain ⟨raws, hraws, hend⟩ := hp.exists_endRaws hspells.wellFormed
  rw [finalHold_eq_outcome, course_of_spells hspells hms] at hlast
  cases hlast
  simp only [Segment.hold, hend]
  exact Quantum.decodePose_whole hmax hraws haxis

theorem link_course (hlast : tr.finalHold = .ok last) :
    Segment.Link tr.start tr.course.segments last.start := by
  obtain ⟨rs, hspells, hms⟩ := spells_of_finalHold hlast
  rw [finalHold_eq_outcome, course_of_spells hspells hms] at hlast
  cases hlast
  rw [course_of_spells hspells hms]
  exact Segment.link_ofRecords _ _ _ _ _

theorem isTerminal_finalHold (hlast : tr.finalHold = .ok last) : last.isTerminal = true := by
  obtain ⟨rs, hspells, hms⟩ := spells_of_finalHold hlast
  rw [finalHold_eq_outcome, course_of_spells hspells hms] at hlast
  cases hlast
  rfl

/-! ## The rest of a course -/

/-- A walk that has come to the final hold does not go on with more steps. -/
theorem courseFrom_more (hlast : (tr.courseFrom steps s).outcome = .ok last)
    (hterminal : last.isTerminal = true) (more : Nat) :
    tr.courseFrom (steps + more) s = tr.courseFrom steps s := by
  induction steps generalizing s with
  | zero =>
    obtain rfl : s = last := Except.ok.inj hlast
    rw [Nat.zero_add]
    exact courseAt_terminal more hterminal
  | succ steps ih =>
    rw [Nat.add_right_comm]
    unfold courseFrom at hlast ⊢
    split
    · rfl
    · rename_i hgoes
      rw [if_neg hgoes] at hlast
      cases hafter : tr.segmentAfter s with
      | error e => rfl
      | ok next =>
        rw [hafter] at hlast
        simp only [ih hlast]

/-- From one of its segments on, a walk passes the rest. -/
theorem exists_courseFrom (h : (tr.courseFrom steps s).segments = before ++ first :: rest) :
    ∃ steps' ≤ steps,
      tr.courseFrom steps' first = ⟨first :: rest, (tr.courseFrom steps s).outcome⟩ := by
  induction steps generalizing s before with
  | zero => simp [courseFrom] at h
  | succ steps ih =>
    cases before with
    | nil =>
      have hfirst : s = first := by
        unfold courseFrom at h
        split at h
        · cases h
        · split at h
          · exact (List.cons.inj h).1
          · exact (List.cons.inj h).1
      refine ⟨steps + 1, le_rfl, ?_⟩
      rw [← hfirst] at h ⊢
      rw [List.nil_append] at h
      rw [← h]
    | cons s' before =>
      unfold courseFrom at h
      split at h
      · cases h
      · rename_i hgoes
        split at h
        · simp at h
        · rename_i next hafter
          simp only at h
          rw [List.cons_append, List.cons.injEq] at h
          obtain ⟨steps', hle, hcourse⟩ := ih h.2
          have houtcome : (tr.courseFrom (steps + 1) s).outcome =
              (tr.courseFrom steps next).outcome := by
            rw [courseFrom, if_neg hgoes, hafter]
          rw [houtcome]
          exact ⟨steps', hle.trans (Nat.le_succ steps), hcourse⟩

/-- A fold from one of the segments on handles the rest of the course. -/
theorem foldFrom_rest (hlast : tr.finalHold = .ok last)
    (h : tr.course.segments = before ++ first :: rest) (step : σ → Segment → Except Fault σ)
    (acc : σ) : tr.foldFrom step tr.maxSteps acc first =
      ((first :: rest).foldlM step acc).map fun acc => (acc, last) := by
  have houtcome := hlast
  rw [finalHold_eq_outcome] at houtcome
  have hcourse : tr.courseFrom tr.maxSteps first = ⟨first :: rest, .ok last⟩ := by
    unfold course at h houtcome
    cases hstart : tr.firstSegment with
    | error e =>
      rw [hstart] at houtcome
      cases houtcome
    | ok s =>
      rw [hstart, courseAt] at h houtcome
      obtain ⟨steps, hle, hrest⟩ := exists_courseFrom h
      rw [houtcome] at hrest
      obtain ⟨more, hmore⟩ := Nat.exists_eq_add_of_le hle
      rw [hmore, courseFrom_more (by rw [hrest]) (isTerminal_finalHold hlast), hrest]
  rw [foldFrom_eq_courseFrom, hcourse]
  cases (first :: rest).foldlM step acc <;> rfl

end Trajectory

end DroneShow
