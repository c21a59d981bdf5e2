-- The drafts that any calls can lead to. All of them keep the invariant, so
-- the bytes of each are a trajectory that ends at its last pose, and handing
-- them over never fails.
import DroneShow.Proofs.Draft.Invariant

namespace DroneShow.Draft

open Quantum (Stored)
open Record (Spells totalMs)

variable {b b' : Draft} {start p : Pose} {rs : List Record} {tr : Trajectory}

/-! ## Starting anew -/

theorem run_eq_ok_iff {α : Type} {op : Edit α} {out : α × Draft} :
    run op b = .ok out ↔ op b = .ok out.1 out.2 := by
  unfold run
  cases op b with
  | error e b' => simp
  | ok a b' =>
    simp only [Except.ok.injEq, EStateM.Result.ok.injEq]
    exact Prod.ext_iff

theorem reset_eq_ok (hpos : 0 < b.scale) (hs : b.scale ≤ Header.maxScale) {raws : Axes Int}
    (h : Quantum.encodePose b.scale start = .ok raws) :
    ∃ b', reset start b = .ok () b' ∧ b'.scale = b.scale ∧ b'.yawEnabled = b.yawEnabled ∧
      b'.last = Quantum.decodePose b.scale raws ∧ b'.Holds b'.last [] := by
  obtain ⟨header, he⟩ : ∃ header, Header.encode ⟨b.scale, b.yawEnabled, start⟩ = .ok header := by
    unfold Header.encode
    rw [h]
    exact ⟨_, rfl⟩
  obtain ⟨raws', hraws', hsize, hdecode⟩ := Header.decode_encode hpos hs he
  have hsame : raws' = raws := Except.ok.inj (hraws'.symm.trans h)
  subst hsame
  refine ⟨⟨header, b.scale, b.yawEnabled, Quantum.decodePose b.scale raws', raws'⟩, ?_, rfl, rfl,
    rfl, ⟨hdecode, ⟨by simp, ?_⟩, fun axis => ?_, rfl, rfl⟩⟩
  · simp only [reset, he, setLast, h]
  · rw [Record.spellAll_nil, List.drop_eq_nil_iff, Array.length_toList, hsize]
  · exact Quantum.stored_of_encode (Quantum.encodePose_eq_ok_iff.mp h axis)

theorem reset_eq_error {e : Fault} (h : Quantum.encodePose b.scale start = .error e) :
    reset start b = .error e b := by
  unfold reset Header.encode
  rw [h]
  rfl

theorem holds_of_new {scale : Nat} {yawEnabled : Bool} (h : new scale yawEnabled = .ok b) :
    b.Holds b.last [] ∧ b.scale = scale ∧ b.yawEnabled = yawEnabled := by
  unfold new at h
  split at h
  · cases h
  · rename_i hscale
    rw [not_or, Nat.not_lt] at hscale
    rw [bind_eq_ok_iff] at h
    obtain ⟨⟨_, b'⟩, hrun, hb⟩ := h
    cases hb
    generalize hblank : (⟨#[], scale, yawEnabled, Pose.origin, Axes.all 0⟩ : Draft) = blank at hrun
    have hsc : blank.scale = scale := by rw [← hblank]
    have hyaw : blank.yawEnabled = yawEnabled := by rw [← hblank]
    rw [← hsc] at hscale
    unfold run at hrun
    rcases hraws : Quantum.encodePose blank.scale Pose.origin with e | raws
    · rw [reset_eq_error hraws] at hrun
      cases hrun
    · obtain ⟨b'', hreset, hsc', hyaw', _, hholds⟩ :=
        reset_eq_ok (Nat.pos_of_ne_zero hscale.1) hscale.2 hraws
      rw [hreset] at hrun
      cases hrun
      exact ⟨hholds, hsc'.trans hsc, hyaw'.trans hyaw⟩

/-- A start is moved only before the first record, or nothing changes. -/
theorem Holds.setStart (h : b.Holds start rs) (p : Pose) :
    left (setStart p b) = b ∨ (rs = [] ∧ ∃ b', setStart p b = .ok () b' ∧ b'.Holds b'.last []) := by
  unfold Draft.setStart
  cases hsome : b.hasSegments with
  | true => exact .inl rfl
  | false =>
    rw [if_neg Bool.false_ne_true]
    have hrs : rs = [] := by
      by_contra hne
      rw [h.hasSegments_iff.mpr hne] at hsome
      cases hsome
    rcases hraws : Quantum.encodePose b.scale p with e | raws
    · rw [reset_eq_error hraws]
      exact .inl rfl
    · obtain ⟨b', hreset, _, _, _, hholds⟩ := reset_eq_ok h.scale.1 h.scale.2 hraws
      exact .inr ⟨hrs, b', hreset, hholds⟩

/-! ## Continuing -/

/-- The end of records behind a header can be stored, so that rounding it once
more does not move it. -/
theorem encodePose_endPose {bytes : Bytes} {header : Header} (hd : Header.decode bytes = .ok header)
    (hrs : ∀ r ∈ rs, r.WellFormed) : ∃ raws,
      Quantum.encodePose header.scale (Record.endPose header.scale header.start rs) = .ok raws ∧
      (∀ axis, Stored (raws.get axis)) ∧
      Quantum.decodePose header.scale raws = Record.endPose header.scale header.start rs := by
  obtain ⟨hpos, hmax⟩ := Header.scale_of_decode hd
  obtain ⟨raws₀, hstored₀, hstart⟩ := Header.start_of_decode hd
  obtain ⟨raws, hstored, hraws⟩ := Record.endPose_stored header.scale hstored₀ hrs
  rw [hstart, hraws]
  exact Quantum.encodePose_decodePose hpos hmax hstored

/-- A draft behind a trajectory, when what is stored for its end is known. -/
theorem ofTrajectory_eq_ok {p : Pose} {raws : Axes Int} (hne : tr.isEmpty = false)
    (hend : tr.endPose = .ok p) (hraws : Quantum.encodePose tr.scale p = .ok raws) :
    ofTrajectory tr =
      .ok ⟨tr.bytes, tr.scale, tr.yawEnabled, Quantum.decodePose tr.scale raws, raws⟩ := by
  unfold ofTrajectory
  rw [hne, if_neg Bool.false_ne_true, hend]
  simp only [bind, Except.bind, run, setLast, hraws]
  rfl

theorem holds_of_ofTrajectory (hp : tr.Parsed) (h : ofTrajectory tr = .ok b) :
    ∃ rs, b.Holds tr.start rs ∧ b.bytes = tr.bytes ∧ b.scale = tr.scale ∧
      tr.durationMs = .ok (totalMs rs) ∧ tr.endPose = .ok b.last := by
  unfold ofTrajectory at h
  split at h
  · cases h
  · rename_i hne
    obtain ⟨hhead, hdecode⟩ := hp.header (Bool.eq_false_iff.mpr hne)
    rw [bind_eq_ok_iff] at h
    obtain ⟨p, hend, h⟩ := h
    rw [bind_eq_ok_iff] at h
    obtain ⟨⟨_, b'⟩, hrun, hb⟩ := h
    cases hb
    obtain ⟨last, hlast⟩ : ∃ last, tr.finalHold = .ok last := by
      rcases hl : tr.finalHold with e | last
      · rw [Trajectory.endPose, hl] at hend
        cases hend
      · exact ⟨last, rfl⟩
    obtain ⟨rs, hrs, hms⟩ := Trajectory.spells_of_finalHold hlast
    have hp' := Trajectory.endPose_of_spells hrs hms
    have hpose := Except.ok.inj (hend.symm.trans hp')
    obtain ⟨raws, hraws, hstored, hsame⟩ := encodePose_endPose hdecode hrs.wellFormed
    rw [← hpose] at hraws hsame
    simp only [run, setLast, hraws] at hrun
    cases hrun
    rw [hhead] at hrs
    refine ⟨rs, ⟨hdecode, hrs, hstored, rfl, ?_⟩, rfl, rfl, ?_, ?_⟩
    · simp only [hsame, hpose]
    · exact Trajectory.durationMs_of_spells (by rwa [hhead]) hms
    · rw [hend, hsame]

/-! ## Handing over -/

/-- The trajectory in a draft that starts at `start`. -/
def built (b : Draft) (start : Pose) : Trajectory :=
  ⟨.owned b.bytes, b.scale, b.yawEnabled, start, Header.length⟩

/-- Handing over never fails. It gives the bytes away and keeps only a header
that starts where they end. -/
theorem Holds.finish (h : b.Holds start rs) : ∃ b', finish b = .ok (b.built start) b' ∧
    b'.Holds b.last [] ∧ b'.scale = b.scale ∧ b'.yawEnabled = b.yawEnabled ∧ b'.last = b.last := by
  obtain ⟨raws, hraws, _, hpose⟩ := h.encodePose_last
  obtain ⟨b', hreset, hscale, hyaw, hlast, hholds⟩ :=
    reset_eq_ok (b := { b with bytes := #[] }) h.scale.1 h.scale.2 hraws
  have hlast' : b'.last = b.last := hlast.trans hpose
  refine ⟨b', ?_, ?_, hscale, hyaw, hlast'⟩
  · simp only [Draft.finish, takeBytes, hreset, Trajectory.ofBytes_of_decode h.header, built]
  · rwa [hlast'] at hholds

theorem Holds.finalHold (h : b.Holds start rs) (hms : totalMs rs ≤ timeLimit) :
    (b.built start).finalHold = .ok (Segment.hold b.bytes.size (totalMs rs) b.last) := by
  have hrs : Spells rs ((b.built start).bytes.toList.drop (b.built start).headerLength) := h.records
  have hsize : Header.length + (Record.spellAll rs).length = b.bytes.size := by
    have hlen := Header.size_of_decode h.header
    rw [← h.records.bytes, List.length_drop, Array.length_toList]
    omega
  rw [Trajectory.finalHold_eq_outcome, Trajectory.course_of_spells hrs hms]
  simp only [built, hsize, h.end_eq]

/-! ## Calls -/

/-- A call on a draft. -/
inductive Call where
  | setStart (start : Pose)
  | line (target : Pose) (ms : Nat)
  | cubic (control₁ control₂ target : Pose) (ms : Nat)
  | segment (points : List Pose) (ms : Nat)
  | hold (ms : Nat)
  | finish

/-- What a call does to the draft. -/
def Call.run : Call → Edit Unit
  | .setStart start => Draft.setStart start
  | .line target ms => appendLine target ms
  | .cubic control₁ control₂ target ms => appendCubic control₁ control₂ target ms
  | .segment points ms => appendSegment points ms
  | .hold ms => Draft.hold ms
  | .finish => fun b =>
    match Draft.finish b with
    | .ok _ b => .ok () b
    | .error e b => .error e b

theorem Call.run_finish (h : Draft.finish b = .ok tr b') : Call.finish.run b = .ok () b' := by
  simp only [Call.run, h]

/-- The drafts that calls lead to, whether these succeed or fail. -/
inductive Reachable : Draft → Prop
  | new {scale : Nat} {yawEnabled : Bool} {b : Draft} :
    Draft.new scale yawEnabled = .ok b → Reachable b
  | resumed {tr : Trajectory} {b : Draft} : tr.Parsed → ofTrajectory tr = .ok b → Reachable b
  | call {b : Draft} (c : Call) : Reachable b → Reachable (left (c.run b))

theorem Adds.holds {ms : Nat} {result : EStateM.Result Fault Draft Unit} (h : Adds ms b result)
    (hb : b.Holds start rs) : ∃ rs', (DroneShow.left result).Holds start rs' := by
  obtain ⟨part, hgrows⟩ := h.left
  obtain ⟨more, hmore, _⟩ := hgrows.holds hb
  exact ⟨rs ++ more, hmore⟩

/-- Each call keeps the invariant, also where it fails. -/
theorem Holds.call (h : b.Holds start rs) (c : Call) :
    ∃ start' rs', (left (c.run b)).Holds start' rs' := by
  cases c with
  | setStart p =>
    rcases h.setStart p with hsame | ⟨_, b', hb', hholds⟩
    · exact ⟨start, rs, by rwa [Call.run, hsame]⟩
    · exact ⟨b'.last, [], by rwa [Call.run, hb']⟩
  | line target ms => exact ⟨start, (adds_line target ms b).holds h⟩
  | cubic control₁ control₂ target ms =>
    exact ⟨start, (adds_segment [control₁, control₂, target] ms b).holds h⟩
  | segment points ms => exact ⟨start, (adds_segment points ms b).holds h⟩
  | hold ms => exact ⟨start, (adds_hold ms b).holds h⟩
  | finish =>
    obtain ⟨b', hfinish, hholds, _⟩ := h.finish
    exact ⟨b.last, [], by rwa [Call.run_finish hfinish]⟩

theorem Reachable.holds (h : b.Reachable) : ∃ start rs, b.Holds start rs := by
  induction h with
  | new hnew => exact ⟨_, [], (holds_of_new hnew).1⟩
  | resumed hp hb =>
    obtain ⟨rs, hholds, _⟩ := holds_of_ofTrajectory hp hb
    exact ⟨_, rs, hholds⟩
  | call c _ ih =>
    obtain ⟨start, rs, hholds⟩ := ih
    exact hholds.call c

/-! ## The law -/

/-- Every draft holds a header with its scale and its yaw flag and complete
records behind it, and its last pose is the one that its stored values stand
for. Handing over never fails: it gives a trajectory of just those bytes, and
leaves a header that starts at the last pose. If the records end in time, a
walk over that trajectory reaches the final hold, which is at the last pose. -/
theorem reachable_draft_is_a_trajectory (h : b.Reachable) : ∃ start rs,
    Header.decode b.bytes = .ok ⟨b.scale, b.yawEnabled, start⟩ ∧
    Spells rs (b.bytes.toList.drop Header.length) ∧
    b.last = Quantum.decodePose b.scale b.lastRaw ∧
    ∃ tr b', Draft.finish b = .ok tr b' ∧ Trajectory.ofBytes b.bytes = .ok tr ∧
      b'.bytes.size = Header.length ∧
      Header.decode b'.bytes = .ok ⟨b.scale, b.yawEnabled, b.last⟩ ∧ b'.last = b.last ∧
      (totalMs rs ≤ timeLimit →
        tr.finalHold = .ok (Segment.hold b.bytes.size (totalMs rs) b.last) ∧
        tr.durationMs = .ok (totalMs rs) ∧ tr.endPose = .ok b.last) := by
  obtain ⟨start, rs, hb⟩ := h.holds
  obtain ⟨b', hfinish, hb', hscale, hyaw, hlast⟩ := hb.finish
  refine ⟨start, rs, hb.header, hb.records, hb.last_eq, b.built start, b', hfinish,
    Trajectory.ofBytes_of_decode hb.header, hb'.size_of_nil, ?_, hlast, fun hms => ?_⟩
  · rw [hb'.header, hscale, hyaw]
  · have hhold := hb.finalHold hms
    refine ⟨hhold, ?_, ?_⟩
    · rw [Trajectory.durationMs, hhold]
      rfl
    · rw [Trajectory.endPose, hhold]
      rfl

/-- A line, and then a start that comes too late. The records end in time, so
that the trajectory lasts as long as the line and ends where it leads. -/
theorem a_late_start_leaves_a_trajectory : ∃ b, b.Reachable ∧ b.last.x = 100 ∧
    ∃ rs, Spells rs (b.bytes.toList.drop Header.length) ∧ totalMs rs ≤ timeLimit ∧
      totalMs rs = 1500 ∧
    ∃ tr b', Draft.finish b = .ok tr b' ∧ b'.bytes.size = Header.length ∧ b'.last = b.last ∧
      tr.durationMs = .ok 1500 ∧ tr.endPose = .ok b.last := by
  obtain ⟨b, hb⟩ : ∃ b, Draft.new 2 true = .ok b := ⟨_, rfl⟩
  have hreach := Reachable.call (.setStart Pose.origin)
    (.call (.line ⟨100, 0, 0, 0⟩ 1500) (.new hb))
  obtain ⟨start, rs, hheader, hrs, _, tr, b', hfinish, htr, hsize, _, hlast, hend⟩ :=
    reachable_draft_is_a_trajectory hreach
  obtain rfl := Except.ok.inj ((Trajectory.ofBytes_of_decode hheader).symm.trans htr)
  generalize hlate : left ((Call.setStart Pose.origin).run
    (left ((Call.line ⟨100, 0, 0, 0⟩ 1500).run b))) = late at *
  have hruns : (Trajectory.ofBytes late.bytes).bind Trajectory.durationMs = .ok 1500 ∧
      ∃ p, (Trajectory.ofBytes late.bytes).bind Trajectory.endPose = .ok p := by
    cases hb
    subst hlate
    exact ⟨rfl, _, rfl⟩
  have hx : late.last.x = 100 := by
    cases hb
    subst hlate
    rfl
  rw [htr] at hruns
  obtain ⟨hruns, hwalk⟩ := hruns
  have hms := (Trajectory.walkable_iff_of_spells hrs).mp ⟨⟨_, hruns⟩, hwalk⟩
  obtain ⟨_, hduration, hpose⟩ := hend hms
  exact ⟨_, hreach, hx, rs, hrs, hms, Except.ok.inj (hduration.symm.trans hruns), _, b', hfinish,
    hsize, hlast, hruns, hpose⟩

end DroneShow.Draft
