-- Changes of a trajectory, one after another. What its header says is kept
-- beside the bytes. No change, even one that stops halfway, lets the two fall
-- apart: parsing the bytes again gives what is kept.
import DroneShow.Proofs.Trajectory.Faults

namespace DroneShow.Trajectory

variable {tr tr' : Trajectory}

/-! ## Changes -/

/-- What can be done to a trajectory. -/
inductive Change where
  | clear
  | own
  | cut (t : Single)
  | land (summary : Summary) (velocity : Single)
  | takeOver (b : Draft)

/-- What a change leaves of a trajectory, whether it succeeds or not. -/
def Change.run : Change → Trajectory → Trajectory
  | .clear, _ => empty
  | .own, tr => tr.toOwned
  | .cut t, tr => left (cutAt t tr)
  | .land summary velocity, tr => left (replaceEndByLanding summary velocity tr)
  | .takeOver b, tr => (left (Trajectory.takeOver (tr, b))).1

/-- The trajectories that changes lead to from one without bytes or from one
that was read. -/
inductive Reachable : Trajectory → Prop
  | empty : Reachable empty
  | ofView {bytes : Bytes} {tr : Trajectory} : ofView bytes = .ok tr → Reachable tr
  | ofBytes {bytes : Bytes} {tr : Trajectory} : ofBytes bytes = .ok tr → Reachable tr
  | change {tr : Trajectory} (c : Change) : Reachable tr → Reachable (c.run tr)

/-! ## Without bytes -/

theorem parsed_empty : empty.Parsed := rfl

/-- A trajectory without bytes is the empty one, but for who owns them. -/
theorem Parsed.eq_empty (hp : tr.Parsed) (hempty : tr.isEmpty = true) :
    tr = { empty with buffer := tr.buffer } := by
  have hparse : ofBuffer tr.buffer = .ok { empty with buffer := tr.buffer } := by
    unfold ofBuffer
    apply if_pos
    exact hempty
  rw [Parsed, hparse] at hp
  exact (Except.ok.inj hp).symm

/-- Where there are no bytes, a cut finds nothing to write. -/
theorem cutAt_empty (hempty : tr.isEmpty = true) (t : Single) :
    left (cutAt t tr) = tr := by
  have hbytes : tr.bytes.toList = [] := by
    simpa [isEmpty, Buffer.isEmpty, Buffer.size, bytes] using hempty
  have hfirst : tr.firstSegment = .ok (Segment.hold tr.headerLength 0 tr.start) := by
    apply Segment.decode_of_end
    simp [hbytes]
  have hplace : tr.cutPlace (cutMs t) = .ok .past := by
    simp [cutPlace, hfirst, bind, Except.bind, maxSteps, cutPlaceFrom, Segment.isTerminal,
      Segment.hold]
  unfold cutAt
  split
  · rfl
  split
  · rfl
  · simp [hplace]

/-! ## Each change -/

theorem Parsed.toOwned (hp : tr.Parsed) : tr.toOwned.Parsed := by
  by_cases hempty : tr.isEmpty = true
  · rw [hp.eq_empty hempty]
    unfold Parsed ofBuffer
    apply if_pos
    exact hempty
  · rw [Bool.not_eq_true] at hempty
    have hheader := hp.header hempty
    have hparse := ofBytes_of_decode hheader.2
    rw [← hheader.1] at hparse
    exact hparse

theorem Parsed.cut (hp : tr.Parsed) (t : Single) : (left (cutAt t tr)).Parsed := by
  by_cases hempty : tr.isEmpty = true
  · rwa [cutAt_empty hempty]
  · rw [Bool.not_eq_true] at hempty
    have hkept := (cutAt_keeps_header t tr).parsed hp hempty
    exact hkept.1

theorem parsed_of_finish {b b' : Draft} (h : Draft.finish b = .ok tr b') : tr.Parsed := by
  unfold Draft.finish at h
  split at h
  · cases h
  · rename_i bytes _ _
    cases hparse : ofBytes bytes with
    | error e =>
      rw [hparse] at h
      cases h
    | ok built =>
      rw [hparse] at h
      cases h
      exact (parsed_of_ofBuffer hparse).1

theorem parsed_of_landed {velocity : Single} (h : tr.landed velocity = .ok tr') : tr'.Parsed := by
  unfold landed at h
  obtain ⟨b, -, h⟩ := bind_eq_ok_iff.mp h
  obtain ⟨⟨_, b'⟩, -, h⟩ := bind_eq_ok_iff.mp h
  obtain ⟨⟨built, b''⟩, hfinish, h⟩ := bind_eq_ok_iff.mp h
  cases h
  rw [Draft.run_eq_ok_iff] at hfinish
  exact parsed_of_finish hfinish

/-- A landing leaves the trajectory as it was, or cut, or built anew. -/
theorem Parsed.land (hp : tr.Parsed) (summary : Summary) (velocity : Single) :
    (left (replaceEndByLanding summary velocity tr)).Parsed := by
  rcases replaceEndByLanding_cases summary velocity tr with ⟨-, e, hrun⟩ | ⟨-, hrun⟩
  · rwa [hrun]
  · have hcut := hp.cut summary.landingSec
    rw [hrun]
    cases hresult : cutAt summary.landingSec tr with
    | error e cut =>
      rw [hresult] at hcut
      exact hcut
    | ok _ cut =>
      rw [hresult] at hcut
      cases hlanded : cut.landed velocity with
      | error e =>
        simp only [hlanded]
        exact hcut
      | ok built =>
        simp only [hlanded]
        exact parsed_of_landed hlanded

theorem Parsed.takeOver (hp : tr.Parsed) (b : Draft) :
    (left (Trajectory.takeOver (tr, b))).1.Parsed := by
  unfold Trajectory.takeOver
  cases hfinish : Draft.finish b with
  | error e b' =>
    simp only [hfinish]
    exact hp
  | ok built b' =>
    simp only [hfinish]
    exact parsed_of_finish hfinish

theorem Parsed.change (hp : tr.Parsed) (c : Change) : (c.run tr).Parsed := by
  cases c with
  | clear => exact parsed_empty
  | own => exact hp.toOwned
  | cut t => exact hp.cut t
  | land summary velocity => exact hp.land summary velocity
  | takeOver b => exact hp.takeOver b

theorem Reachable.parsed (h : tr.Reachable) : tr.Parsed := by
  induction h with
  | empty => exact parsed_empty
  | ofView hparse => exact (parsed_of_ofBuffer hparse).1
  | ofBytes hparse => exact (parsed_of_ofBuffer hparse).1
  | change c _ ih => exact ih.change c

/-! ## The law -/

/-- Whatever is done to a trajectory, and whether it succeeds or fails, it has
no bytes and what stands beside them is that of an empty one, or it has a whole
header, and reading the bytes again gives the same scale, yaw flag and start. -/
theorem bytes_tell_what_is_kept (h : tr.Reachable) :
    (tr.bytes.size = 0 ∧ tr.scale = 1 ∧ tr.yawEnabled = false ∧ tr.start = Pose.origin ∧
      tr.headerLength = 0) ∨
    (Header.length ≤ tr.bytes.size ∧ tr.headerLength = Header.length ∧
      ∃ again, ofBytes tr.bytes = .ok again ∧ again.scale = tr.scale ∧
        again.yawEnabled = tr.yawEnabled ∧ again.start = tr.start) := by
  have hp := h.parsed
  by_cases hempty : tr.isEmpty = true
  · left
    have hsize : tr.bytes.size = 0 := by
      simpa [isEmpty, Buffer.isEmpty, Buffer.size, bytes] using hempty
    refine ⟨hsize, ?_⟩
    rw [hp.eq_empty hempty]
    exact ⟨rfl, rfl, rfl, rfl⟩
  · right
    rw [Bool.not_eq_true] at hempty
    have hheader := hp.header hempty
    exact ⟨Header.size_of_decode hheader.2, hheader.1, _, ofBytes_of_decode hheader.2, rfl, rfl, rfl⟩

/-- A landing that stops behind its cut, of a climb that starts off the origin. -/
theorem a_landing_stops_behind_its_cut : ∃ tr,
    ofBytes #[2, 5, 0, 0, 0, 0, 0, 0, 0, 0x10, 0x10, 0x27, 0x10, 0x27, 0x10, 0x10, 0x27, 0, 0] =
      .ok tr ∧
    answer (replaceEndByLanding (landingAt (.ofDecimal false 175 (-1)))
      (.ofDecimal false 1 (-4)) tr) = .error .longLanding ∧
    ∃ again, ofBytes ((Change.land (landingAt (.ofDecimal false 175 (-1)))
        (.ofDecimal false 1 (-4))).run tr).bytes = .ok again ∧
      again.scale = 2 ∧ again.start = ⟨10, 0, 0, 0⟩ := by
  obtain ⟨tr, hparse, hfails, hscale, hstart, hsize⟩ : ∃ tr,
      ofBytes #[2, 5, 0, 0, 0, 0, 0, 0, 0, 0x10, 0x10, 0x27, 0x10, 0x27, 0x10, 0x10, 0x27, 0, 0] =
        .ok tr ∧
      answer (replaceEndByLanding (landingAt (.ofDecimal false 175 (-1)))
        (.ofDecimal false 1 (-4)) tr) = .error .longLanding ∧
      ((Change.land (landingAt (.ofDecimal false 175 (-1)))
        (.ofDecimal false 1 (-4))).run tr).scale = 2 ∧
      ((Change.land (landingAt (.ofDecimal false 175 (-1)))
        (.ofDecimal false 1 (-4))).run tr).start = ⟨10, 0, 0, 0⟩ ∧
      ((Change.land (landingAt (.ofDecimal false 175 (-1)))
        (.ofDecimal false 1 (-4))).run tr).bytes.size ≠ 0 :=
    ⟨_, rfl, by decide +kernel, by decide +kernel, by decide +kernel, by decide +kernel⟩
  have hreach := Reachable.change (.land (landingAt (.ofDecimal false 175 (-1)))
    (.ofDecimal false 1 (-4))) (.ofBytes hparse)
  rcases bytes_tell_what_is_kept hreach with ⟨hnone, -⟩ | ⟨-, -, again, hagain, hs, -, hst⟩
  · exact absurd hnone hsize
  · exact ⟨tr, hparse, hfails, again, hagain, hs.trans hscale, hst.trans hstart⟩

end DroneShow.Trajectory
