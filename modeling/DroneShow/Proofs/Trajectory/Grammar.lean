-- The grammar of a walk. A trajectory has a duration and an end just when
-- the bytes behind its header are complete records that end in time, and any
-- other walk fails at the first record that offends.
import DroneShow.Proofs.Trajectory.Header
import DroneShow.Proofs.Trajectory.Walk

namespace DroneShow.Trajectory

open Record (Spells Offends spellAll totalMs)

variable {tr : Trajectory} {rs : List Record} {rest : List UInt8} {e : Fault}

/-! ## Duration and end -/

theorem durationMs_of_spells (h : Spells rs (tr.bytes.toList.drop tr.headerLength))
    (hms : totalMs rs ≤ timeLimit) : tr.durationMs = .ok (totalMs rs) := by
  rw [durationMs, finalHold_eq_outcome, course_of_spells h hms]
  rfl

theorem endPose_of_spells (h : Spells rs (tr.bytes.toList.drop tr.headerLength))
    (hms : totalMs rs ≤ timeLimit) :
    tr.endPose = .ok (Record.endPose tr.scale tr.start rs) := by
  rw [endPose, finalHold_eq_outcome, course_of_spells h hms]
  rfl

theorem finalHold_of_offends (hr : ∀ r ∈ rs, r.WellFormed)
    (h : tr.bytes.toList.drop tr.headerLength = spellAll rs ++ rest)
    (hms : totalMs rs ≤ timeLimit) (he : Offends (totalMs rs) rest e) :
    tr.finalHold = .error e := by
  rw [finalHold_eq_outcome, course_of_offends hr h hms he]

theorem finalHold_of_overrun (h : Spells rs (tr.bytes.toList.drop tr.headerLength))
    (hms : timeLimit < totalMs rs) : tr.finalHold = .error .endOfTime := by
  obtain ⟨before, r, after, rfl, hbefore, hover⟩ := Record.exists_overrun hms
  have hr := h.wellFormed r (by simp)
  have hbytes := h.bytes
  rw [Record.spellAll_append, Record.spellAll_cons] at hbytes
  exact finalHold_of_offends (fun r' hm => h.wellFormed r' (by simp [hm])) hbytes hbefore
    (hr.offends hover _)

theorem spells_of_finalHold {last : Segment} (h : tr.finalHold = .ok last) :
    ∃ rs, Spells rs (tr.bytes.toList.drop tr.headerLength) ∧ totalMs rs ≤ timeLimit := by
  obtain ⟨rs, rest, hbytes, hr, hms, hstop⟩ :=
    Record.exists_series 0 (Nat.zero_le _) (tr.bytes.toList.drop tr.headerLength)
  rw [Nat.zero_add] at hms hstop
  rcases hstop with rfl | ⟨e, he⟩
  · exact ⟨rs, ⟨hr, by rw [hbytes, List.append_nil]⟩, hms⟩
  · rw [finalHold_of_offends hr hbytes hms he] at h
    cases h

/-- A walk that fails meets a record that offends behind complete ones. -/
theorem offends_of_finalHold (h : tr.finalHold = .error e) :
    ∃ rs rest, (∀ r ∈ rs, r.WellFormed) ∧
      tr.bytes.toList.drop tr.headerLength = spellAll rs ++ rest ∧
      totalMs rs ≤ timeLimit ∧ Offends (totalMs rs) rest e := by
  obtain ⟨rs, rest, hbytes, hr, hms, hstop⟩ :=
    Record.exists_series 0 (Nat.zero_le _) (tr.bytes.toList.drop tr.headerLength)
  rw [Nat.zero_add] at hms hstop
  rcases hstop with rfl | ⟨e', he⟩
  · rw [finalHold_eq_outcome,
      course_of_spells ⟨hr, by rw [hbytes, List.append_nil]⟩ hms] at h
    cases h
  · rw [finalHold_of_offends hr hbytes hms he] at h
    cases h
    exact ⟨rs, rest, hr, hbytes, hms, he⟩

theorem durationMs_eq_ok_iff {d : Nat} :
    tr.durationMs = .ok d ↔ ∃ rs, Spells rs (tr.bytes.toList.drop tr.headerLength) ∧
      totalMs rs = d ∧ d ≤ timeLimit := by
  constructor
  · intro h
    rcases hlast : tr.finalHold with e | last
    · rw [durationMs, hlast] at h
      cases h
    · obtain ⟨rs, hrs, hms⟩ := spells_of_finalHold hlast
      rw [durationMs_of_spells hrs hms] at h
      cases h
      exact ⟨rs, hrs, rfl, hms⟩
  · rintro ⟨rs, hrs, rfl, hms⟩
    exact durationMs_of_spells hrs hms

theorem durationMs_eq_error_iff : tr.durationMs = .error e ↔ tr.finalHold = .error e := by
  unfold durationMs
  cases tr.finalHold <;> simp [Except.map]

theorem endPose_eq_error_iff : tr.endPose = .error e ↔ tr.finalHold = .error e := by
  unfold endPose
  cases tr.finalHold <;> simp [Except.map]

theorem finalHold_eq_error_iff : tr.finalHold = .error e ↔ ∃ rs rest, (∀ r ∈ rs, r.WellFormed) ∧
    tr.bytes.toList.drop tr.headerLength = spellAll rs ++ rest ∧
    totalMs rs ≤ timeLimit ∧ Offends (totalMs rs) rest e := by
  constructor
  · exact offends_of_finalHold
  · rintro ⟨rs, rest, hr, h, hms, he⟩
    exact finalHold_of_offends hr h hms he

/-! ## Walkable trajectories -/

/-- The trajectory can be walked to its end: it has a duration and an end. -/
def Walkable (tr : Trajectory) : Prop := (∃ d, tr.durationMs = .ok d) ∧ ∃ p, tr.endPose = .ok p

theorem walkable_iff_of_spells (h : Spells rs (tr.bytes.toList.drop tr.headerLength)) :
    tr.Walkable ↔ totalMs rs ≤ timeLimit := by
  constructor
  · rintro ⟨⟨d, hd⟩, -⟩
    by_contra hms
    have hover := durationMs_eq_error_iff.mpr (finalHold_of_overrun h (Nat.not_le.mp hms))
    rw [hd] at hover
    cases hover
  · intro hms
    exact ⟨⟨_, durationMs_of_spells h hms⟩, ⟨_, endPose_of_spells h hms⟩⟩

/-! ## The length of a walk -/

theorem length_course_le (tr : Trajectory) :
    Record.prefixLength * tr.course.segments.length ≤
      (tr.bytes.toList.drop tr.headerLength).length := by
  obtain ⟨rs, rest, hbytes, hr, hms, hstop⟩ :=
    Record.exists_series 0 (Nat.zero_le _) (tr.bytes.toList.drop tr.headerLength)
  rw [Nat.zero_add] at hms hstop
  have hlen := Record.length_spellAll hr
  have hcourse : tr.course.segments.length = rs.length := by
    rcases hstop with rfl | ⟨e, he⟩
    · rw [course_of_spells ⟨hr, by rw [hbytes, List.append_nil]⟩ hms, Segment.length_ofRecords]
    · rw [course_of_offends hr hbytes hms he, Segment.length_ofRecords]
  rw [hcourse, hbytes, List.length_append]
  omega

/-! ## The law -/

/-- The walk over any bytes with a header accepts exactly the complete records
that end in time. Each axis then ends at the last value stored for it, or at
the start of the header. Any other bytes fail at the first record that
offends, and no walk passes more records than the bytes have room for. -/
theorem walk_accepts_exactly_its_grammar {bytes : Bytes} (hp : ofBytes bytes = .ok tr)
    (hlen : Header.length ≤ bytes.size) :
    (∀ d, tr.durationMs = .ok d ↔
      ∃ rs, Spells rs (bytes.toList.drop Header.length) ∧ totalMs rs = d ∧ d ≤ timeLimit) ∧
    (∀ rs, Spells rs (bytes.toList.drop Header.length) → totalMs rs ≤ timeLimit →
      tr.endPose = .ok (Record.endPose tr.scale tr.start rs)) ∧
    (∀ e, tr.durationMs = .error e ↔ ∃ rs rest, (∀ r ∈ rs, r.WellFormed) ∧
      bytes.toList.drop Header.length = spellAll rs ++ rest ∧ totalMs rs ≤ timeLimit ∧
      Offends (totalMs rs) rest e) ∧
    (∀ e, tr.endPose = .error e ↔ tr.durationMs = .error e) ∧
    tr.course.segments.length ≤ (bytes.size - Header.length) / Record.prefixLength := by
  obtain ⟨hparsed, hbuffer⟩ := parsed_of_ofBuffer hp
  have hbytes : tr.bytes = bytes := by rw [Trajectory.bytes, hbuffer]; rfl
  have hne : tr.isEmpty = false := by
    unfold Header.length at hlen
    simp only [isEmpty, Buffer.isEmpty, Buffer.size, hbuffer, Buffer.bytes, beq_eq_false_iff_ne]
    omega
  have hhead : tr.headerLength = Header.length := (hparsed.header hne).1
  rw [← hbytes, ← hhead]
  refine ⟨fun d => durationMs_eq_ok_iff, fun rs => endPose_of_spells, fun e => ?_, fun e => ?_, ?_⟩
  · rw [durationMs_eq_error_iff, finalHold_eq_error_iff]
  · rw [endPose_eq_error_iff, durationMs_eq_error_iff]
  · have hcourse := length_course_le tr
    rw [List.length_drop, Array.length_toList] at hcourse
    rw [Nat.le_div_iff_mul_le (by decide), Nat.mul_comm]
    exact hcourse

/-- Two records behind a header, of 2000 and 1000 ms. -/
theorem walk_accepts_two_records : ∃ tr,
    ofBytes #[0x82, 50, 0, 0x9c, 0xff, 150, 0, 0xc2, 0x01, 0x01, 0xd0, 0x07, 100, 0,
      0x41, 0xe8, 0x03, 7, 0, 0x84, 0x03] = .ok tr ∧ tr.durationMs = .ok 3000 := by
  obtain ⟨tr, h⟩ : ∃ tr, ofBytes #[0x82, 50, 0, 0x9c, 0xff, 150, 0, 0xc2, 0x01, 0x01, 0xd0, 0x07,
      100, 0, 0x41, 0xe8, 0x03, 7, 0, 0x84, 0x03] = .ok tr := ⟨_, rfl⟩
  refine ⟨tr, h, ((walk_accepts_exactly_its_grammar h (by decide)).1 3000).mpr ?_⟩
  refine ⟨[⟨⟨.linear, .constant, .constant, .constant⟩, 2000, ⟨[100], [], [], []⟩⟩,
    ⟨⟨.linear, .constant, .constant, .linear⟩, 1000, ⟨[7], [], [], [900]⟩⟩], ⟨?_, ?_⟩, rfl, ?_⟩
  · decide
  · decide
  · decide

end DroneShow.Trajectory
