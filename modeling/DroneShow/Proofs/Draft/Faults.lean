-- Where calls on a draft can fail. All faults lie before the first write: a
-- segment is stored in whole or not at all, and a line that is halved many
-- times meets only points that can be stored, once its target can.
import DroneShow.Proofs.Draft.Clock
import DroneShow.Proofs.Record.Encoding

namespace DroneShow

theorem Pose.get_midpoint (p q : Pose) (axis : Axis) :
    (p.midpoint q).get axis = (p.get axis + q.get axis) / 2 := by
  cases axis <;> rfl

namespace Draft

variable {b b' : Draft} {start target : Pose} {rs : List Record} {raws : Axes Int} {ms : Nat}
  {e : Fault}

/-! ## Lines -/

/-- Halfway from the last pose to one that can be stored, a pose can be stored. -/
theorem Holds.exists_encodePose_midpoint (h : b.Holds start rs)
    (htarget : Quantum.encodePose b.scale target = .ok raws) :
    ∃ raws', Quantum.encodePose b.scale (b.last.midpoint target) = .ok raws' := by
  refine Axes.exists_ofFnM fun axis => ?_
  rw [Pose.get_midpoint, h.last_eq, Quantum.get_decodePose]
  exact Quantum.exists_encode_half_sum h.scale.1 h.scale.2 (h.stored axis)
    (Quantum.encodePose_eq_ok_iff.mp htarget axis)

/-- The parts of a line to a target that can be stored are all appended. The
second half starts at a pose that was rounded, but for the same target. -/
theorem Holds.appendParts (h : b.Holds start rs) (depth : Nat)
    (htarget : Quantum.encodePose b.scale target = .ok raws) (hms : ms ≤ maxSegmentMs * 2 ^ depth) :
    ∃ b', appendParts depth target ms b = .ok () b' := by
  induction depth generalizing b rs target raws ms with
  | zero =>
    obtain ⟨r, hr⟩ := exists_recordOf_point htarget (by simpa using hms)
    exact ⟨b.write r, appendSegment_eq_ok_iff.mpr ⟨r, hr, rfl⟩⟩
  | succ depth ih =>
    rw [appendParts_succ]
    split
    · rename_i hshort
      obtain ⟨r, hr⟩ := exists_recordOf_point htarget hshort
      exact ⟨b.write r, appendSegment_eq_ok_iff.mpr ⟨r, hr, rfl⟩⟩
    · rw [pow_succ, ← Nat.mul_assoc] at hms
      obtain ⟨middle, hmiddle⟩ := h.exists_encodePose_midpoint htarget
      obtain ⟨b₁, hfirst⟩ := ih h hmiddle (show ms / 2 ≤ maxSegmentMs * 2 ^ depth by omega)
      have hgrows := (adds_parts depth _ _ b).ok b₁ hfirst
      obtain ⟨more, hmore, -⟩ := hgrows.holds h
      obtain ⟨b₂, hsecond⟩ := ih hmore (hgrows.scale ▸ htarget)
        (show ms - ms / 2 ≤ maxSegmentMs * 2 ^ depth by omega)
      exact ⟨b₂, andThen_eq_ok_iff.mpr ⟨b₁, hfirst, hsecond⟩⟩

/-- A line is appended whenever its target can be stored, whatever time it
takes; otherwise nothing of it is. -/
theorem Holds.appendLine (h : b.Holds start rs) (target : Pose) (ms : Nat) :
    (∃ raws b', Quantum.encodePose b.scale target = .ok raws ∧
      appendLine target ms b = .ok () b') ∨
    ∃ e, Quantum.encodePose b.scale target = .error e ∧ appendLine target ms b = .error e b := by
  unfold Draft.appendLine
  cases htarget : Quantum.encodePose b.scale target with
  | error e => exact .inr ⟨e, rfl, rfl⟩
  | ok raws =>
    obtain ⟨b', hparts⟩ := h.appendParts (ms.log2 + 1) htarget (le_maxSegmentMs_mul ms)
    exact .inl ⟨raws, b', rfl, hparts⟩

/-! ## Calls -/

theorem eq_of_appendSegment_error {points : List Pose} (h : appendSegment points ms b = .error e b') :
    b' = b := by
  unfold appendSegment at h
  cases hr : b.recordOf points ms with
  | error e' =>
    rw [hr] at h
    cases h
    rfl
  | ok r =>
    rw [hr] at h
    cases h

theorem Holds.eq_of_call_error (h : b.Holds start rs) {c : Call} (hc : c.run b = .error e b') :
    b' = b := by
  cases c with
  | setStart p =>
    rcases h.setStart p with hsame | ⟨-, b'', hb'', -⟩
    · rw [← hsame]
      exact (congrArg left hc).symm
    · cases hc.symm.trans hb''
  | line target ms =>
    rcases h.appendLine target ms with ⟨-, b'', -, hline⟩ | ⟨e', -, hline⟩
    · cases hc.symm.trans hline
    · cases hc.symm.trans hline
      rfl
  | cubic control₁ control₂ target ms => exact eq_of_appendSegment_error hc
  | segment points ms => exact eq_of_appendSegment_error hc
  | hold ms =>
    obtain ⟨b'', hhold⟩ := h.hold ms
    cases hc.symm.trans hhold
  | finish =>
    obtain ⟨b'', hfinish, -⟩ := h.finish
    cases hc.symm.trans (Call.run_finish hfinish)

/-- A call that fails leaves the draft as it was, the bytes as well as the last
pose and its stored values. A line fails only where its target cannot be stored,
and with the fault of that, however often it has to be halved. -/
theorem failed_call_changes_nothing (h : b.Reachable) :
    (∀ (c : Call) (e : Fault) (b' : Draft), c.run b = .error e b' → b' = b) ∧
    ∀ (target : Pose) (ms : Nat) (e : Fault), (∃ b', (Call.line target ms).run b = .error e b') ↔
      Quantum.encodePose b.scale target = .error e := by
  obtain ⟨start, rs, hb⟩ := h.holds
  refine ⟨fun c e b' hc => hb.eq_of_call_error hc, fun target ms e => ?_⟩
  rcases hb.appendLine target ms with ⟨raws, b', htarget, hline⟩ | ⟨e', htarget, hline⟩
  · rw [htarget]
    constructor
    · rintro ⟨b'', hfails⟩
      cases hfails.symm.trans hline
    · intro hfails
      cases hfails
  · rw [htarget]
    constructor
    · rintro ⟨b'', hfails⟩
      cases hfails.symm.trans hline
      rfl
    · intro hfails
      cases hfails
      exact ⟨b, hline⟩

/-- A line of many parts that ends beyond what can be stored is not begun. One
that turns by the greatest angle there is can be stored in all its parts. -/
theorem a_line_too_far_is_not_begun : ∃ b b', b.Reachable ∧
    (Call.line ⟨40000, 0, 0, 0⟩ 500000).run b = .error .coordinateRange b ∧
    (Call.line ⟨100, 0, 0, Binary.ofBits 0x7f7fffff⟩ 500000).run b = .ok () b' := by
  obtain ⟨b, hb, hrange, hturns⟩ : ∃ b, Draft.new 1 true = .ok b ∧
      Quantum.encodePose b.scale ⟨40000, 0, 0, 0⟩ = .error .coordinateRange ∧
      (answer ((Call.line ⟨100, 0, 0, Binary.ofBits 0x7f7fffff⟩ 500000).run b)).isOk = true :=
    ⟨_, rfl, by decide +kernel, by decide +kernel⟩
  have hreach := Reachable.new hb
  obtain ⟨hsame, hline⟩ := failed_call_changes_nothing hreach
  obtain ⟨b', hfails⟩ := (hline ⟨40000, 0, 0, 0⟩ 500000 .coordinateRange).mpr hrange
  cases hsame _ _ _ hfails
  exact ⟨b, _, hreach, hfails, eq_ok_left hturns⟩

end Draft

end DroneShow
