-- Drafts without yaw. Their records store no angle, so a draft never looks at
-- the angles of what is appended: runs of calls that differ only in these give
-- the same answers and the same bytes.
import DroneShow.Proofs.Draft.Faults
import DroneShow.Proofs.Draft.Resumption

namespace DroneShow

/-! ## Poses at one place -/

namespace Pose

/-- The poses are at the same place, whichever way they face. -/
structure SamePlace (p q : Pose) : Prop where
  x : p.x = q.x
  y : p.y = q.y
  z : p.z = q.z

/-- The poses are the same but for their angles, which are finite where they differ. -/
structure SameButYaw (p q : Pose) : Prop where
  place : p.SamePlace q
  yaw : p.yaw = q.yaw ∨ p.yaw.isFinite = true ∧ q.yaw.isFinite = true

variable {p q : Pose}

theorem SamePlace.get (h : p.SamePlace q) {axis : Axis} (hne : axis ≠ .yaw) :
    p.get axis = q.get axis := by
  cases axis with
  | x => exact h.x
  | y => exact h.y
  | z => exact h.z
  | yaw => exact absurd rfl hne

theorem SamePlace.midpoint (h : p.SamePlace q) (start : Pose) :
    (start.midpoint p).SamePlace (start.midpoint q) := by
  have hget : ∀ axis, axis ≠ .yaw → (start.midpoint p).get axis = (start.midpoint q).get axis := by
    intro axis hne
    rw [get_midpoint, get_midpoint, h.get hne]
  exact ⟨hget .x (by decide), hget .y (by decide), hget .z (by decide)⟩

/-- Whether a pose can be stored, and the fault if not, does not depend on a finite angle. -/
theorem SameButYaw.encodePose (h : p.SameButYaw q) (scale : Nat) :
    (Quantum.encodePose scale p).map (fun _ => ()) =
      (Quantum.encodePose scale q).map (fun _ => ()) := by
  rcases h.yaw with hyaw | ⟨hp, hq⟩
  · rw [show p = q from Axes.ext h.place.x h.place.y h.place.z hyaw]
  · obtain ⟨k, hk⟩ := Quantum.exists_encodeYaw hp
    obtain ⟨l, hl⟩ := Quantum.exists_encodeYaw hq
    simp only [Quantum.encodePose, Axes.ofFnM, Axes.get, Quantum.encode, h.place.x, h.place.y,
      h.place.z, hk, hl]
    cases Quantum.encodeCoordinate scale q.x with
    | error e => rfl
    | ok x =>
      cases Quantum.encodeCoordinate scale q.y with
      | error e => rfl
      | ok y => cases Quantum.encodeCoordinate scale q.z <;> rfl

end Pose

namespace Draft

open Pose (SamePlace)

variable {b b' : Draft} {p q : Pose} {points points' : List Pose} {ms : Nat}

/-! ## What an append looks at -/

theorem encodePoints_samePlace (hyaw : b.yawEnabled = false)
    (h : List.Forall₂ SamePlace points points') :
    b.encodePoints points = b.encodePoints points' := by
  unfold encodePoints
  congr 1
  funext axis
  by_cases haxis : axis = .yaw
  · subst haxis
    rw [show b.stores .yaw = false from hyaw, if_neg Bool.false_ne_true, if_neg Bool.false_ne_true]
  · congr 1
    induction h with
    | nil => rfl
    | cons hp _ ih => rw [List.mapM_cons, List.mapM_cons, hp.get haxis, ih]

theorem appendSegment_samePlace (hyaw : b.yawEnabled = false)
    (h : List.Forall₂ SamePlace points points') :
    appendSegment points ms b = appendSegment points' ms b := by
  unfold appendSegment recordOf
  rw [h.length_eq, encodePoints_samePlace hyaw h]

/-- Appends to a draft without yaw leave it without, and its last angle as it was. -/
theorem Grows.yaw (h : Grows ms b b') (hyaw : b.yawEnabled = false) :
    b'.yawEnabled = false ∧ b'.last.yaw = b.last.yaw ∧ b'.lastRaw.yaw = b.lastRaw.yaw := by
  induction h with
  | refl b => exact ⟨hyaw, rfl, rfl⟩
  | @append b b' b'' points ms n _ happend ih =>
    obtain ⟨hoff, hlast, hraw⟩ := ih hyaw
    obtain ⟨r, hr, rfl⟩ := appendSegment_eq_ok_iff.mp happend
    have hnone : r.raws.get .yaw = [] := (axis_of_recordOf hr .yaw).2.1 (.inl ⟨rfl, hoff⟩)
    have hlast' := get_last_write b' r .yaw
    have hraw' := get_lastRaw_write b' r .yaw
    rw [hnone] at hlast' hraw'
    exact ⟨hoff, hlast'.trans hlast, hraw'.trans hraw⟩

/-- The parts of a line are the same for all targets at one place, by induction on how often
it is halved: the midpoints are at one place as well. -/
theorem appendParts_samePlace (hyaw : b.yawEnabled = false) (h : p.SamePlace q) (depth ms : Nat) :
    appendParts depth p ms b = appendParts depth q ms b := by
  induction depth generalizing b p q ms with
  | zero => exact appendSegment_samePlace hyaw (.cons h .nil)
  | succ depth ih =>
    rw [appendParts_succ, appendParts_succ]
    split
    · exact appendSegment_samePlace hyaw (.cons h .nil)
    · rw [ih hyaw (h.midpoint b.last) (ms / 2)]
      cases hfirst : appendParts depth (b.last.midpoint q) (ms / 2) b with
      | error e b' => rfl
      | ok _ b' =>
        have hgrows := (adds_parts depth (b.last.midpoint q) (ms / 2) b).ok b' hfirst
        exact ih (hgrows.yaw hyaw).1 h (ms - ms / 2)

theorem appendLine_sameButYaw (hyaw : b.yawEnabled = false) (h : p.SameButYaw q) (ms : Nat) :
    appendLine p ms b = appendLine q ms b := by
  have hstored := h.encodePose b.scale
  unfold appendLine
  cases hp : Quantum.encodePose b.scale p with
  | error e =>
    cases hq : Quantum.encodePose b.scale q with
    | error e' =>
      rw [hp, hq] at hstored
      cases hstored
      rfl
    | ok raws =>
      rw [hp, hq] at hstored
      cases hstored
  | ok raws =>
    cases hq : Quantum.encodePose b.scale q with
    | error e' =>
      rw [hp, hq] at hstored
      cases hstored
    | ok raws' => exact appendParts_samePlace hyaw h.place _ ms

/-! ## Appends -/

/-- Two calls append lines, cubic curves or segments that are the same but for the angles. -/
inductive Call.SameButYaw : Call → Call → Prop
  | line {p q : Pose} (ms : Nat) : p.SameButYaw q → SameButYaw (.line p ms) (.line q ms)
  | cubic {p₁ p₂ p q₁ q₂ q : Pose} (ms : Nat) : p₁.SameButYaw q₁ → p₂.SameButYaw q₂ →
    p.SameButYaw q → SameButYaw (.cubic p₁ p₂ p ms) (.cubic q₁ q₂ q ms)
  | segment {points points' : List Pose} (ms : Nat) :
    List.Forall₂ Pose.SameButYaw points points' →
    SameButYaw (.segment points ms) (.segment points' ms)

variable {c c' : Call}

theorem Call.SameButYaw.run (h : c.SameButYaw c') (hyaw : b.yawEnabled = false) :
    c.run b = c'.run b := by
  cases h with
  | line ms hp => exact appendLine_sameButYaw hyaw hp ms
  | cubic ms h₁ h₂ hp =>
    exact appendSegment_samePlace hyaw (.cons h₁.place (.cons h₂.place (.cons hp.place .nil)))
  | segment ms hpoints => exact appendSegment_samePlace hyaw (hpoints.imp fun _ _ h => h.place)

theorem Call.SameButYaw.reply (h : c.SameButYaw c') (hyaw : b.yawEnabled = false) :
    c.reply b = c'.reply b := by
  have hrun := h.run hyaw
  cases h <;> exact congrArg (fun result => (answer result).map fun _ => none) hrun

/-- Such a call only lets the draft grow, also where it fails. -/
theorem Call.SameButYaw.grows (h : c.SameButYaw c') (b : Draft) :
    ∃ part, Grows part b (left (c.run b)) := by
  cases h with
  | line ms hp => exact (adds_line _ ms b).left
  | cubic ms h₁ h₂ hp => exact (adds_segment [_, _, _] ms b).left
  | segment ms hpoints => exact (adds_segment _ ms b).left

/-- Angles that are not stored leave no trace. Two runs of appends to a draft without yaw that
differ only in finite angles give the same answers, faults included, and leave the same draft,
bytes included. Its last angle is the one from before the first append. -/
theorem unused_yaw_leaves_no_trace {calls calls' : List Call} (hyaw : b.yawEnabled = false)
    (h : List.Forall₂ Call.SameButYaw calls calls') :
    session calls b = session calls' b ∧ (session calls b).2.last.yaw = b.last.yaw ∧
      (session calls b).2.lastRaw.yaw = b.lastRaw.yaw := by
  induction h generalizing b with
  | nil => exact ⟨rfl, rfl, rfl⟩
  | @cons c c' calls calls' hc _ ih =>
    obtain ⟨part, hgrows⟩ := hc.grows b
    obtain ⟨hoff, hlast, hraw⟩ := hgrows.yaw hyaw
    obtain ⟨hsame, hlast', hraw'⟩ := ih hoff
    refine ⟨?_, hlast'.trans hlast, hraw'.trans hraw⟩
    unfold session
    rw [hsame, hc.run hyaw, hc.reply hyaw]

/-- A line of four parts, once to the greatest angle there is, and a curve that leaves the range
on y, so that the second call fails in both runs. -/
theorem a_line_without_yaw_keeps_facing : ∃ b last, new 2 false = .ok b ∧
    session [.line ⟨100, 0, 7, Binary.ofBits 0x7f7fffff⟩ 130001,
      .cubic ⟨0, 0, 0, 45⟩ ⟨0, 70000, 0, 0⟩ ⟨0, 0, 0, -725⟩ 4000] b =
        ([.ok none, .error .coordinateRange], last) ∧
    session [.line ⟨100, 0, 7, 0⟩ 130001,
      .cubic ⟨0, 0, 0, 0⟩ ⟨0, 70000, 0, 90⟩ ⟨0, 0, 0, 0⟩ 4000] b =
        ([.ok none, .error .coordinateRange], last) ∧
    last.lastRaw = ⟨50, 0, 4, 0⟩ ∧ last.last.yaw = b.last.yaw := by
  obtain ⟨b, hnew, hanswers, hraws⟩ : ∃ b, new 2 false = .ok b ∧
      (session [.line ⟨100, 0, 7, 0⟩ 130001,
        .cubic ⟨0, 0, 0, 0⟩ ⟨0, 70000, 0, 90⟩ ⟨0, 0, 0, 0⟩ 4000] b).1 =
          [.ok none, .error .coordinateRange] ∧
      (session [.line ⟨100, 0, 7, 0⟩ 130001,
        .cubic ⟨0, 0, 0, 0⟩ ⟨0, 70000, 0, 90⟩ ⟨0, 0, 0, 0⟩ 4000] b).2.lastRaw = ⟨50, 0, 4, 0⟩ :=
    ⟨_, rfl, by decide +kernel, by decide +kernel⟩
  have hyaw : b.yawEnabled = false := (holds_of_new hnew).2.2
  have hcalls : List.Forall₂ Call.SameButYaw
      [.line ⟨100, 0, 7, Binary.ofBits 0x7f7fffff⟩ 130001,
        .cubic ⟨0, 0, 0, 45⟩ ⟨0, 70000, 0, 0⟩ ⟨0, 0, 0, -725⟩ 4000]
      [.line ⟨100, 0, 7, 0⟩ 130001,
        .cubic ⟨0, 0, 0, 0⟩ ⟨0, 70000, 0, 90⟩ ⟨0, 0, 0, 0⟩ 4000] :=
    .cons (.line _ ⟨⟨rfl, rfl, rfl⟩, .inr (by decide)⟩)
      (.cons (.cubic _ ⟨⟨rfl, rfl, rfl⟩, .inr (by decide)⟩ ⟨⟨rfl, rfl, rfl⟩, .inr (by decide)⟩
        ⟨⟨rfl, rfl, rfl⟩, .inr (by decide)⟩) .nil)
  obtain ⟨hsame, hlast, -⟩ := unused_yaw_leaves_no_trace hyaw hcalls
  exact ⟨b, _, hnew, hsame.trans (Prod.ext hanswers rfl), Prod.ext hanswers rfl, hraws,
    (congrArg (·.2.last.yaw) hsame).symm.trans hlast⟩

end Draft

end DroneShow
