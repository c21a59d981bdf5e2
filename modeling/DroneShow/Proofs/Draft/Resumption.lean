-- Going on with a trajectory that was handed over. What a draft knows besides
-- its bytes is told by these: its last pose is where they end, and the stored
-- values of that pose are those that it would be stored with again.
import DroneShow.Proofs.Draft.Descent

namespace DroneShow

namespace Quantum

variable {scale : Nat} {axis : Axis} {v : Single} {raw : Int}

/-- Values that were stored for something are stored without loss of turns. -/
theorem canonical_of_encode (h : encode scale axis v = .ok raw) : canonical axis raw = raw := by
  cases axis with
  | x => rfl
  | y => rfl
  | z => rfl
  | yaw =>
    simp only [encode, encodeYaw] at h
    split at h
    · cases h
    · cases h
      exact Int.emod_emod_of_dvd _ (dvd_refl fullTurn)

theorem encode_decode_of_encode (hpos : 0 < scale) (hs : scale ≤ 127)
    (h : encode scale axis v = .ok raw) : encode scale axis (decode scale axis raw) = .ok raw := by
  rw [encode_decode hpos hs (stored_of_encode h), canonical_of_encode h]

end Quantum

namespace Draft

open Record (Spells totalMs)

variable {b b' : Draft} {start p : Pose} {rs : List Record} {ms : Nat} {tr : Trajectory}

/-! ## Stored values -/

/-- The stored values of the last pose were stored for something. -/
def Encoded (b : Draft) : Prop :=
  ∀ axis, ∃ v, Quantum.encode b.scale axis v = .ok (b.lastRaw.get axis)

/-- Where the last stored values were stored for something, they are stored for
the last pose itself. -/
theorem Encoded.settled (he : b.Encoded) (h : b.Holds start rs) : b.Settled := by
  refine ⟨h.scale, ?_, h.last_eq⟩
  rw [Quantum.encodePose_eq_ok_iff]
  intro axis
  obtain ⟨v, hv⟩ := he axis
  rw [h.last_eq, Quantum.get_decodePose]
  exact Quantum.encode_decode_of_encode h.scale.1 h.scale.2 hv

theorem encoded_of_setLast (h : setLast p b = .ok () b') : b'.Encoded := by
  unfold setLast at h
  cases hraws : Quantum.encodePose b.scale p with
  | error e =>
    rw [hraws] at h
    cases h
  | ok raws =>
    rw [hraws] at h
    cases h
    exact fun axis => ⟨_, Quantum.encodePose_eq_ok_iff.mp hraws axis⟩

theorem encoded_of_reset (h : reset p b = .ok () b') : b'.Encoded := by
  unfold reset at h
  split at h
  · cases h
  · exact encoded_of_setLast h

theorem encoded_of_finish (h : finish b = .ok tr b') : b'.Encoded := by
  unfold finish takeBytes at h
  cases hreset : reset b.last { b with bytes := #[] } with
  | error e b'' =>
    simp only [hreset] at h
    cases h
  | ok _ b'' =>
    simp only [hreset] at h
    split at h
    · cases h
    · cases h
      exact encoded_of_reset hreset

theorem Encoded.write {r : Record} {points : List Pose} (h : b.Encoded)
    (hr : b.recordOf points ms = .ok r) : (b.write r).Encoded := by
  intro axis
  rw [scale_write, get_lastRaw_write]
  cases hlast : (r.raws.get axis).getLast? with
  | none => exact h axis
  | some raw =>
    obtain ⟨-, hstays, hmoves⟩ := axis_of_recordOf hr axis
    have hmem := List.mem_of_getLast? hlast
    have hmove : ¬ b.Stays points axis := by
      intro hstay
      rw [hstays hstay] at hmem
      cases hmem
    obtain ⟨q, -, hq⟩ := exists_of_mem_mapM (hmoves hmove) hmem
    exact ⟨_, hq⟩

theorem Encoded.grows (h : b.Encoded) (hgrows : Grows ms b b') : b'.Encoded := by
  induction hgrows with
  | refl b => exact h
  | append _ happend ih =>
    obtain ⟨r, hr, rfl⟩ := appendSegment_eq_ok_iff.mp happend
    exact (ih h).write hr

/-- Each call stores what it stores for something. -/
theorem Encoded.call (he : b.Encoded) (h : b.Holds start rs) (c : Call) :
    (left (c.run b)).Encoded := by
  have hadds : ∀ {ms result}, Adds ms b result → (DroneShow.left result).Encoded := by
    intro ms result hadds
    obtain ⟨part, hgrows⟩ := hadds.left
    exact he.grows hgrows
  cases c with
  | setStart p =>
    rcases h.setStart p with hsame | ⟨-, b', hb', -⟩
    · rwa [Call.run, hsame]
    · rw [Call.run, hb']
      unfold Draft.setStart at hb'
      split at hb'
      · cases hb'
      · exact encoded_of_reset hb'
  | line target ms => exact hadds (adds_line target ms b)
  | cubic control₁ control₂ target ms =>
    exact hadds (adds_segment [control₁, control₂, target] ms b)
  | segment points ms => exact hadds (adds_segment points ms b)
  | hold ms => exact hadds (adds_hold ms b)
  | finish =>
    obtain ⟨b', hfinish, -⟩ := h.finish
    rw [Call.run_finish hfinish]
    exact encoded_of_finish hfinish

theorem Reachable.encoded (h : b.Reachable) : b.Encoded := by
  induction h with
  | new hnew =>
    unfold Draft.new at hnew
    split at hnew
    · cases hnew
    · obtain ⟨_, hrun, hb⟩ := bind_eq_ok_iff.mp hnew
      cases hb
      exact encoded_of_reset (run_eq_ok_iff.mp hrun)
  | resumed _ hresume =>
    unfold ofTrajectory at hresume
    split at hresume
    · cases hresume
    · obtain ⟨_, -, hresume⟩ := bind_eq_ok_iff.mp hresume
      obtain ⟨_, hrun, hb⟩ := bind_eq_ok_iff.mp hresume
      cases hb
      exact encoded_of_setLast (run_eq_ok_iff.mp hrun)
  | call c hb ih =>
    obtain ⟨start, rs, hholds⟩ := hb.holds
    exact ih.call hholds c

/-! ## Resuming -/

/-- A draft at rest is what the trajectory in it is resumed as, if that ends in time. -/
theorem Holds.ofTrajectory_built (h : b.Holds start rs) (hb : b.Settled)
    (hms : totalMs rs ≤ timeLimit) : ofTrajectory (b.built start) = .ok b := by
  have hend : (b.built start).endPose = .ok b.last := by
    rw [Trajectory.endPose, h.finalHold hms]
    rfl
  have hne : (b.built start).isEmpty = false := Trajectory.isEmpty_of_decode h.header
  have hraws : Quantum.encodePose (b.built start).scale b.last = .ok b.lastRaw := hb.encode
  rw [ofTrajectory_eq_ok hne hend hraws]
  show Except.ok (⟨b.bytes, b.scale, b.yawEnabled, Quantum.decodePose b.scale b.lastRaw,
    b.lastRaw⟩ : Draft) = .ok b
  rw [← hb.decode]

/-! ## Sessions -/

/-- What a call answers: the trajectory, where it hands one over. -/
def Call.reply : Call → Draft → Except Fault (Option Trajectory)
  | .finish, b => (answer (Draft.finish b)).map some
  | c, b => (answer (c.run b)).map fun _ => none

/-- What calls in a row answer, whether they succeed or fail, and the draft
that they leave. -/
def session : List Call → Draft → List (Except Fault (Option Trajectory)) × Draft
  | [], b => ([], b)
  | c :: calls, b =>
    let (answers, last) := session calls (left (c.run b))
    (c.reply b :: answers, last)

theorem Reachable.session (h : b.Reachable) (calls : List Call) :
    (session calls b).2.Reachable := by
  induction calls generalizing b with
  | nil => exact h
  | cons c calls ih => exact ih (h.call c)

/-- Resuming equals never having stopped. Calls leave a draft, and the records
in it fit the clock. Then the trajectory that it hands over can be gone on with,
and whatever calls follow, they answer the same, hand over the same trajectories
and leave the same draft as they do without the break. -/
theorem resuming_equals_never_stopping {scale : Nat} {yawEnabled : Bool} {b₀ : Draft}
    (before : List Call) (hnew : new scale yawEnabled = .ok b₀)
    (hrs : Spells rs ((session before b₀).2.bytes.toList.drop Header.length))
    (hms : totalMs rs ≤ timeLimit) :
    ∃ tr b' resumed, finish (session before b₀).2 = .ok tr b' ∧ ofTrajectory tr = .ok resumed ∧
      ∀ after, session after resumed = session after (session before b₀).2 := by
  have hreach := (Reachable.new hnew).session before
  generalize (session before b₀).2 = b at hreach hrs ⊢
  obtain ⟨start, rs', hholds⟩ := hreach.holds
  obtain ⟨b', hfinish, -⟩ := hholds.finish
  have hwalk : (b.built start).Walkable := (Trajectory.walkable_iff_of_spells hrs).mpr hms
  have hms' := (Trajectory.walkable_iff_of_spells hholds.records).mp hwalk
  have hresume := hholds.ofTrajectory_built (hreach.encoded.settled hholds) hms'
  exact ⟨b.built start, b', b, hfinish, hresume, fun _ => rfl⟩

/-- A line of two turns in two parts and a start that comes too late. The next
line goes on from there as it does without a break. -/
theorem a_line_goes_on_after_a_break : ∃ b₀ tr b' resumed, Draft.new 2 true = .ok b₀ ∧
    finish (session [.line ⟨100, 0, 0, 725⟩ 70000, .setStart Pose.origin] b₀).2 = .ok tr b' ∧
    ofTrajectory tr = .ok resumed ∧
    session [.line Pose.origin 1500, .finish] resumed =
      session [.line Pose.origin 1500, .finish]
        (session [.line ⟨100, 0, 0, 725⟩ 70000, .setStart Pose.origin] b₀).2 := by
  obtain ⟨b₀, hnew, hwellFormed, hbytes⟩ : ∃ b₀, Draft.new 2 true = .ok b₀ ∧
      (∀ r ∈ [Record.mk ⟨.linear, .constant, .constant, .linear⟩ 35000 ⟨[25], [], [], [25]⟩,
        Record.mk ⟨.linear, .constant, .constant, .linear⟩ 35000 ⟨[50], [], [], [50]⟩],
        r.WellFormed) ∧
      (session [.line ⟨100, 0, 0, 725⟩ 70000, .setStart Pose.origin] b₀).2.bytes.toList.drop
        Header.length = Record.spellAll
          [⟨⟨.linear, .constant, .constant, .linear⟩, 35000, ⟨[25], [], [], [25]⟩⟩,
            ⟨⟨.linear, .constant, .constant, .linear⟩, 35000, ⟨[50], [], [], [50]⟩⟩] :=
    ⟨_, rfl, by decide, by decide +kernel⟩
  obtain ⟨tr, b', resumed, hfinish, hresume, hsame⟩ :=
    resuming_equals_never_stopping _ hnew ⟨hwellFormed, hbytes⟩ (by decide)
  exact ⟨b₀, tr, b', resumed, hnew, hfinish, hresume, hsame _⟩

end Draft

end DroneShow
