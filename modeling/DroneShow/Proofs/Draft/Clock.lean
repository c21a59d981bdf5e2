-- The clock of a draft. Records are appended without a look at the time that
-- those before them take, so that a draft can outgrow the clock of a walk.
import DroneShow.Proofs.Draft.Reach

namespace DroneShow.Draft

open Record (Spells totalMs)

variable {b b' : Draft} {start : Pose} {rs : List Record}

/-! ## Holds never fail -/

theorem Holds.appendSegment_last (h : b.Holds start rs) {ms : Nat} (hms : ms ≤ maxSegmentMs) :
    ∃ b', appendSegment [b.last] ms b = .ok () b' := by
  obtain ⟨raws, hraws, _⟩ := h.encodePose_last
  obtain ⟨r, hr⟩ := exists_recordOf_point hraws hms
  exact ⟨b.write r, appendSegment_eq_ok_iff.mpr ⟨r, hr, rfl⟩⟩

theorem Holds.holdPieces (h : b.Holds start rs) (pieces ms : Nat) :
    ∃ b', holdPieces pieces ms b = .ok () b' := by
  induction pieces generalizing b rs ms with
  | zero => exact ⟨b, rfl⟩
  | succ pieces ih =>
    rw [holdPieces_succ]
    split
    · exact ⟨b, rfl⟩
    · obtain ⟨b', hb'⟩ := h.appendSegment_last (Nat.min_le_right ms maxSegmentMs)
      obtain ⟨more, hmore, _⟩ := ((adds_segment _ _ b).ok b' hb').holds h
      rw [hb']
      exact ih hmore (ms - min ms maxSegmentMs)

theorem Holds.hold (h : b.Holds start rs) (ms : Nat) : ∃ b', hold ms b = .ok () b' :=
  h.holdPieces _ ms

/-! ## Calls that succeed -/

/-- The milliseconds that a call asks for. -/
def Call.ms : Call → Nat
  | .line _ ms | .cubic _ _ _ ms | .segment _ ms | .hold ms => ms
  | .setStart _ | .finish => 0

/-- The milliseconds in the draft after a call, if there were `ms` before it. -/
def Call.clock (ms : Nat) : Call → Nat
  | .finish => 0
  | c => ms + c.ms

/-- Calls in a row. The first fault ends them. -/
def runAll : List Call → Edit Unit
  | [] => pure ()
  | c :: cs => fun b => andThen (c.run b) (runAll cs)

/-- The milliseconds that calls leave in a fresh draft. -/
def clock (calls : List Call) : Nat := calls.foldl Call.clock 0

theorem Adds.holds_ok {ms : Nat} {result : EStateM.Result Fault Draft Unit} (h : Adds ms b result)
    (hb : b.Holds start rs) (hres : result = .ok () b') :
    ∃ start' rs', b'.Holds start' rs' ∧ totalMs rs' = totalMs rs + ms := by
  obtain ⟨more, hmore, hms⟩ := (h.ok b' hres).holds hb
  exact ⟨start, rs ++ more, hmore, by rw [Record.totalMs_append, hms]⟩

/-- A call that succeeds moves the clock by what it asks for. -/
theorem Holds.call_ok (h : b.Holds start rs) {c : Call} (hc : c.run b = .ok () b') :
    ∃ start' rs', b'.Holds start' rs' ∧ totalMs rs' = c.clock (totalMs rs) := by
  cases c with
  | setStart p =>
    rcases h.setStart p with hsame | ⟨rfl, b'', hb'', hholds⟩
    · have hb' : b' = b := by
        rw [← hsame]
        exact (congrArg left hc).symm
      exact ⟨start, rs, by rwa [hb'], rfl⟩
    · rw [Call.run, hb''] at hc
      cases hc
      exact ⟨_, [], hholds, rfl⟩
  | line target ms => exact (adds_line target ms b).holds_ok h hc
  | cubic control₁ control₂ target ms =>
    exact (adds_segment [control₁, control₂, target] ms b).holds_ok h hc
  | segment points ms => exact (adds_segment points ms b).holds_ok h hc
  | hold ms => exact (adds_hold ms b).holds_ok h hc
  | finish =>
    obtain ⟨b'', hfinish, hholds, _⟩ := h.finish
    rw [Call.run_finish hfinish] at hc
    cases hc
    exact ⟨_, [], hholds, rfl⟩

theorem Holds.runAll_ok (h : b.Holds start rs) {calls : List Call}
    (hcalls : runAll calls b = .ok () b') :
    ∃ start' rs', b'.Holds start' rs' ∧ totalMs rs' = calls.foldl Call.clock (totalMs rs) := by
  induction calls generalizing b start rs with
  | nil =>
    cases hcalls
    exact ⟨start, rs, h, rfl⟩
  | cons c calls ih =>
    obtain ⟨b'', hc, hrest⟩ := andThen_eq_ok_iff.mp hcalls
    obtain ⟨start'', rs'', hb'', hms⟩ := h.call_ok hc
    rw [List.foldl_cons, ← hms]
    exact ih hb'' hrest

/-- Calls that all succeed leave a walkable trajectory just when the time that
they ask for fits the clock. -/
theorem walkable_iff_clock {scale : Nat} {yawEnabled : Bool} {calls : List Call} {b₀ : Draft}
    (hnew : new scale yawEnabled = .ok b₀) (hcalls : runAll calls b₀ = .ok () b) :
    ∃ tr b', finish b = .ok tr b' ∧ (tr.Walkable ↔ clock calls ≤ timeLimit) := by
  obtain ⟨start, rs, hb, hms⟩ := (holds_of_new hnew).1.runAll_ok hcalls
  obtain ⟨b', hfinish, _⟩ := hb.finish
  refine ⟨b.built start, b', hfinish, ?_⟩
  rw [Trajectory.walkable_iff_of_spells hb.records, hms]
  rfl

end DroneShow.Draft
