-- The clock of a landing. The descent goes behind the cut without a look at
-- the time flown before it, so that a landing, too, can outgrow the clock.
import DroneShow.Proofs.Draft.Clock
import DroneShow.Proofs.Trajectory.Cut
import DroneShow.Trajectory.Landing

namespace DroneShow

open Record (Spells totalMs)

namespace Trajectory

variable {tr tr' cut : Trajectory} {velocity : Single}

/-- The milliseconds that a landing adds: none where nothing is left to descend. -/
def landingMs (descent velocity : Single) : Except Fault Nat :=
  if 0 < descent then descentMs descent velocity else .ok 0

theorem descend_ok {ground : Single} {b b' : Draft} (h : descend ground velocity b = .ok () b') :
    ∃ ms, landingMs (b.last.z - ground) velocity = .ok ms ∧ Draft.Grows ms b b' := by
  unfold descend at h
  unfold landingMs
  simp only at h
  split at h
  · rename_i hpos
    rw [if_pos hpos]
    rcases hms : descentMs (b.last.z - ground) velocity with e | ms
    · rw [hms] at h
      cases h
    · rw [hms] at h
      exact ⟨ms, rfl, (Draft.adds_line _ ms b).ok b' h⟩
  · rename_i hpos
    cases h
    rw [if_neg hpos]
    exact ⟨0, rfl, .refl b⟩

/-- A landing succeeds whether or not the time of the descent fits the clock. -/
theorem landed_ok (hp : tr.Parsed) (h : tr.landed velocity = .ok tr') :
    ∃ flown p ms, tr.durationMs = .ok flown ∧ tr.endPose = .ok p ∧
      landingMs (p.z - tr.start.z) velocity = .ok ms ∧ (tr'.Walkable ↔ flown + ms ≤ timeLimit) := by
  unfold landed at h
  obtain ⟨b, hb, h⟩ := bind_eq_ok_iff.mp h
  obtain ⟨⟨_, b'⟩, hdescend, h⟩ := bind_eq_ok_iff.mp h
  obtain ⟨⟨built, b''⟩, hfinish, h⟩ := bind_eq_ok_iff.mp h
  cases h
  rw [Draft.run_eq_ok_iff] at hdescend hfinish
  obtain ⟨rs, hholds, _, _, hflown, hend⟩ := Draft.holds_of_ofTrajectory hp hb
  obtain ⟨ms, hms, hgrows⟩ := descend_ok hdescend
  obtain ⟨more, hmore, htotal⟩ := hgrows.holds hholds
  obtain ⟨b₃, hfinish', _⟩ := hmore.finish
  rw [hfinish'] at hfinish
  cases hfinish
  refine ⟨_, _, ms, hflown, hend, hms, ?_⟩
  rw [walkable_iff_of_spells hmore.records, Record.totalMs_append, htotal]

theorem replaceEndByLanding_ok {summary : Summary} (hp : tr.Parsed)
    (h : replaceEndByLanding summary velocity tr = .ok () tr') :
    ∃ cut flown p ms, cutAt summary.landingSec tr = .ok () cut ∧ cut.durationMs = .ok flown ∧
      cut.endPose = .ok p ∧ landingMs (p.z - tr.start.z) velocity = .ok ms ∧
      (tr'.Walkable ↔ flown + ms ≤ timeLimit) := by
  unfold replaceEndByLanding at h
  split at h
  · cases h
  rename_i hne
  split at h
  · cases h
  split at h
  · cases h
  rcases hcut : cutAt summary.landingSec tr with ⟨_, cut⟩ | ⟨e, cut⟩
  · rw [hcut] at h
    simp only at h
    have hsame := cutAt_keeps_header summary.landingSec tr
    rw [hcut, left_ok] at hsame
    have hstart : cut.start = tr.start := by rw [hsame.cached]
    rcases hlanded : cut.landed velocity with e | built
    · rw [hlanded] at h
      cases h
    · rw [hlanded] at h
      cases h
      obtain ⟨hp', _⟩ := hsame.parsed hp (Bool.eq_false_iff.mpr hne)
      obtain ⟨flown, p, ms, hflown, hend, hms, hwalk⟩ := landed_ok hp' hlanded
      rw [hstart] at hms
      exact ⟨cut, flown, p, ms, rfl, hflown, hend, hms, hwalk⟩
  · rw [hcut] at h
    cases h

/-! ## The law -/

/-- What operations that succeed leave can be walked to its end just when the
time they ask for fits the clock of a walk, which none of them looks at: for
a draft, the time since the bytes were last handed over, and for a landing,
the time up to the cut and that of the descent. -/
theorem walkable_iff_time_fits (scale : Nat) (yawEnabled : Bool) (calls : List Draft.Call)
    (tr : Trajectory) (summary : Summary) (velocity : Single) :
    (∀ b₀ b, Draft.new scale yawEnabled = .ok b₀ → Draft.runAll calls b₀ = .ok () b →
      ∃ built b', Draft.finish b = .ok built b' ∧
        (built.Walkable ↔ Draft.clock calls ≤ timeLimit)) ∧
    (tr.Parsed → ∀ tr', replaceEndByLanding summary velocity tr = .ok () tr' →
      ∃ cut flown p ms, cutAt summary.landingSec tr = .ok () cut ∧ cut.durationMs = .ok flown ∧
        cut.endPose = .ok p ∧ landingMs (p.z - tr.start.z) velocity = .ok ms ∧
        (tr'.Walkable ↔ flown + ms ≤ timeLimit)) := by
  constructor
  · intro b₀ b hnew hcalls
    exact Draft.walkable_iff_clock hnew hcalls
  · intro hp tr' hland
    exact replaceEndByLanding_ok hp hland

/-- A hold of ten seconds and a descent of ten seconds both fit the clock. -/
theorem ten_seconds_fit_the_clock :
    (∃ b₀ b built b', Draft.new 1 false = .ok b₀ ∧ Draft.runAll [.hold 10000] b₀ = .ok () b ∧
      Draft.finish b = .ok built b' ∧ built.Walkable) ∧
    ∃ tr tr', ofBytes #[1, 0, 0, 0, 0, 0, 0, 0, 0, 0x10, 0xe8, 0x03, 10, 0] = .ok tr ∧
      replaceEndByLanding ⟨.all, 1000, 1, .ofPoint Pose.origin, 0, 1, Pose.origin, 0⟩ 1 tr =
        .ok () tr' ∧ tr'.Walkable := by
  obtain ⟨tr, tr', p, hparse, hland, hcut, hflown, hend, hms⟩ : ∃ tr tr' p,
      ofBytes #[1, 0, 0, 0, 0, 0, 0, 0, 0, 0x10, 0xe8, 0x03, 10, 0] = .ok tr ∧
      replaceEndByLanding ⟨.all, 1000, 1, .ofPoint Pose.origin, 0, 1, Pose.origin, 0⟩ 1 tr =
        .ok () tr' ∧
      cutAt 1 tr = .ok () tr ∧ tr.durationMs = .ok 1000 ∧ tr.endPose = .ok p ∧
      landingMs (p.z - tr.start.z) 1 = .ok 10000 := ⟨_, _, _, rfl, rfl, rfl, rfl, rfl, rfl⟩
  obtain ⟨b₀, b, hnew, hcalls⟩ : ∃ b₀ b, Draft.new 1 false = .ok b₀ ∧
      Draft.runAll [.hold 10000] b₀ = .ok () b := ⟨_, _, rfl, rfl⟩
  obtain ⟨hbuilt, hlanded⟩ := walkable_iff_time_fits 1 false [.hold 10000] tr
    ⟨.all, 1000, 1, .ofPoint Pose.origin, 0, 1, Pose.origin, 0⟩ 1
  constructor
  · obtain ⟨built, b', hfinish, hwalk⟩ := hbuilt b₀ b hnew hcalls
    exact ⟨b₀, b, built, b', hnew, hcalls, hfinish, hwalk.mpr (by decide)⟩
  · obtain ⟨cut, flown, p', ms, hcut', hflown', hend', hms', hwalk⟩ :=
      hlanded (parsed_of_ofBuffer hparse).1 tr' hland
    rw [hcut] at hcut'
    cases hcut'
    rw [hflown] at hflown'
    cases hflown'
    rw [hend] at hend'
    cases hend'
    rw [hms] at hms'
    cases hms'
    exact ⟨tr, tr', hparse, hland, hwalk.mpr (by decide)⟩

/-- Two holds that both succeed outgrow the clock. -/
theorem two_holds_outgrow_the_clock : ∃ b₀ b built b', Draft.new 1 false = .ok b₀ ∧
    Draft.runAll [.hold 4294967295, .hold 1] b₀ = .ok () b ∧ Draft.finish b = .ok built b' ∧
    ¬ built.Walkable := by
  obtain ⟨b₀, hnew⟩ : ∃ b₀, Draft.new 1 false = .ok b₀ := ⟨_, rfl⟩
  obtain ⟨hfresh, _⟩ := Draft.holds_of_new hnew
  obtain ⟨b₁, hfirst⟩ := hfresh.hold 4294967295
  obtain ⟨start, rs, hb₁, _⟩ :=
    hfresh.call_ok (show (Draft.Call.hold 4294967295).run b₀ = .ok () b₁ from hfirst)
  obtain ⟨b, hsecond⟩ := hb₁.hold 1
  have hcalls : Draft.runAll [.hold 4294967295, .hold 1] b₀ = .ok () b := by
    simp only [Draft.runAll, Draft.Call.run, hfirst, hsecond, andThen]
    rfl
  obtain ⟨built, b', hfinish, hwalk⟩ := Draft.walkable_iff_clock hnew hcalls
  exact ⟨b₀, b, built, b', hnew, hcalls, hfinish, fun h => absurd (hwalk.mp h) (by decide)⟩

end Trajectory

end DroneShow
