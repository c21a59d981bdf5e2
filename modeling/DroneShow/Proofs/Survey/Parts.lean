-- The parts of a survey. One walk collects them all, but each is a function of
-- the trajectory and of its own parameters. So a part that is not wanted never
-- changes another one; it can only add its faults.
import DroneShow.Proofs.Outcome
import DroneShow.Proofs.Trajectory.Walk
import DroneShow.Survey.Summary

namespace DroneShow

variable {σ : Type} {tr : Trajectory} {v : Survey} {s : Summary}

/-! ## Valid parameters -/

namespace SurveyConfig

variable {c c' : SurveyConfig}

/-- The parameters of the takeoff are the same. -/
structure SameClimb (c c' : SurveyConfig) : Prop where
  takeoffSpeed : c.takeoffSpeed = c'.takeoffSpeed
  acceleration : c.acceleration = c'.acceleration
  minAscent : c.minAscent = c'.minAscent

/-- The parameters of the landing are the same. -/
structure SameDescent (c c' : SurveyConfig) : Prop where
  preferredDescent : c.preferredDescent = c'.preferredDescent
  maxDeviationXY : c.maxDeviationXY = c'.maxDeviationXY

theorem validate_eq_ok_iff : c.validate = .ok () ↔
    (c.takeoffSpeed.isFinite && decide (0 < c.takeoffSpeed)) = true ∧
    (c.acceleration.any fun a => a.isNaN || decide (a ≤ 0)) = false ∧
    isDistance c.minAscent = true ∧ isDistance c.preferredDescent = true ∧
    isDistance c.maxDeviationXY = true := by
  unfold validate
  cases (c.takeoffSpeed.isFinite && decide (0 < c.takeoffSpeed)) with
  | false => simp
  | true =>
    cases c.acceleration.any fun a => a.isNaN || decide (a ≤ 0) with
    | true => simp
    | false => simp

/-- Valid parameters of the takeoff stay valid among standard ones. -/
theorem validate_climb (h : c.validate = .ok ()) :
    ({ standard with
        minAscent := c.minAscent, takeoffSpeed := c.takeoffSpeed,
        acceleration := c.acceleration } : SurveyConfig).validate = .ok () := by
  obtain ⟨hspeed, hacceleration, hascent, -, -⟩ := validate_eq_ok_iff.mp h
  apply validate_eq_ok_iff.mpr
  exact ⟨hspeed, hacceleration, hascent, show isDistance standard.preferredDescent = true by decide,
    show isDistance standard.maxDeviationXY = true by decide⟩

/-- Valid parameters of the landing stay valid among standard ones. -/
theorem validate_descent (h : c.validate = .ok ()) :
    ({ standard with
        preferredDescent := c.preferredDescent,
        maxDeviationXY := c.maxDeviationXY } : SurveyConfig).validate = .ok () := by
  obtain ⟨-, -, -, hdescent, hdeviation⟩ := validate_eq_ok_iff.mp h
  obtain ⟨hspeed, hacceleration, hascent, -, -⟩ :=
    validate_eq_ok_iff.mp (show standard.validate = .ok () by decide)
  apply validate_eq_ok_iff.mpr
  exact ⟨hspeed, hacceleration, hascent, hdescent, hdeviation⟩

end SurveyConfig

namespace Survey

/-! ## Each part on its own -/

/-- A step that is only taken for a part that is wanted. -/
def ifWanted (wanted : Bool) (f : σ → Segment → Except Fault σ) (acc : σ) (seg : Segment) :
    Except Fault σ :=
  if wanted then f acc seg else .ok acc

/-- When the climb reached an altitude, after one more segment. -/
def climbStep (altitude : Single) (reached : Option Single) (seg : Segment) :
    Except Fault (Option Single) :=
  if reached.isNone then altitudeTime altitude seg else .ok reached

/-- The box around the whole walk. -/
def boxPart (v : Survey) (tr : Trajectory) : Except Fault (Box Single) :=
  if v.components.box then tr.course.segments.foldlM growBox (.ofPoint tr.start) else .ok .empty

/-- When the takeoff has to begin. -/
def takeoffPart (v : Survey) (tr : Trajectory) : Except Fault Single :=
  if v.components.takeoff then
    (tr.course.segments.foldlM (climbStep (tr.start.z + v.config.minAscent)) none).map v.takeoffSec
  else .ok (.infinity false)

/-- The vertical run at the end of the walk. -/
def finalRun (maxDeviationXY : Single) (tr : Trajectory) : Option Segment :=
  tr.course.segments.foldl (extendRun maxDeviationXY) none

/-- When and where the landing takes over. -/
def landingPart (v : Survey) (tr : Trajectory) (last : Segment) : Except Fault (Single × Pose) :=
  if v.components.landing then
    v.landing tr (finalRun v.config.maxDeviationXY tr) last (Segment.seconds last.startMs)
  else .ok (0, Pose.origin)

/-- How far from its start the walk ends. -/
def distancePart (v : Survey) (tr : Trajectory) (last : Segment) : Single :=
  if v.components.distance then tr.start.distanceXY last.start else 0

/-- The summary tells each part as it is on its own. -/
structure Tells (v : Survey) (tr : Trajectory) (last : Segment) (s : Summary) : Prop where
  components : s.components = v.components
  durationMs : s.durationMs = last.startMs
  durationSec : s.durationSec = Segment.seconds last.startMs
  box : v.boxPart tr = .ok s.box
  takeoff : v.takeoffPart tr = .ok s.takeoffSec
  landing : v.landingPart tr last = .ok (s.landingSec, s.landingPose)
  distance : s.distanceXY = v.distancePart tr last

/-! ## The walk collects the parts -/

theorem foldlM_ifWanted (wanted : Bool) (f : σ → Segment → Except Fault σ) (l : List Segment)
    (acc : σ) : l.foldlM (ifWanted wanted f) acc = if wanted then l.foldlM f acc else .ok acc := by
  cases wanted with
  | true => rfl
  | false =>
    induction l with
    | nil => rfl
    | cons seg l ih => simpa [ifWanted, bind, Except.bind] using ih

theorem step_eq_ok_iff {altitude : Single} {acc acc' : Tally} {seg : Segment} :
    v.step altitude acc seg = .ok acc' ↔
      ifWanted v.components.box growBox acc.box seg = .ok acc'.box ∧
      ifWanted v.components.takeoff (climbStep altitude) acc.takeoff seg = .ok acc'.takeoff ∧
      ifWanted v.components.landing
        (fun run seg => .ok (extendRun v.config.maxDeviationXY run seg)) acc.run seg =
          .ok acc'.run := by
  have hstep : v.step altitude acc seg = (do
      let box ← ifWanted v.components.box growBox acc.box seg
      let takeoff ← ifWanted v.components.takeoff (climbStep altitude) acc.takeoff seg
      let run ← ifWanted v.components.landing
        (fun run seg => .ok (extendRun v.config.maxDeviationXY run seg)) acc.run seg
      pure ⟨box, takeoff, run⟩) := by
    unfold step ifWanted climbStep
    cases v.components.box <;> cases v.components.takeoff <;> cases v.components.landing <;>
      cases acc.takeoff.isNone <;> rfl
  rw [hstep]
  simp only [bind_eq_ok_iff]
  constructor
  · rintro ⟨box, hbox, takeoff, htakeoff, run, hrun, hacc⟩
    cases hacc
    exact ⟨hbox, htakeoff, hrun⟩
  · rintro ⟨hbox, htakeoff, hrun⟩
    exact ⟨_, hbox, _, htakeoff, _, hrun, rfl⟩

theorem foldlM_step_eq_ok_iff {altitude : Single} {acc acc' : Tally} {l : List Segment} :
    l.foldlM (v.step altitude) acc = .ok acc' ↔
      l.foldlM (ifWanted v.components.box growBox) acc.box = .ok acc'.box ∧
      l.foldlM (ifWanted v.components.takeoff (climbStep altitude)) acc.takeoff =
        .ok acc'.takeoff ∧
      l.foldlM (ifWanted v.components.landing
        (fun run seg => .ok (extendRun v.config.maxDeviationXY run seg))) acc.run =
          .ok acc'.run := by
  induction l generalizing acc with
  | nil =>
    obtain ⟨box, takeoff, run⟩ := acc
    obtain ⟨box', takeoff', run'⟩ := acc'
    simp [pure, Except.pure]
  | cons seg l ih =>
    simp only [List.foldlM_cons, bind_eq_ok_iff, step_eq_ok_iff, ih]
    constructor
    · rintro ⟨acc₁, ⟨hbox, htakeoff, hrun⟩, hbox', htakeoff', hrun'⟩
      exact ⟨⟨_, hbox, hbox'⟩, ⟨_, htakeoff, htakeoff'⟩, ⟨_, hrun, hrun'⟩⟩
    · rintro ⟨⟨box, hbox, hbox'⟩, ⟨takeoff, htakeoff, htakeoff'⟩, ⟨run, hrun, hrun'⟩⟩
      exact ⟨⟨box, takeoff, run⟩, ⟨hbox, htakeoff, hrun⟩, hbox', htakeoff', hrun'⟩

/-- A walk collects what the fold over its segments collects, if it ends. -/
theorem fold_eq_ok_iff {step : σ → Segment → Except Fault σ} {init acc : σ} {last : Segment} :
    tr.fold step init = .ok (acc, last) ↔
      tr.course.segments.foldlM step init = .ok acc ∧ tr.finalHold = .ok last := by
  rw [Trajectory.fold_eq_course, Trajectory.finalHold_eq_outcome]
  cases tr.course.segments.foldlM step init with
  | error e => simp [Except.bind]
  | ok acc => cases tr.course.outcome <;> simp [Except.bind, Except.map]

/-- The walk of a survey collects the box and the climb if they are wanted, and
the run at its end. -/
theorem walk_eq_ok_iff {box : Box Single} {reached : Option Single} {run : Option Segment}
    {last : Segment} :
    tr.fold (v.step (tr.start.z + v.config.minAscent))
        ⟨if v.components.box then .ofPoint tr.start else .empty, none, none⟩ =
        .ok (⟨box, reached, run⟩, last) ↔
      (v.boxPart tr = .ok box ∧
        (if v.components.takeoff then
          tr.course.segments.foldlM (climbStep (tr.start.z + v.config.minAscent)) none
          else .ok none) = .ok reached ∧
        (if v.components.landing then finalRun v.config.maxDeviationXY tr else none) = run) ∧
      tr.finalHold = .ok last := by
  have hbox : (if v.components.box then
      tr.course.segments.foldlM growBox (if v.components.box then .ofPoint tr.start else .empty)
      else .ok (if v.components.box then .ofPoint tr.start else .empty)) = v.boxPart tr := by
    unfold boxPart
    cases v.components.box <;> rfl
  have hrun : tr.course.segments.foldlM
      (fun run seg => (.ok (extendRun v.config.maxDeviationXY run seg) : Except Fault _)) none =
        .ok (finalRun v.config.maxDeviationXY tr) := List.foldlM_pure
  rw [fold_eq_ok_iff, foldlM_step_eq_ok_iff, foldlM_ifWanted, foldlM_ifWanted, foldlM_ifWanted, hbox,
    hrun]
  cases v.components.landing <;> simp

/-- The time and the pose at which the landing takes over, if they are wanted. -/
theorem landingPart_eq {run : Option Segment} {last : Segment}
    (h : (if v.components.landing then finalRun v.config.maxDeviationXY tr else none) = run) :
    (if v.components.landing then v.landing tr run last (Segment.seconds last.startMs)
      else pure (0, Pose.origin)) = v.landingPart tr last := by
  unfold landingPart
  cases hwanted : v.components.landing with
  | false => rfl
  | true =>
    rw [hwanted, if_pos rfl] at h
    rw [if_pos rfl, if_pos rfl, h]

/-- A survey asks for its landing in one place, whether it is wanted or not. -/
theorem run_eq (v : Survey) (tr : Trajectory) : v.run tr = (do
    v.config.validate
    let (tally, last) ← tr.fold (v.step (tr.start.z + v.config.minAscent))
      ⟨if v.components.box then .ofPoint tr.start else .empty, none, none⟩
    let landing ← (if v.components.landing then
      v.landing tr tally.run last (Segment.seconds last.startMs) else pure (0, Pose.origin))
    pure ⟨v.components, last.startMs, Segment.seconds last.startMs, tally.box,
      v.takeoffSec tally.takeoff, landing.1, landing.2, v.distancePart tr last⟩) := by
  obtain ⟨⟨duration, box, takeoff, landing, distance⟩, config⟩ := v
  cases landing <;> rfl

/-- A survey succeeds just when the walk ends and each part that is wanted has
a value. -/
theorem run_eq_ok_iff : v.run tr = .ok s ↔ v.config.validate = .ok () ∧
    ∃ last, tr.finalHold = .ok last ∧ Tells v tr last s := by
  have htakeoff : v.takeoffPart tr = (if v.components.takeoff then
      tr.course.segments.foldlM (climbStep (tr.start.z + v.config.minAscent)) none
      else .ok none).map v.takeoffSec := by
    unfold takeoffPart
    cases v.components.takeoff <;> rfl
  rw [run_eq]
  constructor
  · intro h
    obtain ⟨_, hvalid, h⟩ := bind_eq_ok_iff.mp h
    obtain ⟨⟨⟨box, reached, run⟩, last⟩, hwalk, h⟩ := bind_eq_ok_iff.mp h
    obtain ⟨⟨hbox, hreached, hrun⟩, hlast⟩ := walk_eq_ok_iff.mp hwalk
    obtain ⟨landing, hlanding, h⟩ := bind_eq_ok_iff.mp h
    cases h
    refine ⟨hvalid, last, hlast, rfl, rfl, rfl, hbox, ?_, ?_, rfl⟩
    · rw [htakeoff, hreached]
      rfl
    · rw [← landingPart_eq hrun]
      exact hlanding
  · rintro ⟨hvalid, last, hlast, htells⟩
    have htold := htells.takeoff
    rw [htakeoff] at htold
    obtain ⟨reached, hreached, hsec⟩ := map_eq_ok_iff.mp htold
    obtain ⟨run, hrun⟩ : ∃ run,
        (if v.components.landing then finalRun v.config.maxDeviationXY tr else none) = run :=
      ⟨_, rfl⟩
    have hwalk := walk_eq_ok_iff.mpr ⟨⟨htells.box, hreached, hrun⟩, hlast⟩
    have hland := (landingPart_eq hrun).trans htells.landing
    refine bind_eq_ok_iff.mpr ⟨(), hvalid, bind_eq_ok_iff.mpr ⟨_, hwalk, ?_⟩⟩
    refine bind_eq_ok_iff.mpr ⟨_, hland, ?_⟩
    rw [hsec, ← htells.durationSec, ← htells.durationMs, ← htells.components, ← htells.distance]
    rfl

end Survey

/-- The summary without the parts that are not in `c`; those have their initial value. -/
def Summary.restricted (s : Summary) (c : Components) : Summary where
  components := c
  durationMs := s.durationMs
  durationSec := s.durationSec
  box := if c.box then s.box else .empty
  takeoffSec := if c.takeoff then s.takeoffSec else .infinity false
  landingSec := if c.landing then s.landingSec else 0
  landingPose := if c.landing then s.landingPose else Pose.origin
  distanceXY := if c.distance then s.distanceXY else 0

theorem Components.contains_iff {d e : Components} : d.contains e = true ↔
    (e.duration = true → d.duration = true) ∧ (e.box = true → d.box = true) ∧
    (e.takeoff = true → d.takeoff = true) ∧ (e.landing = true → d.landing = true) ∧
    (e.distance = true → d.distance = true) := by
  have himp : ∀ a b : Bool, (a || !b) = true ↔ (b = true → a = true) := by decide
  simp only [contains, Bool.and_eq_true, himp, and_assoc]

namespace Survey

variable {d e : Components} {c c' : SurveyConfig} {last : Segment}

/-! ## What each part depends on -/

theorem takeoffPart_congr (h : c'.SameClimb c) (hd : d.takeoff = e.takeoff) :
    takeoffPart ⟨e, c'⟩ tr = takeoffPart ⟨d, c⟩ tr := by
  have hsec : takeoffSec ⟨e, c'⟩ = takeoffSec ⟨d, c⟩ := by
    funext reached
    cases reached with
    | none => rfl
    | some t =>
      simp only [takeoffSec, SurveyConfig.travelTime, h.takeoffSpeed, h.acceleration, h.minAscent]
  unfold takeoffPart
  rw [hd, hsec, h.minAscent]

theorem landingPart_congr (h : c'.SameDescent c) (hd : d.landing = e.landing) :
    landingPart ⟨e, c'⟩ tr last = landingPart ⟨d, c⟩ tr last := by
  have htime : landingTime ⟨e, c'⟩ = landingTime ⟨d, c⟩ := by
    funext tr run endAltitude durationSec
    unfold landingTime
    rw [h.preferredDescent]
  unfold landingPart landing
  rw [hd, h.maxDeviationXY, htime]

/-- A smaller survey tells what is left of the larger one's summary. -/
theorem Tells.restricted (h : Tells ⟨d, c⟩ tr last s) (hsub : d.contains e = true)
    (hclimb : e.takeoff = true → c'.SameClimb c)
    (hdescent : e.landing = true → c'.SameDescent c) :
    Tells ⟨e, c'⟩ tr last (s.restricted e) := by
  obtain ⟨-, hbox, htakeoff, hlanding, hdistance⟩ := Components.contains_iff.mp hsub
  refine ⟨rfl, h.durationMs, h.durationSec, ?_, ?_, ?_, ?_⟩
  · cases hwanted : e.box with
    | false => simp [boxPart, Summary.restricted, hwanted]
    | true => simpa [boxPart, Summary.restricted, hwanted, hbox hwanted] using h.box
  · cases hwanted : e.takeoff with
    | false => simp [takeoffPart, Summary.restricted, hwanted]
    | true =>
      rw [takeoffPart_congr (hclimb hwanted) ((htakeoff hwanted).trans hwanted.symm), h.takeoff]
      simp [Summary.restricted, hwanted]
  · cases hwanted : e.landing with
    | false => simp [landingPart, Summary.restricted, hwanted]
    | true =>
      rw [landingPart_congr (hdescent hwanted) ((hlanding hwanted).trans hwanted.symm), h.landing]
      simp [Summary.restricted, hwanted]
  · cases hwanted : e.distance with
    | false => simp [distancePart, Summary.restricted, hwanted]
    | true =>
      simpa [distancePart, Summary.restricted, hwanted, hdistance hwanted] using h.distance

/-- So a smaller survey with the parameters that matter to it succeeds where
the larger one does, and has the same values. -/
theorem run_restricted (h : run ⟨d, c⟩ tr = .ok s) (hsub : d.contains e = true)
    (hvalid : c'.validate = .ok ()) (hclimb : e.takeoff = true → c'.SameClimb c)
    (hdescent : e.landing = true → c'.SameDescent c) :
    run ⟨e, c'⟩ tr = .ok (s.restricted e) := by
  obtain ⟨-, last, hlast, htells⟩ := run_eq_ok_iff.mp h
  exact run_eq_ok_iff.mpr ⟨hvalid, last, hlast, htells.restricted hsub hclimb hdescent⟩

/-- The parts of a survey do not interfere. Of any components of a survey that
succeeds, a survey succeeds too, with the same values; what is not wanted keeps
its initial value. The takeoff depends on the parameters of the climb alone,
the landing on those of the descent alone, so both proposals agree with every
survey that has them. -/
theorem parts_do_not_interfere (h : run ⟨d, c⟩ tr = .ok s) :
    (∀ e, d.contains e = true → run ⟨e, c⟩ tr = .ok (s.restricted e)) ∧
    (∀ e c', d.contains e = true → c'.validate = .ok () →
      (e.takeoff = true → c'.SameClimb c) → (e.landing = true → c'.SameDescent c) →
      run ⟨e, c'⟩ tr = .ok (s.restricted e)) ∧
    (d.takeoff = true →
      tr.takeoffTime c.minAscent c.takeoffSpeed c.acceleration = .ok s.takeoffSec) ∧
    (d.landing = true →
      tr.landingTime c.preferredDescent c.maxDeviationXY = .ok s.landingSec) := by
  have hvalid : c.validate = .ok () := (run_eq_ok_iff.mp h).1
  refine ⟨?_, ?_, ?_, ?_⟩
  · intro e hsub
    exact run_restricted h hsub hvalid (fun _ => ⟨rfl, rfl, rfl⟩) fun _ => ⟨rfl, rfl⟩
  · intro e c' hsub hvalid' hclimb hdescent
    exact run_restricted h hsub hvalid' hclimb hdescent
  · intro hwanted
    have hsub : d.contains { Components.none with takeoff := true } = true := by
      simp [Components.contains, Components.none, hwanted]
    unfold Trajectory.takeoffTime
    simp only [run_restricted h hsub (SurveyConfig.validate_climb hvalid)
      (fun _ => ⟨rfl, rfl, rfl⟩) (fun hnone => nomatch hnone)]
    rfl
  · intro hwanted
    have hsub : d.contains { Components.none with landing := true } = true := by
      simp [Components.contains, Components.none, hwanted]
    unfold Trajectory.landingTime
    simp only [run_restricted h hsub (SurveyConfig.validate_descent hvalid)
      (fun hnone => nomatch hnone) (fun _ => ⟨rfl, rfl⟩)]
    rfl

/-- Ten seconds up and five down: the proposals agree with the whole survey. -/
theorem a_climb_has_its_proposals : ∃ tr s,
    Trajectory.ofBytes #[1, 0, 0, 0, 0, 0, 0, 0, 0, 0x10, 0x10, 0x27, 0x10, 0x27,
      0x10, 0x88, 0x13, 0x88, 0x13] = .ok tr ∧
    run standard tr = .ok s ∧ s.landingSec = .ofDecimal false 125 (-1) ∧
    (∀ e, run ⟨e, .standard⟩ tr = .ok (s.restricted e)) ∧
    tr.takeoffTime 2500 1000 none = .ok s.takeoffSec ∧
    tr.landingTime 2500 20 = .ok s.landingSec := by
  obtain ⟨tr, hparse, hlands⟩ : ∃ tr, Trajectory.ofBytes #[1, 0, 0, 0, 0, 0, 0, 0, 0,
      0x10, 0x10, 0x27, 0x10, 0x27, 0x10, 0x88, 0x13, 0x88, 0x13] = .ok tr ∧
      (run standard tr).map (·.landingSec) = .ok (.ofDecimal false 125 (-1)) :=
    ⟨_, rfl, by decide +kernel⟩
  obtain ⟨s, hrun, hsec⟩ := map_eq_ok_iff.mp hlands
  obtain ⟨hsame, -, htakeoff, hlanding⟩ := parts_do_not_interfere hrun
  refine ⟨tr, s, hparse, hrun, hsec, ?_, htakeoff rfl, hlanding rfl⟩
  intro e
  apply hsame
  simp [Components.contains, Components.all]

end Survey

end DroneShow
