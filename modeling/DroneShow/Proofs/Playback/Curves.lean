-- The curves that a cursor keeps. At every moment of a playback they are those
-- of its segment. So no answer depends on which curves were asked for before,
-- and asking for the duration changes nothing.
import DroneShow.Proofs.Playback.History

namespace DroneShow

variable {α : Type} {tr : Trajectory}

namespace Trajectory

/-! ## The segments by their number -/

/-- The segment of the walk with `k` segments before it; the final hold is
followed by itself. -/
def segmentNo (tr : Trajectory) : Nat → Except Fault Segment
  | 0 => tr.firstSegment
  | k + 1 => do
    let s ← segmentNo tr k
    tr.segmentAfter s

theorem visits_iff {s : Segment} : tr.Visits s ↔ ∃ k, tr.segmentNo k = .ok s := by
  constructor
  · intro h
    induction h with
    | first hfirst => exact ⟨0, hfirst⟩
    | @after s s' _ hafter ih =>
      obtain ⟨k, hk⟩ := ih
      exact ⟨k + 1, bind_eq_ok_iff.mpr ⟨s, hk, hafter⟩⟩
  · rintro ⟨k, hk⟩
    induction k generalizing s with
    | zero => exact .first hk
    | succ k ih =>
      obtain ⟨before, hbefore, hafter⟩ := bind_eq_ok_iff.mp hk
      exact .after (ih hbefore) hafter

end Trajectory

namespace Cursor

variable {c : Cursor}

/-! ## Curves that are kept -/

/-- The curves that a cursor keeps are those of its segment. -/
structure Coherent (c : Cursor) : Prop where
  position : ∀ path, c.position = some path → c.segment.position = .ok path
  velocity : ∀ path, c.velocity = some path → c.segment.velocity = .ok path
  acceleration : ∀ path, c.acceleration = some path → c.segment.acceleration = .ok path

theorem on_coherent (s : Segment) : (on s).Coherent :=
  ⟨fun _ => (nomatch ·), fun _ => (nomatch ·), fun _ => (nomatch ·)⟩

/-- An operation answers with a curve of the segment, and leaves the cursor on
it with curves that are its own. -/
def Computes (curve : Move (Path Single)) (value : Segment → Except Fault (Path Single)) : Prop :=
  ∀ c, Coherent c → answer (curve c) = value c.segment ∧
    (left (curve c)).segment = c.segment ∧ Coherent (left (curve c))

/-- A curve is remembered just when it was computed before. -/
theorem remember_computes {known : Option (Path Single)} {compute : Except Fault (Path Single)}
    {keep : Cursor → Path Single → Cursor} (hc : c.Coherent)
    (hknown : ∀ path, known = some path → compute = .ok path)
    (hkeep : ∀ path, compute = .ok path →
      (keep c path).segment = c.segment ∧ (keep c path).Coherent) :
    answer (remember known compute keep c) = compute ∧
      (left (remember known compute keep c)).segment = c.segment ∧
      (left (remember known compute keep c)).Coherent := by
  unfold remember
  cases known with
  | some path => exact ⟨(hknown path rfl).symm, rfl, hc⟩
  | none =>
    cases compute with
    | error e => exact ⟨rfl, rfl, hc⟩
    | ok path => exact ⟨rfl, hkeep path rfl⟩

theorem positionCurve_computes : Computes positionCurve Segment.position := by
  intro c hc
  refine remember_computes hc hc.position ?_
  intro path hpath
  refine ⟨rfl, ?_, hc.velocity, hc.acceleration⟩
  intro path' h
  cases h
  exact hpath

theorem Computes.rated {curve : Move (Path Single)} {value : Segment → Except Fault (Path Single)}
    {keep : Cursor → Path Single → Cursor} (h : Computes curve value)
    (known : Cursor → Option (Path Single))
    (hknown : ∀ c path, c.Coherent → known c = some path →
      (value c.segment).map c.segment.rate = .ok path)
    (hkeep : ∀ c path, c.Coherent → (value c.segment).map c.segment.rate = .ok path →
      (keep c path).segment = c.segment ∧ (keep c path).Coherent) :
    Computes (do
      let path ← curve
      let c ← get
      remember (known c) (.ok (c.segment.rate path)) keep)
      fun s => (value s).map s.rate := by
  intro c hc
  obtain ⟨hanswer, hsegment, hcoherent⟩ := h c hc
  cases hcurve : curve c with
  | error e c' =>
    rw [hcurve] at hanswer hsegment hcoherent
    rw [bind_run_of_error hcurve]
    refine ⟨?_, hsegment, hcoherent⟩
    beta_reduce
    rw [← hanswer]
    rfl
  | ok path c' =>
    rw [hcurve] at hanswer hsegment hcoherent
    rw [left_ok] at hsegment hcoherent
    have hvalue : (value c'.segment).map c'.segment.rate = .ok (c'.segment.rate path) := by
      rw [hsegment, ← hanswer]
      rfl
    rw [bind_run_of_ok hcurve, bind_run_of_ok (show (get : Move Cursor) c' = .ok c' c' from rfl),
      ← hsegment]
    beta_reduce
    rw [hvalue]
    refine remember_computes hcoherent ?_ ?_
    · intro path' hpath'
      rw [← hvalue]
      exact hknown c' path' hcoherent hpath'
    · intro path' hpath'
      rw [← hvalue] at hpath'
      exact hkeep c' path' hcoherent hpath'

theorem velocityCurve_computes : Computes velocityCurve Segment.velocity := by
  refine positionCurve_computes.rated Cursor.velocity ?_ ?_
  · intro c path hc h
    exact hc.velocity path h
  · intro c path hc hpath
    refine ⟨rfl, hc.position, ?_, hc.acceleration⟩
    intro path' h
    cases h
    exact hpath

theorem accelerationCurve_computes : Computes accelerationCurve Segment.acceleration := by
  refine velocityCurve_computes.rated Cursor.acceleration ?_ ?_
  · intro c path hc h
    exact hc.acceleration path h
  · intro c path hc hpath
    refine ⟨rfl, hc.position, hc.velocity, ?_⟩
    intro path' h
    cases h
    exact hpath

/-- The cursor is on the walk and keeps the curves of its segment. -/
structure Sound (tr : Trajectory) (c : Cursor) : Prop where
  onWalk : c.OnWalk tr
  coherent : c.Coherent

theorem Computes.keeps_sound {curve : Move (Path Single)}
    {value : Segment → Except Fault (Path Single)} (h : Computes curve value) :
    Keeps (Sound tr) curve := by
  intro c hc
  obtain ⟨-, hsegment, hcoherent⟩ := h c hc.coherent
  refine ⟨?_, hcoherent⟩
  show tr.Visits (left (curve c)).segment
  rw [hsegment]
  exact hc.onWalk

theorem sound_lasting (tr : Trajectory) : Lasting tr (Sound tr) where
  onWalk h := h.onWalk
  enter h := ⟨h, on_coherent _⟩
  position := positionCurve_computes.keeps_sound
  velocity := velocityCurve_computes.keeps_sound
  acceleration := accelerationCurve_computes.keeps_sound

/-! ## Seeks do not see the curves -/

/-- A seek is seen to go the same way from any cursor on a segment. -/
theorem seen_seek_on (t : Single) (c : Cursor) :
    seen (seek tr t c) = seen (seek tr t (on c.segment)) := by
  cases ht : t.isNaN with
  | true =>
    unfold seek
    rw [ht]
    rfl
  | false =>
    rw [seek_eq_tell ht, seek_eq_tell ht]
    refine seen_tell ?_
    unfold turnBack
    by_cases hback : t < c.segment.startSec
    · rw [if_pos hback, if_pos (show t < (on c.segment).segment.startSec from hback)]
      unfold rewind
      cases tr.firstSegment <;> rfl
    · rw [if_neg hback, if_neg (show ¬ t < (on c.segment).segment.startSec from hback)]
      exact seen_advance_on _ _ c

/-! ## The duration -/

/-- From each segment of the walk, the cursor runs out to where it does from
the first one. -/
theorem seen_runOut_of_visits {first s : Segment} (hfirst : tr.firstSegment = .ok first)
    (hv : tr.Visits s) : seen (advance tr (fun _ => true) tr.maxSteps (on s)) =
      seen (advance tr (fun _ => true) tr.maxSteps (on first)) := by
  induction hv with
  | first h =>
    rw [hfirst] at h
    cases h
    rfl
  | @after s s' hv hafter ih =>
    by_cases hterminal : s.isTerminal = true
    · rw [Trajectory.segmentAfter_terminal hterminal] at hafter
      cases hafter
      exact ih
    · rw [Bool.not_eq_true] at hterminal
      rw [← ih]
      exact seen_advance_after hv hterminal rfl hafter

/-- It comes to rest on the hold that ends the walk, or fails as the walk does. -/
theorem rest_runOut {c : Cursor} (hc : c.OnWalk tr) :
    ((answer (advance tr (fun _ => true) tr.maxSteps c)).map fun _ =>
      (left (advance tr (fun _ => true) tr.maxSteps c)).segment) = tr.finalHold := by
  obtain ⟨first, hfirst⟩ := hc.exists_first
  have hcourse : tr.course = tr.courseFrom tr.maxSteps (on first).segment := by
    rw [Trajectory.course, hfirst]
    rfl
  rw [Trajectory.finalHold_eq_outcome, ← Course.rest_all, hcourse, rest_courseFrom]
  exact congrArg (fun run => run.1.map fun _ => run.2)
    ((seen_advance_on _ _ c).trans (seen_runOut_of_visits hfirst hc))

theorem answer_durationMs {c : Cursor} (hc : c.OnWalk tr) :
    answer (durationMs tr c) = tr.durationMs := by
  have hrest := rest_runOut hc
  unfold Trajectory.durationMs
  rw [← hrest]
  unfold durationMs runOut
  cases hmove : advance tr (fun _ => true) tr.maxSteps c with
  | ok _ c' =>
    rw [bind_run_of_ok hmove]
    rfl
  | error e c' =>
    rw [bind_run_of_error hmove]
    rfl

end Cursor

namespace Playback

/-! ## Queries -/

/-- What a query answers if nothing is kept: a seek, and then the curve of the
segment on which it leaves the cursor. -/
def recomputed (value : Segment → Except Fault (Path Single)) (t : Single) (p : Playback) :
    Except Fault Pose :=
  (answer (seek t p)).bind fun u => (value (left (seek t p)).cursor.segment).map (·.eval u)

variable {curve : Cursor.Move (Path Single)} {value : Segment → Except Fault (Path Single)}

/-- A query of a sound cursor answers what is computed anew. -/
theorem answer_query (hcurve : Cursor.Computes curve value) (t : Single) {p : Playback}
    (hp : p.Has tr (Cursor.Sound tr)) :
    answer (query curve t p) = recomputed value t p := by
  have hkept := keeps_seek (Cursor.sound_lasting tr) t p hp
  unfold recomputed query
  cases hseek : seek t p with
  | error e p' =>
    rw [bind_run_of_error hseek]
    rfl
  | ok u p' =>
    rw [hseek, left_ok] at hkept
    obtain ⟨hanswer, -, -⟩ := hcurve p'.cursor hkept.cursor.coherent
    rw [bind_run_of_ok hseek, left_ok, ← hanswer, ← answer_withCursor (fun _ => curve) p']
    cases hpath : withCursor (fun _ => curve) p' with
    | error e p'' =>
      rw [bind_run_of_error hpath]
      rfl
    | ok path p'' =>
      rw [bind_run_of_ok hpath]
      rfl

/-- That depends on the segment of the cursor alone. -/
theorem recomputed_on (t : Single) {p : Playback} (hp : p.trajectory = tr) :
    recomputed value t p = recomputed value t ⟨tr, Cursor.on p.cursor.segment⟩ := by
  have hseen : Cursor.seen (Cursor.seek tr t p.cursor) = _ := Cursor.seen_seek_on t p.cursor
  have hanswer : answer (seek t p) = answer (seek t ⟨tr, Cursor.on p.cursor.segment⟩) := by
    show answer (withCursor _ _) = answer (withCursor _ _)
    rw [answer_withCursor, answer_withCursor, hp]
    exact congrArg Prod.fst hseen
  have hleft : (left (seek t p)).cursor.segment =
      (left (seek t ⟨tr, Cursor.on p.cursor.segment⟩)).cursor.segment := by
    show (left (withCursor _ _)).cursor.segment = (left (withCursor _ _)).cursor.segment
    rw [left_withCursor, left_withCursor, hp]
    exact congrArg Prod.snd hseen
  unfold recomputed
  rw [hanswer, hleft]

/-! ## Requests without their curves -/

/-- The request that only seeks where another one also asks for a curve. -/
def Request.withoutCurve : Request → Request
  | .positionAt t => .seek t
  | .velocityAt t => .seek t
  | .accelerationAt t => .seek t
  | r => r

/-- A tour without its curves. -/
def Tour.outline (tour : Tour) : Trajectory × Segment × List Segment :=
  (tour.playback.trajectory, tour.playback.cursor.segment, tour.saved.map (·.segment))

theorem outline_eq_iff {tour tour' : Tour} : tour.outline = tour'.outline ↔
    tour.playback.trajectory = tour'.playback.trajectory ∧
    tour.playback.cursor.segment = tour'.playback.cursor.segment ∧
    tour.saved.map (·.segment) = tour'.saved.map (·.segment) := by
  simp [Tour.outline]

/-- The tour that requests lead to. -/
def Tour.after (tour : Tour) (rs : List Request) : Tour := rs.foldl (fun tour r => r.run tour) tour

/-- A query leaves the cursor where a seek leaves it. -/
theorem left_query (hcurve : Cursor.Computes curve value) (t : Single) {p : Playback}
    (hp : p.Has tr (Cursor.Sound tr)) :
    (left (query curve t p)).trajectory = (left (seek t p)).trajectory ∧
    (left (query curve t p)).cursor.segment = (left (seek t p)).cursor.segment := by
  have hkept := keeps_seek (Cursor.sound_lasting tr) t p hp
  unfold query
  cases hseek : seek t p with
  | error e p' =>
    rw [bind_run_of_error hseek]
    exact ⟨rfl, rfl⟩
  | ok u p' =>
    rw [hseek, left_ok] at hkept
    obtain ⟨-, hsegment, -⟩ := hcurve p'.cursor hkept.cursor.coherent
    have hleft := left_withCursor (fun _ => curve) p'
    rw [bind_run_of_ok hseek, left_ok]
    cases hpath : withCursor (fun _ => curve) p' with
    | error e p'' =>
      rw [bind_run_of_error hpath]
      rw [hpath] at hleft
      rw [left_error] at hleft ⊢
      rw [hleft]
      exact ⟨rfl, hsegment⟩
    | ok path p'' =>
      rw [bind_run_of_ok hpath]
      rw [hpath] at hleft
      rw [left_ok] at hleft
      show p''.trajectory = _ ∧ p''.cursor.segment = _
      rw [hleft]
      exact ⟨rfl, hsegment⟩

/-- Which curve a request asks for does not show in the outline. -/
theorem outline_withoutCurve (r : Request) {tour : Tour} (h : tour.Has tr (Cursor.Sound tr)) :
    (r.run tour).outline = (r.withoutCurve.run tour).outline := by
  cases r with
  | positionAt t =>
    obtain ⟨htrajectory, hsegment⟩ := left_query Cursor.positionCurve_computes t h.playback
    exact congrArg₂ (fun tr s => (tr, s, tour.saved.map (·.segment))) htrajectory hsegment
  | velocityAt t =>
    obtain ⟨htrajectory, hsegment⟩ := left_query Cursor.velocityCurve_computes t h.playback
    exact congrArg₂ (fun tr s => (tr, s, tour.saved.map (·.segment))) htrajectory hsegment
  | accelerationAt t =>
    obtain ⟨htrajectory, hsegment⟩ := left_query Cursor.accelerationCurve_computes t h.playback
    exact congrArg₂ (fun tr s => (tr, s, tour.saved.map (·.segment))) htrajectory hsegment
  | seek t => rfl
  | next => rfl
  | rewind => rfl
  | durationMs => rfl
  | save => rfl
  | restore place => rfl

/-- A move that does not see the curves leaves the same segment where they differ. -/
theorem outline_withCursor {move : Trajectory → Cursor.Move α} {tour tour' : Tour}
    (hmove : ∀ c, (left (move tr c)).segment = (left (move tr (Cursor.on c.segment))).segment)
    (hp : tour.playback.trajectory = tr) (h : tour.outline = tour'.outline) :
    (⟨left (withCursor move tour.playback), tour.saved⟩ : Tour).outline =
      (⟨left (withCursor move tour'.playback), tour'.saved⟩ : Tour).outline := by
  obtain ⟨htrajectory, hsegment, hsaved⟩ := outline_eq_iff.mp h
  refine outline_eq_iff.mpr ⟨?_, ?_, hsaved⟩ <;> simp only [left_withCursor]
  · exact htrajectory
  · rw [← htrajectory, hp, hmove, hsegment, ← hmove]

/-- So tours of one outline have one outline after a request, whichever curve
either of them asks for. -/
theorem Tour.outline_run {tour tour' : Tour} {r r' : Request}
    (ht : tour.Has tr (Cursor.Sound tr)) (ht' : tour'.Has tr (Cursor.Sound tr))
    (h : tour.outline = tour'.outline) (hr : r.withoutCurve = r'.withoutCurve) :
    (r.run tour).outline = (r'.run tour').outline := by
  rw [outline_withoutCurve r ht, outline_withoutCurve r' ht', ← hr]
  have hp := ht.playback.trajectory
  have hseek : ∀ t, ((Request.seek t).run tour).outline = ((Request.seek t).run tour').outline :=
    fun t => outline_withCursor (fun c => congrArg Prod.snd (Cursor.seen_seek_on t c)) hp h
  cases r with
  | seek t => exact hseek t
  | positionAt t => exact hseek t
  | velocityAt t => exact hseek t
  | accelerationAt t => exact hseek t
  | next =>
    refine outline_withCursor (fun c => ?_) hp h
    show (left (Cursor.next tr c)).segment = (left (Cursor.next tr (Cursor.on c.segment))).segment
    unfold Cursor.next
    cases hterminal : c.segment.isTerminal with
    | true => simp [Cursor.on, hterminal]
    | false =>
      simp only [Cursor.on, hterminal, Bool.false_eq_true, if_false]
      cases tr.segmentAfter c.segment <;> rfl
  | rewind =>
    refine outline_withCursor (fun c => ?_) hp h
    show (left (Cursor.rewind tr c)).segment = _
    unfold Cursor.rewind
    cases tr.firstSegment <;> rfl
  | durationMs =>
    refine outline_withCursor (fun c => ?_) hp h
    rw [Cursor.left_durationMs, Cursor.left_durationMs]
    rfl
  | save =>
    obtain ⟨htrajectory, hsegment, hsaved⟩ := outline_eq_iff.mp h
    simp [Tour.outline, Request.run, Request.withoutCurve, htrajectory, hsegment, hsaved]
  | restore place =>
    obtain ⟨htrajectory, -, hsaved⟩ := outline_eq_iff.mp h
    have hplace := congrArg (fun saved => saved[place]?) hsaved
    simp only [List.getElem?_map] at hplace
    unfold Request.withoutCurve
    cases hc : tour.saved[place]? with
    | none =>
      rw [hc, Option.map_none, eq_comm, Option.map_eq_none_iff] at hplace
      rw [Request.run_restore_none hc, Request.run_restore_none hplace]
      exact h
    | some c =>
      rw [hc, Option.map_some, eq_comm, Option.map_eq_some_iff] at hplace
      obtain ⟨c', hc', hsame⟩ := hplace
      rw [Request.run_restore hc, Request.run_restore hc']
      simp [Tour.outline, hsame, htrajectory, hsaved]

theorem Tour.Has.after {P : Cursor → Prop} (hP : Cursor.Lasting tr P) {tour : Tour}
    (h : tour.Has tr P) (rs : List Request) : (tour.after rs).Has tr P := by
  induction rs generalizing tour with
  | nil => exact h
  | cons r rs ih => exact ih (h.request hP r)

/-- The same after any number of requests. -/
theorem Tour.outline_after {tour tour' : Tour} {rs rs' : List Request}
    (ht : tour.Has tr (Cursor.Sound tr)) (ht' : tour'.Has tr (Cursor.Sound tr))
    (h : tour.outline = tour'.outline)
    (hrs : rs.map Request.withoutCurve = rs'.map Request.withoutCurve) :
    (tour.after rs).outline = (tour'.after rs').outline := by
  induction rs generalizing tour tour' rs' with
  | nil =>
    cases List.map_eq_nil_iff.mp hrs.symm
    exact h
  | cons r rs ih =>
    cases rs' with
    | nil => cases hrs
    | cons r' rs' =>
      simp only [List.map_cons, List.cons.injEq] at hrs
      have hsound := Cursor.sound_lasting tr
      have hrun := Tour.outline_run ht ht' h hrs.1
      show ((r.run tour).after rs).outline = ((r'.run tour').after rs').outline
      exact ih (ht.request hsound r) (ht'.request hsound r') hrun hrs.2

/-! ## The law -/

theorem Tour.fresh_has {P : Cursor → Prop} (hP : Cursor.Lasting tr P) {fresh : Playback}
    (h : ofTrajectory tr = .ok fresh) : (⟨fresh, []⟩ : Tour).Has tr P :=
  (Reachable.fresh h).has hP

/-- The answers to all three queries about a time. -/
def answersAt (t : Single) (p : Playback) : List (Except Fault Pose) :=
  [answer (positionAt t p), answer (velocityAt t p), answer (accelerationAt t p)]

/-- What a playback on a segment answers if it computes each curve anew. -/
def recomputedOn (tr : Trajectory) (s : Segment) (t : Single) : List (Except Fault Pose) :=
  [recomputed Segment.position t ⟨tr, Cursor.on s⟩,
    recomputed Segment.velocity t ⟨tr, Cursor.on s⟩,
    recomputed Segment.acceleration t ⟨tr, Cursor.on s⟩]

theorem answersAt_eq (t : Single) {p : Playback} (hp : p.Has tr (Cursor.Sound tr)) :
    answersAt t p = recomputedOn tr p.cursor.segment t := by
  have hposition := answer_query Cursor.positionCurve_computes t hp
  have hvelocity := answer_query Cursor.velocityCurve_computes t hp
  have hacceleration := answer_query Cursor.accelerationCurve_computes t hp
  rw [recomputed_on t hp.trajectory] at hposition hvelocity hacceleration
  show [_, _, _] = [_, _, _]
  exact congrArg₂ List.cons hposition (congrArg₂ List.cons hvelocity (congrArg ([·]) hacceleration))

/-- After any requests, whether they succeed or fail, the cursor of a playback
and those that it gave out are on segments of the walk and keep only curves of
these. So a query answers what is computed anew from the segment, and it does
not matter which curves earlier requests asked for. The duration is that of the
trajectory, and asking for it changes nothing. -/
theorem kept_curves_do_not_show {fresh : Playback} {rs : List Request} {tour : Tour}
    (hfresh : ofTrajectory tr = .ok fresh) (htour : (⟨fresh, []⟩ : Tour).after rs = tour) :
    (∀ c, c = tour.playback.cursor ∨ c ∈ tour.saved →
      (∃ k, tr.segmentNo k = .ok c.segment) ∧ c.Coherent) ∧
    (∀ t, answersAt t tour.playback = recomputedOn tr tour.playback.cursor.segment t) ∧
    (∀ rs' : List Request, rs'.map Request.withoutCurve = rs.map Request.withoutCurve → ∀ t,
      answersAt t ((⟨fresh, []⟩ : Tour).after rs').playback = answersAt t tour.playback) ∧
    answer (durationMs tour.playback) = tr.durationMs ∧
    left (durationMs tour.playback) = tour.playback := by
  have hsound := Cursor.sound_lasting tr
  have hstart := Tour.fresh_has hsound hfresh
  have hhas := hstart.after hsound rs
  rw [htour] at hhas
  refine ⟨?_, ?_, ?_, ?_, ?_⟩
  · intro c hc
    have hc' : c.Sound tr := by
      rcases hc with rfl | hc
      · exact hhas.playback.cursor
      · exact hhas.saved c hc
    exact ⟨Trajectory.visits_iff.mp hc'.onWalk, hc'.coherent⟩
  · intro t
    exact answersAt_eq t hhas.playback
  · intro rs' hrs t
    have houtline := Tour.outline_after hstart hstart rfl hrs
    rw [htour] at houtline
    obtain ⟨-, hsegment, -⟩ := outline_eq_iff.mp houtline
    rw [answersAt_eq t (hstart.after hsound rs').playback, answersAt_eq t hhas.playback, hsegment]
  · show answer (withCursor _ _) = _
    rw [answer_withCursor, hhas.playback.trajectory]
    exact Cursor.answer_durationMs hhas.playback.cursor.onWalk
  · show left (withCursor _ _) = _
    rw [left_withCursor, Cursor.left_durationMs]

/-- Into the second line and back to a saved moment in the first one, where the
cursor still has the velocity. Other curves on the way give the same answers. -/
theorem a_saved_cursor_keeps_its_velocity : ∃ tr fresh tour,
    Trajectory.ofBytes #[1, 0, 0, 0, 0, 0, 0, 0, 0, 0x10, 0xd0, 0x07, 10, 0,
      0x10, 0xe8, 0x03, 30, 0] = .ok tr ∧
    ofTrajectory tr = .ok fresh ∧
    (⟨fresh, []⟩ : Tour).after [.velocityAt 1, .save, .positionAt 3, .restore 0] = tour ∧
    tour.playback.cursor.velocity.isSome = true ∧ tour.playback.cursor.Coherent ∧
    (∃ k, tr.segmentNo k = .ok tour.playback.cursor.segment) ∧
    (∀ t, answersAt t ((⟨fresh, []⟩ : Tour).after
        [.seek 1, .save, .accelerationAt 3, .restore 0]).playback = answersAt t tour.playback) ∧
    answer (durationMs tour.playback) = tr.durationMs := by
  obtain ⟨tr, fresh, hparse, hfresh, hkept⟩ : ∃ tr fresh, Trajectory.ofBytes
      #[1, 0, 0, 0, 0, 0, 0, 0, 0, 0x10, 0xd0, 0x07, 10, 0, 0x10, 0xe8, 0x03, 30, 0] = .ok tr ∧
      ofTrajectory tr = .ok fresh ∧
      ((⟨fresh, []⟩ : Tour).after [.velocityAt 1, .save, .positionAt 3, .restore 0]
        ).playback.cursor.velocity.isSome = true :=
    ⟨_, _, rfl, rfl, by decide +kernel⟩
  obtain ⟨hcursors, -, hother, hduration, -⟩ := kept_curves_do_not_show hfresh rfl
  obtain ⟨hwalk, hcoherent⟩ := hcursors _ (.inl rfl)
  exact ⟨tr, fresh, _, hparse, hfresh, rfl, hkept, hcoherent, hwalk, hother _ rfl, hduration⟩

end Playback

end DroneShow
