-- The moments of a playback. Whatever is asked of it, its cursor and the ones
-- that it gave out stay on segments of the walk. So a seek finds at any moment
-- what a scan from the start finds.
import DroneShow.Proofs.Playback.Scan
import DroneShow.Trajectory.Playback

namespace DroneShow

variable {α : Type} {tr : Trajectory}

/-! ## What no move breaks -/

namespace Cursor

variable {P : Cursor → Prop}

/-- The cursor is on a segment of the walk. -/
def OnWalk (tr : Trajectory) (c : Cursor) : Prop := tr.Visits c.segment

/-- A property of cursors that no move breaks: it leaves them on the walk, holds
wherever a segment of the walk is entered, and allows to keep a curve. -/
structure Lasting (tr : Trajectory) (P : Cursor → Prop) : Prop where
  onWalk : ∀ {c : Cursor}, P c → c.OnWalk tr
  enter : ∀ {s : Segment}, tr.Visits s → P (on s)
  position : Keeps P positionCurve
  velocity : Keeps P velocityCurve
  acceleration : Keeps P accelerationCurve

namespace Lasting

variable (hP : Lasting tr P)
include hP

theorem rewind : Keeps P (rewind tr) := by
  intro c h
  unfold Cursor.rewind
  cases hfirst : tr.firstSegment with
  | error e => exact h
  | ok s => exact hP.enter (.first hfirst)

theorem next : Keeps P (next tr) := by
  intro c h
  unfold Cursor.next
  split
  · exact h
  · cases hafter : tr.segmentAfter c.segment with
    | error e => exact h
    | ok s => exact hP.enter (.after (hP.onWalk h) hafter)

theorem advance (behind : Segment → Bool) (steps : Nat) :
    Keeps P (advance tr behind steps) := by
  induction steps with
  | zero => exact Keeps.pure ()
  | succ steps ih =>
    intro c h
    by_cases hrest : c.segment.isTerminal = true ∨ behind c.segment = false
    · rw [advance_rest hrest]
      exact h
    · simp only [not_or, Bool.not_eq_true, Bool.not_eq_false] at hrest
      rw [advance_step hrest.1 hrest.2]
      cases hafter : tr.segmentAfter c.segment with
      | error e => exact h
      | ok s => exact ih (on s) (hP.enter (.after (hP.onWalk h) hafter))

theorem seek (t : Single) : Keeps P (seek tr t) := by
  unfold Cursor.seek
  split
  · intro c h
    exact h
  · refine .bind ?_ fun _ => .bind (hP.advance _ _) fun _ => ?_
    · intro c h
      unfold turnBack
      split
      · exact hP.rewind c h
      · exact h
    · intro c h
      exact h

end Lasting

theorem left_durationMs (tr : Trajectory) (c : Cursor) : left (durationMs tr c) = c := by
  unfold durationMs
  cases runOut tr c <;> rfl

theorem keeps_durationMs (tr : Trajectory) : Keeps P (durationMs tr) := by
  intro c h
  rwa [left_durationMs]

/-! ## Moves stay on the walk -/

/-- Curves are kept with the cursor, which stays on its segment. -/
theorem keeps_remember {known : Option (Path Single)} {compute : Except Fault (Path Single)}
    {keep : Cursor → Path Single → Cursor} (h : ∀ c path, (keep c path).segment = c.segment) :
    Keeps (OnWalk tr) (remember known compute keep) := by
  unfold remember
  cases known with
  | some path => exact .pure path
  | none =>
    cases compute with
    | error e =>
      intro c hc
      exact hc
    | ok path =>
      refine .bind ?_ fun _ => .pure path
      intro c hc
      show tr.Visits (keep c path).segment
      rwa [h]

theorem keeps_get : Keeps P (get : Move Cursor) := fun _ h => h

theorem onWalk_lasting (tr : Trajectory) : Lasting tr (OnWalk tr) := by
  have hposition : Keeps (OnWalk tr) positionCurve :=
    .bind keeps_get fun _ => keeps_remember fun _ _ => rfl
  have hvelocity : Keeps (OnWalk tr) velocityCurve :=
    .bind hposition fun _ => .bind keeps_get fun _ => keeps_remember fun _ _ => rfl
  have hacceleration : Keeps (OnWalk tr) accelerationCurve :=
    .bind hvelocity fun _ => .bind keeps_get fun _ => keeps_remember fun _ _ => rfl
  exact ⟨id, id, hposition, hvelocity, hacceleration⟩

end Cursor

namespace Playback

/-- The playback is of the trajectory, and on a segment of its walk. -/
structure Shows (tr : Trajectory) (p : Playback) : Prop where
  trajectory : p.trajectory = tr
  cursor : p.cursor.OnWalk tr

theorem answer_withCursor (move : Trajectory → Cursor.Move α) (p : Playback) :
    answer (withCursor move p) = answer (move p.trajectory p.cursor) := by
  unfold withCursor
  cases move p.trajectory p.cursor <;> rfl

theorem left_withCursor (move : Trajectory → Cursor.Move α) (p : Playback) :
    left (withCursor move p) = ⟨p.trajectory, left (move p.trajectory p.cursor)⟩ := by
  unfold withCursor
  cases move p.trajectory p.cursor <;> rfl

theorem withCursor_eq_ok_iff {move : Trajectory → Cursor.Move α} {p p' : Playback} {a : α} :
    withCursor move p = .ok a p' ↔
      p'.trajectory = p.trajectory ∧ move p.trajectory p.cursor = .ok a p'.cursor := by
  unfold withCursor
  cases move p.trajectory p.cursor with
  | error e c => simp
  | ok a' c =>
    constructor
    · intro h
      cases h
      exact ⟨rfl, rfl⟩
    · rintro ⟨htr, h⟩
      cases h
      rw [← htr]

/-- The playback is of the trajectory, and its cursor has a property. -/
structure Has (tr : Trajectory) (P : Cursor → Prop) (p : Playback) : Prop where
  trajectory : p.trajectory = tr
  cursor : P p.cursor

theorem keeps_withCursor {P : Cursor → Prop} {move : Trajectory → Cursor.Move α}
    (h : Keeps P (move tr)) : Keeps (Has tr P) (withCursor move) := by
  intro p hp
  rw [left_withCursor]
  refine ⟨hp.trajectory, ?_⟩
  rw [hp.trajectory]
  exact h p.cursor hp.cursor

theorem keeps_seek {P : Cursor → Prop} (hP : Cursor.Lasting tr P) (t : Single) :
    Keeps (Has tr P) (seek t) := keeps_withCursor (hP.seek t)

/-- What is asked about a time: a seek, and then a curve of the segment. -/
def query (curve : Cursor.Move (Path Single)) (t : Single) : Play Pose := do
  let u ← seek t
  let path ← withCursor fun _ => curve
  pure (path.eval u)

theorem keeps_query {P : Cursor → Prop} {curve : Cursor.Move (Path Single)}
    (hP : Cursor.Lasting tr P) (hcurve : Keeps P curve) (t : Single) :
    Keeps (Has tr P) (query curve t) :=
  .bind (keeps_seek hP t) fun _ => .bind (keeps_withCursor hcurve) fun _ => .pure _

/-! ## Requests -/

/-- What may be asked of a playback. A cursor that it gave out is known by its
place among all of those. -/
inductive Request where
  | seek (t : Single)
  | positionAt (t : Single)
  | velocityAt (t : Single)
  | accelerationAt (t : Single)
  | next
  | rewind
  | durationMs
  | save
  | restore (place : Nat)

/-- A playback, and the cursors that it gave out. -/
structure Tour where
  playback : Playback
  saved : List Cursor

/-- What a request leaves, whether it succeeds or not. -/
def Request.run : Request → Tour → Tour
  | .seek t, tour => { tour with playback := left (Playback.seek t tour.playback) }
  | .positionAt t, tour => { tour with playback := left (Playback.positionAt t tour.playback) }
  | .velocityAt t, tour => { tour with playback := left (Playback.velocityAt t tour.playback) }
  | .accelerationAt t, tour =>
    { tour with playback := left (Playback.accelerationAt t tour.playback) }
  | .next, tour => { tour with playback := left (Playback.next tour.playback) }
  | .rewind, tour => { tour with playback := left (Playback.rewind tour.playback) }
  | .durationMs, tour => { tour with playback := left (Playback.durationMs tour.playback) }
  | .save, tour => { tour with saved := tour.saved ++ [tour.playback.cursor] }
  | .restore place, tour =>
    match tour.saved[place]? with
    | some cursor => { tour with playback := left (Playback.restore cursor tour.playback) }
    | none => tour

theorem Request.run_restore {tour : Tour} {place : Nat} {c : Cursor}
    (h : tour.saved[place]? = some c) :
    (Request.restore place).run tour = ⟨⟨tour.playback.trajectory, c⟩, tour.saved⟩ := by
  simp only [Request.run, h]
  rfl

theorem Request.run_restore_none {tour : Tour} {place : Nat} (h : tour.saved[place]? = none) :
    (Request.restore place).run tour = tour := by
  simp only [Request.run, h]

/-- The tours of a trajectory: a fresh playback, and what requests lead to,
whether these succeed or fail. -/
inductive Reachable (tr : Trajectory) : Tour → Prop
  | fresh {p : Playback} : ofTrajectory tr = .ok p → Reachable tr ⟨p, []⟩
  | request {tour : Tour} (r : Request) : Reachable tr tour → Reachable tr (r.run tour)

/-- The playback and all cursors that it gave out have a property. -/
structure Tour.Has (tr : Trajectory) (P : Cursor → Prop) (tour : Tour) : Prop where
  playback : tour.playback.Has tr P
  saved : ∀ c ∈ tour.saved, P c

theorem ofTrajectory_eq_ok {p : Playback} (h : ofTrajectory tr = .ok p) :
    ∃ first, tr.firstSegment = .ok first ∧ p = ⟨tr, Cursor.on first⟩ := by
  obtain ⟨first, hfirst, hp⟩ := bind_eq_ok_iff.mp h
  cases hp
  exact ⟨first, hfirst, rfl⟩

theorem Tour.Has.request {P : Cursor → Prop} (hP : Cursor.Lasting tr P) {tour : Tour}
    (h : tour.Has tr P) (r : Request) : (r.run tour).Has tr P := by
  cases r with
  | seek t => exact ⟨keeps_seek hP t _ h.playback, h.saved⟩
  | positionAt t => exact ⟨keeps_query hP hP.position t _ h.playback, h.saved⟩
  | velocityAt t => exact ⟨keeps_query hP hP.velocity t _ h.playback, h.saved⟩
  | accelerationAt t => exact ⟨keeps_query hP hP.acceleration t _ h.playback, h.saved⟩
  | next => exact ⟨keeps_withCursor hP.next _ h.playback, h.saved⟩
  | rewind => exact ⟨keeps_withCursor hP.rewind _ h.playback, h.saved⟩
  | durationMs => exact ⟨keeps_withCursor (Cursor.keeps_durationMs tr) _ h.playback, h.saved⟩
  | save =>
    refine ⟨h.playback, ?_⟩
    intro c hc
    rcases List.mem_append.mp hc with hc | hc
    · exact h.saved c hc
    · rw [List.mem_singleton.mp hc]
      exact h.playback.cursor
  | restore place =>
    cases hsaved : tour.saved[place]? with
    | none => rwa [Request.run_restore_none hsaved]
    | some cursor =>
      rw [Request.run_restore hsaved]
      exact ⟨⟨h.playback.trajectory, h.saved cursor (List.mem_of_getElem? hsaved)⟩, h.saved⟩

theorem Reachable.has {P : Cursor → Prop} {tour : Tour} (hP : Cursor.Lasting tr P)
    (h : Reachable tr tour) : tour.Has tr P := by
  induction h with
  | fresh hp =>
    obtain ⟨first, hfirst, rfl⟩ := ofTrajectory_eq_ok hp
    exact ⟨⟨rfl, hP.enter (.first hfirst)⟩, fun c hc => absurd hc List.not_mem_nil⟩
  | request r _ ih => exact ih.request hP r

/-- The playback and all cursors that it gave out are on the walk. -/
structure Tour.OnWalk (tr : Trajectory) (tour : Tour) : Prop where
  playback : tour.playback.Shows tr
  saved : ∀ c ∈ tour.saved, c.OnWalk tr

theorem Reachable.onWalk {tour : Tour} (h : Reachable tr tour) : tour.OnWalk tr := by
  obtain ⟨⟨htrajectory, hcursor⟩, hsaved⟩ := h.has (Cursor.onWalk_lasting tr)
  exact ⟨⟨htrajectory, hcursor⟩, hsaved⟩

/-! ## The law -/

/-- What a fresh playback finds is what a scan of the course finds. -/
theorem seek_fresh {p : Playback} {t : Single} (h : ofTrajectory tr = .ok p)
    (ht : t.isNaN = false) :
    answer (seek t p) = (tr.course.find t).map (fun s => Cursor.relativeTime s t) ∧
    ∀ u p', seek t p = .ok u p' → tr.course.find t = .ok p'.cursor.segment := by
  obtain ⟨first, hfirst, rfl⟩ := ofTrajectory_eq_ok h
  have hfind : tr.course.find t = (answer (Cursor.advanceTo tr t (.on first))).map fun _ =>
      (left (Cursor.advanceTo tr t (.on first))).segment := by
    have hcourse : tr.course = tr.courseFrom tr.maxSteps first := by
      rw [Trajectory.course, hfirst]
      rfl
    rw [hcourse]
    exact Cursor.find_courseFrom ht tr.maxSteps (.on first)
  have hseek : Cursor.seek tr t (.on first) = Cursor.tell t (Cursor.advanceTo tr t (.on first)) := by
    rw [Cursor.seek_eq_tell ht, Cursor.turnBack_first hfirst]
    rfl
  constructor
  · show answer (withCursor _ _) = _
    rw [answer_withCursor, hseek, hfind]
    cases Cursor.advanceTo tr t (.on first) <;> rfl
  · intro u p' hp'
    obtain ⟨-, hmove⟩ := withCursor_eq_ok_iff.mp hp'
    rw [hseek] at hmove
    rw [hfind]
    cases hadvance : Cursor.advanceTo tr t (.on first) with
    | error e c =>
      rw [hadvance] at hmove
      cases hmove
    | ok _ c =>
      rw [hadvance] at hmove
      injection hmove with _ hc
      rw [← hc]
      rfl

/-- Away from the start of its segment, a playback seeks as a fresh one does. -/
theorem Shows.seek_eq_fresh {p fresh : Playback} {t : Single} (h : p.Shows tr)
    (hfresh : ofTrajectory tr = .ok fresh) (ht : t.isNaN = false)
    (hne : p.cursor.segment.startSec.same t = false) :
    answer (seek t p) = answer (seek t fresh) ∧
    (left (seek t p)).cursor.segment = (left (seek t fresh)).cursor.segment := by
  obtain ⟨first, hfirst, rfl⟩ := ofTrajectory_eq_ok hfresh
  have hseen := Cursor.seen_seek_of_visits hfirst h.cursor ht hne
  constructor
  · show answer (withCursor _ _) = answer (withCursor _ _)
    rw [answer_withCursor, answer_withCursor, h.trajectory]
    exact congrArg Prod.fst hseen
  · show (left (withCursor _ _)).cursor.segment = (left (withCursor _ _)).cursor.segment
    rw [left_withCursor, left_withCursor, h.trajectory]
    exact congrArg Prod.snd hseen

/-- A seek tells a part of the whole, and stops on no segment that starts later. -/
theorem Shows.seek_mem {p p' fresh : Playback} {t u : Single} (h : p.Shows tr)
    (hfresh : ofTrajectory tr = .ok fresh) (ht : t.isNaN = false) (hseek : seek t p = .ok u p') :
    0 ≤ u ∧ u ≤ 1 ∧ p'.cursor.segment.startSec ≤ max t 0 := by
  obtain ⟨first, hfirst, -⟩ := ofTrajectory_eq_ok hfresh
  have hkept := keeps_seek (Cursor.onWalk_lasting tr) t p ⟨h.trajectory, h.cursor⟩
  rw [hseek] at hkept
  obtain ⟨-, hmove⟩ := withCursor_eq_ok_iff.mp hseek
  rw [h.trajectory] at hmove
  obtain ⟨hlow, hhigh⟩ := hkept.cursor.places.onClock.relativeTime_mem ht
  have hu : u = Cursor.relativeTime p'.cursor.segment t := Cursor.seek_answer ht hmove
  rw [hu]
  exact ⟨hlow, hhigh, Cursor.seek_startSec hfirst h.cursor ht hmove⟩

/-- At every moment of a playback, whatever was asked before, a seek answers
and leaves the segment that it does on a fresh playback: the first segment of
the course that does not end before the time, or the final hold. Only at the
very start of its segment the cursor stays where it is. A seek that succeeds
tells a part of the whole, and does not stop on a segment that starts later. -/
theorem seek_finds_what_a_scan_finds {fresh : Playback} {tour : Tour} {t : Single}
    (hfresh : ofTrajectory tr = .ok fresh) (htour : Reachable tr tour) (ht : t.isNaN = false) :
    (tour.playback.cursor.segment.startSec.same t = false →
      answer (seek t tour.playback) = answer (seek t fresh) ∧
      (left (seek t tour.playback)).cursor.segment = (left (seek t fresh)).cursor.segment ∧
      answer (seek t tour.playback) =
        (tr.course.find t).map (fun s => Cursor.relativeTime s t) ∧
      ∀ u p', seek t tour.playback = .ok u p' → tr.course.find t = .ok p'.cursor.segment) ∧
    (tour.playback.cursor.segment.startSec.same t = true →
      ∃ u, seek t tour.playback = .ok u tour.playback) ∧
    ∀ u p', seek t tour.playback = .ok u p' →
      0 ≤ u ∧ u ≤ 1 ∧ p'.cursor.segment.startSec ≤ max t 0 := by
  obtain ⟨hfind, hfound⟩ := seek_fresh hfresh ht
  obtain ⟨hshows, -⟩ := htour.onWalk
  refine ⟨?_, ?_, fun u p' hp' => hshows.seek_mem hfresh ht hp'⟩
  · intro hne
    obtain ⟨hanswer, hleft⟩ := hshows.seek_eq_fresh hfresh ht hne
    refine ⟨hanswer, hleft, hanswer.trans hfind, ?_⟩
    intro u p' hp'
    rw [hp'] at hanswer hleft
    cases hother : seek t fresh with
    | error e q =>
      rw [hother] at hanswer
      cases hanswer
    | ok u' q =>
      rw [hother] at hleft
      rw [hfound u' q hother]
      exact congrArg Except.ok hleft.symm
  · intro hsame
    refine ⟨Cursor.relativeTime tour.playback.cursor.segment t, ?_⟩
    refine withCursor_eq_ok_iff.mpr ⟨rfl, ?_⟩
    rw [hshows.trajectory]
    exact Cursor.seek_at_start hshows.cursor ht hsame

/-- From the second of two holds, back to the middle of the first one. -/
theorem a_seek_back_finds_the_first_hold : ∃ tr fresh tour u p',
    Trajectory.ofBytes #[1, 0, 0, 0, 0, 0, 0, 0, 0, 0x00, 0xd0, 0x07, 0x00, 0xe8, 0x03] = .ok tr ∧
    ofTrajectory tr = .ok fresh ∧ Reachable tr tour ∧ tour.playback.cursor.segment.startMs = 2000 ∧
    seek 1 tour.playback = .ok u p' ∧ p'.cursor.segment.startMs = 0 ∧
    tr.course.find 1 = .ok p'.cursor.segment ∧ 0 ≤ u ∧ u ≤ 1 := by
  obtain ⟨tr, fresh, hparse, hfresh, hsecond⟩ : ∃ tr fresh, Trajectory.ofBytes
      #[1, 0, 0, 0, 0, 0, 0, 0, 0, 0x00, 0xd0, 0x07, 0x00, 0xe8, 0x03] = .ok tr ∧
      ofTrajectory tr = .ok fresh ∧
      (left (seek 3 fresh)).cursor.segment.startMs = 2000 ∧
      (left (seek 3 fresh)).cursor.segment.startSec.same 1 = false ∧
      ∃ u p', seek 1 (left (seek 3 fresh)) = .ok u p' ∧ p'.cursor.segment.startMs = 0 :=
    ⟨_, _, rfl, rfl, rfl, rfl, _, _, rfl, rfl⟩
  obtain ⟨hms, hne, u, p', hback, hfirst⟩ := hsecond
  have htour := Reachable.request (.seek 3) (.fresh hfresh)
  obtain ⟨hfind, -, hpart⟩ := seek_finds_what_a_scan_finds hfresh htour (t := 1) (by decide)
  obtain ⟨hlow, hhigh, -⟩ := hpart u p' hback
  exact ⟨tr, fresh, _, u, p', hparse, hfresh, htour, hms, hback, hfirst,
    (hfind hne).2.2.2 u p' hback, hlow, hhigh⟩

end Playback

end DroneShow
