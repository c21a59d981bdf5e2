-- Playback on words. A player of any bytes may be asked for anything, also for
-- a segment at any offset, time and pose, and may take over the head of a player
-- of other bytes. No request halts it, and each ends as it does in the library.
import DroneShow.Proofs.Checked.Head

namespace DroneShow.Checked

variable {α : Type} {tr : Trajectory} {h : Head} {t : Single}

structure Player where
  trajectory : Trajectory
  head : Head

namespace Player

/-- A player on the first segment. -/
def ofTrajectory (tr : Trajectory) : Checked Player := do
  let f ← decode tr.bytes tr.headerLength 0 tr.start tr.scale
  pure ⟨tr, Head.on f⟩

/-- The playback that a player stands for. -/
def playback (p : Player) : Playback := ⟨p.trajectory, p.head.cursor⟩

end Player

/-! ## Requests -/

/-- What may be asked of a player. -/
inductive Request where
  | build (offset startMs : Nat) (start : Pose)
  | next
  | rewind
  | seek (t : Single)
  | positionAt (t : Single)
  | velocityAt (t : Single)
  | accelerationAt (t : Single)
  | durationMs
  | durationSec

/-- What is answered. -/
inductive Answer where
  | done
  | number (x : Single)
  | milliseconds (ms : Nat)
  | pose (p : Pose)

namespace Request

/-- Offsets and times are words; nothing else is asked of a request. -/
def InRange : Request → Prop
  | .build offset startMs _ => offset < 2 ^ offsetBits ∧ startMs < 2 ^ clockBits
  | _ => True

def process (tr : Trajectory) : Request → Process Answer
  | .build offset startMs start => (fun _ => .done) <$> jump tr offset startMs start
  | .next => (fun _ => .done) <$> Checked.next tr
  | .rewind => (fun _ => .done) <$> Checked.rewind tr
  | .seek t => .number <$> Checked.seek tr t
  | .positionAt t => .pose <$> query tr positionCurve t
  | .velocityAt t => .pose <$> query tr velocityCurve t
  | .accelerationAt t => .pose <$> query tr accelerationCurve t
  | .durationMs => .milliseconds <$> Checked.durationMs tr
  | .durationSec => .number <$> (Segment.seconds <$> Checked.durationMs tr)

/-- The same request to a playback of the library. -/
def play : Request → Playback.Play Answer
  | .build offset startMs start => (fun _ => .done) <$> Playback.jump offset startMs start
  | .next => (fun _ => .done) <$> Playback.next
  | .rewind => (fun _ => .done) <$> Playback.rewind
  | .seek t => .number <$> Playback.seek t
  | .positionAt t => .pose <$> Playback.positionAt t
  | .velocityAt t => .pose <$> Playback.velocityAt t
  | .accelerationAt t => .pose <$> Playback.accelerationAt t
  | .durationMs => .milliseconds <$> Playback.durationMs
  | .durationSec => .number <$> Playback.durationSec

end Request

/-- What a player answers, and the player that the request leaves. -/
def Player.run (p : Player) (r : Request) : Except Halt (Except Fault Answer × Player) := do
  let (outcome, head) ← (r.process p.trajectory).run.run p.head
  pure (outcome, { p with head := head })

/-- The players of all trajectories: fresh ones, those that requests leave, and
those that take over the head of another one. -/
inductive Attained : Player → Prop
  | fresh {buffer : Buffer} {tr : Trajectory} {p : Player} : buffer.size ≤ maxBytes →
      load buffer = pure tr → Player.ofTrajectory tr = pure p → Attained p
  | request {p p' : Player} {r : Request} {outcome : Except Fault Answer} : Attained p →
      r.InRange → p.run r = .ok (outcome, p') → Attained p'
  | restore {p q : Player} : Attained p → Attained q → Attained { p with head := q.head }

/-! ## Each request is followed -/

/-- The playback of a trajectory that a head stands for. -/
def Head.within (tr : Trajectory) (h : Head) : Playback := ⟨tr, h.cursor⟩

theorem Follows.withCursor {process : Process α} {move : Trajectory → Cursor.Move α}
    (hp : Follows Head.cursor process (move tr) h) :
    Follows (Head.within tr) process (Playback.withCursor move) h := by
  obtain ⟨h', hrun, hleft, hsound⟩ := hp
  refine ⟨h', ?_, ?_, hsound⟩
  · rw [hrun, Playback.answer_withCursor]
    rfl
  · rw [Playback.left_withCursor, Head.within, hleft]
    rfl

theorem follows_query {curve : Process (Path Single)} {curve' : Cursor.Move (Path Single)}
    {value : Segment → Except Fault (Path Single)} (hbytes : tr.bytes.size ≤ maxBytes)
    (hcurve : ∀ h : Head, h.Sound → Follows Head.cursor curve curve' h)
    (hcomputes : Cursor.Computes curve' value)
    (hfits : ∀ s path, value s = .ok path → Fits path) (t : Single) (hh : h.Sound) :
    Follows (Head.within tr) (query tr curve t) (Playback.query curve' t) h := by
  unfold query Playback.query
  refine (Follows.withCursor (follows_seek hbytes t hh)).bind fun u h₁ _ hh₁ => ?_
  refine (Follows.withCursor (hcurve h₁ hh₁)).bind fun path h₂ hmove hh₂ => ?_
  obtain ⟨hanswer, -⟩ := hcomputes h₁.cursor hh₁.coherent
  obtain ⟨-, hcursor⟩ := Playback.withCursor_eq_ok_iff.mp hmove
  rw [show curve' h₁.cursor = .ok path h₂.cursor from hcursor] at hanswer
  rw [evalPath_eq (hfits _ path hanswer.symm) u]
  exact .pure hh₂ _

theorem follows_request (hbytes : tr.bytes.size ≤ maxBytes) {r : Request} (hr : r.InRange)
    (hh : h.Sound) : Follows (Head.within tr) (r.process tr) r.play h := by
  have hrate : ∀ (value : Segment → Except Fault (Path Single)) (s : Segment),
      (∀ path, value s = .ok path → Fits path) →
        ∀ path, (value s).map s.rate = .ok path → Fits path := by
    intro value s hvalue path hpath
    obtain ⟨before, hbefore, rfl⟩ := map_eq_ok_iff.mp hpath
    exact fits_rate s (hvalue before hbefore)
  have hposition : ∀ (s : Segment) path, s.position = .ok path → Fits path :=
    fun _ _ => fits_position
  have hvelocity : ∀ (s : Segment) path, s.velocity = .ok path → Fits path :=
    fun s => hrate Segment.position s (hposition s)
  have hacceleration : ∀ (s : Segment) path, s.acceleration = .ok path → Fits path :=
    fun s => hrate Segment.velocity s (hvelocity s)
  have hduration := (Follows.withCursor (follows_durationMs hbytes hh))
  cases r with
  | build offset startMs start =>
    have hms : startMs ≤ timeLimit := Nat.le_of_lt_succ hr.2
    have hjump : Follows (Head.within tr) (jump tr offset startMs start)
        (Playback.jump offset startMs start) h :=
      Follows.withCursor (follows_jump hbytes hms offset start hh)
    exact hjump.map _
  | next => exact (Follows.withCursor (follows_next hbytes hh)).map _
  | rewind => exact (Follows.withCursor (follows_rewind hbytes hh)).map _
  | seek t => exact (Follows.withCursor (follows_seek hbytes t hh)).map _
  | positionAt t =>
    exact (follows_query hbytes (fun _ => follows_positionCurve) Cursor.positionCurve_computes
      hposition t hh).map _
  | velocityAt t =>
    exact (follows_query hbytes (fun _ => follows_velocityCurve) Cursor.velocityCurve_computes
      hvelocity t hh).map _
  | accelerationAt t =>
    exact (follows_query hbytes (fun _ => follows_accelerationCurve)
      Cursor.accelerationCurve_computes hacceleration t hh).map _
  | durationMs => exact hduration.map _
  | durationSec =>
    rw [Request.play, Playback.durationSec, ← map_eq_pure_bind]
    exact (hduration.map Segment.seconds).map _

/-! ## Players -/

theorem fresh_told (hbytes : tr.bytes.size ≤ maxBytes) : ∃ outcome : Except Fault Player,
    Player.ofTrajectory tr = told outcome ∧ outcome.map Player.playback = Playback.ofTrajectory tr ∧
      ∀ p, outcome = .ok p → p.trajectory = tr ∧ p.head.Sound := by
  have hyields : Yields _ tr.firstSegment :=
    decode_yields hbytes (Nat.zero_le timeLimit) tr.headerLength tr.start tr.scale
  unfold Player.ofTrajectory Playback.ofTrajectory
  cases hfirst : tr.firstSegment with
  | error e =>
    rw [hfirst] at hyields
    exact ⟨.error e, by rw [show _ = throw e from hyields]; rfl, rfl, by simp⟩
  | ok s =>
    rw [hfirst] at hyields
    obtain ⟨f, hrun, hf⟩ := hyields
    obtain ⟨hclock, -, hin⟩ := holds_places (Nat.zero_le timeLimit) hfirst hf
    refine ⟨.ok ⟨tr, Head.on f⟩, by rw [hrun]; rfl, ?_, ?_⟩
    · show Except.ok (Player.playback ⟨tr, Head.on f⟩) = .ok ⟨tr, Cursor.on s⟩
      rw [← hf.segment]
      rfl
    · intro p hp
      cases hp
      exact ⟨rfl, sound_on hf.totalMs hclock fun hlength => (hin hlength).trans hbytes⟩

theorem load_buffer {buffer : Buffer} (h : Trajectory.ofBuffer buffer = .ok tr)
    (hsize : buffer.size ≤ maxBytes) : tr.bytes.size ≤ maxBytes := by
  obtain ⟨-, hbuffer⟩ := Trajectory.parsed_of_ofBuffer h
  rw [Trajectory.bytes, hbuffer]
  exact hsize

theorem Player.run_eq {p : Player} {r : Request} (hbytes : p.trajectory.bytes.size ≤ maxBytes)
    (hh : p.head.Sound) (hr : r.InRange) : ∃ p', p.run r = .ok (answer (r.play p.playback), p') ∧
      p'.playback = left (r.play p.playback) ∧ p'.trajectory = p.trajectory ∧ p'.head.Sound := by
  obtain ⟨h', hrun, hleft, hsound⟩ := follows_request hbytes hr hh
  refine ⟨⟨p.trajectory, h'⟩, ?_, hleft, rfl, hsound⟩
  unfold Player.run
  rw [hrun]
  rfl

/-- Whatever happened to a player, its bytes and its head are sound. -/
theorem Attained.sound {p : Player} (hp : Attained p) :
    p.trajectory.bytes.size ≤ maxBytes ∧ p.head.Sound := by
  induction hp with
  | @fresh buffer tr p hsize hload hfresh =>
    rw [load_eq] at hload
    have hbytes := load_buffer (told_injective (hload.trans (told_ok tr).symm)) hsize
    obtain ⟨outcome, htold, -, hsound⟩ := fresh_told hbytes
    rw [htold] at hfresh
    obtain ⟨htrajectory, hhead⟩ := hsound p (told_injective (hfresh.trans (told_ok p).symm))
    rw [htrajectory]
    exact ⟨hbytes, hhead⟩
  | request hp hr hrun ih =>
    obtain ⟨p', hrun', -, htrajectory, hhead⟩ := Player.run_eq ih.1 ih.2 hr
    rw [hrun] at hrun'
    cases hrun'
    rw [htrajectory]
    exact ⟨ih.1, hhead⟩
  | restore _ _ ihp ihq => exact ⟨ihp.1, ihq.2⟩

/-- No string of bytes and no request halts a computation on words. Bytes load
as the library loads them, a player starts as a playback does, and after any
requests, also with the heads of players of other bytes, each further one is
answered and leaves the player as it does a playback of the library. A segment
that is decoded anywhere, and that is not the final hold, lies within the bytes. -/
theorem decoding_and_playback_are_never_halted {buffer : Buffer} {p : Player} {r : Request}
    (hbuffer : buffer.size ≤ maxBytes) (hp : Attained p) (hr : r.InRange) :
    (load buffer = told (Trajectory.ofBuffer buffer) ∧
      ∀ tr, Trajectory.ofBuffer buffer = .ok tr → ∃ outcome : Except Fault Player,
        Player.ofTrajectory tr = told outcome ∧
          outcome.map Player.playback = Playback.ofTrajectory tr) ∧
    (∃ p', p.run r = .ok (answer (r.play p.playback), p') ∧
      p'.playback = left (r.play p.playback)) ∧
    ∀ offset startMs start, offset < 2 ^ offsetBits → startMs < 2 ^ clockBits →
      ∃ outcome : Except Fault Frame,
        decode p.trajectory.bytes offset startMs start p.trajectory.scale = told outcome ∧
        outcome.map Frame.segment =
          Segment.decode p.trajectory.bytes offset startMs start p.trajectory.scale ∧
        ∀ f, outcome = .ok f → f.length ≠ 0 → f.offset + f.length ≤ p.trajectory.bytes.size := by
  obtain ⟨hbytes, hhead⟩ := hp.sound
  refine ⟨⟨load_eq buffer, ?_⟩, ?_, ?_⟩
  · intro tr htr
    obtain ⟨outcome, htold, hplayback, -⟩ := fresh_told (load_buffer htr hbuffer)
    exact ⟨outcome, htold, hplayback⟩
  · obtain ⟨p', hrun, hleft, -⟩ := Player.run_eq hbytes hhead hr
    exact ⟨p', hrun, hleft⟩
  · intro offset startMs start _ hms
    have hclock : startMs ≤ timeLimit := Nat.le_of_lt_succ hms
    have hyields := decode_yields hbytes hclock offset start p.trajectory.scale
    cases hdecode : Segment.decode p.trajectory.bytes offset startMs start p.trajectory.scale with
    | error e =>
      rw [hdecode] at hyields
      exact ⟨.error e, hyields, rfl, by simp⟩
    | ok s =>
      rw [hdecode] at hyields
      obtain ⟨f, hrun, hf⟩ := hyields
      refine ⟨.ok f, hrun, congrArg Except.ok hf.segment, ?_⟩
      intro f' hf'
      cases hf'
      exact (holds_places hclock hdecode hf).2.2

/-- A player takes over a head that ends behind all of its own bytes, and moves on
from there to the final hold. -/
theorem a_foreign_head_moves_on : ∃ p p' : Player, Attained p ∧
    p.trajectory.bytes.size < p.head.frame.offset + p.head.frame.length ∧
    p.run .next = .ok (answer (Request.next.play p.playback), p') ∧
    p'.playback = left (Request.next.play p.playback) ∧
    p'.head.frame.offset = 15 ∧ p'.head.frame.length = 0 := by
  obtain ⟨tr, own, hload, hfresh, tr', first, second, hload', hfresh', hmove, hsize, after, hrun,
      hoffset, hlength⟩ : ∃ tr own,
      load (.owned #[1, 0, 0, 0, 0, 0, 0, 0, 0, 0x01, 0xe8, 0x03, 0x64, 0x00]) = pure tr ∧
      Player.ofTrajectory tr = pure own ∧ ∃ tr' first second,
      load (.owned #[1, 0, 0, 0, 0, 0, 0, 0, 0, 0x00, 0xd0, 0x07, 0x00, 0xe8, 0x03]) = pure tr' ∧
      Player.ofTrajectory tr' = pure first ∧ first.run .next = .ok (.ok .done, second) ∧
      own.trajectory.bytes.size < second.head.frame.offset + second.head.frame.length ∧
      ∃ after, { own with head := second.head }.run .next = .ok (.ok .done, after) ∧
        after.head.frame.offset = 15 ∧ after.head.frame.length = 0 :=
    ⟨_, _, rfl, rfl, _, _, _, rfl, rfl, rfl, by decide, _, rfl, rfl, rfl⟩
  have hnext : Request.next.InRange := trivial
  have hother : Attained second := .request (.fresh (by decide) hload' hfresh') hnext hmove
  have hp : Attained { own with head := second.head } :=
    .restore (.fresh (by decide) hload hfresh) hother
  have hbytes : (Buffer.owned #[]).size ≤ maxBytes := by decide
  obtain ⟨-, ⟨p', hanswer, hleft⟩, -⟩ := decoding_and_playback_are_never_halted hbytes hp hnext
  have hsame : after = p' := by
    rw [hrun] at hanswer
    exact congrArg Prod.snd (Except.ok.inj hanswer)
  rw [hsame] at hoffset hlength
  exact ⟨_, p', hp, hsize, hanswer, hleft, hoffset, hlength⟩

end DroneShow.Checked
