-- The head of a player, on words: the frame that it stands on and the curves that
-- it keeps. From a head that is sound, whatever bytes it is of, each move on any
-- bytes is done without a halt, and as the move of a cursor.
import DroneShow.Proofs.Checked.Curve
import DroneShow.Proofs.Playback.Curves

namespace DroneShow.Checked

variable {α β : Type} {tr : Trajectory}

/-! ## Moves -/

/-- Where a player stands: on a frame, with the curves that it keeps. -/
structure Head where
  frame : Frame
  position : Option (Path Single)
  velocity : Option (Path Single)
  acceleration : Option (Path Single)

/-- The cursor that a head holds. -/
def Head.cursor (h : Head) : Cursor := ⟨h.frame.segment, h.position, h.velocity, h.acceleration⟩

def Head.on (f : Frame) : Head := ⟨f, none, none, none⟩

/-- A computation that moves a head, also where it ends with a fault. -/
abbrev Process := ExceptT Fault (StateT Head (Except Halt))

/-- A computation that leaves the head alone. -/
def still (computation : Checked α) : Process α := ExceptT.mk fun h => do
  let outcome ← computation.run
  pure (outcome, h)

def place (computation : Checked Frame) : Process Unit := do
  let f ← still computation
  set (Head.on f)

def jump (tr : Trajectory) (offset startMs : Nat) (start : Pose) : Process Unit :=
  place (decode tr.bytes offset startMs start tr.scale)

def rewind (tr : Trajectory) : Process Unit := jump tr tr.headerLength 0 tr.start

/-- The time at which the next segment starts is the last one at most. -/
def next (tr : Trajectory) : Process Unit := do
  let h ← get
  if h.frame.length = 0 then pure ()
  else
    let offset ← still (add offsetBits h.frame.offset h.frame.length)
    jump tr offset (min (h.frame.startMs + h.frame.durationMs) timeLimit) h.frame.finish

/-- Moves on while `behind` holds of the frame, and is halted if that takes more
moves than the budget. -/
def advance (tr : Trajectory) (behind : Frame → Bool) : Nat → Process Unit
  | 0 => do
    let h ← get
    if h.frame.length = 0 ∨ behind h.frame = false then pure () else still (halt .endless)
  | budget + 1 => do
    let h ← get
    if h.frame.length = 0 ∨ behind h.frame = false then pure ()
    else
      next tr
      advance tr behind budget

def turnBack (tr : Trajectory) (t : Single) : Process Unit := do
  let h ← get
  if t < Segment.seconds h.frame.startMs then rewind tr else pure ()

def seek (tr : Trajectory) (t : Single) : Process Single := do
  if t.isNaN then throw .nanTime
  else
    turnBack tr t
    advance tr (fun f => Segment.seconds f.totalMs < t) tr.maxSteps
    let h ← get
    pure (Cursor.relativeTime h.frame.segment t)

def runOut (tr : Trajectory) : Process Nat := do
  advance tr (fun _ => true) tr.maxSteps
  let h ← get
  pure h.frame.startMs

/-- The head is put back, whether the walk ended with a fault or not. -/
def durationMs (tr : Trajectory) : Process Nat := ExceptT.mk fun h => do
  let (outcome, _) ← (runOut tr).run.run h
  pure (outcome, h)

def remember (known : Option (Path Single)) (compute : Checked (Path Single))
    (keep : Head → Path Single → Head) : Process (Path Single) :=
  match known with
  | some path => pure path
  | none => do
    let path ← still compute
    modify fun h => keep h path
    pure path

def positionCurve : Process (Path Single) := do
  let h ← get
  remember h.position (build h.frame) fun h path => { h with position := some path }

def velocityCurve : Process (Path Single) := do
  let path ← positionCurve
  let h ← get
  remember h.velocity (rate h.frame path) fun h path => { h with velocity := some path }

def accelerationCurve : Process (Path Single) := do
  let path ← velocityCurve
  let h ← get
  remember h.acceleration (rate h.frame path) fun h path => { h with acceleration := some path }

def query (tr : Trajectory) (curve : Process (Path Single)) (t : Single) : Process Pose := do
  let u ← seek tr t
  let path ← curve
  still (evalPath path u)

/-! ## The moves of a cursor -/

/-- What holds of every head, whatever bytes its frame is of. -/
structure Head.Sound (h : Head) : Prop where
  totalMs : h.frame.totalMs = h.frame.startMs + h.frame.durationMs
  onClock : h.frame.startMs + h.frame.durationMs ≤ timeLimit
  inBytes : h.frame.length ≠ 0 → h.frame.offset + h.frame.length ≤ maxBytes
  coherent : h.cursor.Coherent

/-- From this head the process is not halted: it answers as the operation does
on what the head stands for, and leaves a head that stands for what that leaves. -/
def Follows {σ : Type} (view : Head → σ) (process : Process α) (operation : EStateM Fault σ α)
    (h : Head) : Prop :=
  ∃ h', process.run.run h = .ok (answer (operation (view h)), h') ∧
    view h' = left (operation (view h)) ∧ h'.Sound

namespace Follows

variable {σ : Type} {view : Head → σ} {h : Head} {process : Process α}
  {operation : EStateM Fault σ α} {f : α → Process β} {g : α → EStateM Fault σ β}

theorem pure (hh : h.Sound) (a : α) : Follows view (Pure.pure a) (Pure.pure a) h :=
  ⟨h, rfl, rfl, hh⟩

theorem throw (hh : h.Sound) (e : Fault) :
    Follows view (MonadExcept.throw e : Process α) (MonadExcept.throw e) h := ⟨h, rfl, rfl, hh⟩

theorem bind (hp : Follows view process operation h)
    (hf : ∀ a h', operation (view h) = .ok a (view h') → h'.Sound → Follows view (f a) (g a) h') :
    Follows view (process >>= f) (operation >>= g) h := by
  obtain ⟨h', hrun, hleft, hsound⟩ := hp
  cases hoperation : operation (view h) with
  | error e s =>
    rw [hoperation] at hrun hleft
    rw [answer_error] at hrun
    refine ⟨h', ?_, ?_, hsound⟩
    · rw [bind_run_of_error hoperation, run_bind_of_error hrun]
      rfl
    · rw [bind_run_of_error hoperation]
      exact hleft
  | ok a s =>
    rw [hoperation] at hrun hleft
    rw [answer_ok] at hrun
    rw [left_ok] at hleft
    obtain ⟨h'', hrun', hleft', hsound'⟩ := hf a h' (by rw [hoperation, hleft]) hsound
    rw [hleft] at hrun' hleft'
    refine ⟨h'', ?_, ?_, hsound'⟩
    · rw [bind_run_of_ok hoperation, ← hrun', run_bind_of_ok hrun]
    · rw [bind_run_of_ok hoperation]
      exact hleft'

/-- Only what the two do from this head counts. -/
theorem of_eq {process' : Process α} {operation' : EStateM Fault σ α}
    (h' : Follows view process' operation' h)
    (hprocess : process.run.run h = process'.run.run h)
    (hoperation : operation (view h) = operation' (view h)) : Follows view process operation h := by
  unfold Follows
  rw [hprocess, hoperation]
  exact h'

theorem get {f : Head → Process α} {g : σ → EStateM Fault σ α}
    (hf : Follows view (f h) (g (view h)) h) :
    Follows view (MonadState.get >>= f) (MonadState.get >>= g) h := hf

theorem map (hp : Follows view process operation h) (f : α → β) :
    Follows view (f <$> process) (f <$> operation) h := by
  rw [map_eq_pure_bind, map_eq_pure_bind]
  exact hp.bind fun a h' _ hh' => pure hh' (f a)

end Follows

/-! ## Each move is followed -/

theorem sound_on {f : Frame} (htotal : f.totalMs = f.startMs + f.durationMs)
    (hclock : f.startMs + f.durationMs ≤ timeLimit)
    (hbytes : f.length ≠ 0 → f.offset + f.length ≤ maxBytes) : (Head.on f).Sound :=
  ⟨htotal, hclock, hbytes, Cursor.on_coherent f.segment⟩

/-- A frame that was decoded is in time, and within the bytes unless it is the
final hold. -/
theorem holds_places {f : Frame} {offset startMs : Nat} {start : Pose}
    {s : Segment} (hms : startMs ≤ timeLimit)
    (hdecode : tr.segmentAt offset startMs start = .ok s) (hf : f.Holds s) :
    f.startMs + f.durationMs ≤ timeLimit ∧ f.offset = offset ∧
      (f.length ≠ 0 → f.offset + f.length ≤ tr.bytes.size) := by
  obtain ⟨⟨hclock, hbytes⟩, hoffset, -⟩ := Trajectory.segmentAt_places hdecode hms
  obtain ⟨rfl, -⟩ := hf
  refine ⟨hclock, hoffset, ?_⟩
  intro hlength
  exact hbytes (beq_eq_false_iff_ne.mpr hlength)

variable {h : Head}

@[simp] theorem Head.segment_cursor (h : Head) : h.cursor.segment = h.frame.segment := rfl

theorem Frame.isTerminal_segment (f : Frame) : f.segment.isTerminal = true ↔ f.length = 0 :=
  beq_iff_eq

theorem follows_jump (hbytes : tr.bytes.size ≤ maxBytes) {startMs : Nat}
    (hms : startMs ≤ timeLimit) (offset : Nat) (start : Pose) (hh : h.Sound) :
    Follows Head.cursor (jump tr offset startMs start) (Cursor.place (tr.segmentAt offset startMs start)) h := by
  have hyields := decode_yields hbytes hms offset start tr.scale
  unfold jump place
  change Yields _ (tr.segmentAt offset startMs start) at hyields
  cases hdecode : tr.segmentAt offset startMs start with
  | error e =>
    rw [hdecode] at hyields
    rw [show decode tr.bytes offset startMs start tr.scale = throw e from hyields]
    exact .throw hh e
  | ok s =>
    rw [hdecode] at hyields
    obtain ⟨f, hrun, hf⟩ := hyields
    obtain ⟨hclock, -, hin⟩ := holds_places hms hdecode hf
    rw [hrun]
    refine ⟨Head.on f, rfl, ?_, sound_on hf.totalMs hclock fun hlength => (hin hlength).trans hbytes⟩
    rw [Head.cursor, Head.on, hf.segment]
    rfl

theorem follows_next (hbytes : tr.bytes.size ≤ maxBytes) (hh : h.Sound) :
    Follows Head.cursor (next tr) (Cursor.next tr) h := by
  have hrest := h.frame.isTerminal_segment
  by_cases hterminal : h.frame.length = 0
  · refine (Follows.pure hh ()).of_eq ?_ ?_
    · rw [next, run_get_bind, if_pos hterminal]
    · rw [Cursor.next, Head.segment_cursor, if_pos (hrest.mpr hterminal)]
      rfl
  · have hin := hh.inBytes hterminal
    have hsum : add offsetBits h.frame.offset h.frame.length =
        told (.ok (h.frame.offset + h.frame.length)) :=
      add_offset (by unfold maxBytes at hin; omega)
    refine (follows_jump hbytes (Nat.min_le_right (h.frame.startMs + h.frame.durationMs) timeLimit)
      (h.frame.offset + h.frame.length) h.frame.finish hh).of_eq ?_ ?_
    · rw [next, run_get_bind, if_neg hterminal, hsum]
      rfl
    · rw [Cursor.next, Head.segment_cursor, Trajectory.segmentAfter, if_neg (mt hrest.mp hterminal),
        if_neg (mt hrest.mp hterminal)]
      rfl

/-- A move to the next segment leaves the bytes of the one before behind. -/
theorem offset_next {h' : Head} (hterminal : h.frame.length ≠ 0)
    (hmove : Cursor.next tr h.cursor = .ok () h'.cursor) :
    h.frame.offset < h'.frame.offset ∧
      (h'.frame.length = 0 ∨ h'.frame.offset < tr.bytes.size) := by
  have hrest := mt h.frame.isTerminal_segment.mp hterminal
  rw [Cursor.next, Head.segment_cursor, if_neg hrest, Trajectory.segmentAfter, if_neg hrest] at hmove
  cases hdecode : tr.segmentAt (h.frame.segment.offset + h.frame.segment.length)
      h.frame.segment.endMs h.frame.segment.finish with
  | error e =>
    rw [hdecode] at hmove
    cases hmove
  | ok s =>
    rw [hdecode] at hmove
    have hsegment : s = h'.frame.segment := by
      have hcursor : EStateM.Result.ok () (Cursor.on s) = .ok () h'.cursor := hmove
      injection hcursor with _ hcursor
      exact congrArg Cursor.segment hcursor
    obtain ⟨⟨-, hin⟩, hoffset, -⟩ := Trajectory.segmentAt_places hdecode (Nat.min_le_right _ _)
    rw [hsegment] at hin hoffset
    change h'.frame.offset = h.frame.offset + h.frame.length at hoffset
    refine ⟨by omega, ?_⟩
    by_cases hlast : h'.frame.length = 0
    · exact .inl hlast
    · have hplace : h'.frame.offset + h'.frame.length ≤ tr.bytes.size :=
        hin (beq_eq_false_iff_ne.mpr hlast)
      exact .inr (by omega)

theorem advance_succ {behind : Segment → Bool} (budget : Nat) {c : Cursor}
    (hterminal : ¬ c.segment.isTerminal = true) (hbehind : ¬ behind c.segment = false) :
    Cursor.advance tr behind (budget + 1) c =
      (Cursor.next tr >>= fun _ => Cursor.advance tr behind budget) c := by
  have hgo : ¬ (c.segment.isTerminal || !behind c.segment) = true := by
    simpa using And.intro hterminal hbehind
  simp only [Cursor.advance, hgo, Bool.false_eq_true, if_false]
  cases hnext : Cursor.next tr c with
  | ok _ c' => rw [bind_run_of_ok hnext]
  | error e c' => rw [bind_run_of_error hnext]

/-- The budget is enough: each move but the first one passes bytes. -/
theorem follows_advance (hbytes : tr.bytes.size ≤ maxBytes) {behind : Frame → Bool}
    {behind' : Segment → Bool}
    (hbehind : ∀ h : Head, h.Sound → behind h.frame = behind' h.frame.segment) (budget : Nat)
    (hh : h.Sound)
    (henough : h.frame.length = 0 ∨ 0 < budget ∧ tr.bytes.size < budget + h.frame.offset) :
    Follows Head.cursor (advance tr behind budget) (Cursor.advance tr behind' budget) h := by
  induction budget generalizing h with
  | zero =>
    have hterminal : h.frame.length = 0 := henough.resolve_right fun hlt => by omega
    refine (Follows.pure hh ()).of_eq ?_ rfl
    rw [advance, run_get_bind, if_pos (.inl hterminal)]
  | succ budget ih =>
    by_cases hrest : h.frame.length = 0 ∨ behind h.frame = false
    · refine (Follows.pure hh ()).of_eq ?_ ?_
      · rw [advance, run_get_bind, if_pos hrest]
      · rw [hbehind h hh, ← h.frame.isTerminal_segment] at hrest
        rw [Cursor.advance_rest (c := h.cursor) hrest]
        rfl
    · obtain ⟨hterminal, hleft⟩ := not_or.mp hrest
      rw [hbehind h hh] at hleft
      have hstep : Follows Head.cursor (next tr >>= fun _ => advance tr behind budget)
          (Cursor.next tr >>= fun _ => Cursor.advance tr behind' budget) h := by
        refine (follows_next hbytes hh).bind fun _ h' hmove hh' => ih hh' ?_
        obtain ⟨hpassed, hlast⟩ := offset_next hterminal hmove
        obtain ⟨-, hsize⟩ := henough.resolve_left hterminal
        exact hlast.imp id fun hlt => ⟨by omega, by omega⟩
      refine hstep.of_eq ?_ ?_
      · rw [advance, run_get_bind, if_neg hrest]
      · exact advance_succ budget (mt h.frame.isTerminal_segment.mp hterminal) hleft

theorem follows_advanceAll (hbytes : tr.bytes.size ≤ maxBytes) {behind : Frame → Bool}
    {behind' : Segment → Bool}
    (hbehind : ∀ h : Head, h.Sound → behind h.frame = behind' h.frame.segment) (hh : h.Sound) :
    Follows Head.cursor (advance tr behind tr.maxSteps) (Cursor.advance tr behind' tr.maxSteps) h := by
  refine follows_advance hbytes hbehind tr.maxSteps hh (.inr ?_)
  unfold Trajectory.maxSteps
  omega

theorem follows_rewind (hbytes : tr.bytes.size ≤ maxBytes) (hh : h.Sound) :
    Follows Head.cursor (rewind tr) (Cursor.rewind tr) h :=
  follows_jump hbytes (Nat.zero_le timeLimit) tr.headerLength tr.start hh

theorem follows_turnBack (hbytes : tr.bytes.size ≤ maxBytes) (t : Single) (hh : h.Sound) :
    Follows Head.cursor (turnBack tr t) (Cursor.turnBack tr t) h := by
  by_cases hback : t < Segment.seconds h.frame.startMs
  · refine (follows_rewind hbytes hh).of_eq ?_ ?_
    · rw [turnBack, run_get_bind, if_pos hback]
    · exact if_pos hback
  · refine (Follows.pure hh ()).of_eq ?_ ?_
    · rw [turnBack, run_get_bind, if_neg hback]
    · exact if_neg hback

theorem follows_seek (hbytes : tr.bytes.size ≤ maxBytes) (t : Single) (hh : h.Sound) :
    Follows Head.cursor (seek tr t) (Cursor.seek tr t) h := by
  unfold seek Cursor.seek
  split
  · exact .throw hh .nanTime
  · refine (follows_turnBack hbytes t hh).bind fun _ h₁ _ hh₁ => ?_
    have hbehind : ∀ h : Head, h.Sound →
        decide (Segment.seconds h.frame.totalMs < t) = decide (h.frame.segment.endSec < t) := by
      intro h hh
      rw [hh.totalMs]
      rfl
    refine (follows_advanceAll hbytes hbehind hh₁).bind fun _ h₂ _ hh₂ => ?_
    exact .get (.pure hh₂ _)

theorem follows_durationMs (hbytes : tr.bytes.size ≤ maxBytes) (hh : h.Sound) :
    Follows Head.cursor (durationMs tr) (Cursor.durationMs tr) h := by
  have hout : Follows Head.cursor (runOut tr) (Cursor.runOut tr) h := by
    unfold runOut Cursor.runOut
    refine (follows_advanceAll hbytes (fun _ _ => rfl) hh).bind fun _ h' _ hh' => ?_
    exact .get (.pure hh' _)
  obtain ⟨h', hrun, -, -⟩ := hout
  have hanswer : answer (Cursor.durationMs tr h.cursor) = answer (Cursor.runOut tr h.cursor) := by
    unfold Cursor.durationMs
    cases Cursor.runOut tr h.cursor <;> rfl
  have hleft : left (Cursor.durationMs tr h.cursor) = h.cursor := by
    unfold Cursor.durationMs
    cases Cursor.runOut tr h.cursor <;> rfl
  refine ⟨h, ?_, hleft.symm, hh⟩
  rw [hanswer]
  show ((runOut tr).run.run h >>= fun result => pure (result.1, h)) = _
  rw [hrun]
  rfl

/-! ## Curves -/

theorem follows_remember {known : Option (Path Single)} {compute : Checked (Path Single)}
    {outcome : Except Fault (Path Single)} {keep : Head → Path Single → Head}
    {keep' : Cursor → Path Single → Cursor} (hh : h.Sound) (hcompute : compute = told outcome)
    (hkeep : ∀ path, (keep h path).cursor = keep' h.cursor path ∧ (keep h path).frame = h.frame)
    (hcoherent : (left (Cursor.remember known outcome keep' h.cursor)).Coherent) :
    Follows Head.cursor (remember known compute keep) (Cursor.remember known outcome keep') h := by
  subst hcompute
  cases known with
  | some path => exact .pure hh path
  | none =>
    cases outcome with
    | error e => exact .throw hh e
    | ok path =>
      obtain ⟨hcursor, hframe⟩ := hkeep path
      refine ⟨keep h path, rfl, hcursor, ?_, ?_, ?_, ?_⟩
      · rw [hframe]
        exact hh.totalMs
      · rw [hframe]
        exact hh.onClock
      · rw [hframe]
        exact hh.inBytes
      · rw [hcursor]
        exact hcoherent

theorem follows_positionCurve (hh : h.Sound) : Follows Head.cursor positionCurve Cursor.positionCurve h := by
  obtain ⟨-, -, hcoherent⟩ := Cursor.positionCurve_computes h.cursor hh.coherent
  exact .get (follows_remember hh (build_eq h.frame) (fun _ => ⟨rfl, rfl⟩) hcoherent)

theorem Follows.rated {process : Process (Path Single)} {curve : Cursor.Move (Path Single)}
    {known : Head → Option (Path Single)} {known' : Cursor → Option (Path Single)}
    {keep : Head → Path Single → Head} {keep' : Cursor → Path Single → Cursor}
    (hp : Follows Head.cursor process curve h)
    (hfits : ∀ path, answer (curve h.cursor) = .ok path → Fits path)
    (hknown : ∀ h : Head, known h = known' h.cursor)
    (hkeep : ∀ h path, (keep h path).cursor = keep' h.cursor path ∧ (keep h path).frame = h.frame)
    (hcoherent : (left ((do
      let path ← curve
      let c ← MonadState.get
      Cursor.remember (known' c) (.ok (c.segment.rate path)) keep' : Cursor.Move _)
        h.cursor)).Coherent) :
    Follows Head.cursor (do
      let path ← process
      let h ← MonadState.get
      remember (known h) (rate h.frame path) keep) (do
      let path ← curve
      let c ← MonadState.get
      Cursor.remember (known' c) (.ok (c.segment.rate path)) keep') h := by
  refine hp.bind fun path h' hmove hh' => .get ?_
  rw [bind_run_of_ok hmove] at hcoherent
  have hrate : rate h'.frame path = told (.ok (h'.frame.segment.rate path)) :=
    rate_eq h'.frame (hfits path (by rw [hmove]; rfl))
  rw [hknown]
  exact follows_remember hh' hrate (hkeep h') hcoherent

theorem follows_velocityCurve (hh : h.Sound) : Follows Head.cursor velocityCurve Cursor.velocityCurve h := by
  obtain ⟨hanswer, -⟩ := Cursor.positionCurve_computes h.cursor hh.coherent
  obtain ⟨-, -, hcoherent⟩ := Cursor.velocityCurve_computes h.cursor hh.coherent
  refine (follows_positionCurve hh).rated ?_ (fun _ => rfl) (fun _ _ => ⟨rfl, rfl⟩) hcoherent
  intro path hpath
  rw [hanswer] at hpath
  exact fits_position hpath

theorem follows_accelerationCurve (hh : h.Sound) :
    Follows Head.cursor accelerationCurve Cursor.accelerationCurve h := by
  obtain ⟨hanswer, -⟩ := Cursor.velocityCurve_computes h.cursor hh.coherent
  obtain ⟨-, -, hcoherent⟩ := Cursor.accelerationCurve_computes h.cursor hh.coherent
  refine (follows_velocityCurve hh).rated ?_ (fun _ => rfl) (fun _ _ => ⟨rfl, rfl⟩) hcoherent
  intro path hpath
  rw [hanswer] at hpath
  obtain ⟨position, hposition, rfl⟩ := map_eq_ok_iff.mp hpath
  exact fits_rate _ (fits_position hposition)

end DroneShow.Checked
