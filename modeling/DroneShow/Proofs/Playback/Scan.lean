-- The cursor against a plain scan. From any segment that the walk comes to, a
-- move forward in time ends where the same move ends from the first segment,
-- and that is where a scan of the course stops.
import DroneShow.Proofs.Outcome
import DroneShow.Proofs.Playback.Time
import DroneShow.Proofs.Trajectory.Walk

namespace DroneShow

variable {α : Type} {tr : Trajectory} {s s' first : Segment} {t : Single}

/-! ## The scan -/

/-- The scan of a course for a time: the first segment that does not end
before it, and without one whatever the walk ends with. -/
def Course.find (course : Course) (t : Single) : Except Fault Segment :=
  match course.segments.find? fun s => t ≤ s.endSec with
  | some s => .ok s
  | none => course.outcome

/-- Where a move along a course comes to rest: on the first segment that it
does not leave behind, and without one wherever the walk ends. -/
def Course.rest (course : Course) (behind : Segment → Bool) : Except Fault Segment :=
  match course.segments.find? fun s => !behind s with
  | some s => .ok s
  | none => course.outcome

theorem Course.rest_all (course : Course) : course.rest (fun _ => true) = course.outcome := by
  have hnone : course.segments.find? (fun _ => !true) = none :=
    List.find?_eq_none.mpr fun _ _ h => Bool.false_ne_true h
  unfold Course.rest
  rw [hnone]

namespace Trajectory

/-! ## The segments of a walk -/

/-- The segments that the walk comes to, the final hold included. -/
inductive Visits (tr : Trajectory) : Segment → Prop
  | first {s : Segment} : tr.firstSegment = .ok s → Visits tr s
  | after {s s' : Segment} : Visits tr s → tr.segmentAfter s = .ok s' → Visits tr s'

/-- Where a segment stands: on the clock, and within the bytes unless it is
the final hold. -/
structure Places (tr : Trajectory) (s : Segment) : Prop where
  onClock : s.OnClock
  inBytes : s.isTerminal = false → s.offset + s.length ≤ tr.bytes.size

theorem segmentAt_places {offset startMs : Nat} {start : Pose}
    (h : tr.segmentAt offset startMs start = .ok s) (hms : startMs ≤ timeLimit) :
    tr.Places s ∧ s.offset = offset ∧ s.startMs = startMs := by
  rcases Segment.decode_eq_ok h with ⟨-, rfl⟩ | ⟨r, rest, hr, hbytes, hend, rfl⟩
  · refine ⟨⟨?_, ?_⟩, rfl, rfl⟩
    · show startMs + (timeLimit - startMs) ≤ timeLimit
      omega
    · intro hterminal
      cases hterminal
  · refine ⟨⟨hend, ?_⟩, rfl, rfl⟩
    intro _
    show offset + Record.length r.formats ≤ tr.bytes.size
    have hpos := Record.length_pos r.formats
    have hlen := congrArg List.length hbytes
    rw [List.length_drop, List.length_append, hr.length_toBytes, Array.length_toList] at hlen
    unfold Record.prefixLength at hpos
    omega

theorem Places.after (h : tr.Places s) (hterminal : s.isTerminal = false)
    (hafter : tr.segmentAfter s = .ok s') :
    tr.Places s' ∧ s'.offset = s.offset + s.length ∧ s'.startSec = s.endSec := by
  unfold segmentAfter at hafter
  rw [hterminal, if_neg Bool.false_ne_true] at hafter
  obtain ⟨hplaces, hoffset, hstart⟩ := segmentAt_places hafter (Nat.min_le_right _ _)
  refine ⟨hplaces, hoffset, ?_⟩
  have hend : s.endMs = s.startMs + s.durationMs := Nat.min_eq_left h.onClock
  rw [Segment.startSec, hstart, hend, Segment.endSec]

theorem segmentAfter_terminal (h : s.isTerminal = true) : tr.segmentAfter s = .ok s := by
  unfold segmentAfter
  rw [if_pos h]

theorem Visits.places (h : tr.Visits s) : tr.Places s := by
  induction h with
  | first h => exact (segmentAt_places h (Nat.zero_le _)).1
  | @after s s' _ hafter ih =>
    by_cases hterminal : s.isTerminal = true
    · rw [segmentAfter_terminal hterminal] at hafter
      cases hafter
      exact ih
    · exact (ih.after (Bool.eq_false_iff.mpr hterminal) hafter).1

theorem Visits.outcome (h : tr.Visits s) {steps : Nat}
    (hlast : (tr.courseFrom steps s).outcome = .ok s') : tr.Visits s' := by
  induction steps generalizing s with
  | zero =>
    cases hlast
    exact h
  | succ steps ih =>
    unfold courseFrom at hlast
    split at hlast
    · cases hlast
      exact h
    · cases hafter : tr.segmentAfter s with
      | error e =>
        rw [hafter] at hlast
        cases hlast
      | ok next =>
        rw [hafter] at hlast
        exact ih (.after h hafter) hlast

theorem visits_of_finalHold (h : tr.finalHold = .ok s) : tr.Visits s := by
  rw [finalHold_eq_outcome, course] at h
  cases hfirst : tr.firstSegment with
  | error e =>
    rw [hfirst] at h
    cases h
  | ok first =>
    rw [hfirst] at h
    exact Visits.outcome (.first hfirst) h

theorem Visits.exists_first (h : tr.Visits s) : ∃ first, tr.firstSegment = .ok first := by
  induction h with
  | first h => exact ⟨_, h⟩
  | after _ _ ih => exact ih

theorem startSec_first (h : tr.firstSegment = .ok first) : first.startSec = 0 := by
  obtain ⟨-, -, hstart⟩ := segmentAt_places h (Nat.zero_le _)
  rw [Segment.startSec, hstart]
  rfl

end Trajectory

namespace Cursor

open Trajectory (Visits Places)

variable {behind : Segment → Bool} {c : Cursor} {steps : Nat}

/-! ## Moving on -/

/-- What is seen of a move: its answer, and the segment that it leaves the
cursor on. The curves that the cursor keeps are not part of it. -/
def seen (result : EStateM.Result Fault Cursor α) : Except Fault α × Segment :=
  (answer result, (left result).segment)

/-- The cursor rests on the final hold, and where nothing lies behind. -/
theorem advance_rest (h : c.segment.isTerminal = true ∨ behind c.segment = false) (steps : Nat) :
    advance tr behind steps c = .ok () c := by
  cases steps with
  | zero => rfl
  | succ steps =>
    have hrest : (c.segment.isTerminal || !behind c.segment) = true := by
      rcases h with h | h <;> simp [h]
    simp only [advance, hrest, if_true]

/-- Anywhere else it passes to the next segment, or stays with a fault. -/
theorem advance_step (hterminal : c.segment.isTerminal = false) (hbehind : behind c.segment = true)
    (steps : Nat) : advance tr behind (steps + 1) c =
      match tr.segmentAfter c.segment with
      | .ok s => advance tr behind steps (on s)
      | .error e => .error e c := by
  simp only [advance, next, hterminal, hbehind, Bool.not_true, Bool.or_self, Bool.false_eq_true,
    if_false]
  cases tr.segmentAfter c.segment <;> rfl

/-- A move is seen to go the same way from any cursor on a segment. -/
theorem seen_advance_on (behind : Segment → Bool) (steps : Nat) (c : Cursor) :
    seen (advance tr behind steps c) = seen (advance tr behind steps (on c.segment)) := by
  cases steps with
  | zero => rfl
  | succ steps =>
    by_cases hrest : c.segment.isTerminal = true ∨ behind c.segment = false
    · rw [advance_rest hrest, advance_rest (c := on c.segment) hrest]
      rfl
    · simp only [not_or, Bool.not_eq_true, Bool.not_eq_false] at hrest
      rw [advance_step hrest.1 hrest.2, advance_step (c := on c.segment) hrest.1 hrest.2]
      show seen (match tr.segmentAfter c.segment with | .ok s => _ | .error e => _) =
        seen (match tr.segmentAfter c.segment with | .ok s => _ | .error e => _)
      cases tr.segmentAfter c.segment <;> rfl

/-- More steps than bytes are left do not change a move. -/
theorem advance_enough {steps' : Nat} (hv : tr.Visits c.segment)
    (h : tr.bytes.size < steps + c.segment.offset) (h' : tr.bytes.size < steps' + c.segment.offset) :
    advance tr behind steps c = advance tr behind steps' c := by
  induction steps generalizing c steps' with
  | zero =>
    have hterminal : c.segment.isTerminal = true := by
      by_contra hstored
      have hin := hv.places.inBytes (Bool.eq_false_iff.mpr hstored)
      omega
    rw [advance_rest (.inl hterminal), advance_rest (.inl hterminal)]
  | succ steps ih =>
    by_cases hrest : c.segment.isTerminal = true ∨ behind c.segment = false
    · rw [advance_rest hrest, advance_rest hrest]
    · simp only [not_or, Bool.not_eq_true, Bool.not_eq_false] at hrest
      have hin := hv.places.inBytes hrest.1
      obtain ⟨more, rfl⟩ : ∃ more, steps' = more + 1 := ⟨steps' - 1, by omega⟩
      rw [advance_step hrest.1 hrest.2, advance_step hrest.1 hrest.2]
      cases hafter : tr.segmentAfter c.segment with
      | error e => rfl
      | ok s =>
        obtain ⟨-, hoffset, -⟩ := hv.places.after hrest.1 hafter
        have hpos : c.segment.length ≠ 0 := by simpa [Segment.isTerminal] using hrest.1
        have hon : (on s).segment.offset = c.segment.offset + c.segment.length := hoffset
        exact ih (c := on s) (.after hv hafter) (by omega) (by omega)

/-- The cursor comes to rest where the move along its course does. -/
theorem rest_courseFrom (behind : Segment → Bool) (steps : Nat) (c : Cursor) :
    (tr.courseFrom steps c.segment).rest behind =
      (answer (advance tr behind steps c)).map fun _ =>
        (left (advance tr behind steps c)).segment := by
  induction steps generalizing c with
  | zero => rfl
  | succ steps ih =>
    by_cases hterminal : c.segment.isTerminal = true
    · rw [advance_rest (.inl hterminal), Trajectory.courseFrom, if_pos hterminal]
      rfl
    · rw [Bool.not_eq_true] at hterminal
      rw [Trajectory.courseFrom_succ steps hterminal]
      cases hbehind : behind c.segment with
      | false =>
        rw [advance_rest (.inr hbehind)]
        simp [Course.rest, hbehind, Except.map]
      | true =>
        have hpassed : (⟨c.segment :: (tr.courseAt steps (tr.segmentAfter c.segment)).segments,
            (tr.courseAt steps (tr.segmentAfter c.segment)).outcome⟩ : Course).rest behind =
            (tr.courseAt steps (tr.segmentAfter c.segment)).rest behind := by
          simp [Course.rest, hbehind]
        rw [hpassed, advance_step hterminal hbehind]
        cases tr.segmentAfter c.segment with
        | error e => rfl
        | ok s => exact ih (on s)

/-- A move that leaves a segment of the walk behind goes on from the next one. -/
theorem seen_advance_after (hv : tr.Visits s) (hterminal : s.isTerminal = false)
    (hbehind : behind s = true) (hafter : tr.segmentAfter s = .ok s') :
    seen (advance tr behind tr.maxSteps (on s')) = seen (advance tr behind tr.maxSteps (on s)) := by
  obtain ⟨-, hoffset, -⟩ := hv.places.after hterminal hafter
  have hpos : s.length ≠ 0 := by simpa [Segment.isTerminal] using hterminal
  have hon : (on s').segment.offset = s.offset + s.length := hoffset
  have henough : advance tr behind (tr.bytes.size + 1) (on s') =
      advance tr behind tr.bytes.size (on s') :=
    advance_enough (.after hv hafter) (by omega) (by omega)
  unfold Trajectory.maxSteps
  rw [advance_step (c := on s) hterminal hbehind, henough]
  show _ = seen (match tr.segmentAfter s with | .ok s => _ | .error e => _)
  rw [hafter]

/-! ## Seeking a time -/

theorem endSec_isNaN (s : Segment) : s.endSec.isNaN = false :=
  Binary.div_isNaN (Binary.ofNat_rounds _).isNaN Segment.thousand_represents (by norm_num)

/-- A segment that ends before a time is left behind on the way to it. -/
theorem not_behind (ht : t.isNaN = false) (s : Segment) :
    (!decide (s.endSec < t)) = decide (t ≤ s.endSec) := by
  rw [← decide_not]
  exact decide_eq_decide.mpr (Binary.not_lt (endSec_isNaN s) ht)

/-- The cursor comes to rest where the scan of its course stops. -/
theorem find_courseFrom (ht : t.isNaN = false) (steps : Nat) (c : Cursor) :
    (tr.courseFrom steps c.segment).find t =
      (answer (advance tr (fun s => s.endSec < t) steps c)).map fun _ =>
        (left (advance tr (fun s => s.endSec < t) steps c)).segment := by
  rw [← rest_courseFrom]
  unfold Course.find Course.rest
  simp only [not_behind ht]

/-- From each segment of the walk that starts before a time, the cursor comes
to rest where it does from the first one: all before it end before the time. -/
theorem seen_advanceTo_of_visits (hfirst : tr.firstSegment = .ok first) (hv : tr.Visits s)
    (hs : s.startSec < t) :
    seen (advanceTo tr t (on s)) = seen (advanceTo tr t (on first)) := by
  induction hv with
  | first h =>
    rw [hfirst] at h
    cases h
    rfl
  | @after s s' hv hafter ih =>
    by_cases hterminal : s.isTerminal = true
    · rw [Trajectory.segmentAfter_terminal hterminal] at hafter
      cases hafter
      exact ih hs
    · rw [Bool.not_eq_true] at hterminal
      obtain ⟨-, -, hstart⟩ := hv.places.after hterminal hafter
      rw [hstart] at hs
      rw [← ih (Binary.lt_of_le_of_lt hv.places.onClock.startSec_le_endSec hs)]
      exact seen_advance_after hv hterminal (decide_eq_true hs) hafter

/-- A move that is told as the passed part of the segment it ends on. -/
def tell (t : Single) : EStateM.Result Fault Cursor Unit → EStateM.Result Fault Cursor Single
  | .ok _ c => .ok (relativeTime c.segment t) c
  | .error e c => .error e c

theorem seek_eq_tell (ht : t.isNaN = false) (c : Cursor) :
    seek tr t c = tell t (andThen (turnBack tr t c) (advanceTo tr t)) := by
  unfold seek
  rw [ht, if_neg Bool.false_ne_true]
  show EStateM.bind (turnBack tr t) (fun _ => EStateM.bind (advanceTo tr t) fun _ =>
    EStateM.bind get fun c => pure (relativeTime c.segment t)) c = _
  unfold EStateM.bind
  cases turnBack tr t c with
  | error e c => rfl
  | ok _ c =>
    simp only [andThen]
    cases advanceTo tr t c <;> rfl

/-- A seek answers for the segment that it ends on. -/
theorem seek_answer {u : Single} {c' : Cursor} (ht : t.isNaN = false)
    (h : seek tr t c = .ok u c') : u = relativeTime c'.segment t := by
  rw [seek_eq_tell ht] at h
  cases hmove : andThen (turnBack tr t c) (advanceTo tr t) with
  | error e c'' =>
    rw [hmove] at h
    cases h
  | ok _ c'' =>
    rw [hmove] at h
    cases h
    rfl

theorem seen_tell {r r' : EStateM.Result Fault Cursor Unit} (h : seen r = seen r') :
    seen (tell t r) = seen (tell t r') := by
  cases r with
  | ok _ c =>
    cases r' with
    | ok _ c' => simp_all [seen, tell]
    | error e c' => simp [seen] at h
  | error e c =>
    cases r' with
    | ok _ c' => simp [seen] at h
    | error e' c' => simp_all [seen, tell]

/-- On the first segment, turning back changes nothing that is seen. -/
theorem turnBack_first (hfirst : tr.firstSegment = .ok first) (t : Single) :
    turnBack tr t (on first) = .ok () (on first) := by
  unfold turnBack
  split
  · show place tr.firstSegment (on first) = _
    rw [hfirst]
    rfl
  · rfl

/-- A seek from any segment of the walk is seen to go as one from the first,
unless the time is just the start of the segment. -/
theorem seen_seek_of_visits (hfirst : tr.firstSegment = .ok first) (hv : tr.Visits c.segment)
    (ht : t.isNaN = false) (hne : c.segment.startSec.same t = false) :
    seen (seek tr t c) = seen (seek tr t (on first)) := by
  rw [seek_eq_tell ht, seek_eq_tell ht, turnBack_first hfirst]
  refine seen_tell ?_
  by_cases hback : t < c.segment.startSec
  · have hturn : turnBack tr t c = .ok () (on first) := by
      unfold turnBack
      rw [if_pos hback]
      show place tr.firstSegment c = _
      rw [hfirst]
      rfl
    rw [hturn]
  · have hstay : turnBack tr t c = .ok () c := by
      unfold turnBack
      rw [if_neg hback]
    have hstart : c.segment.startSec.isNaN = false :=
      Binary.div_isNaN (Binary.ofNat_rounds _).isNaN Segment.thousand_represents (by norm_num)
    have hlt : c.segment.startSec < t := by
      rw [← Binary.not_le ht hstart]
      intro hle
      have hsame := Binary.same_iff.mpr ⟨(Binary.not_lt ht hstart).mp hback, hle⟩
      rw [hne] at hsame
      cases hsame
    rw [hstay]
    exact (seen_advance_on _ _ c).trans (seen_advanceTo_of_visits hfirst hv hlt)

/-- Just at the start of its segment, the cursor stays as it is. -/
theorem seek_at_start (hv : tr.Visits c.segment) (ht : t.isNaN = false)
    (hsame : c.segment.startSec.same t = true) :
    seek tr t c = .ok (relativeTime c.segment t) c := by
  obtain ⟨hle, hge⟩ := Binary.same_iff.mp hsame
  have hstay : turnBack tr t c = .ok () c := by
    unfold turnBack
    rw [if_neg ((Binary.not_lt ht (Binary.isNaN_of_le hle).1).mpr hle)]
  have hend : t ≤ c.segment.endSec :=
    Binary.le_trans hge hv.places.onClock.startSec_le_endSec
  have hahead : decide (c.segment.endSec < t) = false :=
    decide_eq_false ((Binary.not_lt (endSec_isNaN _) ht).mpr hend)
  have hrest : advanceTo tr t c = .ok () c := advance_rest (.inr hahead) _
  rw [seek_eq_tell ht, hstay]
  show tell t (advanceTo tr t c) = _
  rw [hrest]
  rfl

/-! ## What a seek leaves -/

/-- A move forward only enters segments that start before the time. -/
theorem advanceTo_startSec {c' : Cursor} {bound : Single} (hv : tr.Visits c.segment)
    (hbound : t ≤ bound) (hc : c.segment.startSec ≤ bound)
    (h : advance tr (fun s => s.endSec < t) steps c = .ok () c') : c'.segment.startSec ≤ bound := by
  induction steps generalizing c with
  | zero =>
    cases h
    exact hc
  | succ steps ih =>
    by_cases hrest : c.segment.isTerminal = true ∨ decide (c.segment.endSec < t) = false
    · rw [advance_rest hrest] at h
      cases h
      exact hc
    · simp only [not_or, Bool.not_eq_true, Bool.not_eq_false] at hrest
      rw [advance_step hrest.1 hrest.2] at h
      cases hafter : tr.segmentAfter c.segment with
      | error e =>
        rw [hafter] at h
        cases h
      | ok s =>
        rw [hafter] at h
        obtain ⟨-, -, hstart⟩ := hv.places.after hrest.1 hafter
        refine ih (c := on s) (.after hv hafter) ?_ h
        show s.startSec ≤ bound
        rw [hstart]
        exact Binary.le_trans (Binary.le_of_lt (of_decide_eq_true hrest.2)) hbound

/-- After a seek the segment does not start behind the time. -/
theorem seek_startSec {u : Single} {c' : Cursor} (hfirst : tr.firstSegment = .ok first)
    (hv : tr.Visits c.segment) (ht : t.isNaN = false) (h : seek tr t c = .ok u c') :
    c'.segment.startSec ≤ max t 0 := by
  have hmax : t ≤ max t 0 := Binary.le_max_left ht rfl
  rw [seek_eq_tell ht] at h
  unfold turnBack at h
  split at h
  · have hback : rewind tr c = .ok () (on first) := by
      show place tr.firstSegment c = _
      rw [hfirst]
      rfl
    rw [hback] at h
    simp only [andThen] at h
    cases hmove : advanceTo tr t (on first) with
    | error e c'' =>
      rw [hmove] at h
      cases h
    | ok _ c'' =>
      rw [hmove] at h
      cases h
      refine advanceTo_startSec (c := on first) (.first hfirst) hmax ?_ hmove
      show first.startSec ≤ max t 0
      rw [Trajectory.startSec_first hfirst]
      exact Binary.le_max_right ht rfl
  · rename_i hahead
    simp only [andThen] at h
    cases hmove : advanceTo tr t c with
    | error e c'' =>
      rw [hmove] at h
      cases h
    | ok _ c'' =>
      rw [hmove] at h
      cases h
      have hstart : c.segment.startSec.isNaN = false :=
        Binary.div_isNaN (Binary.ofNat_rounds _).isNaN Segment.thousand_represents (by norm_num)
      exact advanceTo_startSec hv hmax
        (Binary.le_trans ((Binary.not_lt ht hstart).mp hahead) hmax) hmove

end Cursor

end DroneShow
