-- Playback goes forward. A later time lies in the same segment or in a later
-- one, and within a segment no less of it has passed, also where times in
-- seconds coincide, segments take no time, or a time is infinite.
import Mathlib.Data.Prod.Lex
import DroneShow.Proofs.Binary.Monotone
import DroneShow.Proofs.Playback.History

namespace DroneShow

variable {tr : Trajectory} {s first : Segment} {t t' : Single}

/-! ## Within a segment -/

theorem Segment.OnClock.relativeTime_mono (h : s.OnClock) (hle : t ≤ t') :
    Cursor.relativeTime s t ≤ Cursor.relativeTime s t' := by
  obtain ⟨ht, ht'⟩ := Binary.isNaN_of_le hle
  by_cases hend' : t'.same (.infinity false) = true
  · have hone : Cursor.relativeTime s t' = 1 := by
      unfold Cursor.relativeTime
      rw [if_pos hend']
    rw [hone]
    exact (h.relativeTime_mem ht).2
  · have hend : ¬ t.same (.infinity false) = true := by
      intro hsame
      have hge := Binary.le_trans (Binary.same_iff.mp hsame).2 hle
      exact hend' (Binary.same_iff.mpr ⟨Binary.le_infinity ht', hge⟩)
    unfold Cursor.relativeTime
    rw [if_neg hend, if_neg hend']
    split
    · exact Binary.le_refl rfl
    · rename_i hms
      have hstart : s.startMs ≤ timeLimit := le_trans (Nat.le_add_right _ _) h
      have hduration : s.durationMs ≤ timeLimit := le_trans (Nat.le_add_left _ _) h
      obtain ⟨p, hp⟩ := Segment.seconds_represents hstart
      obtain ⟨q, hq⟩ := Segment.seconds_represents hduration
      have hpos := Segment.seconds_pos (Nat.pos_of_ne_zero hms) hduration
      rw [Binary.lt_iff_of_represents Quantum.zero_represents hq] at hpos
      exact Binary.clamp_mono (Binary.div_mono (Binary.sub_mono hle hp) hq hpos) rfl rfl

/-! ## Along the walk -/

/-- All segments that a walk comes to, the final hold included. -/
def Course.stations (course : Course) : List Segment :=
  course.segments ++ course.outcome.toOption.toList

theorem Course.find_eq_ok {course : Course} (h : course.find t = .ok s) :
    course.stations[course.segments.findIdx fun s => t ≤ s.endSec]? = some s := by
  unfold Course.find at h
  rw [List.find?_eq_getElem?_findIdx] at h
  unfold Course.stations
  split at h
  · rename_i found hfound
    cases h
    obtain ⟨hlt, -⟩ := List.getElem?_eq_some_iff.mp hfound
    rwa [List.getElem?_append_left hlt]
  · rename_i hnone
    rw [List.getElem?_eq_none_iff] at hnone
    rw [List.getElem?_append_right hnone, h, Nat.sub_eq_zero_of_le List.findIdx_le_length]
    rfl

theorem Course.findIdx_mono (course : Course) (hle : t ≤ t') :
    (course.segments.findIdx fun s => t ≤ s.endSec) ≤
      course.segments.findIdx fun s => t' ≤ s.endSec := by
  refine List.findIdx_le_findIdx fun s _ hs => ?_
  exact decide_eq_true (Binary.le_trans hle (of_decide_eq_true hs))

namespace Trajectory

/-- From each segment on, the walk only comes to segments further back in the bytes. -/
theorem exists_stations (steps : Nat) (s : Segment) : ∃ rest,
    (tr.courseFrom steps s).stations = s :: rest ∧
      (s :: rest).Pairwise fun a b => a.offset < b.offset := by
  induction steps generalizing s with
  | zero => exact ⟨[], rfl, List.pairwise_singleton _ s⟩
  | succ steps ih =>
    by_cases hterminal : s.isTerminal = true
    · refine ⟨[], ?_, List.pairwise_singleton _ s⟩
      rw [courseFrom, if_pos hterminal]
      rfl
    · rw [Bool.not_eq_true] at hterminal
      rw [courseFrom_succ steps hterminal]
      cases hafter : tr.segmentAfter s with
      | error e => exact ⟨[], rfl, List.pairwise_singleton _ s⟩
      | ok next =>
        obtain ⟨rest, hrest, hback⟩ := ih next
        have hnext : s.offset < next.offset := by
          have hpos : s.length ≠ 0 := by simpa [Segment.isTerminal] using hterminal
          rw [segmentAfter, hterminal, if_neg Bool.false_ne_true] at hafter
          obtain ⟨-, hoffset, -⟩ := segmentAt_places hafter (Nat.min_le_right _ _)
          omega
        refine ⟨next :: rest, congrArg (s :: ·) hrest, List.pairwise_cons.mpr ⟨?_, hback⟩⟩
        intro x hx
        rcases List.mem_cons.mp hx with rfl | hx
        · exact hnext
        · exact hnext.trans (List.rel_of_pairwise_cons hback hx)

theorem nodup_stations (tr : Trajectory) : tr.course.stations.Nodup := by
  unfold course
  cases tr.firstSegment with
  | error e => exact List.nodup_nil
  | ok first =>
    obtain ⟨rest, hrest, hback⟩ := tr.exists_stations tr.maxSteps first
    rw [courseAt, hrest]
    refine hback.imp fun hlt heq => ?_
    rw [heq] at hlt
    exact lt_irrefl _ hlt

end Trajectory

namespace Playback

variable {p p' fresh p₁ p₂ : Playback} {t₁ t₂ u u₁ u₂ : Single}

/-- A seek that succeeds stays on the walk and answers for the segment that it ends on. -/
theorem Shows.seek_ok (h : p.Shows tr) (ht : t.isNaN = false) (hseek : seek t p = .ok u p') :
    p'.Shows tr ∧ u = Cursor.relativeTime p'.cursor.segment t := by
  have hkept := keeps_seek (Cursor.onWalk_lasting tr) t p ⟨h.trajectory, h.cursor⟩
  rw [hseek] at hkept
  obtain ⟨-, hmove⟩ := withCursor_eq_ok_iff.mp hseek
  exact ⟨⟨hkept.trajectory, hkept.cursor⟩, Cursor.seek_answer ht hmove⟩

/-- Playback goes forward. Of two times in order, a seek for the later one on a fresh playback
ends on a later station of the walk than a seek for the earlier one, or on the same with no less
of it passed. So it is as well where the two times are sought one after the other on one fresh
playback, and there the second seek succeeds too. The walk comes to no station twice, so that
each has one place in it. -/
theorem later_times_lie_ahead (hfresh : ofTrajectory tr = .ok fresh) (hle : t₁ ≤ t₂)
    (h₁ : seek t₁ fresh = .ok u₁ p₁) (h₂ : seek t₂ fresh = .ok u₂ p₂) :
    tr.course.stations.Nodup ∧ ∃ i j : Nat,
      tr.course.stations[i]? = some p₁.cursor.segment ∧
      tr.course.stations[j]? = some p₂.cursor.segment ∧ toLex (i, u₁) ≤ toLex (j, u₂) ∧
      ∃ (u : Single) (p : Playback) (k : Nat), seek t₂ p₁ = .ok u p ∧
        tr.course.stations[k]? = some p.cursor.segment ∧ toLex (i, u₁) ≤ toLex (k, u) := by
  obtain ⟨ht₁, ht₂⟩ := Binary.isNaN_of_le hle
  obtain ⟨first, hfirst, rfl⟩ := ofTrajectory_eq_ok hfresh
  have hshows : (⟨tr, Cursor.on first⟩ : Playback).Shows tr := ⟨rfl, .first hfirst⟩
  obtain ⟨hshows₁, hu₁⟩ := hshows.seek_ok ht₁ h₁
  obtain ⟨-, hu₂⟩ := hshows.seek_ok ht₂ h₂
  have hclock := hshows₁.cursor.places.onClock
  have hi := Course.find_eq_ok ((seek_fresh hfresh ht₁).2 u₁ p₁ h₁)
  have hj := Course.find_eq_ok ((seek_fresh hfresh ht₂).2 u₂ p₂ h₂)
  have hahead := tr.course.findIdx_mono hle
  generalize tr.course.segments.findIdx (fun s => t₁ ≤ s.endSec) = i at hi hahead
  generalize tr.course.segments.findIdx (fun s => t₂ ≤ s.endSec) = j at hj hahead
  have hforward : toLex (i, u₁) ≤ toLex (j, u₂) := by
    rw [Prod.Lex.toLex_le_toLex]
    rcases hahead.lt_or_eq with hlt | rfl
    · exact .inl hlt
    · refine .inr ⟨rfl, ?_⟩
      have hsame : p₂.cursor.segment = p₁.cursor.segment := Option.some.inj (hj.symm.trans hi)
      rw [hu₁, hu₂, hsame]
      exact hclock.relativeTime_mono hle
  refine ⟨tr.nodup_stations, i, j, hi, hj, hforward, ?_⟩
  cases hstart : p₁.cursor.segment.startSec.same t₂ with
  | true =>
    refine ⟨Cursor.relativeTime p₁.cursor.segment t₂, p₁, i, ?_, hi, ?_⟩
    · refine withCursor_eq_ok_iff.mpr ⟨rfl, ?_⟩
      rw [hshows₁.trajectory]
      exact Cursor.seek_at_start hshows₁.cursor ht₂ hstart
    · rw [Prod.Lex.toLex_le_toLex, hu₁]
      exact .inr ⟨rfl, hclock.relativeTime_mono hle⟩
  | false =>
    obtain ⟨hanswer, hleft⟩ := hshows₁.seek_eq_fresh hfresh ht₂ hstart
    rw [h₂] at hanswer hleft
    cases hseek : seek t₂ p₁ with
    | error e p =>
      rw [hseek] at hanswer
      cases hanswer
    | ok u p =>
      rw [hseek] at hanswer hleft
      cases hanswer
      exact ⟨_, p, j, rfl, hleft ▸ hj, hforward⟩

/-- From the very end of a hold of two seconds past a jump that takes no time, and on to the end
of all times. -/
theorem the_end_of_time_lies_ahead : ∃ tr fresh p₁ p₂ u₁ u₂,
    Trajectory.ofBytes #[1, 0, 0, 0, 0, 0, 0, 0, 0, 0x00, 0xd0, 0x07, 0x01, 0, 0, 100, 0] = .ok tr ∧
    ofTrajectory tr = .ok fresh ∧ (2 : Single) ≤ .infinity false ∧
    seek 2 fresh = .ok u₁ p₁ ∧ p₁.cursor.segment.startMs = 0 ∧
    seek (.infinity false) fresh = .ok u₂ p₂ ∧ isAtEnd p₂ = true ∧
    ∃ i j : Nat, tr.course.stations[i]? = some p₁.cursor.segment ∧
      tr.course.stations[j]? = some p₂.cursor.segment ∧ toLex (i, u₁) ≤ toLex (j, u₂) := by
  obtain ⟨tr, fresh, hparse, hfresh, hok₁, hms, hok₂, hend⟩ : ∃ tr fresh, Trajectory.ofBytes
        #[1, 0, 0, 0, 0, 0, 0, 0, 0, 0x00, 0xd0, 0x07, 0x01, 0, 0, 100, 0] = .ok tr ∧
      ofTrajectory tr = .ok fresh ∧ (answer (seek 2 fresh)).isOk = true ∧
      (left (seek 2 fresh)).cursor.segment.startMs = 0 ∧
      (answer (seek (.infinity false) fresh)).isOk = true ∧
      isAtEnd (left (seek (.infinity false) fresh)) = true :=
    ⟨_, _, rfl, rfl, by decide +kernel, by decide +kernel, by decide +kernel, by decide +kernel⟩
  obtain ⟨u₁, h₁⟩ := exists_eq_ok_left hok₁
  obtain ⟨u₂, h₂⟩ := exists_eq_ok_left hok₂
  have hle : (2 : Single) ≤ .infinity false := Binary.le_infinity rfl
  obtain ⟨-, i, j, hi, hj, hforward, -⟩ := later_times_lie_ahead hfresh hle h₁ h₂
  exact ⟨tr, fresh, _, _, u₁, u₂, hparse, hfresh, hle, h₁, hms, h₂, hend, i, j, hi, hj, hforward⟩

end Playback

end DroneShow
