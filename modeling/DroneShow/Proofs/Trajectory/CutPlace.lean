-- Where a cut falls. Its time is a whole number of milliseconds or infinite,
-- and the search stops behind the records that end up to that time.
import DroneShow.Proofs.Outcome
import DroneShow.Proofs.Playback.Time
import DroneShow.Proofs.Trajectory.Grammar
import DroneShow.Trajectory.Cut

namespace DroneShow.Trajectory

open Binary
open Record (Spells spellAll totalMs)

variable {tr : Trajectory} {t ms : Single} {rs : List Record} {rest : List UInt8}

/-! ## The time of a cut -/

theorem round_single {x : Single} {q : ℚ} (hx : x.Represents q) :
    x.round.Represents (nearestInt q : ℚ) :=
  round_represents_nearestInt (by decide) (by decide) hx

theorem finite_or_infinite {x : Single} (hx : 0 ≤ x) :
    (∃ q, 0 ≤ q ∧ x.Represents q) ∨ x = infinity false := by
  cases hfinite : x.isFinite with
  | true =>
    obtain ⟨q, hq⟩ := exists_represents hfinite
    exact .inl ⟨q, (le_iff_of_represents Quantum.zero_represents hq).mp hx, hq⟩
  | false =>
    right
    cases x with
    | nan => exact absurd hx not_le_nan
    | number n rank hrank =>
      simp only [isFinite, decide_eq_false_iff_not, not_lt] at hfinite
      obtain rfl : rank = binary32.infinityRank := Nat.le_antisymm hrank hfinite
      cases n with
      | false => rfl
      | true => exact absurd hx (show ¬ (0 : Single) ≤ infinity true by decide)

theorem cutMs_whole (ht : t.isNaN = false) :
    (∃ k : ℕ, (cutMs t).Represents k) ∨ cutMs t = infinity false := by
  have hzero := Quantum.zero_represents
  unfold cutMs
  rcases finite_or_infinite (le_max_right ht (y := (0 : Single)) rfl) with ⟨q, hq, hrep⟩ | hinf
  · have hproduct := mul_rounds hrep Segment.thousand_represents
    have hnonneg : (0 : Single) ≤ max t 0 * 1000 := hzero.rounds.mono hproduct (by positivity)
    rcases finite_or_infinite hnonneg with ⟨r, hr, hms⟩ | hinf
    · left
      have hround := round_single hms
      have hle : 0 ≤ nearestInt r := by
        rw [← nearestInt_intCast 0]
        exact nearestInt_mono (by exact_mod_cast hr)
      refine ⟨(nearestInt r).toNat, ?_⟩
      have hcast : (((nearestInt r).toNat : ℤ) : ℚ) = nearestInt r := by
        rw [Int.toNat_of_nonneg hle]
      rwa [← hcast] at hround
    · right
      rw [hinf, round_infinity]
  · right
    rw [hinf]
    decide

theorem cutMs_nonneg (ht : t.isNaN = false) : 0 ≤ cutMs t := by
  rcases cutMs_whole ht with ⟨k, hk⟩ | hinf
  · rw [le_iff_of_represents Quantum.zero_represents hk]
    positivity
  · rw [hinf]
    decide

theorem finite_pair_or_infinite {x y : Single} (hx : 0 ≤ x) (h : x ≤ y) :
    (∃ p q, x.Represents p ∧ y.Represents q ∧ p ≤ q) ∨ y = infinity false := by
  rcases finite_or_infinite (Binary.le_trans hx h) with ⟨q, -, hq⟩ | hinf
  · obtain ⟨p, hp, -, hle⟩ := represents_between Quantum.zero_represents hq hx h
    exact .inl ⟨p, q, hp, hq, hle⟩
  · exact .inr hinf

theorem max_zero_mono {x y : Single} (h : x ≤ y) : max x 0 ≤ max y 0 := by
  obtain ⟨hx, hy⟩ := isNaN_of_le h
  show Binary.max x 0 ≤ max y 0
  unfold Binary.max
  simp only [hx, Bool.false_eq_true, if_false]
  split
  · exact Binary.le_trans h (le_max_left hy rfl)
  split
  · exact le_max_right hy rfl
  · exact Binary.le_trans h (le_max_left hy rfl)

theorem cutMs_mono {t' : Single} (h : t ≤ t') : cutMs t ≤ cutMs t' := by
  obtain ⟨ht, ht'⟩ := isNaN_of_le h
  have htop : cutMs t ≤ infinity false := le_infinity (isNaN_of_le (cutMs_nonneg ht)).2
  rcases finite_pair_or_infinite (le_max_right ht rfl) (max_zero_mono h) with
    ⟨p, q, hp, hq, hle⟩ | hinf
  · have hproduct := mul_rounds hp Segment.thousand_represents
    have hproduct' := mul_rounds hq Segment.thousand_represents
    have hzero : 0 ≤ max t 0 * 1000 := by
      have hp₀ := (le_iff_of_represents Quantum.zero_represents hp).mp (le_max_right ht rfl)
      exact Quantum.zero_represents.rounds.mono hproduct (by positivity)
    rcases finite_pair_or_infinite hzero (hproduct.mono hproduct' (by linarith)) with
      ⟨r, s, hr, hs, hle⟩ | hinf
    · exact (le_iff_of_represents (round_single hr) (round_single hs)).mpr
        (by exact_mod_cast nearestInt_mono hle)
    · unfold cutMs at htop ⊢
      rwa [hinf, round_infinity]
  · unfold cutMs at htop ⊢
    rwa [hinf, show (infinity false * 1000 : Single) = infinity false by decide, round_infinity]

/-- A cut strictly between two times of the clock is at a time of the clock. -/
theorem cutMs_between {a b : Nat} (ht : t.isNaN = false) (ha : Binary.ofNat a < cutMs t)
    (hb : cutMs t < Binary.ofNat b) :
    ∃ k, a < k ∧ k < b ∧ (cutMs t).Represents (k : ℚ) := by
  rcases cutMs_whole ht with ⟨k, hk⟩ | hinf
  · have hexact := ofNat_represents hk.exact
    have hak : a < k := by
      by_contra hle
      rw [← Binary.not_le hk.isNaN (ofNat_rounds a).isNaN] at ha
      exact ha (Binary.le_trans (hk.rounds.mono hexact.rounds le_rfl)
        (ofNat_mono (Nat.not_lt.mp hle)))
    have hkb : k < b := by
      by_contra hle
      rw [← Binary.not_le (ofNat_rounds b).isNaN hk.isNaN] at hb
      exact hb (Binary.le_trans (ofNat_mono (Nat.not_lt.mp hle))
        (hexact.rounds.mono hk.rounds le_rfl))
    exact ⟨k, hak, hkb, hk⟩
  · rw [hinf, ← Binary.not_le (ofNat_rounds b).isNaN rfl] at hb
    exact absurd (le_infinity (ofNat_rounds b).isNaN) hb

theorem msInto_of_represents {k : Nat} (s : Segment) (hk : ms.Represents (k : ℚ))
    (hlimit : k ≤ timeLimit) : msInto s ms = k - s.startMs := by
  have hint : ms.toIntWithin 0 timeLimit = k :=
    toIntWithin_of_represents (by exact_mod_cast hk) (by omega) (by omega)
  rw [msInto, hint, Int.toNat_natCast]

/-! ## The search -/

/-- One step of the search, over a record that ends in time. -/
theorem cutPlaceFrom_record {offset startMs : Nat} {r : Record} (steps : Nat) (start : Pose) (hr : r.WellFormed)
    (htime : startMs + r.durationMs ≤ timeLimit) :
    tr.cutPlaceFrom ms (steps + 1) (Segment.ofRecord offset startMs start tr.scale r) =
      if ms ≤ Binary.ofNat startMs then .ok (.boundary offset)
      else if ms < Binary.ofNat (startMs + r.durationMs) then
        .ok (.inside (Segment.ofRecord offset startMs start tr.scale r))
      else
        tr.segmentAt (offset + r.toBytes.length) (startMs + r.durationMs)
          (Record.endPose tr.scale start [r]) >>= tr.cutPlaceFrom ms steps := by
  have hend : (Segment.ofRecord offset startMs start tr.scale r).endMs = startMs + r.durationMs :=
    Nat.min_eq_left htime
  rw [cutPlaceFrom, isTerminal_ofRecord, if_neg Bool.false_ne_true, hend,
    segmentAfter_ofRecord start hr htime]
  cases tr.segmentAt (offset + r.toBytes.length) (startMs + r.durationMs)
    (Record.endPose tr.scale start [r]) <;> rfl

/-- The records that a search has passed: complete ones in front of the rest,
which end in time and not after `ms`. -/
structure Passed (tr : Trajectory) (ms : Single) (rs : List Record) (rest : List UInt8) :
    Prop where
  wellFormed : ∀ r ∈ rs, r.WellFormed
  bytes : tr.bytes.toList.drop tr.headerLength = spellAll rs ++ rest
  inTime : totalMs rs ≤ timeLimit
  notAfter : Binary.ofNat (totalMs rs) ≤ ms

/-- The segment behind the passed records. -/
def segmentBehind (tr : Trajectory) (rs : List Record) : Except Fault Segment :=
  tr.segmentAt (tr.headerLength + (spellAll rs).length) (totalMs rs)
    (Record.endPose tr.scale tr.start rs)

/-- The place of a cut, told by the records before it and the bytes behind
these. -/
inductive CutPlace.Behind (tr : Trajectory) (ms : Single) (rs : List Record) :
    List UInt8 → CutPlace → Prop
  | past : Behind tr ms rs [] .past
  | boundary {rest : List UInt8} : ms ≤ Binary.ofNat (totalMs rs) →
    Behind tr ms rs rest (.boundary (tr.headerLength + (spellAll rs).length))
  | inside {r : Record} {rest : List UInt8} : r.WellFormed →
    totalMs rs + r.durationMs ≤ timeLimit → Binary.ofNat (totalMs rs) < ms →
    ms < Binary.ofNat (totalMs rs + r.durationMs) →
    Behind tr ms rs (r.toBytes ++ rest) (.inside
      (Segment.ofRecord (tr.headerLength + (spellAll rs).length) (totalMs rs)
        (Record.endPose tr.scale tr.start rs) tr.scale r))

theorem Passed.snoc {r : Record} (h : Passed tr ms rs (r.toBytes ++ rest)) (hr : r.WellFormed)
    (htime : totalMs rs + r.durationMs ≤ timeLimit)
    (hms : Binary.ofNat (totalMs rs + r.durationMs) ≤ ms) : Passed tr ms (rs ++ [r]) rest := by
  have htotal : totalMs (rs ++ [r]) = totalMs rs + r.durationMs := by simp
  refine ⟨List.forall_mem_append.mpr ⟨h.wellFormed, by simpa using hr⟩, ?_, ?_, ?_⟩
  · rw [h.bytes]
    simp
  · rwa [htotal]
  · rwa [htotal]

theorem segmentBehind_snoc (tr : Trajectory) (rs : List Record) (r : Record) :
    tr.segmentBehind (rs ++ [r]) = tr.segmentAt
      (tr.headerLength + (spellAll rs).length + r.toBytes.length) (totalMs rs + r.durationMs)
      (Record.endPose tr.scale (Record.endPose tr.scale tr.start rs) [r]) := by
  rw [segmentBehind, Record.endPose_append]
  simp [Nat.add_assoc]

/-- From behind passed records the search comes to a place behind passed
records. Each step passes one of the bytes at least. -/
theorem cutPlaceFrom_behind {steps : Nat} {s : Segment} {place : CutPlace}
    (hms : ms.isNaN = false) (hpassed : Passed tr ms rs rest)
    (hs : tr.segmentBehind rs = .ok s) (hsteps : rest.length < steps)
    (h : tr.cutPlaceFrom ms steps s = .ok place) :
    ∃ rs' rest', Passed tr ms rs' rest' ∧ place.Behind tr ms rs' rest' := by
  induction steps generalizing rs rest s with
  | zero => omega
  | succ steps ih =>
    have hdrop := Word.drop_add hpassed.bytes
    rcases Segment.decode_eq_ok hs with ⟨hend, rfl⟩ | ⟨r, rest', hr, hbytes, htime, rfl⟩
    · rw [hdrop] at hend
      subst hend
      unfold cutPlaceFrom at h
      rw [if_pos (show (Segment.hold _ _ _).isTerminal = true from rfl)] at h
      cases h
      exact ⟨rs, [], hpassed, .past⟩
    · rw [hdrop] at hbytes
      subst hbytes
      rw [cutPlaceFrom_record steps _ hr htime, ← segmentBehind_snoc] at h
      split at h
      · rename_i hle
        cases h
        exact ⟨rs, _, hpassed, .boundary hle⟩
      · rename_i hstart
        have hafter := (Binary.not_le hms (ofNat_rounds _).isNaN).mp hstart
        split at h
        · rename_i hlt
          cases h
          exact ⟨rs, _, hpassed, .inside hr htime hafter hlt⟩
        · rename_i hlt
          have hpass := hpassed.snoc hr htime ((Binary.not_lt hms (ofNat_rounds _).isNaN).mp hlt)
          obtain ⟨next, hnext, h⟩ := bind_eq_ok_iff.mp h
          have hlen := hr.length_toBytes
          have hpos := Record.length_pos r.formats
          unfold Record.prefixLength at hpos
          rw [List.length_append] at hsteps
          exact ih hpass hnext (by omega) h

theorem cutPlace_behind {place : CutPlace} (hms : 0 ≤ ms) (h : tr.cutPlace ms = .ok place) :
    ∃ rs rest, Passed tr ms rs rest ∧ place.Behind tr ms rs rest := by
  unfold cutPlace at h
  obtain ⟨first, hfirst, h⟩ := bind_eq_ok_iff.mp h
  have hpassed : Passed tr ms [] (tr.bytes.toList.drop tr.headerLength) :=
    ⟨by simp, by simp, Nat.zero_le _, hms⟩
  have hsize : (tr.bytes.toList.drop tr.headerLength).length < tr.maxSteps := by
    rw [List.length_drop, Array.length_toList, maxSteps]
    omega
  exact cutPlaceFrom_behind (isNaN_of_le hms).2 hpassed hfirst hsize h

end DroneShow.Trajectory
