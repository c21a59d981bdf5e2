-- Where the takeoff ends. On flights whose altitudes are constant or linear in each
-- segment, the survey takes the first climb that reaches the altitude of the takeoff:
-- on all segments before it the flight stays below that altitude throughout.
import DroneShow.Proofs.Survey.Altitude

namespace DroneShow

open Binary

variable {tr : Trajectory} {v : Survey} {s : Summary} {seg : Segment} {segs : List Segment}
  {altitude t : Single} {a r : ℚ} {k : ℤ} {ks : List ℤ} {p q : Pose} {reached : Option Single}

/-! ## Lines below an altitude -/

namespace Segment

/-- The exact curve of the altitude is below `a` throughout. -/
def StaysBelow (seg : Segment) (a : ℚ) : Prop :=
  ∃ qs : List ℚ, List.Forall₂ Represents (seg.points.get .z) qs ∧
    ∀ u : ℝ, 0 ≤ u → u ≤ 1 → Bezier.curve (qs.map ((↑) : ℚ → ℝ)) u < a

theorem Through.staysBelow (h : seg.Through .z k ks) (hlen : ks.length ≤ 1) (hstart : (k : ℚ) < a)
    (hfinish : ((ks.getLastD k : ℤ) : ℚ) < a) : seg.StaysBelow a := by
  refine ⟨(k :: ks).map ((↑) : ℤ → ℚ), List.forall₂_map_right_iff.mpr h.points, ?_⟩
  intro u hu hu'
  have hstartR : (k : ℝ) < a := by exact_mod_cast hstart
  match ks, hlen with
  | [], _ => simpa using hstartR
  | [l], _ =>
    have hfinishR : (l : ℝ) < a := by exact_mod_cast hfinish
    have hcurve : Bezier.curve (([k, l].map ((↑) : ℤ → ℚ)).map ((↑) : ℚ → ℝ)) u =
        (1 - u) * k + u * l := by
      simp [Bezier.curve_pair]
    rw [hcurve]
    rcases le_total (k : ℝ) l with hle | hle
    · nlinarith
    · nlinarith

end Segment

namespace Survey

/-! ## One segment -/

/-- A line that starts no higher than an altitude and is not found to reach it
stays below it. -/
theorem below_of_missed (h : seg.Through .z k ks) (hlen : ks.length ≤ 1)
    (haltitude : altitude.Represents a) (hstart : (k : ℚ) ≤ a)
    (hmissed : altitudeTime altitude seg = .ok none) :
    (k : ℚ) < a ∧ ((ks.getLastD k : ℤ) : ℚ) < a := by
  obtain ⟨path, u, hpath, hu, hnone⟩ := altitudeTime_eq_ok_iff.mp hmissed
  obtain rfl := Option.map_eq_none_iff.mp hnone
  have hmax : ((max k (ks.getLastD k) : ℤ) : ℚ) < a := by
    by_contra hle
    have hmin : ((min k (ks.getLastD k) : ℤ) : ℚ) ≤ a :=
      le_trans (by exact_mod_cast min_le_left _ _) hstart
    obtain ⟨u, hsome, -⟩ := h.reaches hlen hpath haltitude hmin (not_lt.mp hle)
    rw [hu] at hsome
    cases hsome
  exact ⟨lt_of_le_of_lt (by exact_mod_cast Int.le_max_left _ _) hmax,
    lt_of_le_of_lt (by exact_mod_cast Int.le_max_right _ _) hmax⟩

/-! ## The walk -/

theorem foldlM_climbStep_some (segs : List Segment) (altitude t : Single) :
    segs.foldlM (climbStep altitude) (some t) = .ok (some t) := by
  induction segs with
  | nil => rfl
  | cons seg segs ih => exact ih

/-- The first climb of linked segments, by induction on these. Each segment that
misses the altitude ends below it, so that the next one starts there. -/
theorem climb_is_the_first (hlink : Segment.Link p segs q)
    (hsegs : ∀ seg ∈ segs, ∃ k ks, seg.Through .z k ks ∧ ks.length ≤ 1)
    (haltitude : altitude.Represents a) (hp : p.z.Represents r) (hlow : r ≤ a)
    (h : segs.foldlM (climbStep altitude) none = .ok reached) :
    (reached = none ∧ ∀ seg ∈ segs, seg.StaysBelow a) ∨
      ∃ before climb after t, segs = before ++ climb :: after ∧
        altitudeTime altitude climb = .ok (some t) ∧ reached = some t ∧
        ∀ seg ∈ before, seg.StaysBelow a := by
  induction segs generalizing p r with
  | nil =>
    cases h
    exact .inl ⟨rfl, by simp⟩
  | cons seg rest ih =>
    obtain ⟨rfl, hlink⟩ := hlink
    obtain ⟨⟨k, ks, hthrough, hlen⟩, hrest⟩ := List.forall_mem_cons.mp hsegs
    rw [List.foldlM_cons, bind_eq_ok_iff] at h
    obtain ⟨found, hfound, h⟩ := h
    cases found with
    | some t =>
      rw [foldlM_climbStep_some] at h
      cases h
      exact .inr ⟨[], seg, rest, t, rfl, hfound, rfl, by simp⟩
    | none =>
      obtain rfl := hp.unique hthrough.start
      obtain ⟨hstart, hfinish⟩ := below_of_missed hthrough hlen haltitude hlow hfound
      have hbelow := hthrough.staysBelow hlen hstart hfinish
      rcases ih hlink hrest hthrough.finish hfinish.le h with
        ⟨hnone, hall⟩ | ⟨before, climb, after, t, rfl, htime, hreached, hall⟩
      · exact .inl ⟨hnone, List.forall_mem_cons.mpr ⟨hbelow, hall⟩⟩
      · exact .inr ⟨seg :: before, climb, after, t, rfl, htime, hreached,
          List.forall_mem_cons.mpr ⟨hbelow, hall⟩⟩

/-! ## The law -/

/-- The takeoff ends with the first climb to its altitude. The survey of a flight
whose altitudes are constant or linear finds the time on a segment, and on all
segments before that one the flight stays below the altitude of the takeoff; or
it finds no time, and the whole flight stays below. -/
theorem takeoff_ends_with_the_first_climb {buffer : Buffer}
    (hparse : Trajectory.ofBuffer buffer = .ok tr)
    (hlines : ∀ seg ∈ tr.course.segments, seg.Straight)
    (hwanted : v.components.takeoff = true) (h : v.run tr = .ok s) :
    ∃ a : ℚ, (tr.start.z + v.config.minAscent).Represents a ∧
      ((∃ before climb after t, tr.course.segments = before ++ climb :: after ∧
          altitudeTime (tr.start.z + v.config.minAscent) climb = .ok (some t) ∧
          s.takeoffSec = t - v.config.travelTime v.config.minAscent ∧
          ∀ seg ∈ before, seg.StaysBelow a) ∨
        (s.takeoffSec = .infinity false ∧ ∀ seg ∈ tr.course.segments, seg.StaysBelow a)) := by
  obtain ⟨hp, -⟩ := Trajectory.parsed_of_ofBuffer hparse
  obtain ⟨hvalid, last, hlast, htells⟩ := run_eq_ok_iff.mp h
  have hpart := htells.takeoff
  unfold takeoffPart at hpart
  rw [if_pos hwanted] at hpart
  obtain ⟨reached, hreached, hsec⟩ := map_eq_ok_iff.mp hpart
  obtain ⟨-, -, hascent, -, -⟩ := SurveyConfig.validate_eq_ok_iff.mp hvalid
  obtain ⟨k, hk, hsize⟩ := hp.start_whole (show Axis.z ≠ .yaw by decide)
  obtain ⟨a, ha, hle⟩ := SurveyConfig.exists_above hk (by exact_mod_cast hsize) hascent
  have hsegs : ∀ seg ∈ tr.course.segments, ∃ k ks, seg.Through .z k ks ∧ ks.length ≤ 1 := by
    intro seg hseg
    obtain ⟨k, ks, hthrough⟩ := hp.exists_through hlast hseg (show Axis.z ≠ .yaw by decide)
    exact ⟨k, ks, hthrough, (hlines seg hseg).length_le hthrough⟩
  refine ⟨a, ha, ?_⟩
  rcases climb_is_the_first (Trajectory.link_course hlast) hsegs ha hk hle hreached with
    ⟨rfl, hbelow⟩ | ⟨before, climb, after, t, hsplit, htime, rfl, hbelow⟩
  · exact .inr ⟨hsec.symm, hbelow⟩
  · exact .inl ⟨before, climb, after, t, hsplit, htime, hsec.symm, hbelow⟩

/-- Up to 1000 in ten seconds and on to 5000 in ten more: the second climb passes 2500. -/
theorem a_takeoff_ends_with_the_second_climb : ∃ tr s a,
    Trajectory.ofBytes #[1, 0, 0, 0, 0, 0, 0, 0, 0, 0x10, 0x10, 0x27, 0xe8, 0x03,
      0x10, 0x10, 0x27, 0x88, 0x13] = .ok tr ∧
    (∀ seg ∈ tr.course.segments, seg.Straight) ∧ run standard tr = .ok s ∧
    s.takeoffSec = .ofDecimal false 1125 (-2) ∧ (tr.start.z + 2500).Represents a ∧
    ∃ before climb after t, tr.course.segments = before ++ climb :: after ∧
      altitudeTime (tr.start.z + 2500) climb = .ok (some t) ∧
      ∀ seg ∈ before, seg.StaysBelow a := by
  obtain ⟨tr, hparse, hlines, htakesOff⟩ : ∃ tr,
      Trajectory.ofBytes #[1, 0, 0, 0, 0, 0, 0, 0, 0, 0x10, 0x10, 0x27, 0xe8, 0x03,
        0x10, 0x10, 0x27, 0x88, 0x13] = .ok tr ∧
      (∀ seg ∈ tr.course.segments, seg.formats.z = .constant ∨ seg.formats.z = .linear) ∧
      (run standard tr).map (·.takeoffSec) = .ok (.ofDecimal false 1125 (-2)) :=
    ⟨_, rfl, by decide +kernel, by decide +kernel⟩
  obtain ⟨s, hrun, hsec⟩ := map_eq_ok_iff.mp htakesOff
  obtain ⟨a, ha, ⟨before, climb, after, t, hsplit, htime, -, hbelow⟩ | ⟨hnever, -⟩⟩ :=
    takeoff_ends_with_the_first_climb hparse hlines rfl hrun
  · exact ⟨tr, s, a, hparse, hlines, hrun, hsec, ha, before, climb, after, t, hsplit, htime, hbelow⟩
  · rw [hsec] at hnever
    exact absurd hnever (by decide)

end Survey

end DroneShow
