-- When the landing takes over. The walk ends with a vertical run, which only goes
-- down; the landing takes over on the one segment of that run which crosses the
-- altitude of the landing, or with the whole run if that is short enough.
import Mathlib.Data.List.DropRight
import DroneShow.Proofs.Survey.Altitude

namespace DroneShow

open Binary

variable {tr : Trajectory} {v : Survey} {s : Summary} {seg first last : Segment}
  {segs rest : List Segment} {target m : Single} {p q : Pose}

namespace Survey

/-! ## The vertical run -/

/-- The segments at the end of the walk that all go down with little drift. -/
def finalDescent (maxDeviationXY : Single) (tr : Trajectory) : List Segment :=
  tr.course.segments.rtakeWhile (isVertical maxDeviationXY)

theorem finalDescent_suffix (m : Single) (tr : Trajectory) :
    finalDescent m tr <:+ tr.course.segments := List.rtakeWhile_suffix _ _

theorem isVertical_of_mem_finalDescent (h : seg ∈ finalDescent m tr) : isVertical m seg = true :=
  List.mem_rtakeWhile_imp h

theorem finalDescent_longest (hsuffix : segs <:+ tr.course.segments)
    (hvertical : ∀ seg ∈ segs, isVertical m seg = true) : segs <:+ finalDescent m tr := by
  obtain ⟨before, hbefore⟩ := hsuffix
  unfold finalDescent List.rtakeWhile
  rw [← hbefore, List.reverse_append, List.takeWhile_append_of_pos, List.reverse_append,
    List.reverse_reverse]
  · exact List.suffix_append _ _
  · intro seg hseg
    exact hvertical seg (List.mem_reverse.mp hseg)

/-- The walk keeps the first segment of the run that ends with it. -/
theorem foldl_extendRun (m : Single) (segs : List Segment) :
    segs.foldl (extendRun m) none = (segs.rtakeWhile (isVertical m)).head? := by
  induction segs using List.reverseRecOn with
  | nil => rfl
  | append_singleton segs seg ih =>
    rw [List.foldl_concat, ih, List.rtakeWhile_concat]
    unfold extendRun
    cases isVertical m seg with
    | false => rfl
    | true =>
      rw [if_pos rfl, List.head?_append]
      rfl

theorem finalRun_eq (m : Single) (tr : Trajectory) :
    finalRun m tr = (finalDescent m tr).head? := foldl_extendRun m _

/-! ## Going down -/

theorem finish_le_start {k : ℤ} {ks : List ℤ} (h : seg.Through .z k ks)
    (hvertical : isVertical m seg = true) : seg.finish.z ≤ seg.start.z := by
  unfold isVertical at hvertical
  simp only [Bool.and_eq_true, decide_eq_true_eq] at hvertical
  have hdown : seg.finish.z - seg.start.z ≤ 0 := hvertical.2
  have hle := (le_iff_of_represents h.sub Quantum.zero_represents).mp hdown
  refine (le_iff_of_represents h.finish h.start).mpr ?_
  push_cast at hle
  linarith

/-- Along linked segments that go down, none starts higher than the first. -/
theorem start_le_of_link (hlink : Segment.Link p segs q)
    (hdown : ∀ seg ∈ segs, seg.finish.z ≤ seg.start.z) (hp : p.z.isNaN = false) :
    ∀ seg ∈ segs, seg.start.z ≤ p.z := by
  induction segs generalizing p with
  | nil => simp
  | cons seg rest ih =>
    obtain ⟨rfl, hlink⟩ := hlink
    obtain ⟨hseg, hrest⟩ := List.forall_mem_cons.mp hdown
    refine List.forall_mem_cons.mpr ⟨Binary.le_refl hp, fun seg' hseg' => ?_⟩
    exact Binary.le_trans (ih hlink hrest (isNaN_of_le hseg).1 seg' hseg') hseg

/-- If the first of them starts below an altitude, none starts there or above. -/
theorem filter_of_low (hlink : Segment.Link first.start (first :: rest) q)
    (hdown : ∀ seg ∈ first :: rest, seg.finish.z ≤ seg.start.z) (hlow : first.start.z < target) :
    (first :: rest).filter (fun seg => decide (target ≤ seg.start.z)) = [] := by
  rw [List.filter_eq_nil_iff]
  intro seg hseg hle
  have hnumber := (isNaN_of_le (hdown first List.mem_cons_self)).2
  have hstart := start_le_of_link hlink hdown hnumber seg hseg
  exact Binary.not_lt_of_le (of_decide_eq_true hle) (Binary.lt_of_le_of_lt hstart hlow)

/-! ## Crossing an altitude -/

/-- A run crosses an altitude on `seg`: up to it, all segments start there or
above, behind it they start below, and it ends there or below. -/
structure Crosses (target : Single) (earlier : List Segment) (seg : Segment)
    (later : List Segment) : Prop where
  earlier : ∀ seg ∈ earlier, target ≤ seg.start.z
  start : target ≤ seg.start.z
  finish : seg.finish.z ≤ target
  later : ∀ seg ∈ later, seg.start.z < target

theorem filter_of_split {high low : List Segment} (hhigh : ∀ seg ∈ high, target ≤ seg.start.z)
    (hlow : ∀ seg ∈ low, seg.start.z < target) :
    (high ++ low).filter (fun seg => decide (target ≤ seg.start.z)) = high := by
  rw [List.filter_append, List.filter_eq_self.mpr, List.filter_eq_nil_iff.mpr, List.append_nil]
  · intro seg hseg hle
    exact Binary.not_lt_of_le (of_decide_eq_true hle) (hlow seg hseg)
  · intro seg hseg
    exact decide_eq_true (hhigh seg hseg)

/-- The segments up to the crossing are those that start there or above. -/
theorem Crosses.filter {earlier later : List Segment} (h : Crosses target earlier seg later) :
    (earlier ++ seg :: later).filter (fun seg => decide (target ≤ seg.start.z)) =
      earlier ++ [seg] := by
  rw [List.append_cons earlier seg later]
  refine filter_of_split ?_ h.later
  rw [List.forall_mem_append, List.forall_mem_singleton]
  exact ⟨h.earlier, h.start⟩

theorem Crosses.unique {earlier later earlier' later' : List Segment} {seg' : Segment}
    (h : Crosses target earlier seg later) (h' : Crosses target earlier' seg' later')
    (heq : earlier ++ seg :: later = earlier' ++ seg' :: later') :
    earlier = earlier' ∧ seg = seg' ∧ later = later' := by
  have hfilter := h.filter
  rw [heq, h'.filter] at hfilter
  obtain ⟨rfl, hseg⟩ := List.append_inj' hfilter rfl
  obtain rfl := List.singleton_inj.mp hseg
  have htail := List.append_cancel_left heq
  exact ⟨rfl, rfl, (List.cons.inj htail).2⟩

/-- Linked segments that go down split in two: those that start at an altitude or
above it, and those that start below. -/
theorem exists_split (hlink : Segment.Link p segs q)
    (hdown : ∀ seg ∈ segs, seg.finish.z ≤ seg.start.z) (htarget : target.isNaN = false) :
    ∃ high low, segs = high ++ low ∧ (∀ seg ∈ high, target ≤ seg.start.z) ∧
      ∀ seg ∈ low, seg.start.z < target := by
  induction segs generalizing p with
  | nil => exact ⟨[], [], rfl, by simp, by simp⟩
  | cons seg rest ih =>
    obtain ⟨rfl, hrestLink⟩ := hlink
    obtain ⟨hseg, hrest⟩ := List.forall_mem_cons.mp hdown
    have hnumber := (isNaN_of_le hseg).2
    by_cases hle : target ≤ seg.start.z
    · obtain ⟨high, low, rfl, hhigh, hlow⟩ := ih hrestLink hrest
      exact ⟨seg :: high, low, rfl, List.forall_mem_cons.mpr ⟨hle, hhigh⟩, hlow⟩
    · rw [Binary.not_le htarget hnumber] at hle
      refine ⟨[], seg :: rest, rfl, by simp, fun seg' hseg' => ?_⟩
      exact Binary.lt_of_le_of_lt
        (start_le_of_link (Segment.link_cons.mpr hrestLink) hdown hnumber seg' hseg') hle

/-- If such segments lead from an altitude or above to it or below, one of them
crosses it. -/
theorem exists_crosses (hlink : Segment.Link p (first :: rest) q)
    (hdown : ∀ seg ∈ first :: rest, seg.finish.z ≤ seg.start.z) (hfrom : target ≤ first.start.z)
    (hto : q.z ≤ target) : ∃ earlier seg later, first :: rest = earlier ++ seg :: later ∧
      Crosses target earlier seg later := by
  obtain ⟨high, low, hsplit, hhigh, hlow⟩ := exists_split hlink hdown (isNaN_of_le hfrom).1
  have hne : high ≠ [] := by
    rintro rfl
    rw [List.nil_append] at hsplit
    exact Binary.not_lt_of_le hfrom (hlow first (hsplit ▸ List.mem_cons_self))
  obtain ⟨earlier, seg, rfl⟩ := (List.eq_nil_or_concat' high).resolve_left hne
  rw [List.forall_mem_append, List.forall_mem_singleton] at hhigh
  refine ⟨earlier, seg, low, by simpa using hsplit, hhigh.1, hhigh.2, ?_, hlow⟩
  rw [hsplit, List.append_assoc, Segment.link_append] at hlink
  obtain ⟨m, -, -, hlink⟩ := hlink
  cases low with
  | nil =>
    obtain rfl : seg.finish = q := hlink
    exact hto
  | cons next low =>
    rw [← hlink.1]
    exact Binary.le_of_lt (hlow next List.mem_cons_self)

theorem Crosses.reaches {earlier later : List Segment} {path : Path Single} {a : ℚ} {k : ℤ}
    {ks : List ℤ} (h : Crosses target earlier seg later) (hk : seg.Through .z k ks)
    (hstraight : seg.Straight) (hpath : seg.position = .ok path) (ha : target.Represents a) :
    ∃ r, path.z.firstReach target = .ok (some r) ∧ 0 ≤ r ∧ r ≤ 1 := by
  have hfrom := (le_iff_of_represents ha hk.start).mp h.start
  have hto := (le_iff_of_represents hk.finish ha).mp h.finish
  apply hk.reaches (hstraight.length_le hk) hpath ha
  · push_cast
    exact (min_le_right _ _).trans hto
  · push_cast
    exact hfrom.trans (le_max_left _ _)

/-! ## The second walk -/

theorem foldlM_pick (target : Single) (segs : List Segment) (acc : Option Segment) :
    segs.foldlM (fun acc seg =>
        (.ok (if target ≤ seg.start.z then some seg else acc) : Except Fault _)) acc =
      .ok ((segs.filter fun seg => decide (target ≤ seg.start.z)).getLast?.or acc) := by
  induction segs generalizing acc with
  | nil => rfl
  | cons seg segs ih =>
    rw [List.foldlM_cons]
    show segs.foldlM _ _ = _
    rw [ih, List.filter_cons]
    by_cases hle : target ≤ seg.start.z
    · rw [if_pos hle, if_pos (decide_eq_true hle), List.getLast?_cons]
      cases (segs.filter fun seg => decide (target ≤ seg.start.z)).getLast? <;> rfl
    · rw [if_neg hle, if_neg (by simpa using hle)]

/-- The second walk, from the first segment of a run on, keeps the last segment
that starts at the altitude or above. -/
theorem crossingOf_eq {before : List Segment} (hlast : tr.finalHold = .ok last)
    (h : tr.course.segments = before ++ first :: rest) :
    crossingOf tr target first =
      .ok ((first :: rest).filter fun seg => decide (target ≤ seg.start.z)).getLast? := by
  unfold crossingOf
  simp only
  rw [Trajectory.foldFrom_rest hlast h, foldlM_pick, Option.or_none]
  rfl

/-- So the time of the landing is computed on that segment, or else is the time
at which the run begins. -/
theorem landingTime_eq {before : List Segment} (hlast : tr.finalHold = .ok last)
    (h : tr.course.segments = before ++ first :: rest) (endAltitude durationSec : Single) :
    v.landingTime tr (some first) endAltitude durationSec =
      (match ((first :: rest).filter fun seg =>
        decide (endAltitude + v.config.preferredDescent ≤ seg.start.z)).getLast? with
      | none => .ok first.startSec
      | some seg => do
        let path ← seg.position
        let u ← path.z.firstReach (endAltitude + v.config.preferredDescent)
        pure (seg.startSec + u.getD 0 * seg.durationSec)) := by
  unfold landingTime
  simp only
  rw [crossingOf_eq hlast h]
  rfl

/-! ## The law -/

/-- A survey asks for the time of the landing with the run at the end of the walk. -/
theorem landingTime_of_run (hwanted : v.components.landing = true) (h : v.run tr = .ok s) :
    ∃ last, tr.finalHold = .ok last ∧ v.config.validate = .ok () ∧
      s.durationSec = Segment.seconds last.startMs ∧
      v.landingTime tr (finalDescent v.config.maxDeviationXY tr).head? last.start.z
        (Segment.seconds last.startMs) = .ok s.landingSec := by
  obtain ⟨hvalid, last, hlast, htells⟩ := run_eq_ok_iff.mp h
  have hpart := htells.landing
  unfold landingPart landing at hpart
  rw [if_pos hwanted, finalRun_eq] at hpart
  obtain ⟨t, htime, hpart⟩ := bind_eq_ok_iff.mp hpart
  obtain ⟨p, -, hpart⟩ := bind_eq_ok_iff.mp hpart
  cases hpart
  exact ⟨last, hlast, hvalid, htells.durationSec, htime⟩

/-- The segments of the final descent lead down to the end of the flight. -/
theorem finalDescent_leads_down (hp : tr.Parsed) (hlast : tr.finalHold = .ok last)
    (hrun : finalDescent m tr = first :: rest) :
    (∃ before, tr.course.segments = before ++ first :: rest) ∧
      Segment.Link first.start (first :: rest) last.start ∧
      (∀ seg ∈ first :: rest, seg.finish.z ≤ seg.start.z) ∧
      ∀ seg ∈ first :: rest, ∃ k ks, seg.Through .z k ks := by
  obtain ⟨before, hbefore⟩ := finalDescent_suffix m tr
  have hthrough : ∀ seg ∈ first :: rest, ∃ k ks, seg.Through .z k ks := by
    intro seg hseg
    rw [← hrun] at hseg
    exact hp.exists_through hlast ((finalDescent_suffix m tr).subset hseg) (by decide)
  rw [hrun] at hbefore
  have hlink := Trajectory.link_course hlast
  rw [← hbefore, Segment.link_append] at hlink
  obtain ⟨p, -, hlink⟩ := hlink
  refine ⟨⟨before, hbefore.symm⟩, hlink.1 ▸ hlink, fun seg hseg => ?_, hthrough⟩
  obtain ⟨k, ks, hk⟩ := hthrough seg hseg
  exact finish_le_start hk (isVertical_of_mem_finalDescent (hrun ▸ hseg))

/-- The landing takes over where the final descent crosses its altitude, which is
the preferred descent above the end. Without a final descent, it takes over at
the end of the flight. With one that starts below the altitude, it takes over as
the descent begins. Otherwise exactly one segment of the descent crosses the
altitude, and the time is computed on that one; where it is a line, the altitude
is found on it, so that nothing has to be assumed. -/
theorem landing_takes_over_at_its_altitude {buffer : Buffer}
    (hparse : Trajectory.ofBuffer buffer = .ok tr) (hwanted : v.components.landing = true)
    (h : v.run tr = .ok s) :
    ∃ last descent target, tr.finalHold = .ok last ∧
      target = last.start.z + v.config.preferredDescent ∧
      (descent <:+ tr.course.segments ∧
        (∀ seg ∈ descent, isVertical v.config.maxDeviationXY seg = true) ∧
        ∀ segs, segs <:+ tr.course.segments →
          (∀ seg ∈ segs, isVertical v.config.maxDeviationXY seg = true) → segs <:+ descent) ∧
      (descent = [] → s.landingSec = s.durationSec) ∧
      ∀ first rest, descent = first :: rest →
        (first.start.z < target → s.landingSec = first.startSec) ∧
        (¬ first.start.z < target → ∃ earlier seg later,
          descent = earlier ++ seg :: later ∧ Crosses target earlier seg later ∧
          (∀ earlier' seg' later', descent = earlier' ++ seg' :: later' →
            Crosses target earlier' seg' later' →
            earlier = earlier' ∧ seg = seg' ∧ later = later') ∧
          ∃ path u, seg.position = .ok path ∧ path.z.firstReach target = .ok u ∧
            s.landingSec = seg.startSec + u.getD 0 * seg.durationSec ∧
            (seg.Straight → ∃ r, u = some r ∧ 0 ≤ r ∧ r ≤ 1)) := by
  obtain ⟨hp, -⟩ := Trajectory.parsed_of_ofBuffer hparse
  obtain ⟨last, hlast, hvalid, hduration, htime⟩ := landingTime_of_run hwanted h
  obtain ⟨-, -, -, hdescent, -⟩ := SurveyConfig.validate_eq_ok_iff.mp hvalid
  obtain ⟨z, hz, hsize⟩ := hp.end_whole hlast (show Axis.z ≠ .yaw by decide)
  obtain ⟨a, ha, hle⟩ := SurveyConfig.exists_above hz (by exact_mod_cast hsize) hdescent
  have hend : last.start.z ≤ last.start.z + v.config.preferredDescent :=
    (le_iff_of_represents hz ha).mpr hle
  refine ⟨last, finalDescent v.config.maxDeviationXY tr, _, hlast, rfl,
    ⟨finalDescent_suffix _ tr, fun seg => isVertical_of_mem_finalDescent,
      fun segs => finalDescent_longest⟩, ?_, ?_⟩
  · intro hnone
    rw [hnone] at htime
    rw [hduration]
    exact (Except.ok.inj htime).symm
  intro first rest hrun
  obtain ⟨⟨before, hbefore⟩, hlink, hdown, hthrough⟩ := finalDescent_leads_down hp hlast hrun
  have hnumber := (isNaN_of_le (hdown first List.mem_cons_self)).2
  rw [hrun, List.head?_cons, landingTime_eq hlast hbefore] at htime
  rw [hrun]
  change (last.start.z + v.config.preferredDescent).Represents a at ha
  generalize last.start.z + v.config.preferredDescent = target at ha htime hend ⊢
  refine ⟨fun hbelow => ?_, fun habove => ?_⟩
  · rw [filter_of_low hlink hdown hbelow] at htime
    exact (Except.ok.inj htime).symm
  · rw [Binary.not_lt hnumber ha.isNaN] at habove
    obtain ⟨earlier, seg, later, hsplit, hcrosses⟩ := exists_crosses hlink hdown habove hend
    rw [hsplit, hcrosses.filter, List.getLast?_concat] at htime
    obtain ⟨path, hpath, htime⟩ := bind_eq_ok_iff.mp htime
    obtain ⟨u, hu, htime⟩ := bind_eq_ok_iff.mp htime
    obtain ⟨k, ks, hk⟩ := hthrough seg (by simp [hsplit])
    refine ⟨earlier, seg, later, hsplit, hcrosses, fun _ _ _ hsplit' hcrosses' =>
      hcrosses.unique hcrosses' (hsplit.symm.trans hsplit'), path, u, hpath, hu,
      (Except.ok.inj htime).symm, fun hstraight => ?_⟩
    obtain ⟨r, hr, hr0, hr1⟩ := hcrosses.reaches hk hstraight hpath ha
    rw [hu] at hr
    exact ⟨r, Except.ok.inj hr, hr0, hr1⟩

/-- Up to 10000, and down in three steps to 4000, to 2000 and to the ground: the
landing takes over at 2500, inside of the second step. -/
theorem a_landing_takes_over_inside_a_step : ∃ tr s last earlier seg later u,
    Trajectory.ofBytes #[1, 0, 0, 0, 0, 0, 0, 0, 0, 0x10, 0x10, 0x27, 0x10, 0x27,
      0x10, 0x70, 0x17, 0xa0, 0x0f, 0x10, 0xd0, 0x07, 0xd0, 0x07, 0x10, 0xd0, 0x07, 0, 0] =
        .ok tr ∧
    run standard tr = .ok s ∧ tr.finalHold = .ok last ∧
    s.landingSec = .ofDecimal false 175 (-1) ∧ seg.Straight ∧
    Crosses (last.start.z + 2500) earlier seg later ∧
    s.landingSec = seg.startSec + u * seg.durationSec ∧ 0 ≤ u ∧ u ≤ 1 := by
  obtain ⟨tr, hparse, hlands, hstarts, hlines⟩ : ∃ tr,
      Trajectory.ofBytes #[1, 0, 0, 0, 0, 0, 0, 0, 0, 0x10, 0x10, 0x27, 0x10, 0x27,
        0x10, 0x70, 0x17, 0xa0, 0x0f, 0x10, 0xd0, 0x07, 0xd0, 0x07, 0x10, 0xd0, 0x07, 0, 0] =
          .ok tr ∧
      (run standard tr).map (fun s => (s.landingSec, s.durationSec)) =
        .ok (.ofDecimal false 175 (-1), 20) ∧
      (∀ seg ∈ tr.course.segments, seg.startSec ≠ .ofDecimal false 175 (-1)) ∧
      (∀ seg ∈ tr.course.segments, seg.formats.z = .constant ∨ seg.formats.z = .linear) :=
    ⟨_, rfl, by decide +kernel, by decide +kernel, by decide +kernel⟩
  obtain ⟨s, hrun, hsec⟩ := map_eq_ok_iff.mp hlands
  obtain ⟨hlanding, hduration⟩ := Prod.mk.inj hsec
  obtain ⟨last, descent, target, hlast, rfl, ⟨hsuffix, -⟩, hnone, hsome⟩ :=
    landing_takes_over_at_its_altitude hparse rfl hrun
  cases descent with
  | nil =>
    have hsame := hnone rfl
    rw [hlanding, hduration] at hsame
    exact absurd hsame (by decide)
  | cons first rest =>
    obtain ⟨hbelow, habove⟩ := hsome first rest rfl
    have hfirst : first ∈ tr.course.segments := hsuffix.subset List.mem_cons_self
    have hhigh : ¬ first.start.z < last.start.z + 2500 := fun hlow =>
      hstarts first hfirst ((hbelow hlow).symm.trans hlanding)
    obtain ⟨earlier, seg, later, hsplit, hcrosses, -, path, u, -, -, htime, hreach⟩ := habove hhigh
    have hseg : seg ∈ tr.course.segments := hsuffix.subset (by simp [hsplit])
    obtain ⟨r, rfl, hr0, hr1⟩ := hreach (hlines seg hseg)
    exact ⟨tr, s, last, earlier, seg, later, r, hparse, hrun, hlast, hlanding, hlines seg hseg,
      hcrosses, htime, hr0, hr1⟩

end Survey

end DroneShow
