-- The box around a flight in exact arithmetic. It holds each point of the flight, up to
-- what counts as zero, if no coordinate is a curve above the third degree.
import DroneShow.Proofs.Curve.Extent
import DroneShow.Proofs.Survey.LandingPose
import DroneShow.Proofs.Trajectory.Links
import DroneShow.Region.Box

namespace DroneShow

open Binary (real)

/-! ## Growing intervals -/

namespace Interval

variable {i j : Interval ℝ} {x : ℝ}

/-- The least interval of two. -/
noncomputable def exactUnion (i j : Interval ℝ) : Interval ℝ := @union ℝ (Scalar.exact ℝ) i j

theorem exactUnion_eq (h : j.min ≤ j.max) :
    i.exactUnion j = (i.exactIncluding j.min).exactIncluding j.max := by
  unfold exactUnion union
  exact if_neg (by simpa [isEmpty] using h)

theorem Holds.including (h : i.Holds x) (value : ℝ) : (i.exactIncluding value).Holds x := by
  obtain ⟨hlow, hhigh⟩ := h
  rw [exactIncluding_eq]
  constructor
  · exact le_trans (by gcongr; exact min_le_left _ _) hlow
  · exact hhigh.trans (by gcongr; exact le_max_left _ _)

theorem Holds.union_left (h : i.Holds x) (hj : j.min ≤ j.max) : (i.exactUnion j).Holds x := by
  rw [exactUnion_eq hj]
  exact (h.including _).including _

theorem Holds.union_right (h : j.Holds x) (hj : j.min ≤ j.max) : (i.exactUnion j).Holds x := by
  obtain ⟨hlow, hhigh⟩ := h
  rw [exactUnion_eq hj, exactIncluding_eq, exactIncluding_eq]
  constructor
  · refine le_trans ?_ hlow
    gcongr
    exact (min_le_left _ _).trans (min_le_right _ _)
  · refine hhigh.trans ?_
    gcongr
    exact le_max_right _ _

theorem holds_between (x : ℝ) : (exactBetween x x).Holds x := by
  rw [exactBetween_eq, min_self, max_self]
  constructor
  · linarith [Poly.exactNegligible_pos]
  · linarith [Poly.exactNegligible_pos]

end Interval

/-! ## The box of a survey -/

namespace Box

variable {α β : Type} [Scalar α] [RootScalar β] [Widening α β]

/-- The box grown by the curves of control points. -/
def growAround (box : Box α) (points : Axes (List α)) : Except Fault (Box α) := do
  let path ← Path.ofPoints points
  box.includingPath path

/-- The box around a point and the curves of control points. -/
def around (start : Axes α) (curves : List (Axes (List α))) : Except Fault (Box α) :=
  curves.foldlM growAround (.ofPoint start)

end Box

/-- The box that a survey tells is that around the start and the control points. -/
theorem Survey.boxPart_eq (v : Survey) (tr : Trajectory) : v.boxPart tr =
    if v.components.box then Box.around tr.start (tr.course.segments.map (·.points))
    else .ok .empty := by
  unfold boxPart Box.around
  rw [List.foldlM_map]
  rfl

theorem Trajectory.boundingBox_eq_ok_iff {tr : Trajectory} {last : Segment} {box : Box Single}
    (hlast : tr.finalHold = .ok last) : tr.boundingBox = .ok box ↔
      Box.around tr.start (tr.course.segments.map (·.points)) = .ok box := by
  have hpart : Survey.boxPart (.ofComponents { Components.none with box := true }) tr =
      Box.around tr.start (tr.course.segments.map (·.points)) := Survey.boxPart_eq _ tr
  rw [← hpart, boundingBox, map_eq_ok_iff]
  constructor
  · rintro ⟨s, hrun, rfl⟩
    obtain ⟨-, last', -, htells⟩ := Survey.run_eq_ok_iff.mp hrun
    exact htells.box
  · intro hbox
    refine ⟨⟨{ Components.none with box := true }, last.startMs, Segment.seconds last.startMs, box,
      .infinity false, 0, Pose.origin, 0⟩, ?_, rfl⟩
    exact Survey.run_eq_ok_iff.mpr ⟨by decide, last, hlast, rfl, rfl, rfl, hbox, rfl, rfl, rfl⟩

/-! ## The exact box -/

/-- The curve of some control points has a tight extent. -/
def Path.HasExtent (negativeZero : Bool) (points : List ℝ) : Prop :=
  ∃ p i, exactAxisCurve points = .ok p ∧ Poly.exactExtent negativeZero p = .ok i ∧
    i.Tight (Bezier.curve points)

/-- The curves of the coordinates have tight extents, and that of the yaw is one at all. -/
structure Path.HasExtents (negativeZero : Bool) (points : Axes (List ℝ)) : Prop where
  coordinates : ∀ axis ≠ .yaw, HasExtent negativeZero (points.get axis)
  yaw : ∃ p, exactAxisCurve points.yaw = .ok p

namespace Box

variable {box : Box ℝ} {points : Axes (List ℝ)} {curves : List (Axes (List ℝ))} {p : Axes ℝ}
  {negativeZero : Bool}

/-- The point lies in the box, up to what counts as zero. -/
structure Holds (box : Box ℝ) (p : Axes ℝ) : Prop where
  x : box.x.Holds p.x
  y : box.y.Holds p.y
  z : box.z.Holds p.z

noncomputable def exactGrow (negativeZero : Bool) (box : Box ℝ) (points : Axes (List ℝ)) :
    Except Fault (Box ℝ) :=
  @growAround ℝ ℝ (Scalar.exact ℝ) (RootScalar.exact negativeZero) (Widening.exact ℝ) box points

noncomputable def exactAround (negativeZero : Bool) (start : Axes ℝ)
    (curves : List (Axes (List ℝ))) : Except Fault (Box ℝ) :=
  @around ℝ ℝ (Scalar.exact ℝ) (RootScalar.exact negativeZero) (Widening.exact ℝ) start curves

/-- A box grows by curves with tight extents. It keeps what it held and holds the curves. -/
theorem exists_exactGrow (box : Box ℝ) (h : Path.HasExtents negativeZero points) :
    ∃ box', exactGrow negativeZero box points = .ok box' ∧ (∀ p, box.Holds p → box'.Holds p) ∧
      ∀ t, 0 ≤ t → t ≤ 1 → box'.Holds (points.map fun ks => Bezier.curve ks t) := by
  obtain ⟨px, ix, hpx, hix, htx⟩ := h.coordinates .x (by decide)
  obtain ⟨py, iy, hpy, hiy, hty⟩ := h.coordinates .y (by decide)
  obtain ⟨pz, iz, hpz, hiz, htz⟩ := h.coordinates .z (by decide)
  obtain ⟨pyaw, hpyaw⟩ := h.yaw
  have hpath : @Path.ofPoints ℝ (Scalar.exact ℝ) ℝ (Scalar.exact ℝ) (Widening.exact ℝ) points =
      .ok ⟨px, py, pz, pyaw⟩ := by
    apply Axes.ofFnM_eq_ok_iff.mpr
    intro axis
    cases axis with
    | x => exact hpx
    | y => exact hpy
    | z => exact hpz
    | yaw => exact hpyaw
  have hgrow : exactGrow negativeZero box points =
      .ok ⟨box.x.exactUnion ix, box.y.exactUnion iy, box.z.exactUnion iz⟩ := by
    unfold Poly.exactExtent at hix hiy hiz
    unfold exactGrow growAround includingPath
    simp only [hpath, hix, hiy, hiz, bind, Except.bind]
    rfl
  refine ⟨_, hgrow, ?_, ?_⟩
  · intro p hp
    exact ⟨hp.x.union_left htx.ordered, hp.y.union_left hty.ordered, hp.z.union_left htz.ordered⟩
  · intro t ht ht'
    exact
      { x := (htx.holds t ht ht').union_right htx.ordered
        y := (hty.holds t ht ht').union_right hty.ordered
        z := (htz.holds t ht ht').union_right htz.ordered }

/-- It grows by one after the other, and in the end holds all of them. -/
theorem exists_exactGrown (box : Box ℝ)
    (hcurves : ∀ points ∈ curves, Path.HasExtents negativeZero points) :
    ∃ box', curves.foldlM (exactGrow negativeZero) box = .ok box' ∧
      (∀ p, box.Holds p → box'.Holds p) ∧ ∀ points ∈ curves, ∀ t, 0 ≤ t → t ≤ 1 →
        box'.Holds (points.map fun ks => Bezier.curve ks t) := by
  induction curves generalizing box with
  | nil => exact ⟨box, rfl, fun p hp => hp, by simp⟩
  | cons points curves ih =>
    obtain ⟨hpoints, hrest⟩ := List.forall_mem_cons.mp hcurves
    obtain ⟨grown, hgrown, hkept, hcurve⟩ := exists_exactGrow box hpoints
    obtain ⟨box', hbox', hkept', hcurves'⟩ := ih grown hrest
    refine ⟨box', ?_, fun p hp => hkept' p (hkept p hp), ?_⟩
    · rw [List.foldlM_cons]
      exact bind_eq_ok_iff.mpr ⟨grown, hgrown, hbox'⟩
    · refine List.forall_mem_cons.mpr ⟨?_, hcurves'⟩
      intro t ht ht'
      exact hkept' _ (hcurve t ht ht')

theorem exists_exactAround (start : Axes ℝ)
    (hcurves : ∀ points ∈ curves, Path.HasExtents negativeZero points) :
    ∃ box, exactAround negativeZero start curves = .ok box ∧ box.Holds start ∧
      ∀ points ∈ curves, ∀ t, 0 ≤ t → t ≤ 1 →
        box.Holds (points.map fun ks => Bezier.curve ks t) := by
  obtain ⟨box, hbox, hkept, hholds⟩ := exists_exactGrown
    ⟨.exactBetween start.x start.x, .exactBetween start.y start.y, .exactBetween start.z start.z⟩
    hcurves
  refine ⟨box, hbox, ?_, hholds⟩
  apply hkept
  exact ⟨Interval.holds_between _, Interval.holds_between _, Interval.holds_between _⟩

end Box

/-! ## The flight -/

namespace Segment

variable {s : Segment} {axis : Axis} {k : ℤ} {ks : List ℤ} {negativeZero : Bool}

/-- The exact values of the control points. -/
noncomputable def exactPoints (s : Segment) : Axes (List ℝ) := s.points.map (·.map real)

theorem get_exactPoints (s : Segment) (axis : Axis) :
    s.exactPoints.get axis = (s.points.get axis).map real := by
  cases axis <;> rfl

theorem Through.exactPoints (h : s.Through axis k ks) :
    s.exactPoints.get axis = (k :: ks).map (↑) := by
  rw [get_exactPoints]
  have heq : List.Forall₂ (· = ·) ((s.points.get axis).map real)
      ((k :: ks).map ((↑) : ℤ → ℝ)) := by
    refine List.forall₂_map_left_iff.mpr (List.forall₂_map_right_iff.mpr (h.points.imp ?_))
    intro x k' hx
    rw [hx.real, Rat.cast_intCast]
  rwa [List.forall₂_eq_eq_eq] at heq

theorem Through.hasExtent (h : s.Through axis k ks) (hlow : s.formats.get axis ≠ .seventh) :
    Path.HasExtent negativeZero (s.exactPoints.get axis) := by
  have hlen : (k :: ks).length ≤ 4 := by
    rw [List.length_cons, h.count]
    cases hformat : s.formats.get axis with
    | seventh => exact absurd hformat hlow
    | _ => decide
  obtain ⟨p, hp, hexactly⟩ :=
    Path.exactAxisCurve_exactly (List.cons_ne_nil k ks) (hlen.trans (by decide))
  obtain ⟨i, hi, htight⟩ := Poly.exists_tight negativeZero (by simp) hlen h.bounded
    hexactly
  rw [h.exactPoints]
  exact ⟨p, i, hp, hi, htight⟩

end Segment

namespace Trajectory

variable {tr : Trajectory} {last s : Segment} {negativeZero : Bool}

/-- The box around a flight. -/
noncomputable def exactBox (negativeZero : Bool) (tr : Trajectory) : Except Fault (Box ℝ) :=
  Box.exactAround negativeZero (tr.start.map real) (tr.course.segments.map (·.exactPoints))

theorem exists_exactAxisCurve (hlast : tr.finalHold = .ok last) (hs : s ∈ tr.course.segments)
    (axis : Axis) : ∃ p, Path.exactAxisCurve (s.exactPoints.get axis) = .ok p := by
  have hlen := length_points hlast hs axis
  have hstored : (s.formats.get axis).storedPoints ≤ 7 := by
    cases s.formats.get axis <;> decide
  rw [Segment.get_exactPoints]
  apply @Path.exists_axisCurve ℝ ℝ (Scalar.exact ℝ) (Scalar.exact ℝ) (Widening.exact ℝ)
  · apply List.ne_nil_of_length_pos
    rw [List.length_map]
    omega
  · rw [List.length_map]
    exact hlen.trans_le (Nat.succ_le_succ hstored)

/-- Extents in exact arithmetic are tight. For one to four whole control points of the size
of a coordinate, the extent of their power form holds all values of their curve, up to
what counts as zero, and its bounds are such values. So the box around a flight, which
a survey computes by the same formulas, holds each of its points, if no coordinate is a
curve of the seventh degree. -/
theorem exact_extents_are_tight (negativeZero : Bool) :
    (∀ ks : List ℤ, 1 ≤ ks.length → ks.length ≤ 4 → (∀ k ∈ ks, |k| ≤ 32768 * 127) →
      ∃ p i, Poly.exactBezier (ks.map (↑)) = .ok p ∧ Poly.exactExtent negativeZero p = .ok i ∧
        i.Tight (Bezier.curve (ks.map (↑)))) ∧
    (∀ buffer tr last, Trajectory.ofBuffer buffer = .ok tr → tr.finalHold = .ok last →
      (∀ s ∈ tr.course.segments, ∀ axis ≠ .yaw, s.formats.get axis ≠ .seventh) →
      (∀ box, tr.boundingBox = .ok box ↔
        Box.around tr.start (tr.course.segments.map (·.points)) = .ok box) ∧
      ∃ box, tr.exactBox negativeZero = .ok box ∧ box.Holds (tr.start.map real) ∧
        ∀ s ∈ tr.course.segments, ∀ t, 0 ≤ t → t ≤ 1 →
          box.Holds (s.exactPoints.map fun points => Bezier.curve points t)) := by
  constructor
  · intro ks hpos hlen hks
    have hne : ks ≠ [] := List.ne_nil_of_length_pos hpos
    obtain ⟨p, hp, hexactly⟩ := Poly.exactBezier_exactly hne (hlen.trans (by decide))
    obtain ⟨i, hi, htight⟩ := Poly.exists_tight negativeZero hne hlen hks hexactly
    exact ⟨p, i, hp, hi, htight⟩
  · intro buffer tr last hparse hlast hlow
    obtain ⟨hparsed, -⟩ := parsed_of_ofBuffer hparse
    refine ⟨fun box => boundingBox_eq_ok_iff hlast, ?_⟩
    have hcurves : ∀ points ∈ tr.course.segments.map (·.exactPoints),
        Path.HasExtents negativeZero points := by
      intro points hpoints
      obtain ⟨s, hs, rfl⟩ := List.mem_map.mp hpoints
      constructor
      · intro axis haxis
        obtain ⟨k, ks, hthrough⟩ := hparsed.exists_through hlast hs haxis
        exact hthrough.hasExtent (hlow s hs axis haxis)
      · exact exists_exactAxisCurve hlast hs .yaw
    obtain ⟨box, hbox, hstart, hholds⟩ := Box.exists_exactAround (tr.start.map real) hcurves
    exact ⟨box, hbox, hstart, fun s hs => hholds _ (List.mem_map_of_mem hs)⟩

/-- From 0 by 1000 and 1000 back to 0 the altitude comes to 750, halfway through. -/
theorem a_hop_has_its_extent :
    (∃ p i, Poly.exactBezier (([0, 1000, 1000, 0] : List ℤ).map (↑)) = .ok p ∧
      Poly.exactExtent false p = .ok i ∧ i.Holds 750 ∧ i.max ≤ 750) ∧
    ∃ tr box, Trajectory.ofBytes #[1, 0, 0, 0, 0, 0, 0, 0, 0, 0x20, 0x10, 0x27, 0xe8, 0x03,
        0xe8, 0x03, 0, 0] = .ok tr ∧ tr.exactBox false = .ok box ∧
      ∀ s ∈ tr.course.segments, ∀ t, 0 ≤ t → t ≤ 1 →
        box.Holds (s.exactPoints.map fun points => Bezier.curve points t) := by
  obtain ⟨hcurves, hboxes⟩ := exact_extents_are_tight false
  constructor
  · have hcurve : ∀ t : ℝ, Bezier.curve (([0, 1000, 1000, 0] : List ℤ).map (↑)) t =
        3000 * t * (1 - t) := by
      intro t
      rw [Poly.curve_eq_power (by simp) (by simp), Poly.wholeCoeffs_four]
      norm_num
      ring
    obtain ⟨p, i, hp, hi, htight⟩ :=
      hcurves [0, 1000, 1000, 0] (by decide) (by decide) (by decide)
    refine ⟨p, i, hp, hi, ?_, ?_⟩
    · have hhalf := htight.holds (1 / 2) (by norm_num) (by norm_num)
      rw [hcurve] at hhalf
      norm_num at hhalf
      exact hhalf
    · obtain ⟨t, -, -, hmax⟩ := htight.greatest
      rw [← hmax, hcurve]
      nlinarith [sq_nonneg (t - 1 / 2)]
  · obtain ⟨tr, last, hparse, hlast, hlow⟩ : ∃ tr last,
        Trajectory.ofBytes #[1, 0, 0, 0, 0, 0, 0, 0, 0, 0x20, 0x10, 0x27, 0xe8, 0x03,
          0xe8, 0x03, 0, 0] = .ok tr ∧ tr.finalHold = .ok last ∧
        ∀ s ∈ tr.course.segments, ∀ axis ≠ .yaw, s.formats.get axis ≠ .seventh :=
      ⟨_, _, rfl, rfl, by decide +kernel⟩
    obtain ⟨-, box, hbox, -, hholds⟩ := hboxes _ tr last hparse hlast hlow
    exact ⟨tr, box, hparse, hbox, hholds⟩

end Trajectory

end DroneShow
