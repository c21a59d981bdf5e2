-- The scheme in place. A column may overwrite the one before it, if it is
-- written from the back: each point then still finds the one before it as it
-- was. What is left at the end are the heads of all columns.
import DroneShow.Proofs.Curve.Subdivision

namespace DroneShow.Bezier

/-! ## Overwriting -/

section Scheme

variable {α : Type} [Scalar α]

/-- Mixes the point at an index with the one before it, in its place. -/
def overwrite (t : α) (index : Nat) (points : List α) : List α :=
  match points[index - 1]?, points[index]? with
  | some a, some b => points.set index (mix t a b)
  | _, _ => points

/-- One level of the scheme in place, from the last point down to the one at `level`. -/
def sweep (t : α) (points : List α) (level : Nat) : List α :=
  (List.range' level (points.length - level)).foldr (overwrite t) points

/-- The whole scheme in place, level by level. -/
def sweeps (t : α) (points : List α) : List α :=
  (List.range' 1 (points.length - 1)).foldl (sweep t) points

theorem overwrite_one (t a b : α) (rest : List α) :
    overwrite t 1 (a :: b :: rest) = a :: mix t a b :: rest := rfl

/-- Behind a first point, the same is done one place further. -/
theorem overwrite_cons (t a : α) (index : Nat) (points : List α) :
    overwrite t (index + 2) (a :: points) = a :: overwrite t (index + 1) points := by
  unfold overwrite
  simp only [Nat.add_sub_cancel, show index + 2 - 1 = index + 1 by omega, List.getElem?_cons_succ]
  split <;> simp_all

theorem foldr_overwrite_cons (t a : α) (index count : Nat) (points : List α) :
    (List.range' (index + 2) count).foldr (overwrite t) (a :: points) =
      a :: (List.range' (index + 1) count).foldr (overwrite t) points := by
  induction count generalizing index with
  | zero => rfl
  | succ count ih =>
    rw [List.range'_succ, List.range'_succ, List.foldr_cons, List.foldr_cons, ih, overwrite_cons]

/-- A level behind a first point is the level before it behind none. -/
theorem sweep_cons (t a : α) (level : Nat) (points : List α) :
    sweep t (a :: points) (level + 2) = a :: sweep t points (level + 1) := by
  unfold sweep
  rw [List.length_cons, Nat.add_sub_add_right, foldr_overwrite_cons]

/-- The first level leaves the first point, and behind it the next column. -/
theorem sweep_one (t a : α) (rest : List α) :
    sweep t (a :: rest) 1 = a :: column t (a :: rest) := by
  induction rest generalizing a with
  | nil => rfl
  | cons b rest ih =>
    have hback : sweep t (a :: b :: rest) 2 = a :: b :: column t (b :: rest) := by
      rw [sweep_cons, ih]
    have hfirst : sweep t (a :: b :: rest) 1 = overwrite t 1 (sweep t (a :: b :: rest) 2) := by
      unfold sweep
      rw [List.length_cons, List.length_cons, Nat.add_sub_cancel, List.range'_succ]
      rfl
    rw [hfirst, hback, overwrite_one, column]

/-- The levels behind a first point are the whole scheme behind it. -/
theorem foldl_sweep_cons (t a : α) (level count : Nat) (points : List α) :
    (List.range' (level + 2) count).foldl (sweep t) (a :: points) =
      a :: (List.range' (level + 1) count).foldl (sweep t) points := by
  induction count generalizing level points with
  | zero => rfl
  | succ count ih =>
    rw [List.range'_succ, List.range'_succ, List.foldl_cons, List.foldl_cons, sweep_cons, ih]

/-- In place or column by column, the scheme gives the same points. -/
theorem sweeps_eq_restrict (t : α) (points : List α) : sweeps t points = restrict points t := by
  induction hn : points.length generalizing points with
  | zero =>
    rw [List.length_eq_zero_iff.mp hn]
    rfl
  | succ n ih =>
    match points, hn with
    | [a], _ => rfl
    | a :: b :: rest, hn =>
      have hcolumn : (column t (a :: b :: rest)).length = rest.length + 1 := length_column t _
      have hnext := ih (column t (a :: b :: rest)) (by simpa [hcolumn] using hn)
      unfold sweeps at hnext ⊢
      rw [hcolumn, Nat.add_sub_cancel] at hnext
      rw [List.length_cons, List.length_cons, Nat.add_sub_cancel, List.range'_succ,
        List.foldl_cons, sweep_one, foldl_sweep_cons, hnext, restrict_cons]

end Scheme

/-! ## The law -/

/-- A curve ends at its last control point: the other ones have no weight there. -/
theorem curve_one {K : Type} [Field K] {points : List K} (h : points ≠ []) :
    curve points 1 = points.getLast h := by
  have hlast : points.getD (points.length - 1) 0 = points.getLast h := by
    have hlt : points.length - 1 < points.length := Nat.sub_one_lt (List.length_pos_iff.mpr h).ne'
    rw [List.getD_eq_getElem?_getD, List.getElem?_eq_getElem hlt, List.getLast_eq_getElem]
    rfl
  unfold curve
  rw [Finset.sum_eq_single (points.length - 1, 0), hlast]
  · simp
  · intro ij hij hne
    have hsum := Finset.HasAntidiagonal.mem_antidiagonal.mp hij
    have hweight : ij.2 ≠ 0 := by
      intro hzero
      rw [hzero, Nat.add_zero] at hsum
      exact hne (Prod.ext hsum hzero)
    rw [sub_self, zero_pow hweight]
    ring
  · intro hout
    exact absurd (Finset.HasAntidiagonal.mem_antidiagonal.mpr (Nat.add_zero _)) hout

/-- The restricted curve is the curve in part. Over the rationals, the scheme leaves as many
control points, whether it overwrites them in place or not; their curve at `u` is the curve of
the given ones at `t * u`. It starts at the first of these, and ends where their curve is at `t`. -/
theorem restricted_curve_is_the_curve_in_part {points : List ℚ} (h : points ≠ []) (t u : ℚ) :
    @sweeps ℚ (Scalar.exact ℚ) t points = exactRestrict points t ∧
    (exactRestrict points t).length = points.length ∧
    curve (exactRestrict points t) u = curve points (t * u) ∧
    (exactRestrict points t).head? = points.head? ∧
    (exactRestrict points t).getLast? = some (curve points t) := by
  have hlength := length_exactRestrict points t
  have hrestricted : exactRestrict points t ≠ [] := by
    rw [← List.length_pos_iff, hlength]
    exact List.length_pos_iff.mpr h
  refine ⟨@sweeps_eq_restrict ℚ (Scalar.exact ℚ) t points, hlength, ?_, ?_, ?_⟩
  · rw [curve_exactRestrict, mul_comm]
  · match points, h with
    | a :: rest, _ =>
      rw [exactRestrict_cons]
      rfl
  · rw [List.getLast?_eq_getLast_of_ne_nil hrestricted, ← curve_one hrestricted,
      curve_exactRestrict, one_mul]

/-- The first quarter of a curve of the third degree, halfway through. -/
theorem a_quarter_of_a_cubic :
    exactRestrict [0, 64, -64, 128] (1 / 4) = ([0, 16, 20, 20] : List ℚ) ∧
    curve ([0, 16, 20, 20] : List ℚ) (1 / 2) = curve [0, 64, -64, 128] (1 / 4 * (1 / 2)) ∧
    curve ([0, 64, -64, 128] : List ℚ) (1 / 4) = 20 := by
  have hquarter : exactRestrict [0, 64, -64, 128] (1 / 4) = ([0, 16, 20, 20] : List ℚ) := by
    simp only [exactRestrict_cons, exactColumn_cons, exactColumn_singleton, exactRestrict_nil]
    norm_num
  obtain ⟨-, -, hpart, -, hlast⟩ :=
    restricted_curve_is_the_curve_in_part (List.cons_ne_nil (0 : ℚ) [64, -64, 128]) (1 / 4) (1 / 2)
  rw [hquarter] at hpart hlast
  exact ⟨hquarter, hpart, (Option.some.inj hlast).symm⟩

end DroneShow.Bezier
