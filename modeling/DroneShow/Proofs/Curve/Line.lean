-- Curves of one or two control points. They take exactly the values between their
-- ends, and the search for a value finds each of these.
import DroneShow.Curve.Path
import DroneShow.Proofs.Curve.Crossing

namespace DroneShow

open Binary

/-! ## Exact curves -/

namespace Bezier

theorem curve_pair {K : Type} [Field K] (a b t : K) : curve [a, b] t = (1 - t) * a + t * b := by
  simp [curve, Finset.Nat.antidiagonal_succ]

end Bezier

namespace Poly

variable {p : Poly Single} {value x y : Single} {a b d : ℤ} {r : ℚ}

/-! ## Coefficients -/

theorem constant_whole (hx : x.Represents a) : (constant x).Whole [a] :=
  ⟨show 1 ≤ polySlots by decide, .cons hx .nil⟩

theorem linear_whole (hx : x.Represents a) (hy : y.Represents b) (hsize : |b - a| ≤ 2 ^ 24) :
    (linear 1 x y).Whole [a, b - a] := by
  have hdiff := hy.whole_sub hx (single_whole hsize)
  have hslope : ((y - x) / 1).Represents ((b - a : ℤ) : ℚ) := by
    have hdiv := div_rounds hdiff Quantum.one_represents one_ne_zero
    rw [div_one] at hdiv
    exact hdiv.exact (single_whole hsize)
  unfold linear
  rw [if_neg (by decide)]
  exact ⟨show 2 ≤ polySlots by decide, .cons hx (.cons hslope .nil)⟩

/-! ## Values between the ends -/

theorem constant_reaches (h : p.Whole [a]) (hsize : |a| ≤ 2 ^ 24) (hv : value.Represents a) :
    p.firstReach value = .ok (some 0) := by
  obtain ⟨k, hstart, hk, -⟩ :=
    horner_whole h.coeffs zero_represents le_rfl zero_le_one (by simpa [size] using hsize)
  obtain rfl : k = a := by
    simp only [wholeValue_cons, wholeValue_nil, zero_mul, zero_add] at hk
    exact_mod_cast hk.symm
  have hdiff := hstart.whole_sub hv (single_whole (by simp))
  have hclose : Scalar.abs (p.eval 0 - value) ≤ negligible :=
    (abs_le_negligible_iff hdiff).mpr (sub_self k)
  unfold firstReach
  simp only
  rw [if_pos hclose]

/-- A quotient of a difference by one that is no smaller lies in the unit interval. -/
theorem clampUnit_div_mem (hv : value.Represents r) (hx : x.Represents a) (hy : y.Represents d)
    (hd : d ≠ 0) (hlow : min (a : ℚ) (a + d) ≤ r) (hhigh : r ≤ max (a : ℚ) (a + d)) :
    0 ≤ clampUnit ((value - x) / y) ∧ clampUnit ((value - x) / y) ≤ 1 := by
  have hdQ : (d : ℚ) ≠ 0 := by exact_mod_cast hd
  have hminus : (-y).Represents (-(d : ℚ)) := neg_represents hy
  have hdiff : ∃ e : ℚ, (value - x).Represents e ∧ |e| ≤ |(d : ℚ)| := by
    have hsub := sub_rounds hv hx
    rcases le_total (d : ℚ) 0 with hneg | hpos
    · rw [min_eq_right (by linarith)] at hlow
      rw [max_eq_left (by linarith)] at hhigh
      obtain ⟨e, he, h1, h2⟩ := hsub.between hy hminus (by linarith) (by linarith)
      exact ⟨e, he, by rw [abs_of_nonpos hneg]; exact abs_le.mpr ⟨by linarith, h2⟩⟩
    · rw [min_eq_left (by linarith)] at hlow
      rw [max_eq_right (by linarith)] at hhigh
      obtain ⟨e, he, h1, h2⟩ := hsub.between hminus hy (by linarith) (by linarith)
      exact ⟨e, he, by rw [abs_of_nonneg hpos]; exact abs_le.mpr ⟨h1, h2⟩⟩
  obtain ⟨e, he, hle⟩ := hdiff
  have hquot : |e / (d : ℚ)| ≤ 1 := by
    rw [abs_div]
    exact div_le_one_of_le₀ hle (abs_nonneg _)
  rw [abs_le] at hquot
  have hone : (-1 : Single).Represents (-(1 : ℚ)) := neg_represents Quantum.one_represents
  obtain ⟨w, hw, -⟩ := (div_rounds he hy hdQ).between hone Quantum.one_represents hquot.1 hquot.2
  have hclamp := clampUnit_represents hw
  refine ⟨(le_iff_of_represents Quantum.zero_represents hclamp).mpr ?_,
    (le_iff_of_represents hclamp Quantum.one_represents).mpr (min_le_right _ _)⟩
  exact le_min (le_max_right _ _) zero_le_one

theorem line_ends (h : p.Whole [a, d]) (hsize : |a| + |d| ≤ 2 ^ 24) :
    (p.eval 0).Represents a ∧ (p.eval 1).Represents (a + d) := by
  have hsize' : size [a, d] ≤ 2 ^ 24 := by simpa [size] using hsize
  obtain ⟨k, hstart, hk, -⟩ := horner_whole h.coeffs zero_represents le_rfl zero_le_one hsize'
  obtain ⟨k', hfinish, hk', -⟩ := horner_whole h.coeffs one_represents zero_le_one le_rfl hsize'
  have hfirst : (a : ℝ) = k := by simpa using hk
  have hsum : (d : ℝ) + a = k' := by simpa using hk'
  obtain rfl : a = k := by exact_mod_cast hfirst
  obtain rfl : d + a = k' := by exact_mod_cast hsum
  refine ⟨hstart, ?_⟩
  rw [add_comm d a] at hfinish
  exact_mod_cast hfinish

/-- Both coefficients of a line that rises or falls are significant. -/
theorem line_significant (h : p.Whole [a, d]) (hd : d ≠ 0) :
    ∃ x y, p.significant = [x, y] ∧ x.Represents a ∧ y.Represents d := by
  have hsig := h.significant
  have htrimmed : trimmed [a, d] = [a, d] := (trimmed_concat [a] d).trans (if_neg hd)
  rw [htrimmed] at hsig
  obtain ⟨x, xs, hx, hrest, hsig⟩ := List.forall₂_cons_right_iff.mp hsig
  obtain ⟨y, ys, hy, hnil, rfl⟩ := List.forall₂_cons_right_iff.mp hrest
  obtain rfl := List.forall₂_nil_right_iff.mp hnil
  exact ⟨x, y, hsig, hx, hy⟩

theorem line_reaches (h : p.Whole [a, d]) (hsize : |a| + |d| ≤ 2 ^ 24) (hv : value.Represents r)
    (hlow : min (a : ℚ) (a + d) ≤ r) (hhigh : r ≤ max (a : ℚ) (a + d)) :
    ∃ u, p.firstReach value = .ok (some u) ∧ 0 ≤ u ∧ u ≤ 1 := by
  obtain ⟨hstart, hfinish⟩ := line_ends h hsize
  unfold firstReach
  simp only
  split
  · exact ⟨0, rfl, by decide, by decide⟩
  · rename_i hfar
    by_cases hd : d = 0
    · subst hd
      have hr : r = a := by
        simp only [Int.cast_zero, add_zero, min_self, max_self] at hlow hhigh
        exact le_antisymm hhigh hlow
      rw [hr] at hv
      have hdiff := hstart.whole_sub hv (single_whole (by simp))
      exact absurd ((abs_le_negligible_iff hdiff).mpr (sub_self a)) hfar
    · obtain ⟨x, y, hsig, hx, hy⟩ := line_significant h hd
      rw [hsig]
      simp only
      have hbetween : liesBetween value (p.eval 0) (p.eval 1) = true :=
        liesBetween_of_mem hstart hfinish hv hlow hhigh
      rw [if_pos hbetween]
      obtain ⟨hu, hu'⟩ := clampUnit_div_mem hv hx hy hd hlow hhigh
      exact ⟨_, rfl, hu, hu'⟩

/-! ## Curves of control points -/

/-- The curve of one or two control points is found to reach each value between
the first and the last of them. -/
theorem axisCurve_reaches {points : List Single} {k : ℤ} {ks : List ℤ}
    (hpoints : List.Forall₂ (fun x (k : ℤ) => x.Represents k) points (k :: ks))
    (hlen : ks.length ≤ 1) (hsize : ∀ k' ∈ k :: ks, |k'| ≤ 32768 * 127)
    (hp : Path.axisCurve points = .ok p) (hv : value.Represents r)
    (hlow : ((min k (ks.getLastD k) : ℤ) : ℚ) ≤ r) (hhigh : r ≤ ((max k (ks.getLastD k) : ℤ) : ℚ)) :
    ∃ u, p.firstReach value = .ok (some u) ∧ 0 ≤ u ∧ u ≤ 1 := by
  match ks, hlen with
  | [], _ =>
    obtain ⟨x, xs, hx, hnil, rfl⟩ := List.forall₂_cons_right_iff.mp hpoints
    obtain rfl := List.forall₂_nil_right_iff.mp hnil
    obtain rfl : constant x = p := Except.ok.inj hp
    obtain rfl : r = k := le_antisymm (by simpa using hhigh) (by simpa using hlow)
    have hk : |k| ≤ 32768 * 127 := hsize k List.mem_cons_self
    exact ⟨0, constant_reaches (constant_whole hx) (by omega) hv, by decide, by decide⟩
  | [l], _ =>
    obtain ⟨x, xs, hx, hrest, rfl⟩ := List.forall₂_cons_right_iff.mp hpoints
    obtain ⟨y, ys, hy, hnil, rfl⟩ := List.forall₂_cons_right_iff.mp hrest
    obtain rfl := List.forall₂_nil_right_iff.mp hnil
    obtain rfl : linear 1 x y = p := Except.ok.inj hp
    have hk : |k| ≤ 32768 * 127 := hsize k List.mem_cons_self
    have hl : |l| ≤ 32768 * 127 := hsize l (by simp)
    have hdiff : |l - k| ≤ |l| + |k| := abs_sub l k
    refine line_reaches (linear_whole hx hy (by omega)) (by omega) hv ?_ ?_
    · push_cast at hlow ⊢
      simpa using hlow
    · push_cast at hhigh ⊢
      simpa using hhigh

end Poly

end DroneShow
