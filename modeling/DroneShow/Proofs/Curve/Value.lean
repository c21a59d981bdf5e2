-- Values of polynomials whose coefficients are whole numbers. Horner's scheme is exact
-- at zero and at one, and between them off by a few roundings of the greatest value.
import Mathlib.Data.List.DropRight
import Mathlib.Data.List.GetD
import DroneShow.Proofs.Binary.Relative
import DroneShow.Proofs.Curve.Power

namespace DroneShow.Poly

open Binary

variable {p : Poly Single} {cs : List ℤ} {t : Single} {u : ℚ} {c k : ℤ}

/-! ## Significant coefficients -/

theorem negligible_represents : ∃ q : ℚ, (negligible : Single).Represents q ∧ 0 ≤ q ∧ q < 1 / 65536 := by
  have hrounds : (negligible : Single).Rounds (1 / 100000) :=
    ⟨false, 1, 100000, 0, by decide, rfl, by norm_num⟩
  obtain ⟨z, hz, herr, hnonneg⟩ := hrounds.near (m := -16) (Quantum.covers_single (by decide) (by decide))
    (by norm_num [abs_of_pos])
  refine ⟨z, hz, hnonneg (by norm_num), ?_⟩
  rw [abs_le] at herr
  have hsmall : (2 : ℚ) ^ (-16 - ((binary32.precision - 1 : Nat) : ℤ) - 2) = 1 / 2 ^ 41 := by
    rw [show (-16 - ((binary32.precision - 1 : Nat) : ℤ) - 2) = -(41 : ℕ) by decide, zpow_neg,
      zpow_natCast, one_div]
  rw [hsmall] at herr
  norm_num at herr ⊢
  linarith

/-- Of whole numbers only zero is negligible. -/
theorem abs_le_negligible_iff {x : Single} (h : x.Represents c) :
    Scalar.abs x ≤ negligible ↔ c = 0 := by
  obtain ⟨q, hq, hq0, hq1⟩ := negligible_represents
  have habs : (Scalar.abs x).Represents |(c : ℚ)| := Represents.abs h
  rw [le_iff_of_represents habs hq]
  constructor
  · intro hle
    by_contra hc
    have hone : (1 : ℚ) ≤ |(c : ℚ)| := by exact_mod_cast Int.one_le_abs hc
    linarith
  · intro hc
    simpa [hc] using hq0

/-- The coefficients up to the last one that is not zero. -/
def trimmed (cs : List ℤ) : List ℤ := cs.rdropWhile fun c => decide (c = 0)

theorem trimmed_concat (cs : List ℤ) (c : ℤ) :
    trimmed (cs ++ [c]) = if c = 0 then trimmed cs else cs ++ [c] := by
  unfold trimmed
  rw [List.rdropWhile_concat]
  simp

theorem getLast_trimmed (h : trimmed cs ≠ []) : (trimmed cs).getLast h ≠ 0 := by
  have hlast := List.rdropWhile_last_not _ cs h
  rwa [decide_eq_true_eq] at hlast

theorem length_trimmed_le (cs : List ℤ) : (trimmed cs).length ≤ cs.length :=
  (List.rdropWhile_prefix _ cs).length_le

theorem wholeValue_concat_zero (cs : List ℤ) (t : ℝ) :
    wholeValue (cs ++ [0]) t = wholeValue cs t := by
  induction cs with
  | nil => simp
  | cons c cs ih => rw [List.cons_append, wholeValue_cons, wholeValue_cons, ih]

@[simp] theorem wholeValue_trimmed (cs : List ℤ) (t : ℝ) :
    wholeValue (trimmed cs) t = wholeValue cs t := by
  induction cs using List.reverseRecOn with
  | nil => rfl
  | append_singleton cs c ih =>
    rw [trimmed_concat]
    by_cases hc : c = 0
    · rw [if_pos hc, ih, hc, wholeValue_concat_zero]
    · rw [if_neg hc]

@[simp] theorem getD_trimmed (cs : List ℤ) (i : Nat) : (trimmed cs).getD i 0 = cs.getD i 0 := by
  induction cs using List.reverseRecOn with
  | nil => rfl
  | append_singleton cs c ih =>
    rw [trimmed_concat]
    by_cases hc : c = 0
    · rw [if_pos hc, ih, hc]
      rcases Nat.lt_or_ge i cs.length with hi | hi
      · rw [List.getD_append _ _ _ _ hi]
      · rw [List.getD_append_right _ _ _ _ hi, List.getD_eq_default _ _ hi]
        cases i - cs.length <;> rfl
    · rw [if_neg hc]

theorem Moderate.trimmed (h : Moderate cs) : Moderate (trimmed cs) where
  count := (length_trimmed_le cs).trans h.count
  start := by simpa only [getD_trimmed] using h.start
  first := by simpa only [getD_trimmed] using h.first
  middle := by simpa only [getD_trimmed] using h.middle
  second := by simpa only [getD_trimmed] using h.second
  third := by simpa only [getD_trimmed] using h.third
  last := by simpa only [getD_trimmed] using h.last

theorem forall₂_dropWhile {α β : Type} {R : α → β → Prop} {f : α → Bool} {g : β → Bool}
    (hfg : ∀ {a b}, R a b → f a = g b) {as : List α} {bs : List β} (h : List.Forall₂ R as bs) :
    List.Forall₂ R (as.dropWhile f) (bs.dropWhile g) := by
  induction h with
  | nil => exact .nil
  | cons hab hrest ih =>
    rw [List.dropWhile_cons, List.dropWhile_cons, hfg hab]
    split
    · exact ih
    · exact .cons hab hrest

/-- The significant coefficients are those up to the last that is not zero. -/
theorem Whole.significant (h : p.Whole cs) :
    List.Forall₂ (fun x (c : ℤ) => x.Represents c) p.significant (trimmed cs) := by
  refine List.rel_reverse (forall₂_dropWhile ?_ (List.rel_reverse h.coeffs))
  intro x c hxc
  exact decide_eq_decide.mpr (abs_le_negligible_iff hxc)

/-! ## Horner's scheme -/

/-- A bound on all values in the unit interval. -/
def size (cs : List ℤ) : ℤ := (cs.map fun c => |c|).sum

@[simp] theorem size_cons (c : ℤ) (cs : List ℤ) : size (c :: cs) = |c| + size cs := by simp [size]

theorem abs_wholeValue_le {t : ℝ} (ht : 0 ≤ t) (ht' : t ≤ 1) (cs : List ℤ) :
    |wholeValue cs t| ≤ size cs := by
  induction cs with
  | nil => simp [size]
  | cons c cs ih =>
    rw [wholeValue_cons, size_cons, Int.cast_add, Int.cast_abs, add_comm]
    refine (abs_add_le _ _).trans (add_le_add le_rfl ?_)
    rw [abs_mul, abs_of_nonneg ht]
    nlinarith [abs_nonneg (wholeValue cs t)]

/-- Horner's scheme on a list of coefficients. -/
def horner {F : Format} (xs : List (Binary F)) (t : Binary F) : Binary F :=
  xs.foldr (fun x acc => acc * t + x) 0

/-- One step of the scheme adds two roundings to the error. -/
theorem horner_step {F : Format} {acc t x : Binary F} {b : ℚ} {v e : ℝ}
    (hacc : acc.Approx v e) (ht : t.Represents u) (hu : 0 ≤ u) (hu' : u ≤ 1)
    (hx : x.Represents c) (hb : F.Spans b)
    (hsize : |v| + |(c : ℝ)| + (e + 2 * (b * F.roundoff)) ≤ b) :
    (acc * t + x).Approx (v * u + c) (e + 2 * (b * F.roundoff)) := by
  have huR : (0 : ℝ) ≤ u := by exact_mod_cast hu
  have huR' : (u : ℝ) ≤ 1 := by exact_mod_cast hu'
  have hstep : (0 : ℝ) < b * F.roundoff := by exact_mod_cast mul_pos hb.pos F.roundoff_pos
  have hvu : |v * u| ≤ |v| := by
    rw [abs_mul, abs_of_nonneg huR]
    exact mul_le_of_le_one_right (abs_nonneg v) huR'
  have heu : e * |(u : ℝ)| ≤ e := by
    rw [abs_of_nonneg huR]
    exact mul_le_of_le_one_right hacc.nonneg huR'
  have hc := abs_nonneg (c : ℝ)
  have hprod : (acc * t).Approx (v * u) (e + b * F.roundoff) :=
    (hacc.mul ht.approx hb (by linarith)).mono (by linarith)
  have hx' : x.Approx c 0 := by simpa using hx.approx
  have htri := abs_add_le (v * u) c
  exact (hprod.add hx' hb (by linarith)).mono (by linarith)

/-- The error of a value in the unit interval, in roundings of the greatest one. -/
theorem horner_approx {F : Format} {xs : List (Binary F)} {t : Binary F} {b : ℚ}
    (h : List.Forall₂ (fun x (c : ℤ) => x.Represents c) xs cs) (ht : t.Represents u) (hu : 0 ≤ u)
    (hu' : u ≤ 1) (hb : F.Spans b)
    (hsize : (size cs : ℝ) + 2 * cs.length * (b * F.roundoff) ≤ b) :
    (horner xs t).Approx (wholeValue cs u) (2 * cs.length * (b * F.roundoff)) := by
  have hstep : (0 : ℝ) < b * F.roundoff := by exact_mod_cast mul_pos hb.pos F.roundoff_pos
  induction h with
  | nil =>
    have hzero : (0 : Binary F).Represents (0 : ℚ) := by
      have hnat := ofNat_represents (F := F) (k := 0) (by simpa using F.exact_zero)
      exact_mod_cast hnat
    show (0 : Binary F).Approx _ _
    simpa using hzero.approx
  | @cons x c xs cs hx hrest ih =>
    rw [size_cons, List.length_cons] at hsize
    rw [List.length_cons]
    push_cast at hsize ⊢
    have hc := abs_nonneg (c : ℝ)
    have hv := abs_wholeValue_le (t := u) (by exact_mod_cast hu) (by exact_mod_cast hu') cs
    exact (horner_step (ih (by linarith)) ht hu hu' hx hb (by linarith)).mono (by linarith)

/-- At whole parameters in the unit interval, the scheme is exact. -/
theorem horner_whole {xs : List Single} {t : Single}
    (h : List.Forall₂ (fun x (c : ℤ) => x.Represents c) xs cs) (ht : t.Represents k)
    (hk : 0 ≤ k) (hk' : k ≤ 1) (hsize : size cs ≤ 2 ^ 24) :
    ∃ v : ℤ, (horner xs t).Represents v ∧ wholeValue cs k = v ∧ |v| ≤ size cs := by
  have hexact : ∀ {v : ℤ}, |v| ≤ 2 ^ 24 → binary32.Exact v := fun {v} hv =>
    Quantum.exact_int (by rw [Int.abs_eq_natAbs] at hv; omega)
  induction h with
  | nil =>
    refine ⟨0, ?_, by simp, by simp [size]⟩
    rw [Int.cast_zero]
    exact Quantum.zero_represents
  | @cons x c xs cs hx hrest ih =>
    rw [size_cons] at hsize ⊢
    have hc := abs_nonneg c
    obtain ⟨v, hv, hval, hle⟩ := ih (by omega)
    have hvk : |v * k| ≤ size cs := by
      rw [abs_mul, abs_of_nonneg hk]
      exact (mul_le_of_le_one_right (abs_nonneg v) hk').trans hle
    have htri := abs_add_le (v * k) c
    refine ⟨v * k + c, (hv.whole_mul ht (hexact (by omega))).whole_add hx (hexact (by omega)), ?_, by omega⟩
    rw [wholeValue_cons, hval]
    push_cast
    rfl

/-! ## Polynomials of moderate size -/

theorem Moderate.size_le (h : Moderate cs) : size cs ≤ 884710 := by
  have hstart := h.start
  have hfirst := h.first
  have hsecond := h.second
  have hthird := h.third
  match cs, h.count with
  | [], _ => decide
  | [a], _ =>
    simp [size] at *
    omega
  | [a, b], _ =>
    simp [size] at *
    omega
  | [a, b, c], _ =>
    simp [size] at *
    omega
  | [a, b, c, d], _ =>
    simp [size] at *
    omega

theorem spans_single {m : Nat} (h : m ≤ 100) : binary32.Spans (2 ^ m) := by
  refine ⟨?_, m + 1, Quantum.covers_single (by omega) (by omega), ?_⟩
  · rw [show binary32.minExponent + ((binary32.precision - 1 : Nat) : ℤ) = -126 from rfl]
    exact (zpow_le_one_of_nonpos₀ one_le_two (by decide)).trans (one_le_pow₀ one_le_two)
  · rw [← zpow_natCast]
    exact zpow_lt_zpow_right₀ one_lt_two (by omega)

theorem roundoff_single : binary32.roundoff = 1 / 2 ^ 24 := by
  unfold Format.roundoff
  rw [show (-(binary32.precision - 1 : Nat) - 1 : ℤ) = -(24 : ℕ) by decide, zpow_neg, zpow_natCast,
    one_div]

/-- In the unit interval, values are off by at most a half. -/
theorem Whole.eval_approx (h : p.Whole cs) (hm : Moderate cs) (ht : t.Represents u) (hu : 0 ≤ u)
    (hu' : u ≤ 1) : (p.eval t).Approx (wholeValue cs u) (1 / 2) := by
  have hcount : (cs.length : ℝ) ≤ 4 := by exact_mod_cast hm.count
  have hsize : (size cs : ℝ) ≤ 884710 := by exact_mod_cast hm.size_le
  have hb : (((2 ^ 20 : ℚ) : ℝ) * binary32.roundoff) = 1 / 16 := by
    rw [roundoff_single]
    norm_num
  refine (horner_approx h.coeffs ht hu hu' (spans_single (m := 20) (by decide)) ?_).mono ?_
  · rw [hb]
    norm_num
    linarith
  · rw [hb]
    linarith

/-- At both ends, values are exact. -/
theorem Whole.eval_represents (h : p.Whole cs) (hm : Moderate cs) (ht : t.Represents k)
    (hk : 0 ≤ k) (hk' : k ≤ 1) :
    ∃ v : ℤ, (p.eval t).Represents v ∧ wholeValue cs k = v ∧ |v| ≤ 884710 := by
  obtain ⟨v, hv, hval, hle⟩ := horner_whole h.coeffs ht hk hk' (hm.size_le.trans (by decide))
  exact ⟨v, hv, hval, hle.trans hm.size_le⟩

/-- The coefficients of a moderate polynomial as those of a cubic. -/
theorem Moderate.wholeValue_eq (h : Moderate cs) (s : ℝ) : wholeValue cs s =
    cs.getD 3 0 * s ^ 3 + cs.getD 2 0 * s ^ 2 + cs.getD 1 0 * s + cs.getD 0 0 := by
  match cs, h.count with
  | [], _ => simp
  | [a], _ => simp
  | [a, b], _ => simp
  | [a, b, c], _ =>
    simp
    ring
  | [a, b, c, d], _ =>
    simp
    ring

theorem Moderate.slope_le (h : Moderate cs) {x : ℝ} (hx : 0 ≤ x) (hx' : x ≤ 1) :
    |(cs.getD 1 0 + 2 * cs.getD 2 0 * x + 3 * cs.getD 3 0 * x ^ 2 : ℝ)| ≤ 196602 := by
  have hfirst : |(cs.getD 1 0 : ℝ)| ≤ 196602 := by exact_mod_cast h.first
  have hmiddle : |(cs.getD 1 0 + cs.getD 2 0 : ℝ)| ≤ 196602 := by exact_mod_cast h.middle
  have hlast : |(cs.getD 1 0 + 2 * cs.getD 2 0 + 3 * cs.getD 3 0 : ℝ)| ≤ 196602 := by
    exact_mod_cast h.last
  generalize (cs.getD 1 0 : ℝ) = c1 at *
  generalize (cs.getD 2 0 : ℝ) = c2 at *
  generalize (cs.getD 3 0 : ℝ) = c3 at *
  have hrest : 0 ≤ 1 - x := sub_nonneg.mpr hx'
  have hmean : c1 + 2 * c2 * x + 3 * c3 * x ^ 2 =
      (1 - x) ^ 2 * c1 + 2 * x * (1 - x) * (c1 + c2) + x ^ 2 * (c1 + 2 * c2 + 3 * c3) := by ring
  rw [hmean]
  calc |(1 - x) ^ 2 * c1 + 2 * x * (1 - x) * (c1 + c2) + x ^ 2 * (c1 + 2 * c2 + 3 * c3)|
      ≤ (1 - x) ^ 2 * |c1| + 2 * x * (1 - x) * |c1 + c2| + x ^ 2 * |c1 + 2 * c2 + 3 * c3| := by
        refine (abs_add_three _ _ _).trans_eq ?_
        rw [abs_mul ((1 - x) ^ 2), abs_mul (2 * x * (1 - x)), abs_mul (x ^ 2), abs_sq, abs_sq,
          abs_of_nonneg (mul_nonneg (mul_nonneg zero_le_two hx) hrest)]
    _ ≤ (1 - x) ^ 2 * 196602 + 2 * x * (1 - x) * 196602 + x ^ 2 * 196602 := by gcongr
    _ = 196602 := by ring

/-- Near the unit interval, values differ by at most the greatest slope. -/
theorem Moderate.near (h : Moderate cs) {x y : ℝ} (hx : 0 ≤ x) (hx' : x ≤ 1)
    (hxy : |x - y| ≤ 1 / 2 ^ 17) : |wholeValue cs x - wholeValue cs y| ≤ 200000 * |x - y| := by
  have hslope := h.slope_le hx hx'
  have hsecond : |(cs.getD 2 0 : ℝ)| ≤ 393204 := by exact_mod_cast h.second
  have hthird : |(cs.getD 3 0 : ℝ)| ≤ 262136 := by exact_mod_cast h.third
  rw [h.wholeValue_eq, h.wholeValue_eq]
  generalize (cs.getD 1 0 : ℝ) = c1 at *
  generalize (cs.getD 2 0 : ℝ) = c2 at *
  generalize (cs.getD 3 0 : ℝ) = c3 at *
  have hbend : |(y - x) * (c2 + 3 * c3 * x + c3 * (y - x))| ≤ 3000 := by
    have hwide : |c2 + 3 * c3 * x + c3 * (y - x)| ≤ 393204 + 3 * 262136 * 1 + 262136 * 1 := by
      refine (abs_add_three _ _ _).trans ?_
      rw [abs_mul (3 * c3), abs_mul 3, abs_mul c3, abs_of_pos (three_pos (α := ℝ)), abs_of_nonneg hx,
        abs_sub_comm y x]
      gcongr
      linarith
    rw [abs_mul, abs_sub_comm]
    calc |x - y| * |c2 + 3 * c3 * x + c3 * (y - x)|
        ≤ 1 / 2 ^ 17 * (393204 + 3 * 262136 * 1 + 262136 * 1) := by gcongr
      _ ≤ 3000 := by norm_num
  have hsplit : c3 * x ^ 3 + c2 * x ^ 2 + c1 * x + cs.getD 0 0 -
      (c3 * y ^ 3 + c2 * y ^ 2 + c1 * y + cs.getD 0 0) =
      (c1 + 2 * c2 * x + 3 * c3 * x ^ 2 + (y - x) * (c2 + 3 * c3 * x + c3 * (y - x))) * (x - y) := by ring
  rw [hsplit, abs_mul]
  refine mul_le_mul_of_nonneg_right ?_ (abs_nonneg _)
  exact (abs_add_le _ _).trans (by linarith)

end DroneShow.Poly
