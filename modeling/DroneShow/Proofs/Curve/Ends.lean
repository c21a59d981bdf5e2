-- The ends of a curve. Horner's scheme at zero gives the first coefficient, and this
-- is the first control point, whatever the other coefficients are as long as they are
-- finite. At one it adds up the coefficients, which is exact while all sums from some
-- coefficient on are numbers of the format.
import DroneShow.Curve.Path
import DroneShow.Proofs.Curve.Line

namespace DroneShow

open Binary

/-! ## Rounding within whole bounds -/

theorem Binary.Rounds.bounded {x : Double} {q : ℚ} {b : ℤ} (h : x.Rounds q) (hb : b ≤ 2 ^ 53)
    (hq : |q| ≤ b) : ∃ z, x.Represents z ∧ |z| ≤ b := by
  have hnonneg : 0 ≤ b := by exact_mod_cast (abs_nonneg q).trans hq
  obtain ⟨hi, hhi⟩ := exists_number (exact_whole (k := b) (by rwa [abs_of_nonneg hnonneg]))
  obtain ⟨lo, hlo⟩ := exists_number (exact_whole (k := -b) (by rwa [abs_neg, abs_of_nonneg hnonneg]))
  rw [abs_le] at hq
  obtain ⟨z, hz, hlow, hhigh⟩ := h.between hlo hhi (by push_cast; exact hq.1) hq.2
  rw [Int.cast_neg] at hlow
  exact ⟨z, hz, abs_le.mpr ⟨hlow, hhigh⟩⟩

namespace Poly

variable {p : Poly Single} {x y : Single} {xs points : List Single} {q r : ℚ} {n j i : Nat}
  {k : ℤ} {ks cs : List ℤ}

/-! ## Horner's scheme at zero -/

/-- All coefficients are finite, and the first of them stands for `q`. -/
def BeginsAt (p : Poly Single) (q : ℚ) : Prop :=
  ∃ x xs, p.coeffs = x :: xs ∧ x.Represents q ∧ ∀ y ∈ xs, y.isFinite = true

theorem mul_zero_add_represents (hx : x.Represents r) (hy : y.Represents q) :
    (x * 0 + y).Represents q := by
  have hproduct := mul_rounds hx Quantum.zero_represents
  rw [mul_zero] at hproduct
  have hsum := add_rounds (hproduct.exact binary32.exact_zero) hy
  rw [zero_add] at hsum
  exact hsum.exact hy.exact

theorem horner_zero (hx : x.Represents q) (hxs : ∀ y ∈ xs, y.isFinite = true) :
    (horner (x :: xs) 0).Represents q := by
  induction xs generalizing x q with
  | nil => exact mul_zero_add_represents Quantum.zero_represents hx
  | cons y ys ih =>
    obtain ⟨hy, hys⟩ := List.forall_mem_cons.mp hxs
    obtain ⟨r, hr⟩ := exists_represents hy
    exact mul_zero_add_represents (ih hr hys) hx

theorem BeginsAt.eval_zero (h : p.BeginsAt q) : (p.eval 0).Represents q := by
  obtain ⟨x, xs, hcoeffs, hx, hxs⟩ := h
  have hvalue := horner_zero hx hxs
  rw [← hcoeffs] at hvalue
  exact hvalue

/-! ## Coefficients -/

/-- No term exceeds the greatest weight times the greatest control point. -/
theorem bezierTerm_bounded (hn : n ≤ 7) (hj : j ≤ n) (hi : i ≤ j) (hx : x.Represents q)
    (hq : |q| ≤ 2 ^ 23) :
    ∃ t, (bezierWeight n j i * Widening.widen x).Represents t ∧ |t| ≤ (2 ^ 36 : ℤ) := by
  have hw : ((n.choose j * j.choose i : ℕ) : ℚ) ≤ 5040 := by
    exact_mod_cast (picks_le hj hi).trans (Nat.factorial_le hn)
  have hterm : |((n.choose j * j.choose i : ℕ) : ℚ) * q| ≤ (2 ^ 36 : ℤ) := by
    rw [abs_mul, Nat.abs_cast]
    calc ((n.choose j * j.choose i : ℕ) : ℚ) * |q| ≤ 5040 * 2 ^ 23 := by gcongr
      _ ≤ (2 ^ 36 : ℤ) := by norm_num
  exact (mul_rounds (bezierWeight_represents hn hj hi) hx.widen).bounded (by decide) hterm

/-- The sums of a conversion stay finite: each term adds at most `2 ^ 36`. -/
theorem bezierSum_bounded {sum : Double} {S : ℚ} {m : Nat} (hn : n ≤ 7) (hj : j ≤ n)
    (hpoints : ∀ x ∈ points, ∃ q, x.Represents q ∧ |q| ≤ 2 ^ 23) (hsum : sum.Represents S)
    (hS : |S| ≤ (m * 2 ^ 36 : ℤ)) (hm : m + points.length ≤ 8) :
    ∃ T, (bezierSum n j sum i points).Represents T ∧ |T| ≤ (8 * 2 ^ 36 : ℤ) := by
  have hdone : |S| ≤ (8 * 2 ^ 36 : ℤ) := by
    refine hS.trans ?_
    exact_mod_cast (by omega : (m : ℤ) * 2 ^ 36 ≤ 8 * 2 ^ 36)
  induction points generalizing i m sum S with
  | nil => exact ⟨S, hsum, hdone⟩
  | cons x rest ih =>
    obtain ⟨⟨q, hx, hq⟩, hrest⟩ := List.forall_mem_cons.mp hpoints
    rw [List.length_cons] at hm
    rw [bezierSum]
    by_cases hji : j < i
    · rw [if_pos hji]
      exact ⟨S, hsum, hdone⟩
    · rw [if_neg hji]
      obtain ⟨t, ht, htle⟩ := bezierTerm_bounded hn hj (Nat.not_lt.mp hji) hx hq
      have hlimit : ((m + 1 : Nat) : ℤ) * 2 ^ 36 ≤ 2 ^ 53 := by omega
      have hgrow : ∀ z : ℚ, |z| ≤ |S| + |t| → |z| ≤ (((m + 1 : Nat) : ℤ) * 2 ^ 36 : ℤ) := by
        intro z hz
        push_cast at hS htle ⊢
        linarith
      have hnext : ∃ S', (if (i + j) % 2 = 1 then sum - bezierWeight n j i * Widening.widen x
          else sum + bezierWeight n j i * Widening.widen x).Represents S' ∧
            |S'| ≤ (((m + 1 : Nat) : ℤ) * 2 ^ 36 : ℤ) := by
        split
        · exact (sub_rounds hsum ht).bounded hlimit (hgrow _ (abs_sub S t))
        · exact (add_rounds hsum ht).bounded hlimit (hgrow _ (abs_add_le S t))
      obtain ⟨S', hS', hle⟩ := hnext
      refine ih hrest hS' hle (by omega) (hle.trans ?_)
      exact_mod_cast (by omega : ((m + 1 : Nat) : ℤ) * 2 ^ 36 ≤ 8 * 2 ^ 36)

theorem bezierCoeff_isFinite (hlen : points.length ≤ polySlots) (hj : j < points.length)
    (hpoints : ∀ x ∈ points, ∃ q, x.Represents q ∧ |q| ≤ 2 ^ 23) :
    (bezierCoeff points j : Single).isFinite = true := by
  unfold polySlots at hlen
  obtain ⟨T, hT, hle⟩ := bezierSum_bounded (i := 0) (m := 0) (show points.length - 1 ≤ 7 by omega)
    (show j ≤ points.length - 1 by omega) hpoints zero_wide (by simp) (by omega)
  obtain ⟨z, hz, -⟩ := (convert_rounds (G := binary32) hT).near
    (Quantum.covers_single (m := 40) (by decide) (by decide)) (lt_of_le_of_lt hle (by norm_num))
  exact hz.isFinite

theorem bezierCoeff_start (hlen : xs.length ≤ 7) (hx : x.Represents q) :
    (bezierCoeff (x :: xs) 0 : Single).Represents q := by
  have hstop : ∀ sum : Double, bezierSum xs.length 0 sum 1 xs = sum := by
    intro sum
    cases xs <;> rfl
  have hweight := bezierWeight_represents hlen (Nat.zero_le xs.length) (le_refl 0)
  rw [Nat.choose_zero_right, Nat.choose_self, Nat.mul_one, Nat.cast_one] at hweight
  have hproduct := mul_rounds hweight hx.widen
  rw [one_mul] at hproduct
  have hsum := add_rounds zero_wide (hproduct.exact hx.widen.exact)
  rw [zero_add] at hsum
  unfold bezierCoeff
  rw [List.length_cons, Nat.add_sub_cancel, bezierSum, if_neg (Nat.lt_irrefl 0)]
  simp only
  rw [if_neg (by decide), hstop]
  exact (convert_rounds (hsum.exact hx.widen.exact)).exact hx.exact

/-! ## Where curves begin -/

theorem axisCurve_of_three_le (h : 3 ≤ points.length) :
    (Path.axisCurve points : Except Fault (Poly Single)) = bezier 1 points := by
  match points with
  | _ :: _ :: _ :: _ => rfl

theorem constant_begins (hx : x.Represents q) : (constant x).BeginsAt q :=
  ⟨x, [], rfl, hx, by simp⟩

theorem linear_begins (hx : x.Represents q) (hy : y.Represents r) (hq : |q| ≤ 2 ^ 23)
    (hr : |r| ≤ 2 ^ 23) : (linear 1 x y).BeginsAt q := by
  obtain ⟨d, hd, -⟩ := (sub_rounds hy hx).near
    (Quantum.covers_single (m := 25) (by decide) (by decide))
    (lt_of_le_of_lt (abs_sub r q) (by norm_num; linarith))
  obtain ⟨c, hc⟩ := exists_div hd Quantum.one_represents le_rfl
  refine ⟨x, [(y - x) / 1], ?_, hx, by simpa using hc.isFinite⟩
  unfold linear
  rw [if_neg (by decide)]
  rfl

theorem bezier_begins (hlen : xs.length ≤ 7) (hx : x.Represents q)
    (hpoints : ∀ y ∈ x :: xs, ∃ r, y.Represents r ∧ |r| ≤ 2 ^ 23)
    (hp : bezier 1 (x :: xs) = .ok p) : p.BeginsAt q := by
  unfold bezier at hp
  rw [List.length_cons, if_neg (by unfold polySlots; omega), if_neg (by decide)] at hp
  simp only at hp
  rw [if_pos (by decide)] at hp
  obtain rfl := Except.ok.inj hp
  refine ⟨bezierCoeff (x :: xs) 0, (List.range xs.length).map fun j => bezierCoeff (x :: xs) (j + 1),
    ?_, bezierCoeff_start hlen hx, ?_⟩
  · rw [coeffs_writeSlots_range zero (Nat.succ_le_succ hlen), List.range_succ_eq_map]
    simp
  · intro c hc
    obtain ⟨j, hj, rfl⟩ := List.mem_map.mp hc
    have hindex := List.mem_range.mp hj
    exact bezierCoeff_isFinite (by rw [List.length_cons]; unfold polySlots; omega)
      (by rw [List.length_cons]; omega) hpoints

/-- The curve of an axis has finite coefficients, and begins at its first control point. -/
theorem axisCurve_begins (hlen : xs.length ≤ 7) (hx : x.Represents q)
    (hpoints : ∀ y ∈ x :: xs, ∃ r, y.Represents r ∧ |r| ≤ 2 ^ 23)
    (hp : Path.axisCurve (x :: xs) = .ok p) : p.BeginsAt q := by
  match xs, hp with
  | [], hp =>
    obtain rfl : constant x = p := Except.ok.inj hp
    exact constant_begins hx
  | [y], hp =>
    obtain rfl : linear 1 x y = p := Except.ok.inj hp
    obtain ⟨⟨q', hx', hq⟩, hrest⟩ := List.forall_mem_cons.mp hpoints
    obtain ⟨r, hy, hr⟩ := hrest y List.mem_cons_self
    rw [← hx.unique hx'] at hq
    exact linear_begins hx hy hq hr
  | y :: z :: rest, hp =>
    rw [axisCurve_of_three_le (by simp)] at hp
    exact bezier_begins hlen hx hpoints hp

/-! ## Horner's scheme at one -/

/-- At one, the scheme adds up whole coefficients from the last one on. -/
theorem horner_one (h : List.Forall₂ (fun x (c : ℤ) => x.Represents c) xs cs)
    (hsum : ∀ rest, rest <:+ cs → |rest.sum| ≤ 2 ^ 24) : (horner xs 1).Represents (cs.sum : ℤ) := by
  induction h with
  | nil => exact zero_represents
  | @cons x c xs cs hx _ ih =>
    have hrest := ih fun rest hr => hsum rest (hr.trans (List.suffix_cons c cs))
    have htail := hsum cs (List.suffix_cons c cs)
    have hwhole := hsum (c :: cs) List.suffix_rfl
    have hproduct := hrest.whole_mul one_represents (by rw [mul_one]; exact single_whole htail)
    rw [mul_one] at hproduct
    rw [List.sum_cons, add_comm] at hwhole ⊢
    exact hproduct.whole_add hx (single_whole hwhole)

theorem Whole.eval_one (h : p.Whole cs) (hsum : ∀ rest, rest <:+ cs → |rest.sum| ≤ 2 ^ 24) :
    (p.eval 1).Represents (cs.sum : ℤ) := horner_one h.coeffs hsum

/-! ## Where curves end -/

/-- Control points whose curve is computed without rounding at its end: up to two of the
greatest size that is stored at any scale, or four of the greatest size up to a scale
of 42. Of four, the third coefficient is at most twelve times as large, and `2 ^ 24` is
not reached. -/
def EndsExactly (k : ℤ) (ks : List ℤ) : Prop :=
  (ks.length ≤ 1 ∧ ∀ k' ∈ k :: ks, |k'| ≤ 32768 * 127) ∨
    (ks.length = 3 ∧ ∀ k' ∈ k :: ks, |k'| ≤ 32768 * 42)

theorem constant_eval_one (hx : x.Represents k) (hk : |k| ≤ 2 ^ 24) :
    ((constant x).eval 1).Represents k := by
  have hend := (constant_whole hx).eval_one (by
    simp only [List.suffix_cons_iff, List.suffix_nil, forall_eq_or_imp, forall_eq]
    simpa using hk)
  simpa using hend

theorem linear_eval_one {l : ℤ} (hx : x.Represents k) (hy : y.Represents l)
    (hk : |k| ≤ 32768 * 127) (hl : |l| ≤ 32768 * 127) :
    ((linear 1 x y).eval 1).Represents l := by
  have hdiff := abs_sub l k
  have hend := (linear_whole hx hy (by omega)).eval_one (by
    simp only [List.suffix_cons_iff, List.suffix_nil, forall_eq_or_imp, forall_eq]
    simp
    omega)
  simpa using hend

theorem cubic_eval_one {b c d : ℤ}
    (hpoints : List.Forall₂ (fun x (k : ℤ) => x.Represents k) points [k, b, c, d])
    (hsize : ∀ k' ∈ [k, b, c, d], |k'| ≤ 32768 * 42) (hp : bezier 1 points = .ok p) :
    (p.eval 1).Represents d := by
  have hbounds := hsize
  simp only [List.forall_mem_cons, List.not_mem_nil, false_imp_iff, implies_true, and_true,
    abs_le] at hbounds
  have hcoeffs : ∀ c' ∈ wholeCoeffs [k, b, c, d], |c'| ≤ 2 ^ 24 := by
    rw [wholeCoeffs_four]
    simp [abs_le, -abs_mul]
    omega
  have hsums : ∀ rest, rest <:+ wholeCoeffs [k, b, c, d] → |rest.sum| ≤ 2 ^ 24 := by
    rw [wholeCoeffs_four]
    simp only [List.suffix_cons_iff, List.suffix_nil, forall_eq_or_imp, forall_eq]
    simp [abs_le]
    omega
  obtain ⟨p', hp', hwhole⟩ := bezier_whole (by simp) (by simp [polySlots]) hpoints
    (fun k' hm => (hsize k' hm).trans (by decide)) hcoeffs
  rw [hp'] at hp
  obtain rfl := Except.ok.inj hp
  have hend := hwhole.eval_one hsums
  have hsum : (wholeCoeffs [k, b, c, d]).sum = d := by
    rw [wholeCoeffs_four]
    simp only [List.sum_cons, List.sum_nil]
    ring
  rwa [hsum] at hend

/-- The curve of such control points ends at the last of them. -/
theorem axisCurve_ends (hpoints : List.Forall₂ (fun x (k : ℤ) => x.Represents k) points (k :: ks))
    (hcase : EndsExactly k ks) (hp : Path.axisCurve points = .ok p) :
    (p.eval 1).Represents (ks.getLastD k : ℤ) := by
  rcases hcase with ⟨hlen, hsize⟩ | ⟨hlen, hsize⟩
  · match ks, hlen with
    | [], _ =>
      obtain ⟨x, xs, hx, hnil, rfl⟩ := List.forall₂_cons_right_iff.mp hpoints
      obtain rfl := List.forall₂_nil_right_iff.mp hnil
      obtain rfl : constant x = p := Except.ok.inj hp
      exact constant_eval_one hx ((hsize k List.mem_cons_self).trans (by decide))
    | [l], _ =>
      obtain ⟨x, xs, hx, hrest, rfl⟩ := List.forall₂_cons_right_iff.mp hpoints
      obtain ⟨y, ys, hy, hnil, rfl⟩ := List.forall₂_cons_right_iff.mp hrest
      obtain rfl := List.forall₂_nil_right_iff.mp hnil
      obtain rfl : linear 1 x y = p := Except.ok.inj hp
      exact linear_eval_one hx hy (hsize k List.mem_cons_self) (hsize l (by simp))
  · match ks, hlen with
    | [b, c, d], _ =>
      have hlength := hpoints.length_eq
      rw [axisCurve_of_three_le (by rw [hlength]; simp)] at hp
      exact cubic_eval_one hpoints hsize hp

end Poly

end DroneShow
