-- The power form of a curve with whole control points. The sums that the conversion
-- takes are exact, so that the coefficients are the whole numbers that the Bernstein form
-- expands to, as long as these are numbers of the smaller format.
import Mathlib.Data.Nat.Choose.Basic
import Mathlib.Data.Real.Basic
import DroneShow.Curve.Poly
import DroneShow.Proofs.Binary.Whole
import DroneShow.Proofs.Curve.Subdivision
import DroneShow.Proofs.Record.Quantum

namespace DroneShow.Poly

open Binary

variable {n j i : Nat} {k S : ℤ} {ks : List ℤ} {points : List Single} {sum : Double}

/-! ## Weights -/

theorem factorial_eq (n : Nat) : factorial n = n.factorial := by
  induction n with
  | zero => rfl
  | succ n ih => rw [factorial, ih, Nat.factorial_succ]

/-- The ways to pick `j` of `n` and `i` of these. -/
theorem picks_mul_factorials (hj : j ≤ n) (hi : i ≤ j) :
    n.choose j * j.choose i * ((n - j).factorial * i.factorial * (j - i).factorial) =
      n.factorial := by
  rw [← Nat.choose_mul_factorial_mul_factorial hj, ← Nat.choose_mul_factorial_mul_factorial hi]
  ring

theorem picks_le (hj : j ≤ n) (hi : i ≤ j) : n.choose j * j.choose i ≤ n.factorial := by
  rw [← picks_mul_factorials hj hi]
  exact Nat.le_mul_of_pos_right _ (by positivity)

theorem factorials_le (hj : j ≤ n) (hi : i ≤ j) :
    (n - j).factorial * i.factorial * (j - i).factorial ≤ n.factorial := by
  rw [← picks_mul_factorials hj hi]
  exact Nat.le_mul_of_pos_left _ (Nat.mul_pos (Nat.choose_pos hj) (Nat.choose_pos hi))

theorem exact_nat {k : Nat} (h : k ≤ 5040) : binary64.Exact (k : ℚ) := by
  have hk := exact_whole (k := k) (by rw [Nat.abs_cast]; omega)
  rwa [Int.cast_natCast] at hk

theorem zero_wide : (0 : Double).Represents 0 := by
  have hnat := ofNat_represents (exact_nat (k := 0) (by decide))
  exact_mod_cast hnat

theorem bezierWeight_represents (hn : n ≤ 7) (hj : j ≤ n) (hi : i ≤ j) :
    (bezierWeight n j i : Double).Represents (n.choose j * j.choose i : ℕ) := by
  have hfactorial : ∀ {m}, m ≤ 7 → (Scalar.ofNat (factorial m) : Double).Represents m.factorial :=
    fun {m} hm => by
      rw [factorial_eq]
      exact ofNat_represents (exact_nat (Nat.factorial_le hm))
  have hden := (factorials_le hj hi).trans (Nat.factorial_le hn)
  have hfront : (n - j).factorial * i.factorial ≤ 5040 :=
    (Nat.le_mul_of_pos_right _ (j - i).factorial_pos).trans hden
  have hproduct := (mul_rounds (hfactorial (m := n - j) (by omega))
    (hfactorial (m := i) (by omega))).exact (by exact_mod_cast exact_nat hfront)
  have hwhole := (mul_rounds hproduct (hfactorial (m := j - i) (by omega))).exact
    (by exact_mod_cast exact_nat hden)
  have hne : ((n - j).factorial : ℚ) * i.factorial * (j - i).factorial ≠ 0 := by positivity
  have hweight := div_rounds (hfactorial hn) hwhole hne
  rw [← picks_mul_factorials hj hi] at hweight
  push_cast at hweight
  rw [mul_div_cancel_right₀ _ hne] at hweight
  exact_mod_cast hweight.exact (by exact_mod_cast exact_nat ((picks_le hj hi).trans (Nat.factorial_le hn)))

/-! ## Coefficients -/

/-- What the control points from index `i` on add to coefficient `j` of a curve of degree `n`. -/
def wholeSum (n j : Nat) : Nat → List ℤ → ℤ
  | _, [] => 0
  | i, k :: rest =>
    if j < i then 0
    else (if (i + j) % 2 = 1 then -1 else 1) * ((n.choose j * j.choose i : ℕ) * k) +
      wholeSum n j (i + 1) rest

theorem ofInt_whole (hk : |k| ≤ 2 ^ 15) : (ofInt k : Single).Represents k := by
  rw [Int.abs_eq_natAbs] at hk
  exact ofInt_represents (Quantum.exact_int (by omega))

/-- The sums stay far below the size from which whole numbers are rounded. -/
theorem bezierSum_represents (hn : n ≤ 7) (hj : j ≤ n)
    (hpoints : List.Forall₂ (fun x (k : ℤ) => x.Represents k) points ks)
    (hk : ∀ k ∈ ks, |k| ≤ 2 ^ 24) (hsum : sum.Represents S)
    (hS : |S| + ks.length * 2 ^ 37 ≤ 2 ^ 53) :
    (bezierSum n j sum i points).Represents ((S + wholeSum n j i ks : ℤ) : ℚ) := by
  induction hpoints generalizing i S sum with
  | nil => simpa [bezierSum, wholeSum] using hsum
  | @cons x k xs rest hx _ ih =>
    rw [bezierSum, wholeSum]
    by_cases hji : j < i
    · rw [if_pos hji, if_pos hji, add_zero]
      exact hsum
    · rw [if_neg hji, if_neg hji]
      have hi : i ≤ j := Nat.not_lt.mp hji
      obtain ⟨hk0, hrest⟩ := List.forall_mem_cons.mp hk
      have hterm : |((n.choose j * j.choose i : ℕ) * k : ℤ)| ≤ 2 ^ 37 := by
        have hw : ((n.choose j * j.choose i : ℕ) : ℤ) ≤ 5040 := by
          exact_mod_cast (picks_le hj hi).trans (Nat.factorial_le hn)
        rw [abs_mul, Nat.abs_cast]
        nlinarith [abs_nonneg k]
      have hweight : (bezierWeight n j i : Double).Represents
          (((n.choose j * j.choose i : ℕ) : ℤ) : ℚ) := by
        rw [Int.cast_natCast]
        exact bezierWeight_represents hn hj hi
      have hproduct := hweight.whole_mul hx.widen (exact_whole (hterm.trans (by decide)))
      generalize ((n.choose j * j.choose i : ℕ) * k : ℤ) = term at hterm hproduct ⊢
      rw [List.length_cons] at hS
      push_cast at hS
      have hnonneg : 0 ≤ (rest.length : ℤ) * 2 ^ 37 := by positivity
      have hplus := abs_add_le S term
      have hminus := abs_sub S term
      by_cases hodd : (i + j) % 2 = 1
      · have hnext := hsum.whole_sub hproduct (exact_whole (by omega))
        rw [if_pos hodd, neg_one_mul, ← add_assoc, ← sub_eq_add_neg]
        simp only [if_pos hodd]
        exact ih hrest hnext (by omega)
      · have hnext := hsum.whole_add hproduct (exact_whole (by omega))
        rw [if_neg hodd, one_mul, ← add_assoc]
        simp only [if_neg hodd]
        exact ih hrest hnext (by omega)

/-- The coefficients of the curve of whole control points, in increasing order of degree. -/
def wholeCoeffs (ks : List ℤ) : List ℤ :=
  (List.range ks.length).map fun j => wholeSum (ks.length - 1) j 0 ks

@[simp] theorem length_wholeCoeffs (ks : List ℤ) : (wholeCoeffs ks).length = ks.length := by
  simp [wholeCoeffs]

theorem wholeCoeffs_one (a : ℤ) : wholeCoeffs [a] = [a] := by
  simp [wholeCoeffs, wholeSum, List.range, List.range.loop]

theorem wholeCoeffs_two (a b : ℤ) : wholeCoeffs [a, b] = [a, b - a] := by
  simp [wholeCoeffs, wholeSum, List.range, List.range.loop]
  ring

theorem wholeCoeffs_three (a b c : ℤ) :
    wholeCoeffs [a, b, c] = [a, 2 * (b - a), a - 2 * b + c] := by
  simp [wholeCoeffs, wholeSum, List.range, List.range.loop, Nat.choose]
  constructor <;> ring

theorem wholeCoeffs_four (a b c d : ℤ) :
    wholeCoeffs [a, b, c, d] = [a, 3 * (b - a), 3 * (a - 2 * b + c), d - 3 * c + 3 * b - a] := by
  simp [wholeCoeffs, wholeSum, List.range, List.range.loop, Nat.choose]
  refine ⟨?_, ?_, ?_⟩ <;> ring

theorem abs_wholeSum_le (hn : n ≤ 3) (hj : j ≤ n) (hk : ∀ k ∈ ks, |k| ≤ 2 ^ 15) :
    |wholeSum n j i ks| ≤ ks.length * 2 ^ 18 := by
  induction ks generalizing i with
  | nil => simp [wholeSum]
  | cons k rest ih =>
    obtain ⟨hk0, hrest⟩ := List.forall_mem_cons.mp hk
    have hnext := ih (i := i + 1) hrest
    rw [wholeSum, List.length_cons, Nat.cast_succ]
    by_cases hji : j < i
    · rw [if_pos hji, abs_zero]
      positivity
    · have hw : ((n.choose j * j.choose i : ℕ) : ℤ) ≤ 6 := by
        exact_mod_cast (picks_le hj (Nat.not_lt.mp hji)).trans (Nat.factorial_le hn)
      have hterm : |((n.choose j * j.choose i : ℕ) * k : ℤ)| ≤ 2 ^ 18 := by
        rw [abs_mul, Nat.abs_cast]
        nlinarith [abs_nonneg k]
      have hsign : |(if (i + j) % 2 = 1 then -1 else 1 : ℤ)| = 1 := by split <;> rfl
      rw [if_neg hji]
      refine (abs_add_le _ _).trans ?_
      rw [abs_mul, hsign, one_mul]
      linarith

theorem length_coeffs {α : Type} {p : Poly α} (h : p.count ≤ polySlots) :
    p.coeffs.length = p.count := by
  rw [coeffs, List.length_take, Vector.length_toList, min_eq_left h]

@[simp] theorem length_weighted {α : Type} [Scalar α] (i : Nat) (values : List α) :
    (weighted i values).length = values.length := by
  induction values generalizing i with
  | nil => rfl
  | cons a rest ih => rw [weighted, List.length_cons, ih, List.length_cons]

@[simp] theorem length_stretched {α β : Type} [Scalar β] [Widening α β] (ratio power : β)
    (values : List α) : (stretched ratio power values).length = values.length := by
  induction values generalizing power with
  | nil => rfl
  | cons a rest ih => rw [stretched, List.length_cons, ih, List.length_cons]

theorem getElem_writeSlots {α : Type} (p : Poly α) (values : List α) {i : Nat}
    (hi : i < polySlots) : (p.writeSlots values)[i] = values.getD i p.slots[i] := by
  simp [writeSlots]

theorem coeffs_writeSlots {α : Type} (p : Poly α) {values : List α} {count : Nat}
    (hcount : count ≤ values.length) (h : values.length ≤ polySlots) :
    (⟨p.writeSlots values, count⟩ : Poly α).coeffs = values.take count := by
  unfold coeffs writeSlots
  apply List.ext_getElem
  · simp
    omega
  · intro k hk hk'
    have hlt : k < values.length := by
      rw [List.length_take] at hk'
      omega
    simp [List.getD_eq_getElem?_getD, hlt]

theorem coeffs_writeSlots_range {α : Type} (p : Poly α) {count : Nat} (h : count ≤ polySlots)
    (f : Nat → α) : (⟨p.writeSlots ((List.range count).map f), count⟩ : Poly α).coeffs =
      (List.range count).map f := by
  rw [coeffs_writeSlots p (by simp) (by simpa using h), List.take_of_length_le (by simp)]

theorem coeffs_derivative {α : Type} [Scalar α] {p : Poly α} (h : p.count ≤ polySlots)
    (hcount : 1 < p.count) : p.derivative.coeffs = weighted 1 p.coeffs.tail := by
  have hlen : (weighted 1 p.coeffs.tail).length = p.count - 1 := by
    rw [length_weighted, List.length_tail, length_coeffs h]
  unfold derivative
  rw [if_neg (Nat.not_le.mpr hcount), List.drop_one,
    coeffs_writeSlots p (by simp [hlen]) (by simp [hlen]; omega), List.take_left' hlen]

theorem coeffs_derivative_constant {α : Type} [Scalar α] {p : Poly α} (hcount : p.count ≤ 1) :
    p.derivative.coeffs = [0] := by
  obtain ⟨c, cs, hcs⟩ := List.exists_cons_of_length_eq_add_one p.slots.length_toList
  unfold derivative
  rw [if_pos hcount, coeffs, Vector.toList_set, hcs]
  rfl

theorem coeffs_stretch {α β : Type} [Scalar β] [Widening α β] {p : Poly α}
    (h : p.count ≤ polySlots) (factor : α) :
    (p.stretch factor).coeffs = stretched (1 / Widening.widen factor) 1 p.coeffs := by
  have hlen := length_coeffs h
  unfold stretch
  rw [coeffs_writeSlots p (by simp [hlen]) (by simp [hlen, h]),
    List.take_of_length_le (by simp [hlen])]

/-- Whole control points have exact coefficients where these are not too large. -/
theorem bezierCoeff_represents (hlen : ks.length ≤ polySlots) (hj : j < ks.length)
    (hpoints : List.Forall₂ (fun x (k : ℤ) => x.Represents k) points ks)
    (hk : ∀ k ∈ ks, |k| ≤ 2 ^ 24) (hfits : |wholeSum (ks.length - 1) j 0 ks| ≤ 2 ^ 24) :
    (bezierCoeff points j : Single).Represents (wholeSum (ks.length - 1) j 0 ks) := by
  unfold polySlots at hlen
  have hzero : (0 : Double).Represents ((0 : ℤ) : ℚ) := by exact_mod_cast zero_wide
  have hcount : (ks.length : ℤ) ≤ 8 := by exact_mod_cast hlen
  have hsum := bezierSum_represents (n := ks.length - 1) (j := j) (i := 0) (by omega) (by omega)
    hpoints hk hzero (by rw [abs_zero]; omega)
  rw [zero_add] at hsum
  unfold bezierCoeff
  rw [hpoints.length_eq]
  refine (convert_rounds hsum).exact (Quantum.exact_int ?_)
  rw [Int.abs_eq_natAbs] at hfits
  omega

/-- The slots in use stand for whole coefficients. -/
structure Whole (p : Poly Single) (cs : List ℤ) : Prop where
  count : p.count ≤ polySlots
  coeffs : List.Forall₂ (fun x (c : ℤ) => x.Represents c) p.coeffs cs

theorem bezier_whole (hpos : ks ≠ []) (hlen : ks.length ≤ polySlots)
    (hpoints : List.Forall₂ (fun x (k : ℤ) => x.Represents k) points ks)
    (hk : ∀ k ∈ ks, |k| ≤ 2 ^ 24) (hfits : ∀ c ∈ wholeCoeffs ks, |c| ≤ 2 ^ 24) :
    ∃ p : Poly Single, bezier 1 points = .ok p ∧ p.Whole (wholeCoeffs ks) := by
  have hcount : 0 < ks.length := List.length_pos_iff.mpr hpos
  have hsame := hpoints.length_eq
  unfold bezier
  rw [if_neg (by omega), if_neg (by decide)]
  simp only
  rw [if_pos (by decide)]
  refine ⟨_, rfl, hsame ▸ hlen, ?_⟩
  rw [coeffs_writeSlots_range zero (hsame ▸ hlen), hsame]
  unfold wholeCoeffs at hfits ⊢
  rw [List.forall₂_map_left_iff, List.forall₂_map_right_iff, List.forall₂_same]
  intro j hj
  exact bezierCoeff_represents hlen (List.mem_range.mp hj) hpoints hk
    (hfits _ (List.mem_map_of_mem hj))

/-- At most four control points of stored size have such a curve. -/
theorem bezier_ofInt_whole (hpos : ks ≠ []) (hlen : ks.length ≤ 4) (hk : ∀ k ∈ ks, |k| ≤ 2 ^ 15) :
    ∃ p : Poly Single, bezier 1 (ks.map ofInt) = .ok p ∧ p.Whole (wholeCoeffs ks) := by
  refine bezier_whole hpos (hlen.trans (by decide)) ?_
    (fun k hm => (hk k hm).trans (by decide)) fun c hc => ?_
  · rw [List.forall₂_map_left_iff, List.forall₂_same]
    exact fun k hm => ofInt_whole (hk k hm)
  · obtain ⟨j, hj, rfl⟩ := List.mem_map.mp hc
    have hindex := List.mem_range.mp hj
    have hcount : (ks.length : ℤ) ≤ 4 := by exact_mod_cast hlen
    have hsize := abs_wholeSum_le (n := ks.length - 1) (j := j) (i := 0) (by omega) (by omega) hk
    omega

/-! ## Values -/

/-- The value of a polynomial with whole coefficients. -/
noncomputable def wholeValue (cs : List ℤ) (t : ℝ) : ℝ := cs.foldr (fun c acc => acc * t + c) 0

@[simp] theorem wholeValue_nil (t : ℝ) : wholeValue [] t = 0 := rfl

@[simp] theorem wholeValue_cons (c : ℤ) (cs : List ℤ) (t : ℝ) :
    wholeValue (c :: cs) t = wholeValue cs t * t + c := rfl

theorem curve_eq_power (hpos : ks ≠ []) (hlen : ks.length ≤ 4) (t : ℝ) :
    Bezier.curve (ks.map Int.cast) t = wholeValue (wholeCoeffs ks) t := by
  match ks, hpos, hlen with
  | [a], _, _ => simp [wholeCoeffs_one]
  | [a, b], _, _ =>
    rw [wholeCoeffs_two]
    simp [Bezier.curve, Finset.Nat.antidiagonal_succ]
    ring
  | [a, b, c], _, _ =>
    rw [wholeCoeffs_three]
    simp [Bezier.curve, Finset.Nat.antidiagonal_succ, Nat.choose]
    ring
  | [a, b, c, d], _, _ =>
    rw [wholeCoeffs_four]
    simp [Bezier.curve, Finset.Nat.antidiagonal_succ, Nat.choose]
    ring

theorem curve_eq_wholeValue (h : ks.length = 3 ∨ ks.length = 4) (t : ℝ) :
    Bezier.curve (ks.map Int.cast) t = wholeValue (wholeCoeffs ks) t :=
  curve_eq_power (List.ne_nil_of_length_pos (by omega)) (by omega) t

/-- Bounds on the coefficients of a polynomial of at most the third degree, and on the
control points of its slope: the first of them is the second coefficient. -/
structure Moderate (cs : List ℤ) : Prop where
  count : cs.length ≤ 4
  start : |cs.getD 0 0| ≤ 32767
  first : |cs.getD 1 0| ≤ 196602
  middle : |cs.getD 1 0 + cs.getD 2 0| ≤ 196602
  second : |cs.getD 2 0| ≤ 393204
  third : |cs.getD 3 0| ≤ 262136
  last : |cs.getD 1 0 + 2 * cs.getD 2 0 + 3 * cs.getD 3 0| ≤ 196602

theorem moderate_wholeCoeffs (h : ks.length = 3 ∨ ks.length = 4) (hk : ∀ k ∈ ks, |k| ≤ 32767) :
    Moderate (wholeCoeffs ks) := by
  match ks, h with
  | [a, b, c], _ =>
    simp only [List.forall_mem_cons, List.not_mem_nil, false_imp_iff, implies_true, and_true,
      abs_le] at hk
    rw [wholeCoeffs_three]
    constructor <;> simp [abs_le, -abs_mul] <;> omega
  | [a, b, c, d], _ =>
    simp only [List.forall_mem_cons, List.not_mem_nil, false_imp_iff, implies_true, and_true,
      abs_le] at hk
    rw [wholeCoeffs_four]
    constructor <;> simp [abs_le, -abs_mul] <;> omega

end DroneShow.Poly
