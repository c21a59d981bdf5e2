-- Curves in exact arithmetic. Read over the real numbers, the formulas lose nothing: the
-- polynomial of whole control points is exactly their power form, and so is its slope.
import Mathlib.Analysis.Calculus.Deriv.Mul
import Mathlib.Analysis.SpecialFunctions.Pow.Complex
import Mathlib.Analysis.SpecialFunctions.Pow.Real
import Mathlib.Topology.Algebra.Module.ModuleTopology
import DroneShow.Curve.Path
import DroneShow.Proofs.Curve.Value

namespace DroneShow

/-! ## The real numbers -/

/-- One with the sign of a number. The sign of a zero is not told by its value. -/
noncomputable def exactSignum (negativeZero : Bool) (x : ℝ) : ℝ :=
  if x < 0 ∨ x = 0 ∧ negativeZero = true then -1 else 1

theorem exactSignum_spec (negativeZero : Bool) (x : ℝ) :
    exactSignum negativeZero x ^ 2 = 1 ∧ exactSignum negativeZero x * x = |x| := by
  unfold exactSignum
  split
  · rename_i h
    refine ⟨by norm_num, ?_⟩
    rw [abs_of_nonpos (h.elim le_of_lt fun hzero => hzero.1.le)]
    ring
  · rename_i h
    refine ⟨by norm_num, ?_⟩
    rw [abs_of_nonneg (not_lt.mp fun hneg => h (.inl hneg)), one_mul]

/-- The real numbers with their roots, where zeros have the sign that is given. -/
@[reducible] noncomputable def RootScalar.exact (negativeZero : Bool) : RootScalar ℝ where
  __ := Scalar.exact ℝ
  sqrt := Real.sqrt
  cbrt x := if x < 0 then -(-x) ^ (1 / (3 : ℕ) : ℝ) else x ^ (1 / (3 : ℕ) : ℝ)
  complexCbrt re im :=
    let root : ℂ := (⟨re, im⟩ : ℂ) ^ (1 / (3 : ℕ) : ℂ)
    (root.re, root.im)
  thirdTurn := (-1 / (2 : ℕ), √(3 : ℕ) / (2 : ℕ))
  signum := exactSignum negativeZero
  precedes x y := decide (x ≤ y)
  leastNormal := 1 / (2 : ℕ) ^ 1022

/-- Exact numbers need no wider system. -/
@[reducible] def Widening.exact (α : Type) : Widening α α := ⟨id, id⟩

theorem Scalar.exact_zero : @OfNat.ofNat ℝ 0 (@Scalar.numeral ℝ (Scalar.exact ℝ) 0) = 0 :=
  Nat.cast_zero

theorem Scalar.exact_one : @OfNat.ofNat ℝ 1 (@Scalar.numeral ℝ (Scalar.exact ℝ) 1) = 1 :=
  Nat.cast_one

theorem Scalar.exact_positive :
    ¬ (1 : ℝ) ≤ @OfNat.ofNat ℝ 0 (@Scalar.numeral ℝ (Scalar.exact ℝ) 0) := by
  rw [Scalar.exact_zero]
  norm_num

namespace Poly

variable {p : Poly ℝ} {c : ℤ} {cs ks : List ℤ} {n i j : Nat} {t : ℝ}

/-- The value of a polynomial. -/
noncomputable def exactEval (p : Poly ℝ) (t : ℝ) : ℝ := @eval ℝ (Scalar.exact ℝ) p t

noncomputable def exactSignificant (p : Poly ℝ) : List ℝ := @significant ℝ (Scalar.exact ℝ) p

noncomputable def exactDerivative (p : Poly ℝ) : Poly ℝ := @derivative ℝ (Scalar.exact ℝ) p

/-- The power form of a curve over the unit interval. -/
noncomputable def exactBezier (points : List ℝ) : Except Fault (Poly ℝ) :=
  @bezier ℝ ℝ (Scalar.exact ℝ) (Scalar.exact ℝ) (Widening.exact ℝ) 1 points

/-- The magnitude up to which a number counts as zero. -/
noncomputable def exactNegligible : ℝ := @negligible ℝ (Scalar.exact ℝ)

theorem exactNegligible_eq : exactNegligible = 1 / 10 ^ 5 := by
  show ((1 : ℕ) : ℝ) / 10 ^ 5 = 1 / 10 ^ 5
  rw [Nat.cast_one]

theorem exactNegligible_pos : 0 < exactNegligible := by
  rw [exactNegligible_eq]
  positivity

theorem abs_le_exactNegligible_iff : |(c : ℝ)| ≤ exactNegligible ↔ c = 0 := by
  rw [exactNegligible_eq]
  constructor
  · intro hle
    by_contra hc
    have hone : (1 : ℝ) ≤ |(c : ℝ)| := by exact_mod_cast Int.one_le_abs hc
    norm_num at hle
    linarith
  · intro hc
    rw [hc]
    norm_num

/-! ## The slope -/

/-- The coefficients of the slope of those from degree `i` on. -/
def wholeWeighted (i : ℤ) : List ℤ → List ℤ
  | [] => []
  | c :: rest => i * c :: wholeWeighted (i + 1) rest

/-- The coefficients of the slope. -/
def wholeSlope (cs : List ℤ) : List ℤ := wholeWeighted 1 cs.tail

@[simp] theorem length_wholeWeighted (i : ℤ) (cs : List ℤ) :
    (wholeWeighted i cs).length = cs.length := by
  induction cs generalizing i with
  | nil => rfl
  | cons c cs ih => simp [wholeWeighted, ih]

theorem wholeValue_weighted_succ (i : ℤ) (cs : List ℤ) (t : ℝ) :
    wholeValue (wholeWeighted (i + 1) cs) t =
      wholeValue (wholeWeighted i cs) t + wholeValue cs t := by
  induction cs generalizing i with
  | nil => simp [wholeWeighted]
  | cons c cs ih =>
    simp only [wholeWeighted, wholeValue_cons, ih]
    push_cast
    ring

/-- The value changes at the rate of the slope, by induction on the coefficients. -/
theorem hasDerivAt_wholeValue (cs : List ℤ) (t : ℝ) :
    HasDerivAt (wholeValue cs) (wholeValue (wholeSlope cs) t) t := by
  induction cs with
  | nil => exact hasDerivAt_const t 0
  | cons c cs ih =>
    have hvalue : wholeValue (c :: cs) = fun x => wholeValue cs x * x + c := by
      funext x
      rfl
    have hslope : wholeValue (wholeSlope (c :: cs)) t =
        wholeValue (wholeSlope cs) t * t + wholeValue cs t * 1 := by
      cases cs with
      | nil => simp [wholeSlope, wholeWeighted]
      | cons d cs =>
        simp only [wholeSlope, List.tail_cons, wholeWeighted, wholeValue_cons]
        rw [wholeValue_weighted_succ]
        push_cast
        ring
    rw [hvalue, hslope]
    exact (ih.mul (hasDerivAt_id t)).add_const _

theorem wholeWeighted_concat (i : ℤ) (cs : List ℤ) (c : ℤ) :
    wholeWeighted i (cs ++ [c]) = wholeWeighted i cs ++ [(i + cs.length) * c] := by
  induction cs generalizing i with
  | nil => simp [wholeWeighted]
  | cons d cs ih =>
    simp only [List.cons_append, wholeWeighted, ih, List.length_cons]
    push_cast
    rw [add_right_comm i, add_assoc i]

/-- A weight is zero only where the coefficient is. -/
theorem trimmed_wholeWeighted (hi : 0 < i) (cs : List ℤ) :
    trimmed (wholeWeighted i cs) = wholeWeighted i (trimmed cs) := by
  induction cs using List.reverseRecOn with
  | nil => rfl
  | append_singleton l c ih =>
    have hweight : (i : ℤ) + l.length ≠ 0 := by omega
    rw [wholeWeighted_concat, trimmed_concat, trimmed_concat]
    by_cases hc : c = 0
    · rw [if_pos hc, if_pos (by rw [hc, mul_zero]), ih]
    · rw [if_neg hc, if_neg (mul_ne_zero hweight hc), wholeWeighted_concat]

theorem tail_trimmed (cs : List ℤ) : (trimmed cs).tail = trimmed cs.tail := by
  cases cs with
  | nil => rfl
  | cons c cs =>
    induction cs using List.reverseRecOn with
    | nil =>
      show (trimmed ([] ++ [c])).tail = []
      rw [trimmed_concat]
      split <;> rfl
    | append_singleton l d ih =>
      rw [List.tail_cons] at ih ⊢
      rw [← List.cons_append, trimmed_concat, trimmed_concat]
      by_cases hd : d = 0
      · rw [if_pos hd, if_pos hd, ih]
      · rw [if_neg hd, if_neg hd, List.cons_append, List.tail_cons]

/-- The slope is significant as far as the value is. -/
theorem trimmed_wholeSlope (cs : List ℤ) : trimmed (wholeSlope cs) = wholeSlope (trimmed cs) := by
  unfold wholeSlope
  rw [tail_trimmed]
  exact trimmed_wholeWeighted (i := 1) Nat.one_pos cs.tail

/-! ## Exact polynomials -/

/-- The slots in use are these whole numbers. -/
structure Exactly (p : Poly ℝ) (cs : List ℤ) : Prop where
  count : p.count = cs.length
  fits : cs.length ≤ polySlots
  coeffs : p.coeffs = cs.map (↑)

theorem Exactly.eval (h : p.Exactly cs) (t : ℝ) : p.exactEval t = wholeValue cs t := by
  have hfold : ∀ ds : List ℤ, (ds.map ((↑) : ℤ → ℝ)).foldr (fun c acc => acc * t + c)
      (@OfNat.ofNat ℝ 0 (@Scalar.numeral ℝ (Scalar.exact ℝ) 0)) = wholeValue ds t := by
    intro ds
    induction ds with
    | nil => exact Nat.cast_zero
    | cons d ds ih =>
      rw [List.map_cons, List.foldr_cons, ih]
      rfl
  unfold exactEval Poly.eval
  rw [h.coeffs]
  exact hfold cs

theorem Exactly.significant (h : p.Exactly cs) :
    p.exactSignificant = (trimmed cs).map (↑) := by
  unfold exactSignificant Poly.significant trimmed List.rdropWhile
  rw [h.coeffs, ← List.map_reverse, List.dropWhile_map, List.map_reverse]
  congr 3
  funext c
  exact decide_eq_decide.mpr abs_le_exactNegligible_iff

theorem weighted_exact (i : Nat) (cs : List ℤ) :
    @weighted ℝ (Scalar.exact ℝ) i (cs.map (↑)) = (wholeWeighted i cs).map (↑) := by
  induction cs generalizing i with
  | nil => rfl
  | cons c cs ih =>
    have hstep : @weighted ℝ (Scalar.exact ℝ) i ((c :: cs).map (↑)) =
        (i * c : ℝ) :: @weighted ℝ (Scalar.exact ℝ) (i + 1) (cs.map (↑)) := rfl
    rw [hstep, ih, wholeWeighted, List.map_cons]
    push_cast
    rfl

theorem Exactly.derivative (h : p.Exactly cs) (hcs : 2 ≤ cs.length) :
    p.exactDerivative.Exactly (wholeSlope cs) := by
  have hlen : (wholeSlope cs).length = cs.length - 1 := by
    rw [wholeSlope, length_wholeWeighted, List.length_tail]
  have hfits := h.fits
  have hcount : 1 < p.count := by
    rw [h.count]
    exact hcs
  refine ⟨?_, by omega, ?_⟩
  · unfold exactDerivative Poly.derivative
    rw [if_neg (Nat.not_le.mpr hcount), hlen, h.count]
  · have hcoeffs := @coeffs_derivative ℝ (Scalar.exact ℝ) p (h.count ▸ hfits) hcount
    rw [h.coeffs, ← List.map_tail, weighted_exact] at hcoeffs
    exact hcoeffs

/-! ## Exact curves -/

section Conversion

variable {K : Type} [Field K] [LinearOrder K]

/-- Control points behind that of index `j` have no part in coefficient `j`. -/
theorem bezierSum_exact_of_lt (h : j < i) (S : K) (points : List K) :
    @bezierSum K K (Scalar.exact K) (Widening.exact K) n j S i points = S := by
  cases points with
  | nil => rfl
  | cons a rest => exact if_pos h

variable [IsStrictOrderedRing K]

theorem bezierWeight_exact (hj : j ≤ n) (hi : i ≤ j) :
    @bezierWeight K (Scalar.exact K) n j i = (n.choose j * j.choose i : ℕ) := by
  have hquotient : @bezierWeight K (Scalar.exact K) n j i = (factorial n : K) /
      (factorial (n - j) * factorial i * factorial (j - i)) := rfl
  have hne : ((n - j).factorial : K) * i.factorial * (j - i).factorial ≠ 0 := by positivity
  simp only [hquotient, factorial_eq]
  rw [div_eq_iff hne]
  exact_mod_cast (picks_mul_factorials hj hi).symm

/-- Each control point adds its signed weight. -/
theorem bezierSum_exact_cons (hj : j ≤ n) (hi : i ≤ j) (S a : K) (rest : List K) :
    @bezierSum K K (Scalar.exact K) (Widening.exact K) n j S i (a :: rest) =
      @bezierSum K K (Scalar.exact K) (Widening.exact K) n j
        (S + (if (i + j) % 2 = 1 then -1 else 1) * ((n.choose j * j.choose i : ℕ) * a))
        (i + 1) rest := by
  have hstep : @bezierSum K K (Scalar.exact K) (Widening.exact K) n j S i (a :: rest) =
      if j < i then S
      else @bezierSum K K (Scalar.exact K) (Widening.exact K) n j
        (if (i + j) % 2 = 1 then S - @bezierWeight K (Scalar.exact K) n j i * a
          else S + @bezierWeight K (Scalar.exact K) n j i * a) (i + 1) rest := rfl
  rw [hstep, if_neg (Nat.not_lt.mpr hi), bezierWeight_exact hj hi]
  congr 1
  split <;> ring

end Conversion

theorem bezierSum_exact (hj : j ≤ n) (S : ℝ) (ks : List ℤ) :
    @bezierSum ℝ ℝ (Scalar.exact ℝ) (Widening.exact ℝ) n j S i (ks.map (↑)) =
      S + wholeSum n j i ks := by
  induction ks generalizing i S with
  | nil => simp [bezierSum, wholeSum]
  | cons k rest ih =>
    rw [wholeSum]
    by_cases hji : j < i
    · rw [bezierSum_exact_of_lt hji, if_pos hji, Int.cast_zero, add_zero]
    · rw [if_neg hji, List.map_cons, bezierSum_exact_cons hj (Nat.not_lt.mp hji), ih]
      push_cast
      ring

theorem exactBezier_exactly (hpos : ks ≠ []) (hlen : ks.length ≤ polySlots) :
    ∃ p, exactBezier (ks.map (↑)) = .ok p ∧ p.Exactly (wholeCoeffs ks) := by
  have hcount : 0 < ks.length := List.length_pos_iff.mpr hpos
  have hcoeff : ∀ j ∈ List.range ks.length,
      @bezierCoeff ℝ ℝ (Scalar.exact ℝ) (Widening.exact ℝ) (ks.map (↑)) j =
        (wholeSum (ks.length - 1) j 0 ks : ℝ) := by
    intro j hj
    have hle : j ≤ ks.length - 1 := by
      have hlt := List.mem_range.mp hj
      omega
    have hsum := bezierSum_exact (i := 0) hle 0 ks
    rw [zero_add] at hsum
    rw [← hsum, ← Nat.cast_zero]
    unfold bezierCoeff
    rw [List.length_map]
    rfl
  have hunit : (Scalar.exact ℝ).same 1
      (@OfNat.ofNat ℝ 1 (@Scalar.numeral ℝ (Scalar.exact ℝ) 1)) = true :=
    decide_eq_true Scalar.exact_one.symm
  unfold exactBezier bezier
  rw [List.length_map, if_neg (by omega), if_neg Scalar.exact_positive]
  simp only
  rw [if_pos hunit]
  refine ⟨_, rfl, (length_wholeCoeffs ks).symm, by rwa [length_wholeCoeffs], ?_⟩
  rw [coeffs_writeSlots_range _ hlen, wholeCoeffs, List.map_map]
  exact List.map_congr_left hcoeff

end Poly

namespace Path

open DroneShow.Poly (exactBezier exactBezier_exactly wholeCoeffs wholeCoeffs_one wholeCoeffs_two)

variable {ks : List ℤ}

/-- The curve of one axis. -/
noncomputable def exactAxisCurve (points : List ℝ) : Except Fault (Poly ℝ) :=
  @axisCurve ℝ (Scalar.exact ℝ) ℝ (Scalar.exact ℝ) (Widening.exact ℝ) points

/-- The curve of whole control points is exactly their power form, also where a constant
or a line stands for it. -/
theorem exactAxisCurve_exactly (hpos : ks ≠ []) (hlen : ks.length ≤ polySlots) :
    ∃ p, exactAxisCurve (ks.map (↑)) = .ok p ∧ p.Exactly (wholeCoeffs ks) := by
  match ks, hpos with
  | [a], _ =>
    rw [wholeCoeffs_one]
    exact ⟨_, rfl, rfl, hlen, rfl⟩
  | [a, b], _ =>
    have hline : exactAxisCurve ([a, b].map (↑)) =
        .ok (@Poly.linear ℝ (Scalar.exact ℝ) 1 a b) := by
      rw [← Scalar.exact_one]
      rfl
    rw [wholeCoeffs_two, hline]
    unfold Poly.linear
    rw [if_neg Scalar.exact_positive]
    refine ⟨_, rfl, rfl, hlen, ?_⟩
    show [(a : ℝ), ((b : ℝ) - a) / 1] = [(a : ℝ), ((b - a : ℤ) : ℝ)]
    rw [div_one, Int.cast_sub]
  | a :: b :: c :: rest, hpos =>
    have hcurve : exactAxisCurve ((a :: b :: c :: rest).map (↑)) =
        exactBezier ((a :: b :: c :: rest).map (↑)) := by
      unfold exactBezier
      rw [← Scalar.exact_one]
      rfl
    rw [hcurve]
    exact exactBezier_exactly hpos hlen

end Path

end DroneShow
