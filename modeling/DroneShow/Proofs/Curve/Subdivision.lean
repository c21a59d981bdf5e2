-- The scheme in exact arithmetic. What it leaves of a curve is the same curve
-- at a part of the time, and control points that are near give curves that are.
import Mathlib.Algebra.Order.Field.Basic
import Mathlib.Data.List.Forall2
import Mathlib.Data.Nat.Choose.Sum
import Mathlib.Tactic.Linarith
import Mathlib.Tactic.Positivity
import Mathlib.Tactic.Ring
import DroneShow.Curve.Path

namespace DroneShow

/-- The arithmetic of an ordered field. -/
@[reducible] def Scalar.exact (K : Type) [Field K] [LinearOrder K] : Scalar K where
  decLE := inferInstance
  decLT := inferInstance
  ofNat n := n
  ofDecimal digits places := digits / 10 ^ places
  abs a := max a (-a)
  isFinite _ := true
  same a b := decide (a = b)

namespace Bezier

/-! ## The scheme over any numbers -/

section Scheme

variable {α : Type} [Scalar α]

theorem length_column (t : α) (points : List α) : (column t points).length = points.length - 1 := by
  induction points with
  | nil => rfl
  | cons a rest ih =>
    cases rest with
    | nil => rfl
    | cons b rest => simp [column, ih]

theorem length_columnHeads (t : α) {n : Nat} {points : List α} (h : points.length = n) :
    (columnHeads t n points).length = n := by
  induction n generalizing points with
  | zero => rfl
  | succ n ih =>
    cases points with
    | nil => simp at h
    | cons a rest =>
      have hlen : (column t (a :: rest)).length = n := by
        rw [length_column, h, Nat.add_sub_cancel]
      rw [columnHeads, List.length_cons, ih hlen]

@[simp] theorem length_restrict (points : List α) (t : α) :
    (restrict points t).length = points.length := length_columnHeads t rfl

/-- Behind its first point, a part is the part of the next column. -/
theorem restrict_cons (a : α) (rest : List α) (t : α) :
    restrict (a :: rest) t = a :: restrict (column t (a :: rest)) t := by
  unfold restrict
  rw [length_column, List.length_cons, Nat.add_sub_cancel, columnHeads]

end Scheme

/-! ## The exact scheme -/

section Exact

open Finset.HasAntidiagonal (antidiagonal mem_antidiagonal)

variable {K : Type} [Field K]

/-- The curve of control points at a time, as the sum over Bernstein polynomials. -/
def curve (points : List K) (t : K) : K :=
  ∑ ij ∈ antidiagonal (points.length - 1),
    ((points.length - 1).choose ij.1 : K) * (t ^ ij.1 * (1 - t) ^ ij.2 * points.getD ij.1 0)

@[simp] theorem curve_nil (t : K) : curve [] t = 0 := by simp [curve]

@[simp] theorem curve_singleton (a t : K) : curve [a] t = a := by simp [curve]

variable [LinearOrder K] {points : List K}

/-- One step of the scheme in exact arithmetic. -/
def exactColumn (t : K) (points : List K) : List K := @column K (Scalar.exact K) t points

/-- The control points of a part of a curve in exact arithmetic. -/
def exactRestrict (points : List K) (t : K) : List K := @restrict K (Scalar.exact K) points t

@[simp] theorem exactColumn_nil (t : K) : exactColumn t [] = [] := rfl

@[simp] theorem exactColumn_singleton (t a : K) : exactColumn t [a] = [] := rfl

@[simp] theorem exactColumn_cons (t a b : K) (rest : List K) :
    exactColumn t (a :: b :: rest) = ((1 - t) * a + t * b) :: exactColumn t (b :: rest) := by
  have hone : (Scalar.exact K).ofNat 1 = (1 : K) := Nat.cast_one
  rw [← hone]
  rfl

@[simp] theorem length_exactColumn (t : K) (points : List K) :
    (exactColumn t points).length = points.length - 1 := @length_column K (Scalar.exact K) t points

@[simp] theorem exactRestrict_nil (t : K) : exactRestrict [] t = [] := rfl

theorem exactRestrict_cons (a : K) (rest : List K) (t : K) :
    exactRestrict (a :: rest) t = a :: exactRestrict (exactColumn t (a :: rest)) t :=
  @restrict_cons K (Scalar.exact K) a rest t

@[simp] theorem length_exactRestrict (points : List K) (t : K) :
    (exactRestrict points t).length = points.length := @length_restrict K (Scalar.exact K) points t

theorem exactColumn_comm (s t : K) (points : List K) :
    exactColumn s (exactColumn t points) = exactColumn t (exactColumn s points) := by
  induction points with
  | nil => rfl
  | cons a rest ih =>
    match rest with
    | [] => rfl
    | [b] => simp
    | b :: c :: rest =>
      simp only [exactColumn_cons] at ih ⊢
      rw [ih]
      congr 1
      ring

/-- A step at a part of the time is a part of a step. -/
theorem exactColumn_restrict (s t : K) (points : List K) :
    exactColumn s (exactRestrict points t) = exactRestrict (exactColumn (s * t) points) t := by
  induction hn : points.length generalizing points with
  | zero =>
    rw [List.length_eq_zero_iff.mp hn]
    rfl
  | succ n ih =>
    match points, hn with
    | [a], _ => rfl
    | a :: b :: rest, hn =>
      have hnext := ih (exactColumn t (a :: b :: rest)) (by simpa using hn)
      have hhead : exactRestrict (exactColumn t (a :: b :: rest)) t = ((1 - t) * a + t * b) ::
          exactRestrict (exactColumn t (exactColumn t (a :: b :: rest))) t := by
        rw [exactColumn_cons, exactRestrict_cons]
      calc exactColumn s (exactRestrict (a :: b :: rest) t)
          = ((1 - s) * a + s * ((1 - t) * a + t * b)) ::
              exactColumn s (exactRestrict (exactColumn t (a :: b :: rest)) t) := by
            rw [exactRestrict_cons, hhead, exactColumn_cons]
        _ = ((1 - s * t) * a + s * t * b) ::
              exactRestrict (exactColumn t (exactColumn (s * t) (a :: b :: rest))) t := by
            rw [hnext, exactColumn_comm t]
            congr 1
            ring
        _ = exactRestrict (exactColumn (s * t) (a :: b :: rest)) t := by
            rw [exactColumn_cons, exactRestrict_cons]

/-! ## Parts of a curve -/

theorem getD_exactColumn (t : K) {i : Nat} (h : i + 1 < points.length) :
    (exactColumn t points).getD i 0 = (1 - t) * points.getD i 0 + t * points.getD (i + 1) 0 := by
  induction points generalizing i with
  | nil => simp at h
  | cons a rest ih =>
    match rest, i with
    | [], _ => simp at h
    | b :: rest, 0 => simp
    | b :: rest, i + 1 =>
      rw [exactColumn_cons, List.getD_cons_succ, List.getD_cons_succ, List.getD_cons_succ]
      exact ih (by simpa using h)

/-- The scheme leads to the curve: a step does not change its point. -/
theorem curve_exactColumn (t : K) (h : 2 ≤ points.length) :
    curve (exactColumn t points) t = curve points t := by
  obtain ⟨n, hn⟩ : ∃ n, points.length = n + 2 := ⟨points.length - 2, by omega⟩
  unfold curve
  rw [length_exactColumn, hn]
  show ∑ ij ∈ antidiagonal n, (n.choose ij.1 : K) * _ =
    ∑ ij ∈ antidiagonal (n + 1), ((n + 1).choose ij.1 : K) * _
  rw [Finset.sum_antidiagonal_choose_succ_mul
    (fun i j => t ^ i * (1 - t) ^ j * points.getD i 0), ← Finset.sum_add_distrib]
  refine Finset.sum_congr rfl fun ij hij => ?_
  have hsum := mem_antidiagonal.mp hij
  rw [getD_exactColumn t (by omega), ← Nat.choose_symm_of_eq_add hsum.symm]
  ring

/-- A part of a curve is the curve at the part of the time. -/
theorem curve_exactRestrict (points : List K) (s t : K) :
    curve (exactRestrict points t) s = curve points (s * t) := by
  induction hn : points.length generalizing points with
  | zero =>
    rw [List.length_eq_zero_iff.mp hn]
    simp
  | succ n ih =>
    match points, hn with
    | [a], _ => simp [exactRestrict_cons]
    | a :: b :: rest, hn =>
      calc curve (exactRestrict (a :: b :: rest) t) s
          = curve (exactColumn s (exactRestrict (a :: b :: rest) t)) s :=
            (curve_exactColumn s (by simp)).symm
        _ = curve (exactRestrict (exactColumn (s * t) (a :: b :: rest)) t) s := by
            rw [exactColumn_restrict]
        _ = curve (exactColumn (s * t) (a :: b :: rest)) (s * t) := ih _ (by simpa using hn)
        _ = curve (a :: b :: rest) (s * t) := curve_exactColumn (s * t) (by simp)

/-! ## The hull -/

variable [IsStrictOrderedRing K] {points' : List K} {lo hi δ t : K}

theorem exactColumn_mem (ht : 0 ≤ t) (ht' : t ≤ 1) (h : ∀ p ∈ points, lo ≤ p ∧ p ≤ hi) :
    ∀ p ∈ exactColumn t points, lo ≤ p ∧ p ≤ hi := by
  induction points with
  | nil => simp
  | cons a rest ih =>
    match rest with
    | [] => simp
    | b :: rest =>
      obtain ⟨ha, ha'⟩ := h a (by simp)
      obtain ⟨hb, hb'⟩ := h b (by simp)
      have hs : 0 ≤ 1 - t := by linarith
      rw [exactColumn_cons]
      intro p hp
      rcases List.mem_cons.mp hp with rfl | hp
      · constructor
        · nlinarith
        · nlinarith
      · exact ih (fun q hq => h q (List.mem_cons_of_mem a hq)) p hp

/-- A part of a curve stays in the hull of the control points. -/
theorem exactRestrict_mem (ht : 0 ≤ t) (ht' : t ≤ 1) (h : ∀ p ∈ points, lo ≤ p ∧ p ≤ hi) :
    ∀ p ∈ exactRestrict points t, lo ≤ p ∧ p ≤ hi := by
  induction hn : points.length generalizing points with
  | zero =>
    rw [List.length_eq_zero_iff.mp hn]
    simp
  | succ n ih =>
    match points, hn with
    | a :: rest, hn =>
      rw [exactRestrict_cons]
      intro p hp
      rcases List.mem_cons.mp hp with rfl | hp
      · exact h p (by simp)
      · exact ih (exactColumn_mem ht ht' h) (by simpa using hn) p hp

/-! ## Curves of near points -/

/-- A mix keeps a distance. -/
theorem mix_near {a b a' b' : K} (ht : 0 ≤ t) (ht' : t ≤ 1) (ha : |a - a'| ≤ δ)
    (hb : |b - b'| ≤ δ) : |((1 - t) * a + t * b) - ((1 - t) * a' + t * b')| ≤ δ := by
  rw [abs_le] at ha hb ⊢
  have hs : 0 ≤ 1 - t := by linarith
  constructor
  · nlinarith
  · nlinarith

theorem exactColumn_near (ht : 0 ≤ t) (ht' : t ≤ 1)
    (h : List.Forall₂ (fun p q => |p - q| ≤ δ) points points') :
    List.Forall₂ (fun p q => |p - q| ≤ δ) (exactColumn t points) (exactColumn t points') := by
  induction h with
  | nil => exact .nil
  | cons ha hrest ih =>
    cases hrest with
    | nil => exact .nil
    | cons hb hrest =>
      rw [exactColumn_cons, exactColumn_cons]
      exact .cons (mix_near ht ht' ha hb) ih

/-- Curves of near control points are as near at all times. -/
theorem curve_near (hδ : 0 ≤ δ) (ht : 0 ≤ t) (ht' : t ≤ 1)
    (h : List.Forall₂ (fun p q => |p - q| ≤ δ) points points') :
    |curve points t - curve points' t| ≤ δ := by
  induction hn : points.length generalizing points points' with
  | zero =>
    rw [List.length_eq_zero_iff.mp hn] at h ⊢
    cases h
    simpa using hδ
  | succ n ih =>
    cases h with
    | nil => simp at hn
    | @cons a a' rest rest' ha hrest =>
      cases hrest with
      | nil => simpa using ha
      | @cons b b' rest rest' hb hrest =>
        rw [← curve_exactColumn t (show 2 ≤ (a :: b :: rest).length by simp),
          ← curve_exactColumn t (show 2 ≤ (a' :: b' :: rest').length by simp)]
        exact ih (exactColumn_near ht ht' (.cons ha (.cons hb hrest))) (by simpa using hn)

end Exact

/-! ## Other fields -/

section Map

variable {K L : Type} [Field K] [LinearOrder K] [Field L] [LinearOrder L] (φ : K →+* L)

theorem exactColumn_map (t : K) (points : List K) :
    exactColumn (φ t) (points.map φ) = (exactColumn t points).map φ := by
  induction points with
  | nil => rfl
  | cons a rest ih =>
    match rest with
    | [] => rfl
    | b :: rest =>
      simp only [List.map_cons, exactColumn_cons, map_add, map_mul, map_sub, map_one] at ih ⊢
      rw [ih]

/-- A part of a curve does not depend on the field it is computed in. -/
theorem exactRestrict_map (points : List K) (t : K) :
    exactRestrict (points.map φ) (φ t) = (exactRestrict points t).map φ := by
  induction hn : points.length generalizing points with
  | zero =>
    rw [List.length_eq_zero_iff.mp hn]
    rfl
  | succ n ih =>
    match points, hn with
    | a :: rest, hn =>
      have hnext := ih (exactColumn t (a :: rest)) (by simpa using hn)
      rw [← exactColumn_map] at hnext
      rw [exactRestrict_cons, List.map_cons, List.map_cons, exactRestrict_cons, ← hnext]
      rfl

end Map

end Bezier

end DroneShow
