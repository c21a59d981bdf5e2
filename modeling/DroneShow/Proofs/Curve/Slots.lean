-- The slots of a polynomial. Whatever is done to one, the slots behind its coefficients
-- stay zero. So comparing all slots compares the coefficients, and a polynomial that is
-- derived as often as it has coefficients is zero in every slot.
import Mathlib.Data.List.Forall2
import Mathlib.Data.List.GetD
import DroneShow.Proofs.Checked.Curve

namespace DroneShow.Poly

section Slots

variable {α β : Type} [Scalar α] {p q : Poly α} {values : List α} {count : Nat}

/-! ## Clear slots -/

/-- Of one to eight coefficients, and zero in all slots behind them. -/
structure Clear (p : Poly α) : Prop where
  pos : 1 ≤ p.count
  fits : p.count ≤ polySlots
  unused : ∀ (i : Nat) (hi : i < polySlots), p.count ≤ i → p.slots[i] = 0

/-- Writing no further than the slots in use keeps those behind them. -/
theorem Clear.writeSlots (h : p.Clear) (hlen : values.length ≤ count) (hcount : p.count ≤ count)
    (hfits : count ≤ polySlots) : (⟨p.writeSlots values, count⟩ : Poly α).Clear where
  pos := h.pos.trans hcount
  fits := hfits
  unused := by
    intro i hi hle
    show (p.writeSlots values)[i] = 0
    rw [getElem_writeSlots, List.getD_eq_default _ _ (hlen.trans hle)]
    exact h.unused i hi (hcount.trans hle)

theorem Clear.toList_slots (h : p.Clear) :
    p.slots.toList = p.coeffs ++ List.replicate (polySlots - p.count) 0 := by
  have hdrop : p.slots.toList.drop p.count = List.replicate (polySlots - p.count) 0 := by
    rw [List.eq_replicate_iff]
    constructor
    · simp
    · intro x hx
      obtain ⟨k, hk, rfl⟩ := List.getElem_of_mem hx
      rw [List.length_drop, Vector.length_toList] at hk
      rw [List.getElem_drop, Vector.getElem_toList]
      exact h.unused (p.count + k) (by omega) (Nat.le_add_right _ _)
  rw [coeffs, ← hdrop, List.take_append_drop]

/-! ## Polynomials that are made -/

theorem clear_constant (x : α) : (constant x).Clear where
  pos := le_rfl
  fits := (by decide : 1 ≤ polySlots)
  unused := by
    intro i hi hle
    have hne : 0 ≠ i := (Nat.lt_of_succ_le hle).ne
    simp [constant, hne]

theorem clear_linear (duration x0 x1 : α) : (linear duration x0 x1).Clear := by
  unfold linear
  by_cases hduration : duration ≤ 0
  · rw [if_pos hduration]
    exact clear_constant x1
  · rw [if_neg hduration]
    refine ⟨one_le_two, (by decide : 2 ≤ polySlots), ?_⟩
    intro i hi hle
    have hne : 1 ≠ i := (Nat.lt_of_succ_le hle).ne
    rw [Vector.getElem_set_ne _ _ hne]
    exact (clear_constant x0).unused i hi ((Nat.le_succ 1).trans hle)

/-! ## Polynomials that are changed -/

theorem Clear.scale (h : p.Clear) (factor : α) : (p.scale factor).Clear :=
  h.writeSlots (by simp [length_coeffs h.fits]) le_rfl h.fits

theorem Clear.stretch [Scalar β] [Widening α β] (h : p.Clear) (factor : α) :
    (p.stretch factor).Clear :=
  h.writeSlots (by simp [length_coeffs h.fits]) le_rfl h.fits

/-- One to eight control points have a curve, in any duration. -/
theorem exists_clear_bezier [Scalar β] [Widening α β] (duration : α) {points : List α}
    (hpos : 1 ≤ points.length) (hlen : points.length ≤ polySlots) :
    ∃ p, bezier duration points = .ok p ∧ p.Clear := by
  unfold bezier
  rw [if_neg (by omega)]
  by_cases hduration : duration ≤ 0
  · rw [if_pos hduration]
    exact ⟨_, rfl, clear_constant _⟩
  · rw [if_neg hduration]
    have hcurve : (⟨zero.writeSlots ((List.range points.length).map (bezierCoeff points)),
        points.length⟩ : Poly α).Clear :=
      (clear_constant 0).writeSlots (by simp) hpos hlen
    by_cases hunit : Scalar.same duration 1 = true
    · exact ⟨_, if_pos hunit, hcurve⟩
    · exact ⟨_, if_neg hunit, hcurve.stretch duration⟩

/-- Of the slots, only that of the highest degree falls out of use. -/
theorem Clear.derivative (h : p.Clear) : p.derivative.Clear := by
  have hfits := h.fits
  unfold Poly.derivative
  by_cases hcount : p.count ≤ 1
  · rw [if_pos hcount]
    refine ⟨le_rfl, (by decide : 1 ≤ polySlots), ?_⟩
    intro i hi hle
    have hne : 0 ≠ i := (Nat.lt_of_succ_le hle).ne
    rw [Vector.getElem_set_ne _ _ hne]
    exact h.unused i hi (hcount.trans hle)
  · rw [if_neg hcount]
    have hlen : (weighted 1 (p.coeffs.drop 1)).length = p.count - 1 := by
      rw [length_weighted, List.length_drop, length_coeffs hfits]
    refine ⟨Nat.le_sub_one_of_lt (Nat.not_le.mp hcount), (Nat.sub_le _ _).trans hfits, ?_⟩
    intro i hi hle
    have hbehind : p.count - 1 ≤ i := hle
    show (p.writeSlots (weighted 1 (p.coeffs.drop 1) ++ [0]))[i] = 0
    rw [getElem_writeSlots, List.getD_append_right _ _ _ _ (hlen ▸ hbehind), hlen]
    by_cases hlast : i = p.count - 1
    · simp [hlast]
    · have hpast : 1 ≤ i - (p.count - 1) := by omega
      rw [List.getD_eq_default _ _ hpast]
      exact h.unused i hi (by omega)

/-! ## Comparison -/

/-- Where zero equals itself, comparing all slots compares the coefficients. -/
theorem Clear.same_iff (hzero : Scalar.same (0 : α) 0 = true) (hp : p.Clear) (hq : q.Clear) :
    p.same q = true ↔
      List.Forall₂ (fun a b => Scalar.same a b = true) p.coeffs q.coeffs := by
  unfold Poly.same
  rw [List.forall₂_iff_zip, length_coeffs hp.fits, length_coeffs hq.fits, Bool.and_eq_true,
    beq_iff_eq]
  refine and_congr_right fun hcount => ?_
  have hlen : p.coeffs.length = q.coeffs.length := by
    rw [length_coeffs hp.fits, length_coeffs hq.fits, hcount]
  rw [hp.toList_slots, hq.toList_slots, hcount, List.zip_append hlen, List.all_append,
    List.zip_replicate', Bool.and_eq_true, List.all_eq_true]
  constructor
  · intro hall a b hab
    exact hall.1 (a, b) hab
  · intro hall
    refine ⟨fun ab hab => hall hab, ?_⟩
    simp [hzero]

/-! ## Repeated derivation -/

/-- A constant has the derivative zero, also where it is no number. -/
theorem Clear.derivative_eq_zero (h : p.Clear) (hcount : p.count = 1) : p.derivative = zero := by
  unfold Poly.derivative
  rw [if_pos hcount.le]
  unfold zero constant
  congr 1
  apply Vector.ext
  intro i hi
  by_cases hfirst : 0 = i
  · subst hfirst
    simp
  · rw [Vector.getElem_set_ne _ _ hfirst, Vector.getElem_set_ne _ _ hfirst,
      Vector.getElem_replicate]
    exact h.unused i hi (by omega)

/-- Each derivation takes one coefficient, and the last one leaves zero. -/
theorem Clear.iterate_derivative (h : p.Clear) : Poly.derivative^[p.count] p = zero := by
  induction hn : p.count generalizing p with
  | zero =>
    have hpos := h.pos
    omega
  | succ n ih =>
    rw [Function.iterate_succ_apply]
    rcases Nat.eq_zero_or_pos n with hzero | hpos
    · subst hzero
      exact h.derivative_eq_zero hn
    · have hcount : p.derivative.count = n := by
        unfold Poly.derivative
        rw [if_neg (by omega), hn]
        rfl
      exact ih h.derivative hcount

end Slots

/-! ## Every change -/

variable {p q : Poly Single}

/-- What can be done to a polynomial. Its derivative may take its place or be a copy of its own. -/
inductive Change where
  | derive
  | scale (factor : Single)
  | stretch (factor : Single)

def Change.run : Change → Poly Single → Poly Single
  | .derive, p => p.derivative
  | .scale factor, p => p.scale factor
  | .stretch factor, p => p.stretch factor

/-- The polynomials that changes lead to from one that was made. No number that
they are made of or changed by has to be finite. -/
inductive Reachable : Poly Single → Prop
  | zero : Reachable zero
  | constant (x : Single) : Reachable (constant x)
  | linear (duration x0 x1 : Single) : Reachable (linear duration x0 x1)
  | bezier {duration : Single} {points : List Single} {p : Poly Single}
      (hpos : 1 ≤ points.length) (hlen : points.length ≤ 8) :
      bezier duration points = .ok p → Reachable p
  | change {p : Poly Single} (c : Change) : Reachable p → Reachable (c.run p)

theorem Clear.change (h : p.Clear) (c : Change) : (c.run p).Clear := by
  cases c with
  | derive => exact h.derivative
  | scale factor => exact h.scale factor
  | stretch factor => exact h.stretch factor

theorem Reachable.clear (h : p.Reachable) : p.Clear := by
  induction h with
  | zero => exact clear_constant 0
  | constant x => exact clear_constant x
  | linear duration x0 x1 => exact clear_linear duration x0 x1
  | @bezier duration points p hpos hlen hcurve =>
    obtain ⟨p', hp', hclear⟩ := exists_clear_bezier duration hpos hlen
    rw [hcurve] at hp'
    cases hp'
    exact hclear
  | change c _ ih => exact ih.change c

/-- No change leaves a trace behind the coefficients. There are one to eight of them, and all
slots behind them are zero. So two polynomials are the same if and only if they have as many
coefficients, the same one by one. The loop that moves the coefficients down in place derives
a polynomial; derived once for each coefficient, it is zero. -/
theorem unused_slots_stay_zero (hp : p.Reachable) (hq : q.Reachable) :
    (1 ≤ p.count ∧ p.count ≤ 8 ∧ p.coeffs.length = p.count ∧
      ∀ (i : Nat) (hi : i < polySlots), p.count ≤ i → p.slots[i] = 0) ∧
    (p.same q = true ↔ p.coeffs.length = q.coeffs.length ∧
      ∀ (i : Nat) (h : i < p.coeffs.length) (h' : i < q.coeffs.length),
        Scalar.same p.coeffs[i] q.coeffs[i] = true) ∧
    Checked.derivative p = pure p.derivative ∧
    derivative^[p.coeffs.length] p = zero ∧
    (derivative^[p.coeffs.length] p).same zero = true := by
  have hclear := hp.clear
  have hlen := length_coeffs hclear.fits
  have hzero : derivative^[p.coeffs.length] p = zero := by
    rw [hlen]
    exact hclear.iterate_derivative
  refine ⟨⟨hclear.pos, hclear.fits, hlen, hclear.unused⟩, ?_,
    Checked.derivative_eq hclear.fits, hzero, ?_⟩
  · rw [hclear.same_iff (by decide) hq.clear, List.forall₂_iff_get]
    rfl
  · rw [hzero]
    decide

/-- The slope of a curve and a line, both scaled beyond all numbers. -/
theorem a_slope_beyond_all_numbers_is_a_line : ∃ curve slope line : Poly Single,
    bezier 1 [0, 1, 4] = .ok curve ∧ slope = (curve.scale (.infinity false)).derivative ∧
    line = (linear 1 1 2).scale (.infinity false) ∧ slope.Reachable ∧ line.Reachable ∧
    slope.same line = true ∧ derivative^[2] slope = zero := by
  obtain ⟨curve, hcurve, hslope⟩ : ∃ curve : Poly Single, bezier 1 [0, 1, 4] = .ok curve ∧
      (curve.scale (.infinity false)).derivative.coeffs = List.replicate 2 (.infinity false) :=
    ⟨_, rfl, by decide +kernel⟩
  have hline : ((linear 1 1 2 : Poly Single).scale (.infinity false)).coeffs =
      List.replicate 2 (.infinity false) := by decide
  have hreach := (Reachable.bezier (by decide) (by decide) hcurve).change (.scale (.infinity false))
  have hreach' := (Reachable.linear 1 1 2).change (.scale (.infinity false))
  obtain ⟨-, hsame, -, hzero, -⟩ := unused_slots_stay_zero (hreach.change .derive) hreach'
  refine ⟨curve, _, _, hcurve, rfl, rfl, hreach.change .derive, hreach', hsame.mpr ⟨?_, ?_⟩, ?_⟩
  · simp only [Change.run, hslope, hline]
  · intro i h h'
    simp only [Change.run, hslope, hline, List.getElem_replicate]
    decide
  · simp only [Change.run, hslope, List.length_replicate] at hzero
    exact hzero

end DroneShow.Poly
