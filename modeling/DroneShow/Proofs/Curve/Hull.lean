-- The control points of a part of a curve, in 32-bit numbers. Each mix of two
-- points is rounded a few times, so that it misses the exact one by a few steps
-- of their size. So all points stay near the exact ones, and near the hull of
-- the whole curve.
import DroneShow.Proofs.Binary.Sum
import DroneShow.Proofs.Curve.Subdivision
import DroneShow.Proofs.Record.Quantum

namespace DroneShow.Bezier

open Binary
open Quantum (zero_represents one_represents covers_single)

variable {a b t x : Single} {points : List Single} {exacts : List ℚ} {m : Int}
  {p p' q q' u lo hi δ δ' : ℚ}

/-! ## Rounding errors -/

/-- How far a number below `2 ^ m` moves at most when it is rounded. -/
def grain (m : Int) : ℚ := 2 ^ m / 33554432

theorem rounds_near (h : x.Rounds q) (hm : binary32.Covers m) (hq : |q| < 2 ^ m) :
    ∃ z, x.Represents z ∧ |z - q| ≤ grain m := by
  obtain ⟨z, hz, herr, -⟩ := h.near hm hq
  have hexponent : m - (binary32.precision - 1 : Nat) - 2 = m - (25 : Nat) := by
    show m - (23 : Nat) - 2 = m - (25 : Nat)
    omega
  rw [hexponent, zpow_sub₀ two_ne_zero, zpow_natCast] at herr
  refine ⟨z, hz, ?_⟩
  unfold grain
  norm_num at herr ⊢
  exact herr

/-- The complement of a part is a part, up to its last place. -/
theorem one_sub_represents (ht : t.Represents u) (hu : 0 ≤ u) (hu' : u ≤ 1) :
    ∃ v, (1 - t).Represents v ∧ 0 ≤ v ∧ v ≤ 1 ∧ |v - (1 - u)| ≤ grain 1 := by
  have hsub := sub_rounds one_represents ht
  obtain ⟨v, hv, hlow, hhigh⟩ :=
    hsub.between zero_represents one_represents (by linarith) (by linarith)
  obtain ⟨z, hz, herr⟩ := rounds_near hsub (covers_single (m := 1) (by decide) (by decide)) (by
    rw [abs_lt]
    norm_num
    constructor <;> linarith)
  rw [Represents.unique hz hv] at herr
  exact ⟨v, hv, hlow, hhigh, herr⟩

/-! ## Mixing -/

/-- A mix is the exact one, up to five times the error of one rounding: those of
two products and their sum, and two for the complement of the part. -/
theorem mix_represents (ht : t.Represents u) (hu : 0 ≤ u) (hu' : u ≤ 1) (hm : binary32.Covers m)
    (ha : a.Represents p) (hb : b.Represents q) (hp : |p| ≤ 3 / 4 * 2 ^ m)
    (hq : |q| ≤ 3 / 4 * 2 ^ m) :
    ∃ c, (mix t a b).Represents c ∧ |c - ((1 - u) * p + u * q)| ≤ 5 * grain m := by
  obtain ⟨v, hv, hv0, hv1, hrest⟩ := one_sub_represents ht hu hu'
  have hpow : (0 : ℚ) < 2 ^ m := by positivity
  have hgrain : grain m = 2 ^ m / 33554432 := rfl
  have hone : grain 1 = 2 / 33554432 := by norm_num [grain]
  have hbound : ∀ {r w : ℚ}, |r| ≤ 3 / 4 * 2 ^ m → 0 ≤ w → w ≤ 1 → |w * r| ≤ 3 / 4 * 2 ^ m := by
    intro r w hr hw hw'
    rw [abs_mul, abs_of_nonneg hw]
    calc w * |r| ≤ 1 * |r| := mul_le_mul_of_nonneg_right hw' (abs_nonneg r)
      _ ≤ 3 / 4 * 2 ^ m := by rwa [one_mul]
  have hvp := hbound hp hv0 hv1
  have huq := hbound hq hu hu'
  obtain ⟨z₁, hz₁, herr₁⟩ := rounds_near (mul_rounds hv ha) hm (by linarith)
  obtain ⟨z₂, hz₂, herr₂⟩ := rounds_near (mul_rounds ht hb) hm (by linarith)
  have hcomplement : |v * p - (1 - u) * p| ≤ 2 * grain m := by
    rw [hone] at hrest
    rw [← sub_mul, abs_mul, hgrain]
    have hprod := mul_le_mul hrest hp (abs_nonneg p) (by norm_num)
    linarith
  have hmix : |(1 - u) * p + u * q| ≤ 3 / 4 * 2 ^ m := by
    rw [abs_le] at hp hq ⊢
    have hs : 0 ≤ 1 - u := by linarith
    constructor
    · nlinarith
    · nlinarith
  rw [abs_le] at hcomplement hmix herr₁ herr₂
  have hsmall : |z₁ + z₂| < 2 ^ m := by
    rw [abs_lt]
    constructor <;> linarith
  obtain ⟨c, hc, herr⟩ := rounds_near (add_rounds hz₁ hz₂) hm hsmall
  rw [abs_le] at herr
  refine ⟨c, hc, ?_⟩
  rw [abs_le]
  constructor <;> linarith

/-! ## Points near exact ones -/

/-- All points have finite values, at most `δ` away from exact ones. -/
def Near (δ : ℚ) (points : List Single) (exacts : List ℚ) : Prop :=
  List.Forall₂ (fun x e => ∃ q, x.Represents q ∧ |q - e| ≤ δ) points exacts

theorem Near.mono (h : Near δ points exacts) (hδ : δ ≤ δ') : Near δ' points exacts :=
  h.imp fun _ _ ⟨q, hq, herr⟩ => ⟨q, hq, herr.trans hδ⟩

theorem Near.exists_of_mem (h : Near δ points exacts) (hx : x ∈ points) :
    ∃ e ∈ exacts, ∃ q, x.Represents q ∧ |q - e| ≤ δ := by
  induction h with
  | nil => cases hx
  | @cons x' e points exacts hhead _ ih =>
    rcases List.mem_cons.mp hx with rfl | hx
    · exact ⟨e, List.mem_cons_self, hhead⟩
    · obtain ⟨e', he', hq⟩ := ih hx
      exact ⟨e', List.mem_cons_of_mem _ he', hq⟩

theorem grain_pos (m : Int) : 0 < grain m := by
  unfold grain
  positivity

/-- The number is the part `u` of a curve, rounded once at most. -/
structure Part (t : Single) (u : ℚ) : Prop where
  nonneg : 0 ≤ u
  le_one : u ≤ 1
  rounded : ∃ u', t.Represents u' ∧ 0 ≤ u' ∧ u' ≤ 1 ∧ |u' - u| ≤ grain 0

theorem part_of_ms {ms whole : Nat} (hlt : ms < whole) (hwhole : whole < 65536) :
    Part (Binary.ofNat ms / Binary.ofNat whole) (ms / whole) := by
  have hpos : (0 : ℚ) < whole := by exact_mod_cast Nat.zero_lt_of_lt hlt
  have hratio : (ms : ℚ) / whole < 1 := by
    rw [div_lt_one hpos]
    exact_mod_cast hlt
  have hnonneg : (0 : ℚ) ≤ ms / whole := by positivity
  have hquot := div_rounds
    (ofNat_represents (F := binary32) (Quantum.exact_nat (k := ms) (by omega)))
    (ofNat_represents (F := binary32) (Quantum.exact_nat (k := whole) (by omega))) hpos.ne'
  obtain ⟨u', hu', hlow, hhigh⟩ :=
    hquot.between zero_represents one_represents hnonneg hratio.le
  obtain ⟨z, hz, herr⟩ := rounds_near hquot (covers_single (m := 0) (by decide) (by decide)) (by
    rwa [zpow_zero, abs_of_nonneg hnonneg])
  rw [Represents.unique hz hu'] at herr
  exact ⟨hnonneg, hratio.le, u', hu', hlow, hhigh, herr⟩

/-- A mix of near points at a near part is away by six grains more: one is that
of the part. -/
theorem Part.mix_near (h : Part t u) (hm : binary32.Covers m) (ha : a.Represents p')
    (hb : b.Represents q') (hp : |p' - p| ≤ δ) (hq : |q' - q| ≤ δ) (hδ : δ ≤ 2 ^ m / 4)
    (hp' : |p| ≤ 2 ^ m / 2) (hq' : |q| ≤ 2 ^ m / 2) :
    ∃ c, (mix t a b).Represents c ∧ |c - ((1 - u) * p + u * q)| ≤ δ + 6 * grain m := by
  obtain ⟨u', hu', hu0, hu1, hratio⟩ := h.rounded
  have hgrain : grain m = grain 0 * 2 ^ m := by
    unfold grain
    rw [zpow_zero]
    ring
  have hpart : |((1 - u') * p + u' * q) - ((1 - u) * p + u * q)| ≤ grain m := by
    rw [abs_le] at hp' hq'
    have hdist : |q - p| ≤ 2 ^ m := abs_le.mpr ⟨by linarith, by linarith⟩
    rw [show ((1 - u') * p + u' * q) - ((1 - u) * p + u * q) = (u' - u) * (q - p) by ring, abs_mul,
      hgrain]
    exact mul_le_mul hratio hdist (abs_nonneg _) (grain_pos 0).le
  have hmix := Bezier.mix_near hu0 hu1 hp hq
  rw [abs_le] at hp hq hp' hq'
  obtain ⟨c, hc, herr⟩ := mix_represents hu' hu0 hu1 hm ha hb
    (abs_le.mpr ⟨by linarith, by linarith⟩) (abs_le.mpr ⟨by linarith, by linarith⟩)
  rw [abs_le] at hpart hmix herr
  exact ⟨c, hc, abs_le.mpr ⟨by linarith, by linarith⟩⟩

/-- One step of the scheme adds six grains. -/
theorem Near.column (h : Near δ points exacts) (hpart : Part t u) (hm : binary32.Covers m)
    (hδ : δ ≤ 2 ^ m / 4)
    (hexact : ∀ e ∈ exacts, -(2 ^ m / 2) ≤ e ∧ e ≤ 2 ^ m / 2) :
    Near (δ + 6 * grain m) (column t points) (exactColumn u exacts) := by
  induction h with
  | nil => exact .nil
  | cons ha hrest ih =>
    cases hrest with
    | nil => exact .nil
    | cons hb hrest =>
      obtain ⟨p', hp', herrp⟩ := ha
      obtain ⟨q', hq', herrq⟩ := hb
      have hp := abs_le.mpr (hexact _ List.mem_cons_self)
      have hq := abs_le.mpr (hexact _ (List.mem_cons_of_mem _ List.mem_cons_self))
      rw [exactColumn_cons]
      refine .cons (hpart.mix_near hm hp' hq' herrp herrq hδ hp hq) ?_
      exact ih fun e he => hexact e (List.mem_cons_of_mem _ he)

/-- So the control points of a part are near the exact ones. -/
theorem Near.restrict_length (h : Near δ points exacts) (hpart : Part t u) (hm : binary32.Covers m)
    (hδ : δ + 6 * points.length * grain m ≤ 2 ^ m / 4)
    (hexact : ∀ e ∈ exacts, -(2 ^ m / 2) ≤ e ∧ e ≤ 2 ^ m / 2) :
    Near (δ + 6 * points.length * grain m) (restrict points t) (exactRestrict exacts u) := by
  have hgrain := grain_pos m
  induction hn : points.length generalizing points exacts δ with
  | zero =>
    obtain rfl := List.length_eq_zero_iff.mp hn
    cases h
    exact .nil
  | succ n ih =>
    cases h with
    | nil => simp at hn
    | @cons a e points exacts ha hrest =>
      rw [hn] at hδ
      push_cast at hδ ⊢
      have hmore : 0 ≤ 6 * (n : ℚ) * grain m := by positivity
      have hlen : (Bezier.column t (a :: points)).length = n := by
        rw [length_column, hn, Nat.add_sub_cancel]
      have hcolumn := Near.column (.cons ha hrest) hpart hm (by linarith) hexact
      have hcolumns := ih hcolumn (by rw [hlen]; linarith)
        (exactColumn_mem hpart.nonneg hpart.le_one hexact) hlen
      rw [restrict_cons, exactRestrict_cons]
      refine .cons ?_ (hcolumns.mono (by linarith))
      obtain ⟨q, hq, herr⟩ := ha
      exact ⟨q, hq, by linarith⟩

/-- Up to eight control points of a part are away by 48 grains at most. -/
theorem Near.restrict (h : Near 0 points exacts) (hpart : Part t u) (hm : binary32.Covers m)
    (hlen : points.length ≤ 8)
    (hexact : ∀ e ∈ exacts, -(2 ^ m / 2) ≤ e ∧ e ≤ 2 ^ m / 2) :
    Near (48 * grain m) (restrict points t) (exactRestrict exacts u) := by
  have hgrain := grain_pos m
  have hpow : (0 : ℚ) < 2 ^ m := by positivity
  have hn : (points.length : ℚ) ≤ 8 := by exact_mod_cast hlen
  have hsteps : 6 * (points.length : ℚ) * grain m ≤ 48 * grain m := by nlinarith
  have hsmall : 48 * grain m ≤ 2 ^ m / 4 := by
    unfold grain
    linarith
  exact (h.restrict_length hpart hm (by linarith) hexact).mono (by linarith)

/-! ## The hull of stored points -/

/-- All points have finite values from `lo` to `hi`. -/
def Within (lo hi : ℚ) (points : List Single) : Prop :=
  ∀ x ∈ points, ∃ q, x.Represents q ∧ lo ≤ q ∧ q ≤ hi

theorem Within.exists_near (h : Within lo hi points) :
    ∃ exacts, Near 0 points exacts ∧ ∀ e ∈ exacts, lo ≤ e ∧ e ≤ hi := by
  induction points with
  | nil => exact ⟨[], .nil, by simp⟩
  | cons x rest ih =>
    obtain ⟨q, hq, hlow, hhigh⟩ := h x List.mem_cons_self
    obtain ⟨exacts, hnear, hmem⟩ := ih fun y hy => h y (List.mem_cons_of_mem _ hy)
    refine ⟨q :: exacts, .cons ⟨q, hq, by simp⟩ hnear, ?_⟩
    intro e he
    rcases List.mem_cons.mp he with rfl | he
    · exact ⟨hlow, hhigh⟩
    · exact hmem e he

/-- The control points of a part of a curve of up to eight points leave the
hull of the whole by 48 grains at most. -/
theorem Within.restrict (ht : t.Represents u) (hu : 0 ≤ u) (hu' : u ≤ 1) (hm : binary32.Covers m)
    (hlen : points.length ≤ 8) (hlo : -(2 ^ m / 2) ≤ lo) (hhi : hi ≤ 2 ^ m / 2)
    (h : Within lo hi points) :
    Within (lo - 48 * grain m) (hi + 48 * grain m) (restrict points t) := by
  obtain ⟨exacts, hnear, hmem⟩ := h.exists_near
  have hpart : Part t u := ⟨hu, hu', u, ht, hu, hu', by simpa using (grain_pos 0).le⟩
  have hparts := hnear.restrict hpart hm hlen fun e he =>
    ⟨hlo.trans (hmem e he).1, (hmem e he).2.trans hhi⟩
  have hhull := exactRestrict_mem hu hu' hmem
  intro x hx
  obtain ⟨e, he, q, hq, herr⟩ := hparts.exists_of_mem hx
  obtain ⟨hlow, hhigh⟩ := hhull e he
  rw [abs_le] at herr
  exact ⟨q, hq, by linarith, by linarith⟩

end DroneShow.Bezier
