-- The steps that improve the candidates. Value and slope are computed with errors that are
-- small against their units, so that a step which starts near a root at which the curve is
-- steep ends much nearer.
import DroneShow.Proofs.Curve.Cubic

namespace DroneShow.Roots

open Binary

variable {a b c d t : Double} {A B C D : ℤ} {R β γ δ ϑ x : ℝ} {θ : ℚ}

/-! ## Value and slope -/

/-- Horner's scheme starts from zeros: its first step gives the leading coefficient as the value,
its second one gives it as the slope. -/
theorem horner_start (ha : a.Represents A) (hA : binary64.Exact A) (ht : t.Represents θ) :
    (0 * t + a).Represents A ∧ ((0 * t + 0) * t + (0 * t + a)).Represents A := by
  have hzero : (0 : Double).Represents 0 := by
    exact_mod_cast (literal_represents (Nat.zero_le _) : (0 : Double).Represents ((0 : ℕ) : ℚ))
  have hempty : ∀ {x : Double}, x.Represents 0 → (x * t).Represents 0 := by
    intro x hx
    have hrounds := mul_rounds hx ht
    rw [zero_mul] at hrounds
    exact hrounds.exact binary64.exact_zero
  have hadd : ∀ {x y : Double} {q : ℚ}, x.Represents 0 → y.Represents q → binary64.Exact q →
      (x + y).Represents q := by
    intro x y q hx hy hq
    have hrounds := add_rounds hx hy
    rw [zero_add] at hrounds
    exact hrounds.exact hq
  have hlead := hadd (hempty hzero) ha hA
  have hflat := hadd (hempty hzero) hzero binary64.exact_zero
  exact ⟨hlead, hadd (hempty hflat) hlead hA⟩

section Horner

variable (h : Reduced A B C D R β γ δ) (ha : a.Represents A) (hb : b.Represents B)
  (hc : c.Represents C) (hd : d.Represents D) (ht : t.Represents θ) (hϑ : |θ / R| ≤ 5)

include h

theorem Reduced.lead_room {k : ℕ} (hk : k ≤ 3) : Room (A * R ^ k) := by
  have hA : (1 : ℝ) ≤ |(A : ℝ)| := by exact_mod_cast Int.one_le_abs h.lead
  have hA' : |(A : ℝ)| ≤ 2 ^ 20 := by exact_mod_cast h.lead_le
  have habs : |(A : ℝ) * R ^ k| = |(A : ℝ)| * R ^ k := by
    rw [abs_mul, abs_of_pos (pow_pos h.pos k)]
  constructor <;> rw [habs]
  · calc (1 / 2 ^ 100 : ℝ) ≤ 1 * (1 / 64) ^ 3 := by norm_num
      _ ≤ 1 * (1 / 64) ^ k := by
        gcongr 1 * ?_
        exact pow_le_pow_of_le_one (by norm_num) (by norm_num) hk
      _ ≤ |(A : ℝ)| * R ^ k := by
        gcongr
        exact h.low
  · have hhigh := pow_le_pow_left₀ h.pos.le h.high k
    have hpow := pow_pos h.pos k
    calc |(A : ℝ)| * R ^ k ≤ 2 ^ 20 * (2 ^ 12) ^ k := by gcongr
      _ ≤ 2 ^ 20 * (2 ^ 12) ^ 3 := by
        gcongr 2 ^ 20 * ?_
        exact pow_le_pow_right₀ (by norm_num) hk
      _ ≤ 2 ^ 100 := by norm_num

include ha hb hc hd ht hϑ

theorem valueSlope_sized [CubeRoots Double] :
    Sized (A * R ^ 3) (valueSlope [d, c, b, a] t).1
        (depressed (linearThird β γ) (constantHalf β γ δ) (θ / R + β / 3)) 216 1210 ∧
      Sized (A * R ^ 2) (valueSlope [d, c, b, a] t).2
        (3 * ((θ / R + β / 3) ^ 2 + linearThird β γ)) 108 500 := by
  have hroom0 := h.lead_room (k := 0) (by decide)
  have hroom1 := h.lead_room (k := 1) (by decide)
  have hroom2 := h.lead_room (k := 2) (by decide)
  have hroom3 := h.lead_room (k := 3) (by decide)
  rw [pow_zero, mul_one] at hroom0
  rw [pow_one] at hroom1
  obtain ⟨hlead, hslope⟩ := horner_start ha (exact_whole (h.lead_le.trans (by norm_num))) ht
  have ht5 : Sized R t (θ / R) 5 0 :=
    .of_represents h.pos ht (by rwa [abs_div, abs_of_pos h.pos, div_le_iff₀ h.pos] at hϑ)
  have hbR : Sized (A * R) b β 3 0 := .exact hb (by rw [Rat.cast_intCast, h.second]; ring) h.second_le
  have hcR : Sized (A * R ^ 2) c γ 3 0 := .exact hc (by rw [Rat.cast_intCast, h.third]; ring) h.third_le
  have hdR : Sized (A * R ^ 3) d δ 1 0 := .exact hd (by rw [Rat.cast_intCast, h.last]; ring) h.last_le
  have hunit : ∀ {x : Double}, x.Represents A → Sized (A : ℝ) x 1 1 0 := fun hx =>
    .exact hx (by rw [Rat.cast_intCast, one_mul]) (by rw [abs_one])
  have hsquare : (A : ℝ) * R * R = A * R ^ 2 := by ring
  have hcube : (A : ℝ) * R ^ 2 * R = A * R ^ 3 := by ring
  have hv2 := (((hunit hlead).mul hroom1 ht5 rfl hroom0 h.room_one (by norm_num) (by norm_num)).add hroom1
    hbR (by norm_num) (by norm_num)).mono (N := 8) (f := 14) (by norm_num) (by norm_num)
  have hs1 := (((hunit hslope).mul hroom1 ht5 rfl hroom0 h.room_one (by norm_num) (by norm_num)).add hroom1
    hv2 (by norm_num) (by norm_num)).mono (N := 13) (f := 33) (by norm_num) (by norm_num)
  have hv1 := ((hv2.mul hroom2 ht5 hsquare hroom1 h.room_one (by norm_num) (by norm_num)).add hroom2 hcR
    (by norm_num) (by norm_num)).mono (N := 43) (f := 154) (by norm_num) (by norm_num)
  have hs0 := ((hs1.mul hroom2 ht5 hsquare hroom1 h.room_one (by norm_num) (by norm_num)).add hroom2 hv1
    (by norm_num) (by norm_num)).mono (N := 108) (f := 500) (by norm_num) (by norm_num)
  have hv0 := ((hv1.mul hroom3 ht5 hcube hroom2 h.room_one (by norm_num) (by norm_num)).add hroom3 hdR
    (by norm_num) (by norm_num)).mono (N := 216) (f := 1210) (by norm_num) (by norm_num)
  have hvalue : depressed (linearThird β γ) (constantHalf β γ δ) (θ / R + β / 3) =
      ((1 * (θ / R) + β) * (θ / R) + γ) * (θ / R) + δ := by
    rw [depressed_shifted]
    ring
  have hrise : 3 * ((θ / R + β / 3) ^ 2 + linearThird β γ) =
      (1 * (θ / R) + (1 * (θ / R) + β)) * (θ / R) + ((1 * (θ / R) + β) * (θ / R) + γ) := by
    unfold linearThird
    ring
  rw [hvalue, hrise]
  exact ⟨hv0, hs0⟩

end Horner

/-! ## Steps -/

/-- A step of Newton's method from a distance `d` of the root `x` of a depressed cubic ends at
a distance of at most `e`, all in units. -/
structure Leads (w x d e : ℝ) : Prop where
  close : d ≤ 1 / 600
  closer : e ≤ 1 / 600
  steep : 6 * |x| * d + 3 * d ^ 2 + 1 / 2 ^ 42 ≤ |x ^ 2 + w| / 10
  gain : d ^ 2 * (3 * |x| + 2 * d) + 2 * (1 / 2 ^ 42) ≤ (e - 1 / 10 ^ 14) * (29 / 10 * |x ^ 2 + w|)

/-- Such a step is possible, it is not long, and it leaves room for a rounding. -/
theorem Leads.newton {w z y v s near nearer : ℝ} (hstep : Leads w x near nearer)
    (hx : depressed w z x = 0) (hy : |y - x| ≤ near) (hv : |v - depressed w z y| ≤ 1 / 2 ^ 42)
    (hs : |s - 3 * (y ^ 2 + w)| ≤ 1 / 2 ^ 42) :
    s ≠ 0 ∧ |v / s| ≤ 1 ∧ |y - v / s - x| ≤ nearer - 1 / 10 ^ 14 := by
  have hτ : 0 < |x ^ 2 + w| := by
    have hnear := (abs_nonneg _).trans hy
    have hsteep := hstep.steep
    have hpos : 0 ≤ 6 * |x| * near + 3 * near ^ 2 := by positivity
    linarith
  obtain ⟨hs0, hgain⟩ := newton_near hx hy (by linarith [hstep.close]) hv hs hτ hstep.steep
  have hdone := le_of_mul_le_mul_right (hgain.trans hstep.gain) (by positivity)
  refine ⟨hs0, ?_, hdone⟩
  have htri := abs_sub (y - x) (y - v / s - x)
  rw [sub_sub_sub_cancel_right, sub_sub_cancel] at htri
  linarith [hstep.close, hstep.closer]

/-- With one real root, two steps lead from the candidate to the root. -/
theorem leads_of_one {w : ℝ} (hsteep : 1 / 20 ≤ x ^ 2 + w) (hplace : |x| ≤ 9 / 2 * (x ^ 2 + w)) :
    Leads w x (3 / 2000) (1 / 90000) ∧ Leads w x (1 / 90000) (6 / 10 ^ 10) := by
  have habs : |x ^ 2 + w| = x ^ 2 + w := abs_of_pos (by linarith)
  constructor
  · refine ⟨by norm_num, by norm_num, ?_, ?_⟩
    · rw [habs]
      linarith
    · rw [habs]
      linarith
  · refine ⟨by norm_num, by norm_num, ?_, ?_⟩
    · rw [habs]
      linarith
    · rw [habs]
      linarith

/-- With three real roots, they lead from each candidate to its root. -/
theorem leads_of_three {w : ℝ} (hsteep : 1 / 120 ≤ |x ^ 2 + w|) (hplace : |x| ≤ 3) :
    Leads w x (1 / 4000000) (3 / 10 ^ 10) ∧ Leads w x (3 / 10 ^ 10) (3 / 10 ^ 10) := by
  constructor
  · refine ⟨by norm_num, by norm_num, ?_, ?_⟩
    · linarith
    · linarith
  · refine ⟨by norm_num, by norm_num, ?_, ?_⟩
    · linarith
    · linarith

/-- A step is made where value, slope and the next number are finite and the slope is not zero. -/
theorem refine_succ [CubeRoots Double] {coeffs : List Double} {steps : ℕ} {m : ℚ} (hm : (valueSlope coeffs t).2.Represents m)
    (hm0 : m ≠ 0)
    (hnext : (t - (valueSlope coeffs t).1 / (valueSlope coeffs t).2).isFinite = true) :
    refine coeffs (steps + 1) t =
      refine coeffs steps (t - (valueSlope coeffs t).1 / (valueSlope coeffs t).2) := by
  have hzero : (0 : Double).Represents ((0 : ℕ) : ℚ) := literal_represents (Nat.zero_le _)
  have hsame : Scalar.same (valueSlope coeffs t).2 0 = false := by
    by_contra htrue
    obtain ⟨hle, hge⟩ := same_iff.mp (Bool.not_eq_false _ ▸ htrue)
    exact hm0 (le_antisymm ((le_iff_of_represents hm hzero).mp hle) ((le_iff_of_represents hzero hm).mp hge))
  have hfinite : Scalar.isFinite (valueSlope coeffs t).2 = true := hm.isFinite
  rw [refine]
  simp only [hsame, hfinite, Bool.not_true, Bool.or_self, Bool.false_eq_true, if_false]
  exact if_pos hnext

section Step

variable [CubeRoots Double] (h : Reduced A B C D R β γ δ) (ha : a.Represents A) (hb : b.Represents B)
  (hc : c.Represents C) (hd : d.Represents D)
  (hx : depressed (linearThird β γ) (constantHalf β γ δ) x = 0) (hx3 : |x| ≤ 3)

include h ha hb hc hd hx hx3

theorem newton_step {near nearer : ℝ} (steps : ℕ) (hstep : Leads (linearThird β γ) x near nearer)
    (ht : t.Approx ((x - β / 3) * R) (near * R)) :
    ∃ next, refine [d, c, b, a] (steps + 1) t = refine [d, c, b, a] steps next ∧
      next.Approx ((x - β / 3) * R) (nearer * R) := by
  obtain ⟨θ, hθ, herr⟩ := ht
  have hR := h.pos
  have hA : (A : ℝ) ≠ 0 := by exact_mod_cast h.lead
  have hy : |θ / R + β / 3 - x| ≤ near := by
    have hsplit : θ / R + β / 3 - x = (θ - (x - β / 3) * R) / R := by
      field_simp
      ring
    rwa [hsplit, abs_div, abs_of_pos hR, div_le_iff₀ hR]
  have hϑ : |θ / R| ≤ 5 := by
    have htri := abs_add_three (θ / R + β / 3 - x) x (-(β / 3))
    rw [show θ / R + β / 3 - x + x + -(β / 3) = θ / R by ring, abs_neg, abs_div β,
      abs_of_pos (three_pos (α := ℝ))] at htri
    linarith [h.second_le, hstep.close]
  obtain ⟨hv, hs⟩ := valueSlope_sized h ha hb hc hd hθ hϑ
  obtain ⟨V, hV, -⟩ := hv.approx
  obtain ⟨m, hm, -⟩ := hs.approx
  have hv' := (hv.near (mul_ne_zero hA (pow_pos hR 3).ne') hV).trans (by norm_num : _ ≤ (1 : ℝ) / 2 ^ 42)
  have hm' := (hs.near (mul_ne_zero hA (pow_pos hR 2).ne') hm).trans (by norm_num : _ ≤ (1 : ℝ) / 2 ^ 42)
  obtain ⟨hm0, hmove, hdone⟩ := hstep.newton hx hy hv' hm'
  have hm0' : m ≠ 0 := by
    rintro rfl
    simp at hm0
  have hratio : ((V / m : ℚ) : ℝ) = V / (A * R ^ 3) / (m / (A * R ^ 2)) * R := by
    have hmR : (m : ℝ) ≠ 0 := by exact_mod_cast hm0'
    push_cast
    field_simp
  have hquotient := Sized.of_rounds (e := 0) h.room_one (div_rounds hV hm hm0') hmove (by norm_num)
    (by rw [hratio, sub_self, abs_zero, zero_mul]) (by norm_num)
  have ht5 : Sized R t (θ / R) 5 0 :=
    .of_represents h.pos hθ (by rwa [abs_div, abs_of_pos h.pos, div_le_iff₀ h.pos] at hϑ)
  have hnext := (ht5.sub h.room_one hquotient (by norm_num) (by norm_num)).mono (N := 6) (f := 8)
    (by norm_num) (by norm_num)
  refine ⟨_, refine_succ hm hm0' hnext.approx.isFinite, ?_⟩
  obtain ⟨z, hz, hzerr⟩ := hnext.approx
  refine ⟨z, hz, ?_⟩
  rw [abs_of_pos hR] at hzerr
  have hmoved : |(θ / R - V / (A * R ^ 3) / (m / (A * R ^ 2))) * R - (x - β / 3) * R| ≤
      (nearer - 1 / 10 ^ 14) * R := by
    rw [← sub_mul, abs_mul, abs_of_pos hR]
    refine mul_le_mul_of_nonneg_right (le_of_eq_of_le ?_ hdone) hR.le
    congr 1
    ring
  refine (abs_sub_le _ _ _).trans ((add_le_add hzerr hmoved).trans ?_)
  linarith

theorem refine_near {far near nearer : ℝ} (hfirst : Leads (linearThird β γ) x far near)
    (hsecond : Leads (linearThird β γ) x near nearer) (ht : t.Approx ((x - β / 3) * R) (far * R)) :
    (refine [d, c, b, a] 2 t).Approx ((x - β / 3) * R) (nearer * R) := by
  obtain ⟨s, hs, hsnear⟩ := newton_step h ha hb hc hd hx hx3 1 hfirst ht
  obtain ⟨u, hu, hunear⟩ := newton_step h ha hb hc hd hx hx3 0 hsecond hsnear
  rw [hs, hu]
  exact hunear

end Step

/-! ## All roots -/

theorem mem_insert {β : Type} [RootScalar β] {x y : β} {xs : List β} :
    x ∈ insert y xs ↔ x = y ∨ x ∈ xs := by
  induction xs with
  | nil => simp [insert]
  | cons z rest ih =>
    unfold insert
    split
    · rw [List.mem_cons, ih, List.mem_cons, or_left_comm]
    · rw [List.mem_cons]

theorem mem_sort {β : Type} [RootScalar β] {x : β} {xs : List β} : x ∈ sort xs ↔ x ∈ xs := by
  have hfold : ∀ acc : List β,
      x ∈ xs.foldl (fun acc y => insert y acc) acc ↔ x ∈ xs ∨ x ∈ acc := by
    induction xs with
    | nil => simp
    | cons y rest ih =>
      intro acc
      rw [List.foldl_cons, ih, mem_insert, List.mem_cons, ← or_assoc, or_comm (a := x ∈ rest)]
  rw [sort, hfold, or_iff_left (List.not_mem_nil)]

theorem exists_of_forall₂ {α β : Type} {P : α → β → Prop} {as : List α} {bs : List β}
    (h : List.Forall₂ P as bs) : (∀ a ∈ as, ∃ b ∈ bs, P a b) ∧ ∀ b ∈ bs, ∃ a ∈ as, P a b := by
  induction h with
  | nil => simp
  | cons hab _ ih => simp_all

/-- The numbers and the zeros of the function are near each other: each number is near a zero,
and each zero is near a number. -/
def Finds (ts : List Double) (f : ℝ → ℝ) (e : ℝ) : Prop :=
  (∀ t ∈ ts, ∃ r, f r = 0 ∧ t.Approx r e) ∧ ∀ r, f r = 0 → ∃ t ∈ ts, t.Approx r e

/-- Computed candidates are near the roots if the exact ones are. -/
theorem finds_of_forall₂ {ts : List Double} {cs : List ℝ} {f g : ℝ → ℝ} {e far : ℝ} (hR : 0 < R)
    (hfg : ∀ s, f (s * R) = 0 ↔ g (s + β / 3) = 0)
    (hall : List.Forall₂ (fun (t : Double) r => Sized R t (r - β / 3) 7 700) ts cs)
    (hleft : ∀ c ∈ cs, ∃ x, g x = 0 ∧ |c - x| ≤ e) (hright : ∀ x, g x = 0 → ∃ c ∈ cs, |c - x| ≤ e)
    (hfar : e + 700 / 2 ^ 53 ≤ far) : Finds ts f (far * R) := by
  have hnear : ∀ {t : Double} {c x : ℝ}, Sized R t (c - β / 3) 7 700 → |c - x| ≤ e →
      t.Approx ((x - β / 3) * R) (far * R) := by
    intro t c x ht hcx
    obtain ⟨z, hz, herr⟩ := ht.approx
    refine ⟨z, hz, ?_⟩
    rw [abs_of_pos hR] at herr
    have hmoved : |(c - β / 3) * R - (x - β / 3) * R| ≤ e * R := by
      rw [← sub_mul, abs_mul, abs_of_pos hR, sub_sub_sub_cancel_right]
      gcongr
    calc |(z : ℝ) - (x - β / 3) * R| ≤ 700 * (R / 2 ^ 53) + e * R :=
          (abs_sub_le _ _ _).trans (add_le_add herr hmoved)
      _ = (e + 700 / 2 ^ 53) * R := by ring
      _ ≤ far * R := by gcongr
  obtain ⟨hts, hcs⟩ := exists_of_forall₂ hall
  constructor
  · intro t ht
    obtain ⟨c, hc, hsized⟩ := hts t ht
    obtain ⟨x, hx, hcx⟩ := hleft c hc
    refine ⟨(x - β / 3) * R, ?_, hnear hsized hcx⟩
    rwa [hfg, sub_add_cancel]
  · intro r hr
    have hx := (hfg (r / R)).mp (by rwa [div_mul_cancel₀ _ hR.ne'])
    obtain ⟨c, hc, hcx⟩ := hright _ hx
    obtain ⟨t, ht, hsized⟩ := hcs c hc
    refine ⟨t, ht, ?_⟩
    have happrox := hnear hsized hcx
    rwa [add_sub_cancel_right, div_mul_cancel₀ _ hR.ne'] at happrox

section Roots

variable [CubeRoots Double] (hroots : CubeRoots.Accurate) (h : Reduced A B C D R β γ δ)
  (ha : a.Represents A) (hb : b.Represents B) (hc : c.Represents C) (hd : d.Represents D)

include hroots h ha hb hc hd

/-- The candidates are near the roots, and from each of them two steps lead to its root. How near,
depends on how steep the curve is at one of the roots. -/
theorem cubic_finds {r : ℝ} (hr : A * r ^ 3 + B * r ^ 2 + C * r + D = 0)
    (hD : 1 / 6912 ≤ |constantHalf β γ δ ^ 2 + linearThird β γ ^ 3|)
    (hR : R ^ 2 * |(r / R + β / 3) ^ 2 + linearThird β γ| ≤ 65534) :
    ∃ far near nearer : ℝ, nearer * R ≤ 1 / 2 ^ 20 ∧
      Finds (cubic a b c d) (fun s => A * s ^ 3 + B * s ^ 2 + C * s + D) (far * R) ∧
      ∀ x, depressed (linearThird β γ) (constantHalf β γ δ) x = 0 → |x| ≤ 3 ∧
        Leads (linearThird β γ) x far near ∧ Leads (linearThird β γ) x near nearer := by
  have hw := (h.linear_sized ha hb hc).le
  have hz := (h.constant_sized ha hb hc hd).le
  have hform : constantHalf β γ δ * constantHalf β γ δ + linearThird β γ * linearThird β γ * linearThird β γ =
      constantHalf β γ δ ^ 2 + linearThird β γ ^ 3 := by ring
  have hfg := h.root_iff
  have hx := (hfg (r / R)).mp (by rwa [div_mul_cancel₀ _ h.pos.ne'])
  have hunit : ∀ {k m : ℝ}, 0 < k → 0 ≤ m → 65534 / k ≤ m ^ 2 →
      k ≤ |(r / R + β / 3) ^ 2 + linearThird β γ| → R ≤ m := by
    intro k m hk hm hkm hsteep
    refine le_of_pow_le_pow_left₀ two_ne_zero hm (le_trans ?_ hkm)
    rw [le_div_iff₀ hk]
    exact (mul_le_mul_of_nonneg_left hsteep (sq_nonneg R)).trans hR
  rcases le_abs.mp hD with hone | hthree
  · obtain ⟨y, z, hprod, hsum, hall⟩ := cubic_of_one hroots h ha hb hc hd (hform ▸ hone)
    have hnear := fun x hx => near_of_one (x := x) hone hx hprod hsum
    have hhigh : R ≤ 1145 := hunit (k := 1 / 20) (by norm_num) (by norm_num) (by norm_num)
      ((slope_of_one hone hx).1.trans (le_abs_self _))
    refine ⟨3 / 2000, 1 / 90000, 6 / 10 ^ 10, by linarith,
      finds_of_forall₂ (e := 147 / 100000) h.pos hfg hall ?_ ?_ (by norm_num), ?_⟩
    · intro c hc
      rw [List.mem_singleton] at hc
      rw [hc]
      exact ⟨_, hx, hnear _ hx⟩
    · intro x hx
      exact ⟨_, List.mem_singleton_self _, hnear x hx⟩
    · intro x hx
      obtain ⟨hsteep, hplace⟩ := slope_of_one hone hx
      exact ⟨abs_root_le hw hz hx, leads_of_one hsteep hplace⟩
  · obtain ⟨y, z, hsize, hpart, hall⟩ := cubic_of_three hroots h ha hb hc hd (hform ▸ hthree)
    obtain ⟨hleft, hright⟩ := near_of_three hw hz hthree hsize hpart
    have hsteep : ∀ x, depressed (linearThird β γ) (constantHalf β γ δ) x = 0 →
        1 / 120 ≤ |x ^ 2 + linearThird β γ| :=
      fun x hx => slope_of_three (hw.trans (by norm_num)) (by linarith) hx
    have hhigh : R ≤ 2805 := hunit (k := 1 / 120) (by norm_num) (by norm_num) (by norm_num) (hsteep _ hx)
    refine ⟨1 / 4000000, 3 / 10 ^ 10, 3 / 10 ^ 10, by linarith,
      finds_of_forall₂ h.pos hfg hall hleft hright (by norm_num), ?_⟩
    intro x hx
    have hplace := abs_root_le hw hz hx
    exact ⟨hplace, leads_of_three (hsteep x hx) hplace⟩

theorem ofCoeffs_finds {r : ℝ} (hr : A * r ^ 3 + B * r ^ 2 + C * r + D = 0)
    (hD : 1 / 6912 ≤ |constantHalf β γ δ ^ 2 + linearThird β γ ^ 3|)
    (hR : R ^ 2 * |(r / R + β / 3) ^ 2 + linearThird β γ| ≤ 65534) :
    ∃ zs, ofCoeffs [d, c, b, a] = .ok zs ∧
      Finds zs (fun s => A * s ^ 3 + B * s ^ 2 + C * s + D) (1 / 2 ^ 20) := by
  obtain ⟨far, near, nearer, hsmall, ⟨hleft, hright⟩, hleads⟩ := cubic_finds hroots h ha hb hc hd hr hD hR
  have hfinite : (cubic a b c d).filter Scalar.isFinite = cubic a b c d := by
    rw [List.filter_eq_self]
    intro t ht
    obtain ⟨s, -, hs⟩ := hleft t ht
    exact hs.isFinite
  have hrefine : ∀ {t : Double} {s : ℝ}, A * s ^ 3 + B * s ^ 2 + C * s + D = 0 → t.Approx s (far * R) →
      (refine [d, c, b, a] 2 t).Approx s (1 / 2 ^ 20) := by
    intro t s hs hts
    have hplace : (s / R + β / 3 - β / 3) * R = s := by rw [add_sub_cancel_right, div_mul_cancel₀ _ h.pos.ne']
    have hx := (h.root_iff (s / R)).mp (by rwa [div_mul_cancel₀ _ h.pos.ne'])
    obtain ⟨hx3, hfirst, hsecond⟩ := hleads _ hx
    rw [← hplace] at hts ⊢
    exact (refine_near h ha hb hc hd hx hx3 hfirst hsecond hts).mono hsmall
  refine ⟨_, rfl, ?_, ?_⟩
  · intro t ht
    rw [hfinite, mem_sort, List.mem_map] at ht
    obtain ⟨u, hu, rfl⟩ := ht
    obtain ⟨s, hs, hus⟩ := hleft u hu
    exact ⟨s, hs, hrefine hs hus⟩
  · intro s hs
    obtain ⟨u, hu, hus⟩ := hright s hs
    refine ⟨_, ?_, hrefine hs hus⟩
    rw [hfinite, mem_sort]
    exact List.mem_map_of_mem hu

end Roots

end DroneShow.Roots
