-- Curves on words: their control points are the first of eight slots, and so
-- are their coefficients. The loops over them stay within the slots, and end
-- with the curves of the library.
import DroneShow.Proofs.Checked.Decoding
import DroneShow.Proofs.Curve.Power

namespace DroneShow.Checked

variable {n j i : Nat} {p : Poly Single} {path : Path Single}

/-! ## Bezier curves -/

/-- The factorials of the degrees that a curve can have. -/
def factorials : Array Nat := #[1, 1, 2, 6, 24, 120, 720, 5040]

def weight (n j i : Nat) : Checked Double := do
  let all ← item factorials n
  let behind ← sub n j
  let behind ← item factorials behind
  let before ← item factorials i
  let between ← sub j i
  let between ← item factorials between
  pure (Scalar.ofNat all / (Scalar.ofNat behind * Scalar.ofNat before * Scalar.ofNat between))

/-- Adds the terms of the control points from index `i` on to `sum`. -/
def weigh (n j : Nat) (sum : Double) : Nat → List Single → Checked Double
  | _, [] => pure sum
  | i, p :: rest => do
    let w ← weight n j i
    let parity ← add offsetBits i j
    let term := w * Widening.widen p
    weigh n j (if parity % 2 = 1 then sum - term else sum + term) (i + 1) rest

/-- Writes `count` coefficients, from that of degree `j` on. -/
def writeCoeffs (points : List Single) (n : Nat) :
    (count j : Nat) → Vector Single polySlots → Checked (Vector Single polySlots)
  | 0, _, slots => pure slots
  | count + 1, j, slots => do
    let taken ← add offsetBits j 1
    let sum ← weigh n j 0 0 (points.take taken)
    let slots ← put slots j (Widening.narrow sum)
    writeCoeffs points n count (j + 1) slots

def stretch (p : Poly Single) (factor : Single) : Checked (Poly Single) := do
  let _ ← front p.slots p.count
  pure (p.stretch factor)

def bezier (duration : Single) (points : List Single) : Checked (Poly Single) := do
  if points.length = 0 ∨ polySlots < points.length then throw .pointCount
  else
    let n ← sub points.length 1
    let count ← add offsetBits n 1
    let slots ← writeCoeffs points n count 0 (Poly.zero : Poly Single).slots
    if duration ≤ 0 then
      let last ← item points.toArray n
      pure (Poly.constant last)
    else if Scalar.same duration 1 then pure ⟨slots, count⟩
    else stretch ⟨slots, count⟩ duration

theorem item_factorials (h : n < polySlots) : item factorials n = pure (Poly.factorial n) := by
  refine item_of_getElem? ?_
  have hall : ∀ m : Fin 8, factorials[m.val]? = some (Poly.factorial m.val) := by decide
  exact hall ⟨n, h⟩

theorem weight_eq (hn : n < polySlots) (hj : j ≤ n) (hi : i ≤ j) :
    weight n j i = pure (Poly.bezierWeight n j i) := by
  unfold weight
  rw [item_factorials hn, pure_bind, sub_of_le hj, pure_bind, item_factorials (by omega), pure_bind,
    item_factorials (by omega), pure_bind, sub_of_le hi, pure_bind, item_factorials (by omega),
    pure_bind]
  rfl

theorem weigh_eq (hn : n < polySlots) (hj : j ≤ n) (sum : Double) (i : Nat)
    (points : List Single) : weigh n j sum i (points.take (j + 1 - i)) =
      pure (Poly.bezierSum n j sum i points) := by
  induction points generalizing sum i with
  | nil => simp [weigh, Poly.bezierSum]
  | cons p rest ih =>
    unfold Poly.bezierSum
    by_cases hlast : j < i
    · rw [if_pos hlast, show j + 1 - i = 0 by omega]
      rfl
    · rw [if_neg hlast, show j + 1 - i = (j + 1 - (i + 1)) + 1 by omega, List.take_succ_cons, weigh,
        weight_eq hn hj (by omega), pure_bind, add_offset (by unfold polySlots at hn; omega),
        pure_bind, ih]

theorem writeCoeffs_eq (points : List Single) (hn : n < polySlots) (count j : Nat)
    (slots : Vector Single polySlots) (hlen : points.length = n + 1) (h : j + count ≤ n + 1) :
    writeCoeffs points n count j slots =
      pure (fill slots j ((List.range' j count).map (Poly.bezierCoeff points))) := by
  induction count generalizing j slots with
  | zero => rfl
  | succ count ih =>
    have hsum := weigh_eq hn (show j ≤ n by omega) 0 0 points
    rw [Nat.sub_zero] at hsum
    unfold writeCoeffs
    unfold polySlots at hn
    rw [add_offset (by omega), pure_bind, hsum, pure_bind,
      put_of_lt _ _ (by unfold polySlots; omega), pure_bind, ih _ _ (by omega), List.range'_succ]
    unfold Poly.bezierCoeff
    rw [hlen]
    rfl

theorem getElem_fill {m : Nat} (slots : Vector Single m) (k : Nat) (values : List Single) (i : Nat)
    (hi : i < m) : (fill slots k values)[i] = if k ≤ i then values.getD (i - k) slots[i] else slots[i] := by
  induction values generalizing slots k with
  | nil => simp [fill]
  | cons a rest ih =>
    rw [fill, ih, Vector.getElem_setIfInBounds]
    by_cases hki : k = i
    · subst hki
      simp
    · rw [if_neg hki]
      by_cases hle : k + 1 ≤ i
      · rw [if_pos hle, if_pos (by omega), show i - k = i - (k + 1) + 1 by omega]
        rfl
      · rw [if_neg hle, if_neg (by omega)]

/-- Slots filled from the first one on are those that a polynomial writes. -/
theorem fill_eq_writeSlots (p : Poly Single) (values : List Single) :
    fill p.slots 0 values = p.writeSlots values := by
  apply Vector.ext
  intro i hi
  rw [getElem_fill, if_pos (Nat.zero_le i), Poly.getElem_writeSlots, Nat.sub_zero]

theorem stretch_eq (p : Poly Single) (factor : Single) (h : p.count ≤ polySlots) :
    stretch p factor = pure (p.stretch factor) := by
  unfold stretch
  rw [front_of_le _ h, pure_bind]

theorem bezier_eq (duration : Single) (points : List Single) :
    bezier duration points = told (Poly.bezier duration points) := by
  unfold bezier Poly.bezier
  by_cases hcount : points.length = 0 ∨ polySlots < points.length
  · rw [if_pos hcount, if_pos hcount]
    rfl
  · rw [if_neg hcount, if_neg hcount]
    obtain ⟨hpos, hmax⟩ := not_or.mp hcount
    unfold polySlots at hmax
    have hcoeffs := writeCoeffs_eq points (n := points.length - 1)
      (show points.length - 1 < polySlots by unfold polySlots; omega) points.length 0
      (Poly.zero : Poly Single).slots (by omega) (by omega)
    rw [fill_eq_writeSlots, ← List.range_eq_range'] at hcoeffs
    rw [sub_of_le (by omega), pure_bind, add_offset (by omega), pure_bind,
      show points.length - 1 + 1 = points.length by omega, hcoeffs, pure_bind]
    by_cases hduration : duration ≤ 0
    · have hlast : points.toArray[points.length - 1]? = some (points.getLastD 0) := by
        rw [← Array.getElem?_toList, ← List.getLast?_eq_getElem?, List.getLastD_eq_getLast?]
        cases hl : points.getLast? with
        | none => simp_all
        | some a => rfl
      rw [if_pos hduration, if_pos hduration, item_of_getElem? hlast]
      rfl
    · rw [if_neg hduration, if_neg hduration]
      by_cases hsame : Scalar.same duration 1 = true
      · rw [if_pos hsame, if_pos hsame]
        rfl
      · rw [if_neg hsame, if_neg hsame, stretch_eq _ _ (by show points.length ≤ 8; omega)]
        rfl

/-! ## Values and rates -/

def eval (p : Poly Single) (t : Single) : Checked Single := do
  let coeffs ← front p.slots p.count
  pure (coeffs.foldr (fun c acc => acc * t + c) 0)

def scale (p : Poly Single) (factor : Single) : Checked (Poly Single) := do
  let coeffs ← front p.slots p.count
  pure { p with slots := p.writeSlots (coeffs.map (· * factor)) }

/-- Moves `count` coefficients one degree down, from that of degree `i` on. -/
def lower : (count i : Nat) → Vector Single polySlots → Checked (Vector Single polySlots)
  | 0, _, slots => pure slots
  | count + 1, i, slots => do
    let c ← item slots.toArray i
    let below ← sub i 1
    let slots ← put slots below (Scalar.ofNat i * c)
    lower count (i + 1) slots

def derivative (p : Poly Single) : Checked (Poly Single) := do
  if p.count ≤ 1 then
    let slots ← put p.slots 0 0
    pure ⟨slots, 1⟩
  else
    let slots ← lower (p.count - 1) 1 p.slots
    let count ← sub p.count 1
    let slots ← put slots count 0
    pure ⟨slots, count⟩

theorem eval_eq (t : Single) (h : p.count ≤ polySlots) : eval p t = pure (p.eval t) := by
  unfold eval
  rw [front_of_le _ h, pure_bind]
  rfl

theorem scale_eq (factor : Single) (h : p.count ≤ polySlots) :
    scale p factor = pure (p.scale factor) := by
  unfold scale
  rw [front_of_le _ h, pure_bind]
  rfl

theorem fill_append {m : Nat} (slots : Vector Single m) (k : Nat) (values values' : List Single) :
    fill slots k (values ++ values') = fill (fill slots k values) (k + values.length) values' := by
  induction values generalizing slots k with
  | nil => rfl
  | cons a rest ih =>
    rw [List.cons_append, fill, fill, ih, List.length_cons]
    congr 1
    omega

/-- A coefficient is read before the loop comes to its slot. -/
theorem lower_eq (count i : Nat) (slots : Vector Single polySlots)
    (h : i + 1 + count ≤ polySlots) : lower count (i + 1) slots =
      pure (fill slots i (Poly.weighted (i + 1) ((slots.toList.drop (i + 1)).take count))) := by
  induction count generalizing i slots with
  | zero => rfl
  | succ count ih =>
    have hlt : i + 1 < polySlots := by omega
    have hitem : slots.toArray[i + 1]? = some slots[i + 1] :=
      Array.getElem?_eq_getElem (by simpa using hlt)
    have hdrop : slots.toList.drop (i + 1) = slots[i + 1] :: slots.toList.drop (i + 2) := by
      rw [List.drop_eq_getElem_cons (by simpa using hlt)]
      rfl
    unfold lower
    rw [item_of_getElem? hitem, pure_bind, sub_of_le (by omega), pure_bind, Nat.add_sub_cancel,
      put_of_lt _ _ (by omega), pure_bind, ih _ _ (by omega), hdrop, List.take_succ_cons,
      Poly.weighted, fill, Vector.toList_setIfInBounds, List.drop_set_of_lt (by omega)]

theorem derivative_eq (h : p.count ≤ polySlots) : derivative p = pure p.derivative := by
  unfold derivative Poly.derivative
  by_cases hcount : p.count ≤ 1
  · rw [if_pos hcount, if_pos hcount, put_of_lt _ _ (by decide), pure_bind,
      setIfInBounds_of_lt _ _ (by decide)]
  · have hlower := lower_eq (p.count - 1) 0 p.slots (by omega)
    have hlen : (Poly.weighted 1 (p.coeffs.drop 1)).length = p.count - 1 := by
      rw [Poly.length_weighted, List.length_drop, Poly.length_coeffs h]
    have hcoeffs : p.coeffs.drop 1 = (p.slots.toList.drop 1).take (p.count - 1) := by
      rw [Poly.coeffs, List.drop_take]
    rw [if_neg hcount, if_neg hcount, hlower, pure_bind, sub_of_le (by omega), pure_bind,
      put_of_lt _ _ (by omega), pure_bind, ← fill_eq_writeSlots, fill_append, hlen, hcoeffs,
      Nat.zero_add (p.count - 1)]
    rfl

/-! ## Paths -/

/-- The control points of an axis. -/
def controlPoints (f : Frame) (axis : Axis) : Checked (List Single) :=
  front (f.slots.get axis) ((f.formats.get axis).storedPoints + 1)

def axisCurve (points : List Single) : Checked (Poly Single) := do
  if points.length = 1 then
    let p ← item points.toArray 0
    pure (Poly.constant p)
  else if points.length = 2 then
    let p ← item points.toArray 0
    let q ← item points.toArray 1
    pure (Poly.linear 1 p q)
  else bezier 1 points

def build (f : Frame) : Checked (Path Single) :=
  Axes.ofFnM fun axis => do
    let points ← controlPoints f axis
    axisCurve points

/-- The rate of change per second of a path of the frame. -/
def rate (f : Frame) (path : Path Single) : Checked (Path Single) := do
  if f.durationMs = 0 then pure Path.rest
  else
    let slopes ← Axes.ofFnM fun axis => derivative (path.get axis)
    Axes.ofFnM fun axis => scale (slopes.get axis) (1 / f.segment.durationSec)

def evalPath (path : Path Single) (t : Single) : Checked Pose :=
  Axes.ofFnM fun axis => eval (path.get axis) t

/-- The coefficients of each axis fit the slots. -/
def Fits (path : Path Single) : Prop := ∀ axis, (path.get axis).count ≤ polySlots

theorem count_derivative (h : p.count ≤ polySlots) : p.derivative.count ≤ polySlots := by
  unfold Poly.derivative
  split
  · exact (by decide : 1 ≤ polySlots)
  · exact (Nat.sub_le _ _).trans h

theorem count_bezier {points : List Single} (h : Poly.bezier 1 points = .ok p) :
    p.count ≤ polySlots := by
  unfold Poly.bezier at h
  split at h
  · cases h
  · rename_i hcount
    rw [if_neg (by decide), if_pos (by decide)] at h
    cases h
    exact Nat.not_lt.mp (not_or.mp hcount).2

theorem count_axisCurve {points : List Single} (h : Path.axisCurve points = .ok p) :
    p.count ≤ polySlots := by
  unfold Path.axisCurve at h
  split at h
  · cases h
    exact (by decide : 1 ≤ polySlots)
  · cases h
    exact (by decide : 2 ≤ polySlots)
  · exact count_bezier h

theorem fits_position {s : Segment} (h : s.position = .ok path) : Fits path := by
  intro axis
  unfold Segment.position Path.ofPoints at h
  exact count_axisCurve (Axes.ofFnM_eq_ok_iff.mp h axis)

theorem fits_rate (s : Segment) (h : Fits path) : Fits (s.rate path) := by
  intro axis
  unfold Segment.rate
  split
  · cases axis <;> decide
  · have hcount := count_derivative (h axis)
    cases axis <;> exact hcount

theorem axisCurve_eq (points : List Single) :
    axisCurve points = told (Path.axisCurve points) := by
  unfold axisCurve
  match points with
  | [] => exact bezier_eq 1 []
  | [p] => rfl
  | [p, q] => rfl
  | p :: q :: r :: rest =>
    rw [if_neg (by simp), if_neg (by simp)]
    exact bezier_eq 1 _

theorem build_eq (f : Frame) : build f = told f.segment.position := by
  have hpoints : ∀ axis, controlPoints f axis = pure (f.segment.points.get axis) := by
    intro axis
    unfold controlPoints
    rw [front_of_le _ (storedPoints_lt _)]
    unfold Frame.segment
    rw [Axes.get_ofFn]
  unfold build Segment.position Path.ofPoints
  simp only [hpoints, pure_bind, axisCurve_eq]
  exact ofFnM_told _

theorem ofFnM_pure {α : Type} (f : Axis → α) :
    Axes.ofFnM (fun axis => (pure (f axis) : Checked α)) = pure (Axes.ofFn f) := rfl

theorem rate_eq (f : Frame) (h : Fits path) : rate f path = pure (f.segment.rate path) := by
  unfold rate Segment.rate
  by_cases hduration : f.durationMs = 0
  · rw [if_pos hduration, if_pos (show f.segment.durationMs = 0 from hduration)]
  · have hderivative : ∀ axis, derivative (path.get axis) = pure (path.get axis).derivative :=
      fun axis => derivative_eq (h axis)
    have hscale : ∀ axis, scale ((Axes.ofFn fun axis => (path.get axis).derivative).get axis)
        (1 / f.segment.durationSec) =
          pure ((path.get axis).derivative.scale (1 / f.segment.durationSec)) := by
      intro axis
      rw [Axes.get_ofFn, scale_eq _ (count_derivative (h axis))]
    rw [if_neg hduration, if_neg (show f.segment.durationMs ≠ 0 from hduration)]
    simp only [hderivative]
    rw [ofFnM_pure, pure_bind]
    simp only [hscale]
    rfl

theorem evalPath_eq (h : Fits path) (t : Single) : evalPath path t = pure (path.eval t) := by
  have heval : ∀ axis, eval (path.get axis) t = pure ((path.get axis).eval t) :=
    fun axis => eval_eq t (h axis)
  unfold evalPath
  simp only [heval]
  rfl

end DroneShow.Checked
