-- The laws of values given for each axis: what is asked axis by axis is
-- answered axis by axis.
import DroneShow.Axes

namespace DroneShow

instance Axis.decidableForall (p : Axis → Prop) [DecidablePred p] : Decidable (∀ axis, p axis) :=
  decidable_of_iff (p .x ∧ p .y ∧ p .z ∧ p .yaw)
    ⟨fun h axis => by cases axis <;> simp [h], fun h => ⟨h .x, h .y, h .z, h .yaw⟩⟩

namespace Axes

variable {α : Type}

theorem ext_get {v w : Axes α} (h : ∀ axis, v.get axis = w.get axis) : v = w :=
  Axes.ext (h .x) (h .y) (h .z) (h .yaw)

@[simp] theorem get_ofFn (f : Axis → α) (axis : Axis) : (ofFn f).get axis = f axis := by
  cases axis <;> rfl

theorem ofFnM_eq_ok_iff {f : Axis → Except Fault α} {v : Axes α} :
    ofFnM f = .ok v ↔ ∀ axis, f axis = .ok (v.get axis) := by
  obtain ⟨x, y, z, yaw⟩ := v
  constructor
  · intro h axis
    simp only [ofFnM, bind, Except.bind, pure, Except.pure] at h
    rcases hx : f .x with e | vx <;> rw [hx] at h <;> simp only [reduceCtorEq] at h
    rcases hy : f .y with e | vy <;> rw [hy] at h <;> simp only [reduceCtorEq] at h
    rcases hz : f .z with e | vz <;> rw [hz] at h <;> simp only [reduceCtorEq] at h
    rcases hw : f .yaw with e | vw <;> rw [hw] at h <;> simp only [reduceCtorEq] at h
    cases h
    cases axis <;> assumption
  · intro h
    have hx := h .x
    have hy := h .y
    have hz := h .z
    have hw := h .yaw
    simp only [get] at hx hy hz hw
    simp [ofFnM, bind, Except.bind, pure, Except.pure, hx, hy, hz, hw]

theorem exists_ofFnM {f : Axis → Except Fault α} (h : ∀ axis, ∃ a, f axis = .ok a) :
    ∃ v, ofFnM f = .ok v := by
  obtain ⟨g, hg⟩ := Classical.skolem.mp h
  exact ⟨ofFn g, ofFnM_eq_ok_iff.mpr fun axis => by rw [hg, get_ofFn]⟩

/-- When some axis has a fault, one of the axes has the fault of the whole. -/
theorem ofFnM_eq_error {f : Axis → Except Fault α} {e : Fault} (h : ofFnM f = .error e) :
    ∃ axis, f axis = .error e := by
  simp only [ofFnM, bind, Except.bind, pure, Except.pure] at h
  rcases hx : f .x with e' | vx <;> rw [hx] at h <;> simp only [Except.error.injEq] at h
  · exact ⟨.x, by rw [hx, h]⟩
  rcases hy : f .y with e' | vy <;> rw [hy] at h <;> simp only [Except.error.injEq] at h
  · exact ⟨.y, by rw [hy, h]⟩
  rcases hz : f .z with e' | vz <;> rw [hz] at h <;> simp only [Except.error.injEq] at h
  · exact ⟨.z, by rw [hz, h]⟩
  rcases hw : f .yaw with e' | vw <;> rw [hw] at h
  · exact ⟨.yaw, by rw [hw, Except.error.inj h]⟩
  · simp at h

end Axes

theorem Pose.same_iff {p q : Pose} :
    p.same q = true ↔ ∀ axis, (p.get axis).same (q.get axis) = true := by
  simp only [Pose.same, Bool.and_eq_true, and_assoc]
  constructor
  · rintro ⟨hx, hy, hz, hyaw⟩ axis
    cases axis <;> assumption
  · intro h
    exact ⟨h .x, h .y, h .z, h .yaw⟩

end DroneShow
