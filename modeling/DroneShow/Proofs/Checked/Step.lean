-- Computations on words. A sum has to fit its word, a difference must not fall
-- below zero, and an access has to be in range. Anything else halts the
-- computation, and unlike a fault that is no answer to anyone.
import Mathlib.Algebra.Group.Nat.Defs
import DroneShow.Axes

namespace DroneShow

/-- What halts a computation. -/
inductive Halt where
  /-- A sum that does not fit its word. -/
  | sum
  /-- A difference below zero. -/
  | difference
  /-- An access out of range. -/
  | access
  /-- A loop that does not end within its budget. -/
  | endless
deriving DecidableEq

/-- A computation that may be halted, and otherwise ends as the library's own
operations do: with a result or with a fault. -/
abbrev Checked := ExceptT Fault (Except Halt)

namespace Checked

variable {α β γ : Type} {n : Nat}

/-- The bits of an offset, and those of a time in milliseconds. -/
def offsetBits : Nat := 64
def clockBits : Nat := 32

/-- The most bytes that a string of bytes can have. -/
def maxBytes : Nat := 2 ^ 63 - 1

def halt (h : Halt) : Checked α := ExceptT.mk (.error h)

/-- An outcome of the library, with nothing checked. -/
def told (outcome : Except Fault α) : Checked α := ExceptT.mk (.ok outcome)

def add (bits a b : Nat) : Checked Nat :=
  if a + b < 2 ^ bits then pure (a + b) else halt .sum

def sub (a b : Nat) : Checked Nat :=
  if b ≤ a then pure (a - b) else halt .difference

/-- The element at an index. -/
def item (xs : Array α) (i : Nat) : Checked α :=
  match xs[i]? with
  | some a => pure a
  | none => halt .access

/-- Replaces the element at an index. -/
def put (slots : Vector α n) (i : Nat) (a : α) : Checked (Vector α n) :=
  if i < n then pure (slots.setIfInBounds i a) else halt .access

/-- The first `count` elements. -/
def front (slots : Vector α n) (count : Nat) : Checked (List α) :=
  if count ≤ n then pure (slots.toList.take count) else halt .access

/-! ## In range -/

@[simp] theorem told_ok (a : α) : told (.ok a) = (pure a : Checked α) := rfl

theorem told_bind (outcome : Except Fault α) (f : α → Except Fault β) :
    (told outcome >>= fun a => told (f a)) = told (outcome >>= f) := by
  cases outcome <;> rfl

theorem told_map (outcome : Except Fault α) (f : α → β) :
    (told outcome >>= fun a => pure (f a)) = told (outcome.map f) := by
  cases outcome <;> rfl

theorem map_bind (outcome : Except Fault α) (f : α → Except Fault β) (g : β → γ) :
    (outcome >>= f).map g = outcome >>= fun a => (f a).map g := by
  cases outcome <;> rfl

theorem told_map_bind {outcome : Except Fault α} {f : α → β} {next : β → Checked γ}
    {after : α → Except Fault γ} (h : ∀ a, outcome = .ok a → next (f a) = told (after a)) :
    told (outcome.map f) >>= next = told (outcome >>= after) := by
  cases outcome with
  | error e => rfl
  | ok a => exact h a rfl

theorem told_injective {outcome outcome' : Except Fault α} (h : told outcome = told outcome') :
    outcome = outcome' := Except.ok.inj h

theorem add_of_lt {bits a b : Nat} (h : a + b < 2 ^ bits) : add bits a b = pure (a + b) :=
  if_pos h

theorem add_offset {a b : Nat} (h : a + b < 2 ^ 64) : add offsetBits a b = pure (a + b) :=
  add_of_lt h

theorem sub_of_le {a b : Nat} (h : b ≤ a) : sub a b = pure (a - b) := if_pos h

theorem item_of_getElem? {xs : Array α} {i : Nat} {a : α} (h : xs[i]? = some a) :
    item xs i = pure a := by
  unfold item
  rw [h]

theorem put_of_lt (slots : Vector α n) {i : Nat} (a : α) (h : i < n) :
    put slots i a = pure (slots.setIfInBounds i a) := if_pos h

theorem setIfInBounds_of_lt (slots : Vector α n) {i : Nat} (a : α) (h : i < n) :
    slots.setIfInBounds i a = slots.set i a h := by
  apply Vector.ext
  intro j hj
  rw [Vector.getElem_setIfInBounds, Vector.getElem_set]

theorem front_of_le (slots : Vector α n) {count : Nat} (h : count ≤ n) :
    front slots count = pure (slots.toList.take count) := if_pos h

theorem take_setIfInBounds (slots : Vector α n) {k : Nat} (a : α) (h : k < n) :
    (slots.setIfInBounds k a).toList.take (k + 1) = slots.toList.take k ++ [a] := by
  have hlen : k < slots.toList.length := by rwa [Vector.length_toList]
  rw [Vector.toList_setIfInBounds, List.take_add_one, List.take_set_of_le (Nat.le_refl k),
    List.getElem?_set_self hlen]
  rfl

theorem ofFnM_told (f : Axis → Except Fault α) :
    Axes.ofFnM (fun axis => told (f axis)) = told (Axes.ofFnM f) := by
  unfold Axes.ofFnM
  simp only [← told_bind]
  rfl

/-! ## Computations with a state -/

section

variable {σ : Type} {s s' : σ} {first : ExceptT Fault (StateT σ (Except Halt)) α}

/-- A computation that first looks at its state. -/
theorem run_get_bind (f : σ → ExceptT Fault (StateT σ (Except Halt)) α) (s : σ) :
    (get >>= f : ExceptT Fault (StateT σ (Except Halt)) α).run.run s = (f s).run.run s := rfl

theorem run_bind_of_ok {a : α} (h : first.run.run s = .ok (.ok a, s'))
    (f : α → ExceptT Fault (StateT σ (Except Halt)) β) :
    (first >>= f).run.run s = (f a).run.run s' := by
  simp only [ExceptT.run_bind, StateT.run_bind, h]
  rfl

/-- After a fault nothing more is done, and the state stays as the fault left it. -/
theorem run_bind_of_error {e : Fault} (h : first.run.run s = .ok (.error e, s'))
    (f : α → ExceptT Fault (StateT σ (Except Halt)) β) :
    (first >>= f).run.run s = .ok (.error e, s') := by
  simp only [ExceptT.run_bind, StateT.run_bind, h]
  rfl

end

end Checked

end DroneShow
