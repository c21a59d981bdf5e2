-- Outcomes of operations: when a chain of steps without state succeeds, and
-- which state an operation leaves, whether it succeeds or not.
import Mathlib.Data.List.Forall2
import DroneShow.Fault

namespace DroneShow

variable {α β σ : Type}

/-! ## Steps without state -/

theorem bind_eq_ok_iff {x : Except Fault α} {f : α → Except Fault β} {b : β} :
    x >>= f = .ok b ↔ ∃ a, x = .ok a ∧ f a = .ok b := by
  cases x with
  | error e => simp [bind, Except.bind]
  | ok a => simp [bind, Except.bind]

theorem map_eq_ok_iff {x : Except Fault α} {f : α → β} {b : β} :
    x.map f = .ok b ↔ ∃ a, x = .ok a ∧ f a = b := by
  cases x with
  | error e => simp [Except.map]
  | ok a => simp [Except.map]

theorem mapM_eq_ok_iff {f : α → Except Fault β} {l : List α} {out : List β} :
    l.mapM f = .ok out ↔ List.Forall₂ (fun a b => f a = .ok b) l out := by
  induction l generalizing out with
  | nil =>
    rw [List.forall₂_nil_left_iff, List.mapM_nil]
    constructor
    · intro h
      cases h
      rfl
    · rintro rfl
      rfl
  | cons a l ih =>
    rw [List.mapM_cons, bind_eq_ok_iff, List.forall₂_cons_left_iff]
    simp only [bind_eq_ok_iff, ih]
    constructor
    · rintro ⟨b, hb, bs, hbs, hout⟩
      cases hout
      exact ⟨b, bs, hb, hbs, rfl⟩
    · rintro ⟨b, bs, hb, hbs, rfl⟩
      exact ⟨b, hb, bs, hbs, rfl⟩

theorem exists_mapM {f : α → Except Fault β} {l : List α} (h : ∀ a ∈ l, ∃ b, f a = .ok b) :
    ∃ out, l.mapM f = .ok out := by
  induction l with
  | nil => exact ⟨[], rfl⟩
  | cons a l ih =>
    obtain ⟨b, hb⟩ := h a List.mem_cons_self
    obtain ⟨out, hout⟩ := ih fun a' hm => h a' (List.mem_cons_of_mem _ hm)
    rw [mapM_eq_ok_iff] at hout
    exact ⟨b :: out, mapM_eq_ok_iff.mpr (.cons hb hout)⟩

theorem mapM_length {f : α → Except Fault β} {l : List α} {out : List β}
    (h : l.mapM f = .ok out) : out.length = l.length := (mapM_eq_ok_iff.mp h).length_eq.symm

theorem exists_of_mem_mapM {f : α → Except Fault β} {l : List α} {out : List β} {b : β}
    (h : l.mapM f = .ok out) (hb : b ∈ out) : ∃ a ∈ l, f a = .ok b := by
  rw [mapM_eq_ok_iff] at h
  induction h with
  | nil => cases hb
  | @cons a b' l out hhead _ ih =>
    rcases List.mem_cons.mp hb with rfl | hb
    · exact ⟨a, List.mem_cons_self, hhead⟩
    · obtain ⟨a', ha', hfa⟩ := ih hb
      exact ⟨a', List.mem_cons_of_mem _ ha', hfa⟩

/-! ## Steps with a state -/

/-- The state that an operation leaves, whether it succeeds or not. -/
def left : EStateM.Result Fault σ α → σ
  | .ok _ s => s
  | .error _ s => s

/-- What an operation answers. -/
def answer : EStateM.Result Fault σ α → Except Fault α
  | .ok a _ => .ok a
  | .error e _ => .error e

/-- The next operation, where the one before succeeds. -/
def andThen (result : EStateM.Result Fault σ Unit) (next : σ → EStateM.Result Fault σ α) :
    EStateM.Result Fault σ α :=
  match result with
  | .ok _ s => next s
  | .error e s => .error e s

@[simp] theorem left_ok (a : α) (s : σ) : left (.ok a s) = s := rfl

@[simp] theorem left_error (e : Fault) (s : σ) :
    left (.error e s : EStateM.Result Fault σ α) = s := rfl

@[simp] theorem answer_ok (a : α) (s : σ) : answer (.ok a s) = .ok a := rfl

@[simp] theorem answer_error (e : Fault) (s : σ) :
    answer (.error e s : EStateM.Result Fault σ α) = .error e := rfl

theorem bind_run_eq_ok_iff {operation : EStateM Fault σ α} {next : α → EStateM Fault σ β} {b : β}
    {s s' : σ} : (operation >>= next) s = .ok b s' ↔
      ∃ a s₁, operation s = .ok a s₁ ∧ next a s₁ = .ok b s' := by
  show EStateM.bind operation next s = .ok b s' ↔ _
  unfold EStateM.bind
  cases operation s <;> simp

theorem bind_run_of_ok {operation : EStateM Fault σ α} {next : α → EStateM Fault σ β} {s s' : σ}
    {a : α} (h : operation s = .ok a s') : (operation >>= next) s = next a s' := by
  show EStateM.bind operation next s = _
  unfold EStateM.bind
  rw [h]

theorem bind_run_of_error {operation : EStateM Fault σ α} {next : α → EStateM Fault σ β} {s s' : σ}
    {e : Fault} (h : operation s = .error e s') : (operation >>= next) s = .error e s' := by
  show EStateM.bind operation next s = _
  unfold EStateM.bind
  rw [h]

/-- The operation keeps a property of the state, whether it succeeds or not. -/
def Keeps (P : σ → Prop) (operation : EStateM Fault σ α) : Prop :=
  ∀ s, P s → P (left (operation s))

theorem Keeps.pure {P : σ → Prop} (a : α) :
    Keeps P (Pure.pure a : EStateM Fault σ α) := fun _ h => h

theorem Keeps.bind {P : σ → Prop} {operation : EStateM Fault σ α} {next : α → EStateM Fault σ β}
    (h : Keeps P operation) (hnext : ∀ a, Keeps P (next a)) : Keeps P (operation >>= next) := by
  intro s hs
  have hafter := h s hs
  show P (left (EStateM.bind operation next s))
  unfold EStateM.bind
  cases hrun : operation s with
  | ok a s' =>
    rw [hrun] at hafter
    exact hnext a s' hafter
  | error e s' =>
    rw [hrun] at hafter
    exact hafter

theorem eq_ok_left {result : EStateM.Result Fault σ Unit} (h : (answer result).isOk = true) :
    result = .ok () (left result) := by
  cases result with
  | ok _ s => rfl
  | error e s => cases h

theorem exists_eq_ok_left {result : EStateM.Result Fault σ α} (h : (answer result).isOk = true) :
    ∃ a, result = .ok a (left result) := by
  cases result with
  | ok a s => exact ⟨a, rfl⟩
  | error e s => cases h

theorem eq_error_left {result : EStateM.Result Fault σ α} {e : Fault}
    (h : answer result = .error e) : result = .error e (left result) := by
  cases result with
  | ok a s => cases h
  | error e' s =>
    cases h
    rfl

theorem andThen_eq_ok_iff {result : EStateM.Result Fault σ Unit}
    {next : σ → EStateM.Result Fault σ α} {a : α} {s : σ} :
    andThen result next = .ok a s ↔ ∃ s', result = .ok () s' ∧ next s' = .ok a s := by
  cases result <;> simp [andThen]

end DroneShow
