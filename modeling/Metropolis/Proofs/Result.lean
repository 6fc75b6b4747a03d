import Mathlib.Tactic.Common
import Metropolis.Engine

/-!
# What a computation answers, and what the answer depends on

`answer` and `leaves` split a result into its answer and the state after it. A computation
`SeesOnly` a view of the state if neither its answer nor what the view shows afterwards changes
when the rest of the state does. The notion is used three times: a likelihood that sees nothing
of the model's memory, an engine computation that sees only the random tape, and a call of a chain
that sees only the stage and the tape.
-/

namespace Metropolis

variable {ε ε' σ τ β γ : Type}

/-- The value or the error of a result. -/
def answer : EStateM.Result ε σ β → Except ε β
  | .ok value _ => .ok value
  | .error cause _ => .error cause

/-- The state that a result leaves. -/
def leaves : EStateM.Result ε σ β → σ
  | .ok _ state => state
  | .error _ state => state

@[simp] theorem answer_ok (value : β) (state : σ) :
    answer (.ok value state : EStateM.Result ε σ β) = .ok value := rfl

@[simp] theorem answer_error (cause : ε) (state : σ) :
    answer (.error cause state : EStateM.Result ε σ β) = .error cause := rfl

@[simp] theorem leaves_ok (value : β) (state : σ) :
    leaves (.ok value state : EStateM.Result ε σ β) = state := rfl

@[simp] theorem leaves_error (cause : ε) (state : σ) :
    leaves (.error cause state : EStateM.Result ε σ β) = state := rfl

theorem answer_eq_ok {r : EStateM.Result ε σ β} {value : β} (h : answer r = .ok value) :
    r = .ok value (leaves r) := by
  cases r <;> cases h
  rfl

theorem answer_eq_error {r : EStateM.Result ε σ β} {cause : ε} (h : answer r = .error cause) :
    r = .error cause (leaves r) := by
  cases r <;> cases h
  rfl

/-! ## Sequences of computations -/

theorem bind_of_ok {x : EStateM ε σ β} {s t : σ} {value : β} (f : β → EStateM ε σ γ)
    (h : x s = .ok value t) : (x >>= f) s = f value t := by
  simp only [bind, EStateM.bind, h]

theorem bind_of_error {x : EStateM ε σ β} {s t : σ} {cause : ε} (f : β → EStateM ε σ γ)
    (h : x s = .error cause t) : (x >>= f) s = .error cause t := by
  simp only [bind, EStateM.bind, h]

theorem bind_get (f : σ → EStateM ε σ β) (s : σ) : (get >>= f) s = f s s := rfl

theorem bind_eq_ok {x : EStateM ε σ β} {f : β → EStateM ε σ γ} {s t : σ} {value : γ}
    (h : (x >>= f) s = .ok value t) :
    ∃ first middle, x s = .ok first middle ∧ f first middle = .ok value t := by
  cases hx : x s with
  | ok first middle =>
    rw [bind_of_ok f hx] at h
    exact ⟨first, middle, rfl, h⟩
  | error cause middle =>
    rw [bind_of_error f hx] at h
    cases h

theorem bind_eq_error {x : EStateM ε σ β} {f : β → EStateM ε σ γ} {s t : σ} {cause : ε}
    (h : (x >>= f) s = .error cause t) :
    x s = .error cause t ∨
      ∃ first middle, x s = .ok first middle ∧ f first middle = .error cause t := by
  cases hx : x s with
  | ok first middle =>
    rw [bind_of_ok f hx] at h
    exact .inr ⟨first, middle, rfl, h⟩
  | error cause middle =>
    rw [bind_of_error f hx] at h
    cases h
    exact .inl rfl

theorem ofExcept_eq_ok {x : Except ε β} {s t : σ} {value : β}
    (h : (MonadExcept.ofExcept x : EStateM ε σ β) s = .ok value t) : x = .ok value ∧ t = s := by
  cases x with
  | ok value => cases h; exact ⟨rfl, rfl⟩
  | error cause => cases h

theorem ofExcept_eq_error {x : Except ε β} {s t : σ} {cause : ε}
    (h : (MonadExcept.ofExcept x : EStateM ε σ β) s = .error cause t) :
    x = .error cause ∧ t = s := by
  cases x with
  | ok value => cases h
  | error cause => cases h; exact ⟨rfl, rfl⟩

theorem mapError_eq_ok {x : Except ε β} {g : ε → ε'} {value : β}
    (h : x.mapError g = .ok value) : x = .ok value := by
  cases x <;> cases h
  rfl

theorem bind_ofExcept (value : β) (f : β → EStateM ε σ γ) (s : σ) :
    ((MonadExcept.ofExcept (.ok value) : EStateM ε σ β) >>= f) s = f value s := rfl

theorem adaptExcept_of_ok {x : EStateM ε σ β} {s t : σ} {value : β} (g : ε → ε')
    (h : x s = .ok value t) : EStateM.adaptExcept g x s = .ok value t := by
  unfold EStateM.adaptExcept
  rw [h]

theorem adaptExcept_of_error {x : EStateM ε σ β} {s t : σ} {cause : ε} (g : ε → ε')
    (h : x s = .error cause t) : EStateM.adaptExcept g x s = .error (g cause) t := by
  unfold EStateM.adaptExcept
  rw [h]

/-! ## Computations that see only a part of the state -/

/-- Whether only what `view` shows of a state matters to a computation. -/
def SeesOnly (view : σ → τ) (x : EStateM ε σ β) : Prop :=
  ∀ ⦃s t⦄, view s = view t →
    answer (x s) = answer (x t) ∧ view (leaves (x s)) = view (leaves (x t))

namespace SeesOnly

variable {view : σ → τ}

theorem pure (value : β) : SeesOnly view (pure value : EStateM ε σ β) :=
  fun _ _ h => ⟨rfl, h⟩

theorem throw (cause : ε) : SeesOnly view (throw cause : EStateM ε σ β) :=
  fun _ _ h => ⟨rfl, h⟩

theorem ofExcept (x : Except ε β) : SeesOnly view (MonadExcept.ofExcept x : EStateM ε σ β) := by
  cases x with
  | ok value => exact pure value
  | error cause => exact throw cause

/-- From states that look the same, either both computations succeed with one value or both fail
with one error, and the states look the same again. -/
theorem cases {x : EStateM ε σ β} (hx : SeesOnly view x) {s t : σ} (h : view s = view t) :
    (∃ value s' t', x s = .ok value s' ∧ x t = .ok value t' ∧ view s' = view t') ∨
      ∃ cause s' t', x s = .error cause s' ∧ x t = .error cause t' ∧ view s' = view t' := by
  obtain ⟨hanswer, hview⟩ := hx h
  cases hs : x s with
  | ok value s' =>
    rw [hs] at hanswer hview
    exact .inl ⟨value, s', leaves (x t), rfl, answer_eq_ok hanswer.symm, hview⟩
  | error cause s' =>
    rw [hs] at hanswer hview
    exact .inr ⟨cause, s', leaves (x t), rfl, answer_eq_error hanswer.symm, hview⟩

theorem bind {x : EStateM ε σ β} {f : β → EStateM ε σ γ} (hx : SeesOnly view x)
    (hf : ∀ value, SeesOnly view (f value)) : SeesOnly view (x >>= f) := by
  intro s t h
  -- Both go on, with one value and from states that look the same, or neither does.
  obtain ⟨value, s', t', hs, ht, hview⟩ | ⟨cause, s', t', hs, ht, hview⟩ := hx.cases h
  · rw [bind_of_ok f hs, bind_of_ok f ht]
    exact hf value hview
  · rw [bind_of_error f hs, bind_of_error f ht]
    exact ⟨rfl, hview⟩

theorem adaptExcept (g : ε → ε') {x : EStateM ε σ β} (hx : SeesOnly view x) :
    SeesOnly view (EStateM.adaptExcept g x) := by
  intro s t h
  unfold EStateM.adaptExcept
  obtain ⟨value, s', t', hs, ht, hview⟩ | ⟨cause, s', t', hs, ht, hview⟩ := hx.cases h
  · simp only [hs, ht]
    exact ⟨rfl, hview⟩
  · simp only [hs, ht]
    exact ⟨rfl, hview⟩

end SeesOnly

/-! ## Engine computations that see only the tape -/

variable {α : Type}

theorem Engine.seesOnly_ofModel {x : EStateM (Error α) σ β}
    (hx : ∀ memory memory', answer (x memory) = answer (x memory')) :
    SeesOnly World.tape (Engine.ofModel x : Engine α σ β) := by
  intro w w' h
  have hanswer := hx w.memory w'.memory
  unfold Engine.ofModel
  cases hw : x w.memory <;> cases hw' : x w'.memory <;> rw [hw, hw'] at hanswer <;>
    cases hanswer <;> exact ⟨rfl, h⟩

theorem Engine.seesOnly_ofSampling (x : Sampling α β) :
    SeesOnly World.tape (Engine.ofSampling x : Engine α σ β) := by
  intro w w' h
  simp only [Engine.ofSampling_apply, answer_ok, leaves_ok, h, and_self]

end Metropolis
