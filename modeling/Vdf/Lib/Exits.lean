import Mathlib.Logic.Basic

/-!
# Programs that stop early

`EStateM ε σ` is the monad of programs over a state `σ` that return, or stop with an `ε` from
wherever they are; the state is kept then. `Exits x s Q E`: from `s` the program `x` returns with `Q`,
or stops with `E`. The rules follow the constructors and the bind.
-/

universe u

variable {ε σ α β : Type u}

/-- The program returns a value and a state with `Q`, or stops with `E`. -/
def Exits (x : EStateM ε σ α) (s : σ) (Q : α → σ → Prop) (E : ε → σ → Prop) : Prop :=
  match x s with
  | .ok a s' => Q a s'
  | .error e s' => E e s'

namespace Exits

section Rules

variable {x : EStateM ε σ α} {f : α → EStateM ε σ β} {s : σ} {Q Q' : α → σ → Prop}
  {R : β → σ → Prop} {E E' : ε → σ → Prop}

theorem pure {a : α} (h : Q a s) : Exits (Pure.pure a : EStateM ε σ α) s Q E := h

theorem throw {e : ε} (h : E e s) : Exits (MonadExcept.throw e : EStateM ε σ α) s Q E := h

theorem get {Q : σ → σ → Prop} (h : Q s s) : Exits (MonadState.get : EStateM ε σ σ) s Q E := h

theorem modifyGet {g : σ → α × σ} (h : Q (g s).1 (g s).2) :
    Exits (MonadState.modifyGet g : EStateM ε σ α) s Q E := h

theorem bind (hx : Exits x s Q E) (hf : ∀ a s', Q a s' → Exits (f a) s' R E) :
    Exits (x >>= f) s R E := by
  unfold Exits at hx ⊢
  rw [show (x >>= f) s = EStateM.bind x f s from rfl, EStateM.bind]
  cases h : x s with
  | ok a s' => rw [h] at hx; exact hf a s' hx
  | error e s' => rw [h] at hx; exact hx

theorem mono (hx : Exits x s Q E) (hQ : ∀ a s', Q a s' → Q' a s') (hE : ∀ e s', E e s' → E' e s') :
    Exits x s Q' E' := by
  unfold Exits at hx ⊢
  cases h : x s with
  | ok a s' => rw [h] at hx; exact hQ a s' hx
  | error e s' => rw [h] at hx; exact hE e s' hx

/-- A run that is that of another program. -/
theorem of_eq {y : EStateM ε σ α} {s₁ : σ} (h : x s = y s₁) (hy : Exits y s₁ Q E) :
    Exits x s Q E := by
  unfold Exits at hy ⊢
  rwa [h]

theorem of_ok {a : α} {s₁ : σ} (h : x s = .ok a s₁) (hQ : Q a s₁) : Exits x s Q E := by
  unfold Exits
  rwa [h]

theorem of_error {e : ε} {s₁ : σ} (h : x s = .error e s₁) (hE : E e s₁) : Exits x s Q E := by
  unfold Exits
  rwa [h]

/-- What is known of a run, from two sides. -/
theorem both (h : Exits x s Q E) (h' : Exits x s Q' E') {P : Prop}
    (hQ : ∀ a s', Q a s' → Q' a s' → P) (hE : ∀ e s', E e s' → E' e s' → P) : P := by
  unfold Exits at h h'
  cases hx : x s with
  | ok a s' => rw [hx] at h h'; exact hQ a s' h h'
  | error e s' => rw [hx] at h h'; exact hE e s' h h'

end Rules

-- The rules are all that is used: a run is not evaluated to see what it exits with.
attribute [irreducible] Exits

/-! ## Runs that are known -/

section Runs

variable {x : EStateM ε σ α} {f : α → EStateM ε σ β} {s s' : σ}

theorem bind_ok {a : α} (h : x s = .ok a s') : (x >>= f) s = f a s' := by
  rw [show (x >>= f) s = EStateM.bind x f s from rfl, EStateM.bind, h]

theorem get_bind {f : σ → EStateM ε σ β} : (MonadState.get >>= f) s = f s s := rfl

theorem modify_bind {g : σ → σ} {f : PUnit → EStateM ε σ β} :
    ((modify g : EStateM ε σ PUnit) >>= f) s = f ⟨⟩ (g s) := rfl

theorem bind_error {e : ε} (h : x s = .error e s') : (x >>= f) s = .error e s' := by
  rw [show (x >>= f) s = EStateM.bind x f s from rfl, EStateM.bind, h]

/-- A sequence returns where both parts return. -/
theorem bind_eq_ok {b : β} : (x >>= f) s = .ok b s' ↔
    ∃ a s₁, x s = .ok a s₁ ∧ f a s₁ = .ok b s' := by
  rw [show (x >>= f) s = EStateM.bind x f s from rfl, EStateM.bind]
  cases h : x s with
  | ok a s₁ =>
    constructor
    · exact fun hf => ⟨a, s₁, rfl, hf⟩
    · rintro ⟨a', s₁', e, hf⟩
      cases e
      exact hf
  | error e s₁ => simp

end Runs

end Exits
