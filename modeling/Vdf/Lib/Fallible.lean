import Mathlib.Logic.Basic

/-!
# Fallible programs

`Ends x P E`: the value of `x` satisfies `P`, or its error satisfies `E`. The rules follow the
constructors and the bind, so that a program is taken apart along its `do` block.
-/

universe u

variable {ε : Type*} {α β : Type u}

/-- The program returns a value with `P`, or fails with an error with `E`. -/
def Ends (x : Except ε α) (P : α → Prop) (E : ε → Prop) : Prop :=
  match x with
  | .ok a => P a
  | .error e => E e

namespace Ends

variable {x : Except ε α} {f : α → Except ε β} {P P' : α → Prop} {Q : β → Prop} {E : ε → Prop}

theorem ok {a : α} (h : P a) : Ends (.ok a : Except ε α) P E := h

theorem error {e : ε} (h : E e) : Ends (.error e : Except ε α) P E := h

theorem bind (hx : Ends x P E) (hf : ∀ a, P a → Ends (f a) Q E) : Ends (x >>= f) Q E := by
  cases x with
  | ok a => exact hf a hx
  | error e => exact hx

theorem map {g : α → β} (hx : Ends x P E) (hg : ∀ a, P a → Q (g a)) : Ends (x.map g) Q E := by
  cases x with
  | ok a => exact hg a hx
  | error e => exact hx

theorem mono (hx : Ends x P E) (h : ∀ a, P a → P' a) : Ends x P' E := by
  cases x with
  | ok a => exact h a hx
  | error e => exact hx

/-- Nothing is said of the value or the error. -/
theorem any (x : Except ε α) : Ends x (fun _ => True) fun _ => True := by
  cases x <;> trivial

/-- An error without `E` does not occur. -/
theorem ne_error {e : ε} (hx : Ends x P E) (he : ¬ E e) : x ≠ .error e := by
  rintro rfl
  exact he hx

end Ends
