import Mathlib.Data.List.Basic

/-!
# Lockstep

Two stores on which one program runs. In `Lockstep f g f' g'` the runs lead from `f` to `f'` and from
`g` to `g'`, and at every cell they write the same value or neither writes. A program that does not
read what it did not write runs so on any two stores, and then it can be repeated: the second run
ends where it starts (`Lockstep.fixed`).
-/

variable {ι α β γ : Type*}

/-- At each cell the two runs write the same value, or neither writes. -/
def Lockstep (f g f' g' : ι → α) : Prop := ∀ i, f' i = g' i ∨ f' i = f i ∧ g' i = g i

namespace Lockstep

variable {f g f' g' f'' g'' : ι → α}

theorem refl (f g : ι → α) : Lockstep f g f g := fun _ => .inr ⟨rfl, rfl⟩

theorem trans (h : Lockstep f g f' g') (h' : Lockstep f' g' f'' g'') : Lockstep f g f'' g'' := by
  intro i
  rcases h' i with e | ⟨ef, eg⟩
  · exact .inl e
  · rw [ef, eg]
    exact h i

/-- A cell that is the same stays the same. -/
theorem keep (h : Lockstep f g f' g') {i : ι} (hi : f i = g i) : f' i = g' i := by
  rcases h i with e | ⟨ef, eg⟩
  · exact e
  · rw [ef, eg, hi]

/-- The run on its own result changes nothing. -/
theorem fixed (h : Lockstep f f' f' g') : g' = f' := by
  funext i
  rcases h i with e | ⟨-, eg⟩
  · exact e.symm
  · exact eg

/-- Two loops that stay related. -/
theorem foldlM {I : α → β → Prop} {v : α → γ → Option α} {w : β → γ → Option β} (l : List γ)
    {a a' : α} {b : β}
    (hv : ∀ {e e' u x}, x ∈ l → I e u → v e x = some e' → ∃ u', w u x = some u' ∧ I e' u')
    (hI : I a b) (h : l.foldlM v a = some a') : ∃ b', l.foldlM w b = some b' ∧ I a' b' := by
  induction l generalizing a b with
  | nil =>
    cases h
    exact ⟨b, rfl, hI⟩
  | cons x l ih =>
    rw [List.foldlM_cons, Option.bind_eq_bind, Option.bind_eq_some_iff] at h
    obtain ⟨e, hx, hl⟩ := h
    obtain ⟨u, hu, hI⟩ := hv (List.mem_cons_self ..) hI hx
    obtain ⟨b', hb, hI⟩ := ih (fun hx => hv (.tail _ hx)) hI hl
    exact ⟨b', by rw [List.foldlM_cons, hu, Option.bind_eq_bind, Option.bind_some, hb], hI⟩

end Lockstep
