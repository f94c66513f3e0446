import Mathlib.Data.List.Perm.Basic
import Mathlib.Data.List.Sort

/-!
# The contract of `qsort`

The result is a permutation of the input. It is in order only if the comparison function orders
the elements: for a comparison that is not consistent any permutation may come out, and elements
that compare equal come out in any order. A program that is proved for every `Lawful` function
is right for every implementation.
-/

namespace Qsort

variable {α : Type*}

/-- `cmp` orders the elements of `l`. -/
structure Consistent (cmp : α → α → Int) (l : List α) : Prop where
  symm : ∀ a ∈ l, ∀ b ∈ l, cmp a b ≤ 0 ↔ 0 ≤ cmp b a
  trans : ∀ a ∈ l, ∀ b ∈ l, ∀ c ∈ l, cmp a b ≤ 0 → cmp b c ≤ 0 → cmp a c ≤ 0

/-- `r` is a result that `qsort` may give for `l`. -/
structure Result (cmp : α → α → Int) (l r : List α) : Prop where
  perm : r.Perm l
  sorted : Consistent cmp l → r.Pairwise fun a b => cmp a b ≤ 0

/-- `qsort` keeps the contract on every array. -/
def Lawful (cmp : α → α → Int) (qsort : List α → List α) : Prop := ∀ l, Result cmp l (qsort l)

variable {cmp : α → α → Int} {l r : List α}

theorem Consistent.total (h : Consistent cmp l) {a b : α} (ha : a ∈ l) (hb : b ∈ l) :
    cmp a b ≤ 0 ∨ cmp b a ≤ 0 := by
  rcases le_total (cmp a b) 0 with hab | hab
  · exact .inl hab
  · exact .inr ((h.symm b hb a ha).mpr hab)

/-- Every array has a result. -/
theorem exists_result (cmp : α → α → Int) (l : List α) : ∃ r, Result cmp l r := by
  by_cases h : Consistent cmp l
  · let le : {x // x ∈ l} → {x // x ∈ l} → Bool := fun a b => decide (cmp a.1 b.1 ≤ 0)
    have hsort : (l.attach.mergeSort le).Pairwise fun a b => le a b = true := by
      apply List.pairwise_mergeSort
      · intro a b c hab hbc
        simp only [le, decide_eq_true_eq] at hab hbc ⊢
        exact h.trans _ a.2 _ b.2 _ c.2 hab hbc
      · intro a b
        simp only [le, Bool.or_eq_true, decide_eq_true_eq]
        exact h.total a.2 b.2
    refine ⟨(l.attach.mergeSort le).map Subtype.val, ?_, fun _ => ?_⟩
    · have hp := (List.mergeSort_perm l.attach le).map Subtype.val
      rwa [List.attach_map_subtype_val] at hp
    · rw [List.pairwise_map]
      exact hsort.imp fun hab => of_decide_eq_true hab
  · exact ⟨l, .refl l, fun hc => absurd hc h⟩

/-- Every result is the result of a lawful function. -/
theorem Result.exists_lawful (h : Result cmp l r) : ∃ qsort, Lawful cmp qsort ∧ qsort l = r := by
  classical
  choose sort hsort using exists_result cmp
  refine ⟨fun x => if x = l then r else sort x, fun x => ?_, if_pos rfl⟩
  by_cases hx : x = l
  · simpa only [hx, ↓reduceIte] using h
  · simpa only [hx, ↓reduceIte] using hsort x

theorem exists_lawful (cmp : α → α → Int) : ∃ qsort, Lawful cmp qsort := by
  obtain ⟨r, hr⟩ := exists_result cmp []
  obtain ⟨qsort, hq, -⟩ := hr.exists_lawful
  exact ⟨qsort, hq⟩

/-- Without an order the reverse of a result is a result. -/
theorem Result.reverse (h : Result cmp l r) (hc : ¬ Consistent cmp l) : Result cmp l r.reverse :=
  ⟨r.reverse_perm.trans h.perm, fun hc' => absurd hc' hc⟩

/-- Neighbours that compare equal may be exchanged. -/
theorem Result.swap {s t : List α} {a b : α} (h : Result cmp l (s ++ a :: b :: t))
    (hba : cmp b a ≤ 0) : Result cmp l (s ++ b :: a :: t) := by
  refine ⟨(List.Perm.append_left s (List.Perm.swap a b t)).trans h.perm, fun hc => ?_⟩
  have hs := h.sorted hc
  rw [List.pairwise_append, List.pairwise_cons, List.pairwise_cons] at hs ⊢
  obtain ⟨h1, ⟨h2, h3, h4⟩, h5⟩ := hs
  refine ⟨h1, ⟨?_, fun x hx => h2 x (List.mem_cons_of_mem _ hx), h4⟩, ?_⟩
  · intro x hx
    rcases List.mem_cons.mp hx with rfl | hx
    · exact hba
    · exact h3 x hx
  · intro x hx y hy
    refine h5 x hx y ?_
    simp only [List.mem_cons] at hy ⊢
    tauto

theorem Result.eq_nil (h : Result cmp [] r) : r = [] := List.Perm.eq_nil h.perm

end Qsort
