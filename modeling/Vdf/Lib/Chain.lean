import Mathlib.Algebra.GroupWithZero.Nat
import Mathlib.Algebra.BigOperators.Group.List.Basic
import Mathlib.Data.List.Chain
import Mathlib.Order.Monotone.Defs

/-!
# Consecutive intervals

`Chain lo hi a l b`: the intervals `[lo x, hi x)` of the list `l` follow each other without a gap
from `a` to `b`. So they are sorted and disjoint, each point of `[a, b)` lies in one of them, and
their lengths add up to `b - a`. The bounds of a chain with the same intervals, taken in another
sorted order, are the same as long as an empty interval does not come before another one
(`Chain.hi_eq_of_lo_eq`, `Chain.map_eq_of_sorted`).
-/

/-- The intervals of `l` lead from `a` to `b`. -/
def Chain {α : Type*} (lo hi : α → Nat) : Nat → List α → Nat → Prop
  | a, [], b => a = b
  | a, x :: l, b => lo x = a ∧ lo x ≤ hi x ∧ Chain lo hi (hi x) l b

namespace Chain

variable {α : Type*} {lo hi : α → Nat} {a b : Nat} {l r : List α}

@[simp] theorem nil_iff : Chain lo hi a [] b ↔ a = b := Iff.rfl

@[simp] theorem cons_iff {x : α} :
    Chain lo hi a (x :: l) b ↔ lo x = a ∧ lo x ≤ hi x ∧ Chain lo hi (hi x) l b := Iff.rfl

theorem append_iff {m : List α} :
    Chain lo hi a (l ++ m) b ↔ ∃ c, Chain lo hi a l c ∧ Chain lo hi c m b := by
  induction l generalizing a with
  | nil => simp
  | cons x l ih =>
    simp only [List.cons_append, cons_iff, ih]
    constructor
    · rintro ⟨h1, h2, c, h3, h4⟩
      exact ⟨c, ⟨h1, h2, h3⟩, h4⟩
    · rintro ⟨c, ⟨h1, h2, h3⟩, h4⟩
      exact ⟨h1, h2, c, h3, h4⟩

theorem le (h : Chain lo hi a l b) : a ≤ b := by
  induction l generalizing a with
  | nil => exact Nat.le_of_eq h
  | cons x l ih =>
    obtain ⟨h1, h2, h3⟩ := h
    have := ih h3
    omega

theorem mem (h : Chain lo hi a l b) {x : α} (hx : x ∈ l) : a ≤ lo x ∧ lo x ≤ hi x ∧ hi x ≤ b := by
  induction l generalizing a with
  | nil => cases hx
  | cons y l ih =>
    obtain ⟨h1, h2, h3⟩ := h
    rcases List.mem_cons.mp hx with rfl | hx
    · exact ⟨h1.ge, h2, h3.le⟩
    · have := ih h3 hx
      omega

/-- An earlier interval ends before a later one starts. -/
theorem pairwise (h : Chain lo hi a l b) : l.Pairwise fun x y => hi x ≤ lo y := by
  induction l generalizing a with
  | nil => exact .nil
  | cons x l ih =>
    obtain ⟨-, -, h3⟩ := h
    exact List.pairwise_cons.mpr ⟨fun y hy => (h3.mem hy).1, ih h3⟩

theorem sorted (h : Chain lo hi a l b) : l.Pairwise fun x y => lo x ≤ lo y :=
  h.pairwise.imp_of_mem fun hx _ hxy => Nat.le_trans (h.mem hx).2.1 hxy

theorem sum (h : Chain lo hi a l b) : a + (l.map fun x => hi x - lo x).sum = b := by
  induction l generalizing a with
  | nil => simpa using h
  | cons x l ih =>
    obtain ⟨h1, h2, h3⟩ := h
    have := ih h3
    simp only [List.map_cons, List.sum_cons]
    omega

/-- Every point lies in an interval. -/
theorem exists_mem (h : Chain lo hi a l b) {p : Nat} (h1 : a ≤ p) (h2 : p < b) :
    ∃ x ∈ l, lo x ≤ p ∧ p < hi x := by
  induction l generalizing a with
  | nil => have : a = b := h; omega
  | cons x l ih =>
    obtain ⟨h3, h4, h5⟩ := h
    by_cases hp : p < hi x
    · exact ⟨x, List.mem_cons_self .., by omega, hp⟩
    · obtain ⟨y, hy, hlt⟩ := ih h5 (by omega)
      exact ⟨y, List.mem_cons_of_mem _ hy, hlt⟩

/-- The chain split at the interval that holds `p`. -/
theorem split (h : Chain lo hi a l b) {p : Nat} (h1 : a ≤ p) (h2 : p < b) :
    ∃ s x t, l = s ++ x :: t ∧ lo x ≤ p ∧ p < hi x ∧ (∀ y ∈ s, hi y ≤ p) ∧
      Chain lo hi (hi x) t b := by
  induction l generalizing a with
  | nil => have : a = b := h; omega
  | cons x l ih =>
    obtain ⟨h3, h4, h5⟩ := h
    by_cases hp : p < hi x
    · exact ⟨[], x, l, rfl, by omega, hp, nofun, h5⟩
    · obtain ⟨s, y, t, rfl, h6, h7, h8, h9⟩ := ih h5 (by omega)
      refine ⟨x :: s, y, t, rfl, h6, h7, fun z hz => ?_, h9⟩
      rcases List.mem_cons.mp hz with rfl | hz
      · omega
      · exact h8 z hz

/-- A chain by its neighbours. -/
theorem of_isChain (hle : ∀ x ∈ l, lo x ≤ hi x) (hc : l.IsChain fun x y => hi x = lo y)
    (hhead : ∀ x ∈ l.head?, lo x = a) (hlast : ∀ x ∈ l.getLast?, hi x = b) (hnil : l = [] → a = b) :
    Chain lo hi a l b := by
  induction l generalizing a with
  | nil => exact hnil rfl
  | cons x l ih =>
    refine ⟨hhead x rfl, hle x (List.mem_cons_self ..), ih (fun y hy => hle y (.tail _ hy)) hc.tail ?_ ?_ ?_⟩
    · intro y hy; exact (hc.rel_head? hy).symm
    · intro y hy
      apply hlast y
      cases l with
      | nil => cases hy
      | cons z l => simpa using hy
    · rintro rfl; exact hlast x rfl

theorem isChain (h : Chain lo hi a l b) : l.IsChain fun x y => hi x = lo y := by
  induction l generalizing a with
  | nil => exact .nil
  | cons x l ih =>
    obtain ⟨-, -, h3⟩ := h
    refine (ih h3).cons fun y hy => ?_
    cases l with
    | nil => cases hy
    | cons z l => cases hy; exact h3.1.symm

theorem head (h : Chain lo hi a l b) : ∀ x ∈ l.head?, lo x = a := by
  intro x hx
  cases l with
  | nil => cases hx
  | cons y l => cases hx; exact h.1

theorem last (h : Chain lo hi a l b) : ∀ x ∈ l.getLast?, hi x = b := by
  intro x hx
  obtain ⟨m, rfl⟩ := List.getLast?_eq_some_iff.mp hx
  obtain ⟨c, -, h2⟩ := append_iff.mp h
  exact h2.2.2

/-- A chain depends on the bounds only. -/
theorem congr {β : Type*} {lo' hi' : β → Nat} {m : List β}
    (he : (l.map fun x => (lo x, hi x)) = m.map fun x => (lo' x, hi' x)) :
    Chain lo hi a l b ↔ Chain lo' hi' a m b := by
  induction l generalizing a m with
  | nil =>
    cases m with
    | nil => exact Iff.rfl
    | cons y m => cases he
  | cons x l ih =>
    cases m with
    | nil => cases he
    | cons y m =>
      simp only [List.map_cons, List.cons.injEq, Prod.mk.injEq] at he
      obtain ⟨⟨e1, e2⟩, e3⟩ := he
      rw [cons_iff, cons_iff, e1, e2, ih e3]

/-- A monotone change of units. -/
theorem map {φ : Nat → Nat} (hφ : Monotone φ) (h : Chain lo hi a l b) :
    Chain (φ ∘ lo) (φ ∘ hi) (φ a) l (φ b) := by
  induction l generalizing a with
  | nil => exact congrArg φ h
  | cons x l ih => exact ⟨congrArg φ h.1, hφ h.2.1, ih h.2.2⟩

/-- Bounds that agree on the elements of `l`. -/
theorem congr_mem {lo' hi' : α → Nat} (he : ∀ x ∈ l, lo x = lo' x ∧ hi x = hi' x) :
    Chain lo hi a l b ↔ Chain lo' hi' a l b :=
  congr (List.map_congr_left fun x hx => by rw [(he x hx).1, (he x hx).2])

theorem map_iff {β : Type*} {f : β → α} {m : List β} :
    Chain lo hi a (m.map f) b ↔ Chain (lo ∘ f) (hi ∘ f) a m b :=
  congr (by simp only [List.map_map]; rfl)

/-- The non-empty intervals of a chain are a chain. -/
theorem filter (h : Chain lo hi a l b) :
    Chain lo hi a (l.filter fun x => decide (lo x < hi x)) b := by
  induction l generalizing a with
  | nil => exact h
  | cons x l ih =>
    obtain ⟨h1, h2, h3⟩ := h
    have h4 := ih h3
    by_cases hx : lo x < hi x
    · rw [List.filter_cons_of_pos (by simpa using hx)]
      exact ⟨h1, h2, h4⟩
    · rw [List.filter_cons_of_neg (by simpa using hx)]
      have e : hi x = a := by omega
      rwa [e] at h4

/-! ## Other orders of the intervals -/

/-- When empty intervals come last, intervals with the same start are the same. -/
theorem hi_eq_of_lo_eq (h : Chain lo hi a l b)
    (hz : l.Pairwise fun x y => lo x = hi x → lo y = hi y) {x y : α} (hx : x ∈ l) (hy : y ∈ l)
    (he : lo x = lo y) : hi x = hi y := by
  have hp : l.Pairwise fun x y => lo x = lo y → hi x = hi y := by
    refine (h.pairwise.and hz).imp_of_mem fun hu hv ⟨h1, h2⟩ e => ?_
    have hlo := (h.mem hu).2.1
    have := h2 (by omega)
    omega
  refine hp.forall_of_forall_of_flip (fun _ _ _ => rfl) (hp.imp fun h e => ?_) hx hy he
  exact (h e.symm).symm

/-- Two sorted orders of the same elements agree on what the start determines. -/
theorem map_eq_of_sorted {β : Type*} {key : α → β} (hp : r.Perm l)
    (hl : l.Pairwise fun x y => lo x ≤ lo y) (hr : r.Pairwise fun x y => lo x ≤ lo y)
    (hk : ∀ x ∈ l, ∀ y ∈ l, lo x = lo y → key x = key y) : r.map key = l.map key := by
  have he : (r.map fun x => (lo x, key x)) = l.map fun x => (lo x, key x) := by
    have hr' : (r.map fun x => (lo x, key x)).Pairwise fun p q => p.1 ≤ q.1 :=
      List.pairwise_map.mpr hr
    have hl' : (l.map fun x => (lo x, key x)).Pairwise fun p q => p.1 ≤ q.1 :=
      List.pairwise_map.mpr hl
    refine List.Perm.eq_of_pairwise (fun p q hp' hq hpq hqp => ?_) hr' hl' (hp.map _)
    obtain ⟨x, hx, rfl⟩ := List.mem_map.mp hp'
    obtain ⟨y, hy, rfl⟩ := List.mem_map.mp hq
    have e : lo x = lo y := Nat.le_antisymm hpq hqp
    rw [e, hk x (hp.mem_iff.mp hx) y hy e]
  have := congrArg (List.map Prod.snd) he
  simpa only [List.map_map, Function.comp_def] using this

/-- Two elements stand in one order or the other. -/
theorem pairwise_either {R : α → α → Prop} (h : l.Pairwise R) {x y : α} (hx : x ∈ l)
    (hy : y ∈ l) : x = y ∨ R x y ∨ R y x := by
  refine List.Pairwise.forall_of_forall_of_flip (R := fun x y => x = y ∨ R x y ∨ R y x)
    (fun _ _ => .inl rfl) (h.imp fun hr => .inr (.inl hr)) (h.imp fun hr => ?_) hx hy
  exact .inr (.inr hr)

/-- Only one interval holds a point. -/
theorem eq_of_mem (h : Chain lo hi a l b) {x y : α} (hx : x ∈ l) (hy : y ∈ l) {p : Nat}
    (h1 : lo x ≤ p) (h2 : p < hi x) (h3 : lo y ≤ p) (h4 : p < hi y) : x = y := by
  rcases pairwise_either h.pairwise hx hy with e | e | e
  · exact e
  · omega
  · omega

/-- Either the elements with `p` come last, or one of them stands right before one without. -/
theorem pairwise_or_exists (p : α → Prop) (l : List α) :
    (l.Pairwise fun x y => p x → p y) ∨ ∃ s x y t, l = s ++ x :: y :: t ∧ p x ∧ ¬ p y := by
  induction l with
  | nil => exact .inl .nil
  | cons x l ih =>
    rcases ih with h | ⟨s, y, z, t, rfl, h⟩
    · by_cases hx : p x
      · cases l with
        | nil => exact .inl (List.pairwise_singleton _ _)
        | cons y l =>
          by_cases hy : p y
          · left
            refine List.pairwise_cons.mpr ⟨fun z hz _ => ?_, h⟩
            rcases List.mem_cons.mp hz with rfl | hz
            · exact hy
            · exact (List.pairwise_cons.mp h).1 z hz hy
          · exact .inr ⟨[], x, y, l, rfl, hx, hy⟩
      · exact .inl (List.pairwise_cons.mpr ⟨fun _ _ h => absurd h hx, h⟩)
    · exact .inr ⟨x :: s, y, z, t, rfl, h⟩

end Chain
