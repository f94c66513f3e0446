import Mathlib.Logic.Basic

/-!
# Requests over consecutive regions

Units that are numbered from 0 on are cut into regions, and each region has a generator that serves
a run of its units by a step on a state, or does not. A request for the `n` units from `s` on is
served region by region (`serve`). When every generator does to the state what a view `V` of the
units does, and `V` of a run is `V` of its two parts, a request does what `V` does (`serve_view`).
-/

variable {σ : Type*}

/-- A region ends before unit `hi`, and `gen u want` serves `want` units from unit `u` on. -/
structure Region (σ : Type*) where
  hi : Nat
  gen : (u want : Nat) → σ → Option σ

namespace Region

variable {r r' : Region σ} {lo s n : Nat} {x : σ}

/-- The part of a request that is in a region from `lo` on. -/
def part (r : Region σ) (lo s n : Nat) (x : σ) : Option σ :=
  if max s lo < min (s + n) r.hi then r.gen (max s lo) (min (s + n) r.hi - max s lo) x else some x

theorem part_pos (h : max s lo < min (s + n) r.hi) : r.part lo s n =
    r.gen (max s lo) (min (s + n) r.hi - max s lo) := funext fun _ => if_pos h

theorem part_none (h : min (s + n) r.hi ≤ max s lo) : r.part lo s n = some :=
  funext fun _ => if_neg (Nat.not_lt.mpr h)

/-- The generator of a region from `lo` on does with its part of a request what `V` does. -/
def Views (V : Nat → Nat → σ → σ) (s n lo : Nat) (r : Region σ) : Prop :=
  max s lo < min (s + n) r.hi → ∀ x, r.gen (max s lo) (min (s + n) r.hi - max s lo) x =
    some (V (max s lo) (min (s + n) r.hi - max s lo) x)

end Region

namespace Regions

variable {lo s n : Nat} {l l' : List (Region σ)} {x : σ} {V : Nat → Nat → σ → σ}

/-- The regions `l` follow each other from `lo` on. -/
def Ordered : Nat → List (Region σ) → Prop
  | _, [] => True
  | lo, r :: l => lo ≤ r.hi ∧ Ordered r.hi l

/-- The end of the last region. -/
def fin : Nat → List (Region σ) → Nat
  | lo, [] => lo
  | _, r :: l => fin r.hi l

/-- A request is served region by region. -/
def serve : Nat → List (Region σ) → (s n : Nat) → σ → Option σ
  | _, [], _, _, x => some x
  | lo, r :: l, s, n, x => (r.part lo s n x).bind (serve r.hi l s n)

/-- Every generator does with its part of a request what `V` does. -/
def Views (V : Nat → Nat → σ → σ) (s n : Nat) : Nat → List (Region σ) → Prop
  | _, [] => True
  | lo, r :: l => r.Views V s n lo ∧ Views V s n r.hi l

/-! ## Appending regions -/

theorem ordered_append : Ordered lo (l ++ l') ↔ Ordered lo l ∧ Ordered (fin lo l) l' := by
  induction l generalizing lo with
  | nil => simp only [List.nil_append, Ordered, fin, true_and]
  | cons r l ih => simp only [List.cons_append, Ordered, fin, ih, and_assoc]

theorem serve_append :
    serve lo (l ++ l') s n x = (serve lo l s n x).bind (serve (fin lo l) l' s n) := by
  induction l generalizing lo x with
  | nil => rfl
  | cons r l ih =>
    simp only [List.cons_append, serve, fin, Option.bind_assoc, funext fun y => @ih r.hi y]

/-! ## What a request does -/

/-- Nothing is asked of the regions behind a request. -/
theorem serve_behind (ho : Ordered lo l) (h : s + n ≤ lo) : serve lo l s n = some := by
  induction l generalizing lo with
  | nil => rfl
  | cons r l ih =>
    funext x
    rw [serve, Region.part_none (by omega), Option.bind_some, ih ho.2 (Nat.le_trans h ho.1)]

/-- A request does what the view of its units does. -/
theorem serve_view (hzero : ∀ u x, V u 0 x = x)
    (hadd : ∀ u a b x, s ≤ u → V u (a + b) x = V (u + a) b (V u a x)) (ho : Ordered lo l)
    (hv : Views V s n lo l) (hin : s + n ≤ fin lo l) :
    serve lo l s n x = some (V (max s lo) (s + n - max s lo) x) := by
  induction l generalizing lo x with
  | nil =>
    have hin : s + n ≤ lo := hin
    rw [serve, (by omega : s + n - max s lo = 0), hzero]
  | cons r l ih =>
    obtain ⟨hlo, ho⟩ := ho
    have hrest := fun y => @ih r.hi y ho hv.2 hin
    rw [serve]
    by_cases hlt : max s lo < min (s + n) r.hi
    · -- The region serves its part, and the others the rest.
      have hu : max s lo + (min (s + n) r.hi - max s lo) = min (s + n) r.hi := by omega
      rw [Region.part_pos hlt, hv.1 hlt,
        Option.bind_some, hrest]
      by_cases hend : s + n ≤ r.hi
      · rw [(by omega : s + n - max s r.hi = 0), hzero, Nat.min_eq_left hend]
      · have hsplit : s + n - max s lo =
            min (s + n) r.hi - max s lo + (s + n - max s r.hi) := by omega
        rw [hsplit, hadd _ _ _ _ (by omega), hu, (by omega : min (s + n) r.hi = max s r.hi)]
    · rw [Region.part_none (by omega), Option.bind_some, hrest]
      by_cases hend : s + n ≤ r.hi
      · rw [(by omega : s + n - max s r.hi = 0), (by omega : s + n - max s lo = 0), hzero, hzero]
      · rw [(by omega : max s r.hi = max s lo)]

end Regions
