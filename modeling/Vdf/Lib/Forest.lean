import Mathlib.Data.List.Nodup
import Mathlib.Logic.Relation

/-!
# Forests

A forest is a relation from a node to its parent. `Ranked` says that it has no cycle. Giving one
node another parent (`Reparent`) keeps that as long as the new parent does not lie below the node.
The nodes below a node, with the entries of each behind it (`descend`), are listed once.
-/

namespace Forest

open Relation

variable {α : Type*} {R R' : α → α → Prop} {f r x : α} {t : Option α}

/-- Ranks that grow from a node to its parent. -/
def Ranked (R : α → α → Prop) : Prop := ∃ rank : α → Nat, ∀ x p, R x p → rank x < rank p

/-- `R'` is `R` with the node `f` under `t`, or a root when there is none. -/
def Reparent (R R' : α → α → Prop) (f : α) (t : Option α) : Prop :=
  ∀ x q, R' x q ↔ x = f ∧ t = some q ∨ x ≠ f ∧ R x q

theorem Ranked.irrefl (h : Ranked R) {x p : α} (hx : R x p) : ¬ ReflTransGen R p x := by
  obtain ⟨rank, hr⟩ := h
  have hle : ∀ {y z}, ReflTransGen R y z → rank y ≤ rank z := by
    intro y z hyz
    induction hyz with
    | refl => exact Nat.le_refl _
    | tail _ hc ih => exact Nat.le_trans ih (Nat.le_of_lt (hr _ _ hc))
  intro hp
  exact absurd (hr x p hx) (Nat.not_lt.2 (hle hp))

namespace Reparent

variable (h : Reparent R R' f t)
include h

/-- A way up that ends at `f` does not need the parent of `f`. -/
theorem below (hx : ReflTransGen R x f) : ReflTransGen R' x f := by
  induction hx using ReflTransGen.head_induction_on with
  | refl => exact .refl
  | @head x q hxq _ ih =>
    by_cases hxf : x = f
    · exact hxf ▸ .refl
    · exact .head ((h x q).2 (.inr ⟨hxf, hxq⟩)) ih

/-- Neither does one that passes it by. -/
theorem reach (hx : ReflTransGen R x r) (hxf : ¬ ReflTransGen R x f) : ReflTransGen R' x r := by
  induction hx using ReflTransGen.head_induction_on with
  | refl => exact .refl
  | @head x q hxq _ ih =>
    have hne : x ≠ f := fun e => hxf (e ▸ .refl)
    exact .head ((h x q).2 (.inr ⟨hne, hxq⟩)) (ih fun hq => hxf (.head hxq hq))

/-- What lay below `r` still does, when the new parent lies below `r` and not below `f`. -/
theorem reach_of_parent {q : α} (ht : t = some q) (hq : ReflTransGen R q r)
    (hqf : ¬ ReflTransGen R q f) (hx : ReflTransGen R x r) : ReflTransGen R' x r := by
  by_cases hxf : ReflTransGen R x f
  · exact (h.below hxf).trans (.head ((h f q).2 (.inl ⟨rfl, ht⟩)) (h.reach hq hqf))
  · exact h.reach hx hxf

theorem ranked (hu : Relator.RightUnique R) (hr : Ranked R)
    (hnot : ∀ q ∈ t, ¬ ReflTransGen R q f) : Ranked R' := by
  classical
  obtain ⟨rank, hr⟩ := hr
  -- The nodes that are not below `f` are lifted over it.
  refine ⟨fun x => if ReflTransGen R x f then rank x else rank x + rank f + 1, fun x q hxq => ?_⟩
  rcases (h x q).1 hxq with ⟨rfl, hq⟩ | ⟨hne, hxq⟩
  · simp only [hnot q hq, ReflTransGen.refl, ↓reduceIte]
    omega
  · have hlt := hr x q hxq
    have hiff : ReflTransGen R x f ↔ ReflTransGen R q f := by
      refine ⟨fun hx => ?_, fun hq => .head hxq hq⟩
      rcases ReflTransGen.cases_head hx with e | ⟨q', hxq', hq'⟩
      · exact absurd e hne
      · exact hu hxq hxq' ▸ hq'
    by_cases hq : ReflTransGen R q f
    · simpa only [hiff, hq, ↓reduceIte] using hlt
    · simp only [hiff, hq, ↓reduceIte]
      omega

end Reparent

/-! ## The nodes below a node -/

section Descend

variable {entries : α → List α} {rank : α → Nat} {n : Nat} {p : α}

/-- The nodes below `p` down to `n` levels, each in front of those below it. -/
def descend (entries : α → List α) : (n : Nat) → α → List α
  | 0, _ => []
  | n + 1, p => (entries p).flatMap fun x => x :: descend entries n x

theorem below_of_mem_descend (h : x ∈ descend entries n p) :
    TransGen (fun x p => x ∈ entries p) x p := by
  induction n generalizing p with
  | zero => exact absurd h List.not_mem_nil
  | succ n ih =>
    obtain ⟨y, hy, hx⟩ := List.mem_flatMap.mp h
    rcases List.mem_cons.mp hx with rfl | hx
    · exact .single hy
    · exact (ih hx).tail hy

variable (hr : ∀ x p, x ∈ entries p → rank x < rank p)
include hr

/-- As many levels as the rank leave no node out. -/
theorem mem_descend (hn : rank p ≤ n) :
    x ∈ descend entries n p ↔ TransGen (fun x p => x ∈ entries p) x p := by
  refine ⟨below_of_mem_descend, fun h => ?_⟩
  induction n generalizing p with
  | zero =>
    obtain ⟨y, -, hy⟩ := TransGen.tail'_iff.mp h
    have hlt := hr y p hy
    omega
  | succ n ih =>
    obtain ⟨y, hxy, hy⟩ := TransGen.tail'_iff.mp h
    have hlt := hr y p hy
    refine List.mem_flatMap.mpr ⟨y, hy, List.mem_cons.mpr ?_⟩
    rcases reflTransGen_iff_eq_or_transGen.mp hxy with rfl | hxy
    · exact .inl rfl
    · exact .inr (ih (by omega) hxy)

/-- Where a node has one parent, no node lies below two entries of one node. -/
theorem apart_of_siblings (hu : ∀ x p q, x ∈ entries p → x ∈ entries q → p = q) {y z : α}
    (hy : y ∈ entries p) (hz : z ∈ entries p) (hne : y ≠ z)
    (hxy : ReflTransGen (fun x p => x ∈ entries p) x y) :
    ¬ ReflTransGen (fun x p => x ∈ entries p) x z := by
  have key {a b : α} (ha : a ∈ entries p) (hb : b ∈ entries p) (hab : a ≠ b) :
      ¬ ReflTransGen (fun x p => x ∈ entries p) a b := fun h => by
    obtain ⟨q, hq, hqb⟩ := (ReflTransGen.cases_head h).resolve_left hab
    obtain rfl := hu a p q ha hq
    exact Ranked.irrefl ⟨rank, hr⟩ hb hqb
  intro hxz
  rcases ReflTransGen.total_of_right_unique (fun a b c => hu a b c) hxy hxz with h | h
  · exact key hy hz hne h
  · exact key hz hy hne.symm h

theorem nodup_descend (hu : ∀ x p q, x ∈ entries p → x ∈ entries q → p = q)
    (hnd : ∀ p, (entries p).Nodup) : (descend entries n p).Nodup := by
  induction n generalizing p with
  | zero => exact .nil
  | succ n ih =>
    have hbelow {x y : α} (h : x ∈ y :: descend entries n y) :
        ReflTransGen (fun x p => x ∈ entries p) x y := by
      rcases List.mem_cons.mp h with rfl | h
      · exact .refl
      · exact (below_of_mem_descend h).to_reflTransGen
    refine List.nodup_flatMap.mpr ⟨fun y _ => List.nodup_cons.mpr ⟨fun hy => ?_, ih⟩, ?_⟩
    · -- No node lies below itself.
      obtain ⟨q, hyq, hq⟩ := TransGen.head'_iff.mp (below_of_mem_descend hy)
      exact Ranked.irrefl ⟨rank, hr⟩ hyq hq
    · refine (hnd p).imp_of_mem fun hy hz hne x hx hx' => ?_
      exact apart_of_siblings hr hu hy hz hne (hbelow hx) (hbelow hx')

end Descend

end Forest
