import Vdf.Recalc

/-!
# Lookup in `drv->ranges`

`find_file_fat_entry` and `find_file_sector` scan the sorted ranges for the first one that ends
behind an entry or a sector. They count up to `file_cnt`; the array has an element for each file
that is not empty.
-/

namespace Vdf

/-- `drv->ranges[i]`. -/
def rangeAt (d : VdfDrive) (i : Nat) : Except Fault FileRange :=
  match d.ranges.bind fun rs => rs[i]? with
  | some r => .ok r
  | none => .error (.rangesIndex i)

/-- The loop of `find_file_fat_entry` and of `find_file_sector`, with `k` elements to go: the first
range that ends behind `x`. -/
def findRangeLoop (d : VdfDrive) (end_ : FileRange → Nat) (x : Nat) :
    Nat → Nat → Except Fault (Option (FileId × Nat))
  | 0, _ => .ok none
  | k + 1, i => do
    let range ← rangeAt d i
    if x < end_ range then pure (some (range.file, i)) else findRangeLoop d end_ x k (i + 1)

theorem rangeAt_eq {d : VdfDrive} {rs : List FileRange} (h : d.ranges = some rs) (i : Nat) :
    rangeAt d i = match rs[i]? with
      | some r => .ok r
      | none => .error (.rangesIndex i) := by
  rw [rangeAt, h]; rfl

/-- The scan finds the first range that ends behind `x`. If there is none it goes on to `file_cnt`. -/
theorem findRangeLoop_spec {d : VdfDrive} {rs : List FileRange} (hr : d.ranges = some rs)
    (end_ : FileRange → Nat) (x : Nat) (s t : List FileRange) (hrs : rs = s ++ t) (k : Nat)
    (hk : rs.length ≤ s.length + k) :
    (∀ front r rest, t = front ++ r :: rest → (∀ y ∈ front, end_ y ≤ x) → x < end_ r →
      findRangeLoop d end_ x k s.length = .ok (some (r.file, s.length + front.length))) ∧
    ((∀ y ∈ t, end_ y ≤ x) → findRangeLoop d end_ x k s.length =
      if k = t.length then .ok none else .error (.rangesIndex rs.length)) := by
  induction k generalizing s t with
  | zero =>
    have ht : t = [] := by
      have := congrArg List.length hrs
      rw [List.length_append] at this
      exact List.length_eq_zero_iff.mp (by omega)
    subst ht
    exact ⟨fun front r rest e => by simp at e, fun _ => rfl⟩
  | succ k ih =>
    cases t with
    | nil =>
      refine ⟨fun front r rest e => by simp at e, fun _ => ?_⟩
      rw [findRangeLoop, rangeAt_eq hr, hrs, List.getElem?_eq_none (by simp), if_neg (by simp)]
      simp; rfl
    | cons y t =>
      have hy : rs[s.length]? = some y := by
        rw [hrs, List.getElem?_append_right (Nat.le_refl _), Nat.sub_self]; rfl
      have hstep : findRangeLoop d end_ x (k + 1) s.length =
          if x < end_ y then .ok (some (y.file, s.length))
          else findRangeLoop d end_ x k (s.length + 1) := by
        rw [findRangeLoop, rangeAt_eq hr, hy]; rfl
      have hnext := ih (s ++ [y]) t (by simp [hrs]) (by simp; omega)
      rw [List.length_append, List.length_singleton] at hnext
      rw [hstep]
      constructor
      · intro front r rest e hle hlt
        cases front with
        | nil =>
          cases e
          rw [if_pos hlt]
          rfl
        | cons z front =>
          cases e
          rw [if_neg (by have := hle y (List.mem_cons_self ..); omega),
            hnext.1 front r rest rfl (fun z hz => hle z (.tail _ hz)) hlt]
          congr 3
          simp only [List.length_cons]
          omega
      · intro hle
        rw [if_neg (by have := hle y (List.mem_cons_self ..); omega),
          hnext.2 fun z hz => hle z (.tail _ hz)]
        simp only [List.length_cons, Nat.add_right_cancel_iff]

end Vdf
