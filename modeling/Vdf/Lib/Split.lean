import Vdf.Lib.Overwrite

/-!
# Requests that are cut in two

A request for `n + k` units can be made as two, one for the first `n` and one for the rest. Region by
region these are the two parts of each region (`Region.split`), of which one is empty unless the cut
lies inside the region. On buffers the two requests do what the one does when and only when every
region serves its two parts as it serves them together (`serve_split_iff`).
-/

open Buffer

/-- The parts of two requests in a region from `lo` on, the second one for the `k` units behind the
`n` of the first one. -/
def Region.split {σ : Type*} (r : Region σ) (lo s n k : Nat) (x : σ) : Option σ :=
  (r.part lo s n x).bind (r.part lo (s + n) k)

/-- The region serves the two requests as it serves one. -/
def Region.Splits {σ : Type*} (s n k lo : Nat) (r : Region σ) : Prop :=
  ∀ x, r.part lo s (n + k) x = r.split lo s n k x

/-- What holds of a request from `s` on for `n` and then `k` units if its cut lies inside the region
from `lo` to `hi`. The condition is on where the request starts in the region, and on how many units
of it are in front of the cut and behind it. -/
def SplitAt (s n k lo hi : Nat) (P : (start n k : Nat) → Prop) : Prop :=
  max s lo < s + n → s + n < min (s + n + k) hi →
    P (max s lo - lo) (s + n - max s lo) (min (s + n + k) hi - (s + n))

namespace Buffer

/-- Overlays that are the same on every buffer have the same image. -/
theorem overlay_ext_iff {q n : Nat} {f g : Nat → Option UInt8} :
    (∀ m : Buffer, m.overlay q n f = m.overlay q n g) ↔ ∀ j < n, f j = g j := by
  refine ⟨fun h j hj => ?_, fun h m => overlay_congr h⟩
  have hbyte (m : Buffer) : (f j).getD (m (q + j)) = (g j).getD (m (q + j)) := by
    have := congrFun (h m) (q + j)
    rwa [overlay_inside _ _ hj, overlay_inside _ _ hj] at this
  have h0 := hbyte fun _ => 0
  have h1 := hbyte fun _ => 1
  have hne : (0 : UInt8) ≠ 1 := by decide
  cases hf : f j with
  | none =>
    rw [hf] at h0 h1
    cases hg : g j with
    | none => rfl
    | some v =>
      rw [hg] at h0 h1
      exact absurd (h0.trans h1.symm) hne
  | some v =>
    rw [hf] at h0 h1
    cases hg : g j with
    | none =>
      rw [hg] at h0 h1
      exact absurd (h0.symm.trans h1) hne
    | some w =>
      rw [hg] at h0
      exact congrArg some h0

/-- An overlay of which the second part is made by another one. -/
theorem overlay_split_iff {q a b : Nat} {f f₁ f₂ : Nat → Option UInt8} :
    (∀ m : Buffer, m.overlay q (a + b) f = (m.overlay q a f₁).overlay (q + a) b f₂) ↔
      (∀ j < a, f j = f₁ j) ∧ ∀ j < b, f (a + j) = f₂ j := by
  simp only [overlay_overlay, overlay_ext_iff, glue]
  constructor
  · intro h
    refine ⟨fun j hj => (h j (by omega)).trans (if_pos hj), fun j hj => ?_⟩
    rw [h (a + j) (by omega), if_neg (by omega), Nat.add_sub_cancel_left]
  · rintro ⟨h1, h2⟩ j hj
    split
    · exact h1 j ‹_›
    · rw [← h2 _ (by omega), Nat.add_sub_of_le (by omega)]

end Buffer

/-! ## A region -/

namespace Region

variable {σ : Type*} {r : Region σ} {lo s n k : Nat}

/-- Unless the cut lies inside the region, one of the parts is empty. -/
theorem split_outside (h : ¬ (max s lo < s + n ∧ s + n < min (s + n + k) r.hi)) :
    r.split lo s n k = r.part lo s (n + k) := by
  funext x
  rw [split]
  by_cases hfront : min (s + n) r.hi ≤ max s lo
  · -- Nothing is in front of the cut.
    rw [part_none hfront, Option.bind_some]
    by_cases hmeet : max s lo < min (s + n + k) r.hi
    · have hmax : max (s + n) lo = max s lo := by omega
      rw [part, part, hmax, ← Nat.add_assoc]
    · rw [part_none (by omega), part_none (by omega)]
  · have hbehind : min (s + n + k) r.hi ≤ max (s + n) lo := by omega
    have hmin : min (s + n + k) r.hi = min (s + n) r.hi := by omega
    rw [part_none hbehind, Option.bind_fun_some, part, part, ← Nat.add_assoc, hmin]

/-- If it lies inside, the generator serves the units in front of the cut and those behind it. -/
theorem splits_inside (h1 : max s lo < s + n) (h2 : s + n < min (s + n + k) r.hi) :
    r.Splits s n k lo ↔ ∀ x,
      r.gen (max s lo) (s + n - max s lo + (min (s + n + k) r.hi - (s + n))) x =
        (r.gen (max s lo) (s + n - max s lo) x).bind
          (r.gen (s + n) (min (s + n + k) r.hi - (s + n))) := by
  refine forall_congr' fun x => ?_
  rw [split, part_pos (by omega), part_pos (by omega), part_pos (by omega),
    (by omega : max (s + n) lo = s + n), (by omega : min (s + n) r.hi = s + n),
    (by omega : min (s + (n + k)) r.hi - max s lo =
      s + n - max s lo + (min (s + n + k) r.hi - (s + n)))]

end Region

namespace Regions

section Split

variable {σ : Type*} {lo s n k : Nat} {l : List (Region σ)} {x : σ}

/-- Two requests, region by region. -/
def serveSplit : Nat → List (Region σ) → (s n k : Nat) → σ → Option σ
  | _, [], _, _, _, x => some x
  | lo, r :: l, s, n, k, x => (r.split lo s n k x).bind (serveSplit r.hi l s n k)

/-- The second request finds the regions in front of the cut served, and those behind it untouched. -/
theorem serve_split (ho : Ordered lo l) :
    (serve lo l s n x).bind (serve lo l (s + n) k) = serveSplit lo l s n k x := by
  induction l generalizing lo x with
  | nil => rfl
  | cons r l ih =>
    have ih := fun y => @ih r.hi y ho.2
    show ((r.part lo s n x).bind (serve r.hi l s n)).bind
        (fun y => (r.part lo (s + n) k y).bind (serve r.hi l (s + n) k)) =
      ((r.part lo s n x).bind (r.part lo (s + n) k)).bind (serveSplit r.hi l s n k)
    rw [Option.bind_assoc, Option.bind_assoc]
    congr 1
    funext y
    rcases Nat.le_total (s + n) r.hi with h | h
    · have hbehind : serve r.hi l s n = some := serve_behind ho.2 h
      rw [hbehind, Option.bind_some]
      congr 1
      funext z
      rw [← ih z, hbehind, Option.bind_some]
    · have hfront : r.part lo (s + n) k = some := Region.part_none (by omega)
      rw [hfront, Option.bind_some, ← ih y]
      simp only [Option.bind_some]

end Split

/-! ## On buffers -/

variable {lo s n k : Nat} {l : List (Region Buffer)}

/-- Two local steps in a row are determined by what they do together, when neither fails. -/
theorem bind_inj {a b c : Nat} {g g' h h' : Buffer → Option Buffer}
    (hg : Local a b g) (hg' : Local a b g') (hh : Local b c h) (hh' : Local b c h')
    (tg : Total g) (tg' : Total g') (th : Total h) (th' : Total h')
    (he : ∀ m, (g m).bind h = (g' m).bind h') : (∀ m, g m = g' m) ∧ ∀ m, h m = h' m := by
  have hrun (m : Buffer) : ∃ m₁ m₁' m₂, g m = some m₁ ∧ g' m = some m₁' ∧ h m₁ = some m₂ ∧
      h' m₁' = some m₂ := by
    obtain ⟨m₁, h1⟩ := tg m
    obtain ⟨m₁', h1'⟩ := tg' m
    obtain ⟨m₂, h2⟩ := th m₁
    have := he m
    rw [h1, h1', Option.bind_some, Option.bind_some, h2] at this
    exact ⟨m₁, m₁', m₂, h1, h1', h2, this.symm⟩
  constructor
  · intro m
    obtain ⟨m₁, m₁', m₂, h1, h1', h2, h2'⟩ := hrun m
    rw [h1, h1']
    congr 1
    funext x
    by_cases hx : a ≤ x ∧ x < b
    · rw [← hh.frame h2 x (.inl hx.2), hh'.frame h2' x (.inl hx.2)]
    · rw [hg.frame h1 x (by omega), hg'.frame h1' x (by omega)]
  · intro m
    obtain ⟨m₁, m₁', m₂, h1, h1', h2, h2'⟩ := hrun m
    obtain ⟨n, hn⟩ := th m
    obtain ⟨n', hn'⟩ := th' m
    rw [hn, hn']
    congr 1
    funext x
    by_cases hx : b ≤ x ∧ x < c
    · rw [← hh.inner h2 hn (fun y hy _ => hg.frame h1 y (.inr hy)) x hx.1 hx.2]
      exact hh'.inner h2' hn' (fun y hy _ => hg'.frame h1' y (.inr hy)) x hx.1 hx.2
    · rw [hh.frame hn x (by omega), hh'.frame hn' x (by omega)]

variable {cut : Nat → Nat} (hcut : ∀ a b, a ≤ b → cut a ≤ cut b) (ho : Ordered lo l)
  (hl : Each (fun lo r => Local (cut lo) (cut r.hi) (r.part lo s (n + k))) lo l)
  (hl' : Each (fun lo r => Local (cut lo) (cut r.hi) (r.split lo s n k)) lo l)

include hcut ho hl'

theorem local_serveSplit : Local (cut lo) (cut (fin lo l)) (serveSplit lo l s n k) ∧
    cut lo ≤ cut (fin lo l) := by
  induction l generalizing lo with
  | nil => exact ⟨.skip _, Nat.le_refl _⟩
  | cons r l ih =>
    obtain ⟨h, hle⟩ := ih ho.2 hl'.2
    have hlo := hcut _ _ ho.1
    exact ⟨.bind hlo hle hl'.1 h, Nat.le_trans hlo hle⟩

include hl

/-- Two requests do what one does when every region does, and only then if no region fails. -/
theorem serve_split_iff (ht : Each (fun lo r => Total (r.part lo s (n + k))) lo l)
    (ht' : Each (fun lo r => Total (r.split lo s n k)) lo l) :
    (∀ m, serve lo l s (n + k) m = serveSplit lo l s n k m) ↔
      Each (Region.Splits s n k) lo l := by
  have htotal (lo : Nat) (l : List (Region Buffer))
      (ht : Each (fun lo r => Total (r.part lo s (n + k))) lo l) :
      Total (serve lo l s (n + k)) := by
    induction l generalizing lo with
    | nil => exact .skip
    | cons r l ih => exact .bind ht.1 (ih r.hi ht.2)
  have htotal' (lo : Nat) (l : List (Region Buffer))
      (ht : Each (fun lo r => Total (r.split lo s n k)) lo l) :
      Total (serveSplit lo l s n k) := by
    induction l generalizing lo with
    | nil => exact .skip
    | cons r l ih => exact .bind ht.1 (ih r.hi ht.2)
  induction l generalizing lo with
  | nil => exact iff_of_true (fun _ => rfl) trivial
  | cons r l ih =>
    have hrest := ih ho.2 hl.2 hl'.2 ht.2 ht'.2
    constructor
    · intro h
      obtain ⟨h1, h2⟩ := bind_inj hl.1 hl'.1 (local_serve hcut ho.2 hl.2).1
        (local_serveSplit hcut ho.2 hl'.2).1 ht.1 ht'.1 (htotal _ _ ht.2) (htotal' _ _ ht'.2) h
      exact ⟨h1, hrest.mp h2⟩
    · rintro ⟨h1, h2⟩ m
      rw [serve, serveSplit, h1, funext (hrest.mpr h2)]

end Regions
