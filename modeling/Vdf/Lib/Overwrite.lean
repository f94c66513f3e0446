import Vdf.Lib.Buffer
import Vdf.Lib.Regions

/-!
# What a step overwrites

A step on a buffer that may fail is local to the bytes `[a, b)` when it leaves all others and makes
of these what depends on nothing but them (`Local`). It overwrites them when what it makes of them
does not even depend on what they were (`Overwrites`): two runs leave the same bytes there, whatever
was there before. Of two local steps in a row, on adjacent bytes, both overwrite their own bytes when
and only when together they overwrite all, and so do the regions of a request
(`Regions.overwrites`, `Regions.of_overwrites`).
-/

namespace Buffer

variable {a b c : Nat} {g h : Buffer → Option Buffer}

/-- The step leaves all bytes but those in `[a, b)`, and what it makes of these depends on nothing
but them. -/
structure Local (a b : Nat) (g : Buffer → Option Buffer) : Prop where
  frame : ∀ {m m'}, g m = some m' → ∀ x, x < a ∨ b ≤ x → m' x = m x
  inner : ∀ {m n m' n'}, g m = some m' → g n = some n' → (∀ x, a ≤ x → x < b → m x = n x) →
    ∀ x, a ≤ x → x < b → m' x = n' x

/-- What the step makes of the bytes in `[a, b)` is the same for all buffers. -/
structure Overwrites (a b : Nat) (g : Buffer → Option Buffer) : Prop where
  same : ∀ {m n m' n'}, g m = some m' → g n = some n' → ∀ x, a ≤ x → x < b → m' x = n' x

/-- The step does not fail. -/
def Total (g : Buffer → Option Buffer) : Prop := ∀ m, ∃ m', g m = some m'

/-! ## One step -/

theorem Local.skip (a : Nat) : Local a a some where
  frame h _ _ := by cases h; rfl
  inner _ _ _ _ h1 h2 := absurd h2 (Nat.not_lt.mpr h1)

theorem Overwrites.skip (a : Nat) : Overwrites a a some where
  same _ _ _ h1 h2 := absurd h2 (Nat.not_lt.mpr h1)

theorem Total.skip : Total some := fun m => ⟨m, rfl⟩

/-- An overlay is local, -/
theorem Local.overlay {q len : Nat} {f : Nat → Option UInt8}
    (h : ∀ m m', g m = some m' → m' = m.overlay q len f) : Local q (q + len) g where
  frame {m m'} hg x hx := by rw [h m m' hg]; exact overlay_outside hx
  inner {m n m' n'} hm hn hin x h1 h2 := by
    obtain ⟨j, rfl⟩ : ∃ j, x = q + j := ⟨x - q, by omega⟩
    rw [h m m' hm, h n n' hn, overlay_inside _ _ (by omega), overlay_inside _ _ (by omega),
      hin _ h1 h2]

/-- and overwrites its bytes when its image has them all. -/
theorem overwrites_overlay_iff {q len : Nat} {f : Nat → Option UInt8}
    (h : ∀ m, g m = some (m.overlay q len f)) :
    Overwrites q (q + len) g ↔ ∀ j < len, f j ≠ none := by
  constructor
  · intro ho j hj hnone
    have h1 := ho.same (h fun _ => 0) (h fun _ => 1) (q + j) (Nat.le_add_right ..) (by omega)
    rw [overlay_inside _ _ hj, overlay_inside _ _ hj, hnone] at h1
    exact absurd h1 (by decide)
  · refine fun hf => ⟨fun {m n m' n'} hm hn x h1 h2 => ?_⟩
    obtain ⟨j, rfl⟩ : ∃ j, x = q + j := ⟨x - q, by omega⟩
    obtain ⟨v, hv⟩ := Option.ne_none_iff_exists'.mp (hf j (by omega))
    cases (h m).symm.trans hm
    cases (h n).symm.trans hn
    rw [overlay_inside _ _ (by omega), overlay_inside _ _ (by omega), hv]
    rfl

/-! ## Two steps -/

theorem Local.bind (hab : a ≤ b) (hbc : b ≤ c) (hg : Local a b g) (hh : Local b c h) :
    Local a c fun m => (g m).bind h where
  frame {m m''} he x hx := by
    obtain ⟨m', hm, hm'⟩ := Option.bind_eq_some_iff.mp he
    exact (hh.frame hm' x (by omega)).trans (hg.frame hm x (by omega))
  inner {m n m'' n''} hem hen hin x h1 h2 := by
    obtain ⟨m', hm, hm'⟩ := Option.bind_eq_some_iff.mp hem
    obtain ⟨n', hn, hn'⟩ := Option.bind_eq_some_iff.mp hen
    rcases Nat.lt_or_ge x b with hx | hx
    · rw [hh.frame hm' x (.inl hx), hh.frame hn' x (.inl hx)]
      exact hg.inner hm hn (fun y h3 h4 => hin y h3 (by omega)) x h1 hx
    · refine hh.inner hm' hn' (fun y h3 h4 => ?_) x hx h2
      rw [hg.frame hm y (.inr h3), hg.frame hn y (.inr h3)]
      exact hin y (by omega) h4

theorem Overwrites.bind (hh : Local b c h) (ho : Overwrites a b g) (ho' : Overwrites b c h) :
    Overwrites a c fun m => (g m).bind h := by
  refine ⟨fun {m n m'' n''} hem hen x h1 h2 => ?_⟩
  obtain ⟨m', hm, hm'⟩ := Option.bind_eq_some_iff.mp hem
  obtain ⟨n', hn, hn'⟩ := Option.bind_eq_some_iff.mp hen
  rcases Nat.lt_or_ge x b with hx | hx
  · rw [hh.frame hm' x (.inl hx), hh.frame hn' x (.inl hx)]
    exact ho.same hm hn x h1 hx
  · exact ho'.same hm' hn' x hx h2

/-- The parts of what is overwritten are overwritten, when neither step fails. -/
theorem Overwrites.of_bind (hab : a ≤ b) (hbc : b ≤ c) (hg : Local a b g) (hh : Local b c h)
    (hgt : Total g) (hht : Total h) (ho : Overwrites a c fun m => (g m).bind h) :
    Overwrites a b g ∧ Overwrites b c h := by
  constructor
  · refine ⟨fun {m n m' n'} hm hn x h1 h2 => ?_⟩
    obtain ⟨m'', hm'⟩ := hht m'
    obtain ⟨n'', hn'⟩ := hht n'
    have h3 := ho.same (Option.bind_eq_some_iff.mpr ⟨m', hm, hm'⟩)
      (Option.bind_eq_some_iff.mpr ⟨n', hn, hn'⟩) x h1 (by omega)
    rwa [hh.frame hm' x (.inl h2), hh.frame hn' x (.inl h2)] at h3
  · -- The second step does the same behind the first one.
    refine ⟨fun {m n m' n'} hm hn x h1 h2 => ?_⟩
    obtain ⟨m₁, hm₁⟩ := hgt m
    obtain ⟨n₁, hn₁⟩ := hgt n
    obtain ⟨m₂, hm₂⟩ := hht m₁
    obtain ⟨n₂, hn₂⟩ := hht n₁
    have h3 := ho.same (Option.bind_eq_some_iff.mpr ⟨m₁, hm₁, hm₂⟩)
      (Option.bind_eq_some_iff.mpr ⟨n₁, hn₁, hn₂⟩) x (by omega) h2
    rw [hh.inner hm hm₂ (fun y h4 _ => (hg.frame hm₁ y (.inr h4)).symm) x h1 h2, h3]
    exact hh.inner hn₂ hn (fun y h4 _ => hg.frame hn₁ y (.inr h4)) x h1 h2

theorem Total.bind (hg : Total g) (hh : Total h) : Total fun m => (g m).bind h := by
  intro m
  obtain ⟨m', hm⟩ := hg m
  obtain ⟨m'', hm'⟩ := hh m'
  exact ⟨m'', Option.bind_eq_some_iff.mpr ⟨m', hm, hm'⟩⟩

end Buffer

/-! ## Regions -/

namespace Regions

open Buffer

variable {lo s n : Nat} {l l' : List (Region Buffer)} {P : Nat → Region Buffer → Prop}

/-- Each region meets a condition on where it starts. -/
def Each (P : Nat → Region Buffer → Prop) : Nat → List (Region Buffer) → Prop
  | _, [] => True
  | lo, r :: l => P lo r ∧ Each P r.hi l

theorem each_append : Each P lo (l ++ l') ↔ Each P lo l ∧ Each P (fin lo l) l' := by
  induction l generalizing lo with
  | nil => simp only [List.nil_append, Each, fin, true_and]
  | cons r l ih => simp only [List.cons_append, Each, fin, ih, and_assoc]

variable {cut : Nat → Nat} (hcut : ∀ a b, a ≤ b → cut a ≤ cut b) (ho : Ordered lo l)
  (hl : Each (fun lo r => Local (cut lo) (cut r.hi) (r.part lo s n)) lo l)

include hcut ho hl

theorem local_serve : Local (cut lo) (cut (fin lo l)) (serve lo l s n) ∧
    cut lo ≤ cut (fin lo l) := by
  induction l generalizing lo with
  | nil => exact ⟨.skip _, Nat.le_refl _⟩
  | cons r l ih =>
    obtain ⟨h, hle⟩ := ih ho.2 hl.2
    have hlo := hcut _ _ ho.1
    exact ⟨.bind hlo hle hl.1 h, Nat.le_trans hlo hle⟩

/-- A request overwrites its bytes when every region does. -/
theorem overwrites (h : Each (fun lo r => Overwrites (cut lo) (cut r.hi) (r.part lo s n)) lo l) :
    Overwrites (cut lo) (cut (fin lo l)) (serve lo l s n) := by
  induction l generalizing lo with
  | nil => exact .skip _
  | cons r l ih => exact .bind (local_serve hcut ho.2 hl.2).1 h.1 (ih ho.2 hl.2 h.2)

/-- When no region fails, it does so only then. -/
theorem of_overwrites (ht : Each (fun lo r => Total (r.part lo s n)) lo l)
    (h : Overwrites (cut lo) (cut (fin lo l)) (serve lo l s n)) :
    Each (fun lo r => Overwrites (cut lo) (cut r.hi) (r.part lo s n)) lo l := by
  have htotal (lo : Nat) (l : List (Region Buffer))
      (ht : Each (fun lo r => Total (r.part lo s n)) lo l) : Total (serve lo l s n) := by
    induction l generalizing lo with
    | nil => exact .skip
    | cons r l ih => exact .bind ht.1 (ih r.hi ht.2)
  induction l generalizing lo with
  | nil => trivial
  | cons r l ih =>
    obtain ⟨hlocal, hle⟩ := local_serve hcut ho.2 hl.2
    obtain ⟨h1, h2⟩ := Overwrites.of_bind (hcut _ _ ho.1) hle hl.1 hlocal ht.1
      (htotal r.hi l ht.2) h
    exact ⟨h1, ih ho.2 hl.2 ht.2 h2⟩

end Regions
