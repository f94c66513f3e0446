import Vdf.Lib.Chain
import Vdf.Lib.FatVolume
import Vdf.Lib.Forest

/-!
# Checking a FAT volume

What a file-system checker asks of the clusters of a volume: it lists the entries of all
directories, follows the chains that they name and counts clusters. A volume whose chains are runs
that take up all clusters from the first on is sound (`sound_of_runs`).
-/

open Buffer

namespace FatVolume

variable {α β σ : Type*}

/-! ## The checker -/

/-- The first clusters that entries name. A file without bytes has none. -/
def heads (es : List (Listed α)) : List Nat :=
  (es.filter fun e => e.isDir || e.size != 0).map Listed.cluster

/-- The first clusters that a directory names and its own. -/
def headsAt (place : DirPlace) (es : List (Listed α)) : List Nat :=
  match place with
  | .region .. => heads es
  | .chain c => c :: heads es

section Checker

variable (v : FatVolume) (m : Buffer)

/-- The entries of a directory and of those below it, each in front of those it holds, if there are
less than `depth` levels. -/
def listing (parse : List UInt8 → List (Listed α)) : (depth : Nat) → DirPlace →
    Option (List (Listed α))
  | 0, _ => none
  | depth + 1, place => (v.readDir m place).bind fun bytes =>
      ((parse bytes).mapM fun e : Listed α =>
        if e.isDir then (listing parse depth (.chain e.cluster)).map (e :: ·)
        else some [e]).map List.flatten

/-- The clusters of the chain from `c` on. -/
def clustersOf (c : Nat) : List Nat := (v.chain m v.clusters c).getD []

/-- The clusters that are not in use. -/
def free : List Nat :=
  (List.range' 2 v.clusters).filter fun c => v.kind.entry m v.table c == 0

/-- No chain is broken, no cluster is in two of them, the clusters in use are those of the chains,
and a file has as many as its bytes ask for. -/
structure Sound (place : DirPlace) (es : List (Listed α)) : Prop where
  followed : ∀ c ∈ headsAt place es, (v.chain m v.clusters c).isSome
  apart : ((headsAt place es).flatMap (v.clustersOf m)).Nodup
  used : ∀ c, 2 ≤ c → c < v.clusters + 2 →
    (v.kind.entry m v.table c ≠ 0 ↔ c ∈ (headsAt place es).flatMap (v.clustersOf m))
  sizes : ∀ e ∈ es, e.isDir = false →
    (v.clustersOf m e.cluster).length = (e.size + (v.bpc - 1)) / v.bpc

end Checker

/-! ## Listings -/

theorem forall₂_eq_map {γ δ : Type*} {k : γ → δ} {l : List γ} {ys : List δ}
    (h : List.Forall₂ (fun x y => y = k x) l ys) : ys = l.map k := by
  induction h with
  | nil => rfl
  | cons h _ ih => rw [List.map_cons, h, ih]

/-- A checker lists the hierarchy that a volume has. -/
theorem listing_descend {v : FatVolume} {m : Buffer} {parse : List UInt8 → List (Listed α)}
    {h : Hierarchy σ α} {listed : σ → Listed α} {rank : σ → Nat} {P : σ → Prop}
    (hlisted : ∀ f, (listed f).isDir = h.isDir f)
    (hleaf : ∀ f, h.isDir f = false → h.entries f = [])
    (hrank : ∀ d, P d → ∀ f ∈ h.entries d, rank f < rank d)
    (hclosed : ∀ d, P d → ∀ f ∈ h.entries d, h.isDir f = true →
      P f ∧ v.HasDir m parse h listed f (.chain (listed f).cluster))
    (depth : Nat) {d : σ} {place : DirPlace} (hd : P d)
    (hplace : v.HasDir m parse h listed d place) (hdepth : rank d < depth) :
    v.listing m parse depth place = some ((Forest.descend h.entries depth d).map listed) := by
  induction depth generalizing d place with
  | zero => exact absurd hdepth (Nat.not_lt_zero _)
  | succ depth ih =>
    obtain ⟨bytes, hbytes, hparse⟩ := Option.map_eq_some_iff.mp hplace.parsed
    -- What one entry adds.
    obtain ⟨add, hadd⟩ : ∃ add : Listed α → Option (List (Listed α)), add = fun e =>
        if e.isDir then (v.listing m parse depth (.chain e.cluster)).map (e :: ·) else some [e] :=
      ⟨_, rfl⟩
    have hentry : ∀ f ∈ h.entries d, ∃ es, add (listed f) = some es ∧
        es = (f :: Forest.descend h.entries depth f).map listed := by
      intro f hf
      rw [hadd]
      dsimp only
      rw [hlisted]
      cases hdir : h.isDir f with
      | false =>
        refine ⟨_, if_neg (by simp), ?_⟩
        have hnil : Forest.descend h.entries depth f = [] := by
          cases depth with
          | zero => rfl
          | succ n => rw [Forest.descend, hleaf f hdir, List.flatMap_nil]
        rw [hnil]
        rfl
      | true =>
        obtain ⟨hP, hplace'⟩ := hclosed d hd f hf hdir
        have hlt := hrank d hd f hf
        refine ⟨_, ?_, rfl⟩
        rw [if_pos rfl, ih hP hplace' (by omega), Option.map_some]
        rfl
    obtain ⟨ess, hess, hall⟩ := mapM_forall₂ hentry
    rw [hadd] at hess
    rw [listing, hbytes, Option.bind_some, hparse, hess, Option.map_some, forall₂_eq_map hall,
      Forest.descend, List.map_flatMap]
    rfl

/-! ## Runs that take up the clusters -/

section Runs

variable {v : FatVolume} {m : Buffer} {lo hi : β → Nat} {a b : Nat} {l : List β}

theorem Run.clustersOf {n : Nat} (h : v.Run m a n) (hmark : v.clusters + 2 ≤ v.kind.eoc) :
    v.clustersOf m a = List.range' a n := by
  have hhigh := h.high
  have hlow := h.low
  rw [FatVolume.clustersOf, h.chain hmark (by omega), Option.getD_some]

/-- The entries of a run are in use. -/
theorem Run.entry_ne_zero {n c : Nat} (h : v.Run m a n) (h1 : a ≤ c) (h2 : c < a + n) :
    v.kind.entry m v.table c ≠ 0 := by
  by_cases hlast : c + 1 = a + n
  · have heoc := h.last
    rw [← hlast, Nat.add_sub_cancel] at heoc
    have hpos : 0 < v.kind.eoc := by cases v.kind <;> decide
    omega
  · rw [h.next c h1 (by omega)]
    exact Nat.succ_ne_zero c

/-- The clusters of runs that follow each other. -/
theorem clustersOf_runs (hc : Chain lo hi a l b)
    (hrun : ∀ x ∈ l, v.Run m (lo x) (hi x - lo x)) (hmark : v.clusters + 2 ≤ v.kind.eoc) :
    (l.map lo).flatMap (v.clustersOf m) = List.range' a (b - a) := by
  induction l generalizing a with
  | nil =>
    obtain rfl : a = b := hc
    rw [Nat.sub_self]
    rfl
  | cons x l ih =>
    obtain ⟨rfl, hle, hc⟩ := hc
    have hb := hc.le
    rw [List.map_cons, List.flatMap_cons, (hrun x (List.mem_cons_self ..)).clustersOf hmark,
      ih hc fun y hy => hrun y (List.mem_cons_of_mem x hy)]
    have happ := List.range'_append_1 (s := lo x) (m := hi x - lo x) (n := b - hi x)
    rwa [Nat.add_sub_cancel' hle, (by omega : hi x - lo x + (b - hi x) = b - lo x)] at happ

/-- A volume whose chains are runs that take up the clusters in front of `b` is sound. -/
theorem sound_of_runs (hc : Chain lo hi 2 l b) (hrun : ∀ x ∈ l, v.Run m (lo x) (hi x - lo x))
    (hmark : v.clusters + 2 ≤ v.kind.eoc) {place : DirPlace} {es : List (Listed α)}
    (hheads : (headsAt place es).Perm (l.map lo))
    (hfree : ∀ c, b ≤ c → c < v.clusters + 2 → v.kind.entry m v.table c = 0)
    (hsizes : ∀ e ∈ es, e.isDir = false →
      (v.clustersOf m e.cluster).length = (e.size + (v.bpc - 1)) / v.bpc) : v.Sound m place es := by
  have hclusters := clustersOf_runs hc hrun hmark
  have hperm := hheads.flatMap_right (v.clustersOf m)
  rw [hclusters] at hperm
  refine ⟨fun c hmem => ?_, hperm.nodup_iff.mpr List.nodup_range', fun c h1 h2 => ?_, hsizes⟩
  · obtain ⟨x, hx, rfl⟩ := List.mem_map.mp (hheads.mem_iff.mp hmem)
    have h := hrun x hx
    have hlow := h.low
    have hhigh := h.high
    rw [h.chain hmark (by omega)]
    rfl
  · have hb := hc.le
    rw [hperm.mem_iff, List.mem_range'_1]
    constructor
    · intro hne
      by_contra hlt
      exact hne (hfree c (by omega) h2)
    · intro hlt
      obtain ⟨x, hx, h3, h4⟩ := hc.exists_mem h1 (by omega)
      exact (hrun x hx).entry_ne_zero h3 (by omega)

/-- The free clusters, when those in front of `b` are in use and no other is. -/
theorem length_free (hb : 2 ≤ b) (hle : b ≤ v.clusters + 2)
    (h : ∀ c, 2 ≤ c → c < v.clusters + 2 → (v.kind.entry m v.table c = 0 ↔ b ≤ c)) :
    (v.free m).length = v.clusters - (b - 2) := by
  have hfree : v.free m = (List.range' 2 v.clusters).filter fun c => decide (b ≤ c) := by
    refine List.filter_congr fun c hc => ?_
    obtain ⟨h1, h2⟩ := List.mem_range'_1.mp hc
    rw [Bool.eq_iff_iff, beq_iff_eq, decide_eq_true_iff]
    exact h c h1 (by omega)
  have hsplit : List.range' 2 v.clusters =
      List.range' 2 (b - 2) ++ List.range' b (v.clusters - (b - 2)) := by
    have happ := List.range'_append_1 (s := 2) (m := b - 2) (n := v.clusters - (b - 2))
    rw [Nat.add_sub_cancel' hb, (by omega : b - 2 + (v.clusters - (b - 2)) = v.clusters)] at happ
    exact happ.symm
  rw [hfree, hsplit, List.filter_append, List.filter_eq_nil_iff.mpr, List.filter_eq_self.mpr,
    List.nil_append, List.length_range']
  · intro c hc
    exact decide_eq_true (List.mem_range'_1.mp hc).1
  · intro c hc
    have hlt := (List.mem_range'_1.mp hc).2
    simp only [decide_eq_true_eq]
    omega

end Runs

end FatVolume
