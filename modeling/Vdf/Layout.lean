import Vdf.Tree

/-!
# The layout in closed form

After a successful `vdf_drive_recalc` a file of `all_files` starts behind the clusters of the files
before it. With `k` the exact number of those, its first cluster is `2 + k` and its first sector
`data_start + k * spc`, both in 32 bits (`VdfFile.laidOut`). `recalc_iff` says exactly which drives
a recalculation can give.
-/

namespace Vdf

open Word

/-! ## Closed form -/

/-- The clusters that a file is given. -/
def VdfFile.used (fil : VdfFile) : Nat := if fil.size = 0 then 0 else fil.clusters

/-- The clusters of the files `l`, in unbounded arithmetic. -/
def usedClusters (file : FileId → VdfFile) (l : List FileId) : Nat :=
  (l.map fun f => (file f).used).sum

/-- The files of `l` that are given clusters. -/
def nonempty (file : FileId → VdfFile) (l : List FileId) : List FileId :=
  l.filter fun f => (file f).size != 0

@[simp] theorem usedClusters_nil (file : FileId → VdfFile) : usedClusters file [] = 0 := rfl

@[simp] theorem usedClusters_cons (file : FileId → VdfFile) (f : FileId) (l : List FileId) :
    usedClusters file (f :: l) = (file f).used + usedClusters file l := by simp [usedClusters]

theorem usedClusters_congr {file file' : FileId → VdfFile} {l : List FileId}
    (h : ∀ f ∈ l, file f = file' f) : usedClusters file l = usedClusters file' l := by
  unfold usedClusters
  rw [List.map_congr_left fun f hf => by rw [h f hf]]

theorem nonempty_congr {file file' : FileId → VdfFile} {l : List FileId}
    (h : ∀ f ∈ l, file f = file' f) : nonempty file l = nonempty file' l :=
  List.filter_congr fun f hf => by rw [h f hf]

/-- The first sector behind `k` clusters. -/
def sectorOf (g : Geometry) (k : Nat) : Nat := u32 (g.dataStart + k * g.spc)

/-- The file behind `k` clusters. -/
def VdfFile.laidOut (g : Geometry) (k : Nat) (fil : VdfFile) : VdfFile :=
  if fil.size = 0 then { fil with start := 0 }
  else
    { fil with
      start := u32 (2 + k), end_ := u32 (2 + k + fil.clusters)
      dataEnd := if fil.fatclusters ≠ -1 then ofInt (u32 (2 + k) + fil.fatclusters)
        else u32 (2 + k + fil.clusters)
      startsect := sectorOf g k, endsect := sectorOf g (k + fil.clusters) }

/-- Both capacity checks pass for the file behind `k` clusters. -/
abbrev VdfFile.fitsAt (g : Geometry) (k : Nat) (fil : VdfFile) : Prop :=
  fil.size ≠ 0 → sectorOf g k < g.sectors ∧ sectorOf g (k + fil.clusters) < g.sectors

/-! ## The first pass -/

/-- The drive in the first pass, with heap `h`, behind `n` files and `k` clusters. -/
def passState (d : VdfDrive) (h : FileId → VdfFile) (n k : Nat) : VdfDrive :=
  { d with file := h, nonemptyFileCnt := n, dataClusterEnd := u32 (2 + k)
           dataEnd := sectorOf d.toGeometry k }

theorem sectorOf_add (g : Geometry) (k n : Nat) :
    u32 (sectorOf g k + u32 (n * g.spc)) = sectorOf g (k + n) := by
  simp only [sectorOf, u32_u32_add, u32_add_u32, Nat.add_mul, Nat.add_assoc]

/-- One step of the pass. -/
theorem fileRecalcOffsize_spec (d : VdfDrive) (h : FileId → VdfFile) (n k : Nat) (f : FileId) :
    ((h f).fitsAt d.toGeometry k ∧ fileRecalcOffsize (passState d h n k) f =
      (0, passState d (fun x => if x = f then (h x).laidOut d.toGeometry k else h x)
        (n + if (h f).size = 0 then 0 else 1) (k + (h f).used))) ∨
    (¬ (h f).fitsAt d.toGeometry k ∧ (fileRecalcOffsize (passState d h n k) f).1 = -1) := by
  unfold fileRecalcOffsize
  by_cases hs : (h f).size = 0
  · left
    refine ⟨fun h0 => absurd hs h0, ?_⟩
    simp only [passState, hs, ne_eq, not_true_eq_false, ↓reduceIte, VdfFile.used, Nat.add_zero,
      VdfDrive.modifyFile, Prod.mk.injEq, true_and]
    congr 1
    funext x
    split
    · rename_i e; subst e; simp [VdfFile.laidOut, hs]
    · rfl
  · simp only [passState, ne_eq, hs, not_false_eq_true, ↓reduceIte, sectorOf_add]
    by_cases h1 : d.sectors ≤ sectorOf d.toGeometry k
    · right
      refine ⟨fun hf => ?_, by simp only [h1, ↓reduceIte]⟩
      have := (hf hs).1
      omega
    by_cases h2 : d.sectors ≤ sectorOf d.toGeometry (k + (h f).clusters)
    · right
      refine ⟨fun hf => ?_, by simp only [h1, h2, ↓reduceIte]⟩
      have := (hf hs).2
      omega
    · left
      refine ⟨fun _ => by omega, ?_⟩
      simp only [h1, h2, ↓reduceIte, VdfFile.used, hs, VdfDrive.modifyFile, u32_u32_add,
        Nat.add_assoc, Prod.mk.injEq, true_and]
      congr 1
      funext x
      by_cases e : x = f
      · subst e; simp [VdfFile.laidOut, hs, Nat.add_assoc]
      · simp [e]

/-- The clusters of the files before `f`. -/
def usedBefore (file : FileId → VdfFile) (l : List FileId) (f : FileId) : Nat :=
  usedClusters file (l.takeWhile (· ≠ f))

/-- The whole pass. -/
theorem offsizePass_spec (d : VdfDrive) (l : List FileId) (hl : l.Nodup) (h : FileId → VdfFile)
    (n k : Nat) :
    ((∀ f ∈ l, (h f).fitsAt d.toGeometry (k + usedBefore h l f)) ∧
      offsizePass (passState d h n k) l =
        (0, passState d
          (fun x => if x ∈ l then (h x).laidOut d.toGeometry (k + usedBefore h l x) else h x)
          (n + (nonempty h l).length) (k + usedClusters h l))) ∨
    ((¬ ∀ f ∈ l, (h f).fitsAt d.toGeometry (k + usedBefore h l f)) ∧
      (offsizePass (passState d h n k) l).1 = -1) := by
  induction l generalizing h n k with
  | nil => left; exact ⟨nofun, by simp [offsizePass, nonempty]⟩
  | cons f l ih =>
    obtain ⟨hfl, hl⟩ := List.nodup_cons.mp hl
    have hself : usedBefore h (f :: l) f = 0 := by simp [usedBefore]
    rcases fileRecalcOffsize_spec d h n k f with ⟨h1, e1⟩ | ⟨h1, e1⟩
    · -- The files that follow are not touched by the step.
      have hkeep : ∀ g ∈ l, (if g = f then (h g).laidOut d.toGeometry k else h g) = h g := by
        intro g hg
        rw [if_neg (by rintro rfl; exact hfl hg)]
      have hbefore : ∀ g ∈ l, k + (h f).used +
          usedBefore (fun x => if x = f then (h x).laidOut d.toGeometry k else h x) l g =
          k + usedBefore h (f :: l) g := by
        intro g hg
        have hne : f ≠ g := by rintro rfl; exact hfl hg
        have e : usedBefore (fun x => if x = f then (h x).laidOut d.toGeometry k else h x) l g =
            usedBefore h l g :=
          usedClusters_congr fun x hx => hkeep x (List.takeWhile_subset _ hx)
        rw [e, Nat.add_assoc]
        simp [usedBefore, hne]
      have hiff : (∀ g ∈ f :: l, (h g).fitsAt d.toGeometry (k + usedBefore h (f :: l) g)) ↔
          ∀ g ∈ l, (if g = f then (h g).laidOut d.toGeometry k else h g).fitsAt d.toGeometry
            (k + (h f).used +
              usedBefore (fun x => if x = f then (h x).laidOut d.toGeometry k else h x) l g) := by
        constructor
        · intro hall g hg
          rw [hkeep g hg, hbefore g hg]
          exact hall g (.tail _ hg)
        · intro hall g hg
          rcases List.mem_cons.mp hg with rfl | hg
          · rw [hself]; exact h1
          · rw [← hbefore g hg]
            have := hall g hg
            rwa [hkeep g hg] at this
      rw [hiff]
      have hrun : offsizePass (passState d h n k) (f :: l) =
          offsizePass (passState d (fun x => if x = f then (h x).laidOut d.toGeometry k else h x)
            (n + if (h f).size = 0 then 0 else 1) (k + (h f).used)) l := by
        rw [offsizePass, e1]; rfl
      rw [hrun]
      rcases ih hl _ (n + if (h f).size = 0 then 0 else 1) (k + (h f).used) with ⟨h2, e2⟩ | h2
      · left
        refine ⟨h2, ?_⟩
        rw [e2, usedClusters_congr hkeep, nonempty_congr hkeep]
        congr 2
        · funext x
          by_cases hx : x ∈ l
          · have hne : x ≠ f := by rintro rfl; exact hfl hx
            simp only [hx, ↓reduceIte, hne, List.mem_cons, or_true, hbefore x hx]
          · by_cases hxf : x = f
            · subst hxf
              simp [hx, hself]
            · simp [hx, hxf]
        · by_cases hs : (h f).size = 0 <;> simp [nonempty, hs] ; omega
        · rw [usedClusters_cons, Nat.add_assoc]
      · right; exact h2
    · right
      refine ⟨fun hall => h1 ?_, ?_⟩
      · have := hall f (List.mem_cons_self ..)
        rwa [hself] at this
      · rw [offsizePass]
        generalize fileRecalcOffsize (passState d h n k) f = p at e1
        obtain ⟨r, d'⟩ := p
        simp only at e1
        simp [e1]

/-! ## A recalculated drive -/

/-- The files after a recalculation. -/
def recalcFile (d : VdfDrive) (x : FileId) : VdfFile :=
  if x ∈ d.allFiles then (numbered d x).laidOut d.toGeometry (usedBefore (numbered d) d.allFiles x)
  else if x = d.rootDir then numbered d x
  else d.file x

/-- The clusters of all files. -/
def totalUsed (d : VdfDrive) : Nat := usedClusters (numbered d) d.allFiles

/-- The files with clusters, in list order. -/
def laidFiles (d : VdfDrive) : List FileId := nonempty (numbered d) d.allFiles

/-- The drive after a recalculation, with the array that `qsort` left. -/
def recalcDrive (d : VdfDrive) (rs : List FileRange) : VdfDrive :=
  { passState d (recalcFile d) (laidFiles d).length (totalUsed d) with
    ranges := some rs, dirty := false }

/-- The array that `qsort` gets. -/
def unsortedRanges (d : VdfDrive) : List FileRange :=
  (storedRanges { d with file := recalcFile d }).take (laidFiles d).length

/-- A recalculation may run, and every file passes the capacity checks. -/
structure CanRecalc (d : VdfDrive) : Prop where
  dirty : d.dirty = true
  valid : d.isValid = true
  unlocked : d.isLocked = false
  fits : ∀ f ∈ d.allFiles,
    (numbered d f).fitsAt d.toGeometry (usedBefore (numbered d) d.allFiles f)

theorem numbered_congr {d e : VdfDrive} {x : FileId} (hg : e.toGeometry = d.toGeometry)
    (hl : e.label = d.label) (hf : e.file = d.file) : numbered e x = numbered d x := by
  have h1 : ∀ f, fentsNeeded e f = fentsNeeded d f := fun f => by simp only [fentsNeeded, hg, hf]
  have h2 : ∀ p, reservedSlots e p = reservedSlots d p := fun p => by
    simp only [reservedSlots, hl, hf]
  have h3 : ∀ l, entrySlots e l = entrySlots d l := fun l => by simp only [entrySlots, h1]
  have h4 : ∀ p, dirSlots e p = dirSlots d p := fun p => by simp only [dirSlots, h2, h3, hf]
  have h5 : sized e x = sized d x := by simp only [sized, hf, hg, h4]
  simp only [numbered, hf, h5, numberedAt, h1, slotStart, h2, h3]

/-- What a recalculation of a tree gives, and when it succeeds. -/
theorem recalc_iff {d d' : VdfDrive} (ht : d.IsTree) (hds : d.dataStart < 2 ^ 32) :
    Recalc d d' ↔ CanRecalc d ∧
      ∃ rs, Qsort.Result cmpFilerange (unsortedRanges d) rs ∧ d' = recalcDrive d rs := by
  -- The tree that `dir_recalc` sees differs from `d` in the counters only.
  let e : VdfDrive := { d with dataEnd := d.dataStart, nonemptyFileCnt := 0, dataClusterEnd := 2 }
  have hte : e.IsTree := ⟨ht.1, ht.2, ht.3, ht.4, ht.5, ht.6, ht.7, ht.8⟩
  obtain ⟨fuel, h, hrun, hin, hout⟩ := dirRecalc_root hte
  have hin : ∀ x, d.Below x d.rootDir → h x = numbered d x := fun x hx =>
    (hin x hx).trans (numbered_congr rfl rfl rfl)
  have hall : ∀ f ∈ d.allFiles, h f = numbered d f := fun f hf =>
    hin f ((ht.mem_allFiles f).mp hf).1
  have hstate : ({ e with file := h } : VdfDrive) = passState d h 0 0 := by
    have h1 : sectorOf d.toGeometry 0 = d.dataStart := by
      rw [sectorOf, Nat.zero_mul, Nat.add_zero, u32_of_lt hds]
    simp [passState, e, h1, u32]
  have hsame : ∀ f ∈ d.allFiles, usedBefore h d.allFiles f = usedBefore (numbered d) d.allFiles f :=
    fun f _ => usedClusters_congr fun x hx => hall x (List.takeWhile_subset _ hx)
  have hfile : (fun x => if x ∈ d.allFiles then
      (h x).laidOut d.toGeometry (0 + usedBefore h d.allFiles x) else h x) = recalcFile d := by
    funext x
    by_cases hx : x ∈ d.allFiles
    · simp only [recalcFile, hx, ↓reduceIte, hall x hx, hsame x hx, Nat.zero_add]
    · simp only [recalcFile, hx, ↓reduceIte]
      by_cases hr : x = d.rootDir
      · subst hr
        rw [if_pos rfl, hin _ (VdfDrive.Below.refl _)]
      · rw [if_neg hr]
        refine hout x fun hb => hx ((ht.mem_allFiles x).mpr ⟨hb, fun e => absurd e hr⟩)
  have hspec := offsizePass_spec d d.allFiles ht.nodup_allFiles h 0 0
  rw [hfile, usedClusters_congr hall, nonempty_congr hall] at hspec
  simp only [Nat.zero_add] at hspec
  have hfits : (∀ f ∈ d.allFiles, (h f).fitsAt d.toGeometry (usedBefore h d.allFiles f)) ↔
      ∀ f ∈ d.allFiles,
        (numbered d f).fitsAt d.toGeometry (usedBefore (numbered d) d.allFiles f) := by
    constructor
    · intro hf f hm; have := hf f hm; rwa [hall f hm, hsame f hm] at this
    · intro hf f hm; rw [hall f hm, hsame f hm]; exact hf f hm
  -- The second half of the run.
  have hlay : ∀ qsort, ((∀ f ∈ d.allFiles, (h f).fitsAt d.toGeometry (usedBefore h d.allFiles f)) ∧
      layOut qsort (passState d h 0 0) = (0, recalcDrive d (qsort (unsortedRanges d)))) ∨
      ((¬ ∀ f ∈ d.allFiles, (h f).fitsAt d.toGeometry (usedBefore h d.allFiles f)) ∧
        (layOut qsort (passState d h 0 0)).1 = -1) := by
    intro qsort
    rcases hspec with ⟨h1, e1⟩ | ⟨h1, e1⟩
    · refine .inl ⟨h1, ?_⟩
      have e2 : offsizePass (passState d h 0 0) (passState d h 0 0).allFiles = _ := e1
      simp only [layOut, e2]
      rfl
    · refine .inr ⟨h1, ?_⟩
      have e2 : (offsizePass (passState d h 0 0) (passState d h 0 0).allFiles).1 = -1 := e1
      simp only [layOut, e2, ↓reduceIte]
  constructor
  · rintro ⟨hdirty, qsort, fuel', hq, hv⟩
    unfold vdfDriveRecalc at hv
    split at hv
    · cases hv
    rename_i hval
    split at hv
    · cases hv
    rename_i hlock
    rw [if_neg (by simp [hdirty])] at hv
    obtain ⟨d₁, hd₁, hv⟩ := Option.map_eq_some_iff.mp hv
    have e₁ : d₁ = passState d h 0 0 := by
      rw [← hstate]; exact dirRecalc_unique hd₁ hrun
    rw [e₁] at hv
    rcases hlay qsort with ⟨h1, e2⟩ | ⟨h1, e2⟩
    · rw [e2] at hv
      cases hv
      exact ⟨⟨hdirty, by simpa using hval, by simpa using hlock, hfits.mp h1⟩, _, hq _, rfl⟩
    · rw [hv] at e2
      cases e2
  · rintro ⟨⟨hdirty, hval, hlock, hfit⟩, rs, hrs, rfl⟩
    obtain ⟨qsort, hq, hqe⟩ := hrs.exists_lawful
    refine ⟨hdirty, qsort, fuel, hq, ?_⟩
    rw [vdfDriveRecalc, if_neg (by simp [hval]), if_neg (by simp [hlock]), if_neg (by simp [hdirty])]
    refine Option.map_eq_some_iff.mpr ⟨_, hrun, ?_⟩
    rw [hstate]
    rcases hlay qsort with ⟨-, e2⟩ | ⟨h1, -⟩
    · rw [e2, hqe]
    · exact absurd (hfits.mpr hfit) h1

end Vdf
