import Vdf.Layout

/-!
# What `vdf_drive_recalc` leaves alone

A recalculation, successful or not, writes the layout: the slots, clusters and sectors of the files,
the sizes of directories, the counters of the drive and the ranges. Everything else of the drive
and of its files stays (`Relaid`). This holds for any heap, a tree or not.
-/

namespace Vdf

open Word

/-- The file `a` with the layout of `b`. -/
def VdfFile.relayout (a b : VdfFile) : VdfFile :=
  { a with
    size := b.size, clusters := b.clusters, start := b.start, end_ := b.end_
    dataEnd := b.dataEnd, startsect := b.startsect, endsect := b.endsect
    fentStart := b.fentStart, fentCnt := b.fentCnt, dirFentCnt := b.dirFentCnt }

/-- `d'` is `d` with another layout. Only the root and other directories get a new size. -/
structure Relaid (d d' : VdfDrive) : Prop where
  drive : d' = { d with
    file := d'.file, nonemptyFileCnt := d'.nonemptyFileCnt, ranges := d'.ranges
    dirty := d'.dirty, dataEnd := d'.dataEnd, dataClusterEnd := d'.dataClusterEnd }
  file : ∀ x, d'.file x = (d.file x).relayout (d'.file x)
  size : ∀ x, (d.file x).isDir = false → x ≠ d.rootDir →
    (d'.file x).size = (d.file x).size ∧ (d'.file x).clusters = (d.file x).clusters

namespace Relaid

variable {d d' d'' : VdfDrive}

theorem refl (d : VdfDrive) : Relaid d d := ⟨rfl, fun _ => rfl, fun _ _ _ => ⟨rfl, rfl⟩⟩

section Fields

variable (h : Relaid d d')
include h

theorem geometry : d'.toGeometry = d.toGeometry := by rw [h.drive]

theorem rootDir : d'.rootDir = d.rootDir := by rw [h.drive]

theorem allFiles : d'.allFiles = d.allFiles := by rw [h.drive]

theorem fileCnt : d'.fileCnt = d.fileCnt := by rw [h.drive]

theorem label : d'.label = d.label := by rw [h.drive]

theorem lockcnt : d'.lockcnt = d.lockcnt := by rw [h.drive]

theorem deleted : d'.deleted = d.deleted := by rw [h.drive]

theorem parent (x : FileId) : (d'.file x).parent = (d.file x).parent := by rw [h.file]; rfl

theorem entries (x : FileId) : (d'.file x).entries = (d.file x).entries := by rw [h.file]; rfl

theorem fileDeleted (x : FileId) : (d'.file x).deleted = (d.file x).deleted := by
  rw [h.file]; rfl

theorem dirCnt (x : FileId) : (d'.file x).dirCnt = (d.file x).dirCnt := by rw [h.file]; rfl

theorem attr (x : FileId) : (d'.file x).attr = (d.file x).attr := by rw [h.file]; rfl

theorem name (x : FileId) : (d'.file x).name = (d.file x).name := by rw [h.file]; rfl

theorem shortname (x : FileId) : (d'.file x).shortname = (d.file x).shortname := by
  rw [h.file]; rfl

theorem longname (x : FileId) : (d'.file x).longname = (d.file x).longname := by rw [h.file]; rfl

theorem date (x : FileId) : (d'.file x).date = (d.file x).date := by rw [h.file]; rfl

theorem isDir (x : FileId) : (d'.file x).isDir = (d.file x).isDir := by rw [h.file]; rfl

theorem child : d'.Child = d.Child := by
  funext x p
  rw [VdfDrive.Child, h.parent]
  rfl

theorem below : d'.Below = d.Below := by rw [VdfDrive.Below, h.child]; rfl

/-- The tree stays. -/
theorem isTree (ht : d.IsTree) : d'.IsTree where
  root_parent := by rw [h.rootDir, h.parent]; exact ht.root_parent
  root_isDir := by rw [h.rootDir, h.isDir]; exact ht.root_isDir
  mem_entries x p := by rw [h.entries, h.child]; exact ht.mem_entries x p
  nodup_entries p := by rw [h.entries]; exact ht.nodup_entries p
  isDir x p := by rw [h.isDir, h.child]; exact ht.isDir x p
  acyclic := by rw [h.child]; exact ht.acyclic
  nodup_allFiles := by rw [h.allFiles]; exact ht.nodup_allFiles
  mem_allFiles x := by
    rw [h.allFiles, h.below, h.rootDir, h.geometry]
    exact ht.mem_allFiles x

theorem trans (h' : Relaid d' d'') : Relaid d d'' where
  drive := by rw [h'.drive, h.drive]
  file x := by rw [h'.file x, h.file x]; rfl
  size x hx hr := by
    obtain ⟨h1, h2⟩ := h.size x hx hr
    obtain ⟨h3, h4⟩ := h'.size x (by rw [h.isDir, hx]) (by rw [h.rootDir]; exact hr)
    exact ⟨h3.trans h1, h4.trans h2⟩

end Fields

/-- A write to the layout of one file. -/
theorem modifyFile (f : FileId) {g : VdfFile → VdfFile} (hg : ∀ a, g a = a.relayout (g a))
    (hs : (d.file f).isDir = false → f ≠ d.rootDir →
      (g (d.file f)).size = (d.file f).size ∧ (g (d.file f)).clusters = (d.file f).clusters) :
    Relaid d (d.modifyFile f g) where
  drive := rfl
  file x := by
    rw [VdfDrive.modifyFile_file]
    split
    · exact hg _
    · rfl
  size x hx hr := by
    rw [VdfDrive.modifyFile_file]
    split
    · rename_i e
      subst e
      exact hs hx hr
    · exact ⟨rfl, rfl⟩

/-- A write to the counters. -/
theorem counters (d : VdfDrive) (n : Nat) (rs : Option (List FileRange)) (b : Bool) (e k : Nat) :
    Relaid d { d with
      nonemptyFileCnt := n, ranges := rs, dirty := b, dataEnd := e, dataClusterEnd := k } :=
  ⟨rfl, fun _ => rfl, fun _ _ _ => ⟨rfl, rfl⟩⟩

end Relaid

/-! ## The passes -/

theorem fileRecalcDir_relaid (d : VdfDrive) (f : FileId) : Relaid d (fileRecalcDir d f) := by
  unfold fileRecalcDir
  split
  · exact .refl d
  · exact (Relaid.modifyFile f (fun _ => rfl) fun _ _ => ⟨rfl, rfl⟩).trans
      (Relaid.modifyFile _ (fun _ => rfl) fun _ _ => ⟨rfl, rfl⟩)

theorem foldlM_relaid {v : VdfDrive → FileId → Option VdfDrive} (l : List FileId)
    {d d' : VdfDrive} (hv : ∀ {e f e'}, f ∈ l → v e f = some e' → Relaid e e')
    (h : l.foldlM v d = some d') : Relaid d d' := by
  induction l generalizing d with
  | nil => cases h; exact .refl _
  | cons f l ih =>
    rw [List.foldlM_cons, Option.bind_eq_bind, Option.bind_eq_some_iff] at h
    obtain ⟨d₁, h1, h2⟩ := h
    exact (hv (List.mem_cons_self ..) h1).trans (ih (fun hf => hv (.tail _ hf)) h2)

theorem dirRecalc_relaid {fuel : Nat} {d d' : VdfDrive} {dir : FileId}
    (hdir : dir = d.rootDir ∨ (d.file dir).isDir = true) (h : dirRecalc fuel d dir = some d') :
    Relaid d d' := by
  induction fuel generalizing d d' dir with
  | zero => cases h
  | succ fuel ih =>
    rw [dirRecalc] at h
    simp only [Option.bind_eq_bind, Option.bind_eq_some_iff] at h
    obtain ⟨d₁, h1, h2⟩ := h
    have r₁ : Relaid d (d.modifyFile dir fun x => { x with dirFentCnt := reservedSlots d dir }) :=
      Relaid.modifyFile dir (fun _ => rfl) fun _ _ => ⟨rfl, rfl⟩
    have r₂ : Relaid d d₁ := r₁.trans (foldlM_relaid _ (fun {e f e'} _ hv => by
      split at hv
      · rename_i hd; exact ih (.inr hd) hv
      · cases hv; exact fileRecalcDir_relaid e f) h1)
    have r₃ : Relaid d (d₁.modifyFile dir fun x =>
        { x with size := dirSize (d₁.file dir).dirFentCnt
                 clusters := dirClusters d₁.bpc (dirSize (d₁.file dir).dirFentCnt) }) := by
      refine r₂.trans (Relaid.modifyFile dir (fun _ => rfl) fun hd hr => ?_)
      rw [r₂.isDir] at hd
      rw [r₂.rootDir] at hr
      rcases hdir with hroot | hdir
      · exact absurd hroot hr
      · rw [hd] at hdir; cases hdir
    split at h2
    · cases h2; exact r₃.trans (fileRecalcDir_relaid _ dir)
    · cases h2; exact r₃

theorem fileRecalcOffsize_relaid (d : VdfDrive) (f : FileId) :
    Relaid d (fileRecalcOffsize d f).2 := by
  simp only [fileRecalcOffsize]
  split_ifs <;> refine ⟨rfl, fun x => ?_, fun x _ _ => ?_⟩ <;> dsimp only [VdfDrive.modifyFile] <;>
    split_ifs <;> first | rfl | exact ⟨rfl, rfl⟩

theorem offsizePass_relaid (d : VdfDrive) (l : List FileId) : Relaid d (offsizePass d l).2 := by
  induction l generalizing d with
  | nil => exact .refl d
  | cons f l ih =>
    simp only [offsizePass]
    split
    · exact fileRecalcOffsize_relaid d f
    · exact (fileRecalcOffsize_relaid d f).trans (ih _)

theorem layOut_relaid (qsort : List FileRange → List FileRange) (d : VdfDrive) :
    Relaid d (layOut qsort d).2 := by
  simp only [layOut]
  split
  · exact offsizePass_relaid d _
  · exact (offsizePass_relaid d _).trans (Relaid.counters _ _ _ _ _ _)

/-- Whatever `vdf_drive_recalc` returns, it writes the layout only. -/
theorem vdfDriveRecalc_relaid {qsort : List FileRange → List FileRange} {fuel : Nat}
    {d d' : VdfDrive} {r : Int} (h : vdfDriveRecalc qsort fuel d = some (r, d')) : Relaid d d' := by
  unfold vdfDriveRecalc at h
  split_ifs at h
  · cases h; exact .refl d
  · cases h; exact .refl d
  · cases h; exact .refl d
  · obtain ⟨d₁, h1, h2⟩ := Option.map_eq_some_iff.1 h
    have h2 : (layOut qsort d₁).2 = d' := by rw [h2]
    subst h2
    exact ((Relaid.counters d 0 d.ranges d.dirty d.dataStart 2).trans
      (dirRecalc_relaid (.inl rfl) h1)).trans (layOut_relaid qsort d₁)

end Vdf
