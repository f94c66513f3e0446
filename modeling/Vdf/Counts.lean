import Vdf.Partition
import Vdf.Rooted

/-!
# The counts of a file

The sizes and the cluster numbers of a file are `uint32_t`. Every write to them is a conversion or a
quotient of one, so that they stay in range over every run (`Run.countsFit`).
-/

namespace Vdf

open Word

/-- The counts of a file fit their types. -/
structure VdfFile.CountsFit (fil : VdfFile) : Prop where
  size : fil.size < 2 ^ 32
  clusters : fil.clusters < 2 ^ 32
  end_ : fil.end_ < 2 ^ 32

/-- Those of every file do. -/
def VdfDrive.CountsFit (d : VdfDrive) : Prop := ∀ f, (d.file f).CountsFit

theorem virtClusters_lt (bpc size : Nat) : virtClusters bpc size < 2 ^ 32 :=
  Nat.lt_of_le_of_lt (Nat.div_le_self ..) (u32_lt _)

theorem dirClusters_lt (bpc size : Nat) : dirClusters bpc size < 2 ^ 32 :=
  Nat.lt_of_le_of_lt (Nat.div_le_self ..) (u32_lt _)

namespace VdfDrive.CountsFit

variable {d d' : VdfDrive}

theorem congr (h : d.CountsFit) (e : d'.file = d.file) : d'.CountsFit := fun f => by
  rw [e]
  exact h f

/-- A write to one file. -/
theorem modifyFile (h : d.CountsFit) {f : FileId} {g : VdfFile → VdfFile}
    (hg : (d.file f).CountsFit → (g (d.file f)).CountsFit) : (d.modifyFile f g).CountsFit := by
  intro x
  rw [VdfDrive.modifyFile_file]
  split
  · rename_i e
    rw [e]
    exact hg (h f)
  · exact h x

/-- A write that is not to the counts. -/
theorem edit (h : d.CountsFit) {f : FileId} {g : VdfFile → VdfFile}
    (hg : ∀ a, (g a).size = a.size ∧ (g a).clusters = a.clusters ∧ (g a).end_ = a.end_) :
    (d.modifyFile f g).CountsFit :=
  h.modifyFile fun ha => by
    obtain ⟨h1, h2, h3⟩ := hg (d.file f)
    exact ⟨h1.trans_lt ha.size, h2.trans_lt ha.clusters, h3.trans_lt ha.end_⟩

theorem setDirty (h : d.CountsFit) : (setDriveDirty d).CountsFit :=
  h.congr (setDriveDirty_file d)

end VdfDrive.CountsFit

open VdfDrive (CountsFit)

/-! ## New files -/

section Create

variable {d : VdfDrive} (h : d.CountsFit)
include h

theorem CountsFit.calcShortname (f : FileId) : (calcShortname d f).2.CountsFit := by
  unfold Vdf.calcShortname
  split
  · refine .setDirty (h.edit fun _ => ?_)
    exact ⟨rfl, rfl, rfl⟩
  · exact h

theorem CountsFit.unlinkFile (parent f : FileId) : (unlinkFile d parent f).CountsFit := by
  have hparent : (d.modifyFile parent fun dir =>
      { dir with entries := dir.entries.erase f }).CountsFit := h.edit fun _ => ⟨rfl, rfl, rfl⟩
  unfold Vdf.unlinkFile freeFile
  refine VdfDrive.CountsFit.edit (hparent.congr ?_) fun _ => ?_
  · rfl
  · exact ⟨rfl, rfl, rfl⟩

theorem CountsFit.linkFile (parent f : FileId) : (linkFile d parent f).CountsFit := by
  have hfile : (d.modifyFile f fun _ => { parent := some parent }).CountsFit :=
    h.modifyFile fun _ => ⟨Nat.two_pow_pos 32, Nat.two_pow_pos 32, Nat.two_pow_pos 32⟩
  have hparent : ((d.modifyFile f fun _ => { parent := some parent }).modifyFile parent fun dir =>
      { dir with entries := dir.entries ++ [f], dirCnt := dir.dirCnt + 1 }).CountsFit :=
    hfile.edit fun _ => ⟨rfl, rfl, rfl⟩
  unfold Vdf.linkFile
  refine .setDirty ?_
  exact hparent

theorem CountsFit.createFile (parent : FileId) (name : List UInt8) (alloc : Option FileId)
    (strdup : Bool) : (createFile d parent name alloc strdup).2.CountsFit := by
  unfold Vdf.createFile
  split
  · exact h
  · split
    · exact h
    · rename_i f
      have hlink := CountsFit.linkFile h parent f
      dsimp only
      split
      · exact CountsFit.unlinkFile hlink parent f
      · have hname : ((Vdf.linkFile d parent f).modifyFile f fun x => { x with name }).CountsFit :=
          hlink.edit fun _ => ⟨rfl, rfl, rfl⟩
        have hshort := CountsFit.calcShortname hname f
        split
        · rename_i hcalc
          rw [hcalc] at hshort
          exact CountsFit.unlinkFile hshort parent f
        · rename_i hcalc
          rw [hcalc] at hshort
          exact hshort

theorem CountsFit.setFileDate (f : FileId) (date : Int) : (vdfSetFileDate d f date).2.CountsFit := by
  unfold vdfSetFileDate
  split_ifs
  · exact h
  · exact h
  · refine .setDirty (h.edit fun _ => ?_)
    exact ⟨rfl, rfl, rfl⟩

theorem CountsFit.setFileSize (f : FileId) (size : Nat) : (vdfSetFileSize d f size).2.CountsFit := by
  unfold vdfSetFileSize
  dsimp only
  split_ifs
  · exact h
  · exact h
  · exact h
  · exact (h.modifyFile fun ha => ⟨u32_lt _, virtClusters_lt _ _, ha.end_⟩).setDirty

/-- What a call that creates a file makes of the file. -/
theorem CountsFit.create {qsort : List FileRange → List FileRange} {fuel : Nat} {c : Call}
    {r : Except Errno Unit} {d' : VdfDrive} (hc : c.creates ≠ none)
    (hrun : c.apply qsort fuel d = some (r, d')) : d'.CountsFit := by
  have hnew := CountsFit.createFile h
  cases c with
  | addDir p name a dup time =>
    have hnew := hnew p name a dup
    obtain rfl : (vdfAddDir d p name a dup time).2 = d' :=
      congrArg Prod.snd (Option.some.inj hrun)
    unfold vdfAddDir
    split <;> rename_i hres <;> rw [hres] at hnew
    · exact hnew
    · refine CountsFit.setFileDate (hnew.edit fun _ => ?_) _ _
      exact ⟨rfl, rfl, rfl⟩
  | addFileReal p name path st a dup =>
    obtain rfl : (vdfAddFileReal d p name path st a dup).2 = d' :=
      congrArg Prod.snd (Option.some.inj hrun)
    unfold vdfAddFileReal
    split
    · exact h
    · rename_i st
      have hnew := hnew p (name.getD (pathName path)) a dup
      split_ifs
      · exact h
      · split <;> rename_i hres <;> rw [hres] at hnew
        · exact hnew
        · refine CountsFit.setFileDate (hnew.modifyFile fun ha => ?_) _ _
          exact ⟨u32_lt _, u32_lt _, ha.end_⟩
  | addFileVirt p name len a dup time =>
    have hnew := hnew p name a dup
    obtain rfl : (vdfAddFileVirt d p name len a dup time).2 = d' :=
      congrArg Prod.snd (Option.some.inj hrun)
    unfold vdfAddFileVirt
    split <;> rename_i hres <;> rw [hres] at hnew
    · exact hnew
    · refine CountsFit.setFileDate (CountsFit.setFileSize (hnew.edit fun _ => ?_) _ _) _ _
      exact ⟨rfl, rfl, rfl⟩
  | _ => exact absurd rfl hc

end Create

/-! ## Recalculation -/

theorem CountsFit.fileRecalcDir {d : VdfDrive} (h : d.CountsFit) (f : FileId) :
    (fileRecalcDir d f).CountsFit := by
  unfold Vdf.fileRecalcDir
  split
  · exact h
  · refine VdfDrive.CountsFit.edit (h.edit fun _ => ?_) fun _ => ?_
    · exact ⟨rfl, rfl, rfl⟩
    · exact ⟨rfl, rfl, rfl⟩

theorem CountsFit.dirRecalc {fuel : Nat} {d d' : VdfDrive} {dir : FileId} (h : d.CountsFit)
    (hrun : dirRecalc fuel d dir = some d') : d'.CountsFit := by
  induction fuel generalizing d d' dir with
  | zero => cases hrun
  | succ fuel ih =>
    -- The entries, in order.
    have hentries (l : List FileId) : ∀ {e e' : VdfDrive}, e.CountsFit →
        l.foldlM (fun d f => if (d.file f).isDir then Vdf.dirRecalc fuel d f
          else some (Vdf.fileRecalcDir d f)) e = some e' → e'.CountsFit := by
      induction l with
      | nil =>
        intro e e' he hfold
        cases hfold
        exact he
      | cons f l ihl =>
        intro e e' he hfold
        rw [List.foldlM_cons, Option.bind_eq_bind, Option.bind_eq_some_iff] at hfold
        obtain ⟨e₁, hstep, hfold⟩ := hfold
        refine ihl ?_ hfold
        split at hstep
        · exact ih he hstep
        · cases hstep
          exact CountsFit.fileRecalcDir he f
    rw [Vdf.dirRecalc] at hrun
    simp only [Option.bind_eq_bind, Option.bind_eq_some_iff] at hrun
    obtain ⟨d₁, hfold, hrun⟩ := hrun
    have hstart : (d.modifyFile dir fun x =>
        { x with dirFentCnt := reservedSlots d dir }).CountsFit := h.edit fun _ => ⟨rfl, rfl, rfl⟩
    have hsize : (d₁.modifyFile dir fun x => { x with
        size := dirSize (d₁.file dir).dirFentCnt
        clusters := dirClusters d₁.bpc (dirSize (d₁.file dir).dirFentCnt) }).CountsFit :=
      (hentries _ hstart hfold).modifyFile fun ha => ⟨u32_lt _, dirClusters_lt _ _, ha.end_⟩
    split at hrun
    · cases hrun
      exact CountsFit.fileRecalcDir hsize dir
    · cases hrun
      exact hsize

theorem CountsFit.fileRecalcOffsize {d : VdfDrive} (h : d.CountsFit) (f : FileId) :
    (fileRecalcOffsize d f).2.CountsFit := by
  intro x
  have hx := h x
  simp only [Vdf.fileRecalcOffsize]
  split_ifs
  all_goals
    simp only [VdfDrive.modifyFile_file]
    split_ifs
  all_goals first
    | exact hx
    | exact ⟨hx.size, hx.clusters, u32_lt _⟩
    | exact ⟨hx.size, hx.clusters, hx.end_⟩

theorem CountsFit.offsizePass {d : VdfDrive} (h : d.CountsFit) (l : List FileId) :
    (offsizePass d l).2.CountsFit := by
  induction l generalizing d with
  | nil => exact h
  | cons f l ih =>
    have hf := CountsFit.fileRecalcOffsize h f
    simp only [Vdf.offsizePass]
    split
    · exact hf
    · exact ih hf

/-- Whatever `vdf_drive_recalc` returns. -/
theorem CountsFit.recalc {qsort : List FileRange → List FileRange} {fuel : Nat}
    {d d' : VdfDrive} {r : Int} (h : d.CountsFit)
    (hrun : vdfDriveRecalc qsort fuel d = some (r, d')) : d'.CountsFit := by
  unfold vdfDriveRecalc at hrun
  split_ifs at hrun
  · cases hrun; exact h
  · cases hrun; exact h
  · cases hrun; exact h
  · obtain ⟨d₁, hdir, hlay⟩ := Option.map_eq_some_iff.mp hrun
    have hstart : VdfDrive.CountsFit
        { d with dataEnd := d.dataStart, nonemptyFileCnt := 0, dataClusterEnd := 2 } := h
    have hd₁ : d₁.CountsFit := CountsFit.dirRecalc hstart hdir
    have hpass := CountsFit.offsizePass hd₁ d₁.allFiles
    simp only [layOut] at hlay
    split at hlay <;> cases hlay
    · exact hpass
    · exact hpass.congr rfl

/-! ## Runs -/

theorem CountsFit.relinkFile {d : VdfDrive} (h : d.CountsFit) (f : FileId) {p np : FileId}
    (hne : p ≠ np) : (relinkFile d f p np).CountsFit := by
  rw [relinkFile_eq d hne]
  exact fun x => ⟨(h x).size, (h x).clusters, (h x).end_⟩

theorem countsFit_createRootDir : createRootDir.CountsFit :=
  ⟨Nat.two_pow_pos 32, Nat.two_pow_pos 32, Nat.two_pow_pos 32⟩

section Runs

variable {qsort : List FileRange → List FileRange} {size flags : Nat} {ext : DriveExt}
  {junk : Uninit} {w₀ w w' : World} {c : Call} {r : Except Errno Unit}

/-- Every step that is defined. -/
theorem CountsFit.step (hl : Linked w) (h : w.drive.CountsFit) (hs : w.Step qsort c r w') :
    w'.drive.CountsFit := by
  obtain ⟨fuel, d', -, hrun, hw'⟩ := hs.apply
  have hd' : w'.drive = d' := by rw [hw', World.after_drive]
  have hdoes := (hl.does hs).1
  rw [hd'] at hdoes ⊢
  cases hdoes with
  | refused | stays | clean => exact h
  | createFailed hc | created hc =>
    exact CountsFit.create h (by rw [hc]; exact Option.some_ne_none _) hrun
  | deleted =>
    intro x
    exact ⟨(h x).size, (h x).clusters, (h x).end_⟩
  | moved _ _ hne =>
    refine (CountsFit.relinkFile h _ hne).edit fun _ => ?_
    exact ⟨rfl, rfl, rfl⟩
  | moveFailed _ _ hne => exact CountsFit.relinkFile h _ hne
  | up | down | renamed | renameFailed | shortRenamed | fatSized | dated | attrSet =>
    refine .setDirty (h.edit fun _ => ?_)
    exact ⟨rfl, rfl, rfl⟩
  | sized =>
    exact .setDirty (h.modifyFile fun ha => ⟨u32_lt _, virtClusters_lt _ _, ha.end_⟩)
  | labelled => exact VdfDrive.CountsFit.setDirty (h.congr rfl)
  | labelLost | serialSet | locked | unlocked => exact h.congr rfl
  | laidOut _ _ _ hrec => exact CountsFit.recalc h hrec
  | layoutFailed _ _ _ _ hrec => exact CountsFit.recalc h hrec
  | laidOutLocked _ _ _ hrec => exact (CountsFit.recalc h hrec).congr rfl
  | recreated _ _ hrec => exact h.congr (createdriveExt_file hrec).2

/-- The counts fit over every run from a new drive. -/
theorem Reachable.countsFit (h : Reachable qsort w) : w.drive.CountsFit := by
  obtain ⟨size, flags, ext, junk, w₀, hcreate, run⟩ := h
  have hnew : w₀.drive.CountsFit := by
    obtain ⟨d, hd, rfl⟩ := Option.map_eq_some_iff.mp hcreate
    intro f
    rw [(createdriveExt_new hd).2.1]
    exact countsFit_createRootDir
  exact (run.induct (P := fun w => Linked w ∧ w.drive.CountsFit)
    ⟨(rooted_create hcreate).linked, hnew⟩
    fun _ ⟨hl, h⟩ hs => ⟨hl.step hs, CountsFit.step hl h hs⟩).2

end Runs

end Vdf
