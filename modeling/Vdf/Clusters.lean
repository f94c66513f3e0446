import Vdf.DirSlots
import Vdf.Lookup

/-!
# The clusters in the directory entries

`fill_dirent` encodes the number of a file's first cluster in two halves of 16 bits, of which the high
one is 0 except on FAT32 (`entryCluster`). It reads the `start` of the file, and 0 stands for an empty
file and, on FAT32, for the root.

On FAT12 and FAT16 the root is told from the other directories by its size alone: it gets no clusters
there, but it has a size, and the `start` that it has is what a FAT32 layout left in it before the drive
was created again.
-/

namespace Vdf

open Word Buffer Record

/-! ## What is encoded -/

/-- The cluster number of the slot at `p`, its high and its low half. -/
def slotCluster (m : Buffer) (p : Nat) : Nat := m.get16 (p + 20) * 65536 + m.get16 (p + 26)

/-- The short slot of `fil`, where a request has room for it, has the cluster number `k`. -/
def EntryEncodes (d : VdfDrive) (fil : VdfFile) (k : Nat) : Prop :=
  ∀ (m : Buffer) (p : Nat) (entnum : Int) (maxcnt : Nat),
    (wantedRecords d entnum fil).length ≤ maxcnt →
    slotCluster (fillDirent d m p fil entnum maxcnt none).2
      (p + 32 * ((fillDirent d m p fil entnum maxcnt none).1 - 1)) = k

/-- The slots of `.` and `..` have the cluster numbers `k` and `l`. -/
def DotsEncode (d : VdfDrive) (dir : FileId) (k l : Nat) : Prop :=
  ∀ m p, slotCluster (fillDots d m p dir).2.1 p = k ∧ slotCluster (fillDots d m p dir).2.1 (p + 32) = l

/-- What `fill_dirent` makes of a file. -/
def entryCluster (d : VdfDrive) (fil : VdfFile) : Nat :=
  if fil.size = 0 ∨ fil.parent = none ∧ d.filesys = .fat32 then 0
  else if d.filesys = .fat32 then fil.start % 2 ^ 32 else fil.start % 65536

section Encode

variable {d : VdfDrive} {fil : VdfFile} {k l : Nat}

/-- A short slot that is read back. -/
theorem slotCluster_store (m : Buffer) (p : Nat) {name : List UInt8} (hn : name.length ≤ 32) :
    slotCluster (m.store p (direntRecord d fil name)) p = entryCluster d fil := by
  generalize hc : (if fil.size = 0 ∨ fil.parent = none ∧ d.filesys = .fat32 then 0
    else fil.start) = cluster
  obtain ⟨front, e⟩ : ∃ front, direntRecord d fil name = front ++
      (20, le 2 (if d.filesys = .fat32 then cluster >>> 16 else 0)) ::
        [(26, le 2 cluster), (28, le 4 (if hasFlag fil.attr vfaDir then 0 else fil.size))] := by
    rw [← hc]
    exact ⟨_, rfl⟩
  have hhigh : (direntRecord d fil name).Holds 20 2
      (if d.filesys = .fat32 then cluster >>> 16 else 0) := by
    rw [e]
    exact holds_of_last _ _ (by simp [Avoids])
  have hlow : (direntRecord d fil name).Holds 26 2 cluster := by
    rw [e, List.append_cons]
    exact holds_of_last _ _ (by simp [Avoids])
  have hw := direntRecord_within d fil hn
  rw [slotCluster, get16_store m p hw (by decide) hhigh, get16_store m p hw (by decide) hlow,
    entryCluster, ← hc]
  by_cases h0 : fil.size = 0 ∨ fil.parent = none ∧ d.filesys = .fat32
  · simp [h0]
  · by_cases h32 : d.filesys = .fat32
    · simp only [if_neg h0, if_pos h32, Nat.shiftRight_eq_div_pow]
      omega
    · simp only [if_neg h0, if_neg h32]
      omega

/-- A store leaves the slots outside alone. -/
theorem slotCluster_outside (m : Buffer) {p q : Nat} {r : Record} (hr : r.Within 32)
    (h : p + 32 ≤ q) : slotCluster (m.store q r) p = slotCluster m p := by
  have hout : ∀ x, x < q → m.store q r x = m x := fun x hx => by
    rw [store_eq_overlay m q hr]
    exact overlay_outside (.inl hx)
  simp only [slotCluster, get16, Nat.add_assoc]
  rw [hout _ (by omega), hout _ (by omega), hout _ (by omega), hout _ (by omega)]

theorem fillDirent_slotCluster (d : VdfDrive) (m : Buffer) (p : Nat) (fil : VdfFile) (entnum : Int)
    {maxcnt : Nat} (h : (wantedRecords d entnum fil).length ≤ maxcnt) :
    slotCluster (fillDirent d m p fil entnum maxcnt none).2
      (p + 32 * ((fillDirent d m p fil entnum maxcnt none).1 - 1)) = entryCluster d fil := by
  obtain ⟨m₀, hm⟩ := fillDirent_last d m p fil entnum h
  rw [hm]
  exact slotCluster_store _ _ (by rw [length_shortnameField]; decide)

theorem entryEncodes_iff : EntryEncodes d fil k ↔ entryCluster d fil = k := by
  constructor
  · intro h
    rw [← h (fun _ => 0) 0 0 _ (Nat.le_refl _)]
    exact (fillDirent_slotCluster d _ _ fil _ (Nat.le_refl _)).symm
  · rintro rfl m p entnum maxcnt h
    exact fillDirent_slotCluster d m p fil entnum h

theorem dotsEncode_iff {dir parent : FileId} (hp : (d.file dir).parent = some parent) :
    DotsEncode d dir k l ↔
      entryCluster d (d.file dir) = k ∧ entryCluster d (d.file parent) = l := by
  have hdots (m : Buffer) (p : Nat) :
      slotCluster (fillDots d m p dir).2.1 p = entryCluster d (d.file dir) ∧
        slotCluster (fillDots d m p dir).2.1 (p + 32) = entryCluster d (d.file parent) := by
    simp only [fillDots, hp, fillDirent_force]
    rw [slotCluster_outside _ (direntRecord_within d _ (by decide)) (Nat.le_refl _)]
    exact ⟨slotCluster_store _ _ (by decide), slotCluster_store _ _ (by decide)⟩
  constructor
  · intro h
    exact ⟨(hdots (fun _ => 0) 0).1.symm.trans (h _ 0).1, (hdots (fun _ => 0) 0).2.symm.trans (h _ 0).2⟩
  · rintro ⟨rfl, rfl⟩ m p
    exact hdots m p

end Encode

/-! ## Directories stay -/

/-- The calls that the property is about: no directory is deleted, and `VFA_DIR` stays as it is. -/
def KeepsDirs (w : World) : Call → Prop
  | .deleteFile f => (w.drive.file f).isDir = false
  | .setFileAttr _ _ mask => hasFlag mask vfaDir = false
  | _ => True

/-- Each structure with the union of a directory is one. -/
def Upright (w : World) : Prop := ∀ p ∈ w.dirs, (w.drive.file p).isDir = true

section Runs

variable {qsort : List FileRange → List FileRange} {d d' : VdfDrive} {w w' : World} {c : Call}
  {r : Except Errno Unit} {x : FileId}

/-- Only `vdf_delete_file` frees a file that was there. -/
theorem Does.fileDeleted (h : Does qsort d c r d') (hx : c.alloc ≠ some x) (hdel : c ≠ .deleteFile x) :
    (d'.file x).deleted = (d.file x).deleted := by
  cases h with
  | createFailed _ ha | created _ ha =>
    have hne : x ≠ _ := fun e => hx (e ▸ ha)
    simp [hne]
  | @deleted f =>
    have hne : x ≠ f := fun e => hdel (e ▸ rfl)
    simp [removeFile, hne]
  | moved _ _ hne =>
    rw [relinkFile_eq d hne, VdfDrive.modifyFile_file]
    split <;> rfl
  | moveFailed _ _ hne => rw [relinkFile_eq d hne, relist_file]
  | up | down | renamed | renameFailed | shortRenamed | sized | fatSized | dated | attrSet =>
    exact edit_file (·.deleted) fun _ => rfl
  | labelled => rw [setDriveDirty_file]
  | laidOut _ _ _ hrec => exact (vdfDriveRecalc_relaid hrec).fileDeleted x
  | layoutFailed _ _ _ _ hrec => exact (vdfDriveRecalc_relaid hrec).fileDeleted x
  | laidOutLocked _ _ _ hrec => exact (vdfDriveRecalc_relaid hrec).fileDeleted x
  | recreated _ _ hrec => rw [(createdriveExt_file hrec).2]
  | _ => rfl

theorem Does.isDir (h : Does qsort d c r d') (hx : c.alloc ≠ some x) (hdel : c ≠ .deleteFile x)
    (hmask : ∀ attr mask, c = .setFileAttr x attr mask → hasFlag mask vfaDir = false) :
    (d'.file x).isDir = (d.file x).isDir := by
  rw [VdfFile.isDir, VdfFile.isDir, h.fileDeleted hx hdel, (h.rewrite hx).dirFlag hmask]

theorem Upright.step (h : Upright w) (hl : Linked w) (hok : KeepsDirs w c)
    (hs : w.Step qsort c r w') : Upright w' := by
  obtain ⟨hdoes, hw', -⟩ := hl.does hs
  intro x hx
  rw [hw', World.after_dirs] at hx
  rcases hx with hx | ⟨rfl, hadds, ha⟩
  · have hd := h x hx
    have hnew : c.alloc ≠ some x := fun e => hs.alloc x e (hl.dirs_mem x hx)
    rw [hdoes.isDir hnew, hd]
    · rintro rfl
      exact nomatch hd.symm.trans hok
    · rintro attr mask rfl
      exact hok
  · obtain ⟨p, name, s, l, -, -, -, e⟩ := hdoes.new ha
    rw [e, VdfFile.isDir, addFile_fileDeleted, addFile, relist_file]
    simp [newFile_attr hadds]

theorem upright_create {size flags : Nat} {ext : DriveExt} {junk : Uninit} {w₀ : World}
    (h : World.create size flags ext junk = some w₀) : Upright w₀ := fun p hp => by
  have hr := rooted_create h
  simp only [VdfFile.isDir, hr.dir p hp, Bool.and_true]
  obtain ⟨d, hd, rfl⟩ := Option.map_eq_some_iff.1 h
  rw [(createdriveExt_new hd).2.1]
  rfl

/-- The directory of a file is the root or in `all_files` itself. -/
theorem Upright.parent (h : Upright w) (hl : Linked w) {p : FileId} (hc : w.drive.Child x p)
    (hp : p ≠ w.drive.rootDir) : p ∈ w.drive.allFiles ∧ (w.drive.file p).isDir = true := by
  have hdir := h p (hl.parent_mem x p hc)
  refine ⟨(hl.mem_allFiles p).2 ⟨hl.dirs_mem p (hl.parent_mem x p hc), ?_⟩, hdir⟩
  rw [if_neg hp]
  simp only [VdfFile.isDir, Bool.and_eq_true, Bool.not_eq_true'] at hdir
  exact hdir.1

end Runs

/-! ## A clean drive -/

/-- The first cluster of a file's own range: the files of `all_files` lie one behind the other, from
cluster 2 on. -/
def ownStart (d : VdfDrive) (f : FileId) : Nat := u32 (2 + usedBefore d.file d.allFiles f)

/-- Each file with clusters starts at its own range, and the elements of `ranges` say so. -/
structure Placed (d : VdfDrive) : Prop where
  start : ∀ f ∈ d.allFiles,
    (d.file f).start = if (d.file f).size = 0 then 0 else ownStart d f
  stored : ∀ rs, d.ranges = some rs → ∀ r ∈ rs, r.fatstart = (d.file r.file).start

section Clean

variable {qsort : List FileRange → List FileRange} {d d' : VdfDrive} {w w' : World} {c : Call}
  {r : Except Errno Unit}

theorem usedBefore_congr {file file' : FileId → VdfFile} (l : List FileId) (f : FileId)
    (h : ∀ x, (file x).size = (file' x).size ∧ (file x).clusters = (file' x).clusters) :
    usedBefore file l f = usedBefore file' l f := by
  have hused : (fun x => (file x).used) = fun x => (file' x).used := by
    funext x
    rw [VdfFile.used, VdfFile.used, (h x).1, (h x).2]
  simp only [usedBefore, usedClusters, hused]

theorem usedBefore_cons {file : FileId → VdfFile} {f g : FileId} (l : List FileId) (h : g ≠ f) :
    usedBefore file (g :: l) f = (file g).used + usedBefore file l f := by
  simp [usedBefore, h]

/-- One file of the second pass. -/
theorem fileRecalcOffsize_start (d : VdfDrive) (f : FileId) :
    (((fileRecalcOffsize d f).2.file f).start =
        if (d.file f).size = 0 then 0 else d.dataClusterEnd) ∧
      ((fileRecalcOffsize d f).2.dataClusterEnd =
        if (d.file f).size = 0 then d.dataClusterEnd else u32 (d.dataClusterEnd + (d.file f).clusters)) ∧
      ∀ x, x ≠ f → (fileRecalcOffsize d f).2.file x = d.file x := by
  simp only [fileRecalcOffsize]
  split_ifs <;> simp_all [VdfDrive.modifyFile]

/-- The second pass leaves the other files alone. -/
theorem offsizePass_outside (d : VdfDrive) {l : List FileId} {x : FileId} (hx : x ∉ l) :
    (offsizePass d l).2.file x = d.file x := by
  induction l generalizing d with
  | nil => rfl
  | cons f l ih =>
    obtain ⟨hxf, hxl⟩ := not_or.1 (mt List.mem_cons.2 hx)
    have hf := (fileRecalcOffsize_start d f).2.2 x hxf
    simp only [offsizePass]
    split
    · exact hf
    · rw [ih _ hxl, hf]

/-- The second pass, behind `k` clusters. -/
theorem offsizePass_start (d : VdfDrive) {l : List FileId} (hl : l.Nodup) (k : Nat)
    (hk : d.dataClusterEnd = u32 (2 + k)) (h : (offsizePass d l).1 ≠ -1) :
    ∀ f ∈ l, ((offsizePass d l).2.file f).start =
      if (d.file f).size = 0 then 0 else u32 (2 + (k + usedBefore d.file l f)) := by
  induction l generalizing d k with
  | nil => nofun
  | cons g l ih =>
    obtain ⟨hgl, hl⟩ := List.nodup_cons.1 hl
    obtain ⟨hstart, hnext, -⟩ := fileRecalcOffsize_start d g
    have hsize := fileRecalcOffsize_size d g
    simp only [offsizePass] at h ⊢
    split at h
    · exact absurd rfl h
    · rename_i hr
      rw [if_neg hr]
      have hk' : (fileRecalcOffsize d g).2.dataClusterEnd = u32 (2 + (k + (d.file g).used)) := by
        rw [hnext, VdfFile.used, hk]
        split_ifs
        · rfl
        · rw [u32_u32_add, Nat.add_assoc]
      intro f hf
      rcases List.mem_cons.1 hf with rfl | hf
      · rw [offsizePass_outside _ hgl, hstart, hk]
        simp [usedBefore]
      · have hne : g ≠ f := fun e => hgl (e ▸ hf)
        rw [ih _ hl _ hk' h f hf, (hsize f).1, usedBefore_cons l hne, usedBefore_congr l f hsize,
          Nat.add_assoc]

/-- A recalculation that succeeds. -/
theorem vdfDriveRecalc_placed (hq : ∀ l, (qsort l).Perm l) {fuel : Nat} (hall : d.allFiles.Nodup)
    (hdirty : d.dirty = true) (h : vdfDriveRecalc qsort fuel d = some (0, d')) : Placed d' := by
  obtain ⟨-, -, d₁, h1, hr, rfl⟩ := vdfDriveRecalc_cases hdirty h
  have hd₁ := dirRecalc_drive h1
  have hall₁ : d₁.allFiles = d.allFiles := by rw [hd₁]; rfl
  have hend : d₁.dataClusterEnd = u32 (2 + 0) := by rw [hd₁]; rfl
  have hstart := offsizePass_start d₁ (hall₁ ▸ hall) 0 hend hr
  have hsize := offsizePass_size d₁ d₁.allFiles
  have hsame := (offsizePass_relaid d₁ d₁.allFiles).allFiles
  generalize (offsizePass d₁ d₁.allFiles).2 = d₂ at *
  refine ⟨fun f hf => ?_, fun rs hrs r hr => ?_⟩
  · dsimp only [ownStart] at hf ⊢
    rw [hstart f (hsame ▸ hf), Nat.zero_add, (hsize f).1, hsame, usedBefore_congr _ _ hsize]
  · cases hrs
    obtain ⟨f, -, rfl⟩ := List.mem_map.1 (List.mem_of_mem_take ((hq _).mem_iff.1 hr))
    rfl

/-- A clean drive stays placed. -/
theorem Does.placed (h : Does qsort d c r d') (hq : ∀ l, (qsort l).Perm l) (hall : d.allFiles.Nodup)
    (hplaced : d.dirty = false → Placed d) (hclean : d'.dirty = false) : Placed d' := by
  rcases h.clean_cases hclean with ⟨hd, n, serial, label, rfl, -⟩ | ⟨hd, fuel, d₁, n, hrec, rfl⟩
  · exact ⟨(hplaced hd).start, (hplaced hd).stored⟩
  · have hp := vdfDriveRecalc_placed hq hall hd hrec
    exact ⟨hp.start, hp.stored⟩

/-! ## The property -/

/-- The entries have the clusters that a reader looks for: 0 is an empty file and, in `..`, the root;
everything else has the start of its own range. -/
structure ClustersEncoded (d : VdfDrive) : Prop where
  empty : ∀ f ∈ d.allFiles, (d.file f).isDir = false → (d.file f).size = 0 →
    EntryEncodes d (d.file f) 0
  own : ∀ f ∈ d.allFiles, f ≠ d.rootDir → (d.file f).isDir = true ∨ (d.file f).size ≠ 0 →
    EntryEncodes d (d.file f) (ownStart d f) ∧
      ∀ rs, d.ranges = some rs → ∀ r ∈ rs, r.file = f → r.fatstart = ownStart d f
  dots : ∀ f ∈ d.allFiles, f ≠ d.rootDir → (d.file f).isDir = true → ∀ p, d.Child f p →
    DotsEncode d f (ownStart d f) (if p = d.rootDir then 0 else ownStart d p)

/-- Each directory has a size (a directory of size 0 reads as an empty file) and, except on FAT32, the
starts fit into the low half. -/
structure OwnStartsFit (d : VdfDrive) : Prop where
  dirs : ∀ f ∈ d.allFiles, f ≠ d.rootDir → (d.file f).isDir = true → (d.file f).size = 0 →
    ownStart d f = 0
  low : d.filesys ≠ .fat32 → ∀ f ∈ d.allFiles, (d.file f).size ≠ 0 → ownStart d f < 65536

/-- So does what a FAT32 layout left in the root, if a directory lies in it. -/
structure StartsFit (d : VdfDrive) : Prop extends OwnStartsFit d where
  root : d.filesys ≠ .fat32 → (d.file d.rootDir).size = 0 ∨ (d.file d.rootDir).start % 65536 = 0 ∨
    ∀ f ∈ d.allFiles, (d.file f).isDir = true → ¬ d.Child f d.rootDir

theorem ownStart_lt (d : VdfDrive) (f : FileId) : ownStart d f < 2 ^ 32 := Nat.mod_lt _ (by decide)

/-- What is encoded for a file that is not the root. -/
theorem Placed.entryCluster (hp : Placed d) {f : FileId} (hf : f ∈ d.allFiles)
    (hpar : (d.file f).parent ≠ none) : entryCluster d (d.file f) =
      if (d.file f).size = 0 then 0
      else if d.filesys = .fat32 then ownStart d f else ownStart d f % 65536 := by
  have hlt := ownStart_lt d f
  rw [Vdf.entryCluster, hp.start f hf]
  by_cases hs : (d.file f).size = 0
  · simp [hs]
  · simp only [hs, hpar, false_and, or_self, ↓reduceIte, Nat.mod_eq_of_lt hlt]

/-- What is encoded for the root. -/
theorem entryCluster_root {f : FileId} (hpar : (d.file f).parent = none) :
    entryCluster d (d.file f) =
      if (d.file f).size = 0 ∨ d.filesys = .fat32 then 0 else (d.file f).start % 65536 := by
  rw [entryCluster]
  split_ifs <;> simp_all

theorem clustersEncoded_iff (hl : Linked w) (hu : Upright w) (hp : Placed w.drive) :
    ClustersEncoded w.drive ↔ StartsFit w.drive := by
  have hparent {f : FileId} (hf : f ∈ w.drive.allFiles) (hr : f ≠ w.drive.rootDir) :
      (w.drive.file f).parent ≠ none :=
    hl.orphan f ((hl.mem_allFiles f).1 hf).1 (hl.live hf) hr
  have hcode {f : FileId} (hf : f ∈ w.drive.allFiles) (hr : f ≠ w.drive.rootDir) :=
    hp.entryCluster hf (hparent hf hr)
  have hroot {f : FileId} (h32 : w.drive.filesys ≠ .fat32) (hf : f ∈ w.drive.allFiles) :
      f ≠ w.drive.rootDir := by
    rintro rfl
    simpa [h32] using ((hl.mem_allFiles _).1 hf).2
  constructor
  · intro h
    refine ⟨⟨fun f hf hr hd hs => ?_, fun h32 f hf hs => ?_⟩, fun h32 => ?_⟩
    · have he := entryEncodes_iff.1 (h.own f hf hr (.inl hd)).1
      rw [hcode hf hr, if_pos hs] at he
      exact he.symm
    · have he := entryEncodes_iff.1 (h.own f hf (hroot h32 hf) (.inr hs)).1
      rw [hcode hf (hroot h32 hf), if_neg hs, if_neg h32] at he
      rw [← he]
      exact Nat.mod_lt _ (by decide)
    · by_cases hnone : ∀ f ∈ w.drive.allFiles, (w.drive.file f).isDir = true →
          ¬ w.drive.Child f w.drive.rootDir
      · exact .inr (.inr hnone)
      · push Not at hnone
        obtain ⟨f, hf, hd, hc⟩ := hnone
        have he := ((dotsEncode_iff hc).1 (h.dots f hf (hroot h32 hf) hd _ hc)).2
        rw [entryCluster_root hl.root_parent, if_pos rfl] at he
        by_cases hs : (w.drive.file w.drive.rootDir).size = 0
        · exact .inl hs
        · rw [if_neg (by simp [hs, h32])] at he
          exact .inr (.inl he)
  · intro h
    -- The number that is encoded for a file with a range of its own.
    have hown {f : FileId} (hf : f ∈ w.drive.allFiles) (hr : f ≠ w.drive.rootDir)
        (hd : (w.drive.file f).isDir = true ∨ (w.drive.file f).size ≠ 0) :
        entryCluster w.drive (w.drive.file f) = ownStart w.drive f := by
      rw [hcode hf hr]
      split_ifs with hs h32
      · exact (h.dirs f hf hr (hd.resolve_right (not_not.2 hs)) hs).symm
      · rfl
      · exact Nat.mod_eq_of_lt (h.low h32 f hf hs)
    refine ⟨fun f hf hd hs => entryEncodes_iff.2 ?_, fun f hf hr hd => ⟨entryEncodes_iff.2 (hown hf hr hd),
      fun rs hrs r hmem e => ?_⟩, fun f hf hr hd p hc => (dotsEncode_iff hc).2 ⟨hown hf hr (.inl hd), ?_⟩⟩
    · rw [entryCluster, if_pos (.inl hs)]
    · rw [hp.stored rs hrs r hmem, e, hp.start f hf]
      split_ifs with hs
      · exact (h.dirs f hf hr (hd.resolve_right (not_not.2 hs)) hs).symm
      · rfl
    · by_cases hpr : p = w.drive.rootDir
      · subst hpr
        rw [entryCluster_root hl.root_parent, if_pos rfl]
        split_ifs with hs
        · rfl
        · obtain ⟨hs, h32⟩ := not_or.1 hs
          rcases h.root h32 with h0 | h0 | hnone
          · exact absurd h0 hs
          · exact h0
          · exact absurd hc (hnone f hf hd)
      · obtain ⟨hpf, hpd⟩ := hu.parent hl hc hpr
        rw [if_neg hpr]
        exact hown hpf hpr (.inl hpd)

/-! ## The start of the root -/

section RootStart

variable {fuel : Nat} {x : FileId}

theorem modifyFile_start (d : VdfDrive) (f x : FileId) {g : VdfFile → VdfFile}
    (hg : ∀ a, (g a).start = a.start) : ((d.modifyFile f g).file x).start = (d.file x).start := by
  rw [VdfDrive.modifyFile_file]
  split
  · exact hg _
  · rfl

theorem fileRecalcDir_start (d : VdfDrive) (f x : FileId) :
    ((fileRecalcDir d f).file x).start = (d.file x).start := by
  unfold fileRecalcDir
  split
  · rfl
  · dsimp only
    rw [modifyFile_start _ _ _ (by simp), modifyFile_start _ _ _ (by simp)]

/-- The first pass writes no start. -/
theorem dirRecalc_start {dir : FileId} (h : dirRecalc fuel d dir = some d') (x : FileId) :
    (d'.file x).start = (d.file x).start := by
  induction fuel generalizing d d' dir with
  | zero => cases h
  | succ fuel ih =>
    rw [dirRecalc] at h
    simp only [Option.bind_eq_bind, Option.bind_eq_some_iff] at h
    obtain ⟨d₁, h1, h2⟩ := h
    obtain ⟨-, -, hloop⟩ := Lockstep.foldlM (w := fun (u : Unit) _ => some u)
      (I := fun e _ => (e.file x).start = (d.file x).start) (b := ())
      _ (fun {e e' u f} _ he hv => ⟨(), rfl, by
        split at hv
        · rw [ih hv, he]
        · cases hv
          rw [fileRecalcDir_start, he]⟩) (modifyFile_start _ _ _ (by simp)) h1
    split at h2
    · cases h2
      rw [fileRecalcDir_start, modifyFile_start _ _ _ (by simp), hloop]
    · cases h2
      rw [modifyFile_start _ _ _ (by simp), hloop]

/-- A recalculation writes the starts of `all_files` only. -/
theorem vdfDriveRecalc_start {i : Int} (h : vdfDriveRecalc qsort fuel d = some (i, d'))
    (hx : x ∉ d.allFiles) : (d'.file x).start = (d.file x).start := by
  unfold vdfDriveRecalc at h
  split_ifs at h
  · cases h; rfl
  · cases h; rfl
  · cases h; rfl
  · obtain ⟨d₁, h1, h2⟩ := Option.map_eq_some_iff.1 h
    have hx₁ : x ∉ d₁.allFiles := by rwa [dirRecalc_drive h1]
    have hpass : ((offsizePass d₁ d₁.allFiles).2.file x).start = (d.file x).start := by
      rw [offsizePass_outside d₁ hx₁, dirRecalc_start h1]
    simp only [layOut] at h2
    split at h2 <;> cases h2 <;> exact hpass

theorem Does.start (h : Does qsort d c r d') (hnew : c.alloc ≠ some x) (hx : x ∉ d.allFiles) :
    (d'.file x).start = (d.file x).start := by
  cases h with
  | createFailed _ ha | created _ ha =>
    have hne : x ≠ _ := fun e => hnew (e ▸ ha)
    simp only [dropFile, addFile, relist_file, hne, ↓reduceIte]
    split <;> rfl
  | deleted => simp only [removeFile, relist_file]
  | moved _ _ hne => rw [modifyFile_start _ _ _ (by simp), relinkFile_eq d hne, relist_file]
  | moveFailed _ _ hne => rw [relinkFile_eq d hne, relist_file]
  | up | down | renamed | renameFailed | shortRenamed | sized | fatSized | dated | attrSet =>
    exact edit_file (·.start) fun _ => rfl
  | labelled => rw [setDriveDirty_file]
  | laidOut _ _ _ hrec => exact vdfDriveRecalc_start hrec hx
  | layoutFailed _ _ _ _ hrec => exact vdfDriveRecalc_start hrec hx
  | laidOutLocked _ _ _ hrec =>
    have h := vdfDriveRecalc_start hrec hx
    exact h
  | recreated _ _ hrec => rw [(createdriveExt_file hrec).2]
  | _ => rfl

/-- A drive that is created again keeps its files. -/
theorem Does.recreated_file {size flags : Nat} {ext : DriveExt} {junk : Uninit}
    (h : Does qsort d (.recreate size flags ext junk) r d') : d'.file = d.file := by
  cases h with
  | refused => rfl
  | recreated _ _ hrec => exact (createdriveExt_file hrec).2
  | createFailed hc | created hc => cases hc
  | layoutFailed hc => simp at hc

/-- A FAT32 drive that was laid out becomes no FAT12 or FAT16 drive. -/
def KeepsRootStart (w : World) : Call → Prop
  | .recreate size flags ext junk => w.drive.filesys = .fat32 → ∀ g,
      createdriveGeometry size (recreateFlags w.drive flags) ext junk = some g →
      g.filesys = .fat32 ∨ (w.drive.file w.drive.rootDir).start = 0
  | _ => True

/-- Without such a recreation the root starts at 0, except on FAT32. -/
theorem root_start_zero {size flags : Nat} {ext : DriveExt} {junk : Uninit} {w₀ : World}
    (hcreate : World.create size flags ext junk = some w₀) (run : Run qsort KeepsRootStart w₀ w) :
    w.drive.filesys ≠ .fat32 → (w.drive.file w.drive.rootDir).start = 0 := by
  refine (run.induct (P := fun w => Linked w ∧ (w.drive.filesys ≠ .fat32 →
    (w.drive.file w.drive.rootDir).start = 0)) ⟨(rooted_create hcreate).linked, fun _ => ?_⟩
    fun {w c r w'} hok ⟨hl, h⟩ hs => ⟨hl.step hs, fun h32 => ?_⟩).2
  · obtain ⟨d, hd, rfl⟩ := Option.map_eq_some_iff.1 hcreate
    simp only [(createdriveExt_new hd).2.1]
    rfl
  · obtain ⟨hdoes, -, -⟩ := hl.does hs
    have hnew : c.alloc ≠ some w.drive.rootDir := fun e => hs.alloc _ e hl.root_mem
    have hstart (hfs : w.drive.filesys ≠ .fat32) :
        (w'.drive.file w.drive.rootDir).start = 0 := by
      rw [hdoes.start hnew, h hfs]
      simp [hl.mem_allFiles, hfs]
    rw [hdoes.rootDir]
    by_cases hfs : w.drive.filesys = .fat32
    · rcases hdoes.geometry with e | ⟨size, flags, ext, junk, rfl, -, hg⟩
      · rw [e] at h32
        exact absurd hfs h32
      · have hzero := (hok hfs _ hg).resolve_left h32
        rwa [hdoes.recreated_file]
    · exact hstart hfs

end RootStart

/-- In every clean state of a run that deletes no directory, the entries have their clusters exactly where
the starts fit. The root's own start is no condition where no FAT32 layout could leave one in it. -/
theorem clusters_encoded_iff (hq : ∀ l, (qsort l).Perm l) {size flags : Nat} {ext : DriveExt}
    {junk : Uninit} {w₀ : World} (hcreate : World.create size flags ext junk = some w₀)
    (run : Run qsort KeepsDirs w₀ w) (hclean : w.drive.dirty = false) :
    (ClustersEncoded w.drive ↔ StartsFit w.drive) ∧
      (Run qsort KeepsRootStart w₀ w → (ClustersEncoded w.drive ↔ OwnStartsFit w.drive)) := by
  have h := run.induct
    (P := fun w => Linked w ∧ Upright w ∧ (w.drive.dirty = false → Placed w.drive))
    ⟨(rooted_create hcreate).linked, upright_create hcreate,
      fun hd => nomatch hd.symm.trans (create_dirty hcreate)⟩
    fun hok ⟨hl, hu, hp⟩ hs => ⟨hl.step hs, hu.step hl hok hs,
      (hl.does hs).1.placed hq hl.nodup_allFiles hp⟩
  have hiff := clustersEncoded_iff h.1 h.2.1 (h.2.2 hclean)
  refine ⟨hiff, fun hkeeps => hiff.trans ⟨fun hfit => hfit.toOwnStartsFit, fun hown => ?_⟩⟩
  have hroot (h32 : w.drive.filesys ≠ .fat32) :
      (w.drive.file w.drive.rootDir).start % 65536 = 0 := by
    rw [root_start_zero hcreate hkeeps h32]
  exact { hown with root := fun h32 => .inr (.inl (hroot h32)) }

/-- The drive becomes a FAT32 drive, is laid out, and becomes a FAT12 drive again: the root keeps its
start, and `..` of its directory leads there. -/
theorem dotdot_keeps_fat32_start :
    ∃ w, sampleRun [sampleDir, .recreate (mib 64) 3 driveextAuto ⟨0, 0, 0, 0⟩, .recalc,
        .recreate (mib 1) 0 driveextAuto ⟨0, 0, 0, 0⟩, .recalc] = some w ∧
      Reachable id w ∧ w.drive.dirty = false ∧ w.drive.filesys = .fat12 ∧
      ¬ ClustersEncoded w.drive := by
  obtain ⟨w, h, hclean, hfs, hmem, hne, hdir, hparent, hroot⟩ := sampleRun_exists
    (l := [sampleDir, .recreate (mib 64) 3 driveextAuto ⟨0, 0, 0, 0⟩, .recalc,
      .recreate (mib 1) 0 driveextAuto ⟨0, 0, 0, 0⟩, .recalc])
    (P := fun w => w.drive.dirty = false ∧ w.drive.filesys = .fat12 ∧ 1 ∈ w.drive.allFiles ∧
      1 ≠ w.drive.rootDir ∧ (w.drive.file 1).isDir = true ∧
      (w.drive.file 1).parent = some w.drive.rootDir ∧
      entryCluster w.drive (w.drive.file w.drive.rootDir) = 3) (by decide)
  refine ⟨w, h, sampleRun_reachable h, hclean, hfs, fun henc => ?_⟩
  have hdots := (dotsEncode_iff hparent).1 (henc.dots 1 hmem hne hdir _ hparent)
  rw [if_pos rfl, hroot] at hdots
  exact nomatch hdots.2

/-- A directory on a FAT12 drive. -/
theorem clusters_encoded_sample :
    ∃ w, sampleRun [sampleDir, .recalc] = some w ∧ ClustersEncoded w.drive ∧
      OwnStartsFit w.drive := by
  obtain ⟨w₀, h₀, -⟩ := sampleRun_exists (l := []) (P := fun _ => True) (by decide)
  obtain ⟨w₁, h₁, -⟩ := sampleRun_exists (l := [sampleDir]) (P := fun _ => True) (by decide)
  obtain ⟨w, h, hclean, hsize, hlow⟩ := sampleRun_exists (l := [sampleDir, .recalc])
    (P := fun w => w.drive.dirty = false ∧ (∀ f ∈ w.drive.allFiles, (w.drive.file f).size ≠ 0) ∧
      ∀ f ∈ w.drive.allFiles, ownStart w.drive f < 65536) (by decide)
  have run : Run id KeepsDirs w₀ w := ((Run.refl w₀).stepTo (by trivial)
    (sampleRun_concat h₀ h₁)).stepTo (by trivial) (sampleRun_concat h₁ h)
  have keeps : Run id KeepsRootStart w₀ w := ((Run.refl w₀).stepTo (by trivial)
    (sampleRun_concat h₀ h₁)).stepTo (by trivial) (sampleRun_concat h₁ h)
  obtain ⟨hiff, hown⟩ :=
    clusters_encoded_iff (fun l => .refl l) (sampleRun_nil h₀) run hclean
  have hfit : OwnStartsFit w.drive :=
    ⟨fun f hf _ _ hs => absurd hs (hsize f hf), fun _ f hf _ => hlow f hf⟩
  have henc := (hown keeps).2 hfit
  exact ⟨w, h, henc, (hiff.1 henc).toOwnStartsFit⟩

end Clean

end Vdf
