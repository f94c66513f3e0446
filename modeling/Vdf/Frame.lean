import Vdf.Effect
import Vdf.GeometryExact
import Vdf.Relayout

/-!
# What a call leaves alone

The frame of every call, field by field: which calls change the size, the names or the flags of a
file, and which change the geometry.
-/

namespace Vdf

open Word

/-! ## Flags and geometry -/

/-- `vdf_add_dir` sets `VFA_DIR`. -/
theorem newFile_attr {c : Call} (hc : c.addsDir = true) {bpc : Nat} {p : FileId}
    {name s : List UInt8} {l : Bool} :
    hasFlag (c.newFile bpc p name s l).attr vfaDir = true := by
  cases c <;> cases hc
  exact (by decide : hasFlag (vfaAttribute ||| vfaDir) vfaDir = true)

/-- `VFA_DIR` is bit 4. -/
theorem hasFlag_dir (a : Nat) : hasFlag a vfaDir = a.testBit 4 := by
  have h : a &&& vfaDir = (a.testBit 4).toNat * 2 ^ 4 := Nat.and_two_pow a 4
  rw [hasFlag, h]
  cases a.testBit 4 <;> rfl

/-- A mask without `VFA_DIR` leaves that bit. -/
theorem hasFlag_setAttr (a : Nat) {mask : Nat} (attr : Nat) (h : hasFlag mask vfaDir = false) :
    hasFlag (clearBits a (clearBits mask vfaUserAttr) |||
      (attr &&& clearBits mask vfaUserAttr)) vfaDir = hasFlag a vfaDir := by
  rw [hasFlag_dir] at h ⊢
  simp [hasFlag_dir, clearBits, Nat.testBit_ldiff, h]

theorem createdriveExt_file {d d' : VdfDrive} {size flags : Nat} {ext : DriveExt} {junk : Uninit}
    (h : createdriveExt (some d) size flags ext junk = some d') :
    d'.rootDir = d.rootDir ∧ d'.file = d.file := by
  obtain ⟨g, -, rfl⟩ := Option.map_eq_some_iff.1 h
  dsimp only
  split_ifs <;> exact ⟨rfl, rfl⟩

/-! ## What a call does to a file -/

/-- What a write to one file keeps. -/
theorem edit_file {α : Type*} {d : VdfDrive} {f x : FileId} {g : VdfFile → VdfFile}
    (k : VdfFile → α) (hg : ∀ a, k (g a) = k a) :
    k ((setDriveDirty (d.modifyFile f g)).file x) = k (d.file x) := by
  rw [setDriveDirty_file, VdfDrive.modifyFile_file]
  split
  · exact hg _
  · rfl

/-- What a call can make of the file `x`, unless it creates it. -/
inductive Rewrite (d : VdfDrive) (x : FileId) :
    Call → Except Errno Unit → VdfFile → Prop where
  | links {c r} (parent entries dirCnt deleted) (hlive : deleted = false → (d.file x).deleted = false) :
      Rewrite d x c r { d.file x with parent, entries, dirCnt, deleted }
  | layout {c r} (b) (hsize : (d.file x).isDir = false → x ≠ d.rootDir →
        b.size = (d.file x).size ∧ b.clusters = (d.file x).clusters) :
      Rewrite d x c r ((d.file x).relayout b)
  | moved {p np s l} (entries dirCnt) (hcheck : moveCheck d x np = none)
      (hp : (d.file x).parent = some p) (hne : p ≠ np)
      (hs : shortnameOf (takenIn d np x) (d.file x).name = some (s, l)) :
      Rewrite d x (.moveFile x np) (.ok ())
        { d.file x with parent := some np, entries, dirCnt, shortname := s, longname := l }
  | renamed {p name dup s l} (hp : (d.file x).parent = some p)
      (hs : shortnameOf (takenIn d p x) name = some (s, l)) :
      Rewrite d x (.setFileName x name dup) (.ok ())
        { d.file x with name, shortname := s, longname := l }
  | renameFailed {p name} (hd : (d.file x).deleted = false) (hp : (d.file x).parent = some p)
      (hl : d.lockTest = false) (hv : filenameValid name = true)
      (hfind : findFileSkip d p name vffLongonly (some x) = none)
      (hs : shortnameOf (takenIn d p x) name = none) :
      Rewrite d x (.setFileName x name true) (.ok ()) { d.file x with name }
  | shortRenamed {p name} (hd : (d.file x).deleted = false) (hp : (d.file x).parent = some p)
      (hl : d.lockTest = false) (hv : filenameValid name = true) (hfit : shortnameFits name = true)
      (hfind : findFileSkip d p name 0 (some x) = none) :
      Rewrite d x (.setFileShortname x name) (.ok ())
        { d.file x with
          longname := if sameName (d.file x).name name then false else (d.file x).longname
          shortname := name.map toupper }
  | sized {size} :
      Rewrite d x (.setFileSize x size) (.ok ())
        { d.file x with size := u32 size, clusters := virtClusters d.bpc (u32 size) }
  | fatSized {size} (fatclusters) :
      Rewrite d x (.setFatFileSize x size) (.ok ()) { d.file x with fatsize := size, fatclusters }
  | dated {date} : Rewrite d x (.setFileDate x date) (.ok ()) { d.file x with date }
  | attrSet {attr mask} :
      Rewrite d x (.setFileAttr x attr mask) (.ok ())
        { d.file x with attr := clearBits (d.file x).attr (clearBits mask vfaUserAttr) |||
            (attr &&& clearBits mask vfaUserAttr) }

section Does

variable {qsort : List FileRange → List FileRange} {d d' : VdfDrive} {c : Call}
  {r : Except Errno Unit} {x : FileId}

theorem Rewrite.same : Rewrite d x c r (d.file x) :=
  .links (d.file x).parent (d.file x).entries (d.file x).dirCnt (d.file x).deleted id

/-- A write to one file. -/
theorem rewrite_edit {f : FileId} {g : VdfFile → VdfFile}
    (hg : x = f → Rewrite d x c r (g (d.file x))) :
    Rewrite d x c r ((setDriveDirty (d.modifyFile f g)).file x) := by
  rw [setDriveDirty_file, VdfDrive.modifyFile_file]
  split
  · exact hg ‹_›
  · exact .same

theorem rewrite_relaid (hr : Relaid d d') : Rewrite d x c r (d'.file x) := by
  rw [hr.file]
  exact .layout _ fun hd hx => hr.size x hd hx

/-- Each file of a step. -/
theorem Does.rewrite (h : Does qsort d c r d') (hx : c.alloc ≠ some x) :
    Rewrite d x c r (d'.file x) := by
  cases h with
  | refused | stays | labelLost | serialSet | clean | locked | unlocked => exact .same
  | createFailed _ ha | created _ ha =>
    have hne : x ≠ _ := fun e => hx (e ▸ ha)
    simp only [dropFile, addFile, relist_file, hne, ↓reduceIte]
    split
    · exact .links _ _ _ _ id
    · exact .same
  | deleted =>
    refine .links _ _ _ _ fun h => ?_
    split at h
    · cases h
    · exact h
  | @moved f p np _ _ hcheck hp hne hfind hs =>
    rw [VdfDrive.modifyFile_file, relinkFile_eq d hne]
    split
    · rename_i e
      subst e
      simp only [relist_file, ↓reduceIte]
      exact .moved _ _ hcheck hp hne hs
    · exact .links _ _ _ _ id
  | moveFailed _ _ hne =>
    rw [relinkFile_eq d hne]
    exact .links _ _ _ _ id
  | up | down => exact rewrite_edit fun _ => .links _ _ _ _ id
  | renamed _ hp _ _ _ _ hs => exact rewrite_edit fun e => by subst e; exact .renamed hp hs
  | renameFailed hd hp hl hv hdup hfind hs =>
    exact rewrite_edit fun e => by
      subst e
      subst hdup
      exact .renameFailed hd hp hl hv hfind hs
  | shortRenamed hd hp hl hv hfit hfind =>
    exact rewrite_edit fun e => by subst e; exact .shortRenamed hd hp hl hv hfit hfind
  | sized => exact rewrite_edit fun e => by subst e; exact .sized
  | fatSized => exact rewrite_edit fun e => by subst e; exact .fatSized _
  | dated => exact rewrite_edit fun e => by subst e; exact .dated
  | attrSet => exact rewrite_edit fun e => by subst e; exact .attrSet
  | labelled => rw [setDriveDirty_file]; exact .same
  | laidOut _ _ _ hrec => exact rewrite_relaid (vdfDriveRecalc_relaid hrec)
  | layoutFailed _ _ _ _ hrec => exact rewrite_relaid (vdfDriveRecalc_relaid hrec)
  | laidOutLocked _ _ _ hrec =>
    have h := rewrite_relaid (c := .lock) (r := .ok ()) (x := x) (vdfDriveRecalc_relaid hrec)
    exact h
  | recreated _ _ hrec => rw [(createdriveExt_file hrec).2]; exact .same

/-- Only `createdrive_ext` changes the geometry. -/
theorem Does.geometry (h : Does qsort d c r d') : d'.toGeometry = d.toGeometry ∨
    ∃ size flags ext junk, c = .recreate size flags ext junk ∧ d.isLocked = false ∧
      createdriveGeometry size (recreateFlags d flags) ext junk = some d'.toGeometry := by
  cases h with
  | recreated _ hl hrec => exact .inr ⟨_, _, _, _, rfl, hl, createdriveExt_geometry hrec⟩
  | laidOut _ _ _ hrec => exact .inl (vdfDriveRecalc_relaid hrec).geometry
  | layoutFailed _ _ _ _ hrec => exact .inl (vdfDriveRecalc_relaid hrec).geometry
  | laidOutLocked _ _ _ hrec => exact .inl (vdfDriveRecalc_relaid hrec).geometry
  | moved _ _ hne | moveFailed _ _ hne => exact .inl (by simp [relinkFile_eq d hne])
  | _ => exact .inl (by simp [addFile, dropFile, removeFile])

theorem Does.rootDir (h : Does qsort d c r d') : d'.rootDir = d.rootDir := by
  cases h with
  | recreated _ _ hrec => exact (createdriveExt_file hrec).1
  | laidOut _ _ _ hrec => exact (vdfDriveRecalc_relaid hrec).rootDir
  | layoutFailed _ _ _ _ hrec => exact (vdfDriveRecalc_relaid hrec).rootDir
  | laidOutLocked _ _ _ hrec => exact (vdfDriveRecalc_relaid hrec).rootDir
  | moved _ _ hne | moveFailed _ _ hne => simp [relinkFile_eq d hne]
  | _ => simp [addFile, dropFile, removeFile]

/-- A call that succeeds with a new structure has created the file. -/
theorem Does.new {f : FileId} (h : Does qsort d c (.ok ()) d') (ha : c.alloc = some f) :
    ∃ p name s l, c.creates = some (p, name) ∧ createCheck d p name = none ∧
      shortnameOf (takenIn d p f) name = some (s, l) ∧
      d' = addFile d p f (c.newFile d.bpc p name s l) := by
  cases h with
  | created hc ha' hcheck hs =>
    cases ha.symm.trans ha'
    exact ⟨_, _, _, _, hc, hcheck, hs, rfl⟩
  | _ => cases ha

/-- `VFA_DIR` changes only when the mask has it. -/
theorem Rewrite.dirFlag {fil : VdfFile} (h : Rewrite d x c r fil)
    (hmask : ∀ attr mask, c = .setFileAttr x attr mask → hasFlag mask vfaDir = false) :
    hasFlag fil.attr vfaDir = hasFlag (d.file x).attr vfaDir := by
  cases h with
  | attrSet => exact hasFlag_setAttr _ _ (hmask _ _ rfl)
  | _ => rfl

end Does

end Vdf
