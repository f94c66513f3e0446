import Vdf.Frame
import Vdf.Read
import Vdf.Rooted

/-!
# A locked drive

While a drive is locked, calls are refused or change two fields: the lock count, and the serial, since
`vdf_set_drive_serial` does not test the lock. No generator reads the count. The serial is in the
master boot record and in the boot sectors of FAT16 and FAT32.
-/

namespace Vdf

open Word Buffer

/-- The image of a drive: what is read from it, with any contents of the files. -/
def SameImage (d d' : VdfDrive) : Prop :=
  ∀ env sector cnt m p, vdfReadSectors env d' sector cnt m p = vdfReadSectors env d sector cnt m p

/-- The drive with another lock count and another serial. -/
def VdfDrive.relock (d : VdfDrive) (lockcnt serial : Nat) : VdfDrive := { d with lockcnt, serial }

/-- The serial is in the image: there is a master boot record, or the boot sectors have it. -/
def SerialServed (d : VdfDrive) : Prop :=
  hasFlag d.flags vdfMbr = true ∨ d.filesys = .fat16 ∨ d.filesys = .fat32

/-! ## No generator reads the lock count -/

section Relock

variable (d : VdfDrive) (n serial : Nat)

theorem rangeAt_relock : rangeAt (d.relock n serial) = rangeAt d := rfl

theorem findRangeLoop_relock (end_ : FileRange → Nat) (x k i : Nat) :
    findRangeLoop (d.relock n serial) end_ x k i = findRangeLoop d end_ x k i := by
  induction k generalizing i with
  | zero => rfl
  | succ k ih => simp only [findRangeLoop, rangeAt_relock, ih]

theorem fatNextFile_relock : fatNextFile (d.relock n serial) = fatNextFile d := rfl

theorem findFileFatEntry_relock (ent : Nat) :
    findFileFatEntry (d.relock n serial) ent = findFileFatEntry d ent := by
  simp only [findFileFatEntry, findRangeLoop_relock]
  rfl

theorem fatLoop_relock (w eoc scnt p fuel : Nat) (s : FatState) :
    fatLoop w eoc (d.relock n serial) scnt p fuel s = fatLoop w eoc d scnt p fuel s := by
  induction fuel generalizing s with
  | zero => rfl
  | succ fuel ih =>
    simp only [fatLoop, fatNextFile_relock, ih]
    rfl

theorem fat12Loop_relock (scnt fuel : Nat) (s : Fat12State) :
    fat12Loop (d.relock n serial) scnt fuel s = fat12Loop d scnt fuel s := by
  induction fuel generalizing s with
  | zero => rfl
  | succ fuel ih =>
    simp only [fat12Loop, fatNextFile_relock, ih]
    rfl

theorem readSectorFat_relock (sector scnt : Nat) (m : Buffer) (p : Nat) :
    readSectorFat (d.relock n serial) sector scnt m p = readSectorFat d sector scnt m p := by
  simp only [readSectorFat, readSectorFat12, readSectorFatWide, findFileFatEntry_relock,
    fatLoop_relock, fat12Loop_relock]
  rfl

theorem dirLoop_relock (ent : Int) (scnt : Nat) (l : List FileId) (s : DirState) :
    dirLoop (d.relock n serial) ent scnt l s = dirLoop d ent scnt l s := by
  induction l generalizing s with
  | nil => rfl
  | cons f fs ih =>
    simp only [dirLoop, ih]
    rfl

theorem readSectorDir_relock (sector scnt : Nat) (m : Buffer) (p : Nat) (dir : FileId) :
    readSectorDir (d.relock n serial) sector scnt m p dir = readSectorDir d sector scnt m p dir := by
  simp only [readSectorDir, dirLoop_relock]
  rfl

theorem dataStep_relock (env : Readers) (s : DataState) :
    dataStep env (d.relock n serial) s = dataStep env d s := by
  simp only [dataStep, dataFile, findFileSector, findRangeLoop_relock, readSectorDir_relock]
  rfl

theorem dataLoop_relock (env : Readers) (fuel : Nat) (s : DataState) :
    dataLoop env (d.relock n serial) fuel s = dataLoop env d fuel s := by
  induction fuel generalizing s with
  | zero => rfl
  | succ fuel ih => simp only [dataLoop, dataStep_relock, ih]

theorem readSectorData_relock (env : Readers) (sector scnt : Nat) (m : Buffer) (p : Nat) :
    readSectorData env (d.relock n serial) sector scnt m p = readSectorData env d sector scnt m p := by
  simp only [readSectorData, dataLoop_relock]

/-- A serial that is in no boot sector. -/
theorem bootRecord_relock (h : serial = d.serial ∨ ¬ SerialServed d) :
    bootRecord (d.relock n serial) = bootRecord d := by
  rcases h with rfl | h
  · rfl
  · have hfs : d.filesys = .fat12 ∨ d.filesys = .unset := by
      simp only [SerialServed, not_or] at h
      cases hfs : d.filesys <;> simp_all
    have hunion : bootUnionRecord (d.relock n serial) = bootUnionRecord d := by
      have hsame : (d.relock n serial).filesys = d.filesys := rfl
      rcases hfs with e | e <;> simp only [bootUnionRecord, hsame, e]
    simp only [bootRecord, hunion]
    rfl

theorem readSectorBoot_relock (h : serial = d.serial ∨ ¬ SerialServed d) (sector scnt : Nat)
    (m : Buffer) (p : Nat) :
    readSectorBoot (d.relock n serial) sector scnt m p = readSectorBoot d sector scnt m p := by
  induction scnt generalizing sector m p with
  | zero => rfl
  | succ scnt ih =>
    simp only [readSectorBoot, bootSector, bootRecord_relock d n serial h, ih]
    rfl

theorem readMbr_relock (h : serial = d.serial ∨ ¬ SerialServed d) (s : ReadState) :
    readMbr (d.relock n serial) s = readMbr d s := by
  rcases h with rfl | h
  · rfl
  · have hmbr : hasFlag d.flags vdfMbr ≠ true := fun e => h (.inl e)
    have hsame : (d.relock n serial).flags = d.flags := rfl
    simp only [readMbr, hsame, hmbr, Bool.false_eq_true, ↓reduceIte]

/-- The image does not change with the lock count, nor with a serial that it has not. -/
theorem relock_sameImage (h : serial = d.serial ∨ ¬ SerialServed d) :
    SameImage d (d.relock n serial) := by
  intro env sector cnt m p
  simp only [vdfReadSectors, readMbr_relock d n serial h, readSystem,
    readSectorBoot_relock d n serial h, readSectorFat_relock, readSectorDir_relock,
    readSectorData_relock]
  rfl

end Relock

/-! ## What a call does to a locked drive -/

section Runs

variable {qsort : List FileRange → List FileRange} {d d' : VdfDrive} {w w' : World} {c : Call}
  {r : Except Errno Unit}

theorem lockTest_of_locked (h : d.lockcnt ≠ 0) : d.lockTest = true := by
  simp [VdfDrive.lockTest, VdfDrive.isLocked, h]

/-- A call on a locked drive changes the lock count or sets the serial. -/
theorem Does.locked_cases (h : Does qsort d c r d') (hlock : d.lockcnt ≠ 0) :
    ∃ n serial, d' = d.relock n serial ∧
      (serial = d.serial ∨ ∃ k, c = .setDriveSerial k ∧ serial = u32 k) := by
  have htest := lockTest_of_locked hlock
  have hlocked : d.isLocked = true := by simp [VdfDrive.isLocked, hlock]
  cases h with
  | refused => exact ⟨d.lockcnt, d.serial, rfl, .inl rfl⟩
  | locked => exact ⟨_, d.serial, rfl, .inl rfl⟩
  | unlocked => exact ⟨_, d.serial, rfl, .inl rfl⟩
  | @serialSet k => exact ⟨d.lockcnt, _, rfl, .inr ⟨k, rfl, rfl⟩⟩
  | createFailed _ _ hcheck | created _ _ hcheck =>
    cases (createCheck_eq_none.1 hcheck).2.1.symm.trans htest
  | stays hcheck | moved hcheck | moveFailed hcheck =>
    cases (moveCheck_eq_none.1 hcheck).2.2.2.2.symm.trans htest
  | deleted _ _ hl | up _ hl | down _ hl | sized _ hl | fatSized hl | dated hl | attrSet hl
    | renamed _ _ hl | renameFailed _ _ hl | shortRenamed _ _ hl =>
    cases hl.symm.trans htest
  | labelled _ hl | labelLost _ hl | clean _ hl | laidOut _ hl | layoutFailed _ _ hl
    | laidOutLocked _ hl | recreated _ hl =>
    cases hl.symm.trans hlocked

/-- The drive is locked, and no other serial is set that the image has. -/
def KeepsImage (d : VdfDrive) (c : Call) : Prop :=
  d.lockcnt ≠ 0 ∧ ∀ serial, c = .setDriveSerial serial →
    u32 serial = d.serial ∨ ¬ SerialServed d

theorem SameImage.trans {d'' : VdfDrive} (h : SameImage d d') (h' : SameImage d' d'') :
    SameImage d d'' := fun env sector cnt m p => (h' env sector cnt m p).trans (h env sector cnt m p)

theorem Does.sameImage (h : Does qsort d c r d') (hok : KeepsImage d c) : SameImage d d' := by
  obtain ⟨n, serial, rfl, hserial⟩ := h.locked_cases hok.1
  refine relock_sameImage d n serial ?_
  rcases hserial with e | ⟨k, hc, rfl⟩
  · exact .inl e
  · exact hok.2 k hc

/-- In every run on a locked drive in which no other serial is set that the image has, the image
stays: every read returns what it returned when the drive was locked. -/
theorem locked_image_stays (hreach : Reachable qsort w)
    (run : Run qsort (fun w => KeepsImage w.drive) w w') : SameImage w.drive w'.drive := by
  have h := run.induct (P := fun w' => Linked w' ∧ SameImage w.drive w'.drive)
    ⟨hreach.linked, fun _ _ _ _ _ => rfl⟩ fun hok ⟨hl, h⟩ hs =>
      ⟨hl.step hs, h.trans ((hl.does hs).1.sameImage hok)⟩
  exact h.2

/-- The serial of a drive with a master boot record is set while the drive is locked. -/
theorem setDriveSerial_changes_image :
    ∃ w w', sampleRun [.recreate (mib 1) vdfMbr driveextAuto ⟨0, 0, 0, 0⟩, .lock] = some w ∧
      Reachable id w ∧ w.drive.lockcnt = 1 ∧ w.Step id (.setDriveSerial 1) (.ok ()) w' ∧
      ¬ SameImage w.drive w'.drive := by
  obtain ⟨w, r, w', h, hs, rfl, hlock, hdiff⟩ := sampleStep_exists
    (l := [.recreate (mib 1) vdfMbr driveextAuto ⟨0, 0, 0, 0⟩, .lock]) (c := .setDriveSerial 1)
    (P := fun w r w' => r = .ok () ∧ w.drive.lockcnt = 1 ∧
      ((vdfReadSectors ⟨fun _ _ _ => none, fun _ _ _ => none⟩ w'.drive 0 1 (fun _ => 0) 0).toOption.map
          fun q => q.2.1 440) ≠
        (vdfReadSectors ⟨fun _ _ _ => none, fun _ _ _ => none⟩ w.drive 0 1 (fun _ => 0) 0).toOption.map
          fun q => q.2.1 440) (by decide)
  refine ⟨w, w', h, sampleRun_reachable h, hlock, hs, fun hsame => hdiff ?_⟩
  rw [hsame]

/-- A FAT12 drive without a master boot record has no serial: a deletion is refused, and a serial is
set. -/
theorem locked_image_stays_sample :
    ∃ w w', sampleRun [sampleFile, .lock] = some w ∧
      sampleRun [sampleFile, .lock, .deleteFile 2, .setDriveSerial 5] = some w' ∧
      SameImage w.drive w'.drive := by
  obtain ⟨w, h, hlock⟩ := sampleRun_exists (l := [sampleFile, .lock])
    (P := fun w => w.drive.lockcnt ≠ 0) (by decide)
  obtain ⟨w₁, h₁, hlock₁, hmbr, hfs⟩ := sampleRun_exists (l := [sampleFile, .lock, .deleteFile 2])
    (P := fun w => w.drive.lockcnt ≠ 0 ∧ hasFlag w.drive.flags vdfMbr = false ∧
      w.drive.filesys = .fat12) (by decide)
  obtain ⟨w', h', -⟩ := sampleRun_exists
    (l := [sampleFile, .lock, .deleteFile 2, .setDriveSerial 5]) (P := fun _ => True) (by decide)
  have hnot : ¬ SerialServed w₁.drive := by simp [SerialServed, hmbr, hfs]
  exact ⟨w, w', h, h', locked_image_stays (sampleRun_reachable h)
    (((Run.refl w).stepTo ⟨hlock, nofun⟩ (sampleRun_concat h h₁)).stepTo
      ⟨hlock₁, fun _ _ => .inr hnot⟩ (sampleRun_concat h₁ h'))⟩

end Runs

end Vdf
