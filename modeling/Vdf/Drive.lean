import Vdf.Lib.Word
import Vdf.Lib.Buffer

/-!
# The drive and its files

The records of `vdf_drive.h` and `vdf_file.h`. All files of a drive are one heap, `VdfDrive.file`,
indexed by `FileId`; a `vdf_file *` is a `FileId` and `NULL` is `none`. The intrusive lists
(`all_files`, the entries of a directory) are lists of `FileId`.

* Unsigned fields are `Nat`; an operation that can leave the type's range reduces (`Word.u32`).
* The flag words of a file are one `Bool` per flag. `VDF_DIRTY` and `VDF_DELETED` of a drive are
  `dirty` and `deleted`; the other bits are `flags`.
* `Geometry` is the part of `vdf_drive` that `createdrive_ext` computes.
-/

namespace Vdf

open Word

/-! ## Constants of `vdf.h` -/

def vdeAutoBps : Nat := 0x01
def vdeAutoSpc : Nat := 0x02
def vdeAutoRootent : Nat := 0x04

def vdfVfat : Nat := 0x0100
def vdfMbr : Nat := 0x0200
def vdfMbrPad : Nat := 0x0400
def vdfAlignCluster : Nat := 0x0800
def vdfFailWarn : Nat := 0x1000
def vdfDeleted : Nat := 0x20000
def vdfFsMask : Nat := 0xff

def vdfFatAuto : Nat := 0x00
def vdfFatAutoNo32 : Nat := 0x10
def vdfFatSame : Nat := 0x20

def vfaVollabel : Nat := 0x08
def vfaDir : Nat := 0x10
def vfaAttribute : Nat := 0x20

def kib (x : Nat) : Nat := x * 1024
def mib (x : Nat) : Nat := kib x * 1024
def gib (x : Nat) : Nat := mib x * 1024
def tib (x : Nat) : Nat := gib x * 1024

/-- `drv->filesys`. `unset` is the `-1` that `createdrive_ext` starts from. -/
inductive Filesys where
  | unset
  | fat12
  | fat16
  | fat32
  deriving DecidableEq, Repr

/-- The value of the `VDF_FAT12`, `VDF_FAT16` or `VDF_FAT32` flag, as an `int`. -/
def Filesys.code : Filesys → Int
  | .unset => -1
  | .fat12 => 1
  | .fat16 => 2
  | .fat32 => 3

/-- The file system that a flag value names. -/
def Filesys.ofFlag (flag : Nat) : Filesys :=
  if flag = 1 then .fat12 else if flag = 2 then .fat16 else if flag = 3 then .fat32 else .unset

/-! ## Records -/

/-- What `createdrive_ext` computes. -/
structure Geometry where
  flags : Nat
  filesys : Filesys
  bps : Nat
  spc : Nat
  bpc : Nat
  sectors : Nat
  clusters : Nat
  bytes : Nat
  rootDirCnt : Int
  mbrSectors : Nat
  direntPerSector : Nat
  fatSectors : Nat
  fat1Start : Nat
  fat2Start : Nat
  rootStart : Nat
  rootSectors : Nat
  dataStart : Nat
  deriving DecidableEq, Repr

abbrev FileId := Nat

/-- `vdf_file`. The members of the union that a file does not use keep their initial value. -/
structure VdfFile where
  name : List UInt8 := []
  shortname : List UInt8 := []
  rootdir : Bool := false
  virt : Bool := false
  longname : Bool := false
  deleted : Bool := false
  attr : Nat := vfaAttribute
  parent : Option FileId := none
  date : Int := 0
  size : Nat := 0
  clusters : Nat := 0
  fatsize : Int := -1
  fatclusters : Int := -1
  start : Nat := 0
  end_ : Nat := 0
  dataEnd : Nat := 0
  startsect : Nat := 0
  endsect : Nat := 0
  fentStart : Nat := 0
  fentCnt : Nat := 0
  entries : List FileId := []
  dirCnt : Nat := 0
  dirFentCnt : Nat := 0

/-- `vdf_filerange`. -/
structure FileRange where
  sectstart : Nat
  sectend : Nat
  fatstart : Nat
  fatend : Nat
  file : FileId
  deriving DecidableEq, Repr

/-- `vdf_drive`, with the files it owns. `ranges` is `none` for `NULL`. -/
structure VdfDrive extends Geometry where
  lockcnt : Nat := 0
  dirty : Bool := true
  deleted : Bool := false
  rootDir : FileId := 0
  file : FileId → VdfFile
  allFiles : List FileId
  fileCnt : Nat
  nonemptyFileCnt : Nat := 0
  ranges : Option (List FileRange) := none
  label : Option (List UInt8) := none
  serial : Nat := 0x12345678
  dataEnd : Nat
  dataClusterEnd : Nat := 0

/-- Undefined behaviour that a generator can run into. -/
inductive Fault where
  /-- `drv->ranges[i]` with `i` outside the allocated array, or `ranges` is `NULL`. -/
  | rangesIndex (i : Nat)
  /-- `memset` with a length that is negative before the conversion to `size_t`. -/
  | memsetLength
  /-- A local variable that no case of a `switch` on `drv->filesys` assigned. -/
  | indeterminate
  /-- A loop that does not end. -/
  | endless
  deriving DecidableEq, Repr

namespace VdfFile

/-- `vdf_file_is_dir`. -/
def isDir (f : VdfFile) : Bool := !f.deleted && hasFlag f.attr vfaDir

/-- `vdf_file_is_virt`. -/
def isVirt (f : VdfFile) : Bool := !f.deleted && f.virt

/-- `vdf_file_is_real`. -/
def isReal (f : VdfFile) : Bool := !f.deleted && !f.virt

end VdfFile

namespace VdfDrive

/-- `drive_is_valid` of a drive that exists. -/
def isValid (d : VdfDrive) : Bool := !d.deleted

/-- `vdf_drive_is_locked`. -/
def isLocked (d : VdfDrive) : Bool := d.lockcnt != 0

/-- The drive with file `f` replaced by `g` of it. -/
def modifyFile (d : VdfDrive) (f : FileId) (g : VdfFile → VdfFile) : VdfDrive :=
  { d with file := fun x => if x = f then g (d.file x) else d.file x }

@[simp] theorem modifyFile_geometry (d : VdfDrive) (f : FileId) (g : VdfFile → VdfFile) :
    (d.modifyFile f g).toGeometry = d.toGeometry := rfl

@[simp] theorem modifyFile_label (d : VdfDrive) (f : FileId) (g : VdfFile → VdfFile) :
    (d.modifyFile f g).label = d.label := rfl

@[simp] theorem modifyFile_allFiles (d : VdfDrive) (f : FileId) (g : VdfFile → VdfFile) :
    (d.modifyFile f g).allFiles = d.allFiles := rfl

theorem modifyFile_file (d : VdfDrive) (f x : FileId) (g : VdfFile → VdfFile) :
    (d.modifyFile f g).file x = if x = f then g (d.file x) else d.file x := rfl

@[simp] theorem modifyFile_self (d : VdfDrive) (f : FileId) (g : VdfFile → VdfFile) :
    (d.modifyFile f g).file f = g (d.file f) := by simp [modifyFile_file]

theorem modifyFile_ne (d : VdfDrive) {f x : FileId} (g : VdfFile → VdfFile) (h : x ≠ f) :
    (d.modifyFile f g).file x = d.file x := by simp [modifyFile_file, h]

end VdfDrive

end Vdf
