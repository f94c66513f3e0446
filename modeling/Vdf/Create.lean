import Vdf.Drive

/-!
# `createdrive_ext`

The geometry of a drive from a size, a flag word and extended parameters. The three cases of the
last `switch` on `fsys` differ in the first FAT sector, the root directory and the bytes of one
FAT entry; what they share is `planFat`.

With an explicit cluster size and a file system flag that is none of the known ones, no case
matches and `fsys` stays `-1` (`Filesys.unset`): the source then stores local variables that it
never assigned. `Uninit` is their value.
-/

namespace Vdf

open Word

/-- `vcd_driveext`. -/
structure DriveExt where
  flags : Nat
  bytesPerSector : Int
  sectorsPerCluster : Int
  rootDirCnt : Int
  deriving DecidableEq, Repr

/-- `driveext_auto`. -/
def driveextAuto : DriveExt := ⟨vdeAutoBps ||| vdeAutoSpc ||| vdeAutoRootent, -1, -1, 0⟩

/-- The local variables that stay unassigned when `fsys` is `-1`. -/
structure Uninit where
  fatSectors : Nat
  rootSectors : Nat
  dataStart : Nat
  fat1Start : Nat
  deriving DecidableEq, Repr

/-! ## Cluster size -/

/-- `cluster_size_range`. -/
structure ClusterSizeRange where
  maxSize : Nat
  clusterSize : Nat

def fat12ClusterRanges : List ClusterSizeRange :=
  [⟨mib 15, kib 8⟩, ⟨0, kib 4⟩]

def fat16ClusterRanges : List ClusterSizeRange :=
  [⟨mib 16, kib 4⟩, ⟨mib 128, kib 2⟩, ⟨mib 256, kib 4⟩, ⟨mib 512, kib 8⟩, ⟨gib 1, kib 16⟩,
    ⟨gib 2, kib 32⟩, ⟨gib 4, kib 64⟩, ⟨gib 8, kib 128⟩, ⟨0, kib 256⟩]

def fat32ClusterRanges : List ClusterSizeRange :=
  [⟨mib 260, 512⟩, ⟨gib 8, kib 4⟩, ⟨gib 16, kib 8⟩, ⟨gib 32, kib 16⟩, ⟨0, kib 32⟩]

/-- `find_spc`: the last range has `max_size` 0. -/
def findSpc (ranges : List ClusterSizeRange) (size bps : Nat) : Nat :=
  match ranges.find? fun r => r.maxSize == 0 || size < r.maxSize with
  | some r => if r.clusterSize ≤ bps then 1 else r.clusterSize / bps
  | none => 1

/-! ## Choices -/

/-- The sector size, or `EINVAL`. -/
def chooseBps (ext : DriveExt) : Option Nat :=
  if hasFlag ext.flags vdeAutoBps then some 512
  else if ext.bytesPerSector ∈ [512, 1024, 2048, 4096] then some ext.bytesPerSector.toNat
  else none

/-- The file system with `VDE_AUTO_SPC`, or `EINVAL`. -/
def chooseFsysAuto (fsysFlag size : Nat) : Option Filesys :=
  if fsysFlag = vdfFatAuto ∨ fsysFlag = vdfFatAutoNo32 then
    if size < mib 16 then some .fat12
    else if mib 260 ≤ size ∧ size < tib 2 ∧ fsysFlag ≠ vdfFatAutoNo32 then some .fat32
    else if size < gib 16 then some .fat16
    else none
  else
    match Filesys.ofFlag fsysFlag with
    | .unset => none
    | fsys => some fsys

/-- The cluster size with `VDE_AUTO_SPC`. -/
def chooseSpcAuto (fsys : Filesys) (size bps : Nat) : Nat :=
  match fsys with
  | .fat12 => findSpc fat12ClusterRanges size bps
  | .fat16 => findSpc fat16ClusterRanges size bps
  | .fat32 => findSpc fat32ClusterRanges size bps
  | .unset => 0

/-- The file system with an explicit cluster size. The `switch` has no default case. -/
def chooseFsys (fsysFlag clusters : Nat) : Filesys :=
  if fsysFlag = vdfFatAuto ∨ fsysFlag = vdfFatAutoNo32 then
    if clusters < 4085 then .fat12
    else if clusters < 65525 ∨ fsysFlag = vdfFatAutoNo32 then .fat16
    else .fat32
  else Filesys.ofFlag fsysFlag

/-- File system and sectors per cluster, or `EINVAL`. `size` is rounded up to a whole sector. -/
def chooseFsysSpc (ext : DriveExt) (fsysFlag size bps : Nat) : Option (Filesys × Nat) :=
  if hasFlag ext.flags vdeAutoSpc then
    (chooseFsysAuto fsysFlag size).map fun fsys => (fsys, chooseSpcAuto fsys size bps)
  else if ext.sectorsPerCluster ∈ [1, 2, 4, 8, 16, 32, 64, 128] then
    let spc := ext.sectorsPerCluster.toNat
    some (chooseFsys fsysFlag (u32 (size / (bps * spc))), spc)
  else none

/-! ## FAT size and data area -/

/-- What one case of the last `switch` assigns. -/
structure Plan where
  fat1Start : Nat
  rootSectors : Nat
  fatSectors : Nat
  dataStart : Nat
  clusters : Nat
  deriving DecidableEq, Repr

/-- The FAT size from a first cluster count, then the data area and the final count. `fatBytes`
is the length of a FAT for a cluster count. -/
def planFat (align : Bool) (bps spc sectors fat1Start rootSectors : Nat) (fatBytes : Nat → Nat) :
    Plan :=
  let dataStart := u32 (fat1Start + rootSectors)
  let clusters := subU32 sectors dataStart / spc
  let fatSectors := u32 (fatBytes clusters + (bps - 1)) / bps
  let fatSectors := if align then alignUp fatSectors spc else fatSectors
  let dataStart := u32 (dataStart + u32 (fatSectors * 2))
  { fat1Start, rootSectors, fatSectors, dataStart, clusters := subU32 sectors dataStart / spc }

/-- The sectors of the root directory (FAT12 and FAT16). -/
def rootDirSectors (align : Bool) (bps spc : Nat) (rootDirCnt : Int) : Nat :=
  let rootSectors := u32 (ofInt (rootDirCnt * 32) + (bps - 1)) / bps
  if align then alignUp rootSectors spc else rootSectors

def planFat12 (align : Bool) (bps spc sectors : Nat) (rootDirCnt : Int) : Plan :=
  planFat align bps spc sectors (if align then spc else 1) (rootDirSectors align bps spc rootDirCnt)
    fun clusters => u32 (u32 (clusters * 3) / 2 + 1)

def planFat16 (align : Bool) (bps spc sectors : Nat) (rootDirCnt : Int) : Plan :=
  planFat align bps spc sectors (if align then spc else 1) (rootDirSectors align bps spc rootDirCnt)
    fun clusters => u32 (clusters * 2)

def planFat32 (align : Bool) (bps spc sectors : Nat) : Plan :=
  planFat align bps spc sectors (if align then maskDown 32 (u32 (32 + spc)) spc else 32) 0
    fun clusters => u32 (clusters * 4)

/-- The checks on the final cluster count. -/
def clustersAccepted (fsys : Filesys) (failWarn : Bool) (clusters : Nat) : Bool :=
  match fsys with
  | .fat12 => !decide (4084 < clusters)
  | .fat16 => !(failWarn && decide (clusters < 4085)) && !decide (clusters < 4085) &&
      !decide (65524 < clusters)
  | .fat32 => !(failWarn && decide (clusters ≤ 65525)) && !decide (clusters < 65525) &&
      !decide (0xfffffef - 2 < clusters)
  | .unset => true

/-- What the last `switch` on `fsys` assigns before its checks. -/
def planSwitch (fsys : Filesys) (flags bps spc sectors clusters : Nat) (rootDirCnt : Int)
    (junk : Uninit) : Plan :=
  let align := hasFlag flags vdfAlignCluster
  match fsys with
  | .fat12 => planFat12 align bps spc sectors rootDirCnt
  | .fat16 => planFat16 align bps spc sectors rootDirCnt
  | .fat32 => planFat32 align bps spc sectors
  | .unset => ⟨junk.fat1Start, junk.rootSectors, junk.fatSectors, junk.dataStart, clusters⟩

/-- The last `switch` on `fsys`, or `EINVAL`. -/
def planDrive (fsys : Filesys) (flags bps spc sectors clusters : Nat) (rootDirCnt : Int)
    (junk : Uninit) : Option Plan :=
  let plan := planSwitch fsys flags bps spc sectors clusters rootDirCnt junk
  if clustersAccepted fsys (hasFlag flags vdfFailWarn) plan.clusters then some plan else none

/-- The size rounded up to a whole sector, in `uint64_t`. -/
def roundSize (size bps : Nat) : Nat := maskDown 64 (u64 (size + (bps - 1))) bps

/-- The geometry part of `createdrive_ext`; `none` is `EINVAL`. -/
def createdriveGeometry (size flags : Nat) (ext : DriveExt) (junk : Uninit) : Option Geometry := do
  let rootDirCnt := if hasFlag ext.flags vdeAutoRootent then 512 else ext.rootDirCnt
  let bps ← chooseBps ext
  let size := roundSize size bps
  let sectors := u32 (size / bps)
  let (fsys, spc) ← chooseFsysSpc ext (flags &&& vdfFsMask) size bps
  let plan ← planDrive fsys flags bps spc sectors (u32 (size / (bps * spc))) rootDirCnt junk
  let mbrSectors :=
    if hasFlag flags vdfMbr then (if hasFlag flags vdfMbrPad then spc else 1) else 0
  let fat2Start := u32 (plan.fat1Start + plan.fatSectors)
  pure
    { flags, filesys := fsys, bps, spc, bpc := bps * spc, sectors, clusters := plan.clusters,
      bytes := u32 (sectors + mbrSectors) * bps, rootDirCnt, mbrSectors,
      direntPerSector := bps / 32, fatSectors := plan.fatSectors, fat1Start := plan.fat1Start,
      fat2Start, rootStart := u32 (fat2Start + plan.fatSectors), rootSectors := plan.rootSectors,
      dataStart := plan.dataStart }

/-! ## The drive -/

/-- `create_root_dir`. -/
def createRootDir : VdfFile :=
  { name := "ROOT".toUTF8.toList, rootdir := true, attr := vfaAttribute ||| vfaDir }

/-- `createdrive_ext`: a new drive, or an existing one with another geometry. -/
def createdriveExt (drv : Option VdfDrive) (size flags : Nat) (ext : DriveExt) (junk : Uninit) :
    Option VdfDrive :=
  (createdriveGeometry size flags ext junk).map fun g =>
    match drv with
    | none =>
      { toGeometry := g, deleted := hasFlag flags vdfDeleted, rootDir := 0
        file := fun _ => createRootDir
        allFiles := if g.filesys = .fat32 then [0] else []
        fileCnt := if g.filesys = .fat32 then 1 else 0
        dataEnd := g.dataStart }
    | some d =>
      let d' : VdfDrive :=
        { d with toGeometry := g, deleted := hasFlag flags vdfDeleted, dirty := true,
                 dataEnd := g.dataStart }
      if d.filesys = .fat32 then
        if g.filesys ≠ .fat32 then
          { d' with allFiles := d.allFiles.erase d.rootDir, fileCnt := d.fileCnt - 1 }
        else d'
      else if g.filesys = .fat32 then
        { d' with allFiles := d.allFiles ++ [d.rootDir], fileCnt := d.fileCnt + 1 }
      else d'

end Vdf
