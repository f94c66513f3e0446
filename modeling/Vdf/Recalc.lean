import Vdf.Drive
import Vdf.Lib.Qsort

/-!
# `vdf_drive_recalc`

The layout is computed in two passes. `dir_recalc` numbers the slots of every directory and
derives its size from them. `file_recalc_offsize` then gives each file of `all_files` its clusters
and sectors, in list order. The ranges of the files are stored and sorted by first sector.

`dir_recalc` calls itself on subdirectories; `dirRecalc` has fuel, and is `none` when that runs out.
-/

namespace Vdf

open Word

/-! ## Directory slots -/

/-- `fents_needed`: the slots of a file's long name. -/
def fentsNeeded (d : VdfDrive) (f : FileId) : Nat :=
  if !hasFlag d.flags vdfVfat then 0
  else if !(d.file f).longname then 0
  else (d.file f).name.length / 13 + 1

/-- `file_recalc_dir`: the next slots of the parent. -/
def fileRecalcDir (d : VdfDrive) (f : FileId) : VdfDrive :=
  match (d.file f).parent with
  | none => d
  | some p =>
    let fentStart := (d.file p).dirFentCnt
    let fentCnt := fentsNeeded d f
    (d.modifyFile f fun fil => { fil with fentStart, fentCnt }).modifyFile p fun dir =>
      { dir with dirFentCnt := dir.dirFentCnt + (fentCnt + 1) }

/-- The slots that come before the entries: the label of the root, `.` and `..` elsewhere. -/
def reservedSlots (d : VdfDrive) (dir : FileId) : Nat :=
  if (d.file dir).parent = none then (if d.label = none then 0 else 1) else 2

/-- The clusters of a directory of `slots` slots: its size is a `uint32_t`. -/
def dirSize (slots : Nat) : Nat := u32 (slots * 32)

def dirClusters (bpc size : Nat) : Nat := u32 (size + (bpc - 1)) / bpc

/-- `dir_recalc`. It never fails. -/
def dirRecalc : Nat → VdfDrive → FileId → Option VdfDrive
  | 0, _, _ => none
  | fuel + 1, d, dir => do
    let d := d.modifyFile dir fun x => { x with dirFentCnt := reservedSlots d dir }
    let d ← (d.file dir).entries.foldlM
      (fun d f => if (d.file f).isDir then dirRecalc fuel d f else some (fileRecalcDir d f)) d
    let size := dirSize (d.file dir).dirFentCnt
    let d := d.modifyFile dir fun x => { x with size, clusters := dirClusters d.bpc size }
    if (d.file dir).parent ≠ none ∨ d.filesys = .fat32 then some (fileRecalcDir d dir) else some d

/-! ## Clusters and sectors -/

/-- `file_recalc_offsize`. The first component is the return value. -/
def fileRecalcOffsize (d : VdfDrive) (f : FileId) : Int × VdfDrive :=
  let fil := d.file f
  if fil.size ≠ 0 then
    let start := d.dataClusterEnd
    let end_ := u32 (start + fil.clusters)
    let dataEnd := if fil.fatclusters ≠ -1 then ofInt (start + fil.fatclusters) else end_
    let d₁ := { d with nonemptyFileCnt := d.nonemptyFileCnt + 1, dataClusterEnd := end_ }.modifyFile
      f fun x => { x with start, end_, dataEnd }
    if d.sectors ≤ d.dataEnd then (-1, d₁)
    else
      let startsect := d.dataEnd
      let endsect := u32 (startsect + u32 (fil.clusters * d.spc))
      let d₂ := { d₁ with dataEnd := endsect }.modifyFile f fun x => { x with startsect }
      if d.sectors ≤ endsect then (-1, d₂)
      else (0, d₂.modifyFile f fun x => { x with endsect })
  else (0, d.modifyFile f fun x => { x with start := 0 })

/-- The first pass over `all_files`. -/
def offsizePass (d : VdfDrive) : List FileId → Int × VdfDrive
  | [] => (0, d)
  | f :: fs =>
    let (r, d) := fileRecalcOffsize d f
    if r = -1 then (-1, d) else offsizePass d fs

/-! ## Ranges -/

/-- What the second pass stores for a file. -/
def fileRange (d : VdfDrive) (f : FileId) : FileRange :=
  let fil := d.file f
  { sectstart := fil.startsect, sectend := u32 (fil.startsect + u32 (fil.clusters * d.spc))
    fatstart := fil.start, fatend := fil.end_, file := f }

/-- All that the second pass stores. The array has room for `nonempty_file_cnt` of it; `layOut`
drops the rest, which the source writes behind the array (`rangesExact_iff` says when there is
one). -/
def storedRanges (d : VdfDrive) : List FileRange :=
  (d.allFiles.filter fun f => (d.file f).isDir || (d.file f).size != 0).map (fileRange d)

/-- `cmp_filerange`: the difference of two `uint32_t`, as an `int`. -/
def cmpFilerange (r₁ r₂ : FileRange) : Int := toI32 (subU32 r₁.sectstart r₂.sectstart)

/-- The part of `vdf_drive_recalc` after `dir_recalc`. The `take` is the array of
`nonempty_file_cnt` ranges: a store behind it is not in the model's memory. -/
def layOut (qsort : List FileRange → List FileRange) (d : VdfDrive) : Int × VdfDrive :=
  let (r, d) := offsizePass d d.allFiles
  if r = -1 then (-1, d)
  else
    (0, { d with
      ranges := some (qsort ((storedRanges d).take d.nonemptyFileCnt)), dirty := false })

/-- `vdf_drive_recalc`, with the `qsort` of the C library. -/
def vdfDriveRecalc (qsort : List FileRange → List FileRange) (fuel : Nat) (d : VdfDrive) :
    Option (Int × VdfDrive) :=
  if !d.isValid then some (-1, d)
  else if d.isLocked then some (-1, d)
  else if !d.dirty then some (0, d)
  else
    let d := { d with dataEnd := d.dataStart, nonemptyFileCnt := 0, dataClusterEnd := 2 }
    (dirRecalc fuel d d.rootDir).map (layOut qsort)

/-- A forced recomputation of `d` succeeds with `d'`, under some `qsort` of the C library. -/
def Recalc (d d' : VdfDrive) : Prop :=
  d.dirty = true ∧ ∃ qsort fuel, Qsort.Lawful cmpFilerange qsort ∧
    vdfDriveRecalc qsort fuel d = some (0, d')

end Vdf
