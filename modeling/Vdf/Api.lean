import Mathlib.Data.Nat.Bitwise
import Vdf.Create
import Vdf.Name
import Vdf.Recalc

/-!
# The calls that change a drive

The mutators of `file.c` and `drive.c`. A call is its checks, in the source's order, and what it does
once they pass; the checks are a function of their own where a failure can come later too. The
result is the return value, or `errno`, and the drive.

* A file structure is one allocation: `malloc` answers with an id that is not in use (`Fresh`). A
  freed structure is marked `deleted` and has no parent.
* `errno` is `unset` where the source returns -1 without assigning it.
* The callback and the path of a file are no part of the model: no call reads them.
-/

namespace Vdf

open Word

/-! ## Constants and results -/

/-- The flags of `vdf_find_file`. -/
def vffShortonly : Nat := 0x01
def vffLongonly : Nat := 0x02

def vfaReadonly : Nat := 0x01
def vfaHidden : Nat := 0x02
def vfaSystem : Nat := 0x04

/-- `VFA_USER_ATTR`. -/
def vfaUserAttr : Nat := vfaReadonly ||| vfaHidden ||| vfaSystem ||| vfaAttribute

inductive Errno where
  | einval
  | eperm
  | enospc
  | eexist
  | enomem
  | erange
  | unset
  deriving DecidableEq, Repr

/-- What a call returns, and the drive behind it. -/
abbrev Result (α : Type) := Except Errno α × VdfDrive

/-- What `stat` tells about a path. -/
structure Stat where
  regular : Bool
  size : Nat
  ctime : Int
  deriving DecidableEq, Repr

namespace VdfDrive

/-- `vdf_drive_is_locked` as a condition: the -1 of an invalid drive counts too. -/
def lockTest (d : VdfDrive) : Bool := d.deleted || d.isLocked

/-- `f` is no file of the drive, and no structure has a pointer to it. -/
structure Fresh (d : VdfDrive) (f : FileId) : Prop where
  ne_root : f ≠ d.rootDir
  not_mem : f ∉ d.allFiles
  parent : (d.file f).parent = none
  entries : (d.file f).entries = []
  not_parent : ∀ x, (d.file x).parent ≠ some f
  not_entry : ∀ x, f ∉ (d.file x).entries

end VdfDrive

/-- `set_drive_dirty`. -/
def setDriveDirty (d : VdfDrive) : VdfDrive :=
  if d.dirty then d else { d with ranges := none, dirty := true }

section SetDriveDirty

variable (d : VdfDrive)

@[simp] theorem setDriveDirty_dirty : (setDriveDirty d).dirty = true := by
  unfold setDriveDirty; split <;> simp_all

@[simp] theorem setDriveDirty_file : (setDriveDirty d).file = d.file := by
  unfold setDriveDirty; split <;> rfl

@[simp] theorem setDriveDirty_allFiles : (setDriveDirty d).allFiles = d.allFiles := by
  unfold setDriveDirty; split <;> rfl

@[simp] theorem setDriveDirty_fileCnt : (setDriveDirty d).fileCnt = d.fileCnt := by
  unfold setDriveDirty; split <;> rfl

@[simp] theorem setDriveDirty_rootDir : (setDriveDirty d).rootDir = d.rootDir := by
  unfold setDriveDirty; split <;> rfl

@[simp] theorem setDriveDirty_label : (setDriveDirty d).label = d.label := by
  unfold setDriveDirty; split <;> rfl

@[simp] theorem setDriveDirty_geometry : (setDriveDirty d).toGeometry = d.toGeometry := by
  unfold setDriveDirty; split <;> rfl

@[simp] theorem setDriveDirty_lockcnt : (setDriveDirty d).lockcnt = d.lockcnt := by
  unfold setDriveDirty; split <;> rfl

@[simp] theorem setDriveDirty_deleted : (setDriveDirty d).deleted = d.deleted := by
  unfold setDriveDirty; split <;> rfl

theorem setDriveDirty_of_dirty (h : d.dirty = true) : setDriveDirty d = d := if_pos h

end SetDriveDirty

/-! ## Lookup -/

/-- The comparisons of `find_file_skip` for one entry. -/
def nameMatches (name : List UInt8) (flags : Nat) (fil : VdfFile) : Bool :=
  !hasFlag flags vffShortonly && sameName name fil.name ||
    !hasFlag flags vffLongonly && sameName name fil.shortname

/-- `find_file_skip`. -/
def findFileSkip (d : VdfDrive) (dir : FileId) (name : List UInt8) (flags : Nat)
    (skip : Option FileId) : Option FileId :=
  (d.file dir).entries.find? fun f => some f != skip && nameMatches name flags (d.file f)

/-- An entry of the directory of `fil`, other than `fil`, has the short name. -/
def shortnameTaken (d : VdfDrive) (fil : FileId) (shortname : List UInt8) : Bool :=
  match (d.file fil).parent with
  | some p => (findFileSkip d p shortname vffShortonly (some fil)).isSome
  | none => false

/-- `calc_shortname`. -/
def calcShortname (d : VdfDrive) (fil : FileId) : Result Unit :=
  match shortnameOf (shortnameTaken d fil) (d.file fil).name with
  | some (shortname, longname) =>
    (.ok (), setDriveDirty (d.modifyFile fil fun x => { x with shortname, longname }))
  | none => (.error .unset, d)

/-! ## Sizes, dates, attributes -/

/-- `vdf_set_file_date`. -/
def vdfSetFileDate (d : VdfDrive) (file : FileId) (date : Int) : Result Unit :=
  if (d.file file).deleted then (.error .einval, d)
  else if d.lockTest then (.error .eperm, d)
  else (.ok (), setDriveDirty (d.modifyFile file fun x => { x with date }))

/-- The clusters that `vdf_set_file_size` stores, in `uint32_t`. -/
def virtClusters (bpc size : Nat) : Nat := u32 (size + (bpc - 1)) / bpc

/-- `vdf_set_file_size`. -/
def vdfSetFileSize (d : VdfDrive) (file : FileId) (size : Nat) : Result Unit :=
  let size := u32 size
  if (d.file file).deleted ∨ (d.file file).parent = none then (.error .einval, d)
  else if (d.file file).isReal then (.error .einval, d)
  else if d.lockTest then (.error .eperm, d)
  else (.ok (), setDriveDirty
    (d.modifyFile file fun x => { x with size, clusters := virtClusters d.bpc size }))

/-- `file->fatclusters` for a size that is not -1: the sum is an `int32_t`, its quotient a
`size_t`. -/
def fatClusters (bpc : Nat) (size : Int) : Int :=
  let sum := toI32 (ofInt (size + (bpc - 1 : Nat)))
  toI32 (u32 ((sum % 2 ^ 64).toNat / bpc))

/-- `vdf_set_fat_file_size`. -/
def vdfSetFatFileSize (d : VdfDrive) (file : FileId) (size : Int) : Result Unit :=
  if (d.file file).deleted ∨ (d.file file).parent = none then (.error .einval, d)
  else if (d.file file).isReal then (.error .einval, d)
  else if d.lockTest then (.error .eperm, d)
  else if (d.file file).size < ofInt size then (.error .einval, d)
  else (.ok (), setDriveDirty (d.modifyFile file fun x =>
    { x with fatsize := size, fatclusters := if size = -1 then -1 else fatClusters d.bpc size }))

/-- `w` without the bits of `m`. -/
def clearBits (w m : Nat) : Nat := Nat.ldiff w m

/-- `vdf_set_file_attr`. The mask loses the bits that the user can change. -/
def vdfSetFileAttr (d : VdfDrive) (file : FileId) (attr mask : Nat) : Result Unit :=
  if (d.file file).deleted then (.error .einval, d)
  else if d.lockTest then (.error .eperm, d)
  else
    let mask := clearBits mask vfaUserAttr
    (.ok (), setDriveDirty
      (d.modifyFile file fun x => { x with attr := clearBits x.attr mask ||| (attr &&& mask) }))

/-! ## New files -/

/-- The checks of `create_file`. -/
def createCheck (d : VdfDrive) (parent : FileId) (name : List UInt8) : Option Errno :=
  let dir := d.file parent
  if dir.deleted then some .einval
  else if d.lockTest then some .eperm
  else if !dir.isDir then some .einval
  else if d.filesys ≠ .fat32 ∧ dir.rootdir ∧ (dir.dirCnt : Int) = d.rootDirCnt then some .enospc
  else if !filenameValid name then some .einval
  else if (findFileSkip d parent name 0 none).isSome then some .eexist
  else none

/-- The new structure `f`, at the end of its directory and of `all_files`. -/
def linkFile (d : VdfDrive) (parent f : FileId) : VdfDrive :=
  let d := d.modifyFile f fun _ => { parent := some parent }
  let d := d.modifyFile parent fun dir =>
    { dir with entries := dir.entries ++ [f], dirCnt := dir.dirCnt + 1 }
  setDriveDirty { d with allFiles := d.allFiles ++ [f], fileCnt := d.fileCnt + 1 }

/-- `free` of a file structure. -/
def freeFile (d : VdfDrive) (f : FileId) : VdfDrive :=
  d.modifyFile f fun x => { x with deleted := true, parent := none }

/-- `exit_err` of `create_file`: both lists lose the file, no counter changes. -/
def unlinkFile (d : VdfDrive) (parent f : FileId) : VdfDrive :=
  let d := d.modifyFile parent fun dir => { dir with entries := dir.entries.erase f }
  freeFile { d with allFiles := d.allFiles.erase f } f

/-- `create_file` in a directory. `alloc` is what `malloc` returns; `strdup` says whether `strdup`
succeeds. -/
def createFile (d : VdfDrive) (parent : FileId) (name : List UInt8) (alloc : Option FileId)
    (strdup : Bool) : Result FileId :=
  match createCheck d parent name with
  | some e => (.error e, d)
  | none =>
    match alloc with
    | none => (.error .enomem, d)
    | some f =>
      let d := linkFile d parent f
      if !strdup then (.error .enomem, unlinkFile d parent f)
      else
        match calcShortname (d.modifyFile f fun x => { x with name }) f with
        | (.error e, d) => (.error e, unlinkFile d parent f)
        | (.ok _, d) => (.ok f, d)

/-- `vdf_add_dir`. `time` is what `time(NULL)` returns. -/
def vdfAddDir (d : VdfDrive) (parent : FileId) (name : List UInt8) (alloc : Option FileId)
    (strdup : Bool) (time : Int) : Result FileId :=
  match createFile d parent name alloc strdup with
  | (.error e, d) => (.error e, d)
  | (.ok f, d) =>
    let d := d.modifyFile f fun x =>
      { x with attr := x.attr ||| vfaDir, dirCnt := 0, entries := [] }
    (.ok f, (vdfSetFileDate d f time).2)

/-- The part of a path that `vdf_add_file_real` takes when there is no name: what follows the last
slash, of those behind the first character. -/
def pathName : List UInt8 → List UInt8
  | [] => []
  | c :: path =>
    if 0x2f ∈ path then (path.reverse.takeWhile (· != 0x2f)).reverse else c :: path

/-- The clusters that `vdf_add_file_real` stores: the sum is a `size_t`. -/
def realClusters (bpc size : Nat) : Nat := u32 (u64 (size + (bpc - 1)) / bpc)

/-- `vdf_add_file_real`. `stat` is `none` when the call fails. -/
def vdfAddFileReal (d : VdfDrive) (parent : FileId) (name : Option (List UInt8))
    (path : List UInt8) (stat : Option Stat) (alloc : Option FileId) (strdup : Bool) :
    Result FileId :=
  match stat with
  | none => (.error .unset, d)
  | some st =>
    if !st.regular then (.error .einval, d)
    else
      match createFile d parent (name.getD (pathName path)) alloc strdup with
      | (.error e, d) => (.error e, d)
      | (.ok f, d) =>
        let d := d.modifyFile f fun x =>
          { x with size := u32 st.size, clusters := realClusters d.bpc st.size }
        (.ok f, (vdfSetFileDate d f st.ctime).2)

/-- `vdf_add_file_virt`. -/
def vdfAddFileVirt (d : VdfDrive) (parent : FileId) (name : List UInt8) (len : Nat)
    (alloc : Option FileId) (strdup : Bool) (time : Int) : Result FileId :=
  match createFile d parent name alloc strdup with
  | (.error e, d) => (.error e, d)
  | (.ok f, d) =>
    let d := d.modifyFile f fun x => { x with virt := true }
    (.ok f, (vdfSetFileDate (vdfSetFileSize d f len).2 f time).2)

/-! ## Deletion and moves -/

/-- `vdf_delete_file`. `delete_file` marks the file deleted first, so that `vdf_file_is_dir` is 0 and
its entries are left alone. -/
def vdfDeleteFile (d : VdfDrive) (file : FileId) : Result Unit :=
  if (d.file file).deleted then (.error .einval, d)
  else if file = d.rootDir then (.error .einval, d)
  else if d.lockTest then (.error .eperm, d)
  else
    let d := match (d.file file).parent with
      | some p => d.modifyFile p fun dir => { dir with entries := dir.entries.erase file }
      | none => d
    let d := setDriveDirty d
    (.ok (), freeFile { d with fileCnt := d.fileCnt - 1, allFiles := d.allFiles.erase file } file)

/-- The checks of `vdf_move_file`. A file has to have a parent. -/
def moveCheck (d : VdfDrive) (file newParent : FileId) : Option Errno :=
  if (d.file file).deleted ∨ (d.file file).parent = none ∨ (d.file newParent).deleted then
    some .einval
  else if !(d.file newParent).isDir then some .einval
  else if d.lockTest then some .eperm
  else none

/-- The new links of a moved file: it becomes the first entry of the new directory. -/
def relinkFile (d : VdfDrive) (file parent newParent : FileId) : VdfDrive :=
  let d := d.modifyFile parent fun dir =>
    { dir with entries := dir.entries.erase file, dirCnt := dir.dirCnt - 1 }
  let d := d.modifyFile newParent fun dir =>
    { dir with entries := file :: dir.entries, dirCnt := dir.dirCnt + 1 }
  setDriveDirty (d.modifyFile file fun x => { x with parent := some newParent })

/-- `vdf_move_file`. -/
def vdfMoveFile (d : VdfDrive) (file newParent : FileId) : Result Unit :=
  match moveCheck d file newParent, (d.file file).parent with
  | some e, _ => (.error e, d)
  | none, none => (.error .einval, d)
  | none, some parent =>
    if parent = newParent then (.ok (), d)
    else if (findFileSkip d newParent (d.file file).name vffLongonly none).isSome then
      (.error .eexist, d)
    else calcShortname (relinkFile d file parent newParent) file

/-- `vdf_file_up`. The file is no longer on the way from entry to entry: its own link is one of the
two that are exchanged. -/
def vdfFileUp (d : VdfDrive) (file : FileId) : Result Unit :=
  match (d.file file).deleted, (d.file file).parent with
  | true, _ | _, none => (.error .einval, d)
  | false, some p =>
    if d.lockTest then (.error .eperm, d)
    else if (d.file p).entries.head? = some file then (.error .erange, d)
    else (.ok (), setDriveDirty
      (d.modifyFile p fun dir => { dir with entries := dir.entries.erase file }))

/-- `vdf_file_down`. Here the entry behind the file is lost. -/
def vdfFileDown (d : VdfDrive) (file : FileId) : Result Unit :=
  match (d.file file).deleted, (d.file file).parent with
  | true, _ | _, none => (.error .einval, d)
  | false, some p =>
    if d.lockTest then (.error .eperm, d)
    else
      match ((d.file p).entries.dropWhile (· != file)).tail with
      | [] => (.error .erange, d)
      | next :: _ => (.ok (), setDriveDirty
        (d.modifyFile p fun dir => { dir with entries := dir.entries.erase next }))

/-! ## Names -/

/-- `vdf_set_file_name`. What `calc_shortname` returns is not looked at. -/
def vdfSetFileName (d : VdfDrive) (file : FileId) (name : List UInt8) (strdup : Bool) :
    Result Unit :=
  match (d.file file).deleted, (d.file file).parent with
  | true, _ | _, none => (.error .einval, d)
  | false, some p =>
    if d.lockTest then (.error .eperm, d)
    else if !filenameValid name then (.error .einval, d)
    else if (findFileSkip d p name vffLongonly (some file)).isSome then (.error .eexist, d)
    else if !strdup then (.error .enomem, d)
    else (.ok (), setDriveDirty
      (calcShortname (d.modifyFile file fun x => { x with name }) file).2)

/-- The length checks of `vdf_set_file_shortname`, at the first dot. -/
def shortnameFits (name : List UInt8) : Bool :=
  let base := name.takeWhile (· != 0x2e)
  match name.drop base.length with
  | [] => name.length ≤ 8
  | _ :: ext => base.length ≤ 8 && !ext.isEmpty && ext.length ≤ 3

/-- `vdf_set_file_shortname`. `VFF_LONGNAME` is cleared but never set. -/
def vdfSetFileShortname (d : VdfDrive) (file : FileId) (name : List UInt8) : Result Unit :=
  match (d.file file).deleted, (d.file file).parent with
  | true, _ | _, none => (.error .einval, d)
  | false, some p =>
    if d.lockTest then (.error .eperm, d)
    else if !filenameValid name then (.error .einval, d)
    else if !shortnameFits name then (.error .einval, d)
    else if (findFileSkip d p name 0 (some file)).isSome then (.error .eexist, d)
    else (.ok (), setDriveDirty (d.modifyFile file fun x =>
      { x with longname := if sameName x.name name then false else x.longname
               shortname := name.map toupper }))

/-! ## The drive -/

/-- `vdf_set_drive_label`. The old label goes before `strdup` is called. -/
def vdfSetDriveLabel (d : VdfDrive) (label : Option (List UInt8)) (strdup : Bool) : Result Unit :=
  if !d.isValid then (.error .einval, d)
  else if d.isLocked then (.error .eperm, d)
  else if label ≠ none ∧ !strdup then (.error .enomem, { d with label := none })
  else (.ok (), setDriveDirty { d with label })

/-- `vdf_set_drive_serial`. It does not test the lock. -/
def vdfSetDriveSerial (d : VdfDrive) (serial : Nat) : Result Unit :=
  if !d.isValid then (.error .einval, d) else (.ok (), { d with serial := u32 serial })

/-- `vdf_drive_recalc`, with its `errno`. -/
def vdfRecalc (qsort : List FileRange → List FileRange) (fuel : Nat) (d : VdfDrive) :
    Option (Result Unit) :=
  (vdfDriveRecalc qsort fuel d).map fun (r, d') =>
    (if r = -1 then
      .error (if !d.isValid then .einval else if d.isLocked then .eperm else .unset)
    else .ok (), d')

/-- `vdf_drive_lock`. -/
def vdfDriveLock (qsort : List FileRange → List FileRange) (fuel : Nat) (d : VdfDrive) :
    Option (Result Unit) :=
  if !d.isValid then some (.error .einval, d)
  else if d.lockcnt = 0 then
    (vdfRecalc qsort fuel d).map fun (r, d) =>
      match r with
      | .error e => (.error e, d)
      | .ok _ => (.ok (), { d with lockcnt := d.lockcnt + 1 })
  else some (.ok (), { d with lockcnt := d.lockcnt + 1 })

/-- `vdf_drive_unlock`. -/
def vdfDriveUnlock (d : VdfDrive) : Result Unit :=
  if !d.isValid then (.error .einval, d)
  else if d.lockcnt = 0 then (.error .einval, d)
  else (.ok (), { d with lockcnt := d.lockcnt - 1 })

/-- The flags with `VDF_FAT_SAME` replaced by the file system of the drive. -/
def recreateFlags (d : VdfDrive) (flags : Nat) : Nat :=
  if flags &&& vdfFsMask = vdfFatSame then clearBits flags vdfFsMask ||| ofInt d.filesys.code
  else flags

/-- `vdf_drive_recreate_ext`. `vdf_drive_recreate` and `vdf_drive_recreate_extsame` are this call with
an `ext` of their own. -/
def vdfDriveRecreateExt (d : VdfDrive) (size flags : Nat) (ext : DriveExt) (junk : Uninit) :
    Result Unit :=
  if !d.isValid then (.error .einval, d)
  else if d.isLocked then (.error .eperm, d)
  else
    match createdriveExt (some d) size (recreateFlags d flags) ext junk with
    | some d => (.ok (), d)
    | none => (.error .einval, d)

end Vdf
