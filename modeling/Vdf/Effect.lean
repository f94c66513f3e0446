import Vdf.Run

/-!
# What a call does

`Does d c r d'` says once what every call can do to a drive and under which checks: it is refused and
changes nothing, or it leads to one of a few new states. The invariants of runs are case analyses
on it.

* A new file has a closed form (`addFile`): the file is `newFile`, its directory gets one more
  entry.
* A failure behind the checks is a case of its own: `createFailed`, `moveFailed`, `labelLost`, and
  `renameFailed`, which reports success.
-/

namespace Vdf

open Word

/-! ## Closed forms -/

/-- Another entry of `dir` than `skip` has the short name. -/
def takenIn (d : VdfDrive) (dir skip : FileId) (shortname : List UInt8) : Bool :=
  (d.file dir).entries.any fun f => f != skip && sameName shortname (d.file f).shortname

theorem takenIn_iff {d : VdfDrive} {dir skip : FileId} {s : List UInt8} :
    takenIn d dir skip s = true ↔
      ∃ f ∈ (d.file dir).entries, f ≠ skip ∧ sameName s (d.file f).shortname = true := by
  simp [takenIn]

theorem takenIn_congr {d d' : VdfDrive} {dir skip : FileId}
    (he : ∀ f, f ≠ skip → (f ∈ (d'.file dir).entries ↔ f ∈ (d.file dir).entries))
    (hs : ∀ f, f ≠ skip → (d'.file f).shortname = (d.file f).shortname) :
    takenIn d' dir skip = takenIn d dir skip := by
  funext s
  rw [Bool.eq_iff_iff, takenIn_iff, takenIn_iff]
  constructor
  · rintro ⟨f, hf, hne, h⟩
    exact ⟨f, (he f hne).1 hf, hne, hs f hne ▸ h⟩
  · rintro ⟨f, hf, hne, h⟩
    exact ⟨f, (he f hne).2 hf, hne, (hs f hne).symm ▸ h⟩

/-- The search of `calc_shortname`. -/
theorem shortnameTaken_eq {d : VdfDrive} {f p : FileId} (hp : (d.file f).parent = some p) :
    shortnameTaken d f = takenIn d p f := by
  have hshort : hasFlag vffShortonly vffShortonly = true := by decide
  have hlong : hasFlag vffShortonly vffLongonly = false := by decide
  funext s
  simp only [shortnameTaken, hp]
  rw [Bool.eq_iff_iff, takenIn_iff, findFileSkip, List.find?_isSome]
  simp [nameMatches, hshort, hlong]

/-- The drive with other files and another list of them. -/
def VdfDrive.relist (d : VdfDrive) (file : FileId → VdfFile) (allFiles : List FileId)
    (fileCnt : Nat) : VdfDrive :=
  { d with file, allFiles, fileCnt }

section ModifyFile

variable (d : VdfDrive) (f : FileId) (g : VdfFile → VdfFile)

@[simp] theorem modifyFile_dirty : (d.modifyFile f g).dirty = d.dirty := rfl

@[simp] theorem modifyFile_fileCnt : (d.modifyFile f g).fileCnt = d.fileCnt := rfl

@[simp] theorem modifyFile_rootDir : (d.modifyFile f g).rootDir = d.rootDir := rfl

@[simp] theorem modifyFile_lockcnt : (d.modifyFile f g).lockcnt = d.lockcnt := rfl

@[simp] theorem modifyFile_deleted : (d.modifyFile f g).deleted = d.deleted := rfl

end ModifyFile

section Relist

variable (d : VdfDrive) (file : FileId → VdfFile) (l : List FileId) (n : Nat)

@[simp] theorem relist_file : (d.relist file l n).file = file := rfl

@[simp] theorem relist_allFiles : (d.relist file l n).allFiles = l := rfl

@[simp] theorem relist_fileCnt : (d.relist file l n).fileCnt = n := rfl

@[simp] theorem relist_geometry : (d.relist file l n).toGeometry = d.toGeometry := rfl

@[simp] theorem relist_rootDir : (d.relist file l n).rootDir = d.rootDir := rfl

@[simp] theorem relist_label : (d.relist file l n).label = d.label := rfl

@[simp] theorem relist_dirty : (d.relist file l n).dirty = d.dirty := rfl

@[simp] theorem relist_lockcnt : (d.relist file l n).lockcnt = d.lockcnt := rfl

@[simp] theorem relist_deleted : (d.relist file l n).deleted = d.deleted := rfl

end Relist

/-- The drive with the new file `fil` as the last entry of `parent`. -/
def addFile (d : VdfDrive) (parent f : FileId) (fil : VdfFile) : VdfDrive :=
  (setDriveDirty d).relist
    (fun x =>
      if x = f then fil
      else if x = parent then
        { d.file x with entries := (d.file x).entries ++ [f], dirCnt := (d.file x).dirCnt + 1 }
      else d.file x)
    (d.allFiles ++ [f]) (d.fileCnt + 1)

/-- The drive after `create_file` failed with the structure `fil` already linked: the two counters
stay higher. -/
def dropFile (d : VdfDrive) (parent f : FileId) (fil : VdfFile) : VdfDrive :=
  (setDriveDirty d).relist
    (fun x =>
      if x = f then { fil with deleted := true, parent := none }
      else if x = parent then { d.file x with dirCnt := (d.file x).dirCnt + 1 }
      else d.file x)
    d.allFiles (d.fileCnt + 1)

/-- The drive after `vdf_delete_file`. -/
def removeFile (d : VdfDrive) (f : FileId) : VdfDrive :=
  (setDriveDirty d).relist
    (fun x =>
      { d.file x with
        deleted := if x = f then true else (d.file x).deleted
        parent := if x = f then none else (d.file x).parent
        entries := if (d.file f).parent = some x then (d.file x).entries.erase f
          else (d.file x).entries })
    (d.allFiles.erase f) (d.fileCnt - 1)

namespace Call

/-- What a call makes of the structure that `create_file` returned. -/
def fill (bpc : Nat) (fil : VdfFile) : Call → VdfFile
  | addDir _ _ _ _ time =>
    { fil with attr := fil.attr ||| vfaDir, dirCnt := 0, entries := [], date := time }
  | addFileReal _ _ _ st .. =>
    { fil with
      size := st.elim 0 fun s => u32 s.size
      clusters := st.elim 0 fun s => realClusters bpc s.size
      date := st.elim 0 fun s => s.ctime }
  | addFileVirt _ _ len _ _ time =>
    { fil with virt := true, size := u32 len, clusters := virtClusters bpc (u32 len), date := time }
  | _ => fil

/-- The structure of the new file. -/
def newFile (c : Call) (bpc : Nat) (parent : FileId) (name shortname : List UInt8)
    (longname : Bool) : VdfFile :=
  c.fill bpc { name, shortname, longname, parent := some parent }

section NewFile

variable (c : Call) (bpc : Nat) (parent : FileId) (name shortname : List UInt8) (longname : Bool)

@[simp] theorem newFile_name : (c.newFile bpc parent name shortname longname).name = name := by
  cases c <;> rfl

@[simp] theorem newFile_shortname :
    (c.newFile bpc parent name shortname longname).shortname = shortname := by
  cases c <;> rfl

@[simp] theorem newFile_longname :
    (c.newFile bpc parent name shortname longname).longname = longname := by
  cases c <;> rfl

@[simp] theorem newFile_parent :
    (c.newFile bpc parent name shortname longname).parent = some parent := by
  cases c <;> rfl

@[simp] theorem newFile_deleted :
    (c.newFile bpc parent name shortname longname).deleted = false := by
  cases c <;> rfl

@[simp] theorem newFile_entries :
    (c.newFile bpc parent name shortname longname).entries = [] := by
  cases c <;> rfl

@[simp] theorem newFile_dirCnt : (c.newFile bpc parent name shortname longname).dirCnt = 0 := by
  cases c <;> rfl

end NewFile

end Call

/-! ## The cases -/

/-- What the call `c` can return and do. -/
inductive Does (qsort : List FileRange → List FileRange) (d : VdfDrive) :
    Call → Except Errno Unit → VdfDrive → Prop where
  | refused {c e} : Does qsort d c (.error e) d
  | createFailed {c e p name f fil} (hc : c.creates = some (p, name)) (ha : c.alloc = some f)
      (hcheck : createCheck d p name = none) (hp : fil.entries = [])
      (late : c.strdup = false ∨ shortnameOf (takenIn d p f) name = none) :
      Does qsort d c (.error e) (dropFile d p f fil)
  | created {c p name f s l} (hc : c.creates = some (p, name)) (ha : c.alloc = some f)
      (hcheck : createCheck d p name = none)
      (hs : shortnameOf (takenIn d p f) name = some (s, l)) :
      Does qsort d c (.ok ()) (addFile d p f (c.newFile d.bpc p name s l))
  | deleted {f} (hd : (d.file f).deleted = false) (hr : f ≠ d.rootDir) (hl : d.lockTest = false) :
      Does qsort d (.deleteFile f) (.ok ()) (removeFile d f)
  | stays {f p} (hcheck : moveCheck d f p = none) (hp : (d.file f).parent = some p) :
      Does qsort d (.moveFile f p) (.ok ()) d
  | moved {f p np s l} (hcheck : moveCheck d f np = none) (hp : (d.file f).parent = some p)
      (hne : p ≠ np) (hfind : findFileSkip d np (d.file f).name vffLongonly none = none)
      (hs : shortnameOf (takenIn d np f) (d.file f).name = some (s, l)) :
      Does qsort d (.moveFile f np) (.ok ()) ((relinkFile d f p np).modifyFile f fun x =>
        { x with shortname := s, longname := l })
  | moveFailed {f p np} (hcheck : moveCheck d f np = none) (hp : (d.file f).parent = some p)
      (hne : p ≠ np) (hfind : findFileSkip d np (d.file f).name vffLongonly none = none)
      (hs : shortnameOf (takenIn d np f) (d.file f).name = none) :
      Does qsort d (.moveFile f np) (.error .unset) (relinkFile d f p np)
  | up {f p} (hp : (d.file f).parent = some p) (hl : d.lockTest = false) :
      Does qsort d (.fileUp f) (.ok ()) (setDriveDirty
        (d.modifyFile p fun dir => { dir with entries := dir.entries.erase f }))
  | down {f p next} (hp : (d.file f).parent = some p) (hl : d.lockTest = false) :
      Does qsort d (.fileDown f) (.ok ()) (setDriveDirty
        (d.modifyFile p fun dir => { dir with entries := dir.entries.erase next }))
  | renamed {f p name dup s l} (hd : (d.file f).deleted = false)
      (hp : (d.file f).parent = some p) (hl : d.lockTest = false)
      (hv : filenameValid name = true) (hdup : dup = true)
      (hfind : findFileSkip d p name vffLongonly (some f) = none)
      (hs : shortnameOf (takenIn d p f) name = some (s, l)) :
      Does qsort d (.setFileName f name dup) (.ok ()) (setDriveDirty
        (d.modifyFile f fun x => { x with name, shortname := s, longname := l }))
  | renameFailed {f p name dup} (hd : (d.file f).deleted = false)
      (hp : (d.file f).parent = some p) (hl : d.lockTest = false)
      (hv : filenameValid name = true) (hdup : dup = true)
      (hfind : findFileSkip d p name vffLongonly (some f) = none)
      (hs : shortnameOf (takenIn d p f) name = none) :
      Does qsort d (.setFileName f name dup) (.ok ()) (setDriveDirty
        (d.modifyFile f fun x => { x with name }))
  | shortRenamed {f p name} (hd : (d.file f).deleted = false) (hp : (d.file f).parent = some p)
      (hl : d.lockTest = false) (hv : filenameValid name = true) (hfit : shortnameFits name = true)
      (hfind : findFileSkip d p name 0 (some f) = none) :
      Does qsort d (.setFileShortname f name) (.ok ()) (setDriveDirty (d.modifyFile f fun x =>
        { x with longname := if sameName x.name name then false else x.longname
                 shortname := name.map toupper }))
  | sized {f size} (hv : (d.file f).isReal = false) (hl : d.lockTest = false) :
      Does qsort d (.setFileSize f size) (.ok ()) (setDriveDirty (d.modifyFile f fun x =>
        { x with size := u32 size, clusters := virtClusters d.bpc (u32 size) }))
  | fatSized {f size fc} (hl : d.lockTest = false) :
      Does qsort d (.setFatFileSize f size) (.ok ()) (setDriveDirty (d.modifyFile f fun x =>
        { x with fatsize := size, fatclusters := fc }))
  | dated {f date} (hl : d.lockTest = false) :
      Does qsort d (.setFileDate f date) (.ok ()) (setDriveDirty (d.modifyFile f fun x =>
        { x with date }))
  | attrSet {f attr mask} (hl : d.lockTest = false) :
      Does qsort d (.setFileAttr f attr mask) (.ok ()) (setDriveDirty (d.modifyFile f fun x =>
        { x with attr := clearBits x.attr (clearBits mask vfaUserAttr) |||
            (attr &&& clearBits mask vfaUserAttr) }))
  | labelled {label dup} (hv : d.isValid = true) (hl : d.isLocked = false) :
      Does qsort d (.setDriveLabel label dup) (.ok ()) (setDriveDirty { d with label })
  | labelLost {label} (hv : d.isValid = true) (hl : d.isLocked = false) :
      Does qsort d (.setDriveLabel (some label) false) (.error .enomem) { d with label := none }
  | serialSet {serial} (hv : d.isValid = true) :
      Does qsort d (.setDriveSerial serial) (.ok ()) { d with serial := u32 serial }
  | clean (hv : d.isValid = true) (hl : d.isLocked = false) (hdirty : d.dirty = false) :
      Does qsort d .recalc (.ok ()) d
  | laidOut {fuel d'} (hv : d.isValid = true) (hl : d.isLocked = false) (hdirty : d.dirty = true)
      (h : vdfDriveRecalc qsort fuel d = some (0, d')) : Does qsort d .recalc (.ok ()) d'
  | layoutFailed {c fuel d'} (hc : c = .recalc ∨ c = .lock) (hv : d.isValid = true)
      (hl : d.isLocked = false) (hdirty : d.dirty = true)
      (h : vdfDriveRecalc qsort fuel d = some (-1, d')) : Does qsort d c (.error .unset) d'
  | locked (hv : d.isValid = true) (hclean : d.dirty = false ∨ d.lockcnt ≠ 0) :
      Does qsort d .lock (.ok ()) { d with lockcnt := d.lockcnt + 1 }
  | laidOutLocked {fuel d'} (hv : d.isValid = true) (hl : d.isLocked = false)
      (hdirty : d.dirty = true) (h : vdfDriveRecalc qsort fuel d = some (0, d')) :
      Does qsort d .lock (.ok ()) { d' with lockcnt := d'.lockcnt + 1 }
  | unlocked (hv : d.isValid = true) (hl : d.lockcnt ≠ 0) :
      Does qsort d .unlock (.ok ()) { d with lockcnt := d.lockcnt - 1 }
  | recreated {size flags ext junk d'} (hv : d.isValid = true) (hl : d.isLocked = false)
      (h : createdriveExt (some d) size (recreateFlags d flags) ext junk = some d') :
      Does qsort d (.recreate size flags ext junk) (.ok ()) d'

/-! ## Each call does one of these -/

theorem setDriveDirty_idem (d : VdfDrive) : setDriveDirty (setDriveDirty d) = setDriveDirty d :=
  setDriveDirty_of_dirty _ (setDriveDirty_dirty d)

theorem setDriveDirty_relist (d : VdfDrive) (file : FileId → VdfFile) (l : List FileId) (n : Nat) :
    setDriveDirty (d.relist file l n) = (setDriveDirty d).relist file l n := by
  unfold setDriveDirty VdfDrive.relist
  split <;> rfl

theorem setDriveDirty_modifyFile (d : VdfDrive) (f : FileId) (g : VdfFile → VdfFile) :
    setDriveDirty (d.modifyFile f g) = (setDriveDirty d).modifyFile f g := by
  unfold setDriveDirty VdfDrive.modifyFile
  split <;> rfl

theorem modifyFile_modifyFile (d : VdfDrive) (f : FileId) (g k : VdfFile → VdfFile) :
    (d.modifyFile f g).modifyFile f k = d.modifyFile f fun x => k (g x) := by
  unfold VdfDrive.modifyFile
  congr 1
  funext x
  by_cases h : x = f <;> simp [h]

theorem relist_congr {d : VdfDrive} {file file' : FileId → VdfFile} {l l' : List FileId} {n n' : Nat}
    (h : ∀ x, file x = file' x) (hl : l = l') (hn : n = n') :
    d.relist file l n = d.relist file' l' n' := by
  rw [funext h, hl, hn]

section Create

variable {d : VdfDrive} {parent f : FileId} (hne : f ≠ parent)
include hne

theorem linkFile_eq : linkFile d parent f = addFile d parent f { parent := some parent } := by
  refine (setDriveDirty_relist d _ _ _).trans (relist_congr (fun x => ?_) rfl rfl)
  by_cases hx : x = f
  · simp [hx, hne, VdfDrive.modifyFile_file]
  · by_cases hp : x = parent <;> simp [hx, hp, hne.symm, VdfDrive.modifyFile_file]

omit hne in
theorem addFile_modifyFile (fil : VdfFile) (g : VdfFile → VdfFile) :
    (addFile d parent f fil).modifyFile f g = addFile d parent f (g fil) := by
  refine relist_congr (fun x => ?_) rfl rfl
  by_cases hx : x = f <;> simp [hx, addFile]

theorem unlinkFile_addFile (hf : d.Fresh f) (fil : VdfFile) :
    unlinkFile (addFile d parent f fil) parent f = dropFile d parent f fil := by
  have hmem : f ∉ (d.file parent).entries := hf.not_entry parent
  have hall : f ∉ d.allFiles := hf.not_mem
  refine relist_congr (fun x => ?_) (by simp [addFile, List.erase_append_right, hall]) rfl
  by_cases hx : x = f
  · simp [hx, hne, addFile, VdfDrive.modifyFile]
  · by_cases hp : x = parent
    · subst hp
      simp [hx, addFile, VdfDrive.modifyFile, List.erase_append_right, hmem]
    · simp [hx, hp, addFile, VdfDrive.modifyFile]

theorem takenIn_addFile (fil : VdfFile) :
    takenIn (addFile d parent f fil) parent f = takenIn d parent f := by
  refine takenIn_congr (fun g hg => ?_) fun g hg => ?_
  · simp [addFile, hne.symm, hg]
  · by_cases hp : g = parent <;> simp [addFile, hg, hp, hne.symm]

/-- `calc_shortname` for a new file. -/
theorem calcShortname_addFile {name : List UInt8} :
    calcShortname (addFile d parent f { name, parent := some parent }) f =
      match shortnameOf (takenIn d parent f) name with
      | some (shortname, longname) =>
        (.ok (), addFile d parent f { name, shortname, longname, parent := some parent })
      | none => (.error .unset, addFile d parent f { name, parent := some parent }) := by
  have hfile : (addFile d parent f { name, parent := some parent }).file f =
      { name, parent := some parent } := by simp [addFile]
  have hdirty : ∀ fil, setDriveDirty (addFile d parent f fil) = addFile d parent f fil :=
    fun fil => setDriveDirty_of_dirty _ (setDriveDirty_dirty d)
  rw [calcShortname, shortnameTaken_eq (p := parent) (by rw [hfile]), takenIn_addFile hne, hfile]
  cases shortnameOf (takenIn d parent f) name with
  | none => rfl
  | some r => simp only [addFile_modifyFile, hdirty]

/-- The cases of `create_file`. -/
theorem createFile_cases (hf : d.Fresh f) (name : List UInt8) (strdup : Bool) :
    createFile d parent name (some f) strdup =
      match createCheck d parent name with
      | some e => (.error e, d)
      | none =>
        if strdup then
          match shortnameOf (takenIn d parent f) name with
          | some (shortname, longname) =>
            (.ok f, addFile d parent f { name, shortname, longname, parent := some parent })
          | none => (.error .unset, dropFile d parent f { name, parent := some parent })
        else (.error .enomem, dropFile d parent f { parent := some parent }) := by
  unfold createFile
  cases createCheck d parent name with
  | some e => rfl
  | none =>
    simp only [linkFile_eq hne, addFile_modifyFile, calcShortname_addFile hne]
    cases strdup with
    | false => simp [unlinkFile_addFile hne hf]
    | true =>
      cases shortnameOf (takenIn d parent f) name with
      | none => simp [unlinkFile_addFile hne hf]
      | some r => simp

omit hne in
theorem vdfSetFileDate_addFile (hl : d.lockTest = false) {fil : VdfFile}
    (hd : fil.deleted = false) (date : Int) :
    (vdfSetFileDate (addFile d parent f fil) f date).2 = addFile d parent f { fil with date } := by
  have hfile : ((addFile d parent f fil).file f).deleted = false := by
    simpa [addFile] using hd
  have hlock : (addFile d parent f fil).lockTest = false := by
    simpa [addFile, VdfDrive.lockTest, VdfDrive.isLocked] using hl
  simp only [vdfSetFileDate, hfile, hlock, Bool.false_eq_true, ↓reduceIte, addFile_modifyFile]
  exact setDriveDirty_of_dirty _ (setDriveDirty_dirty d)

omit hne in
theorem vdfSetFileSize_addFile (hl : d.lockTest = false) {fil : VdfFile}
    (hd : fil.deleted = false) (hv : fil.virt = true) (hp : fil.parent ≠ none) (size : Nat) :
    (vdfSetFileSize (addFile d parent f fil) f size).2 =
      addFile d parent f { fil with size := u32 size, clusters := virtClusters d.bpc (u32 size) } := by
  have hfile : (addFile d parent f fil).file f = fil := by simp [addFile]
  have hlock : (addFile d parent f fil).lockTest = false := by
    simpa [addFile, VdfDrive.lockTest, VdfDrive.isLocked] using hl
  have hbpc : (addFile d parent f fil).bpc = d.bpc := by simp [addFile]
  have hreal : fil.isReal = false := by simp [VdfFile.isReal, hv]
  simp only [vdfSetFileSize, hfile, hlock, hbpc, hd, hp, hreal, Bool.false_eq_true, or_self, ↓reduceIte,
    addFile_modifyFile]
  exact setDriveDirty_of_dirty _ (setDriveDirty_dirty d)

end Create

/-- A move in closed form. -/
theorem relinkFile_eq (d : VdfDrive) {f p np : FileId} (hne : p ≠ np) :
    relinkFile d f p np = (setDriveDirty d).relist
      (fun x =>
        { d.file x with
          parent := if x = f then some np else (d.file x).parent
          entries := if x = np then f :: (d.file x).entries
            else if x = p then (d.file x).entries.erase f else (d.file x).entries
          dirCnt := if x = np then (d.file x).dirCnt + 1
            else if x = p then (d.file x).dirCnt - 1 else (d.file x).dirCnt })
      d.allFiles d.fileCnt := by
  refine (setDriveDirty_relist d _ _ _).trans (relist_congr (fun x => ?_) rfl rfl)
  simp only [VdfDrive.modifyFile_file]
  split_ifs with hf hnp hp <;> first
    | rfl
    | (subst_vars; exact absurd rfl hne)

theorem createCheck_eq_none {d : VdfDrive} {p : FileId} {name : List UInt8} :
    createCheck d p name = none ↔ (d.file p).deleted = false ∧ d.lockTest = false ∧
      (d.file p).isDir = true ∧
      ¬ (d.filesys ≠ .fat32 ∧ (d.file p).rootdir = true ∧ ((d.file p).dirCnt : Int) = d.rootDirCnt) ∧
      filenameValid name = true ∧ findFileSkip d p name 0 none = none := by
  simp only [createCheck]
  split_ifs <;> simp_all [Option.isSome_iff_ne_none]

theorem moveCheck_eq_none {d : VdfDrive} {f np : FileId} :
    moveCheck d f np = none ↔ (d.file f).deleted = false ∧ (d.file f).parent ≠ none ∧
      (d.file np).deleted = false ∧ (d.file np).isDir = true ∧ d.lockTest = false := by
  simp only [moveCheck]
  split_ifs <;> grind

section Apply

variable {qsort : List FileRange → List FileRange} {fuel : Nat} {d d' : VdfDrive} {c : Call}
  {r : Except Errno Unit}

/-- The three calls that create a file fail when `create_file` does. -/
theorem apply_createFile_error {p : FileId} {name : List UInt8} {e : Errno}
    (hc : c.creates = some (p, name))
    (h : createFile d p name c.alloc c.strdup = (.error e, d')) :
    c.apply qsort fuel d = some (.error e, d') := by
  cases c <;> simp only [Call.creates, Call.alloc, Call.strdup, reduceCtorEq] at hc h
  case addDir =>
    cases hc
    simp only [Call.apply, vdfAddDir, h]
    rfl
  case addFileReal _ _ _ st _ _ =>
    cases st with
    | none => cases hc
    | some st =>
      simp only [Option.any] at hc
      split_ifs at hc with hreg
      cases hc
      simp only [Call.apply, vdfAddFileReal, hreg, Bool.not_true, Bool.false_eq_true, ↓reduceIte, h]
      rfl
  case addFileVirt =>
    cases hc
    simp only [Call.apply, vdfAddFileVirt, h]
    rfl

/-- The three calls that create a file: `create_file`, and what the call makes of the structure. -/
theorem does_of_create {p : FileId} {name : List UInt8} (k : FileId → VdfDrive → VdfDrive)
    (hf : ∀ f ∈ c.alloc, d.Fresh f ∧ f ∉ c.files) (hp : p ∈ c.files)
    (hc : c.creates = some (p, name))
    (hk : ∀ f s l, d.lockTest = false →
      k f (addFile d p f { name, shortname := s, longname := l, parent := some p }) =
        addFile d p f (c.newFile d.bpc p name s l))
    (hok : ∀ f d₁, createFile d p name c.alloc c.strdup = (.ok f, d₁) → r = .ok () ∧ d' = k f d₁)
    (h : c.apply qsort fuel d = some (r, d')) : Does qsort d c r d' := by
  have herr : ∀ e d₁, createFile d p name c.alloc c.strdup = (.error e, d₁) →
      r = .error e ∧ d' = d₁ := by
    intro e d₁ he
    rw [apply_createFile_error hc he] at h
    cases h
    exact ⟨rfl, rfl⟩
  cases ha : c.alloc with
  | none =>
    obtain ⟨e, he⟩ : ∃ e, createFile d p name c.alloc c.strdup = (.error e, d) := by
      rw [ha, createFile]
      cases createCheck d p name with
      | some e => exact ⟨e, rfl⟩
      | none => exact ⟨.enomem, rfl⟩
    obtain ⟨rfl, rfl⟩ := herr e d he
    exact .refused
  | some f =>
    obtain ⟨hfresh, hmem⟩ := hf f (by simp [ha])
    have hcases := createFile_cases (fun e => hmem (by rw [e]; exact hp) : f ≠ p) hfresh name c.strdup
    rw [← ha] at hcases
    cases hcheck : createCheck d p name with
    | some e =>
      simp only [hcheck] at hcases
      obtain ⟨rfl, rfl⟩ := herr _ _ hcases
      exact .refused
    | none =>
      simp only [hcheck] at hcases
      cases hdup : c.strdup with
      | false =>
        rw [if_neg (by simp [hdup])] at hcases
        obtain ⟨rfl, rfl⟩ := herr _ _ hcases
        exact .createFailed hc ha hcheck rfl (.inl hdup)
      | true =>
        rw [if_pos hdup] at hcases
        cases hs : shortnameOf (takenIn d p f) name with
        | none =>
          simp only [hs] at hcases
          obtain ⟨rfl, rfl⟩ := herr _ _ hcases
          exact .createFailed hc ha hcheck rfl (.inr hs)
        | some r =>
          simp only [hs] at hcases
          obtain ⟨rfl, rfl⟩ := hok _ _ hcases
          rw [hk f _ _ (createCheck_eq_none.1 hcheck).2.1]
          exact .created hc ha hcheck hs

/-- `vdf_move_file` behind its checks. -/
theorem vdfMoveFile_accepted {f p np : FileId} (hcheck : moveCheck d f np = none)
    (hp : (d.file f).parent = some p) (hne : p ≠ np)
    (hfind : findFileSkip d np (d.file f).name vffLongonly none = none) :
    vdfMoveFile d f np =
      match shortnameOf (takenIn d np f) (d.file f).name with
      | some (shortname, longname) => (.ok (), (relinkFile d f p np).modifyFile f fun x =>
          { x with shortname, longname })
      | none => (.error .unset, relinkFile d f p np) := by
  have hparent : ((relinkFile d f p np).file f).parent = some np := by simp [relinkFile_eq d hne]
  have hname : ((relinkFile d f p np).file f).name = (d.file f).name := by
    simp [relinkFile_eq d hne]
  have htaken : takenIn (relinkFile d f p np) np f = takenIn d np f :=
    takenIn_congr (fun g hg => by simp [relinkFile_eq d hne, hg])
      fun g hg => by simp [relinkFile_eq d hne]
  simp only [vdfMoveFile, hcheck, hp, hne, hfind, Option.isSome_none, Bool.false_eq_true, ↓reduceIte,
    calcShortname, shortnameTaken_eq hparent, htaken, hname]
  cases shortnameOf (takenIn d np f) (d.file f).name with
  | none => rfl
  | some r =>
    dsimp only
    rw [setDriveDirty_of_dirty]
    simp [relinkFile_eq d hne]

theorem does_of_move {f np : FileId} (h : vdfMoveFile d f np = (r, d')) :
    Does qsort d (.moveFile f np) r d' := by
  cases hcheck : moveCheck d f np with
  | some e =>
    simp only [vdfMoveFile, hcheck] at h
    cases h
    exact .refused
  | none =>
    cases hp : (d.file f).parent with
    | none => exact absurd hp (moveCheck_eq_none.1 hcheck).2.1
    | some p =>
      by_cases he : p = np
      · simp only [vdfMoveFile, hcheck, hp, he, ↓reduceIte] at h
        cases h
        exact .stays hcheck (he ▸ hp)
      · cases hfind : findFileSkip d np (d.file f).name vffLongonly none with
        | some g =>
          simp only [vdfMoveFile, hcheck, hp, he, hfind, Option.isSome_some, ↓reduceIte] at h
          cases h
          exact .refused
        | none =>
          rw [vdfMoveFile_accepted hcheck hp he hfind] at h
          cases hs : shortnameOf (takenIn d np f) (d.file f).name with
          | none =>
            simp only [hs] at h
            cases h
            exact .moveFailed hcheck hp he hfind hs
          | some r =>
            simp only [hs] at h
            cases h
            exact .moved hcheck hp he hfind hs

theorem does_of_addDir {p : FileId} {name : List UInt8} {a : Option FileId} {dup : Bool} {time : Int}
    (hc : c = .addDir p name a dup time) (hf : ∀ f ∈ c.alloc, d.Fresh f ∧ f ∉ c.files)
    (h : c.apply qsort fuel d = some (r, d')) : Does qsort d c r d' := by
  subst hc
  refine does_of_create (fun f d => (vdfSetFileDate (d.modifyFile f fun x =>
    { x with attr := x.attr ||| vfaDir, dirCnt := 0, entries := [] }) f time).2) hf
    (List.mem_singleton.2 rfl) rfl (fun f s l hl => ?_) (fun f d₁ he => ?_) h
  · rw [addFile_modifyFile, vdfSetFileDate_addFile hl rfl]
    rfl
  · simp only [Call.alloc, Call.strdup] at he
    simp only [Call.apply, vdfAddDir, he] at h
    cases h
    exact ⟨rfl, rfl⟩

theorem does_of_addFileVirt {p : FileId} {name : List UInt8} {len : Nat} {a : Option FileId}
    {dup : Bool} {time : Int} (hc : c = .addFileVirt p name len a dup time)
    (hf : ∀ f ∈ c.alloc, d.Fresh f ∧ f ∉ c.files) (h : c.apply qsort fuel d = some (r, d')) :
    Does qsort d c r d' := by
  subst hc
  refine does_of_create (fun f d => (vdfSetFileDate (vdfSetFileSize
    (d.modifyFile f fun x => { x with virt := true }) f len).2 f time).2) hf
    (List.mem_singleton.2 rfl) rfl (fun f s l hl => ?_) (fun f d₁ he => ?_) h
  · rw [addFile_modifyFile, vdfSetFileSize_addFile hl rfl rfl (by simp),
      vdfSetFileDate_addFile hl rfl]
    rfl
  · simp only [Call.alloc, Call.strdup] at he
    simp only [Call.apply, vdfAddFileVirt, he] at h
    cases h
    exact ⟨rfl, rfl⟩

theorem does_of_addFileReal {p : FileId} {name : Option (List UInt8)} {path : List UInt8}
    {st : Option Stat} {a : Option FileId} {dup : Bool} (hc : c = .addFileReal p name path st a dup)
    (hf : ∀ f ∈ c.alloc, d.Fresh f ∧ f ∉ c.files) (h : c.apply qsort fuel d = some (r, d')) :
    Does qsort d c r d' := by
  subst hc
  cases st with
  | none =>
    cases h
    exact .refused
  | some st =>
    cases hreg : st.regular with
    | false =>
      simp only [Call.apply, vdfAddFileReal, hreg, Bool.not_false, ↓reduceIte] at h
      cases h
      exact .refused
    | true =>
      refine does_of_create (fun f d₁ => (vdfSetFileDate (d₁.modifyFile f fun x =>
        { x with size := u32 st.size, clusters := realClusters d₁.bpc st.size }) f st.ctime).2) hf
        (List.mem_singleton.2 rfl) (by simp only [Call.creates, Option.any, hreg, ↓reduceIte]; rfl)
        (fun f s l hl => ?_) (fun f d₁ he => ?_) h
      · rw [addFile_modifyFile, vdfSetFileDate_addFile hl rfl]
        simp [Call.newFile, Call.fill, addFile]
      · simp only [Call.alloc, Call.strdup] at he
        simp only [Call.apply, vdfAddFileReal, hreg, Bool.not_true, Bool.false_eq_true, ↓reduceIte, he] at h
        cases h
        exact ⟨rfl, rfl⟩

/-- `vdf_delete_file` behind its checks. -/
theorem vdfDeleteFile_accepted {f : FileId} (hd : (d.file f).deleted = false) (hr : f ≠ d.rootDir)
    (hl : d.lockTest = false) : vdfDeleteFile d f = (.ok (), removeFile d f) := by
  simp only [vdfDeleteFile, hd, hr, hl, Bool.false_eq_true, ↓reduceIte, Prod.mk.injEq, true_and]
  cases hp : (d.file f).parent with
  | none =>
    refine relist_congr (fun x => ?_) (by simp) (by simp)
    by_cases hx : x = f <;> simp [hx, hp]
  | some p =>
    simp only [setDriveDirty_modifyFile]
    refine relist_congr (fun x => ?_) (by simp) (by simp)
    simp only [hp, setDriveDirty_file, VdfDrive.modifyFile_file, Option.some.injEq, @eq_comm _ p x]
    split_ifs <;> rfl

theorem does_of_delete {f : FileId} (h : vdfDeleteFile d f = (r, d')) :
    Does qsort d (.deleteFile f) r d' := by
  by_cases hok : (d.file f).deleted = false ∧ f ≠ d.rootDir ∧ d.lockTest = false
  · obtain ⟨hd, hr, hl⟩ := hok
    rw [vdfDeleteFile_accepted hd hr hl] at h
    cases h
    exact .deleted hd hr hl
  · unfold vdfDeleteFile at h
    split_ifs at h with hd hr hl
    · cases h; exact .refused
    · cases h; exact .refused
    · cases h; exact .refused
    · exact absurd ⟨by simpa using hd, hr, by simpa using hl⟩ hok

/-- `vdf_set_file_name` behind its checks. -/
theorem vdfSetFileName_accepted {f p : FileId} {name : List UInt8} (hd : (d.file f).deleted = false)
    (hp : (d.file f).parent = some p) (hl : d.lockTest = false) (hv : filenameValid name = true)
    (hfind : findFileSkip d p name vffLongonly (some f) = none) :
    vdfSetFileName d f name true = (.ok (), setDriveDirty (d.modifyFile f fun x =>
      match shortnameOf (takenIn d p f) name with
      | some (shortname, longname) => { x with name, shortname, longname }
      | none => { x with name })) := by
  have hfile : (d.modifyFile f fun x => { x with name }).file f = { d.file f with name } := by simp
  have htaken : takenIn (d.modifyFile f fun x => { x with name }) p f = takenIn d p f :=
    takenIn_congr (fun g hg => by by_cases hpf : p = f <;> simp [VdfDrive.modifyFile_file, hpf])
      fun g hg => by simp [VdfDrive.modifyFile_file, hg]
  simp only [vdfSetFileName, hd, hp, hl, hv, hfind, Option.isSome_none, Bool.not_true,
    Bool.false_eq_true, ↓reduceIte, calcShortname,
    shortnameTaken_eq (p := p) (by rw [hfile]; exact hp), htaken]
  rw [hfile]
  cases shortnameOf (takenIn d p f) name with
  | none => rfl
  | some r =>
    dsimp only
    rw [setDriveDirty_idem, modifyFile_modifyFile]

theorem does_of_rename {f : FileId} {name : List UInt8} {dup : Bool}
    (h : vdfSetFileName d f name dup = (r, d')) : Does qsort d (.setFileName f name dup) r d' := by
  by_cases hok : (d.file f).deleted = false ∧ d.lockTest = false ∧ filenameValid name = true ∧
      dup = true ∧ ∃ p, (d.file f).parent = some p ∧
        findFileSkip d p name vffLongonly (some f) = none
  · obtain ⟨hd, hl, hv, rfl, p, hp, hfind⟩ := hok
    rw [vdfSetFileName_accepted hd hp hl hv hfind] at h
    cases hs : shortnameOf (takenIn d p f) name with
    | none =>
      simp only [hs] at h
      cases h
      exact .renameFailed hd hp hl hv rfl hfind hs
    | some r =>
      simp only [hs] at h
      cases h
      exact .renamed hd hp hl hv rfl hfind hs
  · unfold vdfSetFileName at h
    split at h
    · cases h; exact .refused
    · cases h; exact .refused
    · rename_i p hd hp
      split_ifs at h with hl hv hfind hdup
      · cases h; exact .refused
      · cases h; exact .refused
      · cases h; exact .refused
      · cases h; exact .refused
      · exact absurd ⟨hd, by simpa using hl, by simpa using hv, by simpa using hdup, p, hp,
          by simpa using hfind⟩ hok

theorem vdfDriveRecalc_result {i : Int} (h : vdfDriveRecalc qsort fuel d = some (i, d')) :
    i = 0 ∨ i = -1 := by
  unfold vdfDriveRecalc at h
  split_ifs at h
  · cases h; exact .inr rfl
  · cases h; exact .inr rfl
  · cases h; exact .inl rfl
  · obtain ⟨d₁, -, h⟩ := Option.map_eq_some_iff.1 h
    unfold layOut at h
    split at h
    split at h <;> cases h
    · exact .inr rfl
    · exact .inl rfl

/-- What `vdf_drive_recalc` returns, and when. -/
theorem vdfRecalc_cases (h : vdfRecalc qsort fuel d = some (r, d')) :
    (∃ e, r = .error e) ∧ d' = d ∨
    r = .ok () ∧ d.isValid = true ∧ d.isLocked = false ∧ d.dirty = false ∧ d' = d ∨
    d.isValid = true ∧ d.isLocked = false ∧ d.dirty = true ∧
      (r = .ok () ∧ vdfDriveRecalc qsort fuel d = some (0, d') ∨
        r = .error .unset ∧ vdfDriveRecalc qsort fuel d = some (-1, d')) := by
  obtain ⟨⟨i, d₁⟩, hrec, h⟩ := Option.map_eq_some_iff.1 h
  cases h
  by_cases hv : d.isValid = true
  · by_cases hl : d.isLocked = true
    · simp only [vdfDriveRecalc, hv, hl, Bool.not_true, Bool.false_eq_true, ↓reduceIte] at hrec
      cases hrec
      exact .inl ⟨⟨_, rfl⟩, rfl⟩
    · by_cases hdirty : d.dirty = true
      · refine .inr (.inr ⟨hv, by simpa using hl, hdirty, ?_⟩)
        rcases vdfDriveRecalc_result hrec with rfl | rfl
        · exact .inl ⟨rfl, hrec⟩
        · exact .inr ⟨by simp [hv, hl], hrec⟩
      · simp only [vdfDriveRecalc, hv, hl, hdirty, Bool.not_true, Bool.not_false, Bool.false_eq_true,
          ↓reduceIte] at hrec
        cases hrec
        exact .inr (.inl ⟨rfl, hv, by simpa using hl, by simpa using hdirty, rfl⟩)
  · simp only [vdfDriveRecalc, hv, Bool.not_false, ↓reduceIte] at hrec
    cases hrec
    exact .inl ⟨⟨_, rfl⟩, rfl⟩

theorem does_of_up {f : FileId} (h : vdfFileUp d f = (r, d')) :
    Does qsort d (.fileUp f) r d' := by
  unfold vdfFileUp at h
  split at h
  · cases h; exact .refused
  · cases h; exact .refused
  · rename_i p hd hp
    split_ifs at h with hl hfirst
    · cases h; exact .refused
    · cases h; exact .refused
    · cases h; exact .up hp (by simpa using hl)

theorem does_of_down {f : FileId} (h : vdfFileDown d f = (r, d')) :
    Does qsort d (.fileDown f) r d' := by
  unfold vdfFileDown at h
  split at h
  · cases h; exact .refused
  · cases h; exact .refused
  · rename_i p hd hp
    split_ifs at h with hl
    · cases h; exact .refused
    · split at h
      · cases h; exact .refused
      · cases h; exact .down hp (by simpa using hl)

theorem does_of_setFileShortname {f : FileId} {name : List UInt8}
    (h : vdfSetFileShortname d f name = (r, d')) :
    Does qsort d (.setFileShortname f name) r d' := by
  unfold vdfSetFileShortname at h
  split at h
  · cases h; exact .refused
  · cases h; exact .refused
  · rename_i p hd hp
    split_ifs at h with hl hv hfit hfind
    · cases h; exact .refused
    · cases h; exact .refused
    · cases h; exact .refused
    · cases h; exact .refused
    · cases h
      exact .shortRenamed hd hp (by simpa using hl) (by simpa using hv) (by simpa using hfit)
        (by simpa using hfind)

theorem does_of_setFileSize {f : FileId} {size : Nat} (h : vdfSetFileSize d f size = (r, d')) :
    Does qsort d (.setFileSize f size) r d' := by
  simp only [vdfSetFileSize] at h
  split_ifs at h with hd hv hl
  · cases h; exact .refused
  · cases h; exact .refused
  · cases h; exact .refused
  · cases h; exact .sized (by simpa using hv) (by simpa using hl)

theorem does_of_setFatFileSize {f : FileId} {size : Int}
    (h : vdfSetFatFileSize d f size = (r, d')) :
    Does qsort d (.setFatFileSize f size) r d' := by
  unfold vdfSetFatFileSize at h
  split at h
  · cases h; exact .refused
  · split at h
    · cases h; exact .refused
    · split at h
      · cases h; exact .refused
      · rename_i hl
        split at h
        · cases h; exact .refused
        · cases h; exact .fatSized (by simpa using hl)

theorem does_of_setFileDate {f : FileId} {date : Int} (h : vdfSetFileDate d f date = (r, d')) :
    Does qsort d (.setFileDate f date) r d' := by
  unfold vdfSetFileDate at h
  split_ifs at h with hd hl
  · cases h; exact .refused
  · cases h; exact .refused
  · cases h; exact .dated (by simpa using hl)

theorem does_of_setFileAttr {f : FileId} {attr mask : Nat}
    (h : vdfSetFileAttr d f attr mask = (r, d')) :
    Does qsort d (.setFileAttr f attr mask) r d' := by
  simp only [vdfSetFileAttr] at h
  split_ifs at h with hd hl
  · cases h; exact .refused
  · cases h; exact .refused
  · cases h; exact .attrSet (by simpa using hl)

theorem does_of_setDriveLabel {label : Option (List UInt8)} {dup : Bool}
    (h : vdfSetDriveLabel d label dup = (r, d')) :
    Does qsort d (.setDriveLabel label dup) r d' := by
  unfold vdfSetDriveLabel at h
  split_ifs at h with hv hl hdup
  · cases h; exact .refused
  · cases h; exact .refused
  · cases h
    obtain ⟨hlabel, hdup⟩ := hdup
    obtain ⟨label, rfl⟩ := Option.ne_none_iff_exists'.1 hlabel
    obtain rfl : dup = false := by simpa using hdup
    exact .labelLost (by simpa using hv) (by simpa using hl)
  · cases h; exact .labelled (by simpa using hv) (by simpa using hl)

theorem does_of_setDriveSerial {serial : Nat} (h : vdfSetDriveSerial d serial = (r, d')) :
    Does qsort d (.setDriveSerial serial) r d' := by
  unfold vdfSetDriveSerial at h
  split_ifs at h with hv
  · cases h; exact .refused
  · cases h; exact .serialSet (by simpa using hv)

theorem does_of_unlock (h : vdfDriveUnlock d = (r, d')) :
    Does qsort d .unlock r d' := by
  unfold vdfDriveUnlock at h
  split_ifs at h with hv hl
  · cases h; exact .refused
  · cases h; exact .refused
  · cases h; exact .unlocked (by simpa using hv) hl

theorem does_of_recreate {size flags : Nat} {ext : DriveExt} {junk : Uninit}
    (h : vdfDriveRecreateExt d size flags ext junk = (r, d')) :
    Does qsort d (.recreate size flags ext junk) r d' := by
  unfold vdfDriveRecreateExt at h
  split_ifs at h with hv hl
  · cases h; exact .refused
  · cases h; exact .refused
  · split at h
    · rename_i d₁ hd₁
      cases h
      exact .recreated (by simpa using hv) (by simpa using hl) hd₁
    · cases h; exact .refused

theorem does_of_recalc (h : vdfRecalc qsort fuel d = some (r, d')) : Does qsort d .recalc r d' := by
  rcases vdfRecalc_cases h with ⟨⟨e, rfl⟩, rfl⟩ | ⟨rfl, hv, hl, hd, rfl⟩ |
    ⟨hv, hl, hd, ⟨rfl, hrec⟩ | ⟨rfl, hrec⟩⟩
  · exact .refused
  · exact .clean hv hl hd
  · exact .laidOut hv hl hd hrec
  · exact .layoutFailed (.inl rfl) hv hl hd hrec

theorem does_of_lock (h : vdfDriveLock qsort fuel d = some (r, d')) : Does qsort d .lock r d' := by
  unfold vdfDriveLock at h
  split_ifs at h with hv hl
  · cases h; exact .refused
  · obtain ⟨⟨r₁, d₁⟩, hres, hlock⟩ := Option.map_eq_some_iff.1 h
    rcases vdfRecalc_cases hres with ⟨⟨e, rfl⟩, rfl⟩ | ⟨rfl, -, -, hd, rfl⟩ |
      ⟨-, hl', hd, ⟨rfl, hrec⟩ | ⟨rfl, hrec⟩⟩
    · cases hlock; exact .refused
    · cases hlock; exact .locked (by simpa using hv) (.inl hd)
    · cases hlock; exact .laidOutLocked (by simpa using hv) hl' hd hrec
    · cases hlock; exact .layoutFailed (.inr rfl) (by simpa using hv) hl' hd hrec
  · cases h; exact .locked (by simpa using hv) (.inr hl)

/-- What a call does is one of the cases of `Does`. -/
theorem does_of_apply (hf : ∀ f ∈ c.alloc, d.Fresh f ∧ f ∉ c.files)
    (h : c.apply qsort fuel d = some (r, d')) : Does qsort d c r d' := by
  cases c with
  | addDir => exact does_of_addDir rfl hf h
  | addFileReal => exact does_of_addFileReal rfl hf h
  | addFileVirt => exact does_of_addFileVirt rfl hf h
  | deleteFile f => exact does_of_delete (Option.some.inj h)
  | moveFile f np => exact does_of_move (Option.some.inj h)
  | fileUp => exact does_of_up (Option.some.inj h)
  | fileDown => exact does_of_down (Option.some.inj h)
  | setFileName => exact does_of_rename (Option.some.inj h)
  | setFileShortname => exact does_of_setFileShortname (Option.some.inj h)
  | setFileSize => exact does_of_setFileSize (Option.some.inj h)
  | setFatFileSize => exact does_of_setFatFileSize (Option.some.inj h)
  | setFileDate => exact does_of_setFileDate (Option.some.inj h)
  | setFileAttr => exact does_of_setFileAttr (Option.some.inj h)
  | setDriveLabel => exact does_of_setDriveLabel (Option.some.inj h)
  | setDriveSerial => exact does_of_setDriveSerial (Option.some.inj h)
  | recalc => exact does_of_recalc h
  | lock => exact does_of_lock h
  | unlock => exact does_of_unlock (Option.some.inj h)
  | recreate => exact does_of_recreate (Option.some.inj h)

end Apply

end Vdf
