import Mathlib.Data.List.Induction
import Vdf.Api

/-!
# Runs

A run is a sequence of calls on one drive, by a caller that keeps to the API: it passes pointers
that it was given (`World.handles`). What the environment answers, `malloc`, `strdup`, `stat` and
the clock, is part of the call.

A run of the model stops at three things (`Undef`). The first and the last are undefined in C:

* the directory of a file was freed, since `vdf_delete_file` leaves the entries of a directory alone;
* the links of a directory were broken, since `vdf_file_up` and `vdf_file_down` leave one entry with
  a link to itself: its entries can still be walked, but what an addition, a removal or a move makes
  of the links is not followed here, though C defines some of it (`list_add_tail`);
* a file was not created as a directory and its union is read as one, since `vdf_set_file_attr` can
  set `VFA_DIR`.
-/

namespace Vdf

/-! ## Calls -/

/-- A call that can change a drive. -/
inductive Call where
  | addDir (parent : FileId) (name : List UInt8) (alloc : Option FileId) (strdup : Bool) (time : Int)
  | addFileReal (parent : FileId) (name : Option (List UInt8)) (path : List UInt8)
      (stat : Option Stat) (alloc : Option FileId) (strdup : Bool)
  | addFileVirt (parent : FileId) (name : List UInt8) (len : Nat) (alloc : Option FileId)
      (strdup : Bool) (time : Int)
  | deleteFile (file : FileId)
  | moveFile (file newParent : FileId)
  | fileUp (file : FileId)
  | fileDown (file : FileId)
  | setFileName (file : FileId) (name : List UInt8) (strdup : Bool)
  | setFileShortname (file : FileId) (name : List UInt8)
  | setFileSize (file : FileId) (size : Nat)
  | setFatFileSize (file : FileId) (size : Int)
  | setFileDate (file : FileId) (date : Int)
  | setFileAttr (file : FileId) (attr mask : Nat)
  | setDriveLabel (label : Option (List UInt8)) (strdup : Bool)
  | setDriveSerial (serial : Nat)
  | recalc
  | lock
  | unlock
  | recreate (size flags : Nat) (ext : DriveExt) (junk : Uninit)

namespace Call

/-- The files that the caller passes. -/
def files : Call → List FileId
  | addDir p .. | addFileReal p .. | addFileVirt p .. => [p]
  | moveFile f p => [f, p]
  | deleteFile f | fileUp f | fileDown f | setFileName f .. | setFileShortname f _ | setFileSize f _
  | setFatFileSize f _ | setFileDate f _ | setFileAttr f .. => [f]
  | _ => []

/-- The structure that `malloc` has for a new file. -/
def alloc : Call → Option FileId
  | addDir _ _ a .. | addFileReal _ _ _ _ a _ | addFileVirt _ _ _ a .. => a
  | _ => none

/-- The directory and the name of a file that the call creates. -/
def creates : Call → Option (FileId × List UInt8)
  | addDir p name .. | addFileVirt p name .. => some (p, name)
  | addFileReal p name path st .. =>
    if st.any (·.regular) then some (p, name.getD (pathName path)) else none
  | _ => none

/-- `strdup` succeeds for the name of the new file. -/
def strdup : Call → Bool
  | addDir _ _ _ dup _ | addFileReal _ _ _ _ _ dup | addFileVirt _ _ _ _ dup _ => dup
  | _ => true

/-- The call creates a directory. -/
def addsDir : Call → Bool
  | addDir .. => true
  | _ => false

/-- What a call returns, and the drive. `none` is a recursion of `dir_recalc` that does not end. -/
def apply (qsort : List FileRange → List FileRange) (fuel : Nat) (d : VdfDrive) :
    Call → Option (Result Unit)
  | addDir p name a dup time =>
    let (r, d) := vdfAddDir d p name a dup time
    some (r.map fun _ => (), d)
  | addFileReal p name path st a dup =>
    let (r, d) := vdfAddFileReal d p name path st a dup
    some (r.map fun _ => (), d)
  | addFileVirt p name len a dup time =>
    let (r, d) := vdfAddFileVirt d p name len a dup time
    some (r.map fun _ => (), d)
  | deleteFile f => some (vdfDeleteFile d f)
  | moveFile f p => some (vdfMoveFile d f p)
  | fileUp f => some (vdfFileUp d f)
  | fileDown f => some (vdfFileDown d f)
  | setFileName f name dup => some (vdfSetFileName d f name dup)
  | setFileShortname f name => some (vdfSetFileShortname d f name)
  | setFileSize f size => some (vdfSetFileSize d f size)
  | setFatFileSize f size => some (vdfSetFatFileSize d f size)
  | setFileDate f date => some (vdfSetFileDate d f date)
  | setFileAttr f attr mask => some (vdfSetFileAttr d f attr mask)
  | setDriveLabel label dup => some (vdfSetDriveLabel d label dup)
  | setDriveSerial serial => some (vdfSetDriveSerial d serial)
  | recalc => vdfRecalc qsort fuel d
  | lock => vdfDriveLock qsort fuel d
  | unlock => some (vdfDriveUnlock d)
  | recreate size flags ext junk => some (vdfDriveRecreateExt d size flags ext junk)

end Call

/-! ## The state of a run -/

/-- A drive and what is known about its structures: `handles`, those that the caller was given;
`dirs`, those with the union of a directory; `broken`, the directories with broken links. -/
structure World where
  drive : VdfDrive
  handles : List FileId
  dirs : List FileId
  broken : List FileId

/-- `vdf_drive_create_ext`. -/
def World.create (size flags : Nat) (ext : DriveExt) (junk : Uninit) : Option World :=
  (createdriveExt none size flags ext junk).map fun d =>
    { drive := d, handles := [d.rootDir], dirs := [d.rootDir], broken := [] }

/-- Where a run stops: what C leaves undefined, and broken links. -/
inductive Undef where
  /-- A pointer to a freed structure is used. -/
  | freed (file : FileId)
  /-- The links of a directory are changed that were broken before, which is not followed. -/
  | links (dir : FileId)
  /-- The union of a file is read as that of a directory. -/
  | union (file : FileId)
  /-- A recursion that does not end. -/
  | endless
  deriving DecidableEq, Repr

/-- The directories that `dir_recalc` walks. -/
def walkDirs : Nat → VdfDrive → FileId → List FileId
  | 0, _, _ => []
  | fuel + 1, d, dir =>
    dir :: ((d.file dir).entries.filter fun f => (d.file f).isDir).flatMap (walkDirs fuel d)

namespace World

/-- The entries of `dir` are walked. -/
def walks (w : World) (dir : FileId) : Option Undef :=
  if (w.drive.file dir).deleted then some (.freed dir)
  else if dir ∉ w.dirs then some (.union dir)
  else none

/-- The links of `dir` are changed. -/
def relinks (w : World) (dir : FileId) : Option Undef :=
  if (w.drive.file dir).deleted then some (.freed dir)
  else if dir ∈ w.broken then some (.links dir)
  else none

/-- `create_file` once the structure of the parent was tested: its entries are walked for the name,
and its list grows. -/
def createUndef (w : World) (parent : FileId) (name : List UInt8) (alloc : Option FileId) :
    Option Undef :=
  let d := w.drive
  if (d.file parent).deleted ∨ d.lockTest ∨ !(d.file parent).isDir ∨ !filenameValid name then none
  else if parent ∉ w.dirs then some (.union parent)
  else if createCheck d parent name = none ∧ alloc ≠ none then w.relinks parent
  else none

/-- `list_del` of a file that is deleted: only at its ends does the list of a freed directory run
through the structure that was freed. -/
def deleteUndef (w : World) (file parent : FileId) : Option Undef :=
  let entries := (w.drive.file parent).entries
  if parent ∈ w.broken then some (.links parent)
  else if (w.drive.file parent).deleted ∧
      (entries.head? = some file ∨ entries.getLast? = some file) then some (.freed parent)
  else none

/-- `dir_recalc` from the root. -/
def recalcUndef (w : World) (fuel : Nat) : Option Undef :=
  if !w.drive.isValid ∨ w.drive.isLocked ∨ !w.drive.dirty then none
  else ((walkDirs fuel w.drive w.drive.rootDir).find? fun x => x ∉ w.dirs).map .union

/-- What a call runs into. -/
def undef (fuel : Nat) (w : World) (c : Call) : Option Undef :=
  let d := w.drive
  match c with
  | .addDir .. | .addFileVirt .. | .addFileReal .. =>
    c.creates.bind fun (p, name) => w.createUndef p name c.alloc
  | .deleteFile f =>
    if (d.file f).deleted ∨ f = d.rootDir ∨ d.lockTest then none
    else (d.file f).parent.bind (w.deleteUndef f)
  | .moveFile f np =>
    if moveCheck d f np ≠ none ∨ (d.file f).parent = some np then none
    else if np ∉ w.dirs then some (.union np)
    else if (findFileSkip d np (d.file f).name vffLongonly none).isSome then none
    else ((d.file f).parent.bind w.relinks).or (w.relinks np)
  | .fileUp f | .fileDown f =>
    if (d.file f).deleted ∨ d.lockTest then none else (d.file f).parent.bind w.relinks
  | .setFileName f name _ =>
    if (d.file f).deleted ∨ d.lockTest ∨ !filenameValid name then none
    else (d.file f).parent.bind w.walks
  | .setFileShortname f name =>
    if (d.file f).deleted ∨ d.lockTest ∨ !filenameValid name ∨ !shortnameFits name then none
    else (d.file f).parent.bind w.walks
  | .recalc => w.recalcUndef fuel
  | .lock => if d.lockcnt = 0 then w.recalcUndef fuel else none
  | _ => none

/-- What the caller and the lists know after a call that succeeded. -/
def note (w : World) (c : Call) (d : VdfDrive) : World :=
  match c with
  | .addDir _ _ (some f) .. | .addFileReal _ _ _ _ (some f) _ | .addFileVirt _ _ _ (some f) .. =>
    { drive := d, handles := f :: w.handles, broken := w.broken
      dirs := if c.addsDir then f :: w.dirs else w.dirs }
  | .fileUp f | .fileDown f =>
    { w with drive := d, broken := (w.drive.file f).parent.toList ++ w.broken }
  | _ => { w with drive := d }

/-- The world behind a call that returned `r`. -/
def after (w : World) (c : Call) (r : Except Errno Unit) (d : VdfDrive) : World :=
  match r with
  | .ok _ => w.note c d
  | .error _ => { w with drive := d }

/-- A call in a world. -/
def call (qsort : List FileRange → List FileRange) (fuel : Nat) (w : World) (c : Call) :
    Except Undef (Except Errno Unit × World) :=
  match w.undef fuel c, c.apply qsort fuel w.drive with
  | some u, _ => .error u
  | none, none => .error .endless
  | none, some (r, d) => .ok (r, w.after c r d)

/-- A call of a caller that keeps to the API. -/
def stepTo (qsort : List FileRange → List FileRange) (fuel : Nat) (w : World) (c : Call) :
    Option World :=
  if (∀ f ∈ c.files, f ∈ w.handles) ∧ ∀ f ∈ c.alloc, f ∉ w.handles then
    (w.call qsort fuel c).toOption.map Prod.snd
  else none

end World

/-! ## Runs -/

section Runs

variable (qsort : List FileRange → List FileRange)

/-- The caller keeps to the API, the call is defined, and leads to `w'`. -/
structure World.Step (w : World) (c : Call) (r : Except Errno Unit) (w' : World) : Prop where
  files : ∀ f ∈ c.files, f ∈ w.handles
  alloc : ∀ f ∈ c.alloc, f ∉ w.handles
  call : ∃ fuel, w.call qsort fuel c = .ok (r, w')

theorem World.step_of_stepTo {qsort : List FileRange → List FileRange} {fuel : Nat} {w w' : World}
    {c : Call} (h : w.stepTo qsort fuel c = some w') : ∃ r, w.Step qsort c r w' := by
  unfold World.stepTo at h
  split at h
  · rename_i hlegal
    obtain ⟨⟨r, w₁⟩, hcall, rfl⟩ := Option.map_eq_some_iff.1 h
    refine ⟨r, hlegal.1, hlegal.2, fuel, ?_⟩
    cases hc : w.call qsort fuel c with
    | error e => rw [hc] at hcall; cases hcall
    | ok p => rw [hc] at hcall; cases hcall; rfl
  · cases h

/-- Calls that meet `ok`, one after the other. -/
inductive Run (ok : World → Call → Prop) : World → World → Prop where
  | refl (w : World) : Run ok w w
  | step {w w' w'' : World} {c : Call} {r : Except Errno Unit} (run : Run ok w w')
      (hok : ok w' c) (hstep : w'.Step qsort c r w'') : Run ok w w''

/-- The states that calls lead to from a new drive. -/
def Reachable (w : World) : Prop :=
  ∃ size flags ext junk w₀, World.create size flags ext junk = some w₀ ∧
    Run qsort (fun _ _ => True) w₀ w

variable {qsort}

/-- What holds at the start and is kept by the calls holds at the end. -/
theorem Run.induct {ok : World → Call → Prop} {P : World → Prop} {w w' : World}
    (run : Run qsort ok w w') (h : P w)
    (keep : ∀ {w c r w'}, ok w c → P w → w.Step qsort c r w' → P w') : P w' := by
  induction run with
  | refl => exact h
  | step _ hok hstep ih => exact keep hok ih hstep

theorem Run.mono {ok ok' : World → Call → Prop} {w w' : World} (run : Run qsort ok w w')
    (h : ∀ {w c}, ok w c → ok' w c) : Run qsort ok' w w' := by
  induction run with
  | refl => exact .refl w
  | step _ hok hstep ih => exact .step ih (h hok) hstep

/-- One more call of a run, from what `stepTo` computes. -/
theorem Run.stepTo {ok : World → Call → Prop} {w w' w'' : World} {c : Call} {fuel : Nat}
    (run : Run qsort ok w w') (hok : ok w' c) (h : w'.stepTo qsort fuel c = some w'') :
    Run qsort ok w w'' := by
  obtain ⟨r, hr⟩ := World.step_of_stepTo h
  exact .step run hok hr

end Runs

/-! ## A small run -/

/-- Calls on a new FAT12 drive of 1 MiB. -/
def sampleRun (calls : List Call) : Option World :=
  (World.create (mib 1) 0 driveextAuto ⟨0, 0, 0, 0⟩).bind
    (calls.foldlM (World.stepTo id 8))

/-- A directory and a file in the root, as structures 1 and 2. -/
def sampleDir : Call := .addDir 0 [0x41] (some 1) true 0
def sampleFile : Call := .addFileVirt 0 [0x42] 0 (some 2) true 0

variable {l : List Call} {c : Call} {w w' : World}

theorem sampleRun_nil (h : sampleRun [] = some w) :
    World.create (mib 1) 0 driveextAuto ⟨0, 0, 0, 0⟩ = some w := by
  obtain ⟨w₀, h0, hl⟩ := Option.bind_eq_some_iff.1 h
  cases hl
  exact h0

theorem sampleRun_concat (h : sampleRun l = some w) (h' : sampleRun (l ++ [c]) = some w') :
    w.stepTo id 8 c = some w' := by
  obtain ⟨w₀, h0, hl⟩ := Option.bind_eq_some_iff.1 h
  simp only [sampleRun, h0, Option.bind_some, List.foldlM_append, hl, Option.bind_eq_bind,
    List.foldlM_cons, List.foldlM_nil, Option.pure_def, Option.bind_fun_some] at h'
  exact h'

/-- The last world, with what an evaluation tells about it. -/
theorem sampleRun_exists {P : World → Prop} [DecidablePred P]
    (h : (sampleRun l).any (fun w => decide (P w)) = true) : ∃ w, sampleRun l = some w ∧ P w := by
  obtain ⟨w, hw, hP⟩ := (Option.any_eq_true _ _).1 h
  exact ⟨w, hw, of_decide_eq_true hP⟩

theorem sampleRun_reachable (h : sampleRun l = some w) : Reachable id w := by
  induction l using List.reverseRecOn generalizing w with
  | nil => exact ⟨_, _, _, _, w, sampleRun_nil h, .refl w⟩
  | append_singleton l c ih =>
    cases hl : sampleRun l with
    | none =>
      obtain ⟨w₀, h0, h⟩ := Option.bind_eq_some_iff.1 h
      simp only [sampleRun, h0, Option.bind_some] at hl
      simp only [List.foldlM_append, hl] at h
      cases h
    | some w₁ =>
      obtain ⟨size, flags, ext, junk, w₀, h0, run⟩ := ih hl
      exact ⟨size, flags, ext, junk, w₀, h0, run.stepTo trivial (sampleRun_concat hl h)⟩

/-- One more call, with what an evaluation tells about it. -/
theorem sampleStep_exists {P : World → Except Errno Unit → World → Prop}
    [∀ w r w', Decidable (P w r w')]
    (h : (sampleRun l).any (fun w => decide ((∀ f ∈ c.files, f ∈ w.handles) ∧
      ∀ f ∈ c.alloc, f ∉ w.handles) && (w.call id 8 c).toOption.any fun q =>
        decide (P w q.1 q.2)) = true) :
    ∃ w r w', sampleRun l = some w ∧ w.Step id c r w' ∧ P w r w' := by
  obtain ⟨w, hw, h⟩ := (Option.any_eq_true _ _).1 h
  obtain ⟨hlegal, h⟩ := (Bool.and_eq_true _ _).mp h
  obtain ⟨hfiles, halloc⟩ := of_decide_eq_true hlegal
  obtain ⟨⟨r, w'⟩, hq, hP⟩ := (Option.any_eq_true _ _).1 h
  refine ⟨w, r, w', hw, ⟨hfiles, halloc, 8, ?_⟩, of_decide_eq_true hP⟩
  cases hc : w.call id 8 c with
  | error e => rw [hc] at hq; cases hq
  | ok q => rw [hc] at hq; cases hq; rfl

/-- The run that adds the two. -/
theorem sample_run {k : World → Call → Prop} (hdir : ∀ w, k w sampleDir)
    (hfile : ∀ w, k w sampleFile) :
    ∃ w₀ w, World.create (mib 1) 0 driveextAuto ⟨0, 0, 0, 0⟩ = some w₀ ∧ Run id k w₀ w ∧
      sampleRun [sampleDir, sampleFile] = some w := by
  obtain ⟨w₀, h₀, -⟩ := sampleRun_exists (l := []) (P := fun _ => True) (by decide)
  obtain ⟨w₁, h₁, -⟩ := sampleRun_exists (l := [sampleDir]) (P := fun _ => True) (by decide)
  obtain ⟨w, h, -⟩ := sampleRun_exists (l := [sampleDir, sampleFile]) (P := fun _ => True)
    (by decide)
  exact ⟨w₀, w, sampleRun_nil h₀, ((Run.refl w₀).stepTo (hdir w₀) (sampleRun_concat h₀ h₁)).stepTo
    (hfile w₁) (sampleRun_concat h₁ h), h⟩

end Vdf
