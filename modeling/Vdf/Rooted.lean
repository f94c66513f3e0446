import Vdf.Frame
import Vdf.Linked
import Vdf.Lib.Forest

/-!
# The tree of a run

`Rooted` is the invariant behind two results about runs: every file in use lies below the root. What
the code does not test is a condition on the calls: a directory may not be moved under itself
(`KeepsTree`), and for the counters no file may be deleted and no creation may fail late
(`KeepsCounters`).
-/

namespace Vdf

open Word Relation

/-! ## Conditions on calls -/

/-- The checks of `vdf_move_file` let `f` be moved to another directory. -/
def MoveAccepted (d : VdfDrive) (f np : FileId) : Prop :=
  moveCheck d f np = none ∧ (d.file f).parent ≠ some np ∧
    findFileSkip d np (d.file f).name vffLongonly none = none

/-- The checks of `vdf_delete_file` let `f` be deleted. -/
def DeleteAccepted (d : VdfDrive) (f : FileId) : Prop :=
  (d.file f).deleted = false ∧ f ≠ d.rootDir ∧ d.lockTest = false

/-- Every number of the tail of the short name is taken in the directory. -/
def NumbersTaken (d : VdfDrive) (dir f : FileId) (name : List UInt8) : Prop :=
  dosBase name ++ dosExt name ≠ name ∧ 8 ≤ (dosBase name).length ∧
    ∀ ind, 1 ≤ ind → ind < 1000000 →
      takenIn d dir f (tailBase (dosBase name) ind ++ dosExt name) = true

theorem shortnameOf_eq_none {d : VdfDrive} {dir f : FileId} {name : List UInt8} :
    shortnameOf (takenIn d dir f) name = none ↔ NumbersTaken d dir f name := by
  simp only [shortnameOf, NumbersTaken]
  split_ifs with h1 h2
  · simp [h1]
  · simp only [Option.map_eq_none_iff, List.find?_eq_none, List.mem_range'_1]
    constructor
    · intro h
      exact ⟨h1, h2, fun ind ha hb => by simpa using h ind ⟨ha, by omega⟩⟩
    · rintro ⟨-, -, h⟩ ind ⟨ha, hb⟩
      simpa using h ind ha (by omega)
  · simp [h2]

/-- `create_file` passes its checks and gets a structure, and then fails: `strdup` has no memory, or
no number is left for the short name. -/
def CreateFailsLate (d : VdfDrive) (c : Call) : Prop :=
  ∃ p name f, c.creates = some (p, name) ∧ c.alloc = some f ∧ createCheck d p name = none ∧
    (c.strdup = false ∨ NumbersTaken d p f name)

theorem not_createFailsLate {d : VdfDrive} {c : Call} (hdup : c.strdup = true)
    (hname : ∀ q ∈ c.creates, dosBase q.2 ++ dosExt q.2 = q.2) : ¬ CreateFailsLate d c := by
  rintro ⟨p, name, f, hcreates, -, -, hlate | hlate⟩
  · exact nomatch hdup.symm.trans hlate
  · exact hlate.1 (hname _ hcreates)

/-- The call keeps the files a tree: no directory is moved into itself or below itself. Of the other
calls, a deletion finds no entries, and neither the order of the entries nor `VFA_DIR` is changed. -/
def KeepsTree (w : World) : Call → Prop
  | .moveFile f np => MoveAccepted w.drive f np → ¬ w.drive.Below np f
  | .deleteFile f => DeleteAccepted w.drive f → (w.drive.file f).entries = []
  | .fileUp _ | .fileDown _ => False
  | .setFileAttr _ _ mask => hasFlag mask vfaDir = false
  | _ => True

/-- The call keeps the counters: no file is deleted, and no creation fails late. -/
def KeepsCounters (w : World) (c : Call) : Prop :=
  KeepsTree w c ∧ ¬ CreateFailsLate w.drive c ∧ ∀ f, c = .deleteFile f → ¬ DeleteAccepted w.drive f

/-! ## The invariant -/

/-- The files in use are a tree below the root. -/
structure Rooted (w : World) : Prop where
  linked : Linked w
  unbroken : w.broken = []
  root_dir : w.drive.rootDir ∈ w.dirs
  dir : ∀ p ∈ w.dirs, hasFlag (w.drive.file p).attr vfaDir = true
  parent_live : ∀ x p, w.drive.Child x p → (w.drive.file p).deleted = false
  ranked : Forest.Ranked w.drive.Child
  below : ∀ x ∈ w.handles, (w.drive.file x).deleted = false → w.drive.Below x w.drive.rootDir

namespace Rooted

variable {w w' : World}

theorem isTree (h : Rooted w) : w.drive.IsTree := by
  have hl := h.linked
  have hisDir : ∀ p ∈ w.dirs, (w.drive.file p).deleted = false → (w.drive.file p).isDir = true :=
    fun p hp hd => by simp [VdfFile.isDir, hd, h.dir p hp]
  refine ⟨hl.root_parent, hisDir _ h.root_dir hl.root_live, fun x p => ⟨hl.child_of_mem x p, fun hc =>
    hl.mem_of_child x p hc (by simp [h.unbroken])⟩, hl.nodup_entries, fun x p hc =>
    hisDir p (hl.parent_mem x p hc) (h.parent_live x p hc), h.ranked, hl.nodup_allFiles, fun x => ?_⟩
  rw [hl.mem_allFiles x]
  by_cases hx : x = w.drive.rootDir
  · simp [hx, hl.root_mem, VdfDrive.Below.refl]
  · simp only [hx, ↓reduceIte, false_imp_iff, and_true]
    constructor
    · rintro ⟨hmem, hd⟩
      exact h.below x hmem hd
    · intro hb
      rcases ReflTransGen.cases_head hb with e | ⟨q, hc, -⟩
      · exact absurd e hx
      · exact ⟨hl.handle_of_child hc, hl.child_live x q hc⟩

theorem rightUnique (d : VdfDrive) : Relator.RightUnique d.Child := fun _ _ _ hb hc =>
  Option.some.inj (hb.symm.trans hc)

variable (h : Rooted w)
include h

/-- One file gets another parent that is not below it, or is deleted without entries. -/
theorem relink {f : FileId} {t : Option FileId} (hl : Linked w')
    (hr : Relinked w.drive w'.drive f t) (hb : w'.broken = w.broken)
    (hf : f ≠ w.drive.rootDir) (hh : w'.handles ⊆ f :: w.handles) (hsub : w.dirs ⊆ w'.dirs)
    (hdir : ∀ p ∈ w'.dirs, hasFlag (w'.drive.file p).attr vfaDir = true)
    (ht : ∀ q ∈ t, ¬ w.drive.Below q f ∧ (w.drive.file q).deleted = false ∧ q ∈ w.handles)
    (hleaf : t = none → ∀ x, ¬ w.drive.Child x f) : Rooted w' := by
  have hrep : Forest.Reparent w.drive.Child w'.drive.Child f t := hr.child
  refine ⟨hl, hb.trans h.unbroken, by rw [hr.rootDir]; exact hsub h.root_dir, hdir, fun x q hc => ?_,
    hrep.ranked (rightUnique _) h.ranked fun q hq => (ht q hq).1, fun x hx hd => ?_⟩
  · rcases (hr.child x q).1 hc with ⟨-, hq⟩ | ⟨-, hc⟩
    · obtain ⟨hqf, hd, -⟩ := ht q hq
      rw [hr.deleted q fun e => hqf (e ▸ .refl _)]
      exact hd
    · by_cases hqf : q = f
      · subst hqf
        rw [hr.freed, Option.isNone_eq_false_iff, ← Option.ne_none_iff_isSome]
        exact fun e => hleaf e x hc
      · rw [hr.deleted q hqf]
        exact h.parent_live x q hc
  · rw [hr.rootDir]
    by_cases hxf : x = f
    · subst hxf
      rw [hr.freed] at hd
      obtain ⟨q, hq⟩ := Option.isSome_iff_exists.1 (Option.isNone_eq_false_iff.1 hd)
      obtain ⟨hqf, hd, hmem⟩ := ht q hq
      exact .head ((hr.child x q).2 (.inl ⟨rfl, hq⟩)) (hrep.reach (h.below q hmem hd) hqf)
    · rw [hr.deleted x hxf] at hd
      have hbelow := h.below x (List.mem_of_ne_of_mem hxf (hh hx)) hd
      cases ht' : t with
      | some q =>
        obtain ⟨hqf, hd, hmem⟩ := ht q ht'
        exact hrep.reach_of_parent ht' (h.below q hmem hd) hqf hbelow
      | none =>
        refine hrep.reach hbelow fun hx => ?_
        obtain ⟨y, -, hy⟩ := VdfDrive.Below.below_child hx hxf
        exact hleaf ht' y hy

/-- The links stay. -/
theorem frame {d' : VdfDrive} (hl : Linked { w with drive := d' })
    (hroot : d'.rootDir = w.drive.rootDir)
    (hparent : ∀ x, (d'.file x).parent = (w.drive.file x).parent)
    (hdel : ∀ x ∈ w.handles, (d'.file x).deleted = (w.drive.file x).deleted)
    (hattr : ∀ x ∈ w.handles, hasFlag (d'.file x).attr vfaDir = hasFlag (w.drive.file x).attr vfaDir) :
    Rooted { w with drive := d' } := by
  have hchild : d'.Child = w.drive.Child := by
    funext x p
    simp only [VdfDrive.Child, hparent]
  refine ⟨hl, h.unbroken, by simpa [hroot] using h.root_dir, fun p hp => ?_, fun x p hc => ?_, ?_,
    fun x hx hd => ?_⟩
  · simpa only [hattr p (h.linked.dirs_mem p hp)] using h.dir p hp
  · simp only [hchild] at hc
    simpa only [hdel p (h.linked.dirs_mem p (h.linked.parent_mem x p hc))] using h.parent_live x p hc
  · simpa only [hchild] using h.ranked
  · simp only [hdel x hx] at hd
    simpa only [VdfDrive.Below, hchild, hroot] using h.below x hx hd

/-- A recalculation. -/
theorem relaid {d' : VdfDrive} (hr : Relaid w.drive d') : Rooted { w with drive := d' } :=
  h.frame (h.linked.relaid hr) hr.rootDir hr.parent (fun x _ => hr.fileDeleted x)
    fun x _ => by rw [hr.attr]

/-- A write to one file that keeps its links and `VFA_DIR`. -/
theorem edit (f : FileId) {g : VdfFile → VdfFile}
    (hg : ∀ a, (g a).parent = a.parent ∧ (g a).entries = a.entries ∧ (g a).deleted = a.deleted)
    (hattr : ∀ a, hasFlag (g a).attr vfaDir = hasFlag a.attr vfaDir) :
    Rooted { w with drive := setDriveDirty (w.drive.modifyFile f g) } := by
  refine h.frame (h.linked.edit f hg) (by simp) (fun x => ?_) (fun x _ => ?_) fun x _ => ?_ <;>
    simp only [setDriveDirty_file, VdfDrive.modifyFile_file] <;> split
  · exact (hg _).1
  · rfl
  · exact (hg _).2.2
  · rfl
  · exact hattr _
  · rfl

/-- A move to a directory that is not below the file. -/
theorem move {f p np : FileId} (hcheck : moveCheck w.drive f np = none)
    (hp : (w.drive.file f).parent = some p) (hne : p ≠ np) (hnp : np ∈ w.dirs)
    (hnot : ¬ w.drive.Below np f) : Rooted { w with drive := relinkFile w.drive f p np } := by
  have hf : f ≠ w.drive.rootDir := by
    rintro rfl
    rw [h.linked.root_parent] at hp
    cases hp
  obtain ⟨hd, -, hnd, -, -⟩ := moveCheck_eq_none.1 hcheck
  refine h.relink (h.linked.move hcheck hp hne hnp) (h.linked.relinkFile_relinked hd hp hne) rfl hf
    (fun _ hx => .tail _ hx) (fun _ hx => hx) (fun x hx => ?_) ?_ nofun
  · simpa [relinkFile_eq _ hne] using h.dir x hx
  · intro q hq
    obtain rfl := Option.mem_some_iff.1 hq
    exact ⟨hnot, hnd, h.linked.dirs_mem _ hnp⟩

variable {qsort : List FileRange → List FileRange} {c : Call} {r : Except Errno Unit}

/-- Every step that keeps the tree. -/
theorem step (hok : KeepsTree w c) (hs : w.Step qsort c r w') : Rooted w' := by
  have hl := h.linked.step hs
  obtain ⟨hdoes, hw', fuel, hu⟩ := h.linked.does hs
  rw [hw'] at hl ⊢
  generalize w'.drive = d' at hdoes hl ⊢
  cases hdoes with
  | refused => exact h
  | createFailed hc ha hcheck hp late =>
    rename_i p name f fil
    have hf := hs.alloc f ha
    have hne : ∀ x ∈ w.handles, x ≠ f := fun x hx e => hf (e ▸ hx)
    refine h.frame hl (by simp [dropFile]) (fun x => ?_) (fun x hx => by simp [hne x hx]) fun x hx => ?_
    · by_cases hx : x = f
      · simp [hx, h.linked.outside f hf]
      · simp [hx]
    · simp only [dropFile, relist_file, hne x hx, ↓reduceIte]
      split_ifs <;> rfl
  | created hc ha hcheck hshort =>
    rename_i p name f s l
    have hf := hs.alloc f ha
    have hp := Linked.undef_create hc hu hcheck
    obtain ⟨dirs, e, hdirs⟩ := Linked.after_create (addFile w.drive p f
      (c.newFile w.drive.bpc p name s l)) hc ha
    rw [e] at hl ⊢
    have hfresh := h.linked.fresh hf
    refine h.relink hl (h.linked.addFile_relinked hf hp (by simp) (by simp) (by simp)) rfl
      hfresh.ne_root (fun _ hx => hx) (by rw [hdirs]; split <;> simp) (fun x hx => ?_) ?_ (by simp)
    · rw [hdirs] at hx
      by_cases hxf : x = f
      · subst hxf
        by_cases hdir : c.addsDir = true
        · simp [addFile, newFile_attr hdir]
        · simp only [hdir, Bool.false_eq_true, ↓reduceIte] at hx
          exact absurd (h.linked.dirs_mem x hx) hf
      · have hx : x ∈ w.dirs := by
          split at hx
          · exact List.mem_of_ne_of_mem hxf hx
          · exact hx
        simp only [addFile, relist_file, hxf, ↓reduceIte]
        split_ifs <;> exact h.dir x hx
    · intro q hq
      obtain rfl := Option.mem_some_iff.1 hq
      refine ⟨fun hb => ?_, (createCheck_eq_none.1 hcheck).1, h.linked.dirs_mem _ hp⟩
      have hne : p ≠ f := fun e => hf (e ▸ h.linked.dirs_mem p hp)
      obtain ⟨y, -, hy⟩ := VdfDrive.Below.below_child hb hne
      exact hfresh.not_parent y hy
  | deleted hd hr hlock =>
    rename_i f
    have hent := hok ⟨hd, hr, hlock⟩
    refine h.relink hl (h.linked.removeFile_relinked (hs.files f (List.mem_singleton.2 rfl)) hr hd)
      rfl hr (fun _ hx => .tail _ hx) (fun _ hx => hx) (fun x hx => ?_) (by simp) fun _ x hc => ?_
    · simpa [World.after, World.note, removeFile] using h.dir x hx
    · have := h.linked.mem_of_child x f hc (by simp [h.unbroken])
      rw [hent] at this
      cases this
  | stays hcheck hp => exact h
  | moved hcheck hp hne hfind hshort =>
    have hmove := h.move hcheck hp hne (Linked.undef_move hu hcheck hp hne)
      (hok ⟨hcheck, by simpa [hp] using hne, hfind⟩)
    refine hmove.frame hl rfl (fun x => ?_) (fun x _ => ?_) fun x _ => ?_ <;>
      simp only [VdfDrive.modifyFile_file] <;> split <;> rfl
  | moveFailed hcheck hp hne hfind hs =>
    exact h.move hcheck hp hne (Linked.undef_move hu hcheck hp hne)
      (hok ⟨hcheck, by simpa [hp] using hne, hfind⟩)
  | up | down => exact hok.elim
  | renamed => exact h.edit _ (fun _ => ⟨rfl, rfl, rfl⟩) fun _ => rfl
  | renameFailed => exact h.edit _ (fun _ => ⟨rfl, rfl, rfl⟩) fun _ => rfl
  | shortRenamed => exact h.edit _ (fun _ => ⟨rfl, rfl, rfl⟩) fun _ => rfl
  | sized => exact h.edit _ (fun _ => ⟨rfl, rfl, rfl⟩) fun _ => rfl
  | fatSized => exact h.edit _ (fun _ => ⟨rfl, rfl, rfl⟩) fun _ => rfl
  | dated => exact h.edit _ (fun _ => ⟨rfl, rfl, rfl⟩) fun _ => rfl
  | attrSet => exact h.edit _ (fun _ => ⟨rfl, rfl, rfl⟩) fun a => hasFlag_setAttr _ _ hok
  | labelled => exact h.frame hl (by simp) (by simp) (by simp) (by simp)
  | labelLost => exact h.frame hl rfl (fun _ => rfl) (fun _ _ => rfl) fun _ _ => rfl
  | serialSet => exact h.frame hl rfl (fun _ => rfl) (fun _ _ => rfl) fun _ _ => rfl
  | clean => exact h
  | laidOut _ _ _ hrec => exact h.relaid (vdfDriveRecalc_relaid hrec)
  | layoutFailed _ _ _ _ hrec => exact h.relaid (vdfDriveRecalc_relaid hrec)
  | locked => exact h.frame hl rfl (fun _ => rfl) (fun _ _ => rfl) fun _ _ => rfl
  | laidOutLocked _ _ _ hrec =>
    have hrec := vdfDriveRecalc_relaid hrec
    exact h.frame hl hrec.rootDir hrec.parent (fun x _ => hrec.fileDeleted x)
      fun x _ => by rw [hrec.attr]
  | unlocked => exact h.frame hl rfl (fun _ => rfl) (fun _ _ => rfl) fun _ _ => rfl
  | recreated _ _ hrec =>
    obtain ⟨hroot, hfile⟩ := createdriveExt_file hrec
    exact h.frame hl hroot (fun x => by rw [hfile]) (fun x _ => by rw [hfile]) fun x _ => by rw [hfile]

end Rooted

/-! ## Runs -/

section Runs

variable {qsort : List FileRange → List FileRange} {size flags : Nat} {ext : DriveExt}
  {junk : Uninit} {w₀ w w' : World} {c : Call} {r : Except Errno Unit}

theorem createdriveExt_new {d : VdfDrive} (h : createdriveExt none size flags ext junk = some d) :
    d.rootDir = 0 ∧ d.file = (fun _ => createRootDir) ∧
      d.allFiles = (if d.filesys = .fat32 then [0] else []) ∧ d.fileCnt = d.allFiles.length := by
  obtain ⟨g, -, rfl⟩ := Option.map_eq_some_iff.1 h
  refine ⟨rfl, rfl, rfl, ?_⟩
  dsimp only
  split_ifs <;> rfl

theorem rooted_create (h : World.create size flags ext junk = some w₀) : Rooted w₀ := by
  obtain ⟨d, hd, rfl⟩ := Option.map_eq_some_iff.1 h
  obtain ⟨hroot, hfile, hall, hcnt⟩ := createdriveExt_new hd
  have hchild : ∀ x p, ¬ d.Child x p := fun x p hc => by
    rw [VdfDrive.Child, hfile] at hc
    cases hc
  have hent : ∀ p, (d.file p).entries = [] := fun p => by rw [hfile]; rfl
  have hlive : ∀ p, (d.file p).deleted = false := fun p => by rw [hfile]; rfl
  refine ⟨⟨by simp, by rw [hfile]; rfl, hlive _, fun x _ => ⟨by rw [hfile]; rfl, hent x⟩,
    fun x p hc => (hchild x p hc).elim, fun x p hc => (hchild x p hc).elim, by simp,
    fun x hx _ hne => absurd (List.mem_singleton.1 hx) hne, fun x p hx => by simp [hent] at hx,
    fun x p hc => (hchild x p hc).elim, fun p => by simp [hent], ?_, fun x => ?_, Nat.le_of_eq hcnt.symm⟩,
    rfl, by simp, fun p _ => ?_, fun x p hc => (hchild x p hc).elim,
    ⟨fun _ => 0, fun x p hc => (hchild x p hc).elim⟩, fun x hx _ => ?_⟩
  · simp only [hall]
    split_ifs <;> simp
  · simp only [hall, hroot]
    by_cases hx : x = 0
    · by_cases hfs : d.filesys = .fat32 <;> simp [hx, hfs]
    · split_ifs <;> simp [hx]
  · simp only [hfile]
    decide
  · rw [List.mem_singleton.1 hx]
    exact .refl _

theorem Run.rooted (run : Run qsort KeepsTree w₀ w) (h : Rooted w₀) : Rooted w :=
  run.induct h fun hok h hs => h.step hok hs

theorem Reachable.linked (h : Reachable qsort w) : Linked w := by
  obtain ⟨size, flags, ext, junk, w₀, hcreate, run⟩ := h
  exact run.induct (rooted_create hcreate).linked fun _ h hs => h.step hs

/-! ## The tree -/

/-- One step of a walk down the tree. -/
def VdfDrive.Entry (d : VdfDrive) (p x : FileId) : Prop :=
  (d.file p).isDir = true ∧ x ∈ (d.file p).entries

theorem VdfDrive.IsTree.walk {d : VdfDrive} (h : d.IsTree) {x y : FileId} (hb : d.Below x y) :
    ReflTransGen d.Entry y x := by
  induction hb with
  | refl => exact .refl
  | tail _ hc ih => exact .head ⟨h.isDir _ _ hc, (h.mem_entries _ _).2 hc⟩ ih

/-- `calc_shortname` keeps the parents. -/
theorem calcShortname_parent (d : VdfDrive) (f x : FileId) :
    ((calcShortname d f).2.file x).parent = (d.file x).parent := by
  unfold calcShortname
  split
  · simp only [setDriveDirty_file, VdfDrive.modifyFile_file]
    split <;> rfl
  · rfl

/-- The parents behind a move that is accepted. -/
theorem moveFile_child {d : VdfDrive} {f np : FileId} (h : MoveAccepted d f np) (x q : FileId) :
    (vdfMoveFile d f np).2.Child x q ↔ x = f ∧ np = q ∨ x ≠ f ∧ d.Child x q := by
  obtain ⟨hcheck, hne, hfind⟩ := h
  cases hp : (d.file f).parent with
  | none => exact absurd hp (moveCheck_eq_none.1 hcheck).2.1
  | some p =>
    have hpn : p ≠ np := fun e => hne (hp.trans (congrArg some e))
    simp only [vdfMoveFile, hcheck, hp, hpn, hfind, Option.isSome_none, Bool.false_eq_true, ↓reduceIte,
      VdfDrive.Child, calcShortname_parent, relinkFile_eq d hpn, relist_file]
    by_cases hx : x = f <;> simp [hx]

/-- In every run in which no directory is moved into itself or below itself, the files are a tree:
the way up from every file in `all_files` ends at the root, and a walk down finds it. In such a
run the condition is needed: a move that is accepted without it leaves no tree. -/
theorem moves_keep_tree (hcreate : World.create size flags ext junk = some w₀)
    (run : Run qsort KeepsTree w₀ w) :
    w.drive.IsTree ∧
      (∀ x ∈ w.drive.allFiles, w.drive.Below x w.drive.rootDir ∧
        ReflTransGen w.drive.Entry w.drive.rootDir x) ∧
      ∀ f np r w', w.Step qsort (.moveFile f np) r w' → MoveAccepted w.drive f np →
        w.drive.Below np f → ¬ w'.drive.IsTree := by
  have h := run.rooted (rooted_create hcreate)
  have ht := h.isTree
  refine ⟨ht, fun x hx => ?_, fun f np r w' hs hacc hb ht' => ?_⟩
  · have hb := ((ht.mem_allFiles x).1 hx).1
    exact ⟨hb, ht.walk hb⟩
  · obtain ⟨fuel, d', -, ha, e⟩ := hs.apply
    have hd : w'.drive = (vdfMoveFile w.drive f np).2 := by
      rw [e, World.after_drive]
      exact (congrArg Prod.snd (Option.some.inj ha)).symm
    have hchild := moveFile_child hacc
    rw [← hd] at hchild
    have hrep : Forest.Reparent w.drive.Child w'.drive.Child f (some np) := fun x q => by
      rw [hchild x q, Option.some.injEq]
    exact Forest.Ranked.irrefl ht'.acyclic ((hrep f np).2 (.inl ⟨rfl, rfl⟩)) (hrep.below hb)

/-- A directory that is moved into itself is its own parent. -/
theorem move_into_itself :
    ∃ w, sampleRun [sampleDir, .moveFile 1 1] = some w ∧ Reachable id w ∧
      1 ∈ w.drive.allFiles ∧ ¬ w.drive.Below 1 w.drive.rootDir := by
  obtain ⟨w, h, hroot, hparent, hmem⟩ := sampleRun_exists (l := [sampleDir, .moveFile 1 1])
    (P := fun w => w.drive.rootDir = 0 ∧ (w.drive.file 1).parent = some 1 ∧
      1 ∈ w.drive.allFiles) (by decide)
  refine ⟨w, h, sampleRun_reachable h, hmem, fun hb => ?_⟩
  have hself : ∀ x, w.drive.Below 1 x → x = 1 := by
    intro x hb
    induction hb with
    | refl => rfl
    | tail _ hc ih =>
      rw [ih] at hc
      exact Option.some.inj (hc.symm.trans hparent)
  exact nomatch (hself _ hb).symm.trans hroot

/-- What is not below an entry of the root. -/
theorem not_below_of_root {d : VdfDrive} {x y : FileId} (hx : (d.file x).parent = some d.rootDir)
    (hroot : (d.file d.rootDir).parent = none) (hne : x ≠ y) (hy : y ≠ d.rootDir) :
    ¬ d.Below x y := by
  intro hb
  rcases ReflTransGen.cases_head hb with e | ⟨p, hc, hb⟩
  · exact hne e
  obtain rfl := Option.some.inj (hx.symm.trans hc)
  rcases ReflTransGen.cases_head hb with e | ⟨q, hc, -⟩
  · exact hy e.symm
  · exact nomatch hroot.symm.trans hc

/-- The sample file can be moved to the sample directory. -/
theorem sample_keepsTree (h : sampleRun [sampleDir, sampleFile] = some w) :
    KeepsTree w (.moveFile 2 1) := by
  obtain ⟨w', h', hroot, hparent, hnone⟩ := sampleRun_exists (l := [sampleDir, sampleFile])
    (P := fun w => w.drive.rootDir = 0 ∧ (w.drive.file 1).parent = some 0 ∧
      (w.drive.file 0).parent = none) (by decide)
  obtain rfl := Option.some.inj (h.symm.trans h')
  exact fun _ => not_below_of_root (by rw [hroot, hparent]) (by rw [hroot, hnone]) (by decide)
    (by rw [hroot]; decide)

theorem moves_keep_tree_sample :
    ∃ w, sampleRun [sampleDir, sampleFile, .moveFile 2 1] = some w ∧ w.drive.IsTree := by
  obtain ⟨w₀, w₂, hcreate, run, h₂⟩ := sample_run (k := KeepsTree) (fun _ => trivial)
    fun _ => trivial
  obtain ⟨w, h, -⟩ := sampleRun_exists (l := [sampleDir, sampleFile, .moveFile 2 1])
    (P := fun _ => True) (by decide)
  exact ⟨w, h, (moves_keep_tree hcreate
    (run.stepTo (sample_keepsTree h₂) (sampleRun_concat h₂ h))).1⟩

/-! ## The counters -/

/-- The counters agree with the lists, and `all_files` has each file of the tree once, the root on
FAT32 only. -/
structure CountersAgree (d : VdfDrive) : Prop where
  dirCnt : ∀ p, d.Below p d.rootDir → (d.file p).isDir = true →
    (d.file p).dirCnt = (d.file p).entries.length
  fileCnt : d.fileCnt = d.allFiles.length
  nodup : d.allFiles.Nodup
  allFiles : ∀ x, x ∈ d.allFiles ↔ d.Below x d.rootDir ∧ (x = d.rootDir → d.filesys = .fat32)

/-- The counters of a world. -/
structure Counted (w : World) : Prop where
  dirCnt : ∀ p ∈ w.handles, (w.drive.file p).dirCnt = (w.drive.file p).entries.length
  fileCnt : w.drive.fileCnt = w.drive.allFiles.length

theorem Counted.agree (h : Counted w) (hr : Rooted w) : CountersAgree w.drive := by
  have ht := hr.isTree
  refine ⟨fun p hp _ => h.dirCnt p ?_, h.fileCnt, ht.nodup_allFiles, ht.mem_allFiles⟩
  rcases ReflTransGen.cases_head hp with rfl | ⟨q, hc, -⟩
  · exact hr.linked.root_mem
  · exact hr.linked.handle_of_child hc

theorem counted_create (h : World.create size flags ext junk = some w₀) : Counted w₀ := by
  obtain ⟨d, hd, rfl⟩ := Option.map_eq_some_iff.1 h
  obtain ⟨-, hfile, -, hcnt⟩ := createdriveExt_new hd
  exact ⟨fun p _ => by rw [hfile]; rfl, hcnt⟩

namespace Counted

variable (h : Counted w)
include h

theorem frame {d' : VdfDrive} (hall : d'.allFiles = w.drive.allFiles)
    (hcnt : d'.fileCnt = w.drive.fileCnt)
    (hfile : ∀ x ∈ w.handles, (d'.file x).entries = (w.drive.file x).entries ∧
      (d'.file x).dirCnt = (w.drive.file x).dirCnt) : Counted { w with drive := d' } where
  dirCnt p hp := by
    obtain ⟨h1, h2⟩ := hfile p hp
    simpa only [h1, h2] using h.dirCnt p hp
  fileCnt := by simpa only [hall, hcnt] using h.fileCnt

theorem edit (f : FileId) {g : VdfFile → VdfFile}
    (hg : ∀ a, (g a).entries = a.entries ∧ (g a).dirCnt = a.dirCnt) :
    Counted { w with drive := setDriveDirty (w.drive.modifyFile f g) } := by
  refine h.frame (by simp) (by simp) fun x _ => ?_
  simp only [setDriveDirty_file, VdfDrive.modifyFile_file]
  split
  · exact hg _
  · exact ⟨rfl, rfl⟩

theorem relaid {d' : VdfDrive} (hr : Relaid w.drive d') : Counted { w with drive := d' } :=
  h.frame hr.allFiles hr.fileCnt fun x _ => ⟨hr.entries x, hr.dirCnt x⟩

theorem move (hr : Rooted w) {f p np : FileId} (hp : (w.drive.file f).parent = some p)
    (hne : p ≠ np) : Counted { w with drive := relinkFile w.drive f p np } where
  dirCnt x hx := by
    have hmem := hr.linked.mem_of_child f p hp (by simp [hr.unbroken])
    have hcnt := h.dirCnt x hx
    simp only [relinkFile_eq _ hne, relist_file]
    split_ifs with h1 h2
    · rw [List.length_cons, hcnt]
    · subst h2
      rw [List.length_erase_of_mem hmem, hcnt]
    · exact hcnt
  fileCnt := by simpa [relinkFile_eq _ hne] using h.fileCnt

theorem step (hr : Rooted w) (hok : KeepsCounters w c) (hs : w.Step qsort c r w') : Counted w' := by
  obtain ⟨htree, hlate, hdel⟩ := hok
  obtain ⟨hdoes, hw', fuel, hu⟩ := hr.linked.does hs
  rw [hw']
  generalize w'.drive = d' at hdoes
  cases hdoes with
  | refused => exact h
  | createFailed hc ha hcheck hp late =>
    exact (hlate ⟨_, _, _, hc, ha, hcheck, late.imp_right shortnameOf_eq_none.1⟩).elim
  | created hc ha hcheck hshort =>
    rename_i p name f s l
    have hf := hs.alloc f ha
    obtain ⟨dirs, e, -⟩ := Linked.after_create (addFile w.drive p f
      (c.newFile w.drive.bpc p name s l)) hc ha
    rw [e]
    refine ⟨fun x hx => ?_, by simp [addFile, h.fileCnt]⟩
    simp only [addFile, relist_file]
    split_ifs with h1 h2
    · simp
    · simp [h.dirCnt x (List.mem_of_ne_of_mem h1 hx)]
    · exact h.dirCnt x (List.mem_of_ne_of_mem h1 hx)
  | deleted hd hroot hlock => exact (hdel _ rfl ⟨hd, hroot, hlock⟩).elim
  | stays hcheck hp => exact h
  | moved hcheck hp hne hfind hshort =>
    refine (h.move hr hp hne).frame rfl rfl fun x _ => ?_
    simp only [VdfDrive.modifyFile_file]
    split <;> exact ⟨rfl, rfl⟩
  | moveFailed hcheck hp hne hfind hs => exact h.move hr hp hne
  | up | down => exact htree.elim
  | renamed => exact h.edit _ fun _ => ⟨rfl, rfl⟩
  | renameFailed => exact h.edit _ fun _ => ⟨rfl, rfl⟩
  | shortRenamed => exact h.edit _ fun _ => ⟨rfl, rfl⟩
  | sized => exact h.edit _ fun _ => ⟨rfl, rfl⟩
  | fatSized => exact h.edit _ fun _ => ⟨rfl, rfl⟩
  | dated => exact h.edit _ fun _ => ⟨rfl, rfl⟩
  | attrSet => exact h.edit _ fun _ => ⟨rfl, rfl⟩
  | labelled => exact h.frame (by simp) (by simp) (by simp)
  | labelLost => exact h.frame rfl rfl fun _ _ => ⟨rfl, rfl⟩
  | serialSet => exact h.frame rfl rfl fun _ _ => ⟨rfl, rfl⟩
  | clean => exact h
  | laidOut _ _ _ hrec => exact h.relaid (vdfDriveRecalc_relaid hrec)
  | layoutFailed _ _ _ _ hrec => exact h.relaid (vdfDriveRecalc_relaid hrec)
  | locked => exact h.frame rfl rfl fun _ _ => ⟨rfl, rfl⟩
  | laidOutLocked _ _ _ hrec =>
    have hrec := vdfDriveRecalc_relaid hrec
    exact h.frame hrec.allFiles hrec.fileCnt fun x _ => ⟨hrec.entries x, hrec.dirCnt x⟩
  | unlocked => exact h.frame rfl rfl fun _ _ => ⟨rfl, rfl⟩
  | recreated _ _ hrec =>
    have hmem := hr.linked.mem_allFiles w.drive.rootDir
    simp only [hr.linked.root_mem, ↓reduceIte, true_and] at hmem
    have hcnt := h.fileCnt
    obtain ⟨g, -, rfl⟩ := Option.map_eq_some_iff.1 hrec
    dsimp only
    split_ifs with hold hnew hnew
    · refine ⟨h.dirCnt, ?_⟩
      simp only [World.after, World.note, List.length_erase_of_mem (hmem.2 hold), hcnt]
    · exact .mk h.dirCnt hcnt
    · exact .mk h.dirCnt (by simp [World.after, World.note, hcnt])
    · exact .mk h.dirCnt hcnt

end Counted

/-- In every run that deletes no file, in which no creation fails behind its checks and no directory
is moved below itself, the counters agree with the lists. -/
theorem counters_agree (hcreate : World.create size flags ext junk = some w₀)
    (run : Run qsort KeepsCounters w₀ w) : CountersAgree w.drive := by
  have h := run.induct (P := fun w => Rooted w ∧ Counted w)
    ⟨rooted_create hcreate, counted_create hcreate⟩ fun hok h hs =>
      ⟨h.1.step hok.1 hs, h.2.step h.1 hok hs⟩
  exact h.2.agree h.1

/-- A file that is deleted stays in the count of its directory. -/
theorem deletion_keeps_dirCnt :
    ∃ w, sampleRun [sampleDir, sampleFile, .deleteFile 2] = some w ∧ Reachable id w ∧
      ¬ CountersAgree w.drive := by
  obtain ⟨w, h, hroot, hdir, hcnt⟩ := sampleRun_exists
    (l := [sampleDir, sampleFile, .deleteFile 2])
    (P := fun w => w.drive.rootDir = 0 ∧ (w.drive.file 0).isDir = true ∧
      (w.drive.file 0).dirCnt ≠ (w.drive.file 0).entries.length) (by decide)
  refine ⟨w, h, sampleRun_reachable h, fun hc => hcnt (hc.dirCnt 0 ?_ hdir)⟩
  rw [hroot]
  exact .refl _

theorem counters_agree_sample :
    ∃ w, sampleRun [sampleDir, sampleFile, .moveFile 2 1] = some w ∧ CountersAgree w.drive := by
  obtain ⟨w₀, w₂, hcreate, run, h₂⟩ := sample_run (k := KeepsCounters)
    (fun _ => ⟨trivial, not_createFailsLate rfl (by decide), nofun⟩)
    fun _ => ⟨trivial, not_createFailsLate rfl (by decide), nofun⟩
  obtain ⟨w, h, -⟩ := sampleRun_exists (l := [sampleDir, sampleFile, .moveFile 2 1])
    (P := fun _ => True) (by decide)
  exact ⟨w, h, counters_agree hcreate (run.stepTo
    ⟨sample_keepsTree h₂, not_createFailsLate rfl (by decide), nofun⟩ (sampleRun_concat h₂ h))⟩

end Runs

end Vdf
