import Vdf.Effect
import Vdf.Relayout

/-!
# The links of a drive

`Linked` holds in every state of a run: the pointers of the structures agree with the lists, as far as
no list was broken. It says nothing about cycles, nor that a directory is not deleted while it has
entries; the code keeps neither.
-/

namespace Vdf

/-- The lists and pointers of a world agree. -/
structure Linked (w : World) : Prop where
  root_mem : w.drive.rootDir ∈ w.handles
  root_parent : (w.drive.file w.drive.rootDir).parent = none
  root_live : (w.drive.file w.drive.rootDir).deleted = false
  outside : ∀ x, x ∉ w.handles → (w.drive.file x).parent = none ∧ (w.drive.file x).entries = []
  parent_mem : ∀ x p, w.drive.Child x p → p ∈ w.dirs
  child_live : ∀ x p, w.drive.Child x p → (w.drive.file x).deleted = false
  dirs_mem : ∀ p ∈ w.dirs, p ∈ w.handles
  orphan : ∀ x ∈ w.handles, (w.drive.file x).deleted = false → x ≠ w.drive.rootDir →
    (w.drive.file x).parent ≠ none
  child_of_mem : ∀ x p, x ∈ (w.drive.file p).entries → w.drive.Child x p
  mem_of_child : ∀ x p, w.drive.Child x p → p ∉ w.broken → x ∈ (w.drive.file p).entries
  nodup_entries : ∀ p, (w.drive.file p).entries.Nodup
  nodup_allFiles : w.drive.allFiles.Nodup
  mem_allFiles : ∀ x, x ∈ w.drive.allFiles ↔ x ∈ w.handles ∧
    if x = w.drive.rootDir then w.drive.filesys = .fat32 else (w.drive.file x).deleted = false
  fileCnt : w.drive.allFiles.length ≤ w.drive.fileCnt

/-! ## Files of a call -/

section Files

variable (d : VdfDrive) (p f x : FileId) (fil : VdfFile)

@[simp] theorem addFile_parent : ((addFile d p f fil).file x).parent =
    if x = f then fil.parent else (d.file x).parent := by
  simp only [addFile, relist_file]
  split_ifs <;> rfl

@[simp] theorem addFile_entries : ((addFile d p f fil).file x).entries =
    if x = f then fil.entries
    else if x = p then (d.file x).entries ++ [f] else (d.file x).entries := by
  simp only [addFile, relist_file]
  split_ifs <;> rfl

@[simp] theorem addFile_fileDeleted : ((addFile d p f fil).file x).deleted =
    if x = f then fil.deleted else (d.file x).deleted := by
  simp only [addFile, relist_file]
  split_ifs <;> rfl

@[simp] theorem dropFile_parent : ((dropFile d p f fil).file x).parent =
    if x = f then none else (d.file x).parent := by
  simp only [dropFile, relist_file]
  split_ifs <;> rfl

@[simp] theorem dropFile_entries : ((dropFile d p f fil).file x).entries =
    if x = f then fil.entries else (d.file x).entries := by
  simp only [dropFile, relist_file]
  split_ifs <;> rfl

@[simp] theorem dropFile_fileDeleted : ((dropFile d p f fil).file x).deleted =
    if x = f then true else (d.file x).deleted := by
  simp only [dropFile, relist_file]
  split_ifs <;> rfl

end Files

/-- `d'` is `d` with the file `f` put under the parent `t`; it is freed when there is none. -/
structure Relinked (d d' : VdfDrive) (f : FileId) (t : Option FileId) : Prop where
  rootDir : d'.rootDir = d.rootDir
  filesys : d'.filesys = d.filesys
  child : ∀ x q, d'.Child x q ↔ x = f ∧ t = some q ∨ x ≠ f ∧ d.Child x q
  entries : ∀ x q, x ∈ (d'.file q).entries ↔ x = f ∧ t = some q ∨ x ≠ f ∧ x ∈ (d.file q).entries
  nodup : ∀ q, (d'.file q).entries.Nodup
  freed : (d'.file f).deleted = t.isNone
  deleted : ∀ x, x ≠ f → (d'.file x).deleted = (d.file x).deleted
  nodup_allFiles : d'.allFiles.Nodup
  allFiles : ∀ x, x ∈ d'.allFiles ↔ x = f ∧ t ≠ none ∨ x ≠ f ∧ x ∈ d.allFiles
  fileCnt : d'.allFiles.length ≤ d'.fileCnt

/-! ## From a step to its cases -/

section Step

variable {qsort : List FileRange → List FileRange} {w w' : World} {c : Call}
  {r : Except Errno Unit}

/-- A step is an `apply` that is defined. -/
theorem World.Step.apply (h : w.Step qsort c r w') :
    ∃ fuel d', w.undef fuel c = none ∧ c.apply qsort fuel w.drive = some (r, d') ∧
      w' = w.after c r d' := by
  obtain ⟨fuel, hcall⟩ := h.call
  unfold World.call at hcall
  split at hcall
  · cases hcall
  · cases hcall
  · rename_i r d hu ha
    cases hcall
    exact ⟨fuel, d, hu, ha, rfl⟩

theorem World.after_drive (w : World) (c : Call) (r : Except Errno Unit) (d : VdfDrive) :
    (w.after c r d).drive = d := by
  unfold World.after World.note
  split
  · split <;> rfl
  · rfl

/-- The structures that the caller knows behind a call. -/
theorem World.after_handles (w : World) (c : Call) (r : Except Errno Unit) (d : VdfDrive) (x : FileId) :
    x ∈ (w.after c r d).handles ↔ x ∈ w.handles ∨ r = .ok () ∧ c.alloc = some x := by
  cases r with
  | error e => simp [World.after]
  | ok u =>
    cases c with
    | addDir _ _ a | addFileVirt _ _ _ a | addFileReal _ _ _ _ a =>
      cases a <;> simp [World.after, World.note, Call.alloc, or_comm, @eq_comm _ _ x]
    | _ => simp [World.after, World.note, Call.alloc]

/-- The structures with the union of a directory behind a call. -/
theorem World.after_dirs (w : World) (c : Call) (r : Except Errno Unit) (d : VdfDrive) (x : FileId) :
    x ∈ (w.after c r d).dirs ↔ x ∈ w.dirs ∨ r = .ok () ∧ c.addsDir = true ∧ c.alloc = some x := by
  cases r with
  | error e => simp [World.after]
  | ok u =>
    cases c with
    | addDir _ _ a | addFileVirt _ _ _ a | addFileReal _ _ _ _ a =>
      cases a <;> simp [World.after, World.note, Call.alloc, Call.addsDir, or_comm, @eq_comm _ _ x]
    | _ => simp [World.after, World.note, Call.alloc, Call.addsDir]

/-- Only `vdf_file_up` and `vdf_file_down` break links. -/
theorem World.after_broken (w : World) {c : Call} (r : Except Errno Unit) (d : VdfDrive)
    (hup : ∀ f, c ≠ .fileUp f) (hdown : ∀ f, c ≠ .fileDown f) : (w.after c r d).broken = w.broken := by
  cases r with
  | error e => rfl
  | ok u =>
    cases c with
    | addDir _ _ a | addFileVirt _ _ _ a | addFileReal _ _ _ _ a => cases a <;> rfl
    | fileUp f => exact absurd rfl (hup f)
    | fileDown f => exact absurd rfl (hdown f)
    | _ => rfl

namespace Linked

variable (hw : Linked w)
include hw

/-- A structure that `malloc` returns is new. -/
theorem fresh {f : FileId} (hf : f ∉ w.handles) : w.drive.Fresh f where
  ne_root e := hf (e ▸ hw.root_mem)
  not_mem h := hf ((hw.mem_allFiles f).1 h).1
  parent := (hw.outside f hf).1
  entries := (hw.outside f hf).2
  not_parent x h := hf (hw.dirs_mem f (hw.parent_mem x f h))
  not_entry x h := by
    have h := hw.child_of_mem f x h
    rw [VdfDrive.Child, (hw.outside f hf).1] at h
    cases h

/-- What a step does, in terms of the drive before it and behind it. -/
theorem does (h : w.Step qsort c r w') :
    Does qsort w.drive c r w'.drive ∧ w' = w.after c r w'.drive ∧
      ∃ fuel, w.undef fuel c = none := by
  obtain ⟨fuel, d', hu, ha, rfl⟩ := h.apply
  rw [World.after_drive]
  exact ⟨does_of_apply (fun f hf => ⟨hw.fresh (h.alloc f hf), fun hmem =>
    h.alloc f hf (h.files f hmem)⟩) ha, rfl, fuel, hu⟩

/-- The links of the files in use stay, and so does all that the lists are about. -/
theorem frame {d' : VdfDrive} (hroot : d'.rootDir = w.drive.rootDir)
    (hfs : d'.filesys = w.drive.filesys) (hall : d'.allFiles = w.drive.allFiles)
    (hcnt : w.drive.fileCnt ≤ d'.fileCnt)
    (hparent : ∀ x, (d'.file x).parent = (w.drive.file x).parent)
    (hentries : ∀ x, (d'.file x).entries = (w.drive.file x).entries)
    (hdel : ∀ x ∈ w.handles, (d'.file x).deleted = (w.drive.file x).deleted) :
    Linked { w with drive := d' } where
  root_mem := by simpa [hroot] using hw.root_mem
  root_parent := by simpa [hroot, hparent] using hw.root_parent
  root_live := by simpa [hroot, hdel _ hw.root_mem] using hw.root_live
  outside x hx := by simpa [hparent, hentries] using hw.outside x hx
  parent_mem x p h := hw.parent_mem x p (by simpa [VdfDrive.Child, hparent] using h)
  child_live x p h := by
    have h : w.drive.Child x p := by simpa [VdfDrive.Child, hparent] using h
    have hx : x ∈ w.handles := by
      by_contra hx
      rw [VdfDrive.Child, (hw.outside x hx).1] at h
      cases h
    simpa [hdel x hx] using hw.child_live x p h
  dirs_mem := hw.dirs_mem
  orphan x hx hd hr := by
    rw [hparent]
    exact hw.orphan x hx (by simpa [hdel x hx] using hd) (by simpa [hroot] using hr)
  child_of_mem x p h := by
    have := hw.child_of_mem x p (by simpa [hentries] using h)
    simpa [VdfDrive.Child, hparent] using this
  mem_of_child x p h hp := by
    have := hw.mem_of_child x p (by simpa [VdfDrive.Child, hparent] using h) hp
    simpa [hentries] using this
  nodup_entries p := by simpa [hentries] using hw.nodup_entries p
  nodup_allFiles := by simpa [hall] using hw.nodup_allFiles
  mem_allFiles x := by
    simp only [hall, hroot, hfs, hw.mem_allFiles x]
    refine and_congr_right fun hx => ?_
    rw [hdel x hx]
  fileCnt := by simpa [hall] using hw.fileCnt.trans hcnt

theorem handle_of_child {x p : FileId} (h : w.drive.Child x p) : x ∈ w.handles := by
  by_contra hx
  rw [VdfDrive.Child, (hw.outside x hx).1] at h
  cases h

theorem handle_of_entries {x p : FileId} (h : x ∈ (w.drive.file p).entries) : p ∈ w.handles := by
  by_contra hp
  rw [(hw.outside p hp).2] at h
  cases h

/-- One file gets another parent, or none. -/
theorem relink {w' : World} {f : FileId} {t : Option FileId} (hr : Relinked w.drive w'.drive f t)
    (hf : f ≠ w.drive.rootDir) (ht : ∀ q ∈ t, q ∈ w.dirs)
    (hh : ∀ x, x ∈ w'.handles ↔ x = f ∨ x ∈ w.handles) (hsub : w.dirs ⊆ w'.dirs)
    (hdirs : w'.dirs ⊆ f :: w.dirs) (hb : w'.broken = w.broken) : Linked w' where
  root_mem := by rw [hr.rootDir, hh]; exact .inr hw.root_mem
  root_parent := by
    rw [hr.rootDir, Option.eq_none_iff_forall_ne_some]
    intro q hq
    rcases (hr.child _ q).1 hq with ⟨e, -⟩ | ⟨-, h⟩
    · exact hf e.symm
    · rw [VdfDrive.Child, hw.root_parent] at h
      cases h
  root_live := by rw [hr.rootDir, hr.deleted _ hf.symm]; exact hw.root_live
  outside x hx := by
    obtain ⟨hxf, hx⟩ := not_or.1 (mt (hh x).2 hx)
    constructor
    · rw [Option.eq_none_iff_forall_ne_some]
      intro q hq
      rcases (hr.child x q).1 hq with ⟨e, -⟩ | ⟨-, h⟩
      · exact hxf e
      · exact hx (hw.handle_of_child h)
    · rw [List.eq_nil_iff_forall_not_mem]
      intro y hy
      rcases (hr.entries y x).1 hy with ⟨-, e⟩ | ⟨-, h⟩
      · exact hx (hw.dirs_mem x (ht x e))
      · exact hx (hw.handle_of_entries h)
  parent_mem x q h := by
    rcases (hr.child x q).1 h with ⟨-, e⟩ | ⟨-, h⟩
    · exact hsub (ht q e)
    · exact hsub (hw.parent_mem x q h)
  child_live x q h := by
    rcases (hr.child x q).1 h with ⟨rfl, e⟩ | ⟨hx, h⟩
    · rw [hr.freed, e]; rfl
    · rw [hr.deleted x hx]; exact hw.child_live x q h
  dirs_mem q hq := by
    rw [hh]
    exact (List.mem_cons.1 (hdirs hq)).imp_right (hw.dirs_mem q)
  orphan x hx hd hroot := by
    by_cases hxf : x = f
    · subst hxf
      rw [hr.freed] at hd
      obtain ⟨q, hq⟩ := Option.isSome_iff_exists.1 (Option.isNone_eq_false_iff.1 hd)
      have : w'.drive.Child x q := (hr.child x q).2 (.inl ⟨rfl, hq⟩)
      rw [this]
      simp
    · rw [hr.deleted x hxf] at hd
      obtain ⟨q, hq⟩ := Option.ne_none_iff_exists'.1
        (hw.orphan x (((hh x).1 hx).resolve_left hxf) hd (hr.rootDir ▸ hroot))
      have : w'.drive.Child x q := (hr.child x q).2 (.inr ⟨hxf, hq⟩)
      rw [this]
      simp
  child_of_mem x q h := by
    rw [hr.child]
    exact ((hr.entries x q).1 h).imp_right fun h => ⟨h.1, hw.child_of_mem x q h.2⟩
  mem_of_child x q h hq := by
    rw [hr.entries]
    exact ((hr.child x q).1 h).imp_right fun h => ⟨h.1, hw.mem_of_child x q h.2 (hb ▸ hq)⟩
  nodup_entries := hr.nodup
  nodup_allFiles := hr.nodup_allFiles
  mem_allFiles x := by
    rw [hr.allFiles, hh, hr.rootDir, hr.filesys]
    by_cases hx : x = f
    · subst hx
      simp [hf, hr.freed, Option.ne_none_iff_isSome]
    · simp [hx, hr.deleted x hx, hw.mem_allFiles x]
  fileCnt := hr.fileCnt

/-! ## The calls that change links -/

/-- A new file at the end of a directory. -/
theorem addFile_relinked {p f : FileId} {fil : VdfFile} (hf : f ∉ w.handles) (hp : p ∈ w.dirs)
    (hpar : fil.parent = some p) (hent : fil.entries = []) (hdel : fil.deleted = false) :
    Relinked w.drive (addFile w.drive p f fil) f (some p) := by
  have hfresh := hw.fresh hf
  have hpf : p ≠ f := fun e => hf (e ▸ hw.dirs_mem p hp)
  refine ⟨by simp [addFile], by simp [addFile], fun x q => ?_, fun x q => ?_, fun q => ?_, ?_,
    fun x hx => ?_, ?_, fun x => ?_, ?_⟩
  · rw [VdfDrive.Child, addFile_parent]
    by_cases hx : x = f <;> simp [hx, hpar, VdfDrive.Child]
  · have hfq := hfresh.not_entry q
    rw [addFile_entries]
    by_cases hq : q = f
    · subst hq
      simp [hent, hfresh.entries, hpf]
    · by_cases hqp : q = p
      · subst hqp
        by_cases hx : x = f <;> simp [hq, hx]
      · by_cases hx : x = f <;> simp [hq, hqp, hx, hfq, Ne.symm hqp]
  · rw [addFile_entries]
    split_ifs
    · simp [hent]
    · rw [← List.concat_eq_append]
      exact .concat (hfresh.not_entry q) (hw.nodup_entries q)
    · exact hw.nodup_entries q
  · simp [hdel]
  · simp [hx]
  · rw [addFile, relist_allFiles, ← List.concat_eq_append]
    exact .concat hfresh.not_mem hw.nodup_allFiles
  · simp only [addFile, relist_allFiles, List.mem_append, List.mem_singleton]
    by_cases hx : x = f <;> simp [hx]
  · simpa [addFile] using hw.fileCnt

/-- A file that is deleted. What it has as entries keeps it as parent. -/
theorem removeFile_relinked {f : FileId} (hf : f ∈ w.handles) (hr : f ≠ w.drive.rootDir)
    (hd : (w.drive.file f).deleted = false) : Relinked w.drive (removeFile w.drive f) f none := by
  have hmem : f ∈ w.drive.allFiles := (hw.mem_allFiles f).2 ⟨hf, by simp [hr, hd]⟩
  have hpos : 0 < w.drive.allFiles.length := List.length_pos_of_mem hmem
  refine ⟨by simp [removeFile], by simp [removeFile], fun x q => ?_, fun x q => ?_, fun q => ?_,
    by simp [removeFile], fun x hx => by simp [removeFile, hx], ?_, fun x => ?_, ?_⟩
  · by_cases hx : x = f <;> simp [removeFile, VdfDrive.Child, hx]
  · by_cases hq : (w.drive.file f).parent = some q
    · simp [removeFile, hq, (hw.nodup_entries q).mem_erase_iff]
    · have hfq : f ∉ (w.drive.file q).entries := fun h => hq (hw.child_of_mem f q h)
      by_cases hx : x = f <;> simp [removeFile, hq, hx, hfq]
  · simp only [removeFile, relist_file]
    split_ifs
    · exact (hw.nodup_entries q).erase f
    · exact hw.nodup_entries q
  · exact hw.nodup_allFiles.erase f
  · simp [removeFile, hw.nodup_allFiles.mem_erase_iff]
  · have := hw.fileCnt
    simp only [removeFile, relist_allFiles, relist_fileCnt, List.length_erase_of_mem hmem]
    omega

/-- A file that is moved. -/
theorem relinkFile_relinked {f p np : FileId} (hd : (w.drive.file f).deleted = false)
    (hp : (w.drive.file f).parent = some p) (hne : p ≠ np) :
    Relinked w.drive (relinkFile w.drive f p np) f (some np) := by
  have hnot : f ∉ (w.drive.file np).entries := fun h =>
    hne (Option.some.inj (hp.symm.trans (hw.child_of_mem f np h)))
  have hf : f ≠ w.drive.rootDir := by
    rintro rfl
    rw [hw.root_parent] at hp
    cases hp
  have hmem : f ∈ w.drive.allFiles :=
    (hw.mem_allFiles f).2 ⟨hw.handle_of_child hp, by simp [hf, hd]⟩
  rw [relinkFile_eq _ hne]
  refine ⟨by simp, by simp, fun x q => ?_, fun x q => ?_, fun q => ?_, by simp [hd], fun x hx => by simp,
    hw.nodup_allFiles, fun x => ?_, hw.fileCnt⟩
  · by_cases hx : x = f <;> simp [VdfDrive.Child, hx]
  · by_cases hq : q = np
    · subst hq
      by_cases hx : x = f <;> simp [hx]
    · by_cases hqp : q = p
      · simp [hqp, hne, Ne.symm hne, (hw.nodup_entries p).mem_erase_iff]
      · have hfq : f ∉ (w.drive.file q).entries := fun h =>
          hqp (Option.some.inj ((hw.child_of_mem f q h).symm.trans hp))
        by_cases hx : x = f <;> simp [hq, hqp, hx, hfq, Ne.symm hq]
  · simp only [relist_file]
    split_ifs with hq hqp
    · subst hq
      exact List.nodup_cons.2 ⟨hnot, hw.nodup_entries q⟩
    · exact (hw.nodup_entries q).erase f
    · exact hw.nodup_entries q
  · by_cases hx : x = f <;> simp [hx, hmem]

/-- The entries of a directory go on without one of them: the links of the directory are broken. -/
theorem reorder {p y : FileId} (hp : p ∈ w.handles) :
    Linked { w with
      drive := setDriveDirty
        (w.drive.modifyFile p fun dir => { dir with entries := dir.entries.erase y })
      broken := p :: w.broken } := by
  have hparent : ∀ x, ((w.drive.modifyFile p fun dir =>
      { dir with entries := dir.entries.erase y }).file x).parent = (w.drive.file x).parent := by
    intro x
    rw [VdfDrive.modifyFile_file]
    split <;> rfl
  have hdel : ∀ x, ((w.drive.modifyFile p fun dir =>
      { dir with entries := dir.entries.erase y }).file x).deleted = (w.drive.file x).deleted := by
    intro x
    rw [VdfDrive.modifyFile_file]
    split <;> rfl
  have hentries : ∀ x, ((w.drive.modifyFile p fun dir =>
      { dir with entries := dir.entries.erase y }).file x).entries =
      if x = p then (w.drive.file x).entries.erase y else (w.drive.file x).entries := by
    intro x
    rw [VdfDrive.modifyFile_file]
    split <;> rfl
  constructor
  · simpa using hw.root_mem
  · simpa [hparent] using hw.root_parent
  · simpa [hdel] using hw.root_live
  · intro x hx
    have hxp : x ≠ p := fun e => hx (e ▸ hp)
    simpa [hparent, hentries, hxp] using hw.outside x hx
  · intro x q h
    exact hw.parent_mem x q (by simpa [VdfDrive.Child, hparent] using h)
  · intro x q h
    simpa [hdel] using hw.child_live x q (by simpa [VdfDrive.Child, hparent] using h)
  · exact hw.dirs_mem
  · intro x hx hd hr
    simpa [hparent] using hw.orphan x hx (by simpa [hdel] using hd) (by simpa using hr)
  · intro x q h
    have h : x ∈ (w.drive.file q).entries := by
      rw [setDriveDirty_file, hentries] at h
      split at h
      · exact List.mem_of_mem_erase h
      · exact h
    simpa [VdfDrive.Child, hparent] using hw.child_of_mem x q h
  · intro x q h hq
    obtain ⟨hqp, hq⟩ := not_or.1 (mt List.mem_cons.2 hq)
    simpa [hentries, hqp] using
      hw.mem_of_child x q (by simpa [VdfDrive.Child, hparent] using h) hq
  · intro q
    rw [setDriveDirty_file, hentries]
    split
    · exact (hw.nodup_entries q).erase y
    · exact hw.nodup_entries q
  · simpa using hw.nodup_allFiles
  · intro x
    simpa [hdel] using hw.mem_allFiles x
  · simpa using hw.fileCnt

/-- Another list of all files. -/
theorem relist {d' : VdfDrive} (hroot : d'.rootDir = w.drive.rootDir)
    (hfile : d'.file = w.drive.file) (hnodup : d'.allFiles.Nodup)
    (hall : ∀ x, x ∈ d'.allFiles ↔ x ∈ w.handles ∧
      if x = w.drive.rootDir then d'.filesys = .fat32 else (w.drive.file x).deleted = false)
    (hcnt : d'.allFiles.length ≤ d'.fileCnt) : Linked { w with drive := d' } where
  root_mem := by simpa [hroot] using hw.root_mem
  root_parent := by simpa [hroot, hfile] using hw.root_parent
  root_live := by simpa [hroot, hfile] using hw.root_live
  outside x hx := by simpa [hfile] using hw.outside x hx
  parent_mem x p h := hw.parent_mem x p (by simpa [VdfDrive.Child, hfile] using h)
  child_live x p h := by
    simpa [hfile] using hw.child_live x p (by simpa [VdfDrive.Child, hfile] using h)
  dirs_mem := hw.dirs_mem
  orphan x hx hd hr := by
    simpa [hfile] using hw.orphan x hx (by simpa [hfile] using hd) (by simpa [hroot] using hr)
  child_of_mem x p h := by
    simpa [VdfDrive.Child, hfile] using hw.child_of_mem x p (by simpa [hfile] using h)
  mem_of_child x p h hp := by
    simpa [hfile] using hw.mem_of_child x p (by simpa [VdfDrive.Child, hfile] using h) hp
  nodup_entries p := by simpa [hfile] using hw.nodup_entries p
  nodup_allFiles := hnodup
  mem_allFiles x := by simpa [hroot, hfile] using hall x
  fileCnt := hcnt

/-- A drive that is created again: the root is in `all_files` on FAT32 only. -/
theorem recreate {size flags : Nat} {ext : DriveExt} {junk : Uninit} {d' : VdfDrive}
    (h : createdriveExt (some w.drive) size flags ext junk = some d') :
    Linked { w with drive := d' } := by
  obtain ⟨g, -, rfl⟩ := Option.map_eq_some_iff.1 h
  have hroot := hw.mem_allFiles w.drive.rootDir
  simp only [hw.root_mem, ↓reduceIte, true_and] at hroot
  have hlen := hw.fileCnt
  dsimp only
  split_ifs with hold hnew hnew
  · refine hw.relist rfl rfl (hw.nodup_allFiles.erase _) (fun x => ?_) ?_
    · rw [hw.nodup_allFiles.mem_erase_iff, hw.mem_allFiles x]
      by_cases hx : x = w.drive.rootDir <;> simp [hx, hnew]
    · simp only [List.length_erase_of_mem (hroot.2 hold)]
      omega
  · refine hw.relist rfl rfl hw.nodup_allFiles (fun x => ?_) hlen
    rw [hw.mem_allFiles x]
    simp only [not_not] at hnew
    by_cases hx : x = w.drive.rootDir <;> simp [hx, hnew, hold]
  · refine hw.relist rfl rfl ?_ (fun x => ?_) (by simpa using hlen)
    · rw [← List.concat_eq_append]
      exact .concat (mt hroot.1 hold) hw.nodup_allFiles
    · rw [List.mem_append, List.mem_singleton, hw.mem_allFiles x]
      by_cases hx : x = w.drive.rootDir <;> simp [hx, hnew, hw.root_mem]
  · refine hw.relist rfl rfl hw.nodup_allFiles (fun x => ?_) hlen
    rw [hw.mem_allFiles x]
    by_cases hx : x = w.drive.rootDir <;> simp [hx, hnew, hold]

/-! ## Every step keeps the links -/

/-- A write to one file that keeps its links. -/
theorem modifyFile (f : FileId) {g : VdfFile → VdfFile}
    (hg : ∀ a, (g a).parent = a.parent ∧ (g a).entries = a.entries ∧ (g a).deleted = a.deleted) :
    Linked { w with drive := w.drive.modifyFile f g } := by
  refine hw.frame rfl rfl rfl (Nat.le_refl _) (fun x => ?_) (fun x => ?_) fun x _ => ?_ <;>
    rw [VdfDrive.modifyFile_file] <;> split
  · exact (hg _).1
  · rfl
  · exact (hg _).2.1
  · rfl
  · exact (hg _).2.2
  · rfl

theorem dirty : Linked { w with drive := setDriveDirty w.drive } :=
  hw.frame (by simp) (by simp) (by simp) (by simp) (by simp) (by simp) (by simp)

theorem edit (f : FileId) {g : VdfFile → VdfFile}
    (hg : ∀ a, (g a).parent = a.parent ∧ (g a).entries = a.entries ∧ (g a).deleted = a.deleted) :
    Linked { w with drive := setDriveDirty (w.drive.modifyFile f g) } :=
  (hw.modifyFile f hg).dirty

/-- A move. -/
theorem move {f p np : FileId} (hcheck : moveCheck w.drive f np = none)
    (hp : (w.drive.file f).parent = some p) (hne : p ≠ np) (hnp : np ∈ w.dirs) :
    Linked { w with drive := relinkFile w.drive f p np } := by
  have hf : f ≠ w.drive.rootDir := by
    rintro rfl
    rw [hw.root_parent] at hp
    cases hp
  exact hw.relink (hw.relinkFile_relinked (moveCheck_eq_none.1 hcheck).1 hp hne) hf
    (by simpa using hnp)
    (fun x => ⟨.inr, fun hx => hx.elim (fun e => by rw [e]; exact hw.handle_of_child hp) id⟩)
    (fun _ h => h) (fun _ h => .tail _ h) rfl

/-- A recalculation. -/
theorem relaid {d' : VdfDrive} (h : Relaid w.drive d') : Linked { w with drive := d' } :=
  hw.frame h.rootDir (by rw [h.geometry]) h.allFiles (Nat.le_of_eq h.fileCnt.symm) h.parent
    h.entries fun x _ => h.fileDeleted x

omit hw in
/-- `create_file` is defined only in a directory. -/
theorem undef_create {fuel : Nat} {p : FileId} {name : List UInt8}
    (hc : c.creates = some (p, name)) (hu : w.undef fuel c = none)
    (hcheck : createCheck w.drive p name = none) : p ∈ w.dirs := by
  have hu : w.createUndef p name c.alloc = none := by
    cases c <;> first
      | (simp only [World.undef, hc] at hu; exact hu)
      | simp [Call.creates] at hc
  obtain ⟨h1, h2, h3, -, h4, -⟩ := createCheck_eq_none.1 hcheck
  by_contra hp
  simp [World.createUndef, h1, h2, h3, h4, hp] at hu

omit hw in
/-- So is a move. -/
theorem undef_move {fuel : Nat} {f p np : FileId} (hu : w.undef fuel (.moveFile f np) = none)
    (hcheck : moveCheck w.drive f np = none) (hp : (w.drive.file f).parent = some p)
    (hne : p ≠ np) : np ∈ w.dirs := by
  by_contra hnp
  simp [World.undef, hcheck, hp, hne, hnp] at hu

omit hw in
/-- The structures that are known once a file was created. -/
theorem after_create {p f : FileId} {name : List UInt8} (d : VdfDrive)
    (hc : c.creates = some (p, name)) (ha : c.alloc = some f) :
    ∃ dirs, w.after c (.ok ()) d = ⟨d, f :: w.handles, dirs, w.broken⟩ ∧
      dirs = if c.addsDir then f :: w.dirs else w.dirs := by
  cases c <;> first
    | simp [Call.creates] at hc; done
    | (simp only [Call.alloc] at ha; subst ha; exact ⟨_, rfl, rfl⟩)

/-- Every step keeps the links. -/
theorem step (h : w.Step qsort c r w') : Linked w' := by
  obtain ⟨hdoes, hw', fuel, hu⟩ := hw.does h
  rw [hw']
  generalize w'.drive = d' at hdoes
  cases hdoes with
  | refused => exact hw
  | createFailed hc ha hcheck hp late =>
    rename_i p name f fil
    have hf := h.alloc f ha
    refine hw.frame (by simp [dropFile]) (by simp [dropFile]) (by simp [dropFile])
      (by simp [dropFile]) (fun x => ?_) (fun x => ?_) fun x hx => ?_
    · by_cases hx : x = f
      · simp [hx, hw.outside f hf]
      · simp [hx]
    · by_cases hx : x = f
      · simp [hx, hp, hw.outside f hf]
      · simp [hx]
    · have hxf : x ≠ f := fun e => hf (e ▸ hx)
      simp [hxf]
  | created hc ha hcheck hs =>
    rename_i p name f s l
    have hf := h.alloc f ha
    have hp := undef_create hc hu hcheck
    obtain ⟨dirs, e, hdirs⟩ := after_create (addFile w.drive p f
      (c.newFile w.drive.bpc p name s l)) hc ha
    rw [e]
    refine hw.relink (hw.addFile_relinked hf hp (by simp) (by simp) (by simp)) (hw.fresh hf).ne_root
      (by simpa using hp) (by simp) ?_ ?_ rfl
    · rw [hdirs]; split <;> simp
    · rw [hdirs]; split <;> simp
  | deleted hd hr hl =>
    rename_i f
    have hf := h.files f (List.mem_singleton.2 rfl)
    exact hw.relink (hw.removeFile_relinked hf hr hd) hr (by simp)
      (fun x => ⟨.inr, fun hx => hx.elim (fun e => by rw [e]; exact hf) id⟩) (fun _ h => h)
      (fun _ h => .tail _ h) rfl
  | stays hcheck hp => exact hw
  | moved hcheck hp hne hfind hs =>
    exact (hw.move hcheck hp hne (undef_move hu hcheck hp hne)).modifyFile _ fun _ => ⟨rfl, rfl, rfl⟩
  | moveFailed hcheck hp hne hfind hs =>
    exact hw.move hcheck hp hne (undef_move hu hcheck hp hne)
  | up hp hl =>
    rename_i f p
    simp only [World.after, World.note, hp]
    exact hw.reorder (hw.dirs_mem p (hw.parent_mem f p hp))
  | down hp hl =>
    rename_i f p next
    simp only [World.after, World.note, hp]
    exact hw.reorder (hw.dirs_mem p (hw.parent_mem f p hp))
  | renamed => exact hw.edit _ fun _ => ⟨rfl, rfl, rfl⟩
  | renameFailed => exact hw.edit _ fun _ => ⟨rfl, rfl, rfl⟩
  | shortRenamed => exact hw.edit _ fun _ => ⟨rfl, rfl, rfl⟩
  | sized => exact hw.edit _ fun _ => ⟨rfl, rfl, rfl⟩
  | fatSized => exact hw.edit _ fun _ => ⟨rfl, rfl, rfl⟩
  | dated => exact hw.edit _ fun _ => ⟨rfl, rfl, rfl⟩
  | attrSet => exact hw.edit _ fun _ => ⟨rfl, rfl, rfl⟩
  | labelled => exact hw.frame (by simp) (by simp) (by simp) (by simp) (by simp) (by simp) (by simp)
  | labelLost => exact hw.frame rfl rfl rfl (Nat.le_refl _) (fun _ => rfl) (fun _ => rfl) fun _ _ => rfl
  | serialSet => exact hw.frame rfl rfl rfl (Nat.le_refl _) (fun _ => rfl) (fun _ => rfl) fun _ _ => rfl
  | clean => exact hw
  | laidOut _ _ _ h => exact hw.relaid (vdfDriveRecalc_relaid h)
  | layoutFailed _ _ _ _ h => exact hw.relaid (vdfDriveRecalc_relaid h)
  | locked => exact hw.frame rfl rfl rfl (Nat.le_refl _) (fun _ => rfl) (fun _ => rfl) fun _ _ => rfl
  | laidOutLocked _ _ _ hrec =>
    have hrec := hw.relaid (vdfDriveRecalc_relaid hrec)
    exact hrec.frame rfl rfl rfl (Nat.le_refl _) (fun _ => rfl) (fun _ => rfl) fun _ _ => rfl
  | unlocked => exact hw.frame rfl rfl rfl (Nat.le_refl _) (fun _ => rfl) (fun _ => rfl) fun _ _ => rfl
  | recreated _ _ h => exact hw.recreate h

end Linked

end Step

end Vdf
