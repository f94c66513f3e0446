import Vdf.Shortnames

/-!
# Paths

`create_file`, `vdf_set_file_name` and `vdf_move_file` look for the long name in the directory before
they give it to a file, with three sets of flags that all cover the long names. So the entries of a
directory have different long names, without slashes (`LongNames`), and `find_path` finds every file
by its long names (`findPath_finds`).
-/

namespace Vdf

open Word Relation

/-! ## `find_path` -/

/-- `/` or `\`. -/
def isSeparator (c : UInt8) : Bool := c == 0x2f || c == 0x5c

/-- `find_path`. `name` is what lies between `path` and `d`, and the list starts at `d`. -/
def findPath (d : VdfDrive) (flags : Nat) (dir : FileId) (name : List UInt8) :
    List UInt8 → Option FileId
  | [] => findFileSkip d dir name flags none
  | c :: rest =>
    if isSeparator c then
      match findFileSkip d dir name flags none with
      | none => none
      | some fil => if (d.file fil).isDir then findPath d flags fil [] rest else none
    else findPath d flags dir (name ++ [c]) rest

/-- `vdf_find_path`. -/
def vdfFindPath (d : VdfDrive) (dir : FileId) (path : List UInt8) (flags : Nat) :
    Except Errno FileId :=
  if (d.file dir).deleted ∨ !(d.file dir).isDir then .error .einval
  else match findPath d flags dir [] path with
    | some fil => .ok fil
    | none => .error .unset

/-! ## Specification -/

/-- The long names on the way from `dir` down to a file, with a separator between two of them. -/
inductive LongPath (d : VdfDrive) : FileId → FileId → List UInt8 → Prop where
  | entry {dir f : FileId} (hf : d.Child f dir) : LongPath d dir f (d.file f).name
  | down {dir sub f : FileId} {path : List UInt8} (c : UInt8) (hsub : d.Child sub dir)
      (hc : isSeparator c = true) (hpath : LongPath d sub f path) :
      LongPath d dir f ((d.file sub).name ++ c :: path)

/-- The entries of a directory have valid names that differ in more than case. -/
structure LongNames (d : VdfDrive) : Prop where
  valid : ∀ p, ∀ x ∈ (d.file p).entries, filenameValid (d.file x).name = true
  distinct : DistinctBy VdfFile.name d

/-- A call of the runs: a move that is accepted does not place a directory under itself, and a file
that is deleted is a regular one or an empty directory. -/
def KeepsPaths (w : World) : Call → Prop
  | .deleteFile f => DeleteAccepted w.drive f →
    (w.drive.file f).isDir = false ∨ (w.drive.file f).entries = []
  | c => KeepsTree w c

/-! ## Long names -/

section Names

variable {d d' : VdfDrive} {dir f : FileId} {name : List UInt8}

/-- A search that covers the long names. -/
theorem longname_ne_of_findFileSkip {flags : Nat} {skip : Option FileId}
    (hflags : hasFlag flags vffShortonly = false) (h : findFileSkip d dir name flags skip = none)
    {x : FileId} (hx : x ∈ (d.file dir).entries) (hne : some x ≠ skip) :
    sameName name (d.file x).name = false := by
  have h := List.find?_eq_none.1 h x hx
  simp only [nameMatches, hflags, Bool.not_false, Bool.true_and, Bool.and_eq_true, bne_iff_ne, ne_eq,
    hne, not_false_eq_true, true_and, Bool.or_eq_true, not_or, Bool.not_eq_true] at h
  exact h.1

/-- One file gets a name in a directory. -/
theorem LongNames.change (h : LongNames d) (f dir : FileId)
    (hmem : ∀ p, f ∈ (d'.file p).entries ↔ p = dir)
    (hent : ∀ p x, x ≠ f → (x ∈ (d'.file p).entries ↔ x ∈ (d.file p).entries))
    (hname : ∀ x, x ≠ f → (d'.file x).name = (d.file x).name)
    (hvalid : filenameValid (d'.file f).name = true)
    (hfree : ∀ x ∈ (d.file dir).entries, x ≠ f →
      sameName (d'.file f).name (d.file x).name = false) : LongNames d' := by
  refine ⟨fun p x hx => ?_, (DistinctBy.change_iff h.distinct hmem hent hname).2 hfree⟩
  by_cases hxf : x = f
  · rw [hxf]
    exact hvalid
  · rw [hname x hxf]
    exact h.valid p x ((hent p x hxf).1 hx)

theorem LongNames.frame (h : LongNames d)
    (hent : ∀ p x, x ∈ (d'.file p).entries → x ∈ (d.file p).entries)
    (hname : ∀ p x, x ∈ (d'.file p).entries → (d'.file x).name = (d.file x).name) :
    LongNames d' := by
  refine ⟨fun p x hx => ?_, h.distinct.frame hent hname⟩
  rw [hname p x hx]
  exact h.valid p x (hent p x hx)

theorem LongNames.edit (h : LongNames d) {g : VdfFile → VdfFile}
    (hg : ∀ a, (g a).entries = a.entries ∧ (g a).name = a.name) :
    LongNames (setDriveDirty (d.modifyFile f g)) := by
  refine h.frame (fun p x hx => ?_) fun _ x _ => edit_file VdfFile.name fun a => (hg a).2
  rwa [edit_file VdfFile.entries fun a => (hg a).1] at hx

theorem LongNames.relaid (h : LongNames d) (hr : Relaid d d') : LongNames d' :=
  h.frame (fun p _ hx => hr.entries p ▸ hx) fun _ x _ => hr.name x

/-- A file in a directory has a new name. -/
theorem LongNames.renamed {w : World} (h : LongNames w.drive) (hr : Rooted w)
    (hp : (w.drive.file f).parent = some dir) (hv : filenameValid name = true)
    (hfind : findFileSkip w.drive dir name vffLongonly (some f) = none) {g : VdfFile → VdfFile}
    (hg : ∀ a, (g a).entries = a.entries ∧ (g a).name = name) :
    LongNames (setDriveDirty (w.drive.modifyFile f g)) := by
  have hself : ((setDriveDirty (w.drive.modifyFile f g)).file f).name = name := by
    rw [setDriveDirty_file, VdfDrive.modifyFile_self]
    exact (hg _).2
  have hent : ∀ q, ((setDriveDirty (w.drive.modifyFile f g)).file q).entries =
      (w.drive.file q).entries := fun q => edit_file VdfFile.entries fun a => (hg a).1
  refine h.change f dir (fun q => ?_) (fun q x _ => by rw [hent]) (fun x hne => ?_)
    (hself.symm ▸ hv) fun x hx hne => ?_
  · rw [hent, hr.isTree.mem_entries]
    exact ⟨fun e => Option.some.inj (e.symm.trans hp), fun e => e ▸ hp⟩
  · rw [setDriveDirty_file, VdfDrive.modifyFile_ne _ _ hne]
  · rw [hself]
    exact longname_ne_of_findFileSkip (by decide) hfind hx fun e => hne (Option.some.inj e)

/-- A file with a new place, under its own name. -/
theorem LongNames.moved {w : World} (h : LongNames w.drive) (hr : Rooted w) {p np : FileId}
    (hd : (w.drive.file f).deleted = false) (hp : (w.drive.file f).parent = some p) (hne : p ≠ np)
    (hfind : findFileSkip w.drive np (w.drive.file f).name vffLongonly none = none) :
    LongNames (relinkFile w.drive f p np) := by
  have hlink := hr.linked.relinkFile_relinked hd hp hne
  have hname : ∀ x, ((relinkFile w.drive f p np).file x).name = (w.drive.file x).name := by
    intro x
    rw [relinkFile_eq _ hne, relist_file]
  refine h.change f np (fun q => ?_) (fun q x hx => ?_) (fun x _ => hname x) ?_ fun x hx hxf => ?_
  · rw [hlink.entries]
    simp [eq_comm]
  · rw [hlink.entries]
    simp [hx]
  · rw [hname]
    exact h.valid p f ((hr.isTree.mem_entries f p).2 hp)
  · rw [hname]
    exact longname_ne_of_findFileSkip (by decide) hfind hx (by simp)

end Names

/-! ## Runs -/

section Steps

variable {qsort : List FileRange → List FileRange} {w w' : World} {c : Call} {r : Except Errno Unit}

/-- A file in use that is no directory has no entries. -/
theorem Rooted.entries_regular (h : Rooted w) {f : FileId} (hd : (w.drive.file f).deleted = false)
    (hf : (w.drive.file f).isDir = false) : (w.drive.file f).entries = [] := by
  refine List.eq_nil_iff_forall_not_mem.mpr fun x hx => ?_
  have hdir := h.dir f (h.linked.parent_mem x f (h.linked.child_of_mem x f hx))
  simp [VdfFile.isDir, hd, hdir] at hf

theorem KeepsPaths.keepsTree (h : Rooted w) (hok : KeepsPaths w c) : KeepsTree w c := by
  cases c with
  | deleteFile f => exact fun hacc => (hok hacc).elim (h.entries_regular hacc.1) id
  | _ => exact hok

/-- Every step keeps the long names valid and distinct. -/
theorem LongNames.step (h : LongNames w.drive) (hr : Rooted w) (hok : KeepsTree w c)
    (hs : w.Step qsort c r w') : LongNames w'.drive := by
  obtain ⟨hdoes, -, fuel, hu⟩ := hr.linked.does hs
  generalize w'.drive = d' at hdoes
  cases hdoes with
  | refused => exact h
  | createFailed hc ha hcheck hent late =>
    rename_i p name f fil
    have hfresh := hr.linked.fresh (hs.alloc f ha)
    have hsub : ∀ {q x}, x ∈ ((dropFile w.drive p f fil).file q).entries →
        x ∈ (w.drive.file q).entries := by
      intro q x hx
      rw [dropFile_entries] at hx
      split at hx
      · simp [hent] at hx
      · exact hx
    refine h.frame (fun _ _ hx => hsub hx) fun q x hx => ?_
    have hxf : x ≠ f := fun e => hfresh.not_entry q (e ▸ hsub hx)
    simp only [dropFile, relist_file, hxf, ↓reduceIte]
    split <;> rfl
  | created hc ha hcheck hshort =>
    rename_i p name f s l
    have hf := hs.alloc f ha
    have hp := Linked.undef_create hc hu hcheck
    obtain ⟨-, -, -, -, hv, hfind⟩ := createCheck_eq_none.1 hcheck
    have hlink := hr.linked.addFile_relinked hf hp (c.newFile_parent w.drive.bpc p name s l)
      (c.newFile_entries w.drive.bpc p name s l) (c.newFile_deleted w.drive.bpc p name s l)
    have hself : ((addFile w.drive p f (c.newFile w.drive.bpc p name s l)).file f).name = name := by
      simp [addFile]
    refine h.change f p (fun q => ?_) (fun q x hx => ?_) (fun x hx => ?_) (hself.symm ▸ hv)
      fun x hx _ => ?_
    · rw [hlink.entries]
      simp [eq_comm]
    · rw [hlink.entries]
      simp [hx]
    · simp only [addFile, relist_file, hx, ↓reduceIte]
      split <;> rfl
    · rw [hself]
      exact longname_ne_of_findFileSkip (by decide) hfind hx (by simp)
  | deleted =>
    refine h.frame (fun q x hx => ?_) fun _ _ _ => rfl
    simp only [removeFile, relist_file] at hx
    split at hx
    · exact List.mem_of_mem_erase hx
    · exact hx
  | stays => exact h
  | moved hcheck hp hne hfind hshort =>
    refine (h.moved hr (moveCheck_eq_none.1 hcheck).1 hp hne hfind).frame (fun q x hx => ?_)
      fun q x _ => ?_
    · rw [VdfDrive.modifyFile_file] at hx
      split at hx <;> exact hx
    · rw [VdfDrive.modifyFile_file]
      split <;> rfl
  | moveFailed hcheck hp hne hfind => exact h.moved hr (moveCheck_eq_none.1 hcheck).1 hp hne hfind
  | up | down => exact hok.elim
  | renamed hd hp hlock hv hdup hfind hshort => exact h.renamed hr hp hv hfind fun _ => ⟨rfl, rfl⟩
  | renameFailed hd hp hlock hv hdup hfind hshort =>
    exact h.renamed hr hp hv hfind fun _ => ⟨rfl, rfl⟩
  | shortRenamed | sized | fatSized | dated | attrSet => exact h.edit fun _ => ⟨rfl, rfl⟩
  | labelled => exact h.frame (by simp) (by simp)
  | labelLost | serialSet | clean | locked | unlocked => exact h.frame (fun _ _ => id) fun _ _ _ => rfl
  | laidOut _ _ _ hrec => exact h.relaid (vdfDriveRecalc_relaid hrec)
  | layoutFailed _ _ _ _ hrec => exact h.relaid (vdfDriveRecalc_relaid hrec)
  | laidOutLocked _ _ _ hrec =>
    exact (h.relaid (vdfDriveRecalc_relaid hrec)).frame (fun _ _ => id) fun _ _ _ => rfl
  | recreated _ _ hrec =>
    have hfile := (createdriveExt_file hrec).2
    exact h.frame (by simp [hfile]) (by simp [hfile])

end Steps

/-! ## The way down -/

section Find

variable {d : VdfDrive} {dir f : FileId} {path : List UInt8}

theorem not_isSeparator {name : List UInt8} (h : filenameValid name = true) :
    ∀ c ∈ name, isSeparator c = false := by
  intro c hc
  have hall := of_decide_eq_true (List.all_eq_true.1 (Bool.and_eq_true_iff.1 h).2 c hc)
  simp only [List.mem_cons, not_or] at hall
  simp [isSeparator, hall.1, hall.2.1]

/-- The loop goes over a name. -/
theorem findPath_name (flags : Nat) (front : List UInt8) {name : List UInt8}
    (h : ∀ c ∈ name, isSeparator c = false) (rest : List UInt8) :
    findPath d flags dir front (name ++ rest) = findPath d flags dir (front ++ name) rest := by
  induction name generalizing front with
  | nil => simp
  | cons c name ih =>
    obtain ⟨hc, h⟩ := List.forall_mem_cons.1 h
    rw [List.cons_append, findPath, if_neg (by simp [hc]), ih _ h, List.append_assoc]
    rfl

/-- An entry is found by its long name. -/
theorem LongNames.find (h : LongNames d) (ht : d.IsTree) (hf : d.Child f dir) :
    findFileSkip d dir (d.file f).name vffLongonly none = some f := by
  have hmem := (ht.mem_entries f dir).2 hf
  have hflags : hasFlag vffLongonly vffShortonly = false ∧ hasFlag vffLongonly vffLongonly = true := by
    decide
  have hmatch : ∀ x, (some x != none && nameMatches (d.file f).name vffLongonly (d.file x)) =
      sameName (d.file f).name (d.file x).name := by
    simp [nameMatches, hflags]
  simp only [findFileSkip, hmatch]
  cases hfind : (d.file dir).entries.find? fun x => sameName (d.file f).name (d.file x).name with
  | none => exact absurd (sameName_refl _) (List.find?_eq_none.1 hfind f hmem)
  | some x =>
    have hx := List.find?_some hfind
    by_contra hne
    have := h.distinct dir f hmem x (List.mem_of_find?_eq_some hfind) fun e => hne (by rw [e])
    rw [hx] at this
    cases this

/-- A path of long names leads to its file. -/
theorem LongNames.findPath (h : LongNames d) (ht : d.IsTree) (hp : LongPath d dir f path) :
    findPath d vffLongonly dir [] path = some f := by
  have hname {x p : FileId} (hc : d.Child x p) : ∀ c ∈ (d.file x).name, isSeparator c = false :=
    not_isSeparator (h.valid p x ((ht.mem_entries x p).2 hc))
  induction hp with
  | entry hf =>
    rw [← List.append_nil (d.file _).name, findPath_name _ _ (hname hf), List.nil_append,
      Vdf.findPath, h.find ht hf]
  | down c hsub hc hpath ih =>
    have hisDir : ∀ {sub f path}, LongPath d sub f path → (d.file sub).isDir = true := by
      rintro sub f path (hf | ⟨_, hf, _, _⟩) <;> exact ht.isDir _ _ hf
    rw [findPath_name _ _ (hname hsub), List.nil_append, Vdf.findPath, if_pos hc, h.find ht hsub]
    simp only [hisDir hpath, ↓reduceIte]
    exact ih

/-- There is one to every file below. -/
theorem exists_longPath (hb : d.Below f dir) (hne : f ≠ dir) {c : UInt8}
    (hc : isSeparator c = true) : ∃ path, LongPath d dir f path := by
  induction hb with
  | refl => exact absurd rfl hne
  | tail hb hchild ih =>
    rename_i sub dir
    by_cases hsub : f = sub
    · subst hsub
      exact ⟨_, .entry hchild⟩
    · obtain ⟨path, hpath⟩ := ih hsub
      exact ⟨_, .down c hchild hc hpath⟩

end Find

/-! ## The result -/

section Runs

variable {qsort : List FileRange → List FileRange} {size flags : Nat} {ext : DriveExt}
  {junk : Uninit} {w₀ w : World}

theorem longNames_create (h : World.create size flags ext junk = some w₀) : LongNames w₀.drive := by
  obtain ⟨d, hd, rfl⟩ := Option.map_eq_some_iff.1 h
  have hent : ∀ p, (d.file p).entries = [] := fun p => by rw [(createdriveExt_new hd).2.1]; rfl
  exact ⟨fun p x hx => by simp [hent] at hx, fun p x hx => by simp [hent] at hx⟩

/-- In every run in which no directory is moved below itself and no directory with entries is deleted,
the entries of each directory have different long names, and a file below a directory is found by each
path of the long names on the way, whatever its separators are. -/
theorem findPath_finds (hcreate : World.create size flags ext junk = some w₀)
    (run : Run qsort KeepsPaths w₀ w) :
    DistinctBy VdfFile.name w.drive ∧ ∀ dir f, w.drive.Below f dir → f ≠ dir →
      (∃ path, LongPath w.drive dir f path) ∧
        ∀ path, LongPath w.drive dir f path → vdfFindPath w.drive dir path vffLongonly = .ok f := by
  have h := run.induct (P := fun w => Rooted w ∧ LongNames w.drive)
    ⟨rooted_create hcreate, longNames_create hcreate⟩ fun hok h hs =>
      ⟨h.1.step (hok.keepsTree h.1) hs, h.2.step h.1 (hok.keepsTree h.1) hs⟩
  have ht := h.1.isTree
  refine ⟨h.2.distinct, fun dir f hb hne => ⟨exists_longPath hb hne (c := 0x2f) rfl,
    fun path hpath => ?_⟩⟩
  obtain ⟨x, -, hx⟩ := VdfDrive.Below.below_child hb hne
  have hdir := ht.isDir x dir hx
  have hlive := h.1.parent_live x dir hx
  rw [vdfFindPath, if_neg (by simp [hdir, hlive]), h.2.findPath ht hpath]

/-- The sample file in the sample directory, as `A\B`. -/
theorem findPath_finds_sample :
    ∃ w, sampleRun [sampleDir, sampleFile, .moveFile 2 1] = some w ∧
      vdfFindPath w.drive 0 [0x41, 0x5c, 0x42] vffLongonly = .ok 2 := by
  obtain ⟨w₀, w₂, hcreate, run, h₂⟩ := sample_run (k := KeepsPaths) (fun _ => trivial)
    fun _ => trivial
  obtain ⟨w, h, hA, hB, hnameA, hnameB⟩ := sampleRun_exists
    (l := [sampleDir, sampleFile, .moveFile 2 1])
    (P := fun w => (w.drive.file 1).parent = some 0 ∧ (w.drive.file 2).parent = some 1 ∧
      (w.drive.file 1).name = [0x41] ∧ (w.drive.file 2).name = [0x42]) (by decide)
  have run := run.stepTo (show KeepsPaths w₂ (.moveFile 2 1) from sample_keepsTree h₂)
    (sampleRun_concat h₂ h)
  have hpath : LongPath w.drive 0 2 ((w.drive.file 1).name ++ 0x5c :: (w.drive.file 2).name) :=
    .down 0x5c hA rfl (.entry hB)
  rw [hnameA, hnameB] at hpath
  exact ⟨w, h, ((findPath_finds hcreate run).2 0 2 (.head hB (.single hA)) (by decide)).2 _ hpath⟩

end Runs

end Vdf
