import Vdf.Rooted

/-!
# The tag of a file

`VFA_DIR` in `attr` and `VFF_VIRT` in `flags` say which member of the union a file has. Nothing but
`vdf_set_file_attr` can change them. Its mask keeps the bits that it should lose, so it reaches
`VFA_DIR` and none of the bits that a user may change.
-/

namespace Vdf

open Word

/-- The member of the union of a file. -/
inductive Member where
  | real
  | virt
  | dir
  deriving DecidableEq, Repr

/-- The member that is read: the tests of `read_sector_data`, in their order. -/
def VdfFile.member (fil : VdfFile) : Member :=
  if fil.isDir then .dir else if fil.isVirt then .virt else .real

/-- The member that a new file gets. -/
def Call.member : Call → Member
  | .addDir .. => .dir
  | .addFileVirt .. => .virt
  | _ => .real

/-- The members of the files after a call that returned `r`. -/
def Call.makes (c : Call) (r : Except Errno Unit) (kind : FileId → Member) : FileId → Member :=
  match r, c.alloc with
  | .ok _, some f => Function.update kind f c.member
  | _, _ => kind

/-- The checks of `vdf_set_file_attr` let the attributes of `f` be set. -/
def AttrAccepted (d : VdfDrive) (f : FileId) : Prop :=
  (d.file f).deleted = false ∧ d.lockTest = false

/-- Where the mask has `VFA_DIR`, the bit is set to what it is. -/
def KeepsTag (d : VdfDrive) : Call → Prop
  | .setFileAttr f attr mask => AttrAccepted d f → hasFlag mask vfaDir = true →
      hasFlag attr vfaDir = hasFlag (d.file f).attr vfaDir
  | _ => True

/-- A run with the members that the files were created with. -/
inductive TaggedRun (qsort : List FileRange → List FileRange) (w₀ : World) :
    World → (FileId → Member) → Prop where
  | start : TaggedRun qsort w₀ w₀ fun _ => .dir
  | step {w w' : World} {kind : FileId → Member} {c : Call} {r : Except Errno Unit}
      (run : TaggedRun qsort w₀ w kind) (hok : KeepsTag w.drive c) (hstep : w.Step qsort c r w') :
      TaggedRun qsort w₀ w' (c.makes r kind)

/-- `a` with the user bits of `mask` taken from `attr`. -/
def setUserAttr (a attr mask : Nat) : Nat :=
  clearBits a (mask &&& vfaUserAttr) ||| (attr &&& (mask &&& vfaUserAttr))

/-! ## What the mask does -/

/-- The bits that the call stores. -/
theorem setAttr_testBit (a attr mask i : Nat) :
    (clearBits a (clearBits mask vfaUserAttr) ||| (attr &&& clearBits mask vfaUserAttr)).testBit i =
      if mask.testBit i && !vfaUserAttr.testBit i then attr.testBit i else a.testBit i := by
  simp only [clearBits, Nat.testBit_or, Nat.testBit_and, Nat.testBit_ldiff]
  cases a.testBit i <;> cases attr.testBit i <;> cases mask.testBit i <;>
    cases vfaUserAttr.testBit i <;> rfl

/-- The bits that it should store. -/
theorem setUserAttr_testBit (a attr mask i : Nat) : (setUserAttr a attr mask).testBit i =
    if mask.testBit i && vfaUserAttr.testBit i then attr.testBit i else a.testBit i := by
  simp only [setUserAttr, clearBits, Nat.testBit_or, Nat.testBit_and, Nat.testBit_ldiff]
  cases a.testBit i <;> cases attr.testBit i <;> cases mask.testBit i <;>
    cases vfaUserAttr.testBit i <;> rfl

/-- `VFA_DIR` is none of the user bits. -/
theorem setAttr_dir (a attr mask : Nat) :
    hasFlag (clearBits a (clearBits mask vfaUserAttr) ||| (attr &&& clearBits mask vfaUserAttr))
      vfaDir = if hasFlag mask vfaDir then hasFlag attr vfaDir else hasFlag a vfaDir := by
  have huser : vfaUserAttr.testBit 4 = false := by decide
  simp only [hasFlag_dir, setAttr_testBit, huser, Bool.not_false, Bool.and_true]

/-- Both agree where `attr` has the bits that the file has already. -/
theorem setAttr_eq_iff (a attr mask : Nat) :
    clearBits a (clearBits mask vfaUserAttr) ||| (attr &&& clearBits mask vfaUserAttr) =
      setUserAttr a attr mask ↔ attr &&& mask = a &&& mask := by
  have hbit : ∀ i, ((if mask.testBit i && !vfaUserAttr.testBit i then attr.testBit i
      else a.testBit i) = if mask.testBit i && vfaUserAttr.testBit i then attr.testBit i
      else a.testBit i) ↔ (attr &&& mask).testBit i = (a &&& mask).testBit i := by
    intro i
    simp only [Nat.testBit_and]
    cases a.testBit i <;> cases attr.testBit i <;> cases mask.testBit i <;>
      cases vfaUserAttr.testBit i <;> decide
  constructor
  · intro h
    refine Nat.eq_of_testBit_eq fun i => (hbit i).1 ?_
    rw [← setAttr_testBit, ← setUserAttr_testBit, h]
  · intro h
    refine Nat.eq_of_testBit_eq fun i => ?_
    rw [setAttr_testBit, setUserAttr_testBit]
    exact (hbit i).2 (by rw [h])

/-! ## The invariant -/

section Runs

variable {qsort : List FileRange → List FileRange} {w₀ w w' : World} {kind : FileId → Member}
  {c : Call} {r : Except Errno Unit}

/-- Every file has the tag of the member that it was created with. -/
structure Tagged (w : World) (kind : FileId → Member) : Prop where
  linked : Linked w
  root : w.drive.rootDir ∈ w.dirs
  dir : ∀ x ∈ w.handles, (hasFlag (w.drive.file x).attr vfaDir = true ↔ kind x = .dir)
  virt : ∀ x ∈ w.handles, ((w.drive.file x).virt = true ↔ kind x = .virt)
  dirs : ∀ x ∈ w.handles, (x ∈ w.dirs ↔ kind x = .dir)

theorem Rewrite.virt {d : VdfDrive} {x : FileId} {fil : VdfFile} (h : Rewrite d x c r fil) :
    fil.virt = (d.file x).virt := by
  cases h <;> rfl

/-- The attributes of a file are set where the checks pass. -/
theorem setFileAttr_accepted {fuel : Nat} {d d' : VdfDrive} {f : FileId} {attr mask : Nat}
    (h : (Call.setFileAttr f attr mask).apply qsort fuel d = some (.ok (), d')) :
    AttrAccepted d f := by
  have h := Option.some.inj h
  simp only [vdfSetFileAttr] at h
  split_ifs at h with hd hl
  · cases h
  · cases h
  · exact ⟨by simpa using hd, by simpa using hl⟩

/-- The tag of a file that is not new. -/
theorem Does.tag {d d' : VdfDrive} (h : Does qsort d c r d') {x : FileId} (hx : c.alloc ≠ some x)
    (hok : KeepsTag d c)
    (hacc : ∀ f attr mask, c = .setFileAttr f attr mask → r = .ok () → AttrAccepted d f) :
    hasFlag (d'.file x).attr vfaDir = hasFlag (d.file x).attr vfaDir := by
  have hrw := h.rewrite hx
  generalize d'.file x = fil at hrw
  cases hrw with
  | attrSet =>
    rw [setAttr_dir]
    split
    · exact hok (hacc _ _ _ rfl rfl) ‹_›
    · rfl
  | _ => rfl

/-- The tag of a new file. -/
theorem newFile_tag (hc : c.creates ≠ none) (bpc : Nat) (p : FileId) (name s : List UInt8)
    (l : Bool) :
    (hasFlag (c.newFile bpc p name s l).attr vfaDir = true ↔ c.member = .dir) ∧
      ((c.newFile bpc p name s l).virt = true ↔ c.member = .virt) := by
  have hplain : hasFlag vfaAttribute vfaDir = false := by decide
  have hdir : hasFlag (vfaAttribute ||| vfaDir) vfaDir = true := by decide
  cases c with
  | addDir | addFileReal | addFileVirt =>
    simp [Call.newFile, Call.fill, Call.member, hplain, hdir]
  | _ => exact absurd rfl hc

/-- A call that creates no file makes no member. -/
theorem makes_of_none (h : ¬ (r = .ok () ∧ ∃ f, c.alloc = some f)) : c.makes r kind = kind := by
  unfold Call.makes
  cases r with
  | error e => rfl
  | ok u =>
    cases ha : c.alloc with
    | none => rfl
    | some f => exact absurd ⟨rfl, f, ha⟩ h

theorem addsDir_iff (c : Call) : c.addsDir = true ↔ c.member = .dir := by
  cases c <;> simp [Call.addsDir, Call.member]

theorem Tagged.step (h : Tagged w kind) (hok : KeepsTag w.drive c) (hs : w.Step qsort c r w') :
    Tagged w' (c.makes r kind) := by
  obtain ⟨hdoes, hw', -⟩ := h.linked.does hs
  have hacc : ∀ f attr mask, c = .setFileAttr f attr mask → r = .ok () →
      AttrAccepted w.drive f := by
    rintro f attr mask rfl rfl
    obtain ⟨fuel, d', -, ha, -⟩ := hs.apply
    exact setFileAttr_accepted ha
  by_cases hnew : r = .ok () ∧ ∃ f, c.alloc = some f
  · -- The new file has the member of the call.
    obtain ⟨rfl, f, ha⟩ := hnew
    obtain ⟨p, name, s, l, hc, hcheck, -, hd⟩ := hdoes.new ha
    have hf := hs.alloc f ha
    have hkind : c.makes (.ok ()) kind = Function.update kind f c.member := by
      simp [Call.makes, ha]
    have hself : (w'.drive.file f) = c.newFile w.drive.bpc p name s l := by simp [hd, addFile]
    obtain ⟨htag, hvirt⟩ := newFile_tag (c := c) (by simp [hc]) w.drive.bpc p name s l
    rw [hkind]
    have hhandles : ∀ x ∈ w'.handles, x = f ∨ x ∈ w.handles := by
      intro x hx
      rw [hw', World.after_handles, ha] at hx
      exact (hx.symm).imp_left fun e => (Option.some.inj e.2).symm
    have hdirs : ∀ x, x ∈ w'.dirs ↔ x ∈ w.dirs ∨ c.addsDir = true ∧ f = x := by
      intro x
      rw [hw', World.after_dirs, ha]
      simp
    refine ⟨h.linked.step hs, ?_, fun x hx => ?_, fun x hx => ?_, fun x hx => ?_⟩
    · rw [hdirs, hdoes.rootDir]
      exact .inl h.root
    all_goals rcases hhandles x hx with rfl | hx
    · rw [hself, Function.update_self, htag]
    · have hxf : x ≠ f := fun e => hf (e ▸ hx)
      rw [Function.update_of_ne hxf, hdoes.tag (by simpa [ha] using hxf.symm) hok hacc]
      exact h.dir x hx
    · rw [hself, Function.update_self, hvirt]
    · have hxf : x ≠ f := fun e => hf (e ▸ hx)
      rw [Function.update_of_ne hxf, (hdoes.rewrite (by simpa [ha] using hxf.symm)).virt]
      exact h.virt x hx
    · rw [Function.update_self, hdirs, ← addsDir_iff]
      simpa using fun hx => absurd (h.linked.dirs_mem x hx) hf
    · have hxf : x ≠ f := fun e => hf (e ▸ hx)
      rw [Function.update_of_ne hxf, ← h.dirs x hx, hdirs]
      simp [hxf.symm]
  · have hhandles : ∀ x ∈ w'.handles, x ∈ w.handles ∧ c.alloc ≠ some x := by
      intro x hx
      rw [hw', World.after_handles] at hx
      have hx := hx.resolve_right fun e => hnew ⟨e.1, x, e.2⟩
      exact ⟨hx, fun ha => hs.alloc x ha hx⟩
    have hdirs : ∀ x, x ∈ w'.dirs ↔ x ∈ w.dirs := by
      intro x
      rw [hw', World.after_dirs]
      exact or_iff_left fun e => hnew ⟨e.1, x, e.2.2⟩
    rw [makes_of_none hnew]
    refine ⟨h.linked.step hs, by rw [hdoes.rootDir, hdirs]; exact h.root, fun x hx => ?_,
      fun x hx => ?_, fun x hx => ?_⟩ <;>
      obtain ⟨hx, ha⟩ := hhandles x hx
    · rw [hdoes.tag ha hok hacc]
      exact h.dir x hx
    · rw [(hdoes.rewrite ha).virt]
      exact h.virt x hx
    · rw [hdirs]
      exact h.dirs x hx

/-! ## What the tag protects -/

section Tagged

variable (h : Tagged w kind)
include h

/-- The readers take the member that the file has. -/
theorem Tagged.member {x : FileId} (hx : x ∈ w.handles) (hd : (w.drive.file x).deleted = false) :
    (w.drive.file x).member = kind x := by
  have hdir := h.dir x hx
  have hvirt := h.virt x hx
  simp only [VdfFile.member, VdfFile.isDir, VdfFile.isVirt, hd, Bool.not_false, Bool.true_and]
  cases hk : kind x <;> simp [hk] at hdir hvirt <;> simp [hdir, hvirt]

theorem Tagged.mem_dirs {x : FileId} (hx : x ∈ w.handles) (hdir : (w.drive.file x).isDir = true) :
    x ∈ w.dirs := by
  rw [h.dirs x hx, ← h.dir x hx]
  exact (Bool.and_eq_true _ _).mp hdir |>.2

/-- `dir_recalc` walks directories only. -/
theorem Tagged.walkDirs {fuel : Nat} {dir : FileId} (hdir : dir ∈ w.dirs) :
    ∀ x ∈ walkDirs fuel w.drive dir, x ∈ w.dirs := by
  induction fuel generalizing dir with
  | zero => simp [Vdf.walkDirs]
  | succ fuel ih =>
    intro x hx
    rcases List.mem_cons.1 hx with rfl | hx
    · exact hdir
    · obtain ⟨f, hf, hx⟩ := List.mem_flatMap.1 hx
      obtain ⟨hf, hisDir⟩ := List.mem_filter.1 hf
      have hmem := h.linked.handle_of_child (h.linked.child_of_mem f dir hf)
      exact ih (h.mem_dirs hmem hisDir) x hx

theorem Tagged.recalcUndef (fuel : Nat) : w.recalcUndef fuel = none := by
  unfold World.recalcUndef
  split
  · rfl
  · simp only [Option.map_eq_none_iff, List.find?_eq_none]
    intro x hx
    simpa using h.walkDirs h.root x hx

omit h in
theorem relinks_ne_union (x f : FileId) : w.relinks x ≠ some (.union f) := by
  unfold World.relinks
  split_ifs <;> simp

theorem Tagged.walks_ne_union {x p : FileId} (hp : (w.drive.file x).parent = some p) (f : FileId) :
    w.walks p ≠ some (.union f) := by
  unfold World.walks
  have hdir := h.linked.parent_mem x p hp
  split_ifs <;> simp

/-- No call reads the union of a file as that of a directory unless it is one. -/
theorem Tagged.no_union {fuel : Nat} {f : FileId} (hfiles : ∀ x ∈ c.files, x ∈ w.handles) :
    w.undef fuel c ≠ some (.union f) := by
  have hwalks : ∀ x, (w.drive.file x).parent.bind w.walks ≠ some (.union f) := by
    intro x
    cases hp : (w.drive.file x).parent with
    | none => simp
    | some p => exact h.walks_ne_union hp f
  have hrelinks : ∀ x, (w.drive.file x).parent.bind w.relinks ≠ some (.union f) := by
    intro x
    cases (w.drive.file x).parent with
    | none => simp
    | some p => exact relinks_ne_union p f
  have hcreate : ∀ p ∈ w.handles, ∀ name a, w.createUndef p name a ≠ some (.union f) := by
    intro p hp name a
    unfold World.createUndef
    dsimp only
    split_ifs with hcond hmem
    · simp
    · exact relinks_ne_union p f
    · simp
    · simp only [not_or, Bool.not_eq_true', Bool.not_eq_false] at hcond
      exact absurd (h.mem_dirs hp hcond.2.2.1) hmem
  cases c with
  | addDir p name a _ _ => exact hcreate p (hfiles p (by simp [Call.files])) name a
  | addFileVirt p name _ a _ _ => exact hcreate p (hfiles p (by simp [Call.files])) name a
  | addFileReal p name path st a _ =>
    simp only [World.undef, Call.creates]
    split_ifs
    · exact hcreate p (hfiles p (by simp [Call.files])) _ a
    · simp
  | deleteFile x =>
    simp only [World.undef]
    split_ifs
    · simp
    · cases (w.drive.file x).parent with
      | none => simp
      | some p =>
        simp only [Option.bind_some, World.deleteUndef]
        split_ifs <;> simp
  | moveFile x np =>
    simp only [World.undef]
    split_ifs with hcheck hmem
    · simp
    · simp
    · cases hr : (w.drive.file x).parent.bind w.relinks with
      | none => exact relinks_ne_union np f
      | some u =>
        have hu := hrelinks x
        rw [hr] at hu
        exact hu
    · simp only [not_or, not_not] at hcheck
      have hdir := (moveCheck_eq_none.1 hcheck.1).2.2.2.1
      exact absurd (h.mem_dirs (hfiles np (by simp [Call.files])) hdir) hmem
  | fileUp x | fileDown x =>
    simp only [World.undef]
    split_ifs
    · simp
    · exact hrelinks x
  | setFileName x name _ | setFileShortname x name =>
    simp only [World.undef]
    split_ifs
    · simp
    · exact hwalks x
  | recalc => simp [World.undef, h.recalcUndef]
  | lock =>
    simp only [World.undef, h.recalcUndef]
    split_ifs <;> simp
  | _ => simp [World.undef]

end Tagged

theorem tagged_create {size flags : Nat} {ext : DriveExt} {junk : Uninit}
    (h : World.create size flags ext junk = some w₀) : Tagged w₀ fun _ => .dir := by
  have hr := rooted_create h
  obtain ⟨d, hd, rfl⟩ := Option.map_eq_some_iff.1 h
  have hfile := (createdriveExt_new hd).2.1
  refine ⟨hr.linked, hr.root_dir, fun x hx => ?_, fun x hx => ?_, fun x hx => ?_⟩
  · simpa using hr.dir x hx
  · simp [hfile, createRootDir]
  · simpa using hx

theorem TaggedRun.tagged {size flags : Nat} {ext : DriveExt} {junk : Uninit}
    (hcreate : World.create size flags ext junk = some w₀) (run : TaggedRun qsort w₀ w kind) :
    Tagged w kind := by
  induction run with
  | start => exact tagged_create hcreate
  | step _ hok hs ih => exact ih.step hok hs

/-! ## Main results -/

/-- In every run in which no `VFA_DIR` bit is set to another value: each file has the tag of the member
that it was created with, so that no call reads another; and `vdf_set_file_attr` changes the user
bits of the mask and nothing else exactly where `attr` has, in all bits of the mask, what the file
has already. It keeps the tag exactly where the condition of the run holds. -/
theorem tags_stay {size flags : Nat} {ext : DriveExt} {junk : Uninit}
    (hcreate : World.create size flags ext junk = some w₀) (run : TaggedRun qsort w₀ w kind) :
    (∀ x ∈ w.handles, (w.drive.file x).deleted = false →
      (hasFlag (w.drive.file x).attr vfaDir = true ↔ kind x = .dir) ∧
        (w.drive.file x).member = kind x) ∧
    (∀ fuel c f, (∀ x ∈ c.files, x ∈ w.handles) → w.undef fuel c ≠ some (.union f)) ∧
    ∀ f attr mask, AttrAccepted w.drive f →
      ((vdfSetFileAttr w.drive f attr mask).2 = setDriveDirty (w.drive.modifyFile f fun x =>
          { x with attr := setUserAttr x.attr attr mask }) ↔
        attr &&& mask = (w.drive.file f).attr &&& mask) ∧
      (hasFlag (((vdfSetFileAttr w.drive f attr mask).2.file f).attr) vfaDir =
          hasFlag (w.drive.file f).attr vfaDir ↔
        KeepsTag w.drive (.setFileAttr f attr mask)) := by
  have h := run.tagged hcreate
  refine ⟨fun x hx hd => ⟨h.dir x hx, h.member hx hd⟩, fun fuel c f hfiles => h.no_union hfiles,
    fun f attr mask hacc => ?_⟩
  have hset : (vdfSetFileAttr w.drive f attr mask).2 = setDriveDirty
      (w.drive.modifyFile f fun x => { x with attr := clearBits x.attr (clearBits mask vfaUserAttr) |||
        (attr &&& clearBits mask vfaUserAttr) }) := by
    simp [vdfSetFileAttr, hacc.1, hacc.2]
  rw [hset]
  constructor
  · rw [← setAttr_eq_iff]
    constructor
    · intro e
      simpa using congrArg (fun d => (d.file f).attr) e
    · intro e
      congr 1
      simp only [VdfDrive.modifyFile]
      congr 1
      funext x
      split
      · rename_i hx
        rw [hx, e]
      · rfl
  · simp only [setDriveDirty_file, VdfDrive.modifyFile_self, setAttr_dir]
    constructor
    · intro e _ hmask
      simpa [hmask] using e
    · intro hok
      split
      · exact hok hacc ‹_›
      · rfl

/-- A virtual file gets the tag of a directory, and can not be made read-only. -/
theorem setFileAttr_sets_dir :
    ∃ w, sampleRun [sampleFile, .setFileAttr 2 vfaDir vfaDir] = some w ∧ Reachable id w ∧
      hasFlag (w.drive.file 2).attr vfaDir = true ∧ (w.drive.file 2).member = .dir ∧
      w.undef 8 .recalc = some (.union 2) ∧
      hasFlag ((vdfSetFileAttr w.drive 2 vfaReadonly vfaReadonly).2.file 2).attr vfaReadonly =
        false := by
  obtain ⟨w, h, hP⟩ := sampleRun_exists (l := [sampleFile, .setFileAttr 2 vfaDir vfaDir])
    (P := fun w => hasFlag (w.drive.file 2).attr vfaDir = true ∧ (w.drive.file 2).member = .dir ∧
      w.undef 8 .recalc = some (.union 2) ∧
      hasFlag ((vdfSetFileAttr w.drive 2 vfaReadonly vfaReadonly).2.file 2).attr vfaReadonly =
        false) (by decide +kernel)
  exact ⟨w, h, sampleRun_reachable h, hP⟩

/-- A directory whose other attributes are asked for under the mask `VFA_DIR`. -/
theorem tags_stay_sample :
    ∃ w : World, sampleRun [sampleDir, .setFileAttr 1 0x3f vfaDir] = some w ∧
      hasFlag (w.drive.file 1).attr vfaDir = true := by
  obtain ⟨w₀, h₀, -⟩ := sampleRun_exists (l := []) (P := fun _ => True) (by decide)
  obtain ⟨w₁, h₁, hdir⟩ := sampleRun_exists (l := [sampleDir])
    (P := fun w => hasFlag 0x3f vfaDir = hasFlag (w.drive.file 1).attr vfaDir) (by decide)
  obtain ⟨w, h, hmem, hd⟩ := sampleRun_exists (l := [sampleDir, .setFileAttr 1 0x3f vfaDir])
    (P := fun w => 1 ∈ w.handles ∧ (w.drive.file 1).deleted = false) (by decide +kernel)
  obtain ⟨r₁, hs₁⟩ := World.step_of_stepTo (sampleRun_concat h₀ h₁)
  obtain ⟨r, hs⟩ := World.step_of_stepTo (sampleRun_concat h₁ h)
  have hok₁ : KeepsTag w₀.drive sampleDir := trivial
  have hok : KeepsTag w₁.drive (.setFileAttr 1 0x3f vfaDir) := fun _ _ => hdir
  refine ⟨w, h, ((tags_stay (sampleRun_nil h₀) ((TaggedRun.start.step hok₁ hs₁).step hok hs)).1 1
    hmem hd).1.2 ?_⟩
  cases r <;> cases r₁ <;> rfl

end Runs

end Vdf
