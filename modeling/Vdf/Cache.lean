import Vdf.Lib.Lockstep
import Vdf.Frame
import Vdf.Rooted

/-!
# The layout as a cache

A recalculation is a function of the tree, the names, the sizes, the label and the geometry: two
drives that agree on these (`Twin`) go through it in lockstep, whatever layout they come with. So the
layout of a clean drive is what a forced recalculation gives again, as long as no call changes what it
was computed from and leaves the drive clean (`KeepsLabel`).
-/

namespace Vdf

open Word

/-! ## The layout of a drive -/

/-- The fields that a recalculation writes. -/
inductive LayoutField where
  | size
  | clusters
  | start
  | end_
  | dataEnd
  | startsect
  | endsect
  | fentStart
  | fentCnt
  | dirFentCnt

def LayoutField.get (fil : VdfFile) : LayoutField → Nat
  | size => fil.size
  | clusters => fil.clusters
  | start => fil.start
  | end_ => fil.end_
  | dataEnd => fil.dataEnd
  | startsect => fil.startsect
  | endsect => fil.endsect
  | fentStart => fil.fentStart
  | fentCnt => fil.fentCnt
  | dirFentCnt => fil.dirFentCnt

/-- The layout of the files, cell by cell. -/
def VdfDrive.layout (d : VdfDrive) (i : FileId × LayoutField) : Nat := i.2.get (d.file i.1)

/-- `b` has the tree, names, sizes, label and geometry of `a`. -/
structure Twin (a b : VdfDrive) : Prop where
  geometry : b.toGeometry = a.toGeometry
  rootDir : b.rootDir = a.rootDir
  allFiles : b.allFiles = a.allFiles
  label : b.label = a.label
  file : ∀ x, b.file x = (a.file x).relayout (b.file x)

namespace Twin

variable {a b a' b' : VdfDrive}

theorem relaid (h : Twin a b) (ha : Relaid a a') (hb : Relaid b b') : Twin a' b' where
  geometry := by rw [hb.geometry, h.geometry, ha.geometry]
  rootDir := by rw [hb.rootDir, h.rootDir, ha.rootDir]
  allFiles := by rw [hb.allFiles, h.allFiles, ha.allFiles]
  label := by rw [hb.label, h.label, ha.label]
  file x := by
    rw [hb.file x, h.file x, ha.file x]
    rfl

section Fields

variable (h : Twin a b) (x : FileId)
include h

theorem parent : (b.file x).parent = (a.file x).parent := by rw [h.file]; rfl

theorem entries : (b.file x).entries = (a.file x).entries := by rw [h.file]; rfl

theorem isDir : (b.file x).isDir = (a.file x).isDir := by rw [h.file]; rfl

theorem fatclusters : (b.file x).fatclusters = (a.file x).fatclusters := by rw [h.file]; rfl

theorem fentsNeeded : fentsNeeded b x = fentsNeeded a x := by
  rw [Vdf.fentsNeeded, Vdf.fentsNeeded, h.geometry, h.file]
  rfl

theorem reservedSlots : reservedSlots b x = reservedSlots a x := by
  rw [Vdf.reservedSlots, Vdf.reservedSlots, h.parent, h.label]

end Fields

/-- Twins with one layout have the same files. -/
theorem file_eq (h : Twin a b) (hl : b.layout = a.layout) : b.file = a.file := by
  funext x
  have hk (k : LayoutField) : k.get (b.file x) = k.get (a.file x) := congrFun hl (x, k)
  have hfile := h.file x
  generalize b.file x = fb at hk hfile
  generalize a.file x = fa at hk hfile
  have h1 := hk .size
  have h2 := hk .clusters
  have h3 := hk .start
  have h4 := hk .end_
  have h5 := hk .dataEnd
  have h6 := hk .startsect
  have h7 := hk .endsect
  have h8 := hk .fentStart
  have h9 := hk .fentCnt
  have h10 := hk .dirFentCnt
  simp only [LayoutField.get] at h1 h2 h3 h4 h5 h6 h7 h8 h9 h10
  rw [hfile, VdfFile.relayout, h1, h2, h3, h4, h5, h6, h7, h8, h9, h10]

end Twin

/-! ## The passes in lockstep -/

section Lockstep

variable {a b a' : VdfDrive} {f : FileId}

/-- Writes to one file. -/
theorem modifyFile_lockstep {g k : VdfFile → VdfFile}
    (h : ∀ i : LayoutField, i.get (g (a.file f)) = i.get (k (b.file f)) ∨
      i.get (g (a.file f)) = i.get (a.file f) ∧ i.get (k (b.file f)) = i.get (b.file f)) :
    Lockstep a.layout b.layout (a.modifyFile f g).layout (b.modifyFile f k).layout := by
  rintro ⟨x, i⟩
  simp only [VdfDrive.layout, VdfDrive.modifyFile_file]
  split
  · rename_i e
    subst e
    exact h i
  · exact .inr ⟨rfl, rfl⟩

theorem fileRecalcDir_lockstep (ht : Twin a b)
    (hp : ∀ p, (a.file f).parent = some p →
      a.layout (p, .dirFentCnt) = b.layout (p, .dirFentCnt)) :
    Lockstep a.layout b.layout (fileRecalcDir a f).layout (fileRecalcDir b f).layout := by
  unfold fileRecalcDir
  rw [ht.parent]
  cases hpar : (a.file f).parent with
  | none => exact .refl _ _
  | some p =>
    have hcnt : (a.file p).dirFentCnt = (b.file p).dirFentCnt := hp p hpar
    dsimp only
    rw [ht.fentsNeeded, ← hcnt]
    refine (modifyFile_lockstep fun i => ?_).trans (modifyFile_lockstep fun i => ?_)
    · cases i <;> simp [LayoutField.get]
    · have hcnt' : ((a.modifyFile f fun fil =>
          { fil with fentStart := (a.file p).dirFentCnt, fentCnt := fentsNeeded a f }).file p).dirFentCnt =
          ((b.modifyFile f fun fil =>
          { fil with fentStart := (a.file p).dirFentCnt, fentCnt := fentsNeeded a f }).file p).dirFentCnt := by
        simp only [VdfDrive.modifyFile_file]
        split <;> exact hcnt
      cases i <;> simp [LayoutField.get, hcnt']

/-- The links that the walk goes by: an entry has its directory as parent. -/
def EntriesLinked (d : VdfDrive) : Prop := ∀ x p, x ∈ (d.file p).entries → d.Child x p

theorem EntriesLinked.relaid {d d' : VdfDrive} (h : EntriesLinked d) (hr : Relaid d d') :
    EntriesLinked d' := by
  intro x p hx
  rw [VdfDrive.Child, hr.parent]
  rw [hr.entries] at hx
  exact h x p hx

/-- `dir_recalc` in lockstep. The counter of the parent, which the walk goes on with, has to be the
same before. -/
theorem dirRecalc_lockstep {fuel : Nat} {dir : FileId} (ht : Twin a b) (hent : EntriesLinked a)
    (hdir : dir = a.rootDir ∨ (a.file dir).isDir = true)
    (hp : ∀ p, (a.file dir).parent = some p →
      a.layout (p, .dirFentCnt) = b.layout (p, .dirFentCnt))
    (h : dirRecalc fuel a dir = some a') :
    ∃ b', dirRecalc fuel b dir = some b' ∧ Lockstep a.layout b.layout a'.layout b'.layout := by
  induction fuel generalizing a b dir a' with
  | zero => cases h
  | succ fuel ih =>
    rw [dirRecalc] at h
    simp only [Option.bind_eq_bind, Option.bind_eq_some_iff] at h
    obtain ⟨a₂, h1, h2⟩ := h
    -- The slots in front of the entries.
    have ra₁ : Relaid a (a.modifyFile dir fun x => { x with dirFentCnt := reservedSlots a dir }) :=
      Relaid.modifyFile dir (fun _ => rfl) fun _ _ => ⟨rfl, rfl⟩
    have rb₁ : Relaid b (b.modifyFile dir fun x => { x with dirFentCnt := reservedSlots b dir }) :=
      Relaid.modifyFile dir (fun _ => rfl) fun _ _ => ⟨rfl, rfl⟩
    have l₁ : Lockstep a.layout b.layout
        (a.modifyFile dir fun x => { x with dirFentCnt := reservedSlots a dir }).layout
        (b.modifyFile dir fun x => { x with dirFentCnt := reservedSlots b dir }).layout :=
      modifyFile_lockstep fun i => by cases i <;> simp [LayoutField.get, ht.reservedSlots]
    have hcnt₁ : (a.modifyFile dir fun x => { x with dirFentCnt := reservedSlots a dir }).layout
        (dir, .dirFentCnt) =
        (b.modifyFile dir fun x => { x with dirFentCnt := reservedSlots b dir }).layout
        (dir, .dirFentCnt) := by simp [VdfDrive.layout, LayoutField.get, ht.reservedSlots]
    -- The entries.
    have hloop := Lockstep.foldlM
      (I := fun e u => Relaid a e ∧ Relaid b u ∧ Lockstep a.layout b.layout e.layout u.layout ∧
        e.layout (dir, .dirFentCnt) = u.layout (dir, .dirFentCnt))
      (w := fun d f => if (d.file f).isDir then dirRecalc fuel d f else some (fileRecalcDir d f))
      _ (fun {e e' u f} hf hinv hv => ?_) ⟨ra₁, rb₁, l₁, hcnt₁⟩ h1
    · obtain ⟨b₂, hb₂, ra, rb, hl, hcnt⟩ := hloop
      -- The size, and the slots of the directory itself.
      have ht₂ := ht.relaid ra rb
      have hcnt' : (a₂.file dir).dirFentCnt = (b₂.file dir).dirFentCnt := hcnt
      have hbpc : b₂.bpc = a₂.bpc := by rw [ht₂.geometry]
      have l₃ := hl.trans (modifyFile_lockstep (f := dir)
        (g := fun x => { x with
          size := dirSize (a₂.file dir).dirFentCnt
          clusters := dirClusters a₂.bpc (dirSize (a₂.file dir).dirFentCnt) })
        (k := fun x => { x with
          size := dirSize (b₂.file dir).dirFentCnt
          clusters := dirClusters b₂.bpc (dirSize (b₂.file dir).dirFentCnt) })
        fun i => by cases i <;> simp [LayoutField.get, hcnt', hbpc])
      have hsize {d e : VdfDrive} (r : Relaid d e) (hd : dir = d.rootDir ∨ (d.file dir).isDir = true) :
          Relaid d (e.modifyFile dir fun x => { x with
            size := dirSize (e.file dir).dirFentCnt
            clusters := dirClusters e.bpc (dirSize (e.file dir).dirFentCnt) }) := by
        refine r.trans (Relaid.modifyFile dir (fun _ => rfl) fun hf hr => ?_)
        rw [r.isDir] at hf
        rw [r.rootDir] at hr
        exact absurd hd (by simp [hr, hf])
      have ra₃ := hsize ra hdir
      have rb₃ := hsize rb (by rwa [ht.rootDir, ht.isDir])
      have ht₃ := ht.relaid ra₃ rb₃
      rw [← (ht.relaid ra₁ rb₁).entries dir] at hb₂
      rw [dirRecalc]
      simp only [Option.bind_eq_bind, hb₂, Option.bind_some, ht₃.parent dir, ht₃.geometry]
      split at h2
      · rename_i hlast
        cases h2
        refine ⟨_, by rw [if_pos hlast], l₃.trans (fileRecalcDir_lockstep ht₃ fun p hp' => ?_)⟩
        rw [ra₃.parent] at hp'
        exact l₃.keep (hp p hp')
      · rename_i hlast
        cases h2
        exact ⟨_, by rw [if_neg hlast], l₃⟩
    · -- One entry.
      obtain ⟨ra, rb, hl, hcnt⟩ := hinv
      have ht' := ht.relaid ra rb
      have hparent : (e.file f).parent = some dir := by
        rw [ra.parent]
        exact hent f dir (by simpa using hf)
      have hkeep : ∀ p, (e.file f).parent = some p →
          e.layout (p, .dirFentCnt) = u.layout (p, .dirFentCnt) := by
        intro p hp
        cases hparent.symm.trans hp
        exact hcnt
      by_cases hd : (e.file f).isDir = true
      · have hdu : (u.file f).isDir = true := by rw [ht'.isDir, hd]
        rw [if_pos hd] at hv
        obtain ⟨u', hu, hl'⟩ := ih ht' (hent.relaid ra) (.inr hd) hkeep hv
        exact ⟨u', by rw [if_pos hdu, hu], ra.trans (dirRecalc_relaid (.inr hd) hv),
          rb.trans (dirRecalc_relaid (.inr hdu) hu), hl.trans hl', hl'.keep hcnt⟩
      · have hdu : ¬ (u.file f).isDir = true := by rwa [ht'.isDir]
        rw [if_neg hd] at hv
        cases hv
        have hl' := fileRecalcDir_lockstep ht' hkeep
        exact ⟨fileRecalcDir u f, by rw [if_neg hdu], ra.trans (fileRecalcDir_relaid e f),
          rb.trans (fileRecalcDir_relaid u f), hl.trans hl', hl'.keep hcnt⟩

/-- Twins with the same sizes and counters, as the second pass takes them. -/
structure InStep (a b : VdfDrive) : Prop where
  twin : Twin a b
  size : ∀ x, (b.file x).size = (a.file x).size
  clusters : ∀ x, (b.file x).clusters = (a.file x).clusters
  nonemptyFileCnt : b.nonemptyFileCnt = a.nonemptyFileCnt
  dataEnd : b.dataEnd = a.dataEnd
  dataClusterEnd : b.dataClusterEnd = a.dataClusterEnd

/-- The second pass keeps the sizes. -/
theorem fileRecalcOffsize_size (d : VdfDrive) (f x : FileId) :
    ((fileRecalcOffsize d f).2.file x).size = (d.file x).size ∧
      ((fileRecalcOffsize d f).2.file x).clusters = (d.file x).clusters := by
  simp only [fileRecalcOffsize]
  split_ifs <;> dsimp only [VdfDrive.modifyFile] <;> split_ifs <;> exact ⟨rfl, rfl⟩

theorem offsizePass_size (d : VdfDrive) (l : List FileId) (x : FileId) :
    ((offsizePass d l).2.file x).size = (d.file x).size ∧
      ((offsizePass d l).2.file x).clusters = (d.file x).clusters := by
  induction l generalizing d with
  | nil => exact ⟨rfl, rfl⟩
  | cons f l ih =>
    simp only [offsizePass]
    split
    · exact fileRecalcOffsize_size d f x
    · obtain ⟨h1, h2⟩ := ih (fileRecalcOffsize d f).2
      obtain ⟨h3, h4⟩ := fileRecalcOffsize_size d f x
      exact ⟨h1.trans h3, h2.trans h4⟩

theorem fileRecalcOffsize_lockstep (h : InStep a b) (f : FileId) :
    (fileRecalcOffsize b f).1 = (fileRecalcOffsize a f).1 ∧
      InStep (fileRecalcOffsize a f).2 (fileRecalcOffsize b f).2 ∧
      Lockstep a.layout b.layout (fileRecalcOffsize a f).2.layout (fileRecalcOffsize b f).2.layout := by
  have ht := h.twin.relaid (fileRecalcOffsize_relaid a f) (fileRecalcOffsize_relaid b f)
  have hsize x := (fileRecalcOffsize_size b f x).1.trans
    ((h.size x).trans (fileRecalcOffsize_size a f x).1.symm)
  have hclusters x := (fileRecalcOffsize_size b f x).2.trans
    ((h.clusters x).trans (fileRecalcOffsize_size a f x).2.symm)
  have hspc : b.spc = a.spc := by rw [h.twin.geometry]
  have hsectors : b.sectors = a.sectors := by rw [h.twin.geometry]
  -- Both runs take the same branch.
  have key : (fileRecalcOffsize b f).1 = (fileRecalcOffsize a f).1 ∧
      (fileRecalcOffsize b f).2.nonemptyFileCnt = (fileRecalcOffsize a f).2.nonemptyFileCnt ∧
      (fileRecalcOffsize b f).2.dataEnd = (fileRecalcOffsize a f).2.dataEnd ∧
      (fileRecalcOffsize b f).2.dataClusterEnd = (fileRecalcOffsize a f).2.dataClusterEnd ∧
      Lockstep a.layout b.layout (fileRecalcOffsize a f).2.layout
        (fileRecalcOffsize b f).2.layout := by
    simp only [fileRecalcOffsize, h.size f, h.clusters f, h.twin.fatclusters f, h.dataEnd,
      h.dataClusterEnd, h.nonemptyFileCnt, hspc, hsectors]
    generalize (if (a.file f).fatclusters ≠ -1 then
      ofInt (a.dataClusterEnd + (a.file f).fatclusters)
      else u32 (a.dataClusterEnd + (a.file f).clusters)) = chainEnd
    split_ifs <;> simp only [VdfDrive.modifyFile, h.nonemptyFileCnt, h.dataEnd, h.dataClusterEnd,
      true_and] <;> rintro ⟨x, i⟩ <;> by_cases hx : x = f <;> cases i <;>
      simp [VdfDrive.layout, LayoutField.get, hx]
  obtain ⟨hr, hn, he, hc, hl⟩ := key
  exact ⟨hr, ⟨ht, hsize, hclusters, hn, he, hc⟩, hl⟩

theorem offsizePass_lockstep (h : InStep a b) (l : List FileId) :
    (offsizePass b l).1 = (offsizePass a l).1 ∧ InStep (offsizePass a l).2 (offsizePass b l).2 ∧
      Lockstep a.layout b.layout (offsizePass a l).2.layout (offsizePass b l).2.layout := by
  induction l generalizing a b with
  | nil => exact ⟨rfl, h, .refl _ _⟩
  | cons f l ih =>
    obtain ⟨hr, hs, hl⟩ := fileRecalcOffsize_lockstep h f
    obtain ⟨hr', hs', hl'⟩ := ih hs
    simp only [offsizePass, hr]
    split_ifs
    · exact ⟨rfl, hs, hl⟩
    · exact ⟨hr', hs', hl.trans hl'⟩

end Lockstep

/-! ## A recalculation, again -/

section Again

variable {qsort : List FileRange → List FileRange} {fuel : Nat} {d d' e : VdfDrive}

theorem storedRanges_congr (hg : e.toGeometry = d.toGeometry) (hfile : e.file = d.file)
    (hall : e.allFiles = d.allFiles) : storedRanges e = storedRanges d := by
  have hrange : fileRange e = fileRange d := by
    funext f
    simp only [fileRange, hfile, hg]
  rw [storedRanges, storedRanges, hrange, hfile, hall]

/-- The drive that the passes of `vdf_drive_recalc` start from. -/
def VdfDrive.restart (d : VdfDrive) : VdfDrive :=
  { d with dataEnd := d.dataStart, nonemptyFileCnt := 0, dataClusterEnd := 2 }

/-- A recalculation of `d` that succeeds, in its two passes. -/
theorem vdfDriveRecalc_cases (hdirty : d.dirty = true)
    (h : vdfDriveRecalc qsort fuel d = some (0, d')) :
    d.isValid = true ∧ d.isLocked = false ∧ ∃ d₁,
      dirRecalc fuel d.restart d.rootDir = some d₁ ∧ (offsizePass d₁ d₁.allFiles).1 ≠ -1 ∧
      d' = { (offsizePass d₁ d₁.allFiles).2 with
        ranges := some (qsort ((storedRanges (offsizePass d₁ d₁.allFiles).2).take
          (offsizePass d₁ d₁.allFiles).2.nonemptyFileCnt)), dirty := false } := by
  unfold vdfDriveRecalc at h
  split_ifs at h with hv hl hd
  · cases h
  · cases h
  · rw [hdirty] at hd
    cases hd
  · obtain ⟨d₁, h1, h2⟩ := Option.map_eq_some_iff.1 h
    refine ⟨by simpa using hv, by simpa using hl, d₁, h1, ?_⟩
    simp only [layOut] at h2
    split at h2
    · cases h2
    · rename_i hr
      exact ⟨hr, (Prod.mk.inj h2).2.symm⟩

/-- The first pass writes to the files only. -/
theorem dirRecalc_drive {dir : FileId} (h : dirRecalc fuel d dir = some d') :
    d' = { d with file := d'.file } := by
  induction fuel generalizing d d' dir with
  | zero => cases h
  | succ fuel ih =>
    rw [dirRecalc] at h
    simp only [Option.bind_eq_bind, Option.bind_eq_some_iff] at h
    obtain ⟨d₁, h1, h2⟩ := h
    have hdir (d : VdfDrive) (f : FileId) :
        fileRecalcDir d f = { d with file := (fileRecalcDir d f).file } := by
      unfold fileRecalcDir
      split <;> rfl
    have hloop := Lockstep.foldlM (w := fun (u : Unit) _ => some u)
      (I := fun e _ => e = { d with file := e.file }) (b := ())
      _ (fun {e e' u f} _ he hv => ⟨(), rfl, ?_⟩) rfl h1
    · obtain ⟨-, -, hd₁⟩ := hloop
      obtain ⟨file, rfl⟩ : ∃ file, d₁ = { d with file } := ⟨_, hd₁⟩
      split at h2
      · cases h2
        exact hdir _ _
      · cases h2
        rfl
    · split at hv
      · rw [ih hv, he]
      · cases hv
        rw [hdir, he]

/-- The first recalculation was on `d`. On its result, under any lock count and serial, a forced
recalculation gives that result again. -/
theorem vdfDriveRecalc_again (hent : EntriesLinked d)
    (hroot : (d.file d.rootDir).parent = none) (hdirty : d.dirty = true)
    (h : vdfDriveRecalc qsort fuel d = some (0, d')) (serial : Nat) :
    vdfDriveRecalc qsort fuel { d' with lockcnt := 0, serial, dirty := true } =
      some (0, { d' with lockcnt := 0, serial }) := by
  have hrel := vdfDriveRecalc_relaid h
  obtain ⟨hv, -, a₁, h1, hr, hd'⟩ := vdfDriveRecalc_cases hdirty h
  have ht : Twin d.restart
      (VdfDrive.restart { d' with lockcnt := 0, serial, dirty := true }) :=
    ⟨hrel.geometry, hrel.rootDir, hrel.allFiles, hrel.label, hrel.file⟩
  have hfile : d'.file = (offsizePass a₁ a₁.allFiles).2.file := by rw [hd']
  generalize hb : ({ d' with lockcnt := 0, serial, dirty := true } : VdfDrive) = b at ht ⊢
  have hlay : b.restart.layout = (offsizePass a₁ a₁.allFiles).2.layout := by
    subst hb
    funext i
    simp only [VdfDrive.layout, VdfDrive.restart, hfile]
  -- The first pass.
  obtain ⟨b₁, h1', l₁⟩ := dirRecalc_lockstep ht hent (.inl rfl)
    (fun p hp => nomatch hroot.symm.trans hp) h1
  have ht₁ := ht.relaid (dirRecalc_relaid (.inl rfl) h1) (dirRecalc_relaid (.inl ht.rootDir.symm) h1')
  -- A size is the same or was written by neither run, and then it is that of the result.
  have hkept (k : LayoutField) (x : FileId) (hk : k.get ((offsizePass a₁ a₁.allFiles).2.file x) =
      k.get (a₁.file x)) : k.get (b₁.file x) = k.get (a₁.file x) := by
    rcases l₁ (x, k) with e | ⟨-, e⟩
    · exact e.symm
    · exact e.trans ((congrFun hlay (x, k)).trans hk)
  have hs : InStep a₁ b₁ := by
    refine ⟨ht₁, fun x => hkept .size x (offsizePass_size a₁ _ x).1,
      fun x => hkept .clusters x (offsizePass_size a₁ _ x).2, ?_, ?_, ?_⟩
    all_goals rw [dirRecalc_drive h1, dirRecalc_drive h1']
    · rfl
    · exact congrArg Geometry.dataStart ht.geometry
    · rfl
  -- The second pass.
  obtain ⟨hr', hs', l₂⟩ := offsizePass_lockstep hs a₁.allFiles
  have hlockstep := l₁.trans l₂
  rw [hlay] at hlockstep
  have hfile' := hs'.twin.file_eq hlockstep.fixed
  have hb' := (Relaid.counters b 0 b.ranges b.dirty b.dataStart 2).trans
    ((dirRecalc_relaid (.inl ht.rootDir.symm) h1').trans (offsizePass_relaid b₁ a₁.allFiles))
  have hdrive := hb'.drive
  have hstored := storedRanges_congr hs'.twin.geometry hfile' hs'.twin.allFiles
  have hvalid : b.isValid = true := by
    subst hb
    rw [VdfDrive.isValid, hrel.deleted]
    exact hv
  have hunlocked : b.isLocked = false := by
    subst hb
    rfl
  have hdirty' : b.dirty = true := by
    subst hb
    rfl
  have hlayOut : layOut qsort b₁ = (0, { d' with lockcnt := 0, serial }) := by
    simp only [layOut, ht₁.allFiles, hr', hr, ↓reduceIte, hstored, hs'.nonemptyFileCnt]
    congr 1
    rw [hdrive, hfile', hs'.nonemptyFileCnt, hs'.dataEnd, hs'.dataClusterEnd]
    subst hb
    rw [hd']
  rw [vdfDriveRecalc, if_neg (by simp [hvalid]), if_neg (by simp [hunlocked]),
    if_neg (by simp [hdirty'])]
  change (dirRecalc fuel b.restart b.restart.rootDir).map (layOut qsort) = _
  rw [ht.rootDir, h1', Option.map_some, hlayOut]

end Again

/-! ## Clean drives -/

section Runs

variable {qsort : List FileRange → List FileRange} {d d' : VdfDrive} {w w' : World} {c : Call}
  {r : Except Errno Unit}

/-- The stored layouts of two drives are the same. A file without a size has no place in it but its
slots. -/
structure SameLayout (d d' : VdfDrive) : Prop where
  ranges : d'.ranges = d.ranges
  dataEnd : d'.dataEnd = d.dataEnd
  dataClusterEnd : d'.dataClusterEnd = d.dataClusterEnd
  fentStart : ∀ f, (d'.file f).fentStart = (d.file f).fentStart
  fentCnt : ∀ f, (d'.file f).fentCnt = (d.file f).fentCnt
  place : ∀ f, (d.file f).size ≠ 0 →
    (d'.file f).start = (d.file f).start ∧ (d'.file f).end_ = (d.file f).end_ ∧
      (d'.file f).startsect = (d.file f).startsect ∧ (d'.file f).endsect = (d.file f).endsect

/-- The drive as a forced recalculation takes it. -/
def VdfDrive.force (d : VdfDrive) : VdfDrive := { d with dirty := true, lockcnt := 0 }

/-- A forced recalculation succeeds and gives the stored layout. -/
structure Cached (qsort : List FileRange → List FileRange) (d : VdfDrive) : Prop where
  ends : ∃ fuel, (vdfDriveRecalc qsort fuel d.force).isSome = true
  same : ∀ fuel r d', vdfDriveRecalc qsort fuel d.force = some (r, d') → r = 0 ∧ SameLayout d d'

/-- A failing `strdup` takes no label from a clean drive. -/
def KeepsLabel (d : VdfDrive) (c : Call) : Prop :=
  ∀ label, c = .setDriveLabel (some label) false → d.isLocked = false → d.dirty = false →
    d.label = none

/-- `d` is as a recalculation left it, but for the lock count and the serial. -/
def LaidOut (qsort : List FileRange → List FileRange) (d : VdfDrive) : Prop :=
  ∃ fuel d₀ d' lockcnt serial, EntriesLinked d₀ ∧ (d₀.file d₀.rootDir).parent = none ∧
    d₀.dirty = true ∧ vdfDriveRecalc qsort fuel d₀ = some (0, d') ∧ d = { d' with lockcnt, serial }

theorem LaidOut.relock (h : LaidOut qsort d) (lockcnt serial : Nat) :
    LaidOut qsort { d with lockcnt, serial } := by
  obtain ⟨fuel, d₀, d', n, k, hent, hroot, hdirty, hrec, rfl⟩ := h
  exact ⟨fuel, d₀, d', lockcnt, serial, hent, hroot, hdirty, hrec, rfl⟩

theorem vdfDriveRecalc_unique {m n : Nat} {p q : Int × VdfDrive}
    (hp : vdfDriveRecalc qsort m d = some p) (hq : vdfDriveRecalc qsort n d = some q) : p = q := by
  unfold vdfDriveRecalc at hp hq
  split_ifs at hp hq
  · exact Option.some.inj (hp.symm.trans hq)
  · exact Option.some.inj (hp.symm.trans hq)
  · exact Option.some.inj (hp.symm.trans hq)
  · obtain ⟨d₁, h1, rfl⟩ := Option.map_eq_some_iff.1 hp
    obtain ⟨d₂, h2, rfl⟩ := Option.map_eq_some_iff.1 hq
    rw [dirRecalc_unique h1 h2]

theorem LaidOut.cached (h : LaidOut qsort d) : Cached qsort d := by
  obtain ⟨fuel, d₀, d', n, serial, hent, hroot, hdirty, hrec, rfl⟩ := h
  have hagain := vdfDriveRecalc_again hent hroot hdirty hrec serial
  refine ⟨⟨fuel, ?_⟩, fun fuel' r e he => ?_⟩
  · rw [VdfDrive.force, hagain]
    rfl
  · cases vdfDriveRecalc_unique he hagain
    exact ⟨rfl, rfl, rfl, rfl, fun _ => rfl, fun _ => rfl, fun _ _ => ⟨rfl, rfl, rfl, rfl⟩⟩

theorem offsizePass_dirty (d : VdfDrive) (l : List FileId) :
    (offsizePass d l).2.dirty = d.dirty := by
  induction l generalizing d with
  | nil => rfl
  | cons f l ih =>
    have hf : (fileRecalcOffsize d f).2.dirty = d.dirty := by
      simp only [fileRecalcOffsize]
      split_ifs <;> rfl
    simp only [offsizePass]
    split
    · exact hf
    · rw [ih, hf]

/-- A recalculation that fails leaves the drive dirty. -/
theorem vdfDriveRecalc_failed {fuel : Nat} (hdirty : d.dirty = true)
    (h : vdfDriveRecalc qsort fuel d = some (-1, d')) : d'.dirty = true := by
  unfold vdfDriveRecalc at h
  split_ifs at h
  · cases h
    exact hdirty
  · cases h
    exact hdirty
  · cases h
  · obtain ⟨d₁, h1, h2⟩ := Option.map_eq_some_iff.1 h
    have hd₁ : d₁.dirty = true := by
      rw [dirRecalc_drive h1]
      exact hdirty
    simp only [layOut] at h2
    split at h2 <;> cases h2
    rw [offsizePass_dirty, hd₁]

/-- A call that leaves a drive clean: the drive was clean and keeps its layout, or the call is a
recalculation. -/
theorem Does.clean_cases (h : Does qsort d c r d') (hclean : d'.dirty = false) :
    (d.dirty = false ∧ ∃ lockcnt serial label, d' = { d with lockcnt, serial, label } ∧
      (label = d.label ∨
        label = none ∧ d.isLocked = false ∧ ∃ l, c = .setDriveLabel (some l) false)) ∨
    d.dirty = true ∧ ∃ fuel d₁ lockcnt, vdfDriveRecalc qsort fuel d = some (0, d₁) ∧
      d' = { d₁ with lockcnt } := by
  cases h with
  | refused | stays | clean =>
    exact .inl ⟨hclean, d.lockcnt, d.serial, d.label, rfl, .inl rfl⟩
  | locked | unlocked => exact .inl ⟨hclean, _, d.serial, d.label, rfl, .inl rfl⟩
  | serialSet => exact .inl ⟨hclean, d.lockcnt, _, d.label, rfl, .inl rfl⟩
  | @labelLost l _ hl =>
    exact .inl ⟨hclean, d.lockcnt, d.serial, none, rfl, .inr ⟨rfl, hl, l, rfl⟩⟩
  | laidOut _ _ hdirty hrec => exact .inr ⟨hdirty, _, d', d'.lockcnt, hrec, rfl⟩
  | laidOutLocked _ _ hdirty hrec => exact .inr ⟨hdirty, _, _, _, hrec, rfl⟩
  | layoutFailed _ _ _ hdirty hrec =>
    exact nomatch hclean.symm.trans (vdfDriveRecalc_failed hdirty hrec)
  | recreated _ _ hrec =>
    obtain ⟨g, -, rfl⟩ := Option.map_eq_some_iff.1 hrec
    dsimp only at hclean
    split_ifs at hclean
  | moved _ _ hne | moveFailed _ _ hne => simp [relinkFile_eq d hne] at hclean
  | _ => simp [addFile, dropFile, removeFile, setDriveDirty_dirty] at hclean

/-- A clean drive has the layout of a recalculation before the call, and so it has after it. -/
theorem Does.keepsLaidOut (h : Does qsort d c r d') (hent : EntriesLinked d)
    (hroot : (d.file d.rootDir).parent = none) (hok : KeepsLabel d c)
    (hclean : d.dirty = false → LaidOut qsort d) (hd' : d'.dirty = false) : LaidOut qsort d' := by
  rcases h.clean_cases hd' with ⟨hd, n, serial, label, rfl, hlabel⟩ | ⟨hd, fuel, d₁, n, hrec, rfl⟩
  · obtain rfl : label = d.label := by
      rcases hlabel with e | ⟨e, hl, l, rfl⟩
      · exact e
      · rw [e, hok l rfl hl hd]
    exact (hclean hd).relock n serial
  · exact ⟨fuel, d, d₁, n, d₁.serial, hent, hroot, hd, hrec, rfl⟩

/-- A new drive is dirty. -/
theorem create_dirty {size flags : Nat} {ext : DriveExt} {junk : Uninit} {w₀ : World}
    (h : World.create size flags ext junk = some w₀) : w₀.drive.dirty = true := by
  obtain ⟨d, hd, rfl⟩ := Option.map_eq_some_iff.1 h
  obtain ⟨g, -, rfl⟩ := Option.map_eq_some_iff.1 hd
  rfl

/-- In every run in which no failing `strdup` takes the label of a clean drive, a clean drive has the
layout that a forced recalculation gives. -/
theorem clean_is_cached {size flags : Nat} {ext : DriveExt} {junk : Uninit} {w₀ : World}
    (hcreate : World.create size flags ext junk = some w₀)
    (run : Run qsort (fun w => KeepsLabel w.drive) w₀ w) (hclean : w.drive.dirty = false) :
    Cached qsort w.drive := by
  have h := run.induct
    (P := fun w => Linked w ∧ (w.drive.dirty = false → LaidOut qsort w.drive))
    ⟨(rooted_create hcreate).linked, fun hd => nomatch hd.symm.trans (create_dirty hcreate)⟩
    fun hok ⟨hl, h⟩ hs => ⟨hl.step hs,
      (hl.does hs).1.keepsLaidOut hl.child_of_mem hl.root_parent hok h⟩
  exact (h.2 hclean).cached

/-- `strdup` fails for the new label of a clean drive: the old label is gone, and a forced
recalculation moves the slots of the file. -/
theorem label_lost_on_clean :
    ∃ w, sampleRun [sampleFile, .setDriveLabel (some [0x58]) true, .recalc,
        .setDriveLabel (some [0x59]) false] = some w ∧
      Reachable id w ∧ w.drive.dirty = false ∧ ¬ Cached id w.drive := by
  obtain ⟨w, h, hclean, hdiff⟩ := sampleRun_exists
    (l := [sampleFile, .setDriveLabel (some [0x58]) true, .recalc,
      .setDriveLabel (some [0x59]) false])
    (P := fun w => w.drive.dirty = false ∧
      (vdfDriveRecalc id 8 w.drive.force).any (fun q =>
        decide ((q.2.file 2).fentStart ≠ (w.drive.file 2).fentStart)) = true) (by decide)
  refine ⟨w, h, sampleRun_reachable h, hclean, fun hcached => ?_⟩
  obtain ⟨q, hq, hne⟩ := (Option.any_eq_true _ _).1 hdiff
  exact of_decide_eq_true hne ((hcached.same 8 q.1 q.2 hq).2.fentStart 2)

/-- A label is set, and the drive is recalculated. -/
theorem clean_is_cached_sample :
    ∃ w, sampleRun [sampleFile, .setDriveLabel (some [0x58]) true, .recalc] = some w ∧
      Cached id w.drive := by
  obtain ⟨w₀, h₀, -⟩ := sampleRun_exists (l := []) (P := fun _ => True) (by decide)
  obtain ⟨w₁, h₁, -⟩ := sampleRun_exists (l := [sampleFile]) (P := fun _ => True) (by decide)
  obtain ⟨w₂, h₂, -⟩ := sampleRun_exists
    (l := [sampleFile, .setDriveLabel (some [0x58]) true]) (P := fun _ => True) (by decide)
  obtain ⟨w, h, hclean⟩ := sampleRun_exists
    (l := [sampleFile, .setDriveLabel (some [0x58]) true, .recalc])
    (P := fun w => w.drive.dirty = false) (by decide)
  exact ⟨w, h, clean_is_cached (sampleRun_nil h₀)
    ((((Run.refl w₀).stepTo nofun (sampleRun_concat h₀ h₁)).stepTo
      (by simp [KeepsLabel]) (sampleRun_concat h₁ h₂)).stepTo (by nofun)
      (sampleRun_concat h₂ h)) hclean⟩

end Runs

end Vdf
