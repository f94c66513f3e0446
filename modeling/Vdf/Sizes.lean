import Vdf.Rooted

/-!
# Sizes and clusters

Every regular file has the size that was last asked for and the clusters of that size, as long as no
sum leaves 32 bits and no other cluster size makes the number of clusters of a file another one
(`KeepsSizes`): `vdf_set_file_size` adds in `uint32_t`, both calls that create files narrow a
`size_t`, and `createdrive_ext` computes no file again.
-/

namespace Vdf

open Word

/-- The clusters of `size` bytes, rounded up. -/
def clustersOf (bpc size : Nat) : Nat := (size + (bpc - 1)) / bpc

/-- The file is in use and no directory. -/
def VdfFile.Regular (fil : VdfFile) : Prop :=
  fil.deleted = false ∧ hasFlag fil.attr vfaDir = false

/-! ## What was asked for -/

/-- The lengths that were asked for, after a call that returned `r`. -/
def Call.asks (c : Call) (r : Except Errno Unit) (asked : FileId → Nat) : FileId → Nat :=
  match r, c with
  | .ok _, .addFileReal _ _ _ (some st) (some f) _ => Function.update asked f st.size
  | .ok _, .addFileVirt _ _ len (some f) _ _ => Function.update asked f len
  | .ok _, .setFileSize f size => Function.update asked f (u32 size)
  | _, _ => asked

/-- The clusters of each regular file stay when the cluster size becomes `bpc`. -/
def SameClusters (d : VdfDrive) (bpc : Nat) : Prop :=
  ∀ x, (d.file x).Regular → clustersOf bpc (d.file x).size = clustersOf d.bpc (d.file x).size

/-- `create_file` passes its checks. -/
def CreateAccepted (d : VdfDrive) (c : Call) : Prop :=
  ∃ p name, c.creates = some (p, name) ∧ createCheck d p name = none

/-- No length leaves 32 bits, neither before nor after it is rounded up, and no file needs another
number of clusters. A call that is refused may have any length. -/
def KeepsSizes (d : VdfDrive) (c : Call) : Prop :=
  match c with
  | .addFileReal _ _ _ st .. => CreateAccepted d c → ∀ s ∈ st, s.size < 2 ^ 32
  | .addFileVirt _ _ len .. => CreateAccepted d c → len + (d.bpc - 1) < 2 ^ 32
  | .setFileSize f size =>
    (d.file f).isReal = false → d.lockTest = false → u32 size + (d.bpc - 1) < 2 ^ 32
  | .setFileAttr _ _ mask => hasFlag mask vfaDir = false
  | .recreate size flags ext junk => d.isLocked = false → ∀ g,
      createdriveGeometry size (recreateFlags d flags) ext junk = some g → SameClusters d g.bpc
  | _ => True

/-- A run with the lengths that were asked for. -/
inductive AskedRun (qsort : List FileRange → List FileRange) (w₀ : World) :
    World → (FileId → Nat) → Prop where
  | start : AskedRun qsort w₀ w₀ fun _ => 0
  | step {w w' : World} {asked : FileId → Nat} {c : Call} {r : Except Errno Unit}
      (run : AskedRun qsort w₀ w asked) (hok : KeepsSizes w.drive c) (hstep : w.Step qsort c r w') :
      AskedRun qsort w₀ w' (c.asks r asked)

/-! ## The clusters of a length -/

theorem virtClusters_eq {bpc size : Nat} (h : size + (bpc - 1) < 2 ^ 32) :
    virtClusters bpc size = clustersOf bpc size := by
  rw [virtClusters, clustersOf, u32_of_lt h]

theorem realClusters_eq {bpc size : Nat} (hpos : 0 < bpc) (hle : bpc ≤ 2 ^ 21) (h : size < 2 ^ 32) :
    realClusters bpc size = clustersOf bpc size := by
  have hsum : size + (bpc - 1) < 2 ^ 64 := by omega
  have hdiv : (size + (bpc - 1)) / bpc < 2 ^ 32 := by
    rw [Nat.div_lt_iff_lt_mul hpos]
    omega
  rw [realClusters, clustersOf, u64, Nat.mod_eq_of_lt hsum, u32_of_lt hdiv]

/-! ## The invariant -/

section Runs

variable {qsort : List FileRange → List FileRange} {w₀ w w' : World} {asked : FileId → Nat}
  {c : Call} {r : Except Errno Unit}

/-- A regular file has the size that was asked for, and its clusters. -/
def SizeAsked (d : VdfDrive) (asked : FileId → Nat) (x : FileId) : Prop :=
  (d.file x).Regular →
    (d.file x).size = asked x ∧ (d.file x).clusters = clustersOf d.bpc (d.file x).size

structure Sized (w : World) (asked : FileId → Nat) : Prop where
  linked : Linked w
  created : w.drive.toGeometry.Created
  root : hasFlag (w.drive.file w.drive.rootDir).attr vfaDir = true
  file : ∀ x ∈ w.handles, SizeAsked w.drive asked x

/-- The new file. -/
theorem newFile_sizeAsked {d : VdfDrive} {p f : FileId} {name s : List UInt8} {l : Bool}
    (hg : d.toGeometry.Created) (hok : KeepsSizes d c) (hc : c.creates = some (p, name))
    (hcheck : createCheck d p name = none) (ha : c.alloc = some f)
    (hreg : (c.newFile d.bpc p name s l).Regular) :
    (c.newFile d.bpc p name s l).size = c.asks (.ok ()) asked f ∧
      (c.newFile d.bpc p name s l).clusters =
        clustersOf d.bpc (c.newFile d.bpc p name s l).size := by
  obtain ⟨hpos, hle⟩ := hg.bpc
  have hacc : CreateAccepted d c := ⟨p, name, hc, hcheck⟩
  cases c <;> simp only [Call.creates, Call.alloc, reduceCtorEq] at hc ha
  case addDir => cases hreg.2.symm.trans (newFile_attr (c := .addDir ..) rfl)
  case addFileReal st _ _ =>
    subst ha
    cases st with
    | none => cases hc
    | some st =>
      have hlt : st.size < 2 ^ 32 := hok hacc st rfl
      simp [Call.newFile, Call.fill, Call.asks, u32_of_lt hlt, realClusters_eq hpos hle hlt]
  case addFileVirt len _ _ _ =>
    subst ha
    have hlt : len + (d.bpc - 1) < 2 ^ 32 := hok hacc
    have hlen : len < 2 ^ 32 := by omega
    simp [Call.newFile, Call.fill, Call.asks, u32_of_lt hlen, virtClusters_eq hlt]

/-- A file that was there before, and is not set. -/
theorem Rewrite.sizeAsked {d d' : VdfDrive} {x : FileId} (h : Rewrite d x c r (d'.file x))
    (hok : KeepsSizes d c) (hset : ∀ n, c = .setFileSize x n → r ≠ .ok ()) (hroot : x ≠ d.rootDir)
    (hbpc : d'.bpc = d.bpc ∨ SameClusters d d'.bpc) (hs : SizeAsked d asked x) :
    SizeAsked d' asked x := by
  suffices h : (d'.file x).Regular → (d.file x).Regular ∧ (d'.file x).size = (d.file x).size ∧
      (d'.file x).clusters = (d.file x).clusters by
    intro hreg
    obtain ⟨hreg, hsize, hclusters⟩ := h hreg
    obtain ⟨h1, h2⟩ := hs hreg
    rw [hsize, hclusters]
    refine ⟨h1, h2.trans ?_⟩
    rcases hbpc with e | e
    · rw [e]
    · exact (e x hreg).symm
  generalize d'.file x = fil at h
  intro hreg
  cases h with
  | links _ _ _ _ hlive => exact ⟨⟨hlive hreg.1, hreg.2⟩, rfl, rfl⟩
  | layout b hsize =>
    have hd : (d.file x).isDir = false := by simp [VdfFile.isDir, show hasFlag (d.file x).attr vfaDir = false from hreg.2]
    exact ⟨hreg, hsize hd hroot⟩
  | sized => exact absurd rfl (hset _ rfl)
  | attrSet =>
    have hattr := hreg.2
    rw [hasFlag_setAttr _ _ hok] at hattr
    exact ⟨⟨hreg.1, hattr⟩, rfl, rfl⟩
  | moved | renamed | renameFailed | shortRenamed | fatSized | dated => exact ⟨hreg, rfl, rfl⟩

/-- The lengths that a call does not ask for. -/
theorem asks_of_ne {x : FileId} (hx : c.alloc ≠ some x)
    (hset : ∀ n, c = .setFileSize x n → r ≠ .ok ()) : c.asks r asked x = asked x := by
  cases r with
  | error e => rfl
  | ok u =>
    cases c <;> try rfl
    case addFileReal st a _ =>
      cases st <;> cases a <;> try rfl
      exact Function.update_of_ne (fun e => hx (by rw [e]; rfl)) _ _
    case addFileVirt a _ _ =>
      cases a <;> try rfl
      exact Function.update_of_ne (fun e => hx (by rw [e]; rfl)) _ _
    case setFileSize f n =>
      exact Function.update_of_ne (fun e => hset n (by rw [e]) rfl) _ _

theorem Sized.step (h : Sized w asked) (hok : KeepsSizes w.drive c) (hs : w.Step qsort c r w') :
    Sized w' (c.asks r asked) := by
  have hl := h.linked.step hs
  obtain ⟨hdoes, hw', fuel, -⟩ := h.linked.does hs
  have hgeo : w'.drive.bpc = w.drive.bpc ∨ SameClusters w.drive w'.drive.bpc := by
    rcases hdoes.geometry with e | ⟨size, flags, ext, junk, rfl, hunlocked, hg⟩
    · exact .inl (by rw [e])
    · exact .inr (hok hunlocked _ hg)
  have hnew : c.alloc ≠ some w.drive.rootDir := fun e => hs.alloc _ e h.linked.root_mem
  refine ⟨hl, ?_, ?_, fun x hx => ?_⟩
  · rcases hdoes.geometry with e | ⟨size, flags, ext, junk, rfl, hunlocked, hg⟩
    · rw [e]
      exact h.created
    · exact ⟨_, _, _, _, hg⟩
  · rw [hdoes.rootDir, (hdoes.rewrite hnew).dirFlag]
    · exact h.root
    · rintro attr mask rfl
      exact hok
  · rw [hw', World.after_handles] at hx
    by_cases hxn : c.alloc = some x
    · -- The new file.
      obtain ⟨rfl, -⟩ := hx.resolve_left (hs.alloc x hxn)
      obtain ⟨p, name, s, l, hc, hcheck, -, hd⟩ := hdoes.new hxn
      intro hreg
      rw [hd] at hreg ⊢
      have hfile : (addFile w.drive p x (c.newFile w.drive.bpc p name s l)).file x =
          c.newFile w.drive.bpc p name s l := by simp [addFile]
      rw [hfile] at hreg ⊢
      simpa [addFile] using newFile_sizeAsked h.created hok hc hcheck hxn hreg
    · have hx : x ∈ w.handles := hx.resolve_right fun h => hxn h.2
      by_cases hset : ∃ n, c = .setFileSize x n ∧ r = .ok ()
      · -- Its size is set.
        obtain ⟨n, rfl, rfl⟩ := hset
        generalize w'.drive = d' at hdoes
        cases hdoes with
        | sized hreal hlock =>
          intro hreg
          have hlt := hok hreal hlock
          simp [Call.asks, virtClusters_eq hlt]
        | created hc => cases hc
      · have hset : ∀ n, c = .setFileSize x n → r ≠ .ok () := fun n e hr => hset ⟨n, e, hr⟩
        rw [SizeAsked, asks_of_ne hxn hset]
        by_cases hroot : x = w.drive.rootDir
        · intro hreg
          subst hroot
          have hroot := hreg.2
          rw [(hdoes.rewrite hnew).dirFlag (by rintro attr mask rfl; exact hok)] at hroot
          cases hroot.symm.trans h.root
        · exact (hdoes.rewrite hxn).sizeAsked hok hset hroot hgeo (h.file x hx)

theorem sized_create {size flags : Nat} {ext : DriveExt} {junk : Uninit}
    (h : World.create size flags ext junk = some w₀) : Sized w₀ fun _ => 0 := by
  have hr := rooted_create h
  obtain ⟨d, hd, rfl⟩ := Option.map_eq_some_iff.1 h
  have hfile := (createdriveExt_new hd).2.1
  refine ⟨hr.linked, ⟨_, _, _, _, createdriveExt_geometry hd⟩, hr.dir _ hr.root_dir, fun x hx hreg => ?_⟩
  have hdir := hr.dir x (by simpa using hx)
  exact nomatch hreg.2.symm.trans hdir

/-- In every run in which no length leaves 32 bits and no file needs another number of clusters after
the drive is created again, each regular file has the length that was last asked for and its
clusters. -/
theorem sizes_exact {size flags : Nat} {ext : DriveExt} {junk : Uninit}
    (hcreate : World.create size flags ext junk = some w₀) (run : AskedRun qsort w₀ w asked) :
    ∀ x ∈ w.handles, (w.drive.file x).Regular →
      (w.drive.file x).size = asked x ∧
        (w.drive.file x).clusters = clustersOf w.drive.bpc (w.drive.file x).size := by
  have h : Sized w asked := by
    induction run with
    | start => exact sized_create hcreate
    | step _ hok hs ih => exact ih.step hok hs
  exact h.file

/-- A file of `2^32 - 1` bytes has no cluster. -/
theorem addFileVirt_clusters_wrap :
    ∃ w, sampleRun [sampleDir, .addFileVirt 0 [0x42] 0xffffffff (some 2) true 0] = some w ∧
      Reachable id w ∧ 2 ∈ w.handles ∧ (w.drive.file 2).Regular ∧
      (w.drive.file 2).size = 0xffffffff ∧ (w.drive.file 2).clusters = 0 ∧
      (w.drive.file 2).clusters ≠ clustersOf w.drive.bpc (w.drive.file 2).size := by
  obtain ⟨w, h, hP⟩ := sampleRun_exists
    (l := [sampleDir, .addFileVirt 0 [0x42] 0xffffffff (some 2) true 0])
    (P := fun w => 2 ∈ w.handles ∧ ((w.drive.file 2).deleted = false ∧
      hasFlag (w.drive.file 2).attr vfaDir = false) ∧ (w.drive.file 2).size = 0xffffffff ∧
      (w.drive.file 2).clusters = 0 ∧
      (w.drive.file 2).clusters ≠ clustersOf w.drive.bpc (w.drive.file 2).size) (by decide)
  exact ⟨w, h, sampleRun_reachable h, hP⟩

/-- A file with 7 clusters of 8 KiB. -/
theorem sizes_exact_sample :
    ∃ (w : World) (asked : FileId → Nat),
      sampleRun [sampleFile, .setFileSize 2 50000] = some w ∧ (w.drive.file 2).clusters = 7 ∧
      (w.drive.file 2).size = asked 2 ∧
      (w.drive.file 2).clusters = clustersOf w.drive.bpc (w.drive.file 2).size := by
  obtain ⟨w₀, h₀, hok₀⟩ := sampleRun_exists (l := [])
    (P := fun w => 0 + (w.drive.bpc - 1) < 2 ^ 32) (by decide)
  obtain ⟨w₁, h₁, hok⟩ := sampleRun_exists (l := [sampleFile])
    (P := fun w => u32 50000 + (w.drive.bpc - 1) < 2 ^ 32) (by decide)
  obtain ⟨w, h, hmem, hreg, hseven⟩ := sampleRun_exists (l := [sampleFile, .setFileSize 2 50000])
    (P := fun w => 2 ∈ w.handles ∧ ((w.drive.file 2).deleted = false ∧
      hasFlag (w.drive.file 2).attr vfaDir = false) ∧ (w.drive.file 2).clusters = 7) (by decide)
  obtain ⟨r₁, hs₁⟩ := World.step_of_stepTo (sampleRun_concat h₀ h₁)
  obtain ⟨r, hs⟩ := World.step_of_stepTo (sampleRun_concat h₁ h)
  have hok₀ : KeepsSizes w₀.drive sampleFile := fun _ => hok₀
  have hok : KeepsSizes w₁.drive (.setFileSize 2 50000) := fun _ _ => hok
  exact ⟨w, _, h, hseven, sizes_exact (sampleRun_nil h₀)
    ((AskedRun.start.step hok₀ hs₁).step hok hs) 2 hmem hreg⟩

end Runs

end Vdf
