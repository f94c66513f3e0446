import Vdf.Cache
import Vdf.Check
import Vdf.Counts
import Vdf.Locked

/-!
# Mounting after a run

The results about a recalculated drive ask for a tree, for counts that fit and for a recalculation.
A drive that an application has made with the calls of the API has all of that whenever it is not
dirty (`Settled`): what is read off it then can be mounted and checked (`run_drive_mounts`).
-/

namespace Vdf

open Word

/-- The calls that keep the tree, and the label of a clean drive. -/
def KeepsLayout (w : World) (c : Call) : Prop := KeepsTree w c ∧ KeepsLabel w.drive c

/-- A clean drive is the recalculated one of a tree. -/
structure Settled (d : VdfDrive) : Prop where
  created : d.force.toGeometry.Created
  tree : d.force.IsTree
  range : d.force.InRange
  count : d.force.allFiles.length ≤ d.force.fileCnt
  recalc : Recalc d.force (d.relock 0 d.serial)

section Runs

variable {qsort : List FileRange → List FileRange} {size flags : Nat} {ext : DriveExt}
  {junk : Uninit} {w₀ w : World}

/-- A forced recalculation gives the drive again. -/
theorem LaidOut.recalc {d : VdfDrive} (h : LaidOut qsort d)
    (hq : Qsort.Lawful cmpFilerange qsort) : Recalc d.force (d.relock 0 d.serial) := by
  obtain ⟨fuel, d₀, d', n, serial, hent, hroot, hdirty, hrec, rfl⟩ := h
  exact ⟨rfl, qsort, fuel, hq, vdfDriveRecalc_again hent hroot hdirty hrec serial⟩

/-- What a run of such calls keeps. -/
theorem Run.laidOut (hcreate : World.create size flags ext junk = some w₀)
    (run : Run qsort KeepsLayout w₀ w) :
    Rooted w ∧ (w.drive.dirty = false → LaidOut qsort w.drive) := by
  refine run.induct (P := fun w => Rooted w ∧ (w.drive.dirty = false → LaidOut qsort w.drive))
    ⟨rooted_create hcreate, fun hd => ?_⟩ fun hok ⟨hr, h⟩ hs => ⟨hr.step hok.1 hs, ?_⟩
  · exact absurd (hd.symm.trans (create_dirty hcreate)) (by simp)
  · exact (hr.linked.does hs).1.keepsLaidOut hr.linked.child_of_mem hr.linked.root_parent hok.2 h

/-- A clean drive at the end of a run is settled. -/
theorem Run.settled (hq : Qsort.Lawful cmpFilerange qsort)
    (hcreate : World.create size flags ext junk = some w₀) (run : Run qsort KeepsLayout w₀ w)
    (hclean : w.drive.dirty = false) (hf : w.drive.filesys ≠ .unset) : Settled w.drive := by
  have hreach : Reachable qsort w :=
    ⟨size, flags, ext, junk, w₀, hcreate, run.mono fun _ => trivial⟩
  obtain ⟨hrooted, hlaid⟩ := run.laidOut hcreate
  have hk := hreach.created.known hf
  have hdata : w.drive.dataStart < 2 ^ 32 := by
    have h1 := hk.fat1_le
    have h2 := hk.fatSectors
    have h3 := hk.rootSectors
    have h4 := hk.fat2
    have h5 := hk.rootStart
    have h6 := hk.dataStart
    omega
  have hcounts := hreach.countsFit
  obtain ⟨h1, h2, h3, h4, h5, h6, h7, h8⟩ := hrooted.isTree
  exact
    { created := hreach.created
      tree := ⟨h1, h2, h3, h4, h5, h6, h7, h8⟩
      range := ⟨hdata, hk.sectors, fun f => (hcounts f).size,
        fun f => (hcounts f).clusters, fun f => (hcounts f).end_⟩
      count := hrooted.linked.fileCnt
      recalc := (hlaid hclean).recalc hq }

end Runs

/-! ## The conditions do not depend on the lock -/

theorem MountFits.force {d : VdfDrive} (h : MountFits d) : MountFits d.force where
  sectors := h.sectors
  clusters := h.clusters
  span := h.span
  empties := h.empties
  dirs := h.dirs
  nonempty := h.nonempty
  size := h.size
  slots dir hb hd := ⟨(h.slots dir hb hd).slots, (h.slots dir hb hd).label⟩
  halves := h.halves
  room := h.room
  boot := ⟨h.boot.filesys, h.boot.spc, h.boot.sectors, h.boot.rootDir, h.boot.room, h.boot.root⟩
  holds := h.holds
  rootRoom := h.rootRoom
  live := h.live
  attr := h.attr
  names f hb hne := by
    obtain ⟨h1, h2, h3, h4, h5⟩ := h.names f hb hne
    exact ⟨h1, h2, h3, h4, h5⟩

theorem CheckFits.force {d : VdfDrive} (h : CheckFits d) : CheckFits d.force where
  toMountFits := h.toMountFits.force
  all := h.all
  exact := h.exact
  label := h.label

/-- What was read off a drive was read off it under any lock. -/
theorem ReadsOff.relock {env : Readers} {d : VdfDrive} {img : Buffer} (h : ReadsOff env d img)
    (n : Nat) : ReadsOff env (d.relock n d.serial) img := by
  have hsame := relock_sameImage d n d.serial (.inl rfl)
  intro x hx
  obtain ⟨s, k, m, p, m', calls, hs, hk, hin, hle, hlt, hrun, hbyte⟩ := h x hx
  exact ⟨s, k, m, p, m', calls, hs, hk, hin, hle, hlt, (hsame env s k m p).trans hrun, hbyte⟩

/-! ## Main result -/

/-- In every run of an application that keeps the tree, what is read off the drive while it is not
dirty mounts as the files that the application has put there, and where a checker could find
something in the sizes or the label, it finds nothing when they are exact. -/
theorem run_drive_mounts {qsort : List FileRange → List FileRange}
    (hq : Qsort.Lawful cmpFilerange qsort) {size flags : Nat} {ext : DriveExt} {junk : Uninit}
    {w₀ w : World} (hcreate : World.create size flags ext junk = some w₀)
    (run : Run qsort KeepsLayout w₀ w) (hclean : w.drive.dirty = false)
    (hfits : MountFits w.drive) {env : Readers} {content : FileId → List UInt8}
    (hE : env.Steady content) (img : Buffer) (himg : ReadsOff env w.drive img) :
    (∃ levels, ∀ depth, levels ≤ depth → ∃ ts,
      mountTree img (w.drive.mbrSectors * w.drive.bps) depth = some ts ∧
        List.Forall₂ (driveHierarchy w.drive content).Denotes
          (w.drive.file w.drive.rootDir).entries ts) ∧
    (CheckFits w.drive → ∃ levels, ∀ depth, levels ≤ depth → ∃ es,
      mountListing img (w.drive.mbrSectors * w.drive.bps) depth = some es ∧
        Clean img (w.drive.mbrSectors * w.drive.bps) es) := by
  have hf := hfits.force.boot.filesys
  have hs := run.settled hq hcreate hclean hf
  have himg := himg.relock 0
  constructor
  · obtain ⟨rs, hmounted, hrel⟩ :=
      hfits.force.recalculated hs.created hf hs.tree hs.range hs.count hs.recalc
    have htree := hmounted.tree_found (hmounted.readsOff_shows hE himg)
    rw [hrel.driveHierarchy hs.tree, hrel.rootDir, hrel.entries] at htree
    exact htree
  · intro hcheck
    obtain ⟨rs, hcheck⟩ :=
      hcheck.force.recalculated hs.created hf hs.tree hs.range hs.count hs.recalc
    exact hcheck.clean (hcheck.readsOff_shows hE himg)

/-! ## A drive that an application makes -/

section Sample

variable {qsort : List FileRange → List FileRange}

/-- Only a recalculation sorts. -/
theorem World.stepTo_qsort (qsort' : List FileRange → List FileRange) (fuel : Nat) (w : World)
    {c : Call} (h : c ≠ .recalc ∧ c ≠ .lock) : w.stepTo qsort fuel c = w.stepTo qsort' fuel c := by
  cases c with
  | recalc => exact absurd rfl h.1
  | lock => exact absurd rfl h.2
  | _ => rfl

/-- Other calls that are always allowed, one after the other. -/
theorem Run.calls {ok : World → Call → Prop} {fuel : Nat} {l : List Call} {w₀ w w' : World}
    (run : Run qsort ok w₀ w)
    (hok : ∀ c ∈ l, (c ≠ .recalc ∧ c ≠ .lock) ∧ ∀ w, ok w c)
    (h : l.foldlM (World.stepTo id fuel) w = some w') : Run qsort ok w₀ w' := by
  induction l generalizing w with
  | nil =>
    cases h
    exact run
  | cons c l ih =>
    rw [List.foldlM_cons, Option.bind_eq_bind, Option.bind_eq_some_iff] at h
    obtain ⟨w₁, hstep, hrest⟩ := h
    obtain ⟨hc, hok₁⟩ := hok c (List.mem_cons_self ..)
    rw [World.stepTo_qsort qsort fuel w hc] at hstep
    exact ih (run.stepTo (hok₁ w) hstep) (fun c hc => hok c (List.mem_cons_of_mem _ hc)) hrest

/-- A directory `D` and a file `read me.txt` of 1000 bytes. -/
def treeCalls : List Call :=
  [.addDir 0 [0x44] (some 1) true 1000000001,
    .addFileVirt 0 [0x72, 0x65, 0x61, 0x64, 0x20, 0x6d, 0x65, 0x2e, 0x74, 0x78, 0x74] 1000 (some 2)
      true 1000000001]

/-- A new FAT16 drive with long names. -/
def treeStart : World :=
  (World.create (262500 * 512) geometryVfat.flags ⟨0, 512, 64, 512⟩ ⟨0, 0, 0, 0⟩).get
    (by decide +kernel)

/-- The drive with the directory and the file. -/
def treeWorld : World := (treeCalls.foldlM (World.stepTo id 8) treeStart).get (by decide +kernel)

/-- The drive when it is locked. -/
def treeDrive : VdfDrive :=
  { recalcDrive treeWorld.drive (unsortedRanges treeWorld.drive) with lockcnt := 1 }

theorem treeStart_create : World.create (262500 * 512) geometryVfat.flags ⟨0, 512, 64, 512⟩
    ⟨0, 0, 0, 0⟩ = some treeStart := (Option.some_get _).symm

theorem treeCalls_run (qsort : List FileRange → List FileRange) :
    Run qsort KeepsLayout treeStart treeWorld := by
  refine (Run.refl treeStart).calls (l := treeCalls) ?_ (Option.some_get _).symm
  simp [treeCalls, KeepsLayout, KeepsTree, KeepsLabel]

/-- The directory comes in front of the file. -/
theorem treeDrive_sorted : Qsort.Result cmpFilerange (unsortedRanges treeWorld.drive)
    (unsortedRanges treeWorld.drive) :=
  ⟨.refl _, fun _ => by decide +kernel⟩

/-- What a recalculation makes of it. -/
theorem treeWorld_recalc : ∃ qsort, Qsort.Lawful cmpFilerange qsort ∧
    vdfDriveRecalc qsort 8 treeWorld.drive =
      some (0, recalcDrive treeWorld.drive (unsortedRanges treeWorld.drive)) := by
  have htree := ((treeCalls_run id).laidOut treeStart_create).1.isTree
  have hcan : CanRecalc treeWorld.drive :=
    ⟨by decide +kernel, by decide +kernel, by decide +kernel, by decide +kernel⟩
  obtain ⟨-, qsort, n, hq, hrec⟩ :=
    (recalc_iff htree (by decide +kernel)).mpr ⟨hcan, _, treeDrive_sorted, rfl⟩
  have hends : (dirRecalc 8 treeWorld.drive.restart treeWorld.drive.rootDir).isSome = true := by
    decide +kernel
  obtain ⟨d₁, hd₁⟩ := Option.isSome_iff_exists.mp hends
  have hrun : vdfDriveRecalc qsort 8 treeWorld.drive = some (layOut qsort d₁) := by
    rw [vdfDriveRecalc, if_neg (by simp [hcan.valid]), if_neg (by simp [hcan.unlocked]),
      if_neg (by simp [hcan.dirty])]
    exact congrArg (Option.map (layOut qsort)) hd₁
  exact ⟨qsort, hq, by rw [hrun, vdfDriveRecalc_unique hrun hrec]⟩

/-- The application locks the drive. -/
theorem treeDrive_run : ∃ qsort w, Qsort.Lawful cmpFilerange qsort ∧
    Run qsort KeepsLayout treeStart w ∧ w.drive = treeDrive := by
  obtain ⟨qsort, hq, hrec⟩ := treeWorld_recalc
  have hvalid : treeWorld.drive.isValid = true := by decide +kernel
  have hcnt : treeWorld.drive.lockcnt = 0 := by decide +kernel
  have hlock : Call.lock.apply qsort 8 treeWorld.drive = some (.ok (), treeDrive) := by
    show vdfDriveLock qsort 8 treeWorld.drive = _
    rw [vdfDriveLock, if_neg (by simp [hvalid]), if_pos hcnt, vdfRecalc, hrec]
    rfl
  have hundef : treeWorld.undef 8 .lock = none := by decide +kernel
  have hstep : treeWorld.Step qsort .lock (.ok ()) { treeWorld with drive := treeDrive } :=
    { files := by simp [Call.files], alloc := by simp [Call.alloc]
      call := ⟨8, by rw [World.call, hundef, hlock]; rfl⟩ }
  exact ⟨qsort, _, hq,
    (treeCalls_run qsort).step (c := .lock) ⟨trivial, by simp [KeepsLabel]⟩ hstep, rfl⟩

theorem treeDrive_below {qsort : List FileRange → List FileRange} {w : World}
    (run : Run qsort KeepsLayout treeStart w) (hw : w.drive = treeDrive) {f : FileId}
    (hb : treeDrive.Below f treeDrive.rootDir) : f ∈ [0, 1, 2] := by
  have htree := (run.laidOut treeStart_create).1.isTree
  rw [hw] at htree
  by_cases hroot : f = treeDrive.rootDir
  · rw [hroot]
    exact List.mem_cons_self ..
  · have hmem := (htree.mem_allFiles f).mpr ⟨hb, fun h => absurd h hroot⟩
    exact List.mem_cons_of_mem _ hmem

theorem treeDrive_names : ∀ f ∈ [1, 2],
    (shortnameField (treeDrive.file f).shortname).head? ≠ some 0xe5 ∧
    DosName (treeDrive.file f).shortname ∧ 0 ∉ (treeDrive.file f).shortname ∧
    InStampRange (treeDrive.file f).date ∧
    (hasLongSlots treeDrive (treeDrive.file f) = true → 1 ≤ (treeDrive.file f).name.length ∧
      (treeDrive.file f).name.length ≤ 255 ∧ ∀ c ∈ (treeDrive.file f).name, 0 < c ∧ c < 0x80) := by
  decide +kernel

/-- It can be mounted and checked. -/
theorem treeDrive_fits {qsort : List FileRange → List FileRange} {w : World}
    (run : Run qsort KeepsLayout treeStart w) (hw : w.drive = treeDrive) : CheckFits treeDrive where
  sectors := by decide +kernel
  clusters := by decide +kernel
  span := by decide +kernel
  empties := by decide +kernel
  dirs := by decide +kernel
  nonempty := by decide +kernel
  size := by decide +kernel
  slots dir hb hd := by
    have hdirs : ∀ dir ∈ [0, 1, 2], (treeDrive.file dir).isDir = true →
        (if (treeDrive.file dir).parent = none ∧ treeDrive.filesys ≠ .fat32 then
          dirSlots treeDrive dir ≤
            treeDrive.rootSectors * treeDrive.direntPerSector + labelSlots treeDrive dir
        else dirSlots treeDrive dir * 32 + (treeDrive.bpc - 1) < 2 ^ 32) ∧
        labelSlots treeDrive dir = 0 := by decide +kernel
    obtain ⟨h1, h2⟩ := hdirs dir (treeDrive_below run hw hb) hd
    exact ⟨h1, .inl h2⟩
  halves h12 := absurd h12 (by decide +kernel)
  room h12 := absurd h12 (by decide +kernel)
  boot :=
    { filesys := by decide +kernel, spc := by decide +kernel, sectors := by decide +kernel
      rootDir := by decide +kernel, room := by decide +kernel, root := by decide +kernel }
  holds := by decide +kernel
  rootRoom := by decide +kernel
  live := by decide +kernel
  attr f hb := (by decide +kernel : ∀ f ∈ [0, 1, 2],
    hasFlag (treeDrive.file f).attr vfaVollabel = false) f (treeDrive_below run hw hb)
  names f hb hne := by
    rcases List.mem_cons.mp (treeDrive_below run hw hb) with rfl | hm
    · exact absurd (by decide +kernel) hne
    · obtain ⟨h1, h2, h3, h4, h5⟩ := treeDrive_names f hm
      exact ⟨h1, h2, h3, h4, h5⟩
  all := by unfold Geometry.FatHolds; decide +kernel
  exact := by decide +kernel
  label := by decide +kernel

/-- What is read off it while it is locked mounts as the directory and the file, and is clean. -/
theorem run_drive_mounts_tree : ∃ qsort w img depth ts es, Run qsort KeepsLayout treeStart w ∧
    w.drive.isLocked = true ∧
    mountTree img (w.drive.mbrSectors * w.drive.bps) depth = some ts ∧
    List.Forall₂ (driveHierarchy w.drive fun _ => [0x48, 0x69]).Denotes [1, 2] ts ∧
    mountListing img (w.drive.mbrSectors * w.drive.bps) depth = some es ∧
    Clean img (w.drive.mbrSectors * w.drive.bps) es := by
  have hE := contentReaders_steady fun _ => [0x48, 0x69]
  obtain ⟨qsort, w, hq, run, hw⟩ := treeDrive_run
  have hfits : CheckFits w.drive := hw ▸ treeDrive_fits run hw
  have hclean : w.drive.dirty = false := by rw [hw]; rfl
  have hf := hfits.force.boot.filesys
  have hs := run.settled hq treeStart_create hclean hf
  -- The drive can be read off.
  obtain ⟨rs, hmounted, -⟩ := hfits.toMountFits.force.recalculated hs.created hf hs.tree hs.range
    hs.count hs.recalc
  have hlen : rs.length = w.drive.fileCnt := by
    have hranges : w.drive.ranges = some rs := hmounted.ranged.ranges
    rw [hw] at hranges ⊢
    cases hranges
    decide +kernel
  have hfat (sector scnt : Nat) : FatStays (w.drive.relock 0 w.drive.serial) rs sector scnt := by
    rw [FatStays, if_neg (by rw [hw]; decide +kernel)]
    exact .inr (.inl hlen.symm)
  have hall : (w.drive.relock 0 w.drive.serial).allSectors ≤ 2 ^ 32 := by rw [hw]; decide +kernel
  obtain ⟨img, himg⟩ := hmounted.exists_readsOff hE hall
    fun s => ⟨fun _ => hfat _ _, fun _ => hfat _ _⟩
  have hmounts := run_drive_mounts hq treeStart_create run hclean hfits.toMountFits hE img
    (himg.relock w.drive.lockcnt)
  obtain ⟨⟨n, htree⟩, hcheck⟩ := hmounts
  obtain ⟨k, hlisting⟩ := hcheck hfits
  obtain ⟨ts, hts, hfiles⟩ := htree (max n k) (Nat.le_max_left ..)
  obtain ⟨es, hes, hnone⟩ := hlisting (max n k) (Nat.le_max_right ..)
  have hentries : (w.drive.file w.drive.rootDir).entries = [1, 2] := by rw [hw]; decide +kernel
  rw [hentries] at hfiles
  exact ⟨qsort, w, img, max n k, ts, es, run, by rw [hw]; rfl, hts, hfiles, hes, hnone⟩

end Sample

end Vdf
