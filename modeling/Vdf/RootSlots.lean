import Vdf.DirServed
import Vdf.Lookup

/-!
# The slots of the root on FAT12 and FAT16

`root_dir_cnt` bounds the slots of the root. `create_file` compares it with the number of files in the
root and nothing else does: a long name takes more slots than one, a label takes one, a move adds an
entry, a new `root_dir_cnt` may be smaller, and `vdf_drive_recalc` counts the slots without a test.

`Slotted` is what a recalculation leaves behind: the root has all the slots of its tree, and its entries
lie one behind the other in them.
-/

namespace Vdf

open Word

/-- All slots of the root: that of the label, and those of the entries and their long names. -/
def rootSlots (d : VdfDrive) : Nat :=
  (if d.label = none then 0 else 1) +
    ((d.file d.rootDir).entries.map fun f => fentsNeeded d f + 1).sum

/-- The slots of the root are within `root_dir_cnt`, and each entry is inside the served region. -/
structure RootInside (d : VdfDrive) : Prop where
  cnt : ((d.file d.rootDir).dirFentCnt : Int) ≤ d.rootDirCnt
  region : ∀ f ∈ (d.file d.rootDir).entries,
    (d.file f).fentStart + (d.file f).fentCnt + 1 ≤ d.rootSectors * d.direntPerSector

/-- The tree has room in the root. -/
structure RootFits (d : VdfDrive) : Prop where
  cnt : (rootSlots d : Int) ≤ d.rootDirCnt
  region : (d.file d.rootDir).entries = [] ∨ rootSlots d ≤ d.rootSectors * d.direntPerSector

/-- The slots of the root, as a recalculation counts them. -/
structure Slotted (d : VdfDrive) : Prop where
  cnt : (d.file d.rootDir).dirFentCnt = rootSlots d
  chain : Chain (fun f => (d.file f).fentStart)
    (fun f => (d.file f).fentStart + (d.file f).fentCnt + 1)
    (reservedSlots d d.rootDir) (d.file d.rootDir).entries (rootSlots d)

section Slots

variable {d d' : VdfDrive}

theorem rootSlots_eq (h : (d.file d.rootDir).parent = none) : rootSlots d = dirSlots d d.rootDir := by
  rw [rootSlots, dirSlots, reservedSlots, if_pos h, entrySlots]

theorem Slotted.inside_iff (h : Slotted d) : RootInside d ↔ RootFits d := by
  constructor
  · rintro ⟨hcnt, hregion⟩
    refine ⟨by rwa [h.cnt] at hcnt, or_iff_not_imp_left.2 fun hne => ?_⟩
    have hlast := List.getLast?_eq_some_getLast hne
    rw [← h.chain.last _ hlast]
    exact hregion _ (List.getLast_mem hne)
  · rintro ⟨hcnt, hregion⟩
    refine ⟨by rwa [h.cnt], fun f hf => ?_⟩
    rcases hregion with hnone | hregion
    · rw [hnone] at hf
      cases hf
    · exact (h.chain.mem hf).2.2.trans hregion

theorem Relaid.twin (h : Relaid d d') : Twin d d' :=
  ⟨h.geometry, h.rootDir, h.allFiles, h.label, h.file⟩

/-- A recalculation keeps all that the slots are counted from. -/
theorem Twin.rootSlots (h : Twin d d') : rootSlots d' = rootSlots d := by
  simp only [Vdf.rootSlots, h.rootDir, h.label, h.entries, h.fentsNeeded]

theorem Twin.rootFits (h : Twin d d') : RootFits d' ↔ RootFits d := by
  have hgeo := h.geometry
  constructor <;> rintro ⟨hcnt, hregion⟩
  · exact ⟨by rwa [h.rootSlots, hgeo] at hcnt, by rwa [h.rootSlots, h.rootDir, h.entries, hgeo] at hregion⟩
  · exact ⟨by rwa [h.rootSlots, hgeo], by rwa [h.rootSlots, h.rootDir, h.entries, hgeo]⟩

end Slots

/-! ## Runs -/

section Runs

variable {qsort : List FileRange → List FileRange} {d d' : VdfDrive} {w w' : World} {c : Call}
  {r : Except Errno Unit} {fuel : Nat}

/-- Another `qsort` leaves another array, and nothing else. -/
theorem vdfDriveRecalc_qsort (qsort' : List FileRange → List FileRange) (hdirty : d.dirty = true)
    (h : vdfDriveRecalc qsort fuel d = some (0, d')) :
    ∃ ranges, vdfDriveRecalc qsort' fuel d = some (0, { d' with ranges }) := by
  obtain ⟨hv, hl, d₁, h1, hr, rfl⟩ := vdfDriveRecalc_cases hdirty h
  refine ⟨some (qsort' ((storedRanges (offsizePass d₁ d₁.allFiles).2).take
    (offsizePass d₁ d₁.allFiles).2.nonemptyFileCnt)), ?_⟩
  rw [vdfDriveRecalc, if_neg (by simp [hv]), if_neg (by simp [hl]), if_neg (by simp [hdirty])]
  exact Option.map_eq_some_iff.2 ⟨d₁, h1, by simp only [layOut, if_neg hr]⟩

/-- A recalculation of a tree counts the slots of the root. -/
theorem vdfDriveRecalc_slotted (ht : d.IsTree) (hk : d.toGeometry.Known) (hdirty : d.dirty = true)
    (h : vdfDriveRecalc qsort fuel d = some (0, d')) : Slotted d' := by
  obtain ⟨qsort', hq⟩ := Qsort.exists_lawful cmpFilerange
  obtain ⟨ranges, h'⟩ := vdfDriveRecalc_qsort qsort' hdirty h
  have htwin := (vdfDriveRecalc_relaid h').twin
  obtain ⟨-, rs, -, e⟩ := (recalc_iff ht hk.dataStart_lt).1 ⟨hdirty, qsort', fuel, hq, h'⟩
  have hslots := rootSlots_eq ht.root_parent
  have hs : Slotted { d' with ranges } := by
    rw [e] at htwin ⊢
    obtain ⟨-, hentries, hcnt, -⟩ := recalc_dir ht rs (VdfDrive.Below.refl _) ht.root_isDir
    refine ⟨?_, ?_⟩
    · rw [htwin.rootDir, hcnt, htwin.rootSlots, hslots]
    · rw [htwin.rootDir, hentries, htwin.rootSlots, hslots, htwin.reservedSlots]
      exact recalc_slot_chain ht rs (VdfDrive.Below.refl _)
  exact ⟨hs.cnt, hs.chain⟩

/-- The calls that keep the files a tree, and no failing `strdup` takes the label of a clean drive. -/
def KeepsTreeLabel (w : World) (c : Call) : Prop := KeepsTree w c ∧ KeepsLabel w.drive c

/-- The slots of a clean drive stay. -/
theorem Does.slotted (h : Does qsort d c r d') (ht : d.IsTree)
    (hg : d.toGeometry.Created) (hok : KeepsLabel d c)
    (hslotted : d.dirty = false → d.filesys ≠ .unset → Slotted d) (hclean : d'.dirty = false)
    (hf : d'.filesys ≠ .unset) : Slotted d' := by
  rcases h.clean_cases hclean with ⟨hd, n, serial, label, rfl, hlabel⟩ | ⟨hd, fuel, d₁, n, hrec, rfl⟩
  · obtain rfl : label = d.label := by
      rcases hlabel with e | ⟨e, hl, l, rfl⟩
      · exact e
      · rw [e, hok l rfl hl hd]
    exact ⟨(hslotted hd hf).cnt, (hslotted hd hf).chain⟩
  · have hk : d.toGeometry.Known := by
      refine hg.known ?_
      rwa [← (vdfDriveRecalc_relaid hrec).geometry]
    have hs := vdfDriveRecalc_slotted ht hk hd hrec
    exact ⟨hs.cnt, hs.chain⟩

/-- A tree, a geometry and slots that were counted. -/
structure RootCounted (w : World) : Prop where
  rooted : Rooted w
  created : w.drive.toGeometry.Created
  slotted : w.drive.dirty = false → w.drive.filesys ≠ .unset → Slotted w.drive

theorem RootCounted.step (h : RootCounted w) (hok : KeepsTreeLabel w c)
    (hs : w.Step qsort c r w') : RootCounted w' := by
  have hdoes := (h.rooted.linked.does hs).1
  refine ⟨h.rooted.step hok.1 hs, ?_, hdoes.slotted h.rooted.isTree h.created hok.2 h.slotted⟩
  rcases hdoes.geometry with e | ⟨size, flags, ext, junk, -, -, h⟩
  · rw [e]
    exact h.created
  · exact ⟨_, _, _, _, h⟩

/-- Whenever a recalculation succeeds on FAT12 or FAT16, the slots of the root are within `root_dir_cnt`
and the served region exactly where the tree has room in the root: that is never tested. -/
theorem root_inside_iff {size flags : Nat} {ext : DriveExt} {junk : Uninit} {w₀ : World}
    (hcreate : World.create size flags ext junk = some w₀)
    (run : Run qsort KeepsTreeLabel w₀ w)
    (hfs : w.drive.filesys = .fat12 ∨ w.drive.filesys = .fat16)
    (hrec : vdfDriveRecalc qsort fuel w.drive = some (0, d')) :
    RootInside d' ↔ RootFits w.drive := by
  have h : RootCounted w := run.induct
    ⟨rooted_create hcreate, (sized_create hcreate).created,
      fun hd => nomatch hd.symm.trans (create_dirty hcreate)⟩
    fun hok h hs => h.step hok hs
  have hf : w.drive.filesys ≠ .unset := by rcases hfs with e | e <;> simp [e]
  have hrelaid := vdfDriveRecalc_relaid hrec
  rw [← hrelaid.twin.rootFits]
  cases hdirty : w.drive.dirty with
  | true =>
    exact (vdfDriveRecalc_slotted h.rooted.isTree (h.created.known hf) hdirty hrec).inside_iff
  | false =>
    -- Nothing is done on a clean drive.
    obtain rfl : w.drive = d' := by
      unfold vdfDriveRecalc at hrec
      split_ifs at hrec
      · cases hrec
      · cases hrec
      · exact (Prod.mk.inj (Option.some.inj hrec)).2
      · rename_i hd
        simp [hdirty] at hd
    exact (h.slotted hdirty hf).inside_iff

/-- The drive with a root of 16 slots, and one file with a name of 200 bytes. -/
def crowdedRoot : List Call :=
  [.recreate (mib 1) vdfVfat ⟨vdeAutoBps ||| vdeAutoSpc, -1, -1, 16⟩ ⟨0, 0, 0, 0⟩,
    .addFileVirt 0 (List.replicate 200 0x61) 0 (some 1) true 0]

/-- The only file of the root takes 17 slots of 16: its short slot, the last one, is not served. -/
theorem root_slots_overflow :
    ∃ w d', sampleRun crowdedRoot = some w ∧ Reachable id w ∧ w.drive.filesys = .fat12 ∧
      vdfDriveRecalc id 8 w.drive = some (0, d') ∧ d'.rootDirCnt = 16 ∧
      (d'.file d'.rootDir).dirFentCnt = 17 ∧ ¬ RootInside d' := by
  obtain ⟨w, h, hfs, hrec⟩ := sampleRun_exists (l := crowdedRoot)
    (P := fun w => w.drive.filesys = .fat12 ∧ (vdfDriveRecalc id 8 w.drive).any (fun q =>
      decide (q.1 = 0 ∧ q.2.rootDirCnt = 16 ∧ (q.2.file q.2.rootDir).dirFentCnt = 17)) = true)
    (by decide +kernel)
  obtain ⟨⟨r, d'⟩, hq, hd⟩ := (Option.any_eq_true _ _).1 hrec
  obtain ⟨rfl, hroot, hcnt⟩ := of_decide_eq_true hd
  refine ⟨w, d', h, sampleRun_reachable h, hfs, hq, hroot, hcnt, fun hin => ?_⟩
  have hle := hin.cnt
  rw [hroot, hcnt] at hle
  exact absurd hle (by decide)

/-- A file and a directory in a root of 512 slots. -/
theorem root_inside_sample :
    ∃ w d', sampleRun [sampleDir, sampleFile] = some w ∧
      vdfDriveRecalc id 8 w.drive = some (0, d') ∧ RootInside d' := by
  obtain ⟨w₀, w, h₀, run, h⟩ := sample_run (k := KeepsTreeLabel)
    (fun _ => ⟨trivial, by nofun⟩) fun _ => ⟨trivial, by nofun⟩
  obtain ⟨w', h', hfs, hrec, hcnt, hregion⟩ := sampleRun_exists (l := [sampleDir, sampleFile])
    (P := fun w => w.drive.filesys = .fat12 ∧
      (vdfDriveRecalc id 8 w.drive).any (fun q => decide (q.1 = 0)) = true ∧
      (rootSlots w.drive : Int) ≤ w.drive.rootDirCnt ∧
      rootSlots w.drive ≤ w.drive.rootSectors * w.drive.direntPerSector) (by decide)
  cases h.symm.trans h'
  obtain ⟨⟨r, d'⟩, hq, hd⟩ := (Option.any_eq_true _ _).1 hrec
  obtain rfl := of_decide_eq_true hd
  exact ⟨w, d', h, hq, (root_inside_iff h₀ run (.inl hfs) hq).2 ⟨hcnt, .inr hregion⟩⟩

end Runs

end Vdf
