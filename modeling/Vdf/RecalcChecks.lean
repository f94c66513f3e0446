import Vdf.BootParse

/-!
# The array of ranges and the capacity checks

`vdf_drive_recalc` counts the files of non-zero size in its first pass and stores a range for these
and for every directory in its second. A directory has size zero when its slots are none or a
multiple of `2^27`, and a file of non-zero size has no clusters when rounding its size up left 32
bits.

The first pass also rejects a file that starts or ends at the last sector or behind it. That is the
capacity in whole clusters but for an area without a sector left over that is filled completely, and
for a sector count that leaves 32 bits.
-/

namespace Vdf

open Word

/-! ## The array of ranges -/

/-- A file was given clusters. -/
def VdfFile.hasClusters (fil : VdfFile) : Bool := fil.size != 0 && fil.clusters != 0

/-- The second pass stores a range for each file with clusters and for no other, as many as the
array has room for. -/
structure RangesExact (d : VdfDrive) : Prop where
  count : (storedRanges d).length = d.nonemptyFileCnt
  files : (storedRanges d).map FileRange.file =
    d.allFiles.filter fun f => (d.file f).hasClusters

/-- The drives whose files have clusters: the slots of a directory are some, and in bytes they leave
room in 32 bits for rounding up; any other file that is not empty has a cluster. -/
structure FilesCounted (d : VdfDrive) : Prop where
  dirs : ∀ f ∈ d.allFiles, (d.file f).isDir = true →
    dirSlots d f * 32 % 2 ^ 32 ≠ 0 ∧ dirSlots d f * 32 % 2 ^ 32 + d.bpc ≤ 2 ^ 32
  files : ∀ f ∈ d.allFiles, (d.file f).isDir = false →
    (d.file f).size ≠ 0 → (d.file f).clusters ≠ 0

section Ranges

variable {d : VdfDrive}

theorem storedRanges_files (d : VdfDrive) (rs : List FileRange) :
    (storedRanges (recalcDrive d rs)).map FileRange.file = storedFiles d := by
  rw [storedRanges, List.map_map]
  have hfile : FileRange.file ∘ fileRange (recalcDrive d rs) = id := rfl
  rw [hfile, List.map_id]
  refine List.filter_congr fun f (hf : f ∈ d.allFiles) => ?_
  obtain ⟨hsize, -, hdir⟩ := laidOut_static d.toGeometry (usedBefore (numbered d) d.allFiles f)
    (numbered d f)
  show ((recalcFile d f).isDir || (recalcFile d f).size != 0) = _
  rw [recalcFile_mem hf, hsize, hdir, (numbered_static d f).1]

/-- The files with clusters, before the passes. -/
theorem hasClusters_files (d : VdfDrive) (rs : List FileRange) :
    ((recalcDrive d rs).allFiles.filter fun f => ((recalcDrive d rs).file f).hasClusters) =
      d.allFiles.filter fun f => (numbered d f).hasClusters := by
  refine List.filter_congr fun f (hf : f ∈ d.allFiles) => ?_
  obtain ⟨hsize, hclusters, -⟩ := laidOut_static d.toGeometry
    (usedBefore (numbered d) d.allFiles f) (numbered d f)
  show (recalcFile d f).hasClusters = _
  rw [recalcFile_mem hf, VdfFile.hasClusters, VdfFile.hasClusters, hsize, hclusters]

/-- A directory gets clusters exactly where its slots are counted right. -/
theorem dir_hasClusters (hbpc : 0 < d.bpc) (hlt : d.bpc < 2 ^ 32) {f : FileId}
    (hdir : (d.file f).isDir = true) : (numbered d f).hasClusters = true ↔
      dirSlots d f * 32 % 2 ^ 32 ≠ 0 ∧ dirSlots d f * 32 % 2 ^ 32 + d.bpc ≤ 2 ^ 32 := by
  have hsize : (sized d f).size = dirSlots d f * 32 % 2 ^ 32 := by
    rw [sized, if_pos hdir, dirSize, u32]
  have hclusters : (sized d f).clusters = dirClusters d.bpc (dirSlots d f * 32 % 2 ^ 32) := by
    rw [sized, if_pos hdir, dirSize, u32]
  rw [VdfFile.hasClusters, (numbered_sized d f).1, (numbered_sized d f).2, hsize, hclusters,
    Bool.and_eq_true, bne_iff_ne, bne_iff_ne]
  have hmod : dirSlots d f * 32 % 2 ^ 32 < 2 ^ 32 := Nat.mod_lt _ (by decide)
  generalize dirSlots d f * 32 % 2 ^ 32 = n at hmod ⊢
  refine and_congr_right fun hn => ?_
  rw [dirClusters, Ne, Nat.div_eq_zero_iff]
  by_cases hfit : n + d.bpc ≤ 2 ^ 32
  · rw [u32_of_lt (by omega)]
    exact iff_of_true (by omega) hfit
  · refine iff_of_false (fun h => h (.inr ?_)) hfit
    unfold u32
    omega

/-- The stored files are the ones with clusters. -/
theorem filesCounted_iff (hbpc : 0 < d.bpc) (hlt : d.bpc < 2 ^ 32) : FilesCounted d ↔
    ∀ f ∈ d.allFiles, ((d.file f).isDir || (numbered d f).size != 0) = true →
      (numbered d f).hasClusters = true := by
  have hfile : ∀ f, (d.file f).isDir = false → (numbered d f).size = (d.file f).size ∧
      (numbered d f).clusters = (d.file f).clusters := by
    intro f hf
    have hsized : sized d f = d.file f := by rw [sized, if_neg (by simp [hf])]
    rw [(numbered_sized d f).1, (numbered_sized d f).2, hsized]
    exact ⟨rfl, rfl⟩
  constructor
  · intro h f hm hstored
    cases hdir : (d.file f).isDir with
    | true => exact (dir_hasClusters hbpc hlt hdir).2 (h.dirs f hm hdir)
    | false =>
      rw [hdir, Bool.false_or, bne_iff_ne, (hfile f hdir).1] at hstored
      rw [VdfFile.hasClusters, (hfile f hdir).1, (hfile f hdir).2, Bool.and_eq_true, bne_iff_ne,
        bne_iff_ne]
      exact ⟨hstored, h.files f hm hdir hstored⟩
  · intro h
    refine ⟨fun f hm hdir => ?_, fun f hm hdir hsize => ?_⟩
    · exact (dir_hasClusters hbpc hlt hdir).1 (h f hm (by rw [hdir]; rfl))
    · have hc := h f hm (by rw [hdir, Bool.false_or, bne_iff_ne, (hfile f hdir).1]; exact hsize)
      rw [VdfFile.hasClusters, Bool.and_eq_true, bne_iff_ne, bne_iff_ne, (hfile f hdir).2] at hc
      exact hc.2

/-- The array is exact exactly where every stored file has clusters. -/
theorem rangesExact_iff (d : VdfDrive) (rs : List FileRange) : RangesExact (recalcDrive d rs) ↔
    ∀ f ∈ d.allFiles, ((d.file f).isDir || (numbered d f).size != 0) = true →
      (numbered d f).hasClusters = true := by
  have hstored : ∀ f, (numbered d f).hasClusters = true →
      ((d.file f).isDir || (numbered d f).size != 0) = true := by
    intro f h
    rw [VdfFile.hasClusters, Bool.and_eq_true] at h
    rw [h.1, Bool.or_true]
  constructor
  · intro h f hm hf
    have hfiles := h.files
    rw [storedRanges_files, hasClusters_files] at hfiles
    have hmem : f ∈ storedFiles d := List.mem_filter.2 ⟨hm, hf⟩
    rw [hfiles] at hmem
    exact (List.mem_filter.1 hmem).2
  · intro h
    have hfiles : storedFiles d = d.allFiles.filter fun f => (numbered d f).hasClusters := by
      refine List.filter_congr fun f hm => ?_
      rw [Bool.eq_iff_iff]
      exact ⟨h f hm, hstored f⟩
    refine ⟨?_, by rw [storedRanges_files, hasClusters_files, hfiles]⟩
    have hlen := congrArg List.length (storedRanges_files d rs)
    rw [List.length_map] at hlen
    rw [hlen]
    show (storedFiles d).length = (laidFiles d).length
    congr 1
    refine List.filter_congr fun f hm => ?_
    rw [Bool.eq_iff_iff]
    constructor
    · intro hf
      have := h f hm hf
      rw [VdfFile.hasClusters, Bool.and_eq_true] at this
      exact this.1
    · intro hf
      rw [hf, Bool.or_true]

end Ranges

/-- The second pass fills the array exactly where every directory and every file that is not empty
has clusters. -/
theorem recalc_ranges_iff (d d' : VdfDrive) (hg : d.toGeometry.Created) (ht : d.IsTree)
    (hds : d.dataStart < 2 ^ 32) (h : Recalc d d') : RangesExact d' ↔ FilesCounted d := by
  obtain ⟨-, rs, -, rfl⟩ := (recalc_iff ht hds).1 h
  have hbpc := hg.bpc
  rw [rangesExact_iff, filesCounted_iff hbpc.1 (Nat.lt_of_le_of_lt hbpc.2 (by decide))]

theorem recalc_ranges_two : ∃ d', Recalc drive16 d' ∧ RangesExact d' := by
  obtain ⟨rs, hq⟩ := Qsort.exists_result cmpFilerange (unsortedRanges drive16)
  have h : Recalc drive16 (recalcDrive drive16 rs) :=
    (recalc_iff drive16_isTree drive16_inRange.dataStart).2 ⟨drive16_canRecalc, rs, hq, rfl⟩
  refine ⟨_, h, (recalc_ranges_iff drive16 _ geometry16_created drive16_isTree
    drive16_inRange.dataStart h).2 ⟨by decide, by decide⟩⟩

/-- The root of an empty FAT32 drive without a label is not counted, and is stored behind the end of
an array of no ranges. -/
theorem recalc_ranges_empty : ∃ d', Recalc driveEmpty32 d' ∧ d'.nonemptyFileCnt = 0 ∧
    (storedRanges d').length = 1 ∧ ¬ RangesExact d' := by
  obtain ⟨rs, hq⟩ := Qsort.exists_result cmpFilerange (unsortedRanges driveEmpty32)
  have ht : driveEmpty32.IsTree := flatDrive_isTree _ _ _
  have h : Recalc driveEmpty32 (recalcDrive driveEmpty32 rs) :=
    (recalc_iff ht (by decide)).2 ⟨⟨rfl, rfl, rfl, by decide⟩, rs, hq, rfl⟩
  have hcount : (recalcDrive driveEmpty32 rs).nonemptyFileCnt = 0 := by
    show (laidFiles driveEmpty32).length = 0
    decide
  have hlen := congrArg List.length (storedRanges_files driveEmpty32 rs)
  rw [List.length_map, show (storedFiles driveEmpty32).length = 1 by decide] at hlen
  refine ⟨_, h, hcount, hlen, fun he => ?_⟩
  have := he.count
  omega

/-! ## The capacity checks -/

/-- The trees for which the checks say whether the clusters suffice: the files do not fill an area
that ends with the drive, and a sector count that leaves 32 bits is at or behind the end of the
drive for some file. -/
structure CapacityChecked (d : VdfDrive) : Prop where
  leftover : laidFiles d ≠ [] → totalUsed d ≤ d.clusters → d.dataStart ≤ d.sectors ∧
    ¬ (totalUsed d = d.clusters ∧ (d.sectors - d.dataStart) % d.spc = 0)
  wraps : 2 ^ 32 ≤ d.dataStart + totalUsed d * d.spc → ∃ f ∈ laidFiles d,
    d.sectors ≤ (d.dataStart + usedBefore (numbered d) d.allFiles f * d.spc) % 2 ^ 32 ∨
    d.sectors ≤ (d.dataStart +
      (usedBefore (numbered d) d.allFiles f + (numbered d f).clusters) * d.spc) % 2 ^ 32

section Capacity

variable {d : VdfDrive}

/-- The first and the last file with clusters. -/
theorem laidFiles_ends (ht : d.IsTree) (hne : laidFiles d ≠ []) :
    (∃ f ∈ laidFiles d, usedBefore (numbered d) d.allFiles f = 0) ∧
      ∃ f ∈ laidFiles d, usedBefore (numbered d) d.allFiles f + (numbered d f).clusters =
        totalUsed d := by
  have hchain := exact_chain (numbered d) ht.nodup_allFiles
  exact ⟨⟨_, List.head_mem hne, hchain.head _ (List.head?_eq_some_head hne)⟩,
    ⟨_, List.getLast_mem hne, hchain.last _ (List.getLast?_eq_some_getLast hne)⟩⟩

/-- The checks fail at a file that starts or ends at the end of the drive or behind it. -/
theorem canRecalc_iff (hdirty : d.dirty = true) (hvalid : d.isValid = true)
    (hlock : d.isLocked = false) : CanRecalc d ↔ ∀ f ∈ laidFiles d,
      sectorOf d.toGeometry (usedBefore (numbered d) d.allFiles f) < d.sectors ∧
      sectorOf d.toGeometry (usedBefore (numbered d) d.allFiles f + (numbered d f).clusters) <
        d.sectors := by
  constructor
  · intro h f hf
    obtain ⟨hm, hsize⟩ := mem_laidFiles.1 hf
    exact h.fits f hm hsize
  · intro h
    exact ⟨hdirty, hvalid, hlock, fun f hm hsize => h f (mem_laidFiles.2 ⟨hm, hsize⟩)⟩

/-- As long as no count leaves 32 bits, the last file decides. -/
theorem canRecalc_iff_of_lt (ht : d.IsTree) (hdirty : d.dirty = true) (hvalid : d.isValid = true)
    (hlock : d.isLocked = false) (hlt : d.dataStart + totalUsed d * d.spc < 2 ^ 32) :
    CanRecalc d ↔ (laidFiles d ≠ [] → d.dataStart + totalUsed d * d.spc < d.sectors) := by
  have hsector : ∀ k ≤ totalUsed d, sectorOf d.toGeometry k = d.dataStart + k * d.spc := by
    intro k hk
    have := Nat.mul_le_mul_right d.spc hk
    exact u32_of_lt (by omega)
  rw [canRecalc_iff hdirty hvalid hlock]
  constructor
  · intro h hne
    obtain ⟨f, hf, hlast⟩ := (laidFiles_ends ht hne).2
    have hend := (h f hf).2
    rwa [hlast, hsector _ (Nat.le_refl _)] at hend
  · intro h f hf
    have hroom := h (List.ne_nil_of_mem hf)
    have hle := usedBefore_le ht hf
    have hle' : usedBefore (numbered d) d.allFiles f ≤ totalUsed d := by omega
    have hmul := Nat.mul_le_mul_right d.spc hle
    have hmul' := Nat.mul_le_mul_right d.spc hle'
    rw [hsector _ hle, hsector _ hle']
    omega

/-- A recalculation succeeds where it can. -/
theorem exists_recalc_iff (ht : d.IsTree) (hds : d.dataStart < 2 ^ 32) :
    (∃ d', Recalc d d') ↔ CanRecalc d := by
  constructor
  · rintro ⟨d', h⟩
    exact ((recalc_iff ht hds).1 h).1
  · intro h
    obtain ⟨rs, hq⟩ := Qsort.exists_result cmpFilerange (unsortedRanges d)
    exact ⟨_, (recalc_iff ht hds).2 ⟨h, rs, hq, rfl⟩⟩

/-- With the data area on the drive, its clusters are what fits behind `data_start`. -/
theorem Geometry.Known.room {g : Geometry} (k : g.Known) (hfit : g.dataStart ≤ g.sectors) :
    g.clusters = (g.sectors - g.dataStart) / g.spc := by
  rw [k.clusters, subU32_of_le k.sectors hfit]

/-- The data area behind the drive: only a tree without clusters is accepted. -/
theorem capacity_outside (ht : d.IsTree) (hds : d.dataStart < 2 ^ 32) (hdirty : d.dirty = true)
    (hvalid : d.isValid = true) (hlock : d.isLocked = false) (hfit : d.sectors < d.dataStart) :
    (CanRecalc d ↔ totalUsed d ≤ d.clusters) ↔ CapacityChecked d := by
  by_cases hne : laidFiles d = []
  · have hcan : CanRecalc d := by
      rw [canRecalc_iff hdirty hvalid hlock, hne]
      exact nofun
    have hused : totalUsed d = 0 := by rw [totalUsed_eq, hne, List.map_nil, List.sum_nil]
    refine iff_of_true (iff_of_true hcan (by omega)) ⟨fun h => absurd hne h, fun hwrap => ?_⟩
    rw [hused, Nat.zero_mul] at hwrap
    omega
  · obtain ⟨f, hf, hzero⟩ := (laidFiles_ends ht hne).1
    have hstart : d.sectors ≤
        (d.dataStart + usedBefore (numbered d) d.allFiles f * d.spc) % 2 ^ 32 := by
      rw [hzero, Nat.zero_mul, Nat.add_zero, Nat.mod_eq_of_lt hds]
      omega
    have hcan : ¬ CanRecalc d := by
      rw [canRecalc_iff hdirty hvalid hlock]
      exact fun h => absurd (h f hf).1 (Nat.not_lt.2 hstart)
    constructor
    · intro h
      refine ⟨fun _ hle => absurd (h.2 hle) hcan, fun _ => ⟨f, hf, .inl hstart⟩⟩
    · intro h
      refine iff_of_false hcan fun hle => ?_
      have := (h.leftover hne hle).1
      omega

/-- Without a wrap the last sector of the area decides. -/
theorem capacity_inside (ht : d.IsTree) (hdirty : d.dirty = true) (hvalid : d.isValid = true)
    (hlock : d.isLocked = false) (hspc : 0 < d.spc) (hfit : d.dataStart ≤ d.sectors)
    (hroom : d.clusters = (d.sectors - d.dataStart) / d.spc)
    (hlt : d.dataStart + totalUsed d * d.spc < 2 ^ 32) :
    (CanRecalc d ↔ totalUsed d ≤ d.clusters) ↔ CapacityChecked d := by
  have hdiv := Nat.div_add_mod (d.sectors - d.dataStart) d.spc
  have hmod := Nat.mod_lt (d.sectors - d.dataStart) hspc
  rw [← hroom, Nat.mul_comm] at hdiv
  rw [canRecalc_iff_of_lt ht hdirty hvalid hlock hlt]
  have hwraps : ¬ 2 ^ 32 ≤ d.dataStart + totalUsed d * d.spc := by omega
  by_cases hle : totalUsed d ≤ d.clusters
  · have hmul := Nat.mul_le_mul_right d.spc hle
    constructor
    · intro h
      refine ⟨fun hne _ => ⟨hfit, ?_⟩, fun hw => absurd hw hwraps⟩
      rintro ⟨heq, hzero⟩
      have := h.2 hle hne
      rw [heq] at this
      omega
    · intro h
      refine iff_of_true (fun hne => ?_) hle
      have hnot := (h.leftover hne hle).2
      by_cases heq : totalUsed d = d.clusters
      · have : (d.sectors - d.dataStart) % d.spc ≠ 0 := fun hzero => hnot ⟨heq, hzero⟩
        omega
      · have := Nat.mul_le_mul_right d.spc (show totalUsed d + 1 ≤ d.clusters by omega)
        rw [Nat.succ_mul] at this
        omega
  · have hmul := Nat.mul_le_mul_right d.spc (show d.clusters + 1 ≤ totalUsed d by omega)
    rw [Nat.succ_mul] at hmul
    have hne : laidFiles d ≠ [] := by
      intro hnil
      rw [totalUsed_eq, hnil, List.map_nil, List.sum_nil] at hle
      omega
    refine iff_of_true (iff_of_false (fun h => ?_) hle)
      ⟨fun _ h => absurd h hle, fun hw => absurd hw hwraps⟩
    have := h hne
    omega

end Capacity

/-- A recalculation succeeds for the trees whose clusters suffice, and for no other, exactly where
nothing ends with the drive and no count wraps. -/
theorem recalc_capacity_iff (d : VdfDrive) (hg : d.toGeometry.Created) (hf : d.filesys ≠ .unset)
    (ht : d.IsTree) (hdirty : d.dirty = true) (hvalid : d.isValid = true)
    (hlock : d.isLocked = false) :
    ((∃ d', Recalc d d') ↔ totalUsed d ≤ d.clusters) ↔ CapacityChecked d := by
  have hk := hg.known hf
  have hds := hk.dataStart_lt
  have hspc : 0 < d.spc := (clusterSectors_le hk.spc).1
  have hsectors : d.sectors < 2 ^ 32 := hk.sectors
  rw [exists_recalc_iff ht hds]
  by_cases hfit : d.dataStart ≤ d.sectors
  · have hroom := hk.room hfit
    by_cases hlt : d.dataStart + totalUsed d * d.spc < 2 ^ 32
    · exact capacity_inside ht hdirty hvalid hlock hspc hfit hroom hlt
    · -- more clusters than there are
      have hmore : ¬ totalUsed d ≤ d.clusters := by
        intro hle
        have hmul := Nat.mul_le_mul_right d.spc hle
        have hdiv := Nat.div_mul_le_self (d.sectors - d.dataStart) d.spc
        rw [← hroom] at hdiv
        omega
      rw [iff_false_right hmore, canRecalc_iff hdirty hvalid hlock]
      constructor
      · intro h
        refine ⟨fun _ hle => absurd hle hmore, fun _ => ?_⟩
        by_contra hnone
        refine h fun f hf => ⟨Nat.lt_of_not_le fun hle => ?_, Nat.lt_of_not_le fun hle => ?_⟩
        · exact hnone ⟨f, hf, .inl hle⟩
        · exact hnone ⟨f, hf, .inr hle⟩
      · intro h hall
        obtain ⟨f, hf, hle | hle⟩ := h.wraps (by omega)
        · exact absurd (hall f hf).1 (Nat.not_lt.2 hle)
        · exact absurd (hall f hf).2 (Nat.not_lt.2 hle)
  · exact capacity_outside ht hds hdirty hvalid hlock (by omega)

/-- 4 of 4096 clusters. -/
theorem recalc_capacity_two : (∃ d', Recalc drive16 d') ↔ totalUsed drive16 ≤ drive16.clusters :=
  (recalc_capacity_iff drive16 geometry16_created nofun drive16_isTree rfl rfl rfl).2
    ⟨by decide, by decide⟩

/-- The drive without the sectors behind the last cluster. -/
def geometryExact : Geometry :=
  { geometry16 with sectors := 262209, bytes := 134251008 }

/-- A file of all its clusters. -/
def driveFull : VdfDrive :=
  flatDrive geometryExact none [{ size := 134217728, clusters := 4096, virt := true }]

/-- The file needs the 4096 clusters that there are, and is rejected. -/
theorem recalc_capacity_full : driveFull.toGeometry.Created ∧ driveFull.IsTree ∧
    totalUsed driveFull = driveFull.clusters ∧ ¬ ∃ d', Recalc driveFull d' := by
  have hg : geometryExact.Created :=
    ⟨262209 * 512, 2, ⟨0, 512, 64, 512⟩, ⟨0, 0, 0, 0⟩, by decide⟩
  have ht : driveFull.IsTree := flatDrive_isTree _ _ _
  refine ⟨hg, ht, by decide, ?_⟩
  rw [exists_recalc_iff ht (by decide)]
  exact fun h => absurd (h.fits 1 (by decide) (by decide)) (by decide)

end Vdf
