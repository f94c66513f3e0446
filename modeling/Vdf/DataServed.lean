import Vdf.DataSpec
import Vdf.FatServed

/-!
# When the data area is served

`readSectorData_served_iff`: on a drive whose ranges follow each other, every request is served iff
it does not start so far inside a file that the offset wraps and lands in the file again.
-/

namespace Vdf

open Word Buffer

/-! ## Where the offset does not fit -/

/-- Readers that answer with all the bytes they are asked for. -/
def fullReaders (content : FileId → Nat → UInt8) : Readers :=
  { cback := fun f off len => some ((List.range len).map fun i => content f (off + i))
    pread := fun f off len => some ((List.range len).map fun i => content f (off + i)) }

theorem fullReaders_reads (content : FileId → Nat → UInt8) :
    (fullReaders content).Reads content fun _ _ len => len :=
  ⟨fun _ _ _ => Nat.le_refl _, fun _ _ _ => rfl, fun _ _ _ => rfl⟩

section Needed

variable {d : VdfDrive} {rs : List FileRange} (hL : DataLayout d rs) (hbps : d.bps ∈ sectorSizes)
  (hdps : d.direntPerSector = d.bps / 32)

include hL hbps hdps

/-- A file of ones is read at the wrapped offset, and its first byte lands where a zero belongs. -/
theorem DataLayout.offsetFits_of_served {sector scnt : Nat} (hstart : d.dataStart ≤ sector)
    (hlt : sector + scnt < 2 ^ 32)
    (hserved : ∃ m' calls, readSectorData (fullReaders fun _ _ => 1) d sector scnt (fun _ => 0) 0 =
      .ok (0, m', calls) ∧
      DataServed d rs (fun _ _ => 1) (fun _ _ len => len) sector scnt (fun _ => 0) 0 m' calls) :
    scnt = 0 ∨ OffsetFits d rs sector := by
  obtain ⟨m', calls, hrun, hok⟩ := hserved
  by_cases h0 : scnt = 0
  · exact .inl h0
  refine .inr fun r hr hd h1 h2 => ?_
  by_contra hbad
  rw [not_or, Nat.not_lt, Nat.not_le] at hbad
  obtain ⟨hbig, hsmall⟩ := hbad
  have hb := (sectorSizes_le hbps).1
  have hend := (hL.chain.mem hr).2.2
  have h32 := hL.endLt
  have hslt := hL.lt r hr
  have hE := fullReaders_reads fun _ _ => 1
  -- The first round.
  obtain ⟨k, hk⟩ : ∃ k, k = min (r.sectend - sector) scnt := ⟨_, rfl⟩
  obtain ⟨w, hw⟩ : ∃ w, w = min ((d.file r.file).size - u32 ((sector - r.sectstart) * d.bps))
    (scnt * d.bps) := ⟨_, rfl⟩
  have hwpos : 0 < w := by
    have := Nat.mul_pos (Nat.pos_of_ne_zero h0) (by omega : 0 < d.bps)
    omega
  obtain ⟨m₁, hm₁⟩ : ∃ m₁ : Buffer, m₁ = (copy (fun _ => 0) 0
    ((List.range w).map fun _ => 1)).fill (0 + w) (k * d.bps - w) 0 := ⟨_, rfl⟩
  have hstep : dataStep (fullReaders fun _ _ => 1) d
      { sector, scnt, buffer := 0, m := fun _ => 0, calls := [] } =
      .ok (none, { sector := sector + k, scnt := scnt - k, buffer := 0 + w + (k * d.bps - w), m := m₁
                   calls := [⟨r.file, u32 ((sector - r.sectstart) * d.bps), w⟩] }) := by
    rw [hL.placed.dataStep_file hr h1 h2 _ hd]
    simp only [← hk, if_neg (Nat.not_le.mpr hsmall), ← hw, hE.read d r.file, List.length_map,
      List.length_range, Nat.min_self, ← hm₁]
    rfl
  -- The rounds that follow write behind it.
  obtain ⟨fuel, rfl⟩ : ∃ fuel, scnt = fuel + 1 := ⟨scnt - 1, by omega⟩
  have hnext : fuel + 1 - k = 0 ∨ OffsetFits d rs (sector + k) := by
    rcases Nat.le_total (r.sectend - sector) (fuel + 1) with h | h
    · exact .inr ((by omega : r.sectend = sector + k) ▸ hL.offsetFits_next hr)
    · exact .inl (by omega)
  obtain ⟨t, hloop, ht, -⟩ := dataLoop_spec hL hbps hdps hE fuel
    { sector := sector + k, scnt := fuel + 1 - k, buffer := 0 + w + (k * d.bps - w), m := m₁
      calls := [⟨r.file, u32 ((sector - r.sectstart) * d.bps), w⟩] }
    (by dsimp only; omega) (by dsimp only; omega) hnext (by dsimp only; omega)
  rw [readSectorData, dataLoop, if_neg (Nat.succ_ne_zero _), hstep] at hrun
  have hrun' : (dataLoop (fullReaders fun _ _ => 1) d fuel
      { sector := sector + k, scnt := fuel + 1 - k, buffer := 0 + w + (k * d.bps - w), m := m₁
        calls := [⟨r.file, u32 ((sector - r.sectstart) * d.bps), w⟩] }).map
      (fun x : Int × DataState => (x.1, x.2.m, x.2.calls)) = .ok (0, m', calls) := hrun
  rw [hloop] at hrun'
  cases hrun'
  have hone : t.m 0 = 1 := by
    rw [ht, overlay_outside (.inl (by dsimp only; omega)), hm₁]
    simp [fill, copy, hwpos]
    omega
  have hzero := hok.regular sector 0 (Nat.le_refl _) (by omega) (by omega) r hr hd h1 h2
  rw [Nat.sub_self, Nat.zero_mul, Nat.add_zero, hone, fileByte, if_neg] at hzero
  · exact absurd hzero (by decide)
  · rw [hL.start r hr]
    omega

end Needed

/-! ## The result -/

/-- On every drive whose ranges follow each other, a request in the data area is served, whatever
the readers answer, iff the offset into its first file fits. -/
theorem readSectorData_served_iff (d : VdfDrive) (rs : List FileRange) (hk : d.toGeometry.Known)
    (hL : DataLayout d rs) (sector scnt : Nat) (hstart : d.dataStart ≤ sector)
    (hlt : sector + scnt ≤ d.sectors) :
    (∀ env content got, env.Reads content got → ∀ m p, ∃ m' calls,
      readSectorData env d sector scnt m p = .ok (0, m', calls) ∧
        DataServed d rs content got sector scnt m p m' calls) ↔
      scnt = 0 ∨ OffsetFits d rs sector := by
  have h32 := hk.sectors
  constructor
  · intro h
    exact hL.offsetFits_of_served hk.bps hk.dirent hstart (by omega)
      (h _ _ _ (fullReaders_reads fun _ _ => 1) _ _)
  · intro hfits env content got hE m p
    exact hL.served hk.bps hk.dirent hE hstart (by omega) hfits m p

/-- The ranges of a recalculation that fits, each as long as the clusters of its file. -/
theorem LayoutFits.dataPlaced {d : VdfDrive} (hk : d.toGeometry.Known) (ht : d.IsTree)
    (hr : d.InRange) (hcnt : d.allFiles.length ≤ d.fileCnt) (hf : LayoutFits d)
    {rs : List FileRange} (hq : Qsort.Result cmpFilerange (unsortedRanges d) rs) :
    DataPlaced (recalcDrive d rs) rs ∧ ∀ r ∈ rs, ∃ f ∈ laidFiles d,
      ((recalcDrive d rs).file r.file).size = (numbered d f).size ∧
      ((recalcDrive d rs).file r.file).isDir = (numbered d f).isDir ∧
      (r.sectend - r.sectstart) * d.bps = (numbered d f).clusters * d.bpc := by
  have hspc := (clusterSectors_le hk.spc).1
  obtain ⟨hsect, -⟩ := hf.chains ht hr hspc hq
  have hcount := (Ranged.of_result hr hcnt hq).count
  rw [unsortedRanges_laid hf.dirs] at hq
  have hend : (recalcDrive d rs).dataEnd = d.dataStart + totalUsed d * d.spc := by
    have h1 := hf.sectors
    have h2 := hr.sectors
    exact u32_of_lt (by omega)
  -- Every range is that of a laid-out file.
  have hfile : ∀ r ∈ rs, ∃ f ∈ laidFiles d, r = rangeOf d f ∧ (recalcDrive d rs).file r.file =
      (numbered d f).laidOut d.toGeometry (usedBefore (numbered d) d.allFiles f) ∧
      (r.sectend - r.sectstart) * d.bps = (numbered d f).clusters * d.bpc := by
    intro r hm
    obtain ⟨f, hfm, rfl⟩ := List.mem_map.mp (hq.perm.mem_iff.mp hm)
    obtain ⟨h1, h2, -, -⟩ := hf.toSumsFit.range_eq ht hr hfm
    refine ⟨f, hfm, rfl, recalcFile_mem (mem_laidFiles.mp hfm).1, ?_⟩
    rw [h1, h2, hk.bpc, Nat.add_mul, ← Nat.add_assoc, Nat.add_sub_cancel_left]
    ring
  have hlaid : ∀ f ∈ laidFiles d,
      ((numbered d f).laidOut d.toGeometry (usedBefore (numbered d) d.allFiles f)).startsect =
        (rangeOf d f).sectstart ∧
      ((numbered d f).laidOut d.toGeometry (usedBefore (numbered d) d.allFiles f)).endsect =
        (rangeOf d f).sectend := by
    intro f hfm
    have h := (mem_laidFiles.mp hfm).2
    simp only [VdfFile.laidOut, h, ↓reduceIte, rangeOf, and_self]
  refine ⟨{ ranges := rfl, chain := hend ▸ hsect, start := ?_, end_ := ?_, lt := ?_, dirs := ?_
            count := hcount, endLt := u32_lt _ }, ?_⟩
  all_goals
    intro r hm
    obtain ⟨f, hfm, rfl, e, hlen⟩ := hfile r hm
    rw [e]
    obtain ⟨h1, h2, h3⟩ := laidOut_static d.toGeometry (usedBefore (numbered d) d.allFiles f)
      (numbered d f)
  · exact (hlaid f hfm).1
  · exact (hlaid f hfm).2
  · rw [h1]
    exact numbered_size_lt hr f
  · rw [h3]
    intro hd
    exact hlen ▸ numbered_dir_lt hd
  · exact ⟨f, hfm, h1, h3, hlen⟩

/-- The layout of a recalculation that fits. -/
theorem LayoutFits.dataLayout {d : VdfDrive} (hk : d.toGeometry.Known) (ht : d.IsTree)
    (hr : d.InRange) (hcnt : d.allFiles.length ≤ d.fileCnt) (hf : LayoutFits d)
    (hsize : ∀ f ∈ laidFiles d, (numbered d f).isDir = false →
      (numbered d f).size ≤ (numbered d f).clusters * d.bpc)
    {rs : List FileRange} (hq : Qsort.Result cmpFilerange (unsortedRanges d) rs) :
    DataLayout (recalcDrive d rs) rs := by
  obtain ⟨hP, hfile⟩ := hf.dataPlaced hk ht hr hcnt hq
  refine hP.layout fun r hm hd => ?_
  obtain ⟨f, hfm, h1, h2, h3⟩ := hfile r hm
  rw [h2] at hd
  rw [h1]
  exact h3 ▸ hsize f hfm hd

/-- Files of at most `2^32` bytes of clusters are read from everywhere. -/
theorem LayoutFits.offsetFits {d : VdfDrive} (hk : d.toGeometry.Known) (ht : d.IsTree)
    (hr : d.InRange) (hcnt : d.allFiles.length ≤ d.fileCnt) (hf : LayoutFits d)
    (hlen : ∀ f ∈ laidFiles d, (numbered d f).isDir = false →
      (numbered d f).clusters * d.bpc ≤ 2 ^ 32)
    {rs : List FileRange} (hq : Qsort.Result cmpFilerange (unsortedRanges d) rs) (sector : Nat) :
    OffsetFits (recalcDrive d rs) rs sector := by
  obtain ⟨-, hfile⟩ := hf.dataPlaced hk ht hr hcnt hq
  have hb := (sectorSizes_le hk.bps).1
  refine DataLayout.offsetFits_of_le (d := recalcDrive d rs) (fun r hm hd => ?_)
    (show 0 < d.bps by omega) sector
  obtain ⟨f, hfm, -, h2, h3⟩ := hfile r hm
  rw [h2] at hd
  exact h3.trans_le (hlen f hfm hd)

/-- A request over the whole data area of a drive with two files. -/
theorem readSectorData_served_two : ∃ d' rs, Recalc drive16 d' ∧ DataLayout d' rs ∧
    ∀ env content got, env.Reads content got → ∀ m p, ∃ m' calls,
      readSectorData env d' 65 262152 m p = .ok (0, m', calls) ∧
        DataServed d' rs content got 65 262152 m p m' calls := by
  obtain ⟨rs, hq⟩ := Qsort.exists_result cmpFilerange (unsortedRanges drive16)
  have hk := geometry16_created.known (by decide)
  have hL := drive16_fits.dataLayout hk drive16_isTree drive16_inRange (by decide) (by decide) hq
  refine ⟨_, rs, (recalc_iff drive16_isTree drive16_inRange.dataStart).mpr
    ⟨drive16_canRecalc, rs, hq, rfl⟩, hL, ?_⟩
  refine (readSectorData_served_iff _ rs hk hL 65 262152 (Nat.le_refl 65)
    (show 65 + 262152 ≤ geometry16.sectors by decide)).mpr (.inr hL.offsetFits_start)

/-- A file of 4 GiB less 512 bytes that kept the cluster count of a drive with small clusters. -/
def driveWide : VdfDrive := flatDrive geometryMax none [hugeFile]

/-- The sector `4 GiB` behind its start is read at offset 0. -/
theorem readSectorData_not_served : ¬ ∀ (d : VdfDrive) (rs : List FileRange), d.toGeometry.Known →
    DataLayout d rs → ∀ sector scnt, d.dataStart ≤ sector → sector + scnt ≤ d.sectors →
    ∀ env content got, env.Reads content got → ∀ m p, ∃ m' calls,
      readSectorData env d sector scnt m p = .ok (0, m', calls) ∧
        DataServed d rs content got sector scnt m p m' calls := by
  intro hall
  have ht : driveWide.IsTree := flatDrive_isTree _ _ _
  have hr : driveWide.InRange := flatDrive_inRange (by decide) (by decide) (by decide)
  have hf : LayoutFits driveWide :=
    { sectors := by decide, clusters := by decide, span := by decide, empties := by decide
      dirs := by decide }
  have hk : driveWide.toGeometry.Known :=
    Geometry.Created.known ⟨4294967295 * 512, 3, ⟨0, 512, 128, 512⟩, ⟨0, 0, 0, 0⟩, by decide⟩
      (by decide)
  obtain ⟨rs, hq⟩ := Qsort.exists_result cmpFilerange (unsortedRanges driveWide)
  have hL := hf.dataLayout hk ht hr (by decide) (by decide) hq
  have hstart : (recalcDrive driveWide rs).dataStart ≤ 8913056 :=
    show geometryMax.dataStart ≤ 8913056 by decide
  have hserved := hall (recalcDrive driveWide rs) rs hk hL 8913056 1 hstart
    (show 8913057 ≤ geometryMax.sectors by decide) _ _ _ (fullReaders_reads fun _ _ => 1) (fun _ => 0) 0
  have hfits := (hL.offsetFits_of_served hk.bps hk.dirent hstart (by decide) hserved).resolve_left
    (by decide)
  have hmem : rangeOf driveWide 1 ∈ rs := by
    refine hq.perm.mem_iff.mpr ?_
    rw [unsortedRanges_laid hf.dirs]
    exact List.mem_map_of_mem (by decide)
  have h := hfits _ hmem (show (recalcFile driveWide 1).isDir = false by decide) (by decide) (by decide)
  have hbad : ¬ ((8913056 - (rangeOf driveWide 1).sectstart) * 512 < 2 ^ 32 ∨
      (recalcFile driveWide 1).size ≤ u32 ((8913056 - (rangeOf driveWide 1).sectstart) * 512)) := by
    decide
  exact hbad h

end Vdf
