import Vdf.Layout
import Vdf.Geometry
import Vdf.Lib.Chain
import Mathlib.Algebra.BigOperators.Ring.List
import Mathlib.Tactic.Ring

/-!
# When the layout is a partition

In exact cluster numbers the laid-out files always follow each other without a gap
(`exact_chain`). The drive keeps the numbers in 32 bits, in the order that `qsort` leaves. Four
things can go wrong (`recalc_partition_iff`): a sum leaves 32 bits, so that a capacity check sees
the wrapped value; two first sectors are `2^31` or more apart, so that `cmp_filerange` takes the
larger one for the smaller; a file of non-zero size has no clusters, so that `qsort` may put it on
either side of the file that starts in the same place; a directory of size zero is stored without
being counted.
-/

namespace Vdf

open Word

/-- `rs` is the ranges of the drive, and they partition the used part of the data area. -/
structure Partition (d : VdfDrive) (rs : List FileRange) : Prop where
  ranges : d.ranges = some rs
  sorted : rs.Pairwise fun r s => r.sectstart ≤ s.sectstart
  first : ∀ r ∈ rs.head?, r.sectstart = d.dataStart ∧ r.fatstart = 2
  next : rs.IsChain fun r s => r.sectend = s.sectstart ∧ r.fatend = s.fatstart
  interval : ∀ r ∈ rs, r.sectstart ≤ r.sectend ∧ r.fatstart ≤ r.fatend
  start : ∀ r ∈ rs, (r.sectstart : Int) = d.dataStart + ((r.fatstart : Int) - 2) * d.spc
  end_ : ∀ r ∈ rs, (r.sectend : Int) = r.sectstart + ((r.fatend : Int) - r.fatstart) * d.spc
  last : ∀ r ∈ rs.getLast?, r.sectend = d.dataEnd
  sectors : d.dataEnd ≤ d.sectors
  clusters : (d.dataClusterEnd : Int) - 2 ≤ d.clusters

/-- The sizes and counts fit their types. -/
structure VdfDrive.InRange (d : VdfDrive) : Prop where
  dataStart : d.dataStart < 2 ^ 32
  sectors : d.sectors < 2 ^ 32
  size : ∀ f, (d.file f).size < 2 ^ 32
  clusters : ∀ f, (d.file f).clusters < 2 ^ 32
  end_ : ∀ f, (d.file f).end_ < 2 ^ 32

/-- The files for which the second pass stores a range. -/
def storedFiles (d : VdfDrive) : List FileId :=
  d.allFiles.filter fun f => (d.file f).isDir || (numbered d f).size != 0

/-- The clusters asked for fit, in exact arithmetic. -/
structure SumsFit (d : VdfDrive) : Prop where
  sectors : d.dataStart + totalUsed d * d.spc ≤ d.sectors
  clusters : totalUsed d ≤ d.clusters ∧ 2 + totalUsed d < 2 ^ 32

/-- The drives for which the layout is a partition: the clusters asked for fit, the first sectors
are less than `2^31` apart, a file that gets no clusters does not come before one that does, and no
directory of size zero takes the place of a file in the array. -/
structure LayoutFits (d : VdfDrive) : Prop extends SumsFit d where
  span : ∀ f ∈ laidFiles d, usedBefore (numbered d) d.allFiles f * d.spc < 2 ^ 31
  empties : (laidFiles d).Pairwise fun f g => (numbered d f).clusters = 0 → (numbered d g).clusters = 0
  dirs : ∀ f ∈ (storedFiles d).take (laidFiles d).length, (numbered d f).size ≠ 0

/-! ## Exact cluster numbers -/

/-- The laid-out files follow each other in exact cluster numbers. -/
theorem exact_chain (file : FileId → VdfFile) {l : List FileId} (hl : l.Nodup) :
    Chain (usedBefore file l) (fun f => usedBefore file l f + (file f).clusters) 0
      (nonempty file l) (usedClusters file l) := by
  induction l with
  | nil => simp [nonempty]
  | cons f l ih =>
    obtain ⟨hfl, hl⟩ := List.nodup_cons.mp hl
    have hstep : ∀ g ∈ nonempty file l,
        (file f).used + usedBefore file l g = usedBefore file (f :: l) g := by
      intro g hg
      have hne : f ≠ g := by rintro rfl; exact hfl (List.mem_of_mem_filter hg)
      simp [usedBefore, hne]
    have hrest : Chain (usedBefore file (f :: l))
        (fun g => usedBefore file (f :: l) g + (file g).clusters) (file f).used
        (nonempty file l) (usedClusters file (f :: l)) := by
      have h := (ih hl).map (φ := fun k => (file f).used + k) fun _ _ h => Nat.add_le_add_left h _
      rw [usedClusters_cons]
      refine (Chain.congr_mem fun g hg => ?_).mp h
      have := hstep g hg
      simp only [Function.comp_def]
      omega
    have hself : usedBefore file (f :: l) f = 0 := by simp [usedBefore]
    by_cases hs : (file f).size = 0
    · have e : nonempty file (f :: l) = nonempty file l := by simp [nonempty, hs]
      have e' : (file f).used = 0 := by simp [VdfFile.used, hs]
      rw [e]
      rwa [e'] at hrest
    · have e : nonempty file (f :: l) = f :: nonempty file l := by simp [nonempty, hs]
      have e' : (file f).used = (file f).clusters := by simp [VdfFile.used, hs]
      rw [e]
      refine ⟨hself, Nat.le_add_right _ _, ?_⟩
      have hhi : usedBefore file (f :: l) f + (file f).clusters = (file f).used := by omega
      show Chain _ _ (usedBefore file (f :: l) f + (file f).clusters) _ _
      rw [hhi]
      exact hrest

/-- The range of a laid-out file. -/
def rangeOf (d : VdfDrive) (f : FileId) : FileRange :=
  let k := usedBefore (numbered d) d.allFiles f
  let c := (numbered d f).clusters
  { sectstart := sectorOf d.toGeometry k, sectend := sectorOf d.toGeometry (k + c)
    fatstart := u32 (2 + k), fatend := u32 (2 + k + c), file := f }

theorem recalcFile_mem {d : VdfDrive} {f : FileId} (hf : f ∈ d.allFiles) :
    recalcFile d f =
      (numbered d f).laidOut d.toGeometry (usedBefore (numbered d) d.allFiles f) := by
  simp only [recalcFile, hf, ↓reduceIte]

theorem laidOut_static (g : Geometry) (k : Nat) (fil : VdfFile) :
    (fil.laidOut g k).size = fil.size ∧ (fil.laidOut g k).clusters = fil.clusters ∧
      (fil.laidOut g k).isDir = fil.isDir := by
  unfold VdfFile.laidOut
  split <;> exact ⟨rfl, rfl, rfl⟩

theorem fileRange_laid {d : VdfDrive} {f : FileId} (hf : f ∈ d.allFiles)
    (hs : (numbered d f).size ≠ 0) : fileRange { d with file := recalcFile d } f = rangeOf d f := by
  simp only [fileRange, recalcFile_mem hf, rangeOf, VdfFile.laidOut, hs, ↓reduceIte, sectorOf_add]

theorem fileRange_empty {d : VdfDrive} {f : FileId} (hf : f ∈ d.allFiles)
    (hs : (numbered d f).size = 0) :
    (fileRange { d with file := recalcFile d } f).fatstart = 0 := by
  simp [fileRange, recalcFile_mem hf, VdfFile.laidOut, hs]

theorem mem_laidFiles {d : VdfDrive} {f : FileId} :
    f ∈ laidFiles d ↔ f ∈ d.allFiles ∧ (numbered d f).size ≠ 0 := by
  simp [laidFiles, nonempty]

theorem unsortedRanges_eq (d : VdfDrive) :
    unsortedRanges d = ((storedFiles d).take (laidFiles d).length).map
      (fileRange { d with file := recalcFile d }) := by
  have e : (d.allFiles.filter fun f => (recalcFile d f).isDir || (recalcFile d f).size != 0) =
      storedFiles d := by
    refine List.filter_congr fun f hf => ?_
    obtain ⟨h1, -, h2⟩ := laidOut_static d.toGeometry (usedBefore (numbered d) d.allFiles f)
      (numbered d f)
    rw [recalcFile_mem hf, h1, h2, (numbered_static d f).1]
  simp only [unsortedRanges, storedRanges, e, List.map_take]

/-- Without a directory of size zero in the array, it holds the laid-out files. -/
theorem take_storedFiles {d : VdfDrive}
    (h : ∀ f ∈ (storedFiles d).take (laidFiles d).length, (numbered d f).size ≠ 0) :
    (storedFiles d).take (laidFiles d).length = laidFiles d := by
  have e : laidFiles d = (storedFiles d).filter fun f => (numbered d f).size != 0 := by
    simp only [laidFiles, nonempty, storedFiles, List.filter_filter]
    refine List.filter_congr fun f _ => ?_
    cases ((numbered d f).size != 0) <;> simp
  have htake : ((storedFiles d).take (laidFiles d).length).filter
      (fun f => (numbered d f).size != 0) = (storedFiles d).take (laidFiles d).length :=
    List.filter_eq_self.mpr fun f hf => by simpa using h f hf
  have hlen : ((storedFiles d).take (laidFiles d).length).length = (laidFiles d).length := by
    rw [List.length_take, Nat.min_eq_left]
    rw [e]; exact List.length_filter_le _ _
  have hsub := (List.take_sublist (laidFiles d).length (storedFiles d)).filter
    fun f => (numbered d f).size != 0
  rw [htake, ← e] at hsub
  exact hsub.eq_of_length hlen

theorem unsortedRanges_laid {d : VdfDrive}
    (h : ∀ f ∈ (storedFiles d).take (laidFiles d).length, (numbered d f).size ≠ 0) :
    unsortedRanges d = (laidFiles d).map (rangeOf d) := by
  rw [unsortedRanges_eq, take_storedFiles h]
  exact List.map_congr_left fun f hf =>
    fileRange_laid (mem_laidFiles.mp hf).1 (mem_laidFiles.mp hf).2

theorem numbered_sized (d : VdfDrive) (f : FileId) :
    (numbered d f).size = (sized d f).size ∧ (numbered d f).clusters = (sized d f).clusters := by
  unfold numbered
  split <;> exact ⟨rfl, rfl⟩

theorem numbered_clusters_lt {d : VdfDrive} (hr : d.InRange) (f : FileId) :
    (numbered d f).clusters < 2 ^ 32 := by
  rw [(numbered_sized d f).2, sized]
  split
  · exact Nat.lt_of_le_of_lt (Nat.div_le_self _ _) (u32_lt _)
  · exact hr.clusters f

theorem numbered_size_lt {d : VdfDrive} (hr : d.InRange) (f : FileId) :
    (numbered d f).size < 2 ^ 32 := by
  rw [(numbered_sized d f).1, sized]
  split
  · exact u32_lt _
  · exact hr.size f

/-- The clusters of a directory are counted in bytes of 32 bits. -/
theorem numbered_dir_lt {d : VdfDrive} {f : FileId} (hd : (numbered d f).isDir = true) :
    (numbered d f).clusters * d.bpc < 2 ^ 32 := by
  rw [(numbered_static d f).1] at hd
  rw [(numbered_sized d f).2, sized, if_pos hd]
  exact Nat.lt_of_le_of_lt (Nat.div_mul_le_self _ _) (u32_lt _)

/-! ## A partition as two chains -/

theorem Partition.sect_chain {d : VdfDrive} {rs : List FileRange} (h : Partition d rs)
    (hne : rs ≠ []) : Chain FileRange.sectstart FileRange.sectend d.dataStart rs d.dataEnd :=
  Chain.of_isChain (fun r hr => (h.interval r hr).1) (h.next.imp fun _ _ e => e.1)
    (fun r hr => (h.first r hr).1) h.last fun e => absurd e hne

theorem Partition.fat_chain {d : VdfDrive} {rs : List FileRange} (h : Partition d rs)
    (hne : rs ≠ []) : ∃ e, e ∈ rs.map FileRange.fatend ∧
      Chain FileRange.fatstart FileRange.fatend 2 rs e := by
  refine ⟨(rs.getLast hne).fatend, List.mem_map_of_mem (List.getLast_mem hne), ?_⟩
  refine Chain.of_isChain (fun r hr => (h.interval r hr).2) (h.next.imp fun _ _ e => e.2)
    (fun r hr => (h.first r hr).2) (fun r hr => ?_) fun e => absurd e hne
  rw [List.getLast?_eq_some_getLast hne] at hr
  cases hr
  rfl

/-! ## The layout fits -/

/-- `cmp_filerange` is the exact difference of sectors less than `2^31` apart. -/
theorem cmpFilerange_eq {r s : FileRange} {a : Nat} (hr : a ≤ r.sectstart)
    (hr' : r.sectstart < a + 2 ^ 31) (hs : a ≤ s.sectstart) (hs' : s.sectstart < a + 2 ^ 31)
    (hr32 : r.sectstart < 2 ^ 32) (hs32 : s.sectstart < 2 ^ 32) :
    cmpFilerange r s = (r.sectstart : Int) - s.sectstart := by
  unfold cmpFilerange toI32
  by_cases h : s.sectstart ≤ r.sectstart
  · rw [subU32_of_le hr32 h, if_pos (by omega)]
    omega
  · rw [subU32_of_lt hs32 (by omega), if_neg (by omega)]
    omega

section Fits

variable {d : VdfDrive} (ht : d.IsTree) (hr : d.InRange)

/-- The ranges in list order, before `qsort`. -/
def laidRanges (d : VdfDrive) : List FileRange := (laidFiles d).map (rangeOf d)

theorem usedBefore_le (ht : d.IsTree) {f : FileId} (hm : f ∈ laidFiles d) :
    usedBefore (numbered d) d.allFiles f + (numbered d f).clusters ≤ totalUsed d :=
  ((exact_chain (numbered d) ht.nodup_allFiles).mem hm).2.2

include ht hr

/-- Without a wrap the range of a laid-out file is exact. -/
theorem SumsFit.range_eq (hf : SumsFit d) {f : FileId} (hm : f ∈ laidFiles d) :
    (rangeOf d f).sectstart = d.dataStart + usedBefore (numbered d) d.allFiles f * d.spc ∧
      (rangeOf d f).sectend = d.dataStart +
        (usedBefore (numbered d) d.allFiles f + (numbered d f).clusters) * d.spc ∧
      (rangeOf d f).fatstart = 2 + usedBefore (numbered d) d.allFiles f ∧
      (rangeOf d f).fatend =
        2 + (usedBefore (numbered d) d.allFiles f + (numbered d f).clusters) := by
  have hle := usedBefore_le ht hm
  have hsec : ∀ k ≤ totalUsed d, sectorOf d.toGeometry k = d.dataStart + k * d.spc := by
    intro k hk
    have h1 : k * d.spc ≤ totalUsed d * d.spc := Nat.mul_le_mul_right _ hk
    have h2 := hf.sectors
    have h3 := hr.sectors
    exact u32_of_lt (by omega)
  have hcl := hf.clusters.2
  refine ⟨hsec _ (by omega), hsec _ hle, u32_of_lt (by omega), ?_⟩
  rw [← Nat.add_assoc]
  exact u32_of_lt (by omega)

theorem SumsFit.sect_chain (hf : SumsFit d) :
    Chain FileRange.sectstart FileRange.sectend d.dataStart (laidRanges d)
      (d.dataStart + totalUsed d * d.spc) := by
  have h := (exact_chain (numbered d) ht.nodup_allFiles).map (φ := fun k => d.dataStart + k * d.spc)
    fun _ _ hab => Nat.add_le_add_left (Nat.mul_le_mul_right _ hab) _
  simp only [Nat.zero_mul, Nat.add_zero] at h
  refine Chain.map_iff.mpr ((Chain.congr_mem fun f hm => ?_).mp h)
  obtain ⟨h1, h2, -, -⟩ := hf.range_eq ht hr hm
  exact ⟨h1.symm, h2.symm⟩

theorem SumsFit.fat_chain (hf : SumsFit d) :
    Chain FileRange.fatstart FileRange.fatend 2 (laidRanges d) (2 + totalUsed d) := by
  have h := (exact_chain (numbered d) ht.nodup_allFiles).map (φ := fun k => 2 + k)
    fun _ _ hab => Nat.add_le_add_left hab _
  refine Chain.map_iff.mpr ((Chain.congr_mem fun f hm => ?_).mp h)
  obtain ⟨-, -, h1, h2⟩ := hf.range_eq ht hr hm
  exact ⟨h1.symm, h2.symm⟩

/-- The comparison is exact on the ranges. -/
theorem LayoutFits.cmp_eq (hf : LayoutFits d) {r s : FileRange} (hrm : r ∈ laidRanges d)
    (hsm : s ∈ laidRanges d) : cmpFilerange r s = (r.sectstart : Int) - s.sectstart := by
  have key : ∀ x ∈ laidRanges d, d.dataStart ≤ x.sectstart ∧ x.sectstart < d.dataStart + 2 ^ 31 ∧
      x.sectstart < 2 ^ 32 := by
    intro x hx
    obtain ⟨f, hm, rfl⟩ := List.mem_map.mp hx
    have h1 := (hf.toSumsFit.range_eq ht hr hm).1
    have h2 := hf.span f hm
    exact ⟨by omega, by omega, u32_lt _⟩
  obtain ⟨h1, h2, h3⟩ := key r hrm
  obtain ⟨h4, h5, h6⟩ := key s hsm
  exact cmpFilerange_eq h1 h2 h4 h5 h3 h6

/-- Every order that `qsort` may leave has the same bounds, one after the other. -/
theorem LayoutFits.sorted_eq (hspc : 0 < d.spc) (hf : LayoutFits d) {rs : List FileRange}
    (hq : Qsort.Result cmpFilerange (laidRanges d) rs) :
    (rs.map fun r => ((r.sectstart, r.sectend), (r.fatstart, r.fatend))) =
      (laidRanges d).map fun r => ((r.sectstart, r.sectend), (r.fatstart, r.fatend)) := by
  have hcmp := fun {r s : FileRange} => hf.cmp_eq ht hr (r := r) (s := s)
  have hcons : Qsort.Consistent cmpFilerange (laidRanges d) := by
    constructor
    · intro a ha b hb
      rw [hcmp ha hb, hcmp hb ha]
      omega
    · intro a ha b hb c hc
      rw [hcmp ha hb, hcmp hb hc, hcmp ha hc]
      omega
  have hsort : rs.Pairwise fun r s => r.sectstart ≤ s.sectstart := by
    refine (hq.sorted hcons).imp_of_mem fun hx hy hxy => ?_
    rw [hcmp (hq.perm.mem_iff.mp hx) (hq.perm.mem_iff.mp hy)] at hxy
    omega
  refine Chain.map_eq_of_sorted hq.perm (hf.toSumsFit.sect_chain ht hr).sorted hsort ?_
  intro x hx y hy hxy
  -- The first sector determines the first cluster, and, empty files being last, the ends.
  obtain ⟨f, hfm, rfl⟩ := List.mem_map.mp hx
  obtain ⟨g, hgm, rfl⟩ := List.mem_map.mp hy
  obtain ⟨f1, f2, f3, f4⟩ := hf.toSumsFit.range_eq ht hr hfm
  obtain ⟨g1, g2, g3, g4⟩ := hf.toSumsFit.range_eq ht hr hgm
  have hk : usedBefore (numbered d) d.allFiles f = usedBefore (numbered d) d.allFiles g :=
    Nat.eq_of_mul_eq_mul_right hspc (by omega)
  have hz : (laidFiles d).Pairwise fun f g =>
      usedBefore (numbered d) d.allFiles f =
        usedBefore (numbered d) d.allFiles f + (numbered d f).clusters →
      usedBefore (numbered d) d.allFiles g =
        usedBefore (numbered d) d.allFiles g + (numbered d g).clusters :=
    hf.empties.imp fun h e => by omega
  have hhi := (exact_chain (numbered d) ht.nodup_allFiles).hi_eq_of_lo_eq hz hfm hgm hk
  rw [f1, f2, f3, f4, g1, g2, g3, g4, hhi, hk]

/-- The ranges follow each other in sectors and in clusters. -/
theorem LayoutFits.chains (hspc : 0 < d.spc) (hf : LayoutFits d) {rs : List FileRange}
    (hq : Qsort.Result cmpFilerange (unsortedRanges d) rs) :
    Chain FileRange.sectstart FileRange.sectend d.dataStart rs
        (d.dataStart + totalUsed d * d.spc) ∧
      Chain FileRange.fatstart FileRange.fatend 2 rs (2 + totalUsed d) := by
  rw [unsortedRanges_laid hf.dirs] at hq
  have hmap := hf.sorted_eq ht hr hspc hq
  constructor
  · refine (Chain.congr ?_).mp (hf.toSumsFit.sect_chain ht hr)
    have := congrArg (List.map Prod.fst) hmap
    simpa only [List.map_map, Function.comp_def] using this.symm
  · refine (Chain.congr ?_).mp (hf.toSumsFit.fat_chain ht hr)
    have := congrArg (List.map Prod.snd) hmap
    simpa only [List.map_map, Function.comp_def] using this.symm

theorem LayoutFits.partition (hspc : 0 < d.spc) (hf : LayoutFits d) {rs : List FileRange}
    (hq : Qsort.Result cmpFilerange (unsortedRanges d) rs) : Partition (recalcDrive d rs) rs := by
  obtain ⟨hsect, hfat⟩ := hf.chains ht hr hspc hq
  rw [unsortedRanges_laid hf.dirs] at hq
  have hend : (recalcDrive d rs).dataEnd = d.dataStart + totalUsed d * d.spc := by
    have h1 := hf.sectors
    have h2 := hr.sectors
    exact u32_of_lt (by omega)
  have hexact : ∀ r ∈ rs, ∃ f ∈ laidFiles d, r = rangeOf d f := by
    intro r hm
    obtain ⟨f, hfm, e⟩ := List.mem_map.mp (hq.perm.mem_iff.mp hm)
    exact ⟨f, hfm, e.symm⟩
  refine
    { ranges := rfl, sorted := hsect.sorted
      first := fun r hm => ⟨hsect.head r hm, hfat.head r hm⟩
      next := ?_
      interval := fun r hm => ⟨(hsect.mem hm).2.1, (hfat.mem hm).2.1⟩
      start := ?_, end_ := ?_
      last := fun r hm => by rw [hend]; exact hsect.last r hm
      sectors := by rw [hend]; exact hf.sectors
      clusters := ?_ }
  · rw [List.isChain_iff_forall_rel_of_append_cons_cons]
    intro r s l m e
    exact ⟨(List.isChain_iff_forall_rel_of_append_cons_cons.mp hsect.isChain) e,
      (List.isChain_iff_forall_rel_of_append_cons_cons.mp hfat.isChain) e⟩
  · intro r hm
    obtain ⟨f, hfm, rfl⟩ := hexact r hm
    obtain ⟨h1, -, h3, -⟩ := hf.toSumsFit.range_eq ht hr hfm
    rw [h1, h3]
    push_cast
    show _ = (d.dataStart : Int) + _ * (d.spc : Int)
    ring
  · intro r hm
    obtain ⟨f, hfm, rfl⟩ := hexact r hm
    obtain ⟨h1, h2, h3, h4⟩ := hf.toSumsFit.range_eq ht hr hfm
    rw [h1, h2, h3, h4]
    push_cast
    show _ = _ + _ * (d.spc : Int)
    ring
  · have h1 : (recalcDrive d rs).dataClusterEnd = 2 + totalUsed d := u32_of_lt hf.clusters.2
    have h2 := hf.clusters.1
    rw [h1]
    show _ ≤ (d.clusters : Int)
    omega

end Fits

/-! ## Only then -/

theorem u32_add_of_le {a c : Nat} (hc : c < 2 ^ 32) (h : u32 a ≤ u32 (a + c)) :
    u32 (a + c) = u32 a + c := by
  unfold u32 at *; omega

theorem totalUsed_eq (d : VdfDrive) :
    totalUsed d = ((laidFiles d).map fun f => (numbered d f).clusters).sum := by
  unfold totalUsed laidFiles
  induction d.allFiles with
  | nil => rfl
  | cons f l ih =>
    rw [usedClusters_cons, ih]
    by_cases hs : (numbered d f).size = 0 <;> simp [nonempty, VdfFile.used, hs]

section Needed

variable {d : VdfDrive} (ht : d.IsTree) (hr : d.InRange)
  (hp : ∀ rs, Qsort.Result cmpFilerange (unsortedRanges d) rs → Partition (recalcDrive d rs) rs)

include hp

/-- A directory of size zero in the array would start in cluster 0. -/
theorem needed_dirs :
    ∀ f ∈ (storedFiles d).take (laidFiles d).length, (numbered d f).size ≠ 0 := by
  intro f hf hs
  obtain ⟨rs, hq⟩ := Qsort.exists_result cmpFilerange (unsortedRanges d)
  have hall : f ∈ d.allFiles := List.mem_of_mem_filter (List.mem_of_mem_take hf)
  have hmem : fileRange { d with file := recalcFile d } f ∈ rs := by
    rw [hq.perm.mem_iff, unsortedRanges_eq]
    exact List.mem_map_of_mem hf
  obtain ⟨e, -, hchain⟩ := (hp rs hq).fat_chain (List.ne_nil_of_mem hmem)
  have := (hchain.mem hmem).1
  rw [fileRange_empty hall hs] at this
  omega

theorem needed_result {rs : List FileRange} (hq : Qsort.Result cmpFilerange (laidRanges d) rs) :
    Partition (recalcDrive d rs) rs := by
  refine hp rs ?_
  rw [unsortedRanges_laid (needed_dirs hp)]
  exact hq

include hr

/-- The lengths of the intervals are the clusters asked for, so their sum does not wrap. -/
theorem needed_sums : SumsFit d := by
  obtain ⟨rs, hq⟩ := Qsort.exists_result cmpFilerange (laidRanges d)
  have h := needed_result hp hq
  have hds : (recalcDrive d rs).dataEnd = sectorOf d.toGeometry (totalUsed d) := rfl
  have hce : (recalcDrive d rs).dataClusterEnd = u32 (2 + totalUsed d) := rfl
  have hsec := h.sectors
  have hcl : ((recalcDrive d rs).dataClusterEnd : Int) - 2 ≤ d.clusters := h.clusters
  have htot := totalUsed_eq d
  rcases rs.eq_nil_or_concat with rfl | ⟨_, _, hcons⟩
  · have hnil : laidFiles d = [] := List.map_eq_nil_iff.mp hq.perm.nil_eq.symm
    rw [hnil] at htot
    have h0 : totalUsed d = 0 := htot
    rw [hds, h0, sectorOf, Nat.zero_mul, Nat.add_zero, u32_of_lt hr.dataStart] at hsec
    exact ⟨by rw [h0, Nat.zero_mul]; exact hsec, by omega, by omega⟩
  have hne : rs ≠ [] := by rw [hcons]; simp
  have hlen : ∀ f, rangeOf d f ∈ rs →
      (rangeOf d f).fatend - (rangeOf d f).fatstart = (numbered d f).clusters ∧
      (rangeOf d f).sectend - (rangeOf d f).sectstart = (numbered d f).clusters * d.spc := by
    intro f hm
    have hc := numbered_clusters_lt hr f
    have hle := (h.interval _ hm).2
    have he : (rangeOf d f).fatend = (rangeOf d f).fatstart + (numbered d f).clusters :=
      u32_add_of_le hc hle
    have hs := h.end_ _ hm
    have hspc : (recalcDrive d rs).spc = d.spc := rfl
    rw [he, hspc] at hs
    push_cast at hs
    rw [add_sub_cancel_left] at hs
    refine ⟨by omega, ?_⟩
    have : ((rangeOf d f).sectend : Int) =
        ((rangeOf d f).sectstart + (numbered d f).clusters * d.spc : Nat) := by
      rw [hs]; push_cast; rfl
    omega
  have hsum : ∀ {g : FileRange → Nat} {c : FileId → Nat}, (∀ f, rangeOf d f ∈ rs → g (rangeOf d f) = c f) →
      (rs.map g).sum = ((laidFiles d).map c).sum := by
    intro g c hgc
    rw [(hq.perm.map g).sum_eq, laidRanges, List.map_map]
    congr 1
    refine List.map_congr_left fun f hf => hgc f ?_
    exact hq.perm.mem_iff.mpr (List.mem_map_of_mem hf)
  have hsect := (h.sect_chain hne).sum
  rw [hsum fun f hf => (hlen f hf).2, List.sum_map_mul_right, ← htot] at hsect
  obtain ⟨e, he, hfat⟩ := h.fat_chain hne
  have hfat := hfat.sum
  rw [hsum fun f hf => (hlen f hf).1, ← htot] at hfat
  have he32 : e < 2 ^ 32 := by
    obtain ⟨r, hm, rfl⟩ := List.mem_map.mp he
    obtain ⟨f, -, rfl⟩ := List.mem_map.mp (hq.perm.mem_iff.mp hm)
    exact u32_lt _
  rw [hce, u32_of_lt (by omega)] at hcl
  have hsec' : (recalcDrive d rs).dataEnd ≤ d.sectors := hsec
  have hsect' : d.dataStart + totalUsed d * d.spc = (recalcDrive d rs).dataEnd := hsect
  exact ⟨by omega, by omega, by omega⟩

include ht

/-- An empty range may stand on either side of one that starts in the same sector. -/
theorem needed_empties (hspc : 0 < d.spc) : (laidFiles d).Pairwise fun f g =>
    (numbered d f).clusters = 0 → (numbered d g).clusters = 0 := by
  have hs := needed_sums hr hp
  obtain ⟨rs, hq⟩ := Qsort.exists_result cmpFilerange (laidRanges d)
  have hmem : ∀ f ∈ laidFiles d, rangeOf d f ∈ rs := fun f hf =>
    hq.perm.mem_iff.mpr (List.mem_map_of_mem hf)
  have hempty : ∀ f ∈ laidFiles d, (rangeOf d f).sectstart = (rangeOf d f).sectend →
      (numbered d f).clusters = 0 := by
    intro f hf e
    obtain ⟨h1, h2, -, -⟩ := hs.range_eq ht hr hf
    rw [h1, h2, Nat.add_mul] at e
    rcases Nat.mul_eq_zero.mp (by omega : (numbered d f).clusters * d.spc = 0) with h | h
    · exact h
    · omega
  refine (exact_chain (numbered d) ht.nodup_allFiles).pairwise.imp_of_mem fun {f g} hf hg hfg => ?_
  intro hcf
  by_contra hcg
  obtain ⟨f1, f2, -, -⟩ := hs.range_eq ht hr hf
  obtain ⟨g1, g2, -, -⟩ := hs.range_eq ht hr hg
  rw [hcf, Nat.add_zero] at f2
  have hne : rs ≠ [] := List.ne_nil_of_mem (hmem f hf)
  have hchain := (needed_result hp hq).sect_chain hne
  rcases Chain.pairwise_or_exists (fun r : FileRange => r.sectstart = r.sectend) rs with
    hlast | ⟨s, x, y, t, rfl, hx, hy⟩
  · -- Then `g` comes before `f`, and ends behind the start of `f`.
    have hef : (rangeOf d f).sectstart = (rangeOf d f).sectend := by omega
    have heg := fun e => hcg (hempty g hg e)
    rcases Chain.pairwise_either (hchain.pairwise.and hlast) (hmem f hf) (hmem g hg) with
      e | ⟨-, h1⟩ | ⟨h1, -⟩
    · exact heg (e ▸ hef)
    · exact heg (h1 hef)
    · rw [g2, f1] at h1
      have h2 : usedBefore (numbered d) d.allFiles f * d.spc ≤
          usedBefore (numbered d) d.allFiles g * d.spc := Nat.mul_le_mul_right _ (by omega)
      rw [Nat.add_mul] at h1
      have h3 : 0 < (numbered d g).clusters * d.spc := Nat.mul_pos (by omega) hspc
      omega
  · -- The two neighbours may be exchanged.
    obtain ⟨_, -, -, -, h1⟩ := Chain.append_iff.mp hchain
    have e1 : y.sectstart = x.sectend := h1.1
    have hcmp : cmpFilerange y x ≤ 0 := by
      have h32 : y.sectstart < 2 ^ 32 := by
        obtain ⟨g, -, rfl⟩ := List.mem_map.mp (hq.perm.mem_iff.mp (by simp : y ∈ s ++ x :: y :: t))
        exact u32_lt _
      rw [cmpFilerange_eq (a := y.sectstart) (Nat.le_refl _) (by omega) (by omega) (by omega) h32
        (by omega)]
      omega
    have hchain' := (needed_result hp (hq.swap hcmp)).sect_chain (by simp)
    obtain ⟨_, -, -, -, h2⟩ := Chain.append_iff.mp hchain'
    have e2 : x.sectstart = y.sectend := h2.1
    omega

/-- Sectors `2^31` or more apart compare the wrong way round, or in no consistent way. -/
theorem needed_span :
    ∀ f ∈ laidFiles d, usedBefore (numbered d) d.allFiles f * d.spc < 2 ^ 31 := by
  intro f hf
  by_contra hlt
  have hs := needed_sums hr hp
  obtain ⟨rs, hq⟩ := Qsort.exists_result cmpFilerange (laidRanges d)
  obtain ⟨h1, -, -, -⟩ := hs.range_eq ht hr hf
  have h32 : ∀ r ∈ rs, r.sectstart < 2 ^ 32 := by
    intro r hm
    obtain ⟨g, -, rfl⟩ := List.mem_map.mp (hq.perm.mem_iff.mp hm)
    exact u32_lt _
  have hmem : rangeOf d f ∈ rs := hq.perm.mem_iff.mpr (List.mem_map_of_mem hf)
  have h := needed_result hp hq
  cases rs with
  | nil => cases hmem
  | cons r₀ rs =>
    have h0 : r₀.sectstart = d.dataStart := (h.first r₀ rfl).1
    have hin : rangeOf d f ∈ rs := by
      rcases List.mem_cons.mp hmem with e | hm
      · rw [e] at h1; omega
      · exact hm
    by_cases hc : Qsort.Consistent cmpFilerange (laidRanges d)
    · have hle := (List.pairwise_cons.mp (hq.sorted hc)).1 _ hin
      have hsymm := (hc.symm r₀ (hq.perm.mem_iff.mp (List.mem_cons_self ..)) _
        (hq.perm.mem_iff.mp hmem)).mp hle
      have hb := h32 _ hmem
      unfold cmpFilerange toI32 at hle hsymm
      rw [subU32_of_lt hb (by omega)] at hle
      rw [subU32_of_le hb (by omega)] at hsymm
      split at hle
      · omega
      · rw [if_neg (by omega)] at hsymm
        omega
    · have hrev := (needed_result hp (hq.reverse hc)).sorted
      rw [List.reverse_cons, List.pairwise_append] at hrev
      have := hrev.2.2 _ (List.mem_reverse.mpr hin) r₀ (List.mem_singleton_self _)
      omega

end Needed

/-! ## The result -/

/-- Whatever order `qsort` leaves, the layout of a successful recalculation is a partition in exact
arithmetic iff the layout fits. -/
theorem recalc_partition_iff (d : VdfDrive) (hg : d.toGeometry.Created) (ht : d.IsTree)
    (hr : d.InRange) (hs : ∃ d', Recalc d d') :
    (∀ d', Recalc d d' → ∃ rs, Partition d' rs) ↔ LayoutFits d := by
  obtain ⟨d₀, h0⟩ := hs
  have hcan := ((recalc_iff ht hr.dataStart).mp h0).1
  have hspc : 0 < d.spc := (clusterSectors_le hg.spc).1
  constructor
  · intro hall
    have hp : ∀ rs, Qsort.Result cmpFilerange (unsortedRanges d) rs →
        Partition (recalcDrive d rs) rs := by
      intro rs hq
      obtain ⟨rs', h⟩ := hall _ ((recalc_iff ht hr.dataStart).mpr ⟨hcan, rs, hq, rfl⟩)
      have e : rs = rs' := Option.some.inj h.ranges
      exact e ▸ h
    exact
      { toSumsFit := needed_sums hr hp, span := needed_span ht hr hp
        empties := needed_empties ht hr hp hspc, dirs := needed_dirs hp }
  · intro hf d' h
    obtain ⟨-, rs, hq, rfl⟩ := (recalc_iff ht hr.dataStart).mp h
    exact ⟨rs, hf.partition ht hr hspc hq⟩

theorem flatDrive_inRange {g : Geometry} {label : Option (List UInt8)} {files : List VdfFile}
    (hds : g.dataStart < 2 ^ 32) (hsec : g.sectors < 2 ^ 32)
    (hf : ∀ fil ∈ files, fil.size < 2 ^ 32 ∧ fil.clusters < 2 ^ 32 ∧ fil.end_ < 2 ^ 32) :
    (flatDrive g label files).InRange := by
  have key : ∀ x, ((flatDrive g label files).file x).size < 2 ^ 32 ∧
      ((flatDrive g label files).file x).clusters < 2 ^ 32 ∧
      ((flatDrive g label files).file x).end_ < 2 ^ 32 := by
    intro x
    simp only [flatDrive]
    split
    · exact ⟨Nat.two_pow_pos 32, Nat.two_pow_pos 32, Nat.two_pow_pos 32⟩
    · split
      · rename_i h
        have := hf _ (List.mem_of_getElem? h)
        exact this
      · exact ⟨Nat.two_pow_pos 32, Nat.two_pow_pos 32, Nat.two_pow_pos 32⟩
  exact ⟨hds, hsec, fun f => (key f).1, fun f => (key f).2.1, fun f => (key f).2.2⟩

/-- The geometry of a FAT16 drive of 128 MiB. -/
def geometry16 : Geometry :=
  { flags := 2, filesys := .fat16, bps := 512, spc := 64, bpc := 32768, sectors := 262217
    clusters := 4096, bytes := 134255104, rootDirCnt := 512, mbrSectors := 0
    direntPerSector := 16, fatSectors := 16, fat1Start := 1, fat2Start := 17, rootStart := 33
    rootSectors := 32, dataStart := 65 }

theorem geometry16_created : geometry16.Created :=
  ⟨262217 * 512, 2, ⟨0, 512, 64, 512⟩, ⟨0, 0, 0, 0⟩, by decide⟩

/-- Two files on a FAT16 drive. -/
def drive16 : VdfDrive :=
  flatDrive geometry16 none
    [{ size := 1000, clusters := 1, virt := true }, { size := 70000, clusters := 3, virt := true }]

theorem drive16_isTree : drive16.IsTree := flatDrive_isTree _ _ _

theorem drive16_inRange : drive16.InRange := flatDrive_inRange (by decide) (by decide) (by decide)

theorem drive16_canRecalc : CanRecalc drive16 := ⟨rfl, rfl, rfl, by decide⟩

theorem drive16_fits : LayoutFits drive16 :=
  { sectors := by decide, clusters := by decide, span := by decide, empties := by decide
    dirs := by decide }

/-- The layout of two files is a partition. -/
theorem recalc_partition_two : ∃ d' rs, Recalc drive16 d' ∧ Partition d' rs := by
  obtain ⟨rs, hq⟩ := Qsort.exists_result cmpFilerange (unsortedRanges drive16)
  have hs := (recalc_iff drive16_isTree drive16_inRange.dataStart).mpr
    ⟨drive16_canRecalc, rs, hq, rfl⟩
  obtain ⟨rs', hp⟩ := (recalc_partition_iff drive16 geometry16_created drive16_isTree
    drive16_inRange ⟨_, hs⟩).mpr drive16_fits _ hs
  exact ⟨_, rs', hs, hp⟩

/-- The largest FAT32 drive: `2^32 - 1` sectors. -/
def geometryMax : Geometry :=
  { flags := 3, filesys := .fat32, bps := 512, spc := 128, bpc := 65536, sectors := 4294967295
    clusters := 33550335, bytes := 2199023255040, rootDirCnt := 512, mbrSectors := 0
    direntPerSector := 16, fatSectors := 262144, fat1Start := 32, fat2Start := 262176
    rootStart := 524320, rootSectors := 0, dataStart := 524320 }

/-- A file of 4 GiB less 512 bytes, with the cluster count of a drive with 512-byte clusters. -/
def hugeFile : VdfFile := { size := 4294966784, clusters := 8388607, virt := true }

/-- Four of them ask for `2^32 - 512` sectors. -/
def driveMax : VdfDrive := flatDrive geometryMax none [hugeFile, hugeFile, hugeFile, hugeFile]

/-- The running sector count wraps to a sector before the data area, and both capacity checks
pass. -/
theorem recalc_not_partition : ¬ ∀ d d' : VdfDrive, d.toGeometry.Created → d.IsTree → d.InRange →
    Recalc d d' → ∃ rs, Partition d' rs := by
  intro hall
  have hcreated : geometryMax.Created :=
    ⟨4294967295 * 512, 3, ⟨0, 512, 128, 512⟩, ⟨0, 0, 0, 0⟩, by decide⟩
  have ht := flatDrive_isTree geometryMax none [hugeFile, hugeFile, hugeFile, hugeFile]
  have hr : driveMax.InRange := flatDrive_inRange (by decide) (by decide) (by decide)
  obtain ⟨rs, hq⟩ := Qsort.exists_result cmpFilerange (unsortedRanges driveMax)
  have hcan : CanRecalc driveMax := ⟨rfl, rfl, rfl, by decide⟩
  obtain ⟨rs', h⟩ := hall driveMax _ hcreated ht hr
    ((recalc_iff ht hr.dataStart).mpr ⟨hcan, rs, hq, rfl⟩)
  have e : rs = rs' := Option.some.inj h.ranges
  subst e
  have hne : rs ≠ [] := by
    rintro rfl
    have hlen := hq.perm.length_eq
    revert hlen
    decide
  have hle : driveMax.dataStart ≤ (recalcDrive driveMax rs).dataEnd := (h.sect_chain hne).le
  have hend : (recalcDrive driveMax rs).dataEnd = sectorOf geometryMax (totalUsed driveMax) := rfl
  rw [hend] at hle
  revert hle
  decide

end Vdf
