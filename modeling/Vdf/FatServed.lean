import Vdf.FatWalk
import Vdf.Partition

/-!
# When the FAT16 and FAT32 tables are served

`FatServed`: some table meets the specification of the FAT, and every request inside a FAT copy
gives the matching slice of it. It holds when the ranges that do not end before cluster 3 are
non-empty and lead from cluster 2 to `data_cluster_end` without a gap, and the loop never asks for
the file behind the last one: `file_cnt` counts no empty file, or the FAT ends before that entry
(`FatChains`). Among the layouts that do not wrap it holds only then.
-/

namespace Vdf

open Word Buffer

/-! ## Specification -/

/-- The bytes of a FAT16 or FAT32 entry. -/
def Filesys.entryWidth : Filesys → Nat
  | .fat32 => 4
  | _ => 2

/-- The first entry, with the media byte. -/
def Filesys.mediaMark : Filesys → Nat
  | .fat32 => 0x0ffffff8
  | _ => 0xfff8

/-- The end of a chain. -/
def Filesys.eocMark : Filesys → Nat
  | .fat32 => 0x0fffffff
  | _ => 0xffff

/-- The table of the drive's files. -/
structure FatTable (d : VdfDrive) (media eoc : Nat) (t : Nat → Nat) : Prop where
  first : t 0 = media
  second : t 1 = eoc
  chain : ∀ f ∈ d.allFiles, (d.file f).size ≠ 0 → ∀ c, (d.file f).start ≤ c →
    c + 1 < (d.file f).end_ → t c = c + 1
  last : ∀ f ∈ d.allFiles, (d.file f).size ≠ 0 → (d.file f).start < (d.file f).end_ →
    t ((d.file f).end_ - 1) = eoc
  free : ∀ c, d.dataClusterEnd ≤ c → t c = 0

/-- Every request inside a FAT copy gives its slice of the drive's table, without a read outside
the ranges. -/
def FatServed (d : VdfDrive) : Prop :=
  ∃ t, FatTable d d.filesys.mediaMark d.filesys.eocMark t ∧
    ∀ sector scnt, 0 < scnt → sector + scnt ≤ d.fatSectors → ∀ m p,
      readSectorFat d sector scnt m p = .ok (m.overlay p (scnt * d.bps) fun j =>
        some (entryByte d.filesys.entryWidth t (sector * d.bps + j)))

/-- The ranges `live` are the chains of the FAT, and those before them are out of the way. -/
structure FatChained (d : VdfDrive) (pre live : List FileRange) : Prop where
  ranges : d.ranges = some (pre ++ live)
  skipped : live ≠ [] → ∀ r ∈ pre, r.fatend ≤ 2
  chain : Chain FileRange.fatstart FileRange.fatend 2 live d.dataClusterEnd
  nonempty : ∀ r ∈ live, r.fatstart < r.fatend
  complete : ∀ f ∈ d.allFiles, (d.file f).size ≠ 0 → (d.file f).start < (d.file f).end_ →
    ∃ r ∈ live, r.file = f
  count : live = [] ∨ d.fileCnt = (pre ++ live).length ∨
    d.fatSectors * d.bps < d.dataClusterEnd * d.filesys.entryWidth

/-- The drives whose FAT is served. -/
def FatChains (d : VdfDrive) : Prop := ∃ pre live, FatChained d pre live

/-! ## The ranges of a recalculated drive -/

theorem mem_unsortedRanges {d : VdfDrive} {r : FileRange} (h : r ∈ unsortedRanges d) :
    ∃ f ∈ d.allFiles, r = fileRange { d with file := recalcFile d } f := by
  rw [unsortedRanges_eq] at h
  obtain ⟨f, hf, rfl⟩ := List.mem_map.mp h
  exact ⟨f, List.mem_of_mem_filter (List.mem_of_mem_take hf), rfl⟩

theorem recalcFile_end_lt {d : VdfDrive} (hr : d.InRange) {f : FileId} (hf : f ∈ d.allFiles) :
    (recalcFile d f).end_ < 2 ^ 32 := by
  rw [recalcFile_mem hf]
  unfold VdfFile.laidOut
  split
  · show (numbered d f).end_ < _
    rw [(numbered_static d f).2.2.2.2.2.2.1]
    exact hr.end_ f
  · exact u32_lt _

theorem Ranged.of_result {d : VdfDrive} (hr : d.InRange) (hcnt : d.allFiles.length ≤ d.fileCnt)
    {rs : List FileRange} (hq : Qsort.Result cmpFilerange (unsortedRanges d) rs) :
    Ranged (recalcDrive d rs) rs := by
  have hmem : ∀ r ∈ rs, ∃ f ∈ d.allFiles, r = fileRange { d with file := recalcFile d } f :=
    fun r h => mem_unsortedRanges (hq.perm.mem_iff.mp h)
  refine ⟨rfl, fun r h => ?_, fun r h => ?_, ?_⟩
  · obtain ⟨f, -, rfl⟩ := hmem r h
    rfl
  · obtain ⟨f, hf, rfl⟩ := hmem r h
    exact recalcFile_end_lt hr hf
  · rw [hq.perm.length_eq, unsortedRanges_eq, List.length_map]
    have h1 : ((storedFiles d).take (laidFiles d).length).length ≤ (storedFiles d).length := by
      rw [List.length_take]; omega
    have h2 : (storedFiles d).length ≤ d.allFiles.length := List.length_filter_le _ _
    show _ ≤ d.fileCnt
    omega

/-! ## A chain is served -/

/-- The walk over a chain follows its intervals. -/
theorem walk_of_chain {a b : Nat} {l : List FileRange}
    (h : Chain FileRange.fatstart FileRange.fatend a l b)
    (hne : ∀ r ∈ l, r.fatstart < r.fatend) :
    walkEnds a l = l.map FileRange.fatend ∧ walkFin a l = b := by
  induction l generalizing a with
  | nil => exact ⟨rfl, h⟩
  | cons r l ih =>
    obtain ⟨h1, -, h3⟩ := h
    have hlt := hne r (List.mem_cons_self ..)
    have e : walkEnd a r = r.fatend := by
      rw [walkEnd, if_neg (by omega)]; omega
    obtain ⟨e1, e2⟩ := ih h3 fun x hx => hne x (.tail _ hx)
    simp only [walkEnds, walkFin, e, e1, e2, List.map_cons, and_self]

/-- Entered inside its first interval, the walk writes the same entries from there on. -/
theorem walkEntry_of_chain {eoc a b : Nat} {s t : List FileRange} {x : FileRange}
    (h : Chain FileRange.fatstart FileRange.fatend a (s ++ x :: t) b)
    (hne : ∀ r ∈ s ++ x :: t, r.fatstart < r.fatend) {ent : Nat} (hs : ∀ y ∈ s, y.fatend ≤ ent)
    (hx : ent < x.fatend) {c : Nat} (hc : ent ≤ c) :
    walkEntry eoc a (s ++ x :: t) c = walkEntry eoc ent (x :: t) c ∧
      walkFin ent (x :: t) = b := by
  obtain ⟨e1, e2⟩ := walk_of_chain h hne
  obtain ⟨k, h1, h2⟩ := Chain.append_iff.mp h
  obtain ⟨-, -, h3⟩ := h2
  have e : walkEnd ent x = x.fatend := by rw [walkEnd, if_neg (by omega)]; omega
  obtain ⟨e3, e4⟩ := walk_of_chain h3 fun r hr => hne r (by simp [hr])
  have hends : walkEnds ent (x :: t) = (x :: t).map FileRange.fatend := by
    simp only [walkEnds, e, e3, List.map_cons]
  have hfin : walkFin ent (x :: t) = b := by simp only [walkFin, e, e4]
  refine ⟨?_, hfin⟩
  have hmem : c + 1 ∈ walkEnds a (s ++ x :: t) ↔ c + 1 ∈ walkEnds ent (x :: t) := by
    rw [e1, hends, List.map_append, List.mem_append]
    constructor
    · rintro (hm | hm)
      · obtain ⟨y, hy, ey⟩ := List.mem_map.mp hm
        have := hs y hy
        omega
      · exact hm
    · exact .inr
  simp only [walkEntry, hmem, e2, hfin]

/-- The table of the chains `live`. -/
def chainTable (media eoc : Nat) (live : List FileRange) (c : Nat) : Nat :=
  if c = 0 then media else if c = 1 then eoc else walkEntry eoc 2 live c

theorem chainTable_of_two_le {media eoc : Nat} {live : List FileRange} {c : Nat} (h : 2 ≤ c) :
    chainTable media eoc live c = walkEntry eoc 2 live c := by
  rw [chainTable, if_neg (by omega), if_neg (by omega)]

/-- The entries of one interval of a chain. -/
theorem walkEntry_interval {eoc b : Nat} {l : List FileRange}
    (h : Chain FileRange.fatstart FileRange.fatend 2 l b)
    (hne : ∀ r ∈ l, r.fatstart < r.fatend) {r : FileRange} (hr : r ∈ l) {c : Nat}
    (h1 : r.fatstart ≤ c) (h2 : c < r.fatend) :
    walkEntry eoc 2 l c = if c + 1 = r.fatend then eoc else c + 1 := by
  obtain ⟨e1, e2⟩ := walk_of_chain h hne
  have hb := (h.mem hr).2.2
  rw [walkEntry, e1, e2]
  by_cases hend : c + 1 = r.fatend
  · rw [if_pos (by rw [hend]; exact List.mem_map_of_mem hr), if_pos hend]
  · rw [if_neg, if_pos (by omega), if_neg hend]
    intro hm
    obtain ⟨s, hs, es⟩ := List.mem_map.mp hm
    have hsne := hne s hs
    rcases Chain.pairwise_either h.pairwise hr hs with e | e | e
    · subst e; omega
    · omega
    · omega

theorem chainTable_fatTable {d : VdfDrive} {pre live : List FileRange} (h : FatChained d pre live)
    (hr : ∀ r ∈ live, (d.file r.file).start = r.fatstart ∧ (d.file r.file).end_ = r.fatend)
    (media eoc : Nat) : FatTable d media eoc (chainTable media eoc live) := by
  have hend : 2 ≤ d.dataClusterEnd := h.chain.le
  have hin : ∀ f ∈ d.allFiles, (d.file f).size ≠ 0 → ∀ c, (d.file f).start ≤ c →
      c < (d.file f).end_ →
      chainTable media eoc live c = if c + 1 = (d.file f).end_ then eoc else c + 1 := by
    intro f hf hs c h1 h2
    obtain ⟨r, hm, rfl⟩ := h.complete f hf hs (by omega)
    obtain ⟨e1, e2⟩ := hr r hm
    rw [e1] at h1
    rw [e2] at h2 ⊢
    have := (h.chain.mem hm).1
    rw [chainTable_of_two_le (by omega), walkEntry_interval h.chain h.nonempty hm h1 h2]
  refine ⟨rfl, rfl, fun f hf hs c h1 h2 => ?_, fun f hf hs hlt => ?_, fun c hc => ?_⟩
  · rw [hin f hf hs c h1 (by omega), if_neg (by omega)]
  · rw [hin f hf hs _ (by omega) (by omega), if_pos (by omega)]
  · obtain ⟨e1, e2⟩ := walk_of_chain h.chain h.nonempty
    rw [chainTable_of_two_le (by omega), walkEntry, e1, e2, if_neg, if_neg (by omega)]
    intro hm
    obtain ⟨s, hs, es⟩ := List.mem_map.mp hm
    have := (h.chain.mem hs).2.2
    omega

/-- The files and the chain of their ranges determine the table. -/
theorem FatTable.eq_chainTable {d : VdfDrive} {media eoc : Nat} {t : Nat → Nat}
    {live : List FileRange} (hT : FatTable d media eoc t)
    (hch : Chain FileRange.fatstart FileRange.fatend 2 live d.dataClusterEnd)
    (hne : ∀ r ∈ live, r.fatstart < r.fatend)
    (hfile : ∀ r ∈ live, r.file ∈ d.allFiles ∧ (d.file r.file).size ≠ 0 ∧
      (d.file r.file).start = r.fatstart ∧ (d.file r.file).end_ = r.fatend) (c : Nat) :
    t c = chainTable media eoc live c := by
  rcases Nat.lt_or_ge c 2 with hc | hc
  · obtain rfl | rfl : c = 0 ∨ c = 1 := by omega
    · exact hT.first
    · exact hT.second
  rw [chainTable_of_two_le hc]
  rcases Nat.lt_or_ge c d.dataClusterEnd with hlt | hge
  · obtain ⟨r, hr, h1, h2⟩ := hch.exists_mem hc hlt
    obtain ⟨hall, hsize, hstart, hend⟩ := hfile r hr
    rw [walkEntry_interval hch hne hr h1 h2]
    by_cases e : c + 1 = r.fatend
    · rw [if_pos e, ← hT.last _ hall hsize (by omega)]
      congr 1
      omega
    · rw [if_neg e]
      exact hT.chain _ hall hsize c (by omega) (by omega)
  · obtain ⟨-, hfin⟩ := walk_of_chain hch hne
    rw [hT.free c hge, walkEntry, if_neg, if_neg (by omega)]
    intro hm
    have := (walkEnds_bounds 2 live _ hm).2
    omega

/-- `read_sector_fat` on FAT16 and FAT32. -/
theorem readSectorFat_wide {d : VdfDrive} (hf : d.filesys = .fat16 ∨ d.filesys = .fat32)
    (sector scnt : Nat) (m : Buffer) (p : Nat) :
    readSectorFat d sector scnt m p = readSectorFatWide d.filesys.entryWidth d.filesys.mediaMark
      d.filesys.eocMark d sector scnt m p := by
  unfold readSectorFat
  rcases hf with e | e <;> rw [e] <;> rfl

/-- A request inside a FAT copy. -/
theorem FatRequest.of_known {d : VdfDrive} (hk : d.toGeometry.Known)
    (hf : d.filesys = .fat16 ∨ d.filesys = .fat32) {sector scnt : Nat} (hpos : 0 < scnt)
    (hle : sector + scnt ≤ d.fatSectors) : FatRequest d.filesys.entryWidth d sector scnt := by
  obtain ⟨k, h9, -, hk'⟩ := sectorSizes_pow hk.bps
  have hb := (sectorSizes_le hk.bps).1
  have h4 : 4 ∣ d.bps := by
    rw [hk']
    exact pow_dvd_pow 2 (by omega : 2 ≤ k)
  have h2 : 2 ∣ d.bps := Dvd.dvd.trans (by decide) h4
  have hlt : (sector + scnt) * d.bps < 2 ^ 31 :=
    Nat.lt_of_le_of_lt (Nat.mul_le_mul_right _ hle) hk.fatBytes
  rcases hf with e | e <;> rw [e]
  · exact ⟨hpos, by decide, h2, by simp only [Filesys.entryWidth]; omega, hlt⟩
  · exact ⟨hpos, by decide, h4, by simp only [Filesys.entryWidth]; omega, hlt⟩

theorem two_le_firstEntry {w : Nat} {d : VdfDrive} {sector scnt : Nat}
    (h : FatRequest w d sector scnt) : 2 ≤ firstEntry w d.bps sector := by
  unfold firstEntry
  split
  · exact Nat.le_refl _
  · have h1 : 2 ≤ d.bps / w := (Nat.le_div_iff_mul_le h.width).mpr h.two
    have h2 : 1 * (d.bps / w) ≤ sector * (d.bps / w) := Nat.mul_le_mul_right _ (by omega)
    omega

/-- A FAT whose ranges are a chain is served. -/
theorem FatChained.served {d : VdfDrive} {pre live : List FileRange} (hk : d.toGeometry.Known)
    (hf : d.filesys = .fat16 ∨ d.filesys = .fat32) (hr : Ranged d (pre ++ live))
    (hstart : ∀ r ∈ live, (d.file r.file).start = r.fatstart) (h : FatChained d pre live) :
    FatServed d := by
  have ht := chainTable_fatTable h (fun r hm => ⟨hstart r hm, hr.end_ r (by simp [hm])⟩)
    d.filesys.mediaMark d.filesys.eocMark
  refine ⟨_, ht, fun sector scnt hpos hle m p => ?_⟩
  have hreq := FatRequest.of_known hk hf hpos hle
  have htwo := two_le_firstEntry hreq
  have h01 := fun _ : sector = 0 => And.intro ht.first ht.second
  rw [readSectorFat_wide hf]
  by_cases hlt : firstEntry d.filesys.entryWidth d.bps sector < d.dataClusterEnd
  · obtain ⟨s, x, t, rfl, -, hx, hs, -⟩ := h.chain.split htwo hlt
    have hfront : ∀ y ∈ pre ++ s, y.fatend ≤ firstEntry d.filesys.entryWidth d.bps sector := by
      intro y hy
      rcases List.mem_append.mp hy with hy | hy
      · exact Nat.le_trans (h.skipped (by simp) y hy) htwo
      · exact hs y hy
    have hrs : pre ++ (s ++ x :: t) = pre ++ s ++ x :: t := by simp
    have hfin := (@walkEntry_of_chain d.filesys.eocMark _ _ _ _ _ h.chain h.nonempty _ hs hx
      _ (Nat.le_refl _)).2
    refine (readSectorFatWide_walk hreq hr h01 hrs
      ((findFileFatEntry_spec hr hlt).1 _ _ _ hrs hfront hx) fun c hc _ => ?_).1 ?_
    · rw [chainTable_of_two_le (by omega)]
      exact (walkEntry_of_chain h.chain h.nonempty hs hx hc).1
    · rw [hfin]
      rcases h.count with h0 | h0 | h0
      · simp at h0
      · exact .inl h0
      · exact .inr (Nat.lt_of_le_of_lt (Nat.mul_le_mul_right _ hle) h0)
  · refine readSectorFatWide_free hreq h01 ?_ fun c hc _ => ?_
    · rw [findFileFatEntry, if_pos (by omega)]
    · exact ht.free c (by omega)

/-! ## Only chains are served -/

section Served

variable {d : VdfDrive} (hk : d.toGeometry.Known) (hf : d.filesys = .fat16 ∨ d.filesys = .fat32)
  (ht : d.IsTree) (hr : d.InRange) (hs : SumsFit d)

/-- The entries of the files are no marks. -/
theorem entry_lt_eocMark (hk : d.toGeometry.Known)
    (hf : d.filesys = .fat16 ∨ d.filesys = .fat32) (hs : SumsFit d) :
    2 + totalUsed d < d.filesys.eocMark ∧ d.filesys.eocMark < 256 ^ d.filesys.entryWidth := by
  have h := hs.clusters.1
  rcases hf with e | e
  · have := (hk.fat16 e).2
    rw [e]
    simp only [Filesys.eocMark, Filesys.entryWidth]
    omega
  · have := (hk.fat32 e).2
    rw [e]
    simp only [Filesys.eocMark, Filesys.entryWidth]
    omega

/-- The ranges with clusters, in list order. -/
def liveRanges (d : VdfDrive) : List FileRange :=
  (laidRanges d).filter fun r => decide (r.fatstart < r.fatend)

theorem liveRanges_lt {r : FileRange} (h : r ∈ liveRanges d) : r.fatstart < r.fatend := by
  simpa using (List.mem_filter.mp h).2

include ht hr hs

theorem liveRanges_chain :
    Chain FileRange.fatstart FileRange.fatend 2 (liveRanges d) (2 + totalUsed d) :=
  (hs.fat_chain ht hr).filter

omit ht hr hs in
/-- A recalculated file of non-zero size, and its range. -/
theorem recalcFile_laid {f : FileId} (hf : f ∈ laidFiles d) :
    (recalcFile d f).size ≠ 0 ∧ (recalcFile d f).start = (rangeOf d f).fatstart ∧
      (recalcFile d f).end_ = (rangeOf d f).fatend := by
  obtain ⟨h1, h2⟩ := mem_laidFiles.mp hf
  rw [recalcFile_mem h1]
  unfold VdfFile.laidOut
  rw [if_neg h2]
  exact ⟨h2, rfl, rfl⟩

/-- What the specification says of the used clusters. -/
theorem fatTable_live {rs : List FileRange} {media eoc : Nat} {t : Nat → Nat}
    (hT : FatTable (recalcDrive d rs) media eoc t) {c : Nat} (h1 : 2 ≤ c)
    (h2 : c < 2 + totalUsed d) :
    t c = if c + 1 ∈ (liveRanges d).map FileRange.fatend then eoc else c + 1 := by
  have hch := liveRanges_chain ht hr hs
  obtain ⟨r, hm, h3, h4⟩ := hch.exists_mem h1 h2
  obtain ⟨f, hfm, rfl⟩ := List.mem_map.mp (List.mem_filter.mp hm).1
  obtain ⟨e1, e2, e3⟩ := recalcFile_laid hfm
  have hall : f ∈ (recalcDrive d rs).allFiles := (mem_laidFiles.mp hfm).1
  by_cases hend : c + 1 = (rangeOf d f).fatend
  · rw [if_pos (by rw [hend]; exact List.mem_map_of_mem hm)]
    have := hT.last f hall e1 (by show (recalcFile d f).start < (recalcFile d f).end_; omega)
    rw [← this]
    congr 1
    show _ = (recalcFile d f).end_ - 1
    omega
  · rw [if_neg]
    · refine hT.chain f hall e1 c ?_ ?_
      · show (recalcFile d f).start ≤ c
        omega
      · show c + 1 < (recalcFile d f).end_
        omega
    · intro hmem
      obtain ⟨s, hsm, es⟩ := List.mem_map.mp hmem
      have hlt := liveRanges_lt hsm
      rcases Chain.pairwise_either hch.pairwise hm hsm with e | e | e
      · subst e; omega
      · omega
      · omega

/-- A walk that agrees with the specification has the live ranges, in order. -/
theorem walk_live {eoc : Nat} {l : List FileRange} (heoc : 2 + totalUsed d < eoc)
    (hl : ∀ r ∈ liveRanges d, r ∈ l)
    (hwalk : ∀ c, 2 ≤ c → c < 2 + totalUsed d → walkEntry eoc 2 l c =
      if c + 1 ∈ (liveRanges d).map FileRange.fatend then eoc else c + 1)
    (hfin : walkFin 2 l ≤ 2 + totalUsed d) : l = liveRanges d := by
  have hch := liveRanges_chain ht hr hs
  have hstrict : (liveRanges d).Pairwise fun r s => r.fatend < s.fatend :=
    hch.pairwise.imp_of_mem fun {r s} hrm hsm h => by have := liveRanges_lt hsm; omega
  -- The ends of the walk are the ends of the live ranges.
  have hends : walkEnds 2 l = (liveRanges d).map FileRange.fatend := by
    have hnd : (walkEnds 2 l).Nodup := (walkEnds_sorted 2 l).imp fun h => Nat.ne_of_lt h
    have hsort : ((liveRanges d).map FileRange.fatend).Pairwise fun a b => a < b :=
      List.pairwise_map.mpr hstrict
    have hperm : (walkEnds 2 l).Perm ((liveRanges d).map FileRange.fatend) := by
      refine (List.perm_ext_iff_of_nodup hnd (hsort.imp fun h => Nat.ne_of_lt h)).mpr fun x => ?_
      constructor
      · intro hx
        obtain ⟨h1, h2⟩ := walkEnds_bounds 2 l x hx
        have hw := hwalk (x - 1) (by omega) (by omega)
        rw [walkEntry, if_pos (by rwa [Nat.sub_add_cancel (by omega)])] at hw
        by_contra hne
        rw [Nat.sub_add_cancel (by omega), if_neg hne] at hw
        omega
      · intro hx
        obtain ⟨r, hm, rfl⟩ := List.mem_map.mp hx
        have h1 := hch.mem hm
        have h2 := liveRanges_lt hm
        have hw := hwalk (r.fatend - 1) (by omega) (by omega)
        rw [Nat.sub_add_cancel (by omega), if_pos hx] at hw
        by_contra hne
        rw [walkEntry, Nat.sub_add_cancel (by omega), if_neg hne] at hw
        split at hw <;> omega
    refine List.Perm.eq_of_pairwise (fun a b _ _ h1 h2 => ?_) (walkEnds_sorted 2 l) hsort hperm
    omega
  have hnodup : (liveRanges d).Nodup := hstrict.imp fun {r s} h e => by rw [e] at h; omega
  have hlen : l.length = (liveRanges d).length := by
    rw [← length_walkEnds 2 l, hends, List.length_map]
  have hperm : (liveRanges d).Perm l :=
    (List.subperm_of_subset hnodup hl).perm_of_length_le (by omega)
  have hmap : l.map FileRange.fatend = (liveRanges d).map FileRange.fatend := by
    rw [← hends]
    refine (walkEnds_eq_of_sum ?_).symm
    rw [hends]
    exact (hperm.map _).sum_eq
  have hsorted : l.Pairwise fun r s => r.fatend ≤ s.fatend := by
    have : (l.map FileRange.fatend).Pairwise fun a b => a ≤ b := by
      rw [hmap]
      exact List.pairwise_map.mpr (hstrict.imp fun h => Nat.le_of_lt h)
    exact List.pairwise_map.mp this
  have hid : l.map id = (liveRanges d).map id := by
    refine Chain.map_eq_of_sorted hperm.symm (hstrict.imp fun h => Nat.le_of_lt h) hsorted ?_
    intro x hx y hy e
    rcases Chain.pairwise_either hstrict hx hy with h | h | h
    · exact h
    · omega
    · omega
  simpa using hid

omit ht hr hs in
/-- The clusters of a recalculated file are those of its range. -/
theorem rangeOf_mem_liveRanges {f : FileId} (hf : f ∈ d.allFiles) (hsz : (recalcFile d f).size ≠ 0)
    (hlt : (recalcFile d f).start < (recalcFile d f).end_) : rangeOf d f ∈ liveRanges d := by
  have hlaid : f ∈ laidFiles d := by
    rw [recalcFile_mem hf, (laidOut_static _ _ _).1] at hsz
    exact mem_laidFiles.mpr ⟨hf, hsz⟩
  obtain ⟨-, e1, e2⟩ := recalcFile_laid hlaid
  refine List.mem_filter.mpr ⟨List.mem_map_of_mem hlaid, ?_⟩
  rw [e1, e2] at hlt
  exact decide_eq_true hlt

omit hr hs ht in
theorem walkEntry_eq (eoc a : Nat) (l : List FileRange) (c : Nat) :
    walkEntry eoc a l c = eoc ∨ walkEntry eoc a l c = c + 1 ∨ walkEntry eoc a l c = 0 := by
  unfold walkEntry
  split
  · exact .inl rfl
  · split
    · exact .inr (.inl rfl)
    · exact .inr (.inr rfl)

/-- A live range is one of the array, and ends behind its first cluster. -/
theorem mem_of_liveRanges {rs : List FileRange}
    (hdirs : ∀ f ∈ (storedFiles d).take (laidFiles d).length, (numbered d f).size ≠ 0)
    (hq : Qsort.Result cmpFilerange (unsortedRanges d) rs) {r : FileRange}
    (hm : r ∈ liveRanges d) : r ∈ rs ∧ 2 < r.fatend := by
  have hperm : rs.Perm (laidRanges d) := by
    have := hq.perm
    rw [unsortedRanges_laid hdirs] at this
    exact this
  have h1 := (liveRanges_chain ht hr hs).mem hm
  have h2 := liveRanges_lt hm
  exact ⟨hperm.mem_iff.mpr (List.mem_filter.mp hm).1, by omega⟩

/-- An array whose last ranges are the live ones gives chains. -/
theorem fatChains_of_append {rs pre : List FileRange} (e : rs = pre ++ liveRanges d)
    (hpre : liveRanges d ≠ [] → ∀ r ∈ pre, r.fatend ≤ 2)
    (hc : liveRanges d = [] ∨ d.fileCnt = rs.length) : FatChains (recalcDrive d rs) := by
  have hend : (recalcDrive d rs).dataClusterEnd = 2 + totalUsed d := u32_of_lt hs.clusters.2
  refine ⟨pre, liveRanges d, ?_⟩
  exact
    { ranges := congrArg some e, skipped := hpre, chain := hend ▸ liveRanges_chain ht hr hs
      nonempty := fun r => liveRanges_lt
      complete := fun f hm hsz hlt => ⟨_, rangeOf_mem_liveRanges hm hsz hlt, rfl⟩
      count := hc.imp_right fun h => .inl (e ▸ h) }

/-- The walk of a request from the start of the FAT begins at the first range behind cluster 2. -/
theorem exists_first_range {rs : List FileRange}
    (hdirs : ∀ f ∈ (storedFiles d).take (laidFiles d).length, (numbered d f).size ≠ 0)
    (hq : Qsort.Result cmpFilerange (unsortedRanges d) rs) (h0 : totalUsed d ≠ 0) :
    ∃ pre r rest, rs = pre ++ r :: rest ∧ (∀ x ∈ pre, x.fatend ≤ 2) ∧ 2 < r.fatend := by
  obtain ⟨r₂, hm₂, -, -⟩ := (liveRanges_chain ht hr hs).exists_mem (Nat.le_refl 2) (by omega)
  obtain ⟨hmem, hlt⟩ := mem_of_liveRanges ht hr hs hdirs hq hm₂
  have hfind : (rs.find? fun r => decide (2 < r.fatend)) ≠ none := by
    rw [Ne, List.find?_eq_none]
    exact fun hall => hall r₂ hmem (decide_eq_true hlt)
  obtain ⟨r, hr₀⟩ := Option.ne_none_iff_exists'.mp hfind
  obtain ⟨hlt, pre, rest, hrs, hpre⟩ := List.find?_eq_some_iff_append.mp hr₀
  exact ⟨pre, r, rest, hrs, fun x hx => by have := hpre x hx; simpa using this,
    of_decide_eq_true hlt⟩

omit ht in
/-- What a request for the whole FAT gives. -/
theorem wholeFat_walk (hk : d.toGeometry.Known) (hf : d.filesys = .fat16 ∨ d.filesys = .fat32)
    (hcnt : d.allFiles.length ≤ d.fileCnt) {rs : List FileRange}
    (hq : Qsort.Result cmpFilerange (unsortedRanges d) rs) (h0 : totalUsed d ≠ 0)
    (hsec : 0 < d.fatSectors) {pre rest : List FileRange} {r : FileRange}
    (hrs : rs = pre ++ r :: rest) (hpre : ∀ x ∈ pre, x.fatend ≤ 2) (hlt : 2 < r.fatend)
    (m : Buffer) (p : Nat) :
    (d.fileCnt = rs.length ∨
        d.fatSectors * d.bps < walkFin 2 (r :: rest) * d.filesys.entryWidth →
      readSectorFat (recalcDrive d rs) 0 d.fatSectors m p =
        .ok (m.overlay p (d.fatSectors * d.bps) fun j => some (entryByte d.filesys.entryWidth
          (chainTable d.filesys.mediaMark d.filesys.eocMark (r :: rest)) j))) ∧
    (d.fileCnt ≠ rs.length →
        walkFin 2 (r :: rest) * d.filesys.entryWidth ≤ d.fatSectors * d.bps →
      readSectorFat (recalcDrive d rs) 0 d.fatSectors m p = .error (.rangesIndex rs.length)) := by
  have hend : (recalcDrive d rs).dataClusterEnd = 2 + totalUsed d := u32_of_lt hs.clusters.2
  have hranged := Ranged.of_result hr hcnt hq
  have hreq : FatRequest d.filesys.entryWidth (recalcDrive d rs) 0 d.fatSectors :=
    FatRequest.of_known (d := recalcDrive d rs) hk hf hsec (by simp; rfl)
  have hlook : findFileFatEntry (recalcDrive d rs) (firstEntry d.filesys.entryWidth d.bps 0) =
      .ok (some (r.file, pre.length)) :=
    (findFileFatEntry_spec hranged (by rw [hend]; simp only [firstEntry, ↓reduceIte]; omega)).1
      pre r rest hrs hpre hlt
  have hwalk := readSectorFatWide_walk (m := m) (p := p) hreq hranged
    (T := chainTable d.filesys.mediaMark d.filesys.eocMark (r :: rest)) (fun _ => ⟨rfl, rfl⟩) hrs
    hlook fun c hc _ => chainTable_of_two_le hc
  rw [readSectorFat_wide (d := recalcDrive d rs) hf]
  rw [Nat.zero_add, Nat.zero_mul] at hwalk
  simp only [Nat.zero_add] at hwalk
  exact hwalk

/-- Entry by entry a walk that is served is the table of the specification. -/
theorem walkEntry_eq_table (hk : d.toGeometry.Known)
    (hf : d.filesys = .fat16 ∨ d.filesys = .fat32) {rs l : List FileRange} {t : Nat → Nat}
    (hT : FatTable (recalcDrive d rs) d.filesys.mediaMark d.filesys.eocMark t)
    (hsec : 0 < d.fatSectors)
    (hroom : (2 + totalUsed d) * d.filesys.entryWidth < d.fatSectors * d.bps) {m : Buffer}
    {p : Nat} (hov : (m.overlay p (d.fatSectors * d.bps) fun j => some (entryByte
        d.filesys.entryWidth (chainTable d.filesys.mediaMark d.filesys.eocMark l) j)) =
      m.overlay p (d.fatSectors * d.bps) fun j => some (entryByte d.filesys.entryWidth t j))
    {c : Nat} (h1 : 2 ≤ c) (h2 : c ≤ 2 + totalUsed d) :
    walkEntry d.filesys.eocMark 2 l c = t c := by
  obtain ⟨hmark1, hmark2⟩ := entry_lt_eocMark hk hf hs
  have hreq : FatRequest d.filesys.entryWidth (recalcDrive d rs) 0 d.fatSectors :=
    FatRequest.of_known (d := recalcDrive d rs) hk hf hsec (by simp; rfl)
  have hfit : (c + 1) * d.filesys.entryWidth ≤ d.fatSectors * d.bps := by
    obtain ⟨q, hq⟩ : d.filesys.entryWidth ∣ d.fatSectors * d.bps := hreq.dvd.mul_left _
    have h3 : c * d.filesys.entryWidth ≤ (2 + totalUsed d) * d.filesys.entryWidth :=
      Nat.mul_le_mul_right _ h2
    rw [hq, Nat.mul_comm _ q] at hroom ⊢
    exact Nat.mul_le_mul_right _ (Nat.lt_of_mul_lt_mul_right (Nat.lt_of_le_of_lt h3 hroom))
  have h3 := entry_eq_of_overlay hov hfit
  have h4 : t c < 256 ^ d.filesys.entryWidth := by
    rcases Nat.lt_or_ge c (2 + totalUsed d) with h5 | h5
    · rw [fatTable_live ht hr hs hT h1 h5]
      split
      · exact hmark2
      · omega
    · rw [hT.free c (Nat.le_trans (Nat.le_of_eq (u32_of_lt hs.clusters.2)) h5)]
      omega
  have h5 : walkEntry d.filesys.eocMark 2 l c < 256 ^ d.filesys.entryWidth := by
    rcases walkEntry_eq d.filesys.eocMark 2 l c with e | e | e <;> omega
  rwa [chainTable_of_two_le h1, Nat.mod_eq_of_lt h5, Nat.mod_eq_of_lt h4] at h3

omit ht hr hs in
/-- A walk that writes nothing behind the used clusters ends there. -/
theorem walkFin_le_of_free {eoc a e : Nat} {l : List FileRange} (heoc : e < eoc)
    (hfree : walkEntry eoc a l e = 0) : walkFin a l ≤ e := by
  by_contra hgt
  rw [walkEntry] at hfree
  split at hfree
  · omega
  · rw [if_pos (by omega)] at hfree
    omega

/-- With an entry behind the used clusters, a FAT that is served comes from chains. -/
theorem FatServed.chains (hk : d.toGeometry.Known) (hf : d.filesys = .fat16 ∨ d.filesys = .fat32)
    (hcnt : d.allFiles.length ≤ d.fileCnt) {rs : List FileRange}
    (hdirs : ∀ f ∈ (storedFiles d).take (laidFiles d).length, (numbered d f).size ≠ 0)
    (hq : Qsort.Result cmpFilerange (unsortedRanges d) rs)
    (hroom : (2 + totalUsed d) * d.filesys.entryWidth < d.fatSectors * d.bps)
    (h : FatServed (recalcDrive d rs)) : FatChains (recalcDrive d rs) := by
  obtain ⟨t, hT, hserve⟩ := h
  by_cases h0 : totalUsed d = 0
  · -- Nothing has clusters.
    have hnil : liveRanges d = [] := by
      refine List.eq_nil_iff_forall_not_mem.mpr fun r hm => ?_
      have h1 := (liveRanges_chain ht hr hs).mem hm
      have h2 := liveRanges_lt hm
      omega
    have hrs : rs = rs ++ liveRanges d := by rw [hnil, List.append_nil]
    exact fatChains_of_append ht hr hs hrs (fun h => absurd hnil h) (.inl hnil)
  obtain ⟨pre, r, rest, hrs, hpre, hlt⟩ := exists_first_range ht hr hs hdirs hq h0
  have hsec : 0 < d.fatSectors := by
    rcases Nat.eq_zero_or_pos d.fatSectors with e | e
    · rw [e, Nat.zero_mul] at hroom; omega
    · exact e
  have hwalk := wholeFat_walk hr hs hk hf hcnt hq h0 hsec hrs hpre hlt (fun _ => 0) 0
  have hgot := hserve 0 d.fatSectors hsec (by simp; rfl) (fun _ => 0) 0
  rcases Decidable.em (d.fileCnt = rs.length ∨ d.fatSectors * d.bps <
    walkFin 2 (r :: rest) * d.filesys.entryWidth) with hok | hbad
  · have hov := (hwalk.1 hok).symm.trans hgot
    simp only [Except.ok.injEq, Nat.zero_mul, Nat.zero_add] at hov
    have hsame {c : Nat} (h1 : 2 ≤ c) (h2 : c ≤ 2 + totalUsed d) :=
      walkEntry_eq_table ht hr hs hk hf hT hsec hroom hov h1 h2
    have hmark := (entry_lt_eocMark hk hf hs).1
    have hfin : walkFin 2 (r :: rest) ≤ 2 + totalUsed d := by
      refine walkFin_le_of_free hmark ((hsame (by omega) (Nat.le_refl _)).trans (hT.free _ ?_))
      exact Nat.le_of_eq (u32_of_lt hs.clusters.2)
    have hl := walk_live ht hr hs (l := r :: rest) hmark (fun x hx => ?_) (fun c h1 h2 => ?_) hfin
    · refine fatChains_of_append ht hr hs (hl ▸ hrs) (fun _ => hpre) (.inr (hok.resolve_right ?_))
      have h1 : walkFin 2 (r :: rest) * d.filesys.entryWidth ≤
          (2 + totalUsed d) * d.filesys.entryWidth := Nat.mul_le_mul_right _ hfin
      exact fun h2 => absurd (Nat.lt_trans h2 (Nat.lt_of_le_of_lt h1 hroom)) (Nat.lt_irrefl _)
    · -- A live range is none of those that the walk passes over.
      obtain ⟨h1, h2⟩ := mem_of_liveRanges ht hr hs hdirs hq hx
      rw [hrs] at h1
      rcases List.mem_append.mp h1 with h1 | h1
      · have := hpre x h1
        omega
      · exact h1
    · rw [hsame h1 (by omega), fatTable_live ht hr hs hT h1 h2]
      rfl
  · rw [not_or, Nat.not_lt] at hbad
    have := (hwalk.2 hbad.1 hbad.2).symm.trans hgot
    cases this

end Served

/-! ## The result -/

/-- The ranges of a layout that fits, when every file has clusters. -/
theorem LayoutFits.liveChain {d : VdfDrive} (ht : d.IsTree) (hr : d.InRange) (hspc : 0 < d.spc)
    (hf : LayoutFits d) (hne : ∀ f ∈ laidFiles d, (numbered d f).clusters ≠ 0)
    {rs : List FileRange} (hq : Qsort.Result cmpFilerange (unsortedRanges d) rs) :
    Chain FileRange.fatstart FileRange.fatend 2 rs (recalcDrive d rs).dataClusterEnd ∧
      (∀ r ∈ rs, r.fatstart < r.fatend) ∧
      (∀ f ∈ (recalcDrive d rs).allFiles, ((recalcDrive d rs).file f).size ≠ 0 →
        ((recalcDrive d rs).file f).start < ((recalcDrive d rs).file f).end_ →
        ∃ r ∈ rs, r.file = f) ∧
      ∀ r ∈ rs, ∃ f ∈ laidFiles d, r = rangeOf d f := by
  have hend : (recalcDrive d rs).dataClusterEnd = 2 + totalUsed d := u32_of_lt hf.clusters.2
  have hch := (hf.chains ht hr hspc hq).2
  have hperm := hq.perm
  rw [unsortedRanges_laid hf.dirs] at hperm
  have hexact : ∀ r ∈ rs, ∃ f ∈ laidFiles d, r = rangeOf d f := fun r hm => by
    obtain ⟨f, hfm, e⟩ := List.mem_map.mp (hperm.mem_iff.mp hm)
    exact ⟨f, hfm, e.symm⟩
  refine ⟨hend ▸ hch, fun r hm => ?_, fun f hm hsz hlt => ⟨rangeOf d f, ?_, rfl⟩, hexact⟩
  · obtain ⟨f, hfm, rfl⟩ := hexact r hm
    obtain ⟨-, -, h1, h2⟩ := hf.toSumsFit.range_eq ht hr hfm
    have := hne f hfm
    omega
  · exact hperm.mem_iff.mpr (List.mem_filter.mp (rangeOf_mem_liveRanges (d := d) hm hsz hlt)).1

/-- A layout that fits is served when every file has clusters. -/
theorem LayoutFits.fatChains {d : VdfDrive} (ht : d.IsTree) (hr : d.InRange) (hspc : 0 < d.spc)
    (hf : LayoutFits d) (hne : ∀ f ∈ laidFiles d, (numbered d f).clusters ≠ 0)
    (hcnt : d.fileCnt = (laidFiles d).length) {rs : List FileRange}
    (hq : Qsort.Result cmpFilerange (unsortedRanges d) rs) : FatChains (recalcDrive d rs) := by
  obtain ⟨hch, hlive, hcomplete, -⟩ := hf.liveChain ht hr hspc hne hq
  have hlen : rs.length = (laidFiles d).length := by
    rw [hq.perm.length_eq, unsortedRanges_laid hf.dirs, List.length_map]
  refine ⟨[], rs, ?_⟩
  exact
    { ranges := rfl, skipped := fun _ => nofun, nonempty := hlive, chain := hch
      complete := hcomplete, count := .inr (.inl (hcnt.trans hlen.symm)) }

/-- On FAT16 and FAT32 a chain of ranges is served, and, when the layout does not wrap and the FAT
goes on behind the used clusters, only a chain is. -/
theorem readSectorFat_served_iff (d d' : VdfDrive) (hg : d.toGeometry.Created)
    (hf : d.filesys = .fat16 ∨ d.filesys = .fat32) (ht : d.IsTree) (hr : d.InRange)
    (hcnt : d.allFiles.length ≤ d.fileCnt) (h : Recalc d d') :
    (FatChains d' → FatServed d') ∧
      (SumsFit d → (∀ f ∈ (storedFiles d).take (laidFiles d).length, (numbered d f).size ≠ 0) →
        (2 + totalUsed d) * d.filesys.entryWidth < d.fatSectors * d.bps →
        FatServed d' → FatChains d') := by
  have hk := hg.known (by rcases hf with e | e <;> rw [e] <;> decide)
  obtain ⟨-, rs, hq, rfl⟩ := (recalc_iff ht hr.dataStart).mp h
  constructor
  · rintro ⟨pre, live, hc⟩
    have e : rs = pre ++ live := Option.some.inj hc.ranges
    subst e
    refine hc.served hk hf (Ranged.of_result hr hcnt hq) fun r hm => ?_
    obtain ⟨f, -, rfl⟩ := mem_unsortedRanges (hq.perm.mem_iff.mp (List.mem_append_right _ hm))
    rfl
  · intro hs hdirs hroom hserved
    exact hserved.chains ht hr hs hk hf hcnt hdirs hq hroom

/-- The FAT of a drive with two files. -/
theorem readSectorFat_served_two : ∃ d', Recalc drive16 d' ∧ FatChains d' ∧ FatServed d' := by
  obtain ⟨rs, hq⟩ := Qsort.exists_result cmpFilerange (unsortedRanges drive16)
  have h := (recalc_iff drive16_isTree drive16_inRange.dataStart).mpr
    ⟨drive16_canRecalc, rs, hq, rfl⟩
  have hc := drive16_fits.fatChains drive16_isTree drive16_inRange (by decide) (by decide)
    (by decide) hq
  have hiff := readSectorFat_served_iff drive16 _ geometry16_created (.inl rfl) drive16_isTree
    drive16_inRange (by decide) h
  exact ⟨_, h, hc, hiff.1 (hiff.2 drive16_fits.toSumsFit drive16_fits.dirs (by decide) (hiff.1 hc))⟩

/-- A file with a cluster and an empty file. -/
def driveEmpty : VdfDrive :=
  flatDrive geometry16 none [{ size := 1000, clusters := 1, virt := true }, { virt := true }]

/-- `file_cnt` counts the empty file, and the loop asks for its range. -/
theorem readSectorFat_not_served : ¬ ∀ d d' : VdfDrive, d.toGeometry.Created →
    (d.filesys = .fat16 ∨ d.filesys = .fat32) → d.IsTree → d.InRange →
    d.allFiles.length ≤ d.fileCnt → Recalc d d' → FatServed d' := by
  intro hall
  have ht : driveEmpty.IsTree := flatDrive_isTree _ _ _
  have hr : driveEmpty.InRange := flatDrive_inRange (by decide) (by decide) (by decide)
  have hs : SumsFit driveEmpty := ⟨by decide, by decide⟩
  have hcnt : driveEmpty.allFiles.length ≤ driveEmpty.fileCnt := by decide
  have hcan : CanRecalc driveEmpty := ⟨rfl, rfl, rfl, by decide⟩
  obtain ⟨rs, hq⟩ := Qsort.exists_result cmpFilerange (unsortedRanges driveEmpty)
  have hserved := hall driveEmpty _ geometry16_created (.inl rfl) ht hr hcnt
    ((recalc_iff ht hr.dataStart).mpr ⟨hcan, rs, hq, rfl⟩)
  obtain ⟨pre, live, hc⟩ := hserved.chains ht hr hs (geometry16_created.known (by decide)) (.inl rfl)
    hcnt (by decide) hq (by decide)
  have hlen : rs.length = 1 := hq.perm.length_eq.trans (by decide)
  have e : rs = pre ++ live := Option.some.inj hc.ranges
  have hend : (recalcDrive driveEmpty rs).dataClusterEnd = 3 := by
    show u32 (2 + totalUsed driveEmpty) = 3
    decide
  rcases hc.count with h | h | h
  · have h2 := hc.chain
    rw [h, Chain.nil_iff, hend] at h2
    omega
  · rw [← e, hlen] at h
    exact absurd h (show ¬ driveEmpty.fileCnt = 1 by decide)
  · rw [hend] at h
    exact absurd h (show ¬ driveEmpty.fatSectors * driveEmpty.bps < 3 * 2 by decide)

end Vdf
