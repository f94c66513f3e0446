import Vdf.FullRecords
import Vdf.Lib.FatCheck
import Vdf.Mount

/-!
# Checking a drive

What a file-system checker finds on the image of a drive (`Clean`). Besides the chains of the
directories and files it looks at the marks in front of the FAT, at the second copy, and on FAT32 at
the information sector and at the copy of the boot sector. It looks at no signature: the boot sector
ends in `aa 55`, where a stricter checker wants `55 aa`.

A recalculated drive that can be mounted is clean when its FAT has an entry for every cluster, its
files have the clusters that their sizes ask for, and its label fills the field (`CheckFits`).
-/

namespace Vdf

open Word Buffer

/-! ## The checker -/

/-- The entries of the volume at `base`, if there are less than `depth` levels. -/
def mountListing (m : Buffer) (base depth : Nat) : Option (List (Listed EntryInfo)) :=
  (mountVolume m base).listing m parseDir depth (mountRoot m base)

/-- The information sector and the copy of the boot sector are where the boot sector says: the free
clusters are counted, those from the hint on are the free ones, and the copy is one. -/
structure CleanReserved (m : Buffer) (base : Nat) (v : FatVolume) (bps : Nat) : Prop where
  free : m.get32 (base + m.get16 (base + 48) * bps + 488) = (v.free m).length
  next : ∀ c, 2 ≤ c → c < v.clusters + 2 → (v.kind.entry m v.table c = 0 ↔
    m.get32 (base + m.get16 (base + 48) * bps + 492) ≤ c)
  backup : m.slice (base + m.get16 (base + 50) * bps) 512 = m.slice base 512

/-- The checks pass on the volume at `base`, whose entries are `es`. -/
structure Clean (m : Buffer) (base : Nat) (es : List (Listed EntryInfo)) : Prop where
  sound : (mountVolume m base).Sound m (mountRoot m base) es
  media : (mountVolume m base).kind.entry m (mountVolume m base).table 0 % 256 =
    (m (base + 21)).toNat
  mark : (mountVolume m base).kind.eoc ≤
    (mountVolume m base).kind.entry m (mountVolume m base).table 1
  copies : let n := (readBpb m base).fatSectors * (readBpb m base).bps
    m.slice ((mountVolume m base).table + n) n = m.slice (mountVolume m base).table n
  reserved : (readBpb m base).filesys = .fat32 →
    CleanReserved m base (mountVolume m base) (readBpb m base).bps

/-- The drives with an image on which the checks pass. -/
structure Checkable (d : VdfDrive) (rs : List FileRange) : Prop extends Mounted d rs where
  all : d.toGeometry.FatHolds
  exact : ∀ r ∈ rs, (d.file r.file).isDir = false →
    r.fatend - r.fatstart = ((d.file r.file).size + (d.bpc - 1)) / d.bpc
  label : ∀ l ∈ d.label, 11 ≤ (labelBytes l).length

/-! ## The boot sector -/

section Boot

/-- The reserved sectors of FAT32. -/
theorem Geometry.Created.fat1Start_of_fat32 {g : Geometry} (h : g.Created)
    (h32 : g.filesys = .fat32) : 32 ≤ g.fat1Start := by
  have hk := h.known (by rw [h32]; simp)
  obtain ⟨size, flags, ext, junk, h⟩ := h
  obtain ⟨p, -, -, hp, e⟩ := createdriveGeometry_cases h
  have hp := planDrive_eq hp
  rw [h32] at hp
  have hstart : g.fat1Start =
      if hasFlag flags vdfAlignCluster then maskDown 32 (u32 (32 + g.spc)) g.spc else 32 := by
    rw [show g.fat1Start = p.fat1Start from congrArg Geometry.fat1Start e, hp]
    rfl
  rw [hstart]
  split
  · obtain ⟨k, hk7, hpow⟩ := clusterSectors_pow hk.spc
    have hle := (clusterSectors_le hk.spc).2
    rw [u32_of_lt (by omega), maskDown_eq hpow (by omega) (by omega)]
    have hdm := Nat.div_add_mod (32 + g.spc) g.spc
    have hlt := Nat.mod_lt (32 + g.spc) (clusterSectors_le hk.spc).1
    rw [Nat.mul_comm] at hdm
    omega
  · exact Nat.le_refl 32

variable {d : VdfDrive} {r : Record} (h : bootRecord d = .ok r)
include h

/-- The media byte. -/
theorem bootRecord_media : r.byte 21 = some 0xf8 := by
  obtain ⟨u, hu, rfl⟩ := bootRecord_eq h
  have hu0 := ((bootUnionRecord_between hu).avoids (o := 21) (w := 1) (by omega)).byte (k := 0)
    (by omega)
  rw [Record.byte_append, Record.byte_append, hu0]
  rfl

variable (h32 : d.filesys = .fat32)
include h32

/-- The places of the information sector and of the copy. -/
theorem bootRecord_places : r.Holds 48 2 1 ∧ r.Holds 50 2 6 := by
  have hlast {r : Record} {o v : Nat} (hr : r.Holds o 2 v) (ho : o + 2 ≤ 64) :
      Record.Holds (r ++ bootCommonRecord d 64 ++ [(90, List.replicate 420 0)]) o 2 v := by
    refine (hr.append ((bootCommonRecord_between d 64).avoids (by omega))).append ?_
    simp only [Record.Avoids, List.forall_mem_cons, List.length_replicate]
    exact ⟨by omega, List.forall_mem_nil _⟩
  have hends : Record.Avoids [(510, [0xaa]), (511, [0x55])] 48 2 ∧
      Record.Avoids [(510, [0xaa]), (511, [0x55])] 50 2 := by
    simp only [Record.Avoids, List.forall_mem_cons]
    decide
  obtain ⟨u, hu, rfl⟩ := bootRecord_eq h
  rw [bootUnionRecord, h32] at hu
  obtain rfl := Option.some.inj hu
  refine ⟨((hlast ?_ (by omega)).prepend (bootHeadRecord d)).append hends.1,
    ((hlast ?_ (by omega)).prepend (bootHeadRecord d)).append hends.2⟩
  · refine Record.holds_of_last [(28, le 4 0), (36, le 4 d.fatSectors), (32, le 4 d.sectors),
      (40, le 2 0), (42, le 2 0), (44, le 4 (d.file d.rootDir).start)] _ ?_
    simp only [Record.Avoids, List.forall_mem_cons, length_le, List.length_cons, List.length_nil,
      List.length_replicate]
    decide
  · refine Record.holds_of_last [(28, le 4 0), (36, le 4 d.fatSectors), (32, le 4 d.sectors),
      (40, le 2 0), (42, le 2 0), (44, le 4 (d.file d.rootDir).start), (48, le 2 1)] _ ?_
    simp only [Record.Avoids, List.forall_mem_cons, List.length_cons, List.length_nil,
      List.length_replicate]
    decide

end Boot

/-! ## The entries of a mounted drive -/

section Entries

variable {d : VdfDrive} {rs : List FileRange}

/-- The directories of the drive. -/
def driveBelow (d : VdfDrive) (depth : Nat) : List FileId :=
  Forest.descend (fun f => (d.file f).entries) depth d.rootDir

variable (h : Mounted d rs)
include h

theorem Mounted.mem_driveBelow {rank : FileId → Nat} (hrank : ∀ x p, d.Child x p → rank x < rank p)
    {depth : Nat} (hdepth : rank d.rootDir ≤ depth) {f : FileId} :
    f ∈ driveBelow d depth ↔ d.Below f d.rootDir ∧ f ≠ d.rootDir := by
  have hchild : (fun x p => x ∈ (d.file p).entries) = d.Child := by
    funext x p
    exact propext (h.tree.mem_entries x p)
  rw [driveBelow, Forest.mem_descend (fun x p hx => hrank x p ((h.tree.mem_entries x p).mp hx))
    hdepth, hchild]
  constructor
  · intro hf
    refine ⟨hf.to_reflTransGen, ?_⟩
    rintro rfl
    obtain ⟨p, hc, -⟩ := Relation.TransGen.head'_iff.mp hf
    cases h.tree.root_parent.symm.trans hc
  · rintro ⟨hb, hne⟩
    rcases Relation.reflTransGen_iff_eq_or_transGen.mp hb with e | hf
    · exact absurd e.symm hne
    · exact hf

theorem Mounted.nodup_driveBelow (depth : Nat) : (driveBelow d depth).Nodup := by
  obtain ⟨rank, hrank⟩ := h.tree.acyclic
  refine Forest.nodup_descend (fun x p hx => hrank x p ((h.tree.mem_entries x p).mp hx))
    (fun x p q hp hq => ?_) h.tree.nodup_entries
  exact Option.some.inj (((h.tree.mem_entries x p).mp hp).symm.trans
    ((h.tree.mem_entries x q).mp hq))

/-- A file below the root with a size has a range, and its entry names its first cluster. -/
theorem Mounted.range_of_below {f : FileId} (hb : d.Below f d.rootDir) (hne : f ≠ d.rootDir)
    (hsize : (d.file f).size ≠ 0) :
    ∃ r ∈ rs, r.file = f ∧ (entryOf d (d.file f)).cluster = r.fatstart := by
  obtain ⟨p, hc, hp⟩ := (Relation.ReflTransGen.cases_head hb).resolve_left hne
  obtain ⟨-, -, hall, hpar⟩ := h.tree.entry hp ((h.tree.mem_entries f p).mpr hc)
  obtain ⟨r, hr, rfl⟩ := h.laid f hall hsize
  exact ⟨r, hr, rfl, h.entryCluster hr hpar⟩

/-- The files with a size, as the checker comes to them. -/
def namedFiles (d : VdfDrive) (depth : Nat) : List FileId :=
  (if d.filesys = .fat32 then [d.rootDir] else []) ++
    (driveBelow d depth).filter fun f => (d.file f).size != 0

/-- A directory below the root has a size, so the checker follows the entries with one. -/
theorem Mounted.named_iff {f : FileId} (hb : d.Below f d.rootDir) (hne : f ≠ d.rootDir) :
    ((entryOf d (d.file f)).isDir || (entryOf d (d.file f)).size != 0) =
      ((d.file f).size != 0) := by
  have hf := (h.tree.mem_allFiles f).mpr ⟨hb, fun e => absurd e hne⟩
  show (hasFlag (d.file f).attr vfaDir ||
    (if hasFlag (d.file f).attr vfaDir then 0 else (d.file f).size) != 0) = _
  cases hdir : hasFlag (d.file f).attr vfaDir with
  | false => rfl
  | true =>
    have hisDir : (d.file f).isDir = true := by rw [VdfFile.isDir, h.live f hf, hdir]; rfl
    have hsize := h.dirSize f hf hisDir
    simpa using hsize

section Ranked

variable {rank : FileId → Nat} (hrank : ∀ x p, d.Child x p → rank x < rank p) {depth : Nat}
  (hdepth : rank d.rootDir ≤ depth)
include hrank hdepth

/-- The entries name the first clusters of these files. -/
theorem Mounted.heads_eq : FatVolume.headsAt (driveRoot d)
    ((driveBelow d depth).map fun f => entryOf d (d.file f)) =
      (namedFiles d depth).map fun f => (d.file f).start := by
  have hbelow {f : FileId} (hf : f ∈ driveBelow d depth) :=
    (h.mem_driveBelow hrank hdepth).mp hf
  have hheads : FatVolume.heads ((driveBelow d depth).map fun f => entryOf d (d.file f)) =
      ((driveBelow d depth).filter fun f => (d.file f).size != 0).map
        fun f => (d.file f).start := by
    have hfilter := List.filter_congr fun f hf => h.named_iff (hbelow hf).1 (hbelow hf).2
    rw [FatVolume.heads, List.filter_map, List.map_map]
    refine (congrArg (List.map _) hfilter).trans ?_
    refine List.map_congr_left fun f hf => ?_
    obtain ⟨hf, hsize⟩ := List.mem_filter.mp hf
    obtain ⟨hb, hne⟩ := hbelow hf
    obtain ⟨r, hr, rfl, hcluster⟩ := h.range_of_below hb hne (by simpa using hsize)
    exact hcluster.trans (h.file r hr).2.2.1.symm
  rw [namedFiles, List.map_append, ← hheads, driveRoot]
  split <;> rfl

theorem Mounted.nodup_namedFiles : (namedFiles d depth).Nodup := by
  have hn := (h.nodup_driveBelow depth).filter fun f => (d.file f).size != 0
  unfold namedFiles
  split
  · refine List.nodup_cons.mpr ⟨fun hroot => ?_, hn⟩
    exact ((h.mem_driveBelow hrank hdepth).mp (List.mem_filter.mp hroot).1).2 rfl
  · exact hn

theorem Mounted.mem_namedFiles {f : FileId} :
    f ∈ namedFiles d depth ↔ f ∈ d.allFiles ∧ (d.file f).size ≠ 0 := by
  have hall (f : FileId) := h.tree.mem_allFiles f
  rw [hall, namedFiles]
  by_cases h32 : d.filesys = .fat32
  · have hroot := h.dirSize d.rootDir ((hall _).mpr ⟨.refl _, fun _ => h32⟩) h.tree.root_isDir
    rw [if_pos h32, List.singleton_append, List.mem_cons, List.mem_filter,
      h.mem_driveBelow hrank hdepth, bne_iff_ne]
    constructor
    · rintro (rfl | ⟨⟨hb, -⟩, hsize⟩)
      · exact ⟨⟨.refl _, fun _ => h32⟩, hroot⟩
      · exact ⟨⟨hb, fun _ => h32⟩, hsize⟩
    · rintro ⟨⟨hb, -⟩, hsize⟩
      by_cases hf : f = d.rootDir
      · exact .inl hf
      · exact .inr ⟨⟨hb, hf⟩, hsize⟩
  · rw [if_neg h32, List.nil_append, List.mem_filter, h.mem_driveBelow hrank hdepth, bne_iff_ne]
    constructor
    · rintro ⟨⟨hb, hf⟩, hsize⟩
      exact ⟨⟨hb, fun e => absurd e hf⟩, hsize⟩
    · rintro ⟨⟨hb, hf⟩, hsize⟩
      exact ⟨⟨hb, fun e => h32 (hf e)⟩, hsize⟩

/-- The first clusters that the entries name are those of the ranges. -/
theorem Mounted.heads_perm : (FatVolume.headsAt (driveRoot d)
    ((driveBelow d depth).map fun f => entryOf d (d.file f))).Perm (rs.map FileRange.fatstart) := by
  have hstart : rs.map FileRange.fatstart =
      (rs.map FileRange.file).map fun f => (d.file f).start := by
    rw [List.map_map]
    exact List.map_congr_left fun r hr => (h.file r hr).2.2.1.symm
  have hranges : (rs.map FileRange.file).Nodup := by
    have hsorted : (rs.map FileRange.fatstart).Pairwise fun a b => a < b :=
      List.pairwise_map.mpr (h.chain.pairwise.imp_of_mem fun {r _} hr _ hle =>
        Nat.lt_of_lt_of_le (h.nonempty r hr) hle)
    have hn : (rs.map FileRange.fatstart).Nodup := hsorted.imp Nat.ne_of_lt
    rw [hstart] at hn
    exact hn.of_map
  rw [h.heads_eq hrank hdepth, hstart]
  refine List.Perm.map _ ((List.perm_ext_iff_of_nodup (h.nodup_namedFiles hrank hdepth)
    hranges).mpr fun f => ?_)
  rw [h.mem_namedFiles hrank hdepth]
  constructor
  · rintro ⟨hf, hsize⟩
    obtain ⟨r, hr, rfl⟩ := h.laid f hf hsize
    exact List.mem_map_of_mem hr
  · intro hf
    obtain ⟨r, hr, rfl⟩ := List.mem_map.mp hf
    exact ⟨(h.file r hr).1, (h.file r hr).2.1⟩

end Ranked

end Entries

/-! ## The image -/

section Volume

variable {d : VdfDrive} {rs : List FileRange} {content : FileId → List UInt8} {img : Buffer}

section Areas

variable (h : Mounted d rs) (himg : img.Shows 0 (d.allSectors * d.bps) (driveImage d content))
include h himg

/-- A reserved sector. -/
theorem Mounted.reserved_shows {k : Nat} (hk : k < d.fat1Start) :
    img.Shows ((d.mbrSectors + k) * d.bps) d.bps (reservedRecord d k).byte := by
  have hknown := h.known
  have hbps := sectorSizes_le hknown.bps
  have hfit := h.dataStart_le
  have h2 := hknown.fat2
  have h3 := hknown.rootStart
  have h4 := hknown.dataStart
  have hfront : ∀ b ∈ mbrAreas d, b.hi ≤ d.mbrSectors := by
    simp only [mbrAreas, List.forall_mem_cons]
    exact ⟨Nat.min_le_right .., Nat.le_refl _, List.forall_mem_nil _⟩
  have hshown : img.Shows (d.mbrSectors * d.bps) (d.fat1Start * d.bps) _ :=
    area_shows (mbrAreas d) _ _ himg rfl hfront (Nat.le_refl _) (d.part_le (by omega))
  have hin : k * d.bps + d.bps ≤ d.fat1Start * d.bps := by
    rw [← Nat.succ_mul]
    exact Nat.mul_le_mul_right _ hk
  rw [Nat.add_mul]
  refine (hshown.slice hin).congr fun j hj => ?_
  obtain ⟨hdiv, hmod⟩ := sector_byte k (by omega : 0 < d.bps) j
  dsimp only
  rw [hdiv, hmod, Nat.div_eq_of_lt hj, Nat.mod_eq_of_lt hj, Nat.add_zero]

/-- The second FAT. -/
theorem Mounted.copy_shows : img.Shows ((d.mbrSectors + d.fat2Start) * d.bps)
    (d.fatSectors * d.bps) fun j => some (fatByte d j) := by
  have hk := h.known
  have hend := fatEnd_eq hk
  have hfit := h.dataStart_le
  have h2 := hk.fat2
  have h3 := hk.rootStart
  have h4 := hk.dataStart
  refine area_shows (mbrAreas d ++ [⟨d.mbrSectors + d.fat1Start, _⟩,
    ⟨d.mbrSectors + d.fat2Start, _⟩]) ⟨d.mbrSectors + fatEnd d, _⟩ _
    (by rw [List.append_assoc]; exact himg) (by simp) ?_ (by dsimp only; omega) ?_
  · simp only [mbrAreas, List.forall_mem_append, List.forall_mem_cons]
    exact ⟨⟨by omega, Nat.le_add_right .., List.forall_mem_nil _⟩, by omega, Nat.le_refl _,
      List.forall_mem_nil _⟩
  · rw [Nat.add_assoc]
    exact d.part_le (by omega)

end Areas

variable (h : Checkable d rs) (himg : img.Shows 0 (d.allSectors * d.bps) (driveImage d content))
include h himg

/-- The entries of the first FAT. -/
theorem Checkable.entry_eq {c : Nat} (hc : c < d.clusters + 2) :
    (driveVolume d).kind.entry img (driveVolume d).table c =
      driveTable d c % 2 ^ d.filesys.kind.bits := by
  obtain ⟨-, -, -, -, hwidth, hbyte⟩ := h.marks
  have hshown := (h.table_shows himg).congr fun j _ => congrArg some (hbyte j).symm
  refine d.filesys.kind.entry_shown hshown ?_
  rw [hwidth]
  exact Nat.le_trans (Nat.mul_le_mul_right _ hc) h.all

/-- The clusters behind the last range are the free ones. -/
theorem Checkable.entry_eq_zero {c : Nat} (h1 : 2 ≤ c) (h2 : c < d.clusters + 2) :
    (driveVolume d).kind.entry img (driveVolume d).table c = 0 ↔ d.dataClusterEnd ≤ c := by
  obtain ⟨eoc, htable, -⟩ := h.marks
  constructor
  · intro h0
    by_contra hlt
    obtain ⟨r, hr, h3, h4⟩ := h.chain.exists_mem h1 (Nat.lt_of_not_le hlt)
    exact (h.run himg hr).entry_ne_zero h3 (by omega) h0
  · intro hle
    rw [h.entry_eq himg h2, htable c h1, walkEntry_free h.chain h.nonempty hle, Nat.zero_mod]

/-- The marks in front of the table. -/
theorem Checkable.front : (driveVolume d).kind.entry img (driveVolume d).table 0 % 256 = 0xf8 ∧
    (driveVolume d).kind.eoc ≤ (driveVolume d).kind.entry img (driveVolume d).table 1 := by
  rw [h.entry_eq himg (by omega), h.entry_eq himg (by omega), driveVolume]
  cases hf : d.filesys with
  | unset => exact absurd hf h.known.filesys
  | fat12 =>
    simp only [driveTable, hf]
    exact ⟨(by decide : 0xff8 % 2 ^ 12 % 256 = 0xf8), (by decide : 0xff8 ≤ 0xfff % 2 ^ 12)⟩
  | fat16 =>
    simp only [driveTable, hf]
    exact ⟨(by decide : 0xfff8 % 2 ^ 16 % 256 = 0xf8), (by decide : 0xfff8 ≤ 0xffff % 2 ^ 16)⟩
  | fat32 =>
    simp only [driveTable, hf]
    exact ⟨(by decide : 0xffffff8 % 2 ^ 28 % 256 = 0xf8),
      (by decide : 0xffffff8 ≤ 0xfffffff % 2 ^ 28)⟩

/-- The clusters of a file are those that its size asks for. -/
theorem Checkable.size_eq {f : FileId} (hb : d.Below f d.rootDir) (hne : f ≠ d.rootDir)
    (hreg : (entryOf d (d.file f)).isDir = false) :
    ((driveVolume d).clustersOf img (entryOf d (d.file f)).cluster).length =
      ((entryOf d (d.file f)).size + ((driveVolume d).bpc - 1)) / (driveVolume d).bpc := by
  have hk := h.known
  have hbps := sectorSizes_le hk.bps
  have hbpc : (driveVolume d).bpc = d.bpc := by rw [hk.bpc, Nat.mul_comm]; rfl
  have hpos : 0 < d.bpc := by
    rw [hk.bpc]
    exact Nat.mul_pos (by omega) (clusterSectors_le hk.spc).1
  have hflag : hasFlag (d.file f).attr vfaDir = false := hreg
  have hsize : (entryOf d (d.file f)).size = (d.file f).size := by
    rw [entryOf, hflag]
    rfl
  rw [hsize, hbpc]
  by_cases h0 : (d.file f).size = 0
  · have hcluster : (entryOf d (d.file f)).cluster = 0 := by
      show entryCluster d (d.file f) = 0
      rw [entryCluster, if_pos (.inl h0)]
    have hnone : (driveVolume d).clustersOf img 0 = [] := by
      unfold FatVolume.clustersOf
      cases (driveVolume d).clusters with
      | zero => rfl
      | succ n => rw [FatVolume.chain, if_pos (.inl (by decide))]; rfl
    rw [hcluster, hnone, h0, Nat.zero_add, Nat.div_eq_of_lt (by omega)]
    rfl
  · obtain ⟨r, hr, rfl, hcluster⟩ := h.range_of_below hb hne h0
    obtain ⟨-, -, -, hmark, -, -⟩ := h.marks
    rw [hcluster, (h.run himg hr).clustersOf hmark, List.length_range']
    exact h.exact r hr (by rw [VdfFile.isDir, hflag, Bool.and_false])

/-- The chains are sound. -/
theorem Checkable.sound {rank : FileId → Nat} (hrank : ∀ x p, d.Child x p → rank x < rank p)
    {depth : Nat} (hdepth : rank d.rootDir ≤ depth) : (driveVolume d).Sound img (driveRoot d)
      ((driveBelow d depth).map fun f => entryOf d (d.file f)) := by
  obtain ⟨-, -, -, hmark, -, -⟩ := h.marks
  have hlow := h.chain.le
  refine FatVolume.sound_of_runs h.chain (fun r hr => h.run himg hr) hmark
    (h.heads_perm hrank hdepth) (fun c hle hlt => ?_) fun e he hreg => ?_
  · exact (h.entry_eq_zero himg (Nat.le_trans hlow hle) hlt).mpr hle
  · obtain ⟨f, hf, rfl⟩ := List.mem_map.mp he
    obtain ⟨hb, hne⟩ := (h.mem_driveBelow hrank hdepth).mp hf
    exact h.size_eq himg hb hne hreg

/-- The reserved sectors of FAT32 agree with the FAT and with each other. -/
theorem Checkable.reserved (h32 : d.filesys = .fat32) :
    CleanReserved img (d.mbrSectors * d.bps) (driveVolume d) d.bps := by
  obtain ⟨r, hr⟩ := bootRecord_isOk h.known.filesys
  have hstart := h.created.fat1Start_of_fat32 h32
  have hbps := sectorSizes_le h.known.bps
  have hboot := h.boot_shows himg hr
  have hw := (bootRecord_within hr).mono hbps.1
  have hself := hboot.store_self hw
  obtain ⟨h48, h50⟩ := bootRecord_places hr h32
  have hinfo := get16_store img (d.mbrSectors * d.bps) hw (by omega) h48
  have hcopy := get16_store img (d.mbrSectors * d.bps) hw (by omega) h50
  rw [hself] at hinfo hcopy
  have hlow := h.chain.le
  have hclusters := h.clusters
  have hlt := (h.known.fat32 h32).2
  -- The information sector.
  have hfree : img.get32 ((d.mbrSectors + 1) * d.bps + 488) = d.clusters - (d.dataClusterEnd - 2) ∧
      img.get32 ((d.mbrSectors + 1) * d.bps + 492) = d.dataClusterEnd := by
    have hshown := h.reserved_shows himg (by omega : 1 < d.fat1Start)
    rw [reservedRecord, if_pos ⟨h32, rfl⟩] at hshown
    have hwithin := (fsinfoRecord_within d).mono hbps.1
    have hself := hshown.store_self hwithin
    have hcount : (fsinfoRecord d).Holds 488 4 (subU32 d.clusters (subU32 d.dataClusterEnd 2)) := by
      refine Record.holds_of_last [(0, le 4 0x41615252), (4, List.replicate 480 0),
        (484, le 4 0x61417272)] _ ?_
      simp only [Record.Avoids, List.forall_mem_cons, length_le, List.length_replicate]
      decide
    have hnext : (fsinfoRecord d).Holds 492 4 d.dataClusterEnd := by
      refine Record.holds_of_last [(0, le 4 0x41615252), (4, List.replicate 480 0),
        (484, le 4 0x61417272), (488, le 4 (subU32 d.clusters (subU32 d.dataClusterEnd 2)))] _ ?_
      simp only [Record.Avoids, List.forall_mem_cons, length_le, List.length_replicate]
      decide
    have hget := get32_store img ((d.mbrSectors + 1) * d.bps) hwithin (by omega) hcount
    have hget' := get32_store img ((d.mbrSectors + 1) * d.bps) hwithin (by omega) hnext
    rw [hself] at hget hget'
    rw [hget, hget', subU32_of_le (by omega) hlow, subU32_of_le (by omega) (by omega),
      Nat.mod_eq_of_lt (by omega), Nat.mod_eq_of_lt (by omega)]
    exact ⟨rfl, rfl⟩
  rw [Nat.add_mul] at hfree
  refine ⟨?_, fun c h1 h2 => ?_, ?_⟩
  · rw [hinfo, hfree.1]
    exact (FatVolume.length_free hlow hclusters fun c h1 h2 => h.entry_eq_zero himg h1 h2).symm
  · rw [hinfo, hfree.2]
    exact h.entry_eq_zero himg h1 h2
  · -- The copy.
    have hshown := h.reserved_shows himg (by omega : 6 < d.fat1Start)
    have hsixth : reservedRecord d 6 = r := by
      unfold reservedRecord
      rw [if_neg (by simp), if_neg (by simp [h32]), hr]
      rfl
    rw [hsixth, Nat.add_mul] at hshown
    rw [hcopy]
    exact (hboot.take hbps.1).slice_eq (hshown.take hbps.1)
      fun j hj => Option.ne_none_iff_exists'.mp
        ((bootRecord_covers_iff h.known hr).mpr (.of_fat32 h32 h.label) j hj)

/-- The checks pass. -/
theorem Checkable.clean : ∃ levels, ∀ depth, levels ≤ depth → ∃ es,
    mountListing img (d.mbrSectors * d.bps) depth = some es ∧
      Clean img (d.mbrSectors * d.bps) es := by
  obtain ⟨rank, hrank⟩ := h.tree.acyclic
  obtain ⟨hvolume, hroot⟩ := h.volume himg
  obtain ⟨hdesc, -⟩ := h.describes himg
  refine ⟨rank d.rootDir + 1, fun depth hdepth =>
    ⟨(driveBelow d depth).map fun f => entryOf d (d.file f), ?_, ?_⟩⟩
  · rw [mountListing, hvolume, hroot]
    refine FatVolume.listing_descend (P := fun dir => d.Below dir d.rootDir) (fun _ => rfl)
      (fun f hf => ?_) (fun dir _ f hf => hrank f dir ((h.tree.mem_entries f dir).mp hf))
      (fun dir hdir f hf hd => h.hasEntry himg hdir hf hd) depth (.refl _) (h.hasRoot himg) hdepth
    -- A file that is no directory has no entries.
    refine List.eq_nil_iff_forall_not_mem.mpr fun x hx => ?_
    have hdir := h.tree.isDir x f ((h.tree.mem_entries x f).mp hx)
    have hf : hasFlag (d.file f).attr vfaDir = false := hf
    rw [VdfFile.isDir, hf, Bool.and_false] at hdir
    cases hdir
  · obtain ⟨r, hr⟩ := bootRecord_isOk h.known.filesys
    obtain ⟨hmedia, hmark⟩ := h.front himg
    have hbps := sectorSizes_le h.known.bps
    refine ⟨?_, ?_, ?_, ?_, fun h32 => ?_⟩
    · rw [hvolume, hroot]
      exact h.sound himg hrank (by omega)
    · rw [hvolume, hmedia, h.boot_shows himg hr 21 (by omega) _ (bootRecord_media hr)]
      rfl
    · rw [hvolume]
      exact hmark
    · rw [hvolume, hdesc.fatSectors, hdesc.bps]
      have hcopy := h.copy_shows himg
      rw [h.known.fat2, ← Nat.add_assoc, Nat.add_mul] at hcopy
      exact (h.table_shows himg).slice_eq hcopy fun j _ => ⟨_, rfl⟩
    · rw [hvolume, hdesc.bps]
      exact h.reserved himg (hdesc.filesys.symm.trans h32)

end Volume

/-! ## The result -/

/-- The drives on which the checks pass when they are recalculated: they can be mounted, the
FAT has an entry for each cluster, the files have the clusters that their sizes ask for, and the
label fills its field. -/
structure CheckFits (d : VdfDrive) : Prop extends MountFits d where
  all : d.toGeometry.FatHolds
  exact : ∀ f ∈ d.allFiles, (d.file f).isDir = false →
    (d.file f).clusters = ((d.file f).size + (d.bpc - 1)) / d.bpc
  label : ∀ l ∈ d.label, 11 ≤ (labelBytes l).length

/-- A recalculated drive that fits can be checked. -/
theorem CheckFits.checkable {d : VdfDrive} (hg : d.toGeometry.Created) (hf : d.filesys ≠ .unset)
    (ht : d.IsTree) (hr : d.InRange) (hfits : CheckFits d) (hcnt : d.allFiles.length ≤ d.fileCnt)
    {rs : List FileRange} (hq : Qsort.Result cmpFilerange (unsortedRanges d) rs)
    (hcan : CanRecalc d) : Checkable (recalcDrive d rs) rs := by
  obtain ⟨-, qsort, fuel, -, hrun⟩ := (recalc_iff ht hr.dataStart).mpr ⟨hcan, rs, hq, rfl⟩
  have hrel : Relaid d (recalcDrive d rs) := vdfDriveRecalc_relaid hrun
  refine
    { toMounted := hfits.toMountFits.mounted hg hf ht hr hcnt hq hcan, all := hfits.all
      exact := fun r hm hreg => ?_, label := by rw [hrel.label]; exact hfits.label }
  obtain ⟨f, hfm, rfl⟩ := (hfits.liveChain ht hr (clusterSectors_le (hg.known hf).spc).1
    hfits.nonempty hq).2.2.2 r hm
  obtain ⟨-, -, h1, h2⟩ := hfits.toSumsFit.range_eq ht hr hfm
  have hall := (mem_laidFiles.mp hfm).1
  rw [hrel.isDir] at hreg
  have hroot : f ≠ d.rootDir := by
    rintro rfl
    cases ht.root_isDir.symm.trans hreg
  obtain ⟨hsize, hclusters⟩ := hrel.size f hreg hroot
  have hnumbered : ((recalcDrive d rs).file f).clusters = (numbered d f).clusters := by
    rw [show (recalcDrive d rs).file f = recalcFile d f from rfl, recalcFile_mem hall,
      (laidOut_static _ _ _).2.1]
  show _ = (((recalcDrive d rs).file f).size + (d.bpc - 1)) / d.bpc
  rw [h1, h2, Nat.add_sub_add_left, Nat.add_sub_cancel_left, ← hnumbered, hclusters, hsize]
  exact hfits.exact f hall hreg

/-- So can be whatever a recalculation of it gives. -/
theorem CheckFits.recalculated {d d' : VdfDrive} (hg : d.toGeometry.Created)
    (hf : d.filesys ≠ .unset) (ht : d.IsTree) (hr : d.InRange) (hfits : CheckFits d)
    (hcnt : d.allFiles.length ≤ d.fileCnt) (h : Recalc d d') : ∃ rs, Checkable d' rs := by
  obtain ⟨hcan, rs, hq, rfl⟩ := (recalc_iff ht hr.dataStart).mp h
  exact ⟨rs, hfits.checkable hg hf ht hr hcnt hq hcan⟩

/-- The checks pass on an image that was read from a recalculated drive: no chain is broken
or shared, no cluster is lost, every size fits its chain, the FATs agree, and so do the sectors that
FAT32 keeps in front of them. -/
theorem vdf_drive_checks (d d' : VdfDrive) (hg : d.toGeometry.Created) (hf : d.filesys ≠ .unset)
    (ht : d.IsTree) (hr : d.InRange) (hcnt : d.allFiles.length ≤ d.fileCnt) (hfits : CheckFits d)
    (h : Recalc d d') {env : Readers} {content : FileId → List UInt8} (hE : env.Steady content)
    (img : Buffer) (himg : ReadsOff env d' img) :
    ∃ levels, ∀ depth, levels ≤ depth → ∃ es,
      mountListing img (d'.mbrSectors * d'.bps) depth = some es ∧
        Clean img (d'.mbrSectors * d'.bps) es := by
  obtain ⟨rs, hcheck⟩ := hfits.recalculated hg hf ht hr hcnt h
  exact hcheck.clean (hcheck.readsOff_shows hE himg)

/-- A FAT32 drive with a file of two clusters and an empty directory. -/
def driveTree32 : VdfDrive :=
  flatDrive geometry32 none
    [{ name := [0x46], shortname := [0x46], size := 5000, clusters := 2, virt := true
       date := 1000000001 },
      { name := [0x44], shortname := [0x44], attr := vfaDir, virt := true, date := 1000000001 }]

theorem driveTree32_below {f : FileId} (hb : driveTree32.Below f driveTree32.rootDir) :
    f = 0 ∨ f ∈ List.range' 1 2 := by
  rcases Relation.ReflTransGen.cases_head hb with rfl | ⟨p, hc, -⟩
  · exact .inl rfl
  · exact .inr (flatDrive_child.mp hc).2

theorem driveTree32_fits : CheckFits driveTree32 where
  sectors := by decide
  clusters := by decide
  span := by decide
  empties := by decide
  dirs := by decide
  nonempty := by decide
  size := by decide
  slots dir hb hd := by
    rcases driveTree32_below hb with rfl | hm
    · exact ⟨by decide, by decide⟩
    · rcases List.mem_cons.mp hm with rfl | hm
      · cases hd
      · obtain rfl := List.mem_singleton.mp hm
        exact ⟨by decide, by decide⟩
  halves h12 := by cases h12
  room h12 := by cases h12
  boot := { filesys := by decide, spc := by decide, sectors := by decide, rootDir := by decide
            room := by decide, root := by decide }
  holds := by decide
  rootRoom h32 := absurd rfl h32
  live := by decide
  attr f hb := by
    rcases driveTree32_below hb with rfl | hm
    · rfl
    · exact (by decide : ∀ f ∈ List.range' 1 2,
        hasFlag (driveTree32.file f).attr vfaVollabel = false) f hm
  names f hb hne := by
    rcases driveTree32_below hb with rfl | hm
    · exact absurd rfl hne
    · obtain ⟨h1, h2, h3, h4⟩ := (by decide +kernel : ∀ f ∈ List.range' 1 2,
        (shortnameField (driveTree32.file f).shortname).head? ≠ some 0xe5 ∧
          DosName (driveTree32.file f).shortname ∧ 0 ∉ (driveTree32.file f).shortname ∧
          InStampRange (driveTree32.file f).date) f hm
      refine ⟨h1, h2, h3, h4, fun hlong => ?_⟩
      rw [hasLongSlots, (by decide : hasFlag driveTree32.flags vdfVfat = false),
        Bool.false_and] at hlong
      cases hlong
  all := by unfold Geometry.FatHolds; decide
  exact := by decide
  label := by decide

/-- The FAT32 drive is clean. -/
theorem vdf_drive_checks_fat32 : ∃ d' img depth es, Recalc driveTree32 d' ∧
    mountListing img (d'.mbrSectors * d'.bps) depth = some es ∧
      Clean img (d'.mbrSectors * d'.bps) es := by
  have hE := contentReaders_steady fun _ => [0x48, 0x69]
  have hcan : CanRecalc driveTree32 := ⟨rfl, rfl, rfl, by decide⟩
  have ht : driveTree32.IsTree := flatDrive_isTree _ _ _
  have hr : driveTree32.InRange := flatDrive_inRange (by decide) (by decide) (by decide)
  obtain ⟨rs, hq⟩ := Qsort.exists_result cmpFilerange (unsortedRanges driveTree32)
  have h := (recalc_iff ht hr.dataStart).mpr ⟨hcan, rs, hq, rfl⟩
  have hlen : rs.length = 3 := hq.perm.length_eq.trans (by decide)
  have hfat (sector scnt : Nat) : FatStays (recalcDrive driveTree32 rs) rs sector scnt :=
    .inr (.inl hlen.symm)
  have hmounted := driveTree32_fits.mounted geometry32_created (by decide) ht hr (by decide) hq hcan
  obtain ⟨img, himg⟩ := hmounted.exists_readsOff hE (show 2097152 ≤ 2 ^ 32 by decide)
    fun s => ⟨fun _ => hfat _ _, fun _ => hfat _ _⟩
  obtain ⟨levels, hclean⟩ := vdf_drive_checks driveTree32 _ geometry32_created (by decide) ht hr
    (by decide) driveTree32_fits h hE img himg
  obtain ⟨es, hes⟩ := hclean levels (Nat.le_refl _)
  exact ⟨_, img, levels, es, h, hes⟩

end Vdf
