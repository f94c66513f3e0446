import Vdf.Boot
import Vdf.FatCapacity
import Vdf.Partition

/-!
# Parsing the boot sector

`Bpb` is the parameter block as a FAT driver takes it from the first sector, with the standard
formulas on top. The fields are narrower than those of the drive: a driver finds the drive's
geometry iff each value survives and the drive's own computation did not wrap (`BootFits`).
-/

namespace Vdf

open Word Buffer

/-! ## The parameter block -/

/-- The parameter block of a boot sector. A count of sectors that does not fit 16 bits is in a field
of 32 bits, and the field of 16 bits is 0. -/
structure Bpb where
  bps : Nat
  spc : Nat
  reserved : Nat
  rootEntries : Nat
  sectors : Nat
  fatSectors : Nat
  rootCluster : Nat

/-- The parameter block at `p`. -/
def readBpb (m : Buffer) (p : Nat) : Bpb :=
  { bps := m.get16 (p + 11), spc := (m (p + 13)).toNat, reserved := m.get16 (p + 14)
    rootEntries := m.get16 (p + 17)
    sectors := if m.get16 (p + 19) ≠ 0 then m.get16 (p + 19) else m.get32 (p + 32)
    fatSectors := if m.get16 (p + 22) ≠ 0 then m.get16 (p + 22) else m.get32 (p + 36)
    rootCluster := m.get32 (p + 44) }

namespace Bpb

variable (b : Bpb)

def rootSectors : Nat := (b.rootEntries * 32 + (b.bps - 1)) / b.bps

def rootStart : Nat := b.reserved + 2 * b.fatSectors

def dataStart : Nat := b.rootStart + b.rootSectors

def clusters : Nat := (b.sectors - b.dataStart) / b.spc

/-- The file system, from the number of clusters. -/
def filesys : Filesys :=
  if b.clusters < 4085 then .fat12 else if b.clusters < 65525 then .fat16 else .fat32

/-- The parameter block describes the drive. -/
structure Describes (d : VdfDrive) : Prop where
  bps : b.bps = d.bps
  spc : b.spc = d.spc
  sectors : b.sectors = d.sectors
  fat1Start : b.reserved = d.fat1Start
  fatSectors : b.fatSectors = d.fatSectors
  rootStart : b.rootStart = d.rootStart
  dataStart : b.dataStart = d.dataStart
  clusters : b.clusters = d.clusters
  filesys : b.filesys = d.filesys
  rootCluster : d.filesys = .fat32 →
    b.rootCluster = (d.file d.rootDir).start ∧ 2 ≤ b.rootCluster

end Bpb

/-- The boot sector describes the drive. -/
def BootServed (d : VdfDrive) : Prop :=
  ∀ m p, ∃ m', readSectorBoot d 0 1 m p = .ok m' ∧ (readBpb m' p).Describes d

/-- The drives whose boot sector describes them: the file system is known, `spc` fits its byte,
FAT12 has a 16-bit sector count, the low 16 bits of `root_dir_cnt` ask for the sectors of the root
directory, FAT32 has room for its least number of clusters, and the root of FAT32 has clusters. -/
structure BootFits (d : VdfDrive) : Prop where
  filesys : d.filesys ≠ .unset
  spc : d.spc < 256
  sectors : d.filesys = .fat12 → d.sectors < 65536
  rootDir : d.filesys ≠ .fat32 →
    (ofInt d.rootDirCnt % 65536 * 32 + (d.bps - 1)) / d.bps =
      rootDirSectors (hasFlag d.flags vdfAlignCluster) d.bps d.spc d.rootDirCnt
  room : d.filesys = .fat32 → 65525 * d.spc ≤ d.sectors
  root : d.filesys = .fat32 → dirSize (dirSlots d d.rootDir) ≠ 0 ∧
    2 ≤ u32 (2 + usedBefore (numbered d) d.allFiles d.rootDir)

/-! ## The geometry of FAT12 and FAT16 -/

theorem Geometry.Created.rootSectors {g : Geometry} (h : g.Created) (hf : g.filesys ≠ .unset)
    (h32 : g.filesys ≠ .fat32) :
    g.rootSectors = rootDirSectors (hasFlag g.flags vdfAlignCluster) g.bps g.spc g.rootDirCnt := by
  obtain ⟨size, flags, ext, junk, h⟩ := h
  obtain ⟨p, -, -, hp, e⟩ := createdriveGeometry_cases h
  have hflags : g.flags = flags := congrArg Geometry.flags e
  have hroot : g.rootSectors = p.rootSectors := congrArg Geometry.rootSectors e
  have hpe := planDrive_eq hp
  rw [hroot, hflags, hpe]
  cases hfs : g.filesys with
  | unset => exact absurd hfs hf
  | fat12 => rfl
  | fat16 => rfl
  | fat32 => exact absurd hfs h32

/-- The FAT of one case has between 1 and 65535 sectors when the final cluster count has 16
bits. -/
theorem planFat_fatSectors {g : Geometry} (k : g.Known) (hfit : g.dataStart ≤ g.sectors)
    (hcl : g.clusters ≤ 65524) {align : Bool} {f1 root : Nat} {fatBytes : Nat → Nat} {p : Plan}
    (hp : p = planFat align g.bps g.spc g.sectors f1 root fatBytes) (hf1 : f1 ≤ 1024)
    (hroot : root < 2 ^ 24) (hfat : g.fatSectors = p.fatSectors) (hds : g.dataStart = p.dataStart)
    (hc : g.clusters = p.clusters)
    (hbytes : ∀ c < 2 ^ 29, g.clusters ≤ c → 0 < fatBytes c ∧ fatBytes c ≤ 2 * c + 1) :
    0 < g.fatSectors ∧ g.fatSectors < 65536 := by
  obtain ⟨h1, h2, h3⟩ := planFat_estimate hp k.bps k.spc hf1 hroot k.sectors (hds ▸ hfit)
  obtain ⟨hs1, hs2⟩ := clusterSectors_le k.spc
  rw [← hfat] at h1 h2 h3
  rw [← hc] at h2
  generalize g.sectors - (f1 + root) = area at h1 h2 h3
  have hlt := estimate_lt (by omega) k.fatSectors h2 (by omega)
  have hle : g.clusters ≤ area / g.spc := by
    rw [h2]; exact Nat.div_le_div_right (Nat.sub_le _ _)
  -- The estimate exceeds the final count by the clusters of two FATs at most.
  have hest : area / g.spc ≤ 65525 + 2 * g.fatSectors := by
    have h5 : area - 2 * g.fatSectors < (g.clusters + 1) * g.spc := by
      rw [h2]; exact Nat.lt_mul_of_div_lt (Nat.lt_succ_self _) (by omega)
    have h6 : (g.clusters + 1) * g.spc ≤ 65525 * g.spc := Nat.mul_le_mul_right _ (by omega)
    have h7 : 2 * g.fatSectors ≤ 2 * g.fatSectors * g.spc := Nat.le_mul_of_pos_right _ (by omega)
    rw [← Nat.lt_succ_iff, Nat.div_lt_iff_lt_mul (by omega), Nat.succ_mul, Nat.add_mul]
    omega
  obtain ⟨h8, h9⟩ := hbytes _ hlt hle
  generalize area / g.spc = c at *
  dsimp only at h3
  have hbps := sectorSizes_le k.bps
  rw [u32_of_lt (by omega)] at h3
  have he1 : 1 ≤ (fatBytes c + (g.bps - 1)) / g.bps := by
    rw [Nat.le_div_iff_mul_le (by omega)]
    omega
  have he2 := ceilDiv_mul_lt (n := fatBytes c) (a := g.bps) (by omega)
  generalize (fatBytes c + (g.bps - 1)) / g.bps = e at h3 he1 he2
  have he3 : e * 512 ≤ e * g.bps := Nat.mul_le_mul_left _ hbps.1
  have hup : e ≤ g.fatSectors ∧ g.fatSectors ≤ e + 511 := by
    rw [h3]
    split
    · obtain ⟨i, hi, hpow⟩ := clusterSectors_pow k.spc
      have hle := alignUp_le e g.spc
      rw [alignUp_eq hpow (by omega) (by omega)] at hle ⊢
      exact ⟨le_ceilDiv_mul (by omega), by omega⟩
    · omega
  omega

theorem Geometry.Created.fatSectors {g : Geometry} (h : g.Created) (hf : g.filesys ≠ .unset)
    (h32 : g.filesys ≠ .fat32) : 0 < g.fatSectors ∧ g.fatSectors < 65536 := by
  have k := h.known hf
  have hfit := k.fits_of_fat16 h32
  obtain ⟨size, flags, ext, junk, h⟩ := h
  obtain ⟨p, -, -, hp, e⟩ := createdriveGeometry_cases h
  have hpe := planDrive_eq hp
  have hfat : g.fatSectors = p.fatSectors := congrArg Geometry.fatSectors e
  have hds : g.dataStart = p.dataStart := congrArg Geometry.dataStart e
  have hcl : g.clusters = p.clusters := congrArg Geometry.clusters e
  have hroot := rootDirSectors_lt k.bps k.spc (hasFlag flags vdfAlignCluster) g.rootDirCnt
  have hspc := clusterSectors_le k.spc
  have hf1 : (if hasFlag flags vdfAlignCluster then g.spc else 1) ≤ 1024 := by split <;> omega
  cases hfs : g.filesys with
  | unset => exact absurd hfs hf
  | fat12 =>
    simp only [hfs, planSwitch, planFat12] at hpe
    refine planFat_fatSectors k hfit (by have := k.fat12 hfs; omega) hpe hf1 hroot hfat hds hcl ?_
    intro c hc _
    rw [u32_of_lt (by omega : c * 3 < 2 ^ 32), u32_of_lt (by omega)]
    omega
  | fat16 =>
    simp only [hfs, planSwitch, planFat16] at hpe
    have hc16 := k.fat16 hfs
    refine planFat_fatSectors k hfit hc16.2 hpe hf1 hroot hfat hds hcl ?_
    intro c hc hle
    rw [u32_of_lt (by omega)]
    omega
  | fat32 => exact absurd hfs h32

/-- A FAT has a sector, whether or not the cluster count wrapped. -/
theorem Geometry.Created.fatSectors_pos {g : Geometry} (h : g.Created) (hf : g.filesys ≠ .unset) :
    0 < g.fatSectors := by
  by_cases h32 : g.filesys = .fat32
  · have k := h.known hf
    have hcl := k.fat32 h32
    have hbps := sectorSizes_le k.bps
    have hspc := clusterSectors_le k.spc
    obtain ⟨i, hi, hpow⟩ := clusterSectors_pow k.spc
    obtain ⟨size, flags, ext, junk, h⟩ := h
    obtain ⟨p, -, -, hp, e⟩ := createdriveGeometry_cases h
    have hpe := planDrive_eq hp
    have hfat : g.fatSectors = p.fatSectors := congrArg Geometry.fatSectors e
    have hc : g.clusters = p.clusters := congrArg Geometry.clusters e
    simp only [h32, planSwitch, planFat32, planFat] at hpe
    refine Nat.pos_of_ne_zero fun h0 => ?_
    -- Without a FAT the first cluster count is the final one, and needs a FAT.
    have hfat0 : p.fatSectors = 0 := hfat.symm.trans h0
    rw [hpe] at hfat0 hc
    dsimp only at hfat0 hc
    rw [hfat0] at hc
    generalize (if hasFlag flags vdfAlignCluster = true then
      maskDown 32 (u32 (32 + g.spc)) g.spc else 32) = f1 at hfat0 hc
    rw [show u32 (0 * 2) = 0 from rfl, Nat.add_zero, Nat.add_zero, u32_of_lt (u32_lt f1)] at hc
    rw [Nat.add_zero, ← hc, u32_of_lt (by omega : g.clusters * 4 < 2 ^ 32),
      u32_of_lt (by omega : g.clusters * 4 + (g.bps - 1) < 2 ^ 32)] at hfat0
    have he : 1 ≤ (g.clusters * 4 + (g.bps - 1)) / g.bps := by
      rw [Nat.le_div_iff_mul_le (by omega)]
      omega
    have hle : (g.clusters * 4 + (g.bps - 1)) / g.bps < 2 ^ 30 := by
      rw [Nat.div_lt_iff_lt_mul (by omega)]
      omega
    split at hfat0
    · rw [alignUp_eq hpow (by omega) (by omega)] at hfat0
      have := le_ceilDiv_mul (n := (g.clusters * 4 + (g.bps - 1)) / g.bps) (a := g.spc) (by omega)
      omega
    · omega
  · exact (h.fatSectors hf h32).1

/-! ## The fields of the record -/

theorem stuffDosname_length (c : UInt8) : (stuffDosname c).length ≤ 1 := by
  unfold stuffDosname
  split
  · decide
  · split <;> simp

theorem labelBytes_length (label : List UInt8) : (labelBytes label).length ≤ 12 := by
  have h1 : ∀ s : List UInt8, (s.flatMap stuffDosname).length ≤ s.length := by
    intro s
    induction s with
    | nil => simp
    | cons c s ih =>
      have := stuffDosname_length c
      simp only [List.flatMap_cons, List.length_append, List.length_cons]
      omega
  have h2 := h1 ((label.takeWhile (· != 0)).take (11 + 1))
  have h3 : ((label.takeWhile (· != 0)).take (11 + 1)).length ≤ 12 := by simp
  simp only [labelBytes, List.length_append, List.length_replicate]
  omega

/-- A label of eleven characters and a twelfth reaches into the field behind it. -/
theorem bootCommonRecord_between (d : VdfDrive) (o : Nat) :
    (bootCommonRecord d o).Between o (o + 19) := by
  simp only [Record.Between, bootCommonRecord, List.forall_mem_cons, List.length_cons,
    List.length_nil, length_le]
  refine ⟨by omega, by omega, by omega, by omega, ⟨by omega, ?_⟩, nofun⟩
  cases d.label with
  | none => simp only [List.length_replicate]; omega
  | some label => have := labelBytes_length label; dsimp only; omega

theorem bootHeadRecord_between (d : VdfDrive) : (bootHeadRecord d).Between 0 28 := by
  simp only [Record.Between, bootHeadRecord, List.forall_mem_cons, List.length_cons,
    List.length_nil, length_le]
  decide

theorem bootUnionRecord_between {d : VdfDrive} {u : Record} (h : bootUnionRecord d = some u) :
    u.Between 28 510 := by
  unfold bootUnionRecord at h
  split at h
  · cases h
    simp only [Record.Between, List.forall_mem_cons, length_le, List.length_replicate]
    decide
  · cases h
    refine ((((Record.Between.append ?_ ?_).append ?_).append
      ((bootCommonRecord_between d 36).mono (by omega) (by omega))).append ?_)
    · simp [Record.Between]
    · split <;> simp [Record.Between]
    · simp [Record.Between]
    · simp only [Record.Between, List.forall_mem_cons, List.length_replicate]; decide
  · cases h
    refine ((Record.Between.append ?_
      ((bootCommonRecord_between d 64).mono (by omega) (by omega))).append ?_)
    · simp only [Record.Between, List.forall_mem_cons, length_le, List.length_cons,
        List.length_nil, List.length_replicate]
      decide
    · simp only [Record.Between, List.forall_mem_cons, List.length_replicate]; decide
  · cases h

/-- The boot sector of a known file system. -/
theorem bootRecord_eq {d : VdfDrive} {r : Record} (h : bootRecord d = .ok r) :
    ∃ u, bootUnionRecord d = some u ∧ r = bootHeadRecord d ++ u ++ [(510, [0xaa]), (511, [0x55])] := by
  unfold bootRecord at h
  split at h
  · rename_i u hu
    cases h
    exact ⟨u, hu, rfl⟩
  · cases h

theorem bootRecord_within {d : VdfDrive} {r : Record} (h : bootRecord d = .ok r) :
    r.Within 512 := by
  obtain ⟨u, hu, rfl⟩ := bootRecord_eq h
  have htail : Record.Between [(510, [0xaa]), (511, [0x55])] 0 512 := by
    intro w hw; revert w; decide
  exact ((((bootHeadRecord_between d).mono (by omega) (by omega)).append
    ((bootUnionRecord_between hu).mono (by omega) (by omega))).append htail).within (Nat.le_refl _)

/-- A value in front of the union. -/
theorem bootRecord_head {d : VdfDrive} {r : Record} (h : bootRecord d = .ok r) {o v : Nat}
    (ho : o + 2 ≤ 28) (hv : (bootHeadRecord d).Holds o 2 v) : r.Holds o 2 v := by
  obtain ⟨u, hu, rfl⟩ := bootRecord_eq h
  refine (hv.append ((bootUnionRecord_between hu).avoids (by omega))).append ?_
  intro w hw
  simp only [List.mem_cons, List.not_mem_nil, or_false] at hw
  rcases hw with rfl | rfl <;> simp only <;> omega

/-- A value in the union. -/
theorem bootRecord_union {d : VdfDrive} {r u : Record} (h : bootRecord d = .ok r)
    (hu : bootUnionRecord d = some u) {o v : Nat} (ho : o + 4 ≤ 510) (hv : u.Holds o 4 v) :
    r.Holds o 4 v := by
  obtain ⟨u', hu', rfl⟩ := bootRecord_eq h
  obtain rfl : u = u' := Option.some.inj (hu.symm.trans hu')
  refine (hv.prepend (bootHeadRecord d)).append ?_
  intro w hw
  simp only [List.mem_cons, List.not_mem_nil, or_false] at hw
  rcases hw with rfl | rfl <;> simp only <;> omega

/-- The values in front of the union. -/
theorem bootHeadRecord_holds (d : VdfDrive) :
    (bootHeadRecord d).Holds 11 2 d.bps ∧ (bootHeadRecord d).Holds 14 2 d.fat1Start ∧
      (bootHeadRecord d).Holds 17 2 (if d.filesys = .fat32 then 0 else ofInt d.rootDirCnt) ∧
      (bootHeadRecord d).Holds 19 2 (bootSectorCnt d) ∧
      (bootHeadRecord d).Holds 22 2 (if d.filesys = .fat32 then 0 else d.fatSectors) := by
  refine ⟨Record.holds_of_last (List.take 2 (bootHeadRecord d)) _ ?_,
    Record.holds_of_last (List.take 4 (bootHeadRecord d)) _ ?_,
    Record.holds_of_last (List.take 5 (bootHeadRecord d)) _ ?_,
    Record.holds_of_last (List.take 6 (bootHeadRecord d)) _ ?_,
    Record.holds_of_last (List.take 7 (bootHeadRecord d)) _ ?_⟩ <;>
  · simp only [Record.Avoids, List.forall_mem_cons, List.length_cons, List.length_nil, length_le]
    decide

/-- FAT12 has no 32-bit sector count: zeros of `bootstrap` are in its place. -/
theorem bootUnionRecord_fat12 {d : VdfDrive} (hf : d.filesys = .fat12) : ∃ u,
    bootUnionRecord d = some u ∧ u.Holds 32 4 0 := by
  refine ⟨_, by rw [bootUnionRecord, hf], fun k hk => ?_⟩
  have h30 : 30 ≤ 32 + k ∧ 32 + k < 30 + 480 := by omega
  rw [Record.byte_cons, Record.byte_cons, List.length_replicate, if_pos h30, leByte_zero,
    List.getD_replicate 0 (by omega)]
  rfl

theorem bootUnionRecord_fat16 {d : VdfDrive} (hf : d.filesys = .fat16) : ∃ u,
    bootUnionRecord d = some u ∧ (bootSectorCnt d = 0 → u.Holds 32 4 d.sectors) := by
  refine ⟨_, by rw [bootUnionRecord, hf], fun h0 => ?_⟩
  rw [if_pos h0]
  refine ((((Record.holds_of_last [(28, le 4 0)] d.sectors (s := []) nofun)).append ?_).append
    ((bootCommonRecord_between d 36).avoids (by omega))).append ?_
  · simp only [Record.Avoids, List.forall_mem_cons]; decide
  · simp only [Record.Avoids, List.forall_mem_cons, List.length_replicate]; decide

theorem bootUnionRecord_fat32 {d : VdfDrive} (hf : d.filesys = .fat32) : ∃ u,
    bootUnionRecord d = some u ∧ u.Holds 32 4 d.sectors ∧ u.Holds 36 4 d.fatSectors ∧
      u.Holds 44 4 (d.file d.rootDir).start := by
  have hlast : ∀ {r : Record} {o v : Nat}, r.Holds o 4 v → o + 4 ≤ 64 →
      Record.Holds (r ++ bootCommonRecord d 64 ++ [(90, List.replicate 420 0)]) o 4 v := by
    intro r o v hr ho
    refine (hr.append ((bootCommonRecord_between d 64).avoids (by omega))).append ?_
    simp only [Record.Avoids, List.forall_mem_cons, List.length_replicate]
    exact ⟨by omega, nofun⟩
  refine ⟨_, by rw [bootUnionRecord, hf], hlast ?_ (by omega), hlast ?_ (by omega),
    hlast ?_ (by omega)⟩
  · refine Record.holds_of_last [(28, le 4 0), (36, le 4 d.fatSectors)] d.sectors ?_
    simp only [Record.Avoids, List.forall_mem_cons, length_le, List.length_cons, List.length_nil,
      List.length_replicate]
    decide
  · refine Record.holds_of_last [(28, le 4 0)] d.fatSectors ?_
    simp only [Record.Avoids, List.forall_mem_cons, length_le, List.length_cons, List.length_nil,
      List.length_replicate]
    decide
  · refine Record.holds_of_last [(28, le 4 0), (36, le 4 d.fatSectors), (32, le 4 d.sectors),
      (40, le 2 0), (42, le 2 0)] _ ?_
    simp only [Record.Avoids, List.forall_mem_cons, length_le, List.length_cons, List.length_nil,
      List.length_replicate]
    decide

/-! ## The parameter block that is read back -/

theorem bootRecord_isOk {d : VdfDrive} (hf : d.filesys ≠ .unset) : ∃ r, bootRecord d = .ok r := by
  unfold bootRecord bootUnionRecord
  cases h : d.filesys with
  | unset => exact absurd h hf
  | fat12 => exact ⟨_, rfl⟩
  | fat16 => exact ⟨_, rfl⟩
  | fat32 => exact ⟨_, rfl⟩

section Read

variable {d : VdfDrive} {r : Record} (h : bootRecord d = .ok r) (m : Buffer) (p : Nat)
include h

/-- The parameter block, but for the fields of the union. -/
theorem readBpb_head :
    (readBpb (m.store p r) p).bps = d.bps % 65536 ∧
      (readBpb (m.store p r) p).spc = d.spc % 256 ∧
      (readBpb (m.store p r) p).reserved = d.fat1Start % 65536 ∧
      (readBpb (m.store p r) p).rootEntries =
        (if d.filesys = .fat32 then 0 else ofInt d.rootDirCnt) % 65536 ∧
      (m.store p r).get16 (p + 19) = bootSectorCnt d % 65536 ∧
      (m.store p r).get16 (p + 22) = (if d.filesys = .fat32 then 0 else d.fatSectors) % 65536 := by
  have hw := bootRecord_within h
  obtain ⟨h11, h14, h17, h19, h22⟩ := bootHeadRecord_holds d
  have hget : ∀ {o v : Nat}, o + 2 ≤ 28 → (bootHeadRecord d).Holds o 2 v →
      (m.store p r).get16 (p + o) = v % 65536 := fun ho hv =>
    get16_store m p hw (by omega) (bootRecord_head h ho hv)
  refine ⟨hget (by omega) h11, ?_, hget (by omega) h14, hget (by omega) h17, hget (by omega) h19,
    hget (by omega) h22⟩
  obtain ⟨u, hu, rfl⟩ := bootRecord_eq h
  show (m.store p _ (p + 13)).toNat = _
  have hb : Record.byte (bootHeadRecord d ++ u ++ [(510, [0xaa]), (511, [0x55])]) 13 =
      some (UInt8.ofNat d.spc) := by
    have hu0 := ((bootUnionRecord_between hu).avoids (o := 13) (w := 1) (by omega)).byte
      (k := 0) (by omega)
    rw [Record.byte_append, Record.byte_append, hu0]
    rfl
  rw [store_eq_overlay m p hw, overlay_inside _ _ (by omega), hb]
  simp

/-- The sector count is found unless FAT12 has no field for it. -/
theorem readBpb_sectors (hsec : d.sectors < 2 ^ 32) : (readBpb (m.store p r) p).sectors =
    if d.filesys = .fat12 ∧ 65536 ≤ d.sectors then 0 else d.sectors := by
  have h19 := (readBpb_head h m p).2.2.2.2.1
  have hw := bootRecord_within h
  have hcnt : bootSectorCnt d = 0 ∨ (bootSectorCnt d = d.sectors ∧ d.sectors < 65536) := by
    unfold bootSectorCnt
    split
    · exact .inl rfl
    · split
      · exact .inr ⟨rfl, by omega⟩
      · exact .inl rfl
  have hget : ∀ {u : Record} {v : Nat}, bootUnionRecord d = some u → u.Holds 32 4 v →
      (m.store p r).get32 (p + 32) = v % 2 ^ 32 := fun hu hv =>
    get32_store m p hw (by omega) (bootRecord_union h hu (by omega) hv)
  show (if _ ≠ 0 then _ else _) = _
  rw [h19]
  by_cases h0 : bootSectorCnt d = 0
  · rw [h0, if_neg (by decide)]
    cases hf : d.filesys with
    | unset => rw [bootRecord, bootUnionRecord, hf] at h; cases h
    | fat12 =>
      obtain ⟨u, hu, hv⟩ := bootUnionRecord_fat12 hf
      rw [hget hu hv, Nat.zero_mod]
      have hlarge : 65536 ≤ d.sectors ∨ d.sectors = 0 := by
        rw [bootSectorCnt, hf, if_neg nofun] at h0
        split at h0 <;> omega
      by_cases hl : 65536 ≤ d.sectors
      · rw [if_pos ⟨rfl, hl⟩]
      · rw [if_neg (fun hx => hl hx.2), hlarge.resolve_left hl]
    | fat16 =>
      obtain ⟨u, hu, hv⟩ := bootUnionRecord_fat16 hf
      rw [hget hu (hv h0), Nat.mod_eq_of_lt hsec, if_neg (fun hx => nomatch hx.1)]
    | fat32 =>
      obtain ⟨u, hu, hv, -⟩ := bootUnionRecord_fat32 hf
      rw [hget hu hv, Nat.mod_eq_of_lt hsec, if_neg (fun hx => nomatch hx.1)]
  · obtain ⟨he, hlt⟩ := hcnt.resolve_left h0
    rw [he, Nat.mod_eq_of_lt hlt, if_pos (by omega), if_neg (by omega)]

theorem readBpb_fatSectors (hlt : d.fatSectors < 2 ^ 32)
    (h16 : d.filesys ≠ .fat32 → 0 < d.fatSectors ∧ d.fatSectors < 65536) :
    (readBpb (m.store p r) p).fatSectors = d.fatSectors := by
  have h22 := (readBpb_head h m p).2.2.2.2.2
  show (if _ ≠ 0 then _ else _) = _
  rw [h22]
  by_cases hf : d.filesys = .fat32
  · obtain ⟨u, hu, -, hv, -⟩ := bootUnionRecord_fat32 hf
    rw [if_pos hf, if_neg (by decide), get32_store m p (bootRecord_within h) (by omega)
      (bootRecord_union h hu (by omega) hv), Nat.mod_eq_of_lt hlt]
  · obtain ⟨h0, h1⟩ := h16 hf
    rw [if_neg hf, Nat.mod_eq_of_lt h1, if_pos (by omega)]

theorem readBpb_rootCluster (hf : d.filesys = .fat32) :
    (readBpb (m.store p r) p).rootCluster = (d.file d.rootDir).start % 2 ^ 32 := by
  obtain ⟨u, hu, -, -, hv⟩ := bootUnionRecord_fat32 hf
  exact get32_store m p (bootRecord_within h) (by omega) (bootRecord_union h hu (by omega) hv)

/-- What a driver takes from the boot sector of a created drive. -/
theorem describes_iff (hg : d.toGeometry.Created) (hf : d.filesys ≠ .unset) :
    (readBpb (m.store p r) p).Describes d ↔ d.spc < 256 ∧
      (d.filesys = .fat12 → d.sectors < 65536) ∧
      (d.filesys ≠ .fat32 → (ofInt d.rootDirCnt % 65536 * 32 + (d.bps - 1)) / d.bps =
        rootDirSectors (hasFlag d.flags vdfAlignCluster) d.bps d.spc d.rootDirCnt) ∧
      (d.filesys = .fat32 → d.dataStart ≤ d.sectors) ∧
      (d.filesys = .fat32 → 2 ≤ (d.file d.rootDir).start ∧ (d.file d.rootDir).start < 2 ^ 32) := by
  have k := hg.known hf
  have hbps := sectorSizes_le k.bps
  have hspc := clusterSectors_le k.spc
  obtain ⟨e1, e2, e3, e4, -⟩ := readBpb_head h m p
  have e5 := readBpb_sectors h m p k.sectors
  have e6 := readBpb_fatSectors h m p (Nat.lt_trans k.fatSectors (by decide)) (hg.fatSectors hf)
  have e7 := readBpb_rootCluster h m p
  have hroot := hg.rootSectors hf
  have hstart := k.rootStart
  have hfat2 := k.fat2
  have hdata := k.dataStart
  have hf1 := k.fat1_le
  have hcl := k.clusters
  rw [Nat.mod_eq_of_lt (by omega)] at e1 e3
  generalize readBpb (m.store p r) p = b at *
  have hrs : b.rootStart = d.rootStart := by rw [Bpb.rootStart, e3, e6]; omega
  have hroot32 : d.filesys = .fat32 → b.rootSectors = d.rootSectors := fun h32 => by
    rw [Bpb.rootSectors, e4, if_pos h32, e1, k.root32 h32]
    exact Nat.div_eq_of_lt (by omega)
  have hroot16 : d.filesys ≠ .fat32 →
      b.rootSectors = (ofInt d.rootDirCnt % 65536 * 32 + (d.bps - 1)) / d.bps := fun h32 => by
    rw [Bpb.rootSectors, e4, if_neg h32, e1]
  constructor
  · intro hb
    have hds := hb.dataStart
    rw [Bpb.dataStart, hrs] at hds
    refine ⟨?_, fun h12 => ?_, fun h32 => ?_, fun h32 => ?_, fun h32 => ?_⟩
    · have := hb.spc
      omega
    · by_contra hlt
      have := hb.sectors
      rw [e5, if_pos ⟨h12, by omega⟩] at this
      omega
    · rw [← hroot16 h32, ← hroot h32]
      omega
    · by_contra hlt
      have hc := hb.clusters
      have h65 := (k.fat32 h32).1
      rw [Bpb.clusters, hb.sectors, hb.dataStart, Nat.sub_eq_zero_of_le (by omega),
        Nat.zero_div] at hc
      omega
    · obtain ⟨h1, h2⟩ := hb.rootCluster h32
      rw [e7 h32] at h1 h2
      omega
  · rintro ⟨h1, h2, h3, h4, h5⟩
    have hsec : b.sectors = d.sectors := by
      rw [e5, if_neg]
      rintro ⟨h12, hlt⟩
      have := h2 h12
      omega
    have hspc8 : b.spc = d.spc := by rw [e2, Nat.mod_eq_of_lt h1]
    have hrsec : b.rootSectors = d.rootSectors := by
      by_cases h32 : d.filesys = .fat32
      · exact hroot32 h32
      · rw [hroot16 h32, h3 h32, hroot h32]
    have hds : b.dataStart = d.dataStart := by rw [Bpb.dataStart, hrs, hrsec, hdata]
    have hfit : d.dataStart ≤ d.sectors := by
      by_cases h32 : d.filesys = .fat32
      · exact h4 h32
      · exact k.fits_of_fat16 h32
    have hc : b.clusters = d.clusters := by
      rw [Bpb.clusters, hsec, hds, hspc8, hcl, subU32_of_le k.sectors hfit]
    refine ⟨e1, hspc8, hsec, e3, e6, hrs, hds, hc, ?_, fun h32 => ?_⟩
    · rw [Bpb.filesys, hc]
      cases hfs : d.filesys with
      | unset => exact absurd hfs hf
      | fat12 => have := k.fat12 hfs; rw [if_pos (by omega)]
      | fat16 => have := k.fat16 hfs; rw [if_neg (by omega), if_pos (by omega)]
      | fat32 => have := k.fat32 hfs; rw [if_neg (by omega), if_neg (by omega)]
    · obtain ⟨h6, h7⟩ := h5 h32
      rw [e7 h32, Nat.mod_eq_of_lt h7]
      exact ⟨rfl, h6⟩

end Read

/-! ## The result -/

/-- One boot sector. -/
theorem readSectorBoot_zero (d : VdfDrive) (m : Buffer) (p : Nat) :
    readSectorBoot d 0 1 m p = (bootRecord d).map fun r => m.store p r := by
  have h1 : bootSector d 0 m p = (bootRecord d).map fun r => m.store p r := by
    rw [bootSector, if_neg (fun h => nomatch h.2), if_neg (fun h => h.2 rfl)]
  rw [readSectorBoot, h1]
  cases bootRecord d <;> rfl

/-- The first cluster of the root of FAT32. -/
theorem recalc_root_start {d : VdfDrive} (ht : d.IsTree) (h32 : d.filesys = .fat32)
    (rs : List FileRange) : ((recalcDrive d rs).file d.rootDir).start =
      if dirSize (dirSlots d d.rootDir) = 0 then 0
      else u32 (2 + usedBefore (numbered d) d.allFiles d.rootDir) := by
  have hmem := (ht.mem_allFiles d.rootDir).mpr ⟨VdfDrive.Below.refl _, fun _ => h32⟩
  have hsize : (numbered d d.rootDir).size = dirSize (dirSlots d d.rootDir) := by
    rw [(numbered_sized d d.rootDir).1, sized, if_pos ht.root_isDir]
  show (recalcFile d d.rootDir).start = _
  rw [recalcFile_mem hmem, VdfFile.laidOut, hsize]
  split <;> rfl

/-- The boot sector of a recalculated drive describes it iff `BootFits` holds of the drive before
the recalculation. -/
theorem readSectorBoot_served_iff (d d' : VdfDrive) (hg : d.toGeometry.Created) (ht : d.IsTree)
    (hds : d.dataStart < 2 ^ 32) (h : Recalc d d') : BootServed d' ↔ BootFits d := by
  obtain ⟨-, rs, -, rfl⟩ := (recalc_iff ht hds).mp h
  by_cases hf : d.filesys = .unset
  · constructor
    · intro hb
      obtain ⟨m', hm, -⟩ := hb (fun _ => 0) 0
      rw [readSectorBoot_zero, bootRecord, bootUnionRecord] at hm
      rw [show (recalcDrive d rs).filesys = .unset from hf] at hm
      cases hm
    · exact fun hb => absurd hf hb.filesys
  obtain ⟨r, hr⟩ := bootRecord_isOk (d := recalcDrive d rs) hf
  have hserved : BootServed (recalcDrive d rs) ↔
      ∀ (m : Buffer) p, (readBpb (m.store p r) p).Describes (recalcDrive d rs) := by
    have hrun : ∀ m p, readSectorBoot (recalcDrive d rs) 0 1 m p = .ok (m.store p r) := by
      intro m p
      rw [readSectorBoot_zero, hr]
      rfl
    constructor
    · intro hall m p
      obtain ⟨m', hm, hd⟩ := hall m p
      rw [hrun] at hm
      cases hm
      exact hd
    · exact fun hall m p => ⟨_, hrun m p, hall m p⟩
  have hroom : d.filesys = .fat32 → (d.dataStart ≤ d.sectors ↔ 65525 * d.spc ≤ d.sectors) := by
    intro h32
    have k := hg.known hf
    obtain ⟨size, flags, ext, junk, hc⟩ := hg
    exact fits_iff_of_fat32 hc k h32
  have hstart := fun h32 => recalc_root_start ht h32 rs
  rw [hserved]
  simp only [describes_iff hr _ _ hg hf, forall_const]
  constructor
  · rintro ⟨h1, h2, h3, h4, h5⟩
    refine ⟨hf, h1, h2, h3, fun h32 => (hroom h32).mp (h4 h32), fun h32 => ?_⟩
    have h6 : 2 ≤ ((recalcDrive d rs).file d.rootDir).start := (h5 h32).1
    rw [hstart h32] at h6
    split at h6
    · omega
    · exact ⟨‹_›, h6⟩
  · intro hb
    refine ⟨hb.spc, hb.sectors, hb.rootDir, fun h32 => (hroom h32).mpr (hb.room h32),
      fun h32 => ?_⟩
    obtain ⟨h6, h7⟩ := hb.root h32
    show 2 ≤ ((recalcDrive d rs).file d.rootDir).start ∧ ((recalcDrive d rs).file d.rootDir).start < _
    rw [hstart h32, if_neg h6]
    exact ⟨h7, u32_lt _⟩

/-- The boot sector of a drive with two files. -/
theorem readSectorBoot_served_two : ∃ d', Recalc drive16 d' ∧ BootServed d' := by
  obtain ⟨rs, hq⟩ := Qsort.exists_result cmpFilerange (unsortedRanges drive16)
  have h := (recalc_iff drive16_isTree drive16_inRange.dataStart).mpr
    ⟨drive16_canRecalc, rs, hq, rfl⟩
  refine ⟨_, h, (readSectorBoot_served_iff drive16 _ geometry16_created drive16_isTree
    drive16_inRange.dataStart h).mpr ?_⟩
  exact { filesys := by decide, spc := by decide, sectors := by decide, rootDir := by decide
          room := by decide, root := by decide }

/-- The geometry of a FAT32 drive of 1 GiB. -/
def geometry32 : Geometry :=
  { flags := 3, filesys := .fat32, bps := 512, spc := 8, bpc := 4096, sectors := 2097152
    clusters := 261628, bytes := 1073741824, rootDirCnt := 512, mbrSectors := 0
    direntPerSector := 16, fatSectors := 2048, fat1Start := 32, fat2Start := 2080
    rootStart := 4128, rootSectors := 0, dataStart := 4128 }

theorem geometry32_created : geometry32.Created :=
  ⟨gib 1, 3, ⟨0, 512, 8, 512⟩, ⟨0, 0, 0, 0⟩, by decide⟩

/-- A new FAT32 drive without a label. -/
def driveEmpty32 : VdfDrive := flatDrive geometry32 none []

/-- Its root has no slots, so the boot sector says that the root starts at cluster 0. -/
theorem readSectorBoot_not_served : ¬ ∀ d d' : VdfDrive, d.toGeometry.Created →
    d.filesys ≠ .unset → d.dataStart ≤ d.sectors → d.IsTree → d.InRange → Recalc d d' →
    BootServed d' := by
  intro hall
  have ht : driveEmpty32.IsTree := flatDrive_isTree _ _ _
  have hr : driveEmpty32.InRange := flatDrive_inRange (by decide) (by decide) nofun
  obtain ⟨rs, hq⟩ := Qsort.exists_result cmpFilerange (unsortedRanges driveEmpty32)
  obtain ⟨m', hm, hd⟩ := hall driveEmpty32 _ geometry32_created (by decide) (by decide) ht hr
    ((recalc_iff ht hr.dataStart).mpr ⟨⟨rfl, rfl, rfl, by decide⟩, rs, hq, rfl⟩) (fun _ => 0) 0
  obtain ⟨h1, h2⟩ := hd.rootCluster rfl
  have hstart := recalc_root_start ht rfl rs
  rw [if_pos (by decide)] at hstart
  have h3 : 2 ≤ ((recalcDrive driveEmpty32 rs).file driveEmpty32.rootDir).start := h1 ▸ h2
  rw [hstart] at h3
  omega

end Vdf
