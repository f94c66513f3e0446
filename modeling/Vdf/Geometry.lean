import Vdf.Create

/-!
# The geometry of a created drive

`createdriveGeometry_cases` inverts a successful run once; every fact about a created geometry
comes from it. `planFat_spec` gives the arithmetic of one case of the `switch`: the sums below the
data area never leave 32 bits, so the only subtraction that can wrap is the one from the sector
count.
-/

namespace Vdf

open Word

/-- A successful run of `createdrive_ext`, with the values it chose. -/
theorem createdriveGeometry_cases {size flags : Nat} {ext : DriveExt} {junk : Uninit}
    {g : Geometry} (h : createdriveGeometry size flags ext junk = some g) :
    ∃ plan,
      chooseBps ext = some g.bps ∧
      chooseFsysSpc ext (flags &&& vdfFsMask) (roundSize size g.bps) g.bps =
        some (g.filesys, g.spc) ∧
      planDrive g.filesys flags g.bps g.spc g.sectors (u32 (roundSize size g.bps / (g.bps * g.spc)))
        g.rootDirCnt junk = some plan ∧
      g = { flags, filesys := g.filesys, bps := g.bps, spc := g.spc, bpc := g.bps * g.spc
            sectors := u32 (roundSize size g.bps / g.bps), clusters := plan.clusters
            mbrSectors := if hasFlag flags vdfMbr then
              (if hasFlag flags vdfMbrPad then g.spc else 1) else 0
            bytes := u32 (g.sectors + g.mbrSectors) * g.bps
            rootDirCnt := if hasFlag ext.flags vdeAutoRootent then 512 else ext.rootDirCnt
            direntPerSector := g.bps / 32, fatSectors := plan.fatSectors
            fat1Start := plan.fat1Start, fat2Start := u32 (plan.fat1Start + plan.fatSectors)
            rootStart := u32 (g.fat2Start + plan.fatSectors), rootSectors := plan.rootSectors
            dataStart := plan.dataStart } := by
  simp only [createdriveGeometry, Option.bind_eq_bind, Option.bind_eq_some_iff] at h
  obtain ⟨bps, hb, ⟨fsys, spc⟩, hf, plan, hp, h⟩ := h
  cases h
  exact ⟨plan, hb, hf, hp, rfl⟩

/-! ## Chosen values -/

/-- The sector sizes. -/
def sectorSizes : List Nat := [512, 1024, 2048, 4096]

theorem chooseBps_mem {ext : DriveExt} {bps : Nat} (h : chooseBps ext = some bps) :
    bps ∈ sectorSizes := by
  simp only [chooseBps] at h
  split at h
  · cases h; decide
  · split at h
    · rename_i hm
      cases h
      simp only [List.mem_cons, List.not_mem_nil, or_false] at hm
      rcases hm with e | e | e | e <;> rw [e] <;> decide
    · cases h

/-- The powers of two up to 512, all values of `spc`. -/
def clusterSectors : List Nat := [1, 2, 4, 8, 16, 32, 64, 128, 256, 512]

theorem findSpc_mem {ranges : List ClusterSizeRange} {size bps : Nat} (hb : bps ∈ sectorSizes)
    (hr : ∀ r ∈ ranges, ∀ b ∈ sectorSizes,
      (if r.clusterSize ≤ b then 1 else r.clusterSize / b) ∈ clusterSectors) :
    findSpc ranges size bps ∈ clusterSectors := by
  unfold findSpc
  split
  · rename_i r hf
    exact hr r (List.mem_of_find?_eq_some hf) bps hb
  · decide

theorem chooseSpcAuto_mem {fsys : Filesys} {size bps : Nat} (hb : bps ∈ sectorSizes)
    (hf : fsys ≠ .unset) : chooseSpcAuto fsys size bps ∈ clusterSectors := by
  cases fsys with
  | unset => exact absurd rfl hf
  | fat12 => exact findSpc_mem hb (by decide)
  | fat16 => exact findSpc_mem hb (by decide)
  | fat32 => exact findSpc_mem hb (by decide)

theorem chooseFsysAuto_ne_unset {fsysFlag size : Nat} {fsys : Filesys}
    (h : chooseFsysAuto fsysFlag size = some fsys) : fsys ≠ .unset := by
  rintro rfl
  unfold chooseFsysAuto at h
  split at h
  · split at h
    · cases h
    · split at h
      · cases h
      · split at h <;> cases h
  · split at h
    · cases h
    · rename_i hne
      simp only [Option.some.injEq] at h
      exact hne h

theorem chooseFsysSpc_mem {ext : DriveExt} {fsysFlag size bps : Nat} {r : Filesys × Nat}
    (hb : bps ∈ sectorSizes) (h : chooseFsysSpc ext fsysFlag size bps = some r) :
    r.2 ∈ clusterSectors := by
  unfold chooseFsysSpc at h
  split at h
  · obtain ⟨fsys, hf, rfl⟩ := Option.map_eq_some_iff.mp h
    exact chooseSpcAuto_mem hb (chooseFsysAuto_ne_unset hf)
  · split at h
    · rename_i hm
      cases h
      simp only [List.mem_cons, List.not_mem_nil, or_false] at hm
      rcases hm with e | e | e | e | e | e | e | e <;> simp only [e] <;> decide
    · cases h

theorem sectorSizes_le {bps : Nat} (h : bps ∈ sectorSizes) : 512 ≤ bps ∧ bps ≤ 4096 := by
  simp only [sectorSizes, List.mem_cons, List.not_mem_nil, or_false] at h; omega

theorem sectorSizes_pow {bps : Nat} (h : bps ∈ sectorSizes) : ∃ k, 9 ≤ k ∧ k ≤ 12 ∧ bps = 2 ^ k := by
  simp only [sectorSizes, List.mem_cons, List.not_mem_nil, or_false] at h
  rcases h with e | e | e | e
  · exact ⟨9, by omega, by omega, e⟩
  · exact ⟨10, by omega, by omega, e⟩
  · exact ⟨11, by omega, by omega, e⟩
  · exact ⟨12, by omega, by omega, e⟩

theorem clusterSectors_pow {spc : Nat} (h : spc ∈ clusterSectors) : ∃ k, k ≤ 9 ∧ spc = 2 ^ k := by
  simp only [clusterSectors, List.mem_cons, List.not_mem_nil, or_false] at h
  rcases h with e | e | e | e | e | e | e | e | e | e
  · exact ⟨0, by omega, e⟩
  · exact ⟨1, by omega, e⟩
  · exact ⟨2, by omega, e⟩
  · exact ⟨3, by omega, e⟩
  · exact ⟨4, by omega, e⟩
  · exact ⟨5, by omega, e⟩
  · exact ⟨6, by omega, e⟩
  · exact ⟨7, by omega, e⟩
  · exact ⟨8, by omega, e⟩
  · exact ⟨9, by omega, e⟩

theorem clusterSectors_le {spc : Nat} (h : spc ∈ clusterSectors) : 1 ≤ spc ∧ spc ≤ 512 := by
  simp only [clusterSectors, List.mem_cons, List.not_mem_nil, or_false] at h; omega

/-- A geometry that `createdrive_ext` computes. -/
def Geometry.Created (g : Geometry) : Prop :=
  ∃ size flags ext junk, createdriveGeometry size flags ext junk = some g

theorem Geometry.Created.bps {g : Geometry} (h : g.Created) : g.bps ∈ sectorSizes := by
  obtain ⟨size, flags, ext, junk, h⟩ := h
  obtain ⟨-, hb, -⟩ := createdriveGeometry_cases h
  exact chooseBps_mem hb

theorem Geometry.Created.spc {g : Geometry} (h : g.Created) : g.spc ∈ clusterSectors := by
  have hb := h.bps
  obtain ⟨size, flags, ext, junk, h⟩ := h
  obtain ⟨-, -, hs, -⟩ := createdriveGeometry_cases h
  exact chooseFsysSpc_mem hb hs

theorem Geometry.Created.bpc {g : Geometry} (h : g.Created) : 0 < g.bpc ∧ g.bpc ≤ 2 ^ 21 := by
  have hb := sectorSizes_le h.bps
  have hs := clusterSectors_le h.spc
  obtain ⟨size, flags, ext, junk, h⟩ := h
  obtain ⟨plan, -, -, -, e⟩ := createdriveGeometry_cases h
  have hbpc : g.bpc = g.bps * g.spc := by rw [e]
  rw [hbpc]
  exact ⟨Nat.mul_pos (by omega) (by omega), (Nat.mul_le_mul hb.2 hs.2).trans (by decide)⟩

/-! ## One case of the `switch` -/

theorem u32_div_lt {bps : Nat} (hb : bps ∈ sectorSizes) (n : Nat) : u32 n / bps < 2 ^ 23 := by
  have hle := (sectorSizes_le hb).1
  rw [Nat.div_lt_iff_lt_mul (by omega)]
  have := u32_lt n
  omega

theorem rootDirSectors_lt {bps spc : Nat} (hb : bps ∈ sectorSizes) (hs : spc ∈ clusterSectors)
    (align : Bool) (n : Int) : rootDirSectors align bps spc n < 2 ^ 24 := by
  have h := u32_div_lt hb (ofInt (n * 32) + (bps - 1))
  have hspc := (clusterSectors_le hs).2
  cases align with
  | false => simp only [rootDirSectors, Bool.false_eq_true, ↓reduceIte]; omega
  | true =>
    simp only [rootDirSectors, ↓reduceIte]
    have := alignUp_le (u32 (ofInt (n * 32) + (bps - 1)) / bps) spc
    omega

/-- The sums of one case are exact; the FAT and the root directory are below `2^24` sectors. -/
theorem planFat_spec {align : Bool} {bps spc sectors f1 root : Nat} {fatBytes : Nat → Nat}
    {p : Plan} (hp : p = planFat align bps spc sectors f1 root fatBytes) (hb : bps ∈ sectorSizes)
    (hs : spc ∈ clusterSectors) (hf1 : f1 ≤ 1024) (hroot : root < 2 ^ 24) :
    p.fat1Start = f1 ∧ p.rootSectors = root ∧ p.fatSectors < 2 ^ 24 ∧
      p.dataStart = f1 + root + 2 * p.fatSectors ∧
      p.clusters = subU32 sectors p.dataStart / spc := by
  have hspc := (clusterSectors_le hs).2
  have h1 : u32 (f1 + root) = f1 + root := u32_of_lt (by omega)
  have hfat : p.fatSectors < 2 ^ 24 := by
    subst hp
    simp only [planFat]
    generalize fatBytes (subU32 sectors (u32 (f1 + root)) / spc) + (bps - 1) = n
    have h := u32_div_lt hb n
    cases align with
    | false => simp only [Bool.false_eq_true, ↓reduceIte]; omega
    | true =>
      simp only [↓reduceIte]
      have := alignUp_le (u32 n / bps) spc
      omega
  have hstart : p.dataStart = u32 (f1 + root + u32 (p.fatSectors * 2)) := by
    subst hp; simp only [planFat, h1]
  have h2 : u32 (p.fatSectors * 2) = p.fatSectors * 2 := u32_of_lt (by omega)
  rw [h2, u32_of_lt (by omega)] at hstart
  refine ⟨by subst hp; rfl, by subst hp; rfl, hfat, by omega, by subst hp; rfl⟩

/-- An accepted cluster count bounds the FAT. -/
theorem planFat_fatBytes {align : Bool} {bps spc sectors f1 root : Nat} {fatBytes : Nat → Nat}
    {p : Plan} (hp : p = planFat align bps spc sectors f1 root fatBytes) (hb : bps ∈ sectorSizes)
    (hs : spc ∈ clusterSectors) (hf1 : f1 ≤ 1024) (hroot : root < 2 ^ 24) (hbytes : ∀ c, fatBytes c ≤ 4 * c + 1)
    (hcl : p.clusters ≤ 268435437) : p.fatSectors * bps < 2 ^ 31 := by
  obtain ⟨hs1, hs2⟩ := clusterSectors_le hs
  obtain ⟨hb1, hb2⟩ := sectorSizes_le hb
  obtain ⟨-, -, hfat, hds, hc⟩ := planFat_spec hp hb hs hf1 hroot
  -- The first estimate exceeds the final count by the clusters of two FATs.
  have hest : subU32 sectors (f1 + root) / spc < 2 ^ 28 + 2 ^ 25 := by
    rw [Nat.div_lt_iff_lt_mul (by omega)]
    have h1 : subU32 sectors p.dataStart < (p.clusters + 1) * spc := by
      rw [hc]; exact Nat.lt_mul_of_div_lt (Nat.lt_succ_self _) (by omega)
    have h2 : (p.clusters + 1) * spc ≤ 268435438 * spc := Nat.mul_le_mul_right _ (by omega)
    have h3 : subU32 sectors (f1 + root) < 2 ^ 25 ∨
        subU32 sectors (f1 + root) ≤ subU32 sectors p.dataStart + 2 * p.fatSectors := by
      rw [hds]; unfold subU32 u32; omega
    omega
  have h1 : u32 (f1 + root) = f1 + root := u32_of_lt (by omega)
  have hfs : p.fatSectors =
      (let e := u32 (fatBytes (subU32 sectors (f1 + root) / spc) + (bps - 1)) / bps
       if align then alignUp e spc else e) := by
    subst hp; simp only [planFat, h1]
  have hn := hbytes (subU32 sectors (f1 + root) / spc)
  generalize fatBytes (subU32 sectors (f1 + root) / spc) = n at hn hfs
  have hle := u32_le (n + (bps - 1))
  have hmul := Nat.div_mul_le_self (u32 (n + (bps - 1))) bps
  dsimp only at hfs
  split at hfs
  · have hup := alignUp_le (u32 (n + (bps - 1)) / bps) spc
    rw [← hfs] at hup
    have h2 : p.fatSectors * bps ≤ (u32 (n + (bps - 1)) / bps + 511) * bps :=
      Nat.mul_le_mul_right _ (by omega)
    rw [Nat.add_mul] at h2
    omega
  · rw [hfs]
    omega

theorem fat1Start32_le (spc : Nat) (align : Bool) :
    (if align then maskDown 32 (u32 (32 + spc)) spc else 32) ≤ 32 + spc := by
  cases align with
  | false => simp
  | true => exact Nat.le_trans (maskDown_le _ _ _) (u32_le _)

theorem fat1Start32_pos {spc : Nat} (hs : spc ∈ clusterSectors) (align : Bool) :
    1 ≤ (if align then maskDown 32 (u32 (32 + spc)) spc else 32) := by
  cases align with
  | false => simp
  | true =>
    obtain ⟨k, hk, rfl⟩ := clusterSectors_pow hs
    have hle := (clusterSectors_le hs).2
    simp only [↓reduceIte]
    rw [u32_of_lt (by omega), maskDown_eq rfl (by omega) (by omega)]
    have h1 : 1 ≤ (32 + 2 ^ k) / 2 ^ k := (Nat.one_le_div_iff (Nat.two_pow_pos k)).mpr (by omega)
    exact Nat.one_le_iff_ne_zero.mpr (Nat.mul_ne_zero (by omega) (Nat.two_pow_pos k).ne')

/-! ## The result -/

/-- The geometry facts that hold for every drive with a known file system, whether or not the
cluster count wrapped. -/
structure Geometry.Known (g : Geometry) : Prop where
  filesys : g.filesys ≠ .unset
  bps : g.bps ∈ sectorSizes
  spc : g.spc ∈ clusterSectors
  bpc : g.bpc = g.bps * g.spc
  dirent : g.direntPerSector = g.bps / 32
  sectors : g.sectors < 2 ^ 32
  fat1_pos : 1 ≤ g.fat1Start
  fat1_le : g.fat1Start ≤ 1024
  fatSectors : g.fatSectors < 2 ^ 24
  fatBytes : g.fatSectors * g.bps < 2 ^ 31
  rootSectors : g.rootSectors < 2 ^ 24
  fat2 : g.fat2Start = g.fat1Start + g.fatSectors
  rootStart : g.rootStart = g.fat2Start + g.fatSectors
  dataStart : g.dataStart = g.rootStart + g.rootSectors
  clusters : g.clusters = subU32 g.sectors g.dataStart / g.spc
  fat12 : g.filesys = .fat12 → g.clusters ≤ 4084
  fat16 : g.filesys = .fat16 → 4085 ≤ g.clusters ∧ g.clusters ≤ 65524
  fat32 : g.filesys = .fat32 → 65525 ≤ g.clusters ∧ g.clusters ≤ 268435437
  root32 : g.filesys = .fat32 → g.rootSectors = 0
  mbr : g.mbrSectors ≤ g.spc

theorem Geometry.Known.dataStart_lt {g : Geometry} (k : g.Known) : g.dataStart < 2 ^ 32 := by
  have := k.dataStart; have := k.rootStart; have := k.fat2; have := k.fat1_le
  have := k.fatSectors; have := k.rootSectors
  omega

/-- The plan of a known file system. -/
theorem planDrive_spec {fsys : Filesys} {flags bps spc sectors clusters : Nat} {n : Int}
    {junk : Uninit} {p : Plan} (hf : fsys ≠ .unset) (hb : bps ∈ sectorSizes)
    (hs : spc ∈ clusterSectors) (h : planDrive fsys flags bps spc sectors clusters n junk = some p) :
    clustersAccepted fsys (hasFlag flags vdfFailWarn) p.clusters = true ∧
      1 ≤ p.fat1Start ∧ p.fat1Start ≤ 1024 ∧ p.rootSectors < 2 ^ 24 ∧ p.fatSectors < 2 ^ 24 ∧
      p.dataStart = p.fat1Start + p.rootSectors + 2 * p.fatSectors ∧
      p.clusters = subU32 sectors p.dataStart / spc ∧ (fsys = .fat32 → p.rootSectors = 0) ∧
      p.fatSectors * bps < 2 ^ 31 := by
  have hspc := clusterSectors_le hs
  have key : ∀ {f1 root : Nat} {fatBytes : Nat → Nat} {q : Plan},
      q = planFat (hasFlag flags vdfAlignCluster) bps spc sectors f1 root fatBytes → 1 ≤ f1 →
      f1 ≤ 1024 → root < 2 ^ 24 → (∀ c, fatBytes c ≤ 4 * c + 1) → q.clusters ≤ 268435437 →
      1 ≤ q.fat1Start ∧ q.fat1Start ≤ 1024 ∧ q.rootSectors < 2 ^ 24 ∧
        q.fatSectors < 2 ^ 24 ∧ q.dataStart = q.fat1Start + q.rootSectors + 2 * q.fatSectors ∧
        q.clusters = subU32 sectors q.dataStart / spc ∧ q.rootSectors = root ∧
        q.fatSectors * bps < 2 ^ 31 := by
    intro f1 root fatBytes q hq h1 h2 h3 h4 h5
    obtain ⟨e1, e2, e3, e4, e5⟩ := planFat_spec hq hb hs h2 h3
    exact ⟨by omega, by omega, by omega, e3, by omega, e5, e2,
      planFat_fatBytes hq hb hs h2 h3 h4 h5⟩
  have hf1 : 1 ≤ (if hasFlag flags vdfAlignCluster then spc else 1) ∧
      (if hasFlag flags vdfAlignCluster then spc else 1) ≤ 1024 := by split <;> omega
  have hroot := rootDirSectors_lt hb hs (hasFlag flags vdfAlignCluster) n
  unfold planDrive at h
  dsimp only at h
  split at h
  · rename_i hacc
    have hp : p = planSwitch fsys flags bps spc sectors clusters n junk := by cases h; rfl
    rw [← hp] at hacc
    refine ⟨hacc, ?_⟩
    cases fsys with
    | unset => exact absurd rfl hf
    | fat12 =>
      simp only [planSwitch, planFat12] at hp
      have hcl : p.clusters ≤ 4084 := by simpa [clustersAccepted] using hacc
      obtain ⟨a, b, c, d, e, f, -, g⟩ := key hp hf1.1 hf1.2 hroot
        (fun c => Nat.le_trans (u32_le _) (by have := u32_le (c * 3); omega)) (by omega)
      exact ⟨a, b, c, d, e, f, nofun, g⟩
    | fat16 =>
      simp only [planSwitch, planFat16] at hp
      have hcl : p.clusters ≤ 65524 := by simp [clustersAccepted] at hacc; omega
      obtain ⟨a, b, c, d, e, f, -, g⟩ := key hp hf1.1 hf1.2 hroot
        (fun c => Nat.le_trans (u32_le _) (by omega)) (by omega)
      exact ⟨a, b, c, d, e, f, nofun, g⟩
    | fat32 =>
      have hle := fat1Start32_le spc (hasFlag flags vdfAlignCluster)
      simp only [planSwitch, planFat32] at hp
      have hcl : p.clusters ≤ 268435437 := by simp [clustersAccepted] at hacc; omega
      obtain ⟨a, b, c, d, e, f, g, i⟩ := key hp (fat1Start32_pos hs _) (by omega) (by omega)
        (fun c => Nat.le_trans (u32_le _) (by omega)) hcl
      exact ⟨a, b, c, d, e, f, fun _ => g, i⟩
  · cases h

theorem createdriveGeometry_known {size flags : Nat} {ext : DriveExt} {junk : Uninit}
    {g : Geometry} (h : createdriveGeometry size flags ext junk = some g)
    (hf : g.filesys ≠ .unset) : g.Known := by
  obtain ⟨p, hb, hfs, hp, e⟩ := createdriveGeometry_cases h
  have hbps := chooseBps_mem hb
  have hspc := chooseFsysSpc_mem hbps hfs
  have hs : g.sectors < 2 ^ 32 := by rw [congrArg Geometry.sectors e]; exact u32_lt _
  obtain ⟨hacc, h1, h2, h3, h4, h5, h6, h7, h8⟩ := planDrive_spec hf hbps hspc hp
  have e1 : g.fat1Start = p.fat1Start := congrArg Geometry.fat1Start e
  have e2 : g.fatSectors = p.fatSectors := congrArg Geometry.fatSectors e
  have e3 : g.rootSectors = p.rootSectors := congrArg Geometry.rootSectors e
  have e4 : g.dataStart = p.dataStart := congrArg Geometry.dataStart e
  have e5 : g.clusters = p.clusters := congrArg Geometry.clusters e
  have e6 : g.fat2Start = g.fat1Start + g.fatSectors := by
    have := congrArg Geometry.fat2Start e
    simp only [] at this
    rw [this, u32_of_lt (by omega)]; omega
  have e7 : g.rootStart = g.fat2Start + g.fatSectors := by
    have := congrArg Geometry.rootStart e
    simp only [] at this
    rw [this, u32_of_lt (by omega)]; omega
  have hmbr : g.mbrSectors ≤ g.spc := by
    have := congrArg Geometry.mbrSectors e
    have hle := (clusterSectors_le hspc).1
    simp only [] at this
    rw [this]
    split
    · split
      · exact Nat.le_refl _
      · exact hle
    · exact Nat.zero_le _
  rw [← e5] at hacc
  exact
    { filesys := hf, bps := hbps, spc := hspc, bpc := congrArg Geometry.bpc e
      dirent := congrArg Geometry.direntPerSector e, sectors := hs
      fat1_pos := by omega, fat1_le := by omega, fatSectors := by omega, fatBytes := by rw [e2]; exact h8, rootSectors := by omega
      fat2 := e6, rootStart := e7, dataStart := by omega, clusters := by rw [e5, e4]; exact h6
      fat12 := fun k => by rw [k] at hacc; simpa [clustersAccepted] using hacc
      fat16 := fun k => by rw [k] at hacc; simp [clustersAccepted] at hacc; omega
      fat32 := fun k => by rw [k] at hacc; simp [clustersAccepted] at hacc; omega
      root32 := fun k => by rw [e3]; exact h7 k
      mbr := hmbr }

theorem Geometry.Created.known {g : Geometry} (h : g.Created) (hf : g.filesys ≠ .unset) :
    g.Known := by
  obtain ⟨size, flags, ext, junk, h⟩ := h
  exact createdriveGeometry_known h hf

/-- A sector holds a whole number of slots. -/
theorem Geometry.Known.bps_eq {g : Geometry} (h : g.Known) : 32 * g.direntPerSector = g.bps := by
  obtain ⟨k, h9, -, hk⟩ := sectorSizes_pow h.bps
  have h32 : 32 ∣ g.bps := by
    rw [hk]
    exact pow_dvd_pow 2 (by omega : 5 ≤ k)
  have := h.dirent
  omega

theorem Geometry.Known.bpc_pow {g : Geometry} (h : g.Known) : ∃ k, 9 ≤ k ∧ k ≤ 21 ∧ g.bpc = 2 ^ k := by
  obtain ⟨i, hi1, hi2, hi⟩ := sectorSizes_pow h.bps
  obtain ⟨j, hj, hj'⟩ := clusterSectors_pow h.spc
  exact ⟨i + j, by omega, by omega, by rw [h.bpc, hi, hj', Nat.pow_add]⟩

end Vdf
