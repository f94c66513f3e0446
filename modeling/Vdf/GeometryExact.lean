import Vdf.Geometry
import Mathlib.Tactic.Ring

/-!
# When the geometry is exact

`Geometry.Exact`: the geometry satisfies its equations in unbounded arithmetic. Four things break
it (`createdriveExt_exact_iff`): a flag word that names no file system together with an explicit
cluster size (the `switch` has no default case), a size of `2^32` sectors or more (the 64-bit
count is narrowed to 32 bits), a FAT32 drive that is smaller than 65525 clusters of sectors, and a
root directory of FAT12 or FAT16 whose length in bytes leaves `uint32_t`. The third is caught by
the cluster limits unless `sectors - data_start` wraps to a value that a large cluster brings back
below them. The last leaves the sums of the areas right (`Geometry.Consistent`).
-/

namespace Vdf

open Word

/-- The size in whole sectors, rounded up, in unbounded arithmetic. -/
def sectorCount (size bps : Nat) : Nat := (size + (bps - 1)) / bps

/-- The bytes of a FAT for `c` clusters, in unbounded arithmetic. -/
def fatLength : Filesys → Nat → Nat
  | .unset, _ => 0
  | .fat12, c => c * 3 / 2 + 1
  | .fat16, c => c * 2
  | .fat32, c => c * 4

/-- The sectors of `n` bytes, as whole clusters with `align`, in unbounded arithmetic. -/
def wholeSectors (align : Bool) (bps spc : Nat) (n : Int) : Int :=
  let sectors := (n + (bps - 1)) / bps
  if align then (sectors + (spc - 1)) / spc * spc else sectors

/-- The areas of the geometry fit together in unbounded integer arithmetic. -/
structure Geometry.Consistent (g : Geometry) (size : Nat) : Prop where
  filesys : g.filesys = .fat12 ∨ g.filesys = .fat16 ∨ g.filesys = .fat32
  size : g.sectors * g.bps = sectorCount size g.bps * g.bps
  parts : g.fat1Start + 2 * g.fatSectors + g.rootSectors = g.dataStart
  fits : g.dataStart ≤ g.sectors
  clusters : g.clusters = (g.sectors - g.dataStart) / g.spc

/-- The geometry is exact in unbounded integer arithmetic, the root directory and the FATs
included: a FAT is sized for the clusters that would fit behind the root directory without it. -/
structure Geometry.Exact (g : Geometry) (size : Nat) : Prop extends g.Consistent size where
  root : g.rootSectors = if g.filesys = .fat32 then 0 else
    wholeSectors (hasFlag g.flags vdfAlignCluster) g.bps g.spc (32 * g.rootDirCnt)
  fat : g.fatSectors = wholeSectors (hasFlag g.flags vdfAlignCluster) g.bps g.spc
    (fatLength g.filesys ((g.sectors - (g.fat1Start + g.rootSectors)) / g.spc))

/-- The inputs for which the areas fit together. -/
abbrev areasFit (size flags : Nat) (ext : DriveExt) : Prop :=
  ∀ bps ∈ chooseBps ext,
    ∀ r ∈ chooseFsysSpc ext (flags &&& vdfFsMask) (roundSize size bps) bps,
      r.1 ≠ .unset ∧ sectorCount size bps < 2 ^ 32 ∧
        (r.1 = .fat32 → 65525 * r.2 ≤ sectorCount size bps)

/-- `root_dir_cnt * 32 + (bps - 1)` stays in `uint32_t`. -/
abbrev rootFits (rootDirCnt : Int) (bps : Nat) : Prop :=
  0 ≤ 32 * rootDirCnt + (bps - 1) ∧ 32 * rootDirCnt + (bps - 1) < 2 ^ 32

/-- The inputs for which the geometry is exact. -/
abbrev geometryFits (size flags : Nat) (ext : DriveExt) : Prop :=
  areasFit size flags ext ∧
    ∀ bps ∈ chooseBps ext,
      ∀ r ∈ chooseFsysSpc ext (flags &&& vdfFsMask) (roundSize size bps) bps, r.1 ≠ .fat32 →
        rootFits (if hasFlag ext.flags vdeAutoRootent then 512 else ext.rootDirCnt) bps

/-! ## The sector count -/

theorem roundSize_div {size bps : Nat} (hb : bps ∈ sectorSizes) :
    roundSize size bps / bps = u64 (size + (bps - 1)) / bps := by
  obtain ⟨k, -, hk, rfl⟩ := sectorSizes_pow hb
  have hlt : u64 (size + (2 ^ k - 1)) < 2 ^ 64 := Nat.mod_lt _ (by decide)
  rw [roundSize, maskDown_eq rfl (by omega) hlt, Nat.mul_div_cancel _ (Nat.two_pow_pos k)]

/-- The narrowed sector count is the exact one iff that has 32 bits. -/
theorem u32_roundSize_iff (size : Nat) {bps : Nat} (hb : bps ∈ sectorSizes) :
    u32 (roundSize size bps / bps) = sectorCount size bps ↔ sectorCount size bps < 2 ^ 32 := by
  obtain ⟨h1, h2⟩ := sectorSizes_le hb
  rw [roundSize_div hb]
  constructor
  · intro h
    have := u32_lt (u64 (size + (bps - 1)) / bps)
    omega
  · intro h
    have hpos : 0 < bps := by omega
    unfold sectorCount at h ⊢
    rw [Nat.div_lt_iff_lt_mul hpos] at h
    have hsmall : size + (bps - 1) < 2 ^ 64 := by
      have : 2 ^ 32 * bps ≤ 2 ^ 32 * 4096 := Nat.mul_le_mul_left _ h2
      omega
    rw [u64, Nat.mod_eq_of_lt hsmall, u32_of_lt]
    rw [Nat.div_lt_iff_lt_mul hpos]
    exact h

/-! ## The data area -/

/-- A wrapped cluster count is too large for FAT12 and FAT16. -/
theorem Geometry.Known.fits_of_fat16 {g : Geometry} (k : g.Known) (h32 : g.filesys ≠ .fat32) :
    g.dataStart ≤ g.sectors := by
  by_contra hlt
  have hlt : g.sectors < g.dataStart := by omega
  have hds : g.dataStart < 2 ^ 26 := by
    have := k.dataStart; have := k.rootStart; have := k.fat2; have := k.fat1_le
    have := k.fatSectors; have := k.rootSectors
    omega
  have hcl : g.clusters ≤ 65524 := by
    cases hf : g.filesys with
    | unset => exact absurd hf k.filesys
    | fat12 => have := k.fat12 hf; omega
    | fat16 => exact (k.fat16 hf).2
    | fat32 => exact absurd hf h32
  obtain ⟨hs1, hs2⟩ := clusterSectors_le k.spc
  have hc := k.clusters
  rw [subU32_of_lt (by omega) hlt] at hc
  have h1 : 2 ^ 32 + g.sectors - g.dataStart < (g.clusters + 1) * g.spc := by
    rw [hc]; exact Nat.lt_mul_of_div_lt (Nat.lt_succ_self _) (by omega)
  have h2 : (g.clusters + 1) * g.spc ≤ 65525 * 512 := Nat.mul_le_mul (by omega) hs2
  omega

/-- The FAT32 metadata of a drive of `s` sectors takes at most `s / 64` sectors and a few
clusters. -/
theorem planFat32_dataStart_le (align : Bool) {bps spc s : Nat} (hb : bps ∈ sectorSizes)
    (hs : spc ∈ clusterSectors) (hlt : s < 2 ^ 32) (hle : 32 + spc ≤ s) :
    (planFat32 align bps spc s).dataStart ≤ 32 + 3 * spc + s / 64 := by
  have hf1 := fat1Start32_le spc align
  obtain ⟨hs1, hs2⟩ := clusterSectors_le hs
  obtain ⟨hb1, hb2⟩ := sectorSizes_le hb
  obtain ⟨-, -, -, hds, -⟩ := planFat_spec (p := planFat32 align bps spc s) rfl hb hs
    (by omega) (by decide)
  have hfat : (planFat32 align bps spc s).fatSectors ≤ s / 128 + spc := by
    simp only [planFat32, planFat, Nat.add_zero]
    generalize (if align then maskDown 32 (u32 (32 + spc)) spc else 32) = f1 at hf1 ⊢
    rw [u32_of_lt (by omega : f1 < 2 ^ 32), subU32_of_le hlt (by omega)]
    have hc : (s - f1) / spc ≤ s := Nat.le_trans (Nat.div_le_self _ _) (Nat.sub_le _ _)
    generalize (s - f1) / spc = c at hc ⊢
    have h1 : u32 (u32 (c * 4) + (bps - 1)) ≤ c * 4 + (bps - 1) :=
      Nat.le_trans (u32_le _) (Nat.add_le_add_right (u32_le _) _)
    have h2 : u32 (u32 (c * 4) + (bps - 1)) / bps ≤ s / 128 + 1 := by
      rw [Nat.div_le_iff_le_mul (by omega)]
      have h3 : (s / 128 + 1) * 512 ≤ (s / 128 + 1) * bps := Nat.mul_le_mul_left _ hb1
      omega
    cases align with
    | false => simp only [Bool.false_eq_true, ↓reduceIte]; omega
    | true =>
      simp only [↓reduceIte]
      have := alignUp_le (u32 (u32 (c * 4) + (bps - 1)) / bps) spc
      omega
  omega

/-- FAT32: the data area starts inside the drive iff the drive has 65525 clusters of sectors. -/
theorem fits_iff_of_fat32 {size flags : Nat} {ext : DriveExt} {junk : Uninit} {g : Geometry}
    (h : createdriveGeometry size flags ext junk = some g) (k : g.Known)
    (h32 : g.filesys = .fat32) :
    g.dataStart ≤ g.sectors ↔ 65525 * g.spc ≤ g.sectors := by
  obtain ⟨hs1, hs2⟩ := clusterSectors_le k.spc
  constructor
  · intro hle
    have hc := k.clusters
    rw [subU32_of_le k.sectors hle] at hc
    have h1 := (k.fat32 h32).1
    rw [hc, Nat.le_div_iff_mul_le (by omega)] at h1
    omega
  · intro hle
    obtain ⟨p, -, -, hp, e⟩ := createdriveGeometry_cases h
    have hds : g.dataStart = p.dataStart := congrArg Geometry.dataStart e
    have hpe : p = planFat32 (hasFlag flags vdfAlignCluster) g.bps g.spc g.sectors := by
      rw [h32] at hp
      unfold planDrive at hp
      dsimp only at hp
      split at hp
      · cases hp; rfl
      · cases hp
    have := planFat32_dataStart_le (hasFlag flags vdfAlignCluster) k.bps k.spc k.sectors
      (by omega)
    rw [hds, hpe]
    omega

/-! ## The FATs and the root directory -/

theorem u32_fat12Length {c bps : Nat} (hc : c < 2 ^ 29) (hb : bps ≤ 4096) :
    u32 (u32 (u32 (c * 3) / 2 + 1) + (bps - 1)) = fatLength .fat12 c + (bps - 1) := by
  rw [u32_of_lt (by omega : c * 3 < 2 ^ 32), u32_of_lt (by omega : c * 3 / 2 + 1 < 2 ^ 32)]
  exact u32_of_lt (by omega)

theorem planDrive_eq {fsys : Filesys} {flags bps spc sectors clusters : Nat} {n : Int}
    {junk : Uninit} {p : Plan} (h : planDrive fsys flags bps spc sectors clusters n junk = some p) :
    p = planSwitch fsys flags bps spc sectors clusters n junk := by
  unfold planDrive at h
  dsimp only at h
  split at h
  · cases h; rfl
  · cases h

/-- One case of the `switch` when the data area starts inside the drive. -/
theorem planFat_estimate {align : Bool} {bps spc sectors f1 root : Nat} {fatBytes : Nat → Nat}
    {p : Plan} (hp : p = planFat align bps spc sectors f1 root fatBytes) (hb : bps ∈ sectorSizes)
    (hs : spc ∈ clusterSectors) (hf1 : f1 ≤ 1024) (hroot : root < 2 ^ 24) (hsec : sectors < 2 ^ 32)
    (hfit : p.dataStart ≤ sectors) :
    2 * p.fatSectors ≤ sectors - (f1 + root) ∧
      p.clusters = (sectors - (f1 + root) - 2 * p.fatSectors) / spc ∧
      p.fatSectors =
        (let e := u32 (fatBytes ((sectors - (f1 + root)) / spc) + (bps - 1)) / bps
         if align then alignUp e spc else e) := by
  obtain ⟨-, -, hfat, hds, hc⟩ := planFat_spec hp hb hs hf1 hroot
  refine ⟨by omega, ?_, ?_⟩
  · rw [hc, subU32_of_le hsec hfit, hds, Nat.sub_sub]
  · subst hp
    simp only [planFat]
    rw [u32_of_lt (by omega : f1 + root < 2 ^ 32), subU32_of_le hsec (by omega)]

/-- The first cluster estimate of an accepted drive is far below the range of its products. -/
theorem estimate_lt {area spc fat c : Nat} (hspc : 0 < spc) (hfat : fat < 2 ^ 24)
    (hc : c = (area - 2 * fat) / spc) (hle : c ≤ 268435437) : area / spc < 2 ^ 29 := by
  rw [Nat.div_lt_iff_lt_mul hspc]
  have h1 : area - 2 * fat < (c + 1) * spc := by
    rw [hc]; exact Nat.lt_mul_of_div_lt (Nat.lt_succ_self _) hspc
  have h2 : (c + 1) * spc ≤ 268435438 * spc := Nat.mul_le_mul_right _ (by omega)
  omega

/-- A plan is one case of the `switch`, with the FAT length of its file system. -/
theorem planDrive_planFat {fsys : Filesys} {flags bps spc sectors clusters : Nat} {n : Int}
    {junk : Uninit} {p : Plan} (hf : fsys ≠ .unset) (hb : bps ∈ sectorSizes)
    (hs : spc ∈ clusterSectors)
    (h : planDrive fsys flags bps spc sectors clusters n junk = some p) :
    ∃ f1 root fatBytes,
      p = planFat (hasFlag flags vdfAlignCluster) bps spc sectors f1 root fatBytes ∧ f1 ≤ 1024 ∧
      root = (if fsys = .fat32 then 0 else
        rootDirSectors (hasFlag flags vdfAlignCluster) bps spc n) ∧
      ∀ c < 2 ^ 29, u32 (fatBytes c + (bps - 1)) = fatLength fsys c + (bps - 1) := by
  have hp := planDrive_eq h
  have hbps := (sectorSizes_le hb).2
  have hspc := (clusterSectors_le hs).2
  have hf1 : (if hasFlag flags vdfAlignCluster then spc else 1) ≤ 1024 := by split <;> omega
  cases fsys with
  | unset => exact absurd rfl hf
  | fat12 =>
    simp only [planSwitch, planFat12] at hp
    exact ⟨_, _, _, hp, hf1, rfl, fun c hc => u32_fat12Length hc hbps⟩
  | fat16 =>
    simp only [planSwitch, planFat16] at hp
    exact ⟨_, _, _, hp, hf1, rfl, fun c hc => by simp only [u32, fatLength]; omega⟩
  | fat32 =>
    simp only [planSwitch, planFat32] at hp
    exact ⟨_, _, _, hp, (fat1Start32_le _ _).trans (by omega), rfl,
      fun c hc => by simp only [u32, fatLength]; omega⟩

/-- The rounding of the source, from the sum `y` that it divides. -/
theorem wholeSectors_of_sum (align : Bool) {bps spc y : Nat} {n : Int} (hb : bps ∈ sectorSizes)
    (hs : spc ∈ clusterSectors) (hn : n + (bps - 1) = y) (hy : y < 2 ^ 33) :
    wholeSectors align bps spc n =
      ((if align then alignUp (y / bps) spc else y / bps : Nat) : Int) := by
  obtain ⟨hb1, -⟩ := sectorSizes_le hb
  obtain ⟨hs1, hs2⟩ := clusterSectors_le hs
  have hlt : y / bps < 2 ^ 31 := by
    rw [Nat.div_lt_iff_lt_mul (by omega)]
    omega
  rw [wholeSectors, hn, ← Int.natCast_ediv]
  generalize y / bps = q at *
  cases align with
  | false => rfl
  | true =>
    obtain ⟨k, hk, hpow⟩ := clusterSectors_pow hs
    have hcast : ((spc - 1 : Nat) : Int) = spc - 1 := by omega
    simp only [↓reduceIte]
    rw [alignUp_eq hpow (by omega) (by omega)]
    push_cast
    rw [hcast]

theorem Geometry.Known.clusters_le {g : Geometry} (k : g.Known) : g.clusters ≤ 268435437 := by
  cases hf : g.filesys with
  | unset => exact absurd hf k.filesys
  | fat12 => have := k.fat12 hf; omega
  | fat16 => have := k.fat16 hf; omega
  | fat32 => exact (k.fat32 hf).2

/-- The FATs of a consistent geometry have the exact size. -/
theorem Geometry.Known.fat_exact {g : Geometry} (k : g.Known) (hfit : g.dataStart ≤ g.sectors)
    {align : Bool} {f1 root : Nat} {fatBytes : Nat → Nat} {p : Plan}
    (hp : p = planFat align g.bps g.spc g.sectors f1 root fatBytes) (hf1 : f1 ≤ 1024)
    (hroot : root < 2 ^ 24) (hfat : g.fatSectors = p.fatSectors) (hds : g.dataStart = p.dataStart)
    (hcl : g.clusters = p.clusters)
    (hbytes : ∀ c < 2 ^ 29, u32 (fatBytes c + (g.bps - 1)) = fatLength g.filesys c + (g.bps - 1)) :
    g.fatSectors = wholeSectors align g.bps g.spc
      (fatLength g.filesys ((g.sectors - (f1 + root)) / g.spc)) := by
  obtain ⟨-, h2, h3⟩ := planFat_estimate hp k.bps k.spc hf1 hroot k.sectors (hds ▸ hfit)
  have hlt := estimate_lt (clusterSectors_le k.spc).1 (hfat ▸ k.fatSectors) h2
    (hcl ▸ k.clusters_le)
  have hlen : fatLength g.filesys ((g.sectors - (f1 + root)) / g.spc) < 2 ^ 32 := by
    cases g.filesys <;> simp only [fatLength] <;> omega
  have hb := sectorSizes_le k.bps
  dsimp only at h3
  rw [hbytes _ hlt] at h3
  rw [wholeSectors_of_sum align k.bps k.spc (by omega) (by omega :
    fatLength g.filesys ((g.sectors - (f1 + root)) / g.spc) + (g.bps - 1) < 2 ^ 33), hfat, h3]

/-- The directory sectors of a length that is `q * 2^32` bytes too small. -/
theorem wholeSectors_add_wraps (align : Bool) {bps spc : Nat} (hb : bps ∈ sectorSizes)
    (hs : spc ∈ clusterSectors) (n q : Int) :
    wholeSectors align bps spc (n + q * 2 ^ 32) =
      wholeSectors align bps spc n + q * (2 ^ 32 / bps) := by
  obtain ⟨hb1, -⟩ := sectorSizes_le hb
  obtain ⟨hs1, -⟩ := clusterSectors_le hs
  obtain ⟨i, -, hi, hbi⟩ := sectorSizes_pow hb
  obtain ⟨j, hj, hsj⟩ := clusterSectors_pow hs
  -- Both `bps` and a cluster divide the length that is lost.
  obtain ⟨m, hm⟩ : bps * spc ∣ 2 ^ 32 := by
    rw [hbi, hsj, ← Nat.pow_add]
    exact Nat.pow_dvd_pow 2 (by omega)
  have hm' : (2 ^ 32 : Int) = m * spc * bps := by
    rw [Nat.mul_comm, Nat.mul_comm bps, ← Nat.mul_assoc] at hm
    exact_mod_cast hm
  have hdiv : (n + q * (m * spc * bps) + (bps - 1)) / bps =
      (n + (bps - 1)) / bps + q * (m * spc) := by
    rw [show n + q * (m * spc * bps) + (bps - 1) = n + (bps - 1) + q * (m * spc) * bps by ring,
      Int.add_mul_ediv_right _ _ (by omega)]
  rw [hm', Int.mul_ediv_cancel _ (by omega), wholeSectors, wholeSectors, hdiv]
  cases align with
  | false => rfl
  | true =>
    simp only [↓reduceIte]
    generalize (n + (bps - 1)) / (bps : Int) = s
    rw [show s + q * (m * spc) + (spc - 1) = s + (spc - 1) + q * m * spc by ring,
      Int.add_mul_ediv_right _ _ (by omega)]
    ring

/-- The sectors of the root directory are exact iff its length in bytes does not wrap. -/
theorem rootDirSectors_eq_iff (align : Bool) {bps spc : Nat} (hb : bps ∈ sectorSizes)
    (hs : spc ∈ clusterSectors) (n : Int) :
    (rootDirSectors align bps spc n : Int) = wholeSectors align bps spc (32 * n) ↔
      rootFits n bps := by
  obtain ⟨hb1, hb2⟩ := sectorSizes_le hb
  obtain ⟨i, -, hi, hbi⟩ := sectorSizes_pow hb
  have hpos : (0 : Int) < 2 ^ 32 / bps := by
    refine Int.ediv_pos_of_pos_of_dvd (by decide) (by omega) ?_
    rw [hbi]
    exact_mod_cast Nat.pow_dvd_pow 2 (by omega : i ≤ 32)
  -- `y` is the sum that the source divides, `q` what it has lost of the exact one.
  set y := u32 (ofInt (n * 32) + (bps - 1)) with hy
  set q := (32 * n + (bps - 1)) / (2 ^ 32 : Int) with hq
  have hx : 32 * n = (y : Int) - (bps - 1) + q * 2 ^ 32 := by
    rw [hy, hq]; unfold u32 ofInt; omega
  have hround : wholeSectors align bps spc ((y : Int) - (bps - 1)) =
      rootDirSectors align bps spc n :=
    have hlt := u32_lt (ofInt (n * 32) + (bps - 1))
    wholeSectors_of_sum align hb hs (by omega) (by omega)
  rw [hx, wholeSectors_add_wraps align hb hs, hround]
  have hwrap : rootFits n bps ↔ q = 0 := by
    rw [hq]; unfold rootFits; omega
  rw [hwrap]
  constructor
  · intro h
    rcases Int.mul_eq_zero.1 (by omega : q * (2 ^ 32 / (bps : Int)) = 0) with h | h
    · exact h
    · omega
  · rintro h
    rw [h]; omega

/-! ## Data areas behind the end -/

/-- Without alignment a FAT32 data area that starts behind the end does so by two clusters. -/
theorem planFat32_wrapped {bps spc s : Nat} (hb : bps ∈ sectorSizes) (hs : spc ∈ clusterSectors)
    (h16 : 16 ≤ spc) (hsec : s < 2 ^ 32) (hlt : s < (planFat32 false bps spc s).dataStart) :
    s + 2 * spc ≤ (planFat32 false bps spc s).dataStart := by
  obtain ⟨hs1, hs2⟩ := clusterSectors_le hs
  obtain ⟨hb1, hb2⟩ := sectorSizes_le hb
  obtain ⟨-, -, -, hds, -⟩ := planFat_spec (p := planFat32 false bps spc s) rfl hb hs
    (by simp) (by decide)
  have hds : (planFat32 false bps spc s).dataStart =
      32 + 2 * (planFat32 false bps spc s).fatSectors := hds
  have hfat : (planFat32 false bps spc s).fatSectors =
      u32 (u32 (subU32 s 32 / spc * 4) + (bps - 1)) / bps := rfl
  have hc : subU32 s 32 / spc < 2 ^ 28 := by
    have := subU32_lt s 32
    exact (Nat.div_le_div_left h16 (by omega)).trans_lt (by omega)
  rw [u32_of_lt (by omega : subU32 s 32 / spc * 4 < 2 ^ 32), u32_of_lt (by omega)] at hfat
  rcases Nat.lt_or_ge s 32 with h32 | h32
  · -- The first estimate wraps as well, and the FATs are sized for it.
    have hlarge : 2 ^ 23 - 1 ≤ subU32 s 32 / spc := by
      rw [subU32_of_lt (by omega) h32]
      exact Nat.le_trans (by omega : _ ≤ (2 ^ 32 + s - 32) / 512) (Nat.div_le_div_left hs2 (by omega))
    have hle : 8191 ≤ (planFat32 false bps spc s).fatSectors := by
      rw [hfat, Nat.le_div_iff_mul_le (by omega)]
      have := Nat.mul_le_mul_left 8191 hb2
      omega
    omega
  · -- A FAT has no more sectors than the drive has clusters for it.
    rw [subU32_of_le (by omega) h32] at hfat
    have hle : (s - 32) / spc ≤ (s - 32) / 16 := Nat.div_le_div_left h16 (by omega)
    generalize (s - 32) / spc = c at hfat hle
    have hfc : (planFat32 false bps spc s).fatSectors ≤ c := by
      rw [hfat, ← Nat.lt_succ_iff, Nat.div_lt_iff_lt_mul (by omega), Nat.succ_mul]
      have := Nat.mul_le_mul_left c hb1
      omega
    omega

/-- With alignment the data area starts at a cluster. -/
theorem planFat32_dvd {bps spc s : Nat} (hb : bps ∈ sectorSizes) (hs : spc ∈ clusterSectors) :
    spc ∣ (planFat32 true bps spc s).dataStart := by
  obtain ⟨k, hk, hpow⟩ := clusterSectors_pow hs
  have hle := (clusterSectors_le hs).2
  have hf1 := fat1Start32_le spc true
  obtain ⟨-, -, -, hds, -⟩ := planFat_spec (p := planFat32 true bps spc s) rfl hb hs
    (by omega) (by decide)
  rw [hds, if_pos rfl, Nat.add_zero]
  refine Nat.dvd_add ?_ (Dvd.dvd.mul_left ?_ 2)
  · rw [u32_of_lt (by omega), maskDown_eq hpow (by omega) (by omega)]
    exact Nat.dvd_mul_left ..
  · have hlt := u32_div_lt hb
      (u32 (subU32 s (u32 (maskDown 32 (u32 (32 + spc)) spc + 0)) / spc * 4) + (bps - 1))
    rw [planFat32, planFat]
    dsimp only
    rw [if_pos rfl, if_pos rfl, alignUp_eq hpow (by omega) (by omega)]
    exact Nat.dvd_mul_left ..

/-- A data area that starts behind the end does not start inside the cluster of the last sector. -/
theorem Geometry.Created.end_le_dataStart {g : Geometry} (h : g.Created) (hf : g.filesys ≠ .unset)
    (hlt : g.sectors < g.dataStart) (hmod : (g.sectors + g.mbrSectors) % g.spc ≠ 0) :
    (g.sectors + g.mbrSectors) / g.spc * g.spc + g.spc ≤ g.mbrSectors + g.dataStart := by
  have hk := h.known hf
  have h32 : g.filesys = .fat32 := by
    by_contra h32
    have := hk.fits_of_fat16 h32
    omega
  have hmbr := hk.mbr
  have hspc := clusterSectors_le hk.spc
  obtain ⟨size, flags, ext, junk, h⟩ := h
  obtain ⟨p, -, -, hp, e⟩ := createdriveGeometry_cases h
  have hds : g.dataStart = p.dataStart := congrArg Geometry.dataStart e
  have hpe : p = planFat32 (hasFlag flags vdfAlignCluster) g.bps g.spc g.sectors := by
    rw [h32] at hp
    exact planDrive_eq hp
  rw [hpe] at hds
  cases halign : hasFlag flags vdfAlignCluster with
  | false =>
    rw [halign] at hds
    have h16 : 16 ≤ g.spc := by
      have hc := hk.clusters
      have h26 : g.dataStart < 2 ^ 26 := by
        have := hk.dataStart; have := hk.rootStart; have := hk.fat2; have := hk.fat1_le
        have := hk.fatSectors; have := hk.rootSectors
        omega
      rw [subU32_of_lt (by omega) hlt] at hc
      by_contra h15
      have hle : (2 ^ 32 + g.sectors - g.dataStart) / 15 ≤ g.clusters :=
        hc ▸ Nat.div_le_div_left (by omega) (by omega)
      have := hk.clusters_le
      omega
    have := Nat.div_mul_le_self (g.sectors + g.mbrSectors) g.spc
    have := planFat32_wrapped hk.bps hk.spc h16 hk.sectors (hds ▸ hlt)
    omega
  | true =>
    rw [halign] at hds
    obtain ⟨q, hq⟩ : g.spc ∣ g.dataStart := hds ▸ planFat32_dvd hk.bps hk.spc
    have hpad : g.mbrSectors ≤ 1 ∨ g.mbrSectors = g.spc := by
      have hm := congrArg Geometry.mbrSectors e
      dsimp only at hm
      rw [hm]
      split
      · split <;> simp
      · simp
    have hdm := Nat.div_add_mod' (g.sectors + g.mbrSectors) g.spc
    have hmlt := Nat.mod_lt (g.sectors + g.mbrSectors) hspc.1
    generalize (g.sectors + g.mbrSectors) / g.spc = n at *
    -- The next cluster boundary is at most the data area's, or one cluster of MBR behind it.
    rw [hq] at hlt ⊢
    rw [Nat.mul_comm n] at hdm ⊢
    rcases hpad with hpad | hpad
    · have hn : n < q := Nat.lt_of_mul_lt_mul_left (a := g.spc) (by omega)
      have := Nat.mul_le_mul_left g.spc hn
      rw [Nat.mul_succ] at this
      omega
    · have hn : n < q + 1 := Nat.lt_of_mul_lt_mul_left (a := g.spc) (by rw [Nat.mul_succ]; omega)
      have := Nat.mul_le_mul_left g.spc (Nat.le_of_lt_succ hn)
      omega

/-! ## The result -/

theorem createdriveExt_geometry {drv : Option VdfDrive} {size flags : Nat} {ext : DriveExt}
    {junk : Uninit} {d : VdfDrive} (h : createdriveExt drv size flags ext junk = some d) :
    createdriveGeometry size flags ext junk = some d.toGeometry := by
  obtain ⟨g, hg, rfl⟩ := Option.map_eq_some_iff.mp h
  rw [hg]
  cases drv with
  | none => rfl
  | some d₀ =>
    dsimp only
    split
    · split <;> rfl
    · split <;> rfl

/-- The areas of a known file system fit together iff no narrowing and no subtraction wrapped. -/
theorem Geometry.Known.consistent_iff {g : Geometry} (k : g.Known) (size : Nat) :
    g.Consistent size ↔ g.sectors = sectorCount size g.bps ∧ g.dataStart ≤ g.sectors := by
  have hpos := (sectorSizes_le k.bps).1
  constructor
  · exact fun e => ⟨Nat.eq_of_mul_eq_mul_right (by omega) e.size, e.fits⟩
  · rintro ⟨hs, hd⟩
    have hf := k.filesys
    exact
      { filesys := by cases h : g.filesys <;> simp_all
        size := by rw [hs]
        parts := by have := k.dataStart; have := k.rootStart; have := k.fat2; omega
        fits := hd
        clusters := by rw [k.clusters, subU32_of_le k.sectors hd] }

/-- A known file system has an exact geometry iff the areas fit together and the length of the root
directory of FAT12 and FAT16 has not wrapped. -/
theorem Geometry.Known.exact_iff {size flags : Nat} {ext : DriveExt} {junk : Uninit} {g : Geometry}
    (k : g.Known) (h : createdriveGeometry size flags ext junk = some g) :
    g.Exact size ↔ g.Consistent size ∧ (g.filesys ≠ .fat32 → rootFits g.rootDirCnt g.bps) := by
  obtain ⟨p, -, -, hp, e⟩ := createdriveGeometry_cases h
  obtain ⟨f1, root, fatBytes, hplan, hf1, hroot, hbytes⟩ :=
    planDrive_planFat k.filesys k.bps k.spc hp
  have hroot24 : root < 2 ^ 24 := by
    rw [hroot]
    split
    · decide
    · exact rootDirSectors_lt k.bps k.spc _ _
  obtain ⟨p1, p2, -⟩ := planFat_spec hplan k.bps k.spc hf1 hroot24
  have hflags : g.flags = flags := congrArg Geometry.flags e
  have hf1' : g.fat1Start = f1 := (congrArg Geometry.fat1Start e).trans p1
  have hroot' : g.rootSectors = root := (congrArg Geometry.rootSectors e).trans p2
  -- The condition on the root directory is its equation.
  have hiff : (g.filesys ≠ .fat32 → rootFits g.rootDirCnt g.bps) ↔
      (g.rootSectors : Int) = if g.filesys = .fat32 then 0 else
        wholeSectors (hasFlag g.flags vdfAlignCluster) g.bps g.spc (32 * g.rootDirCnt) := by
    rw [hroot', hroot, hflags]
    by_cases h32 : g.filesys = .fat32
    · simp [h32]
    · rw [if_neg h32, if_neg h32, rootDirSectors_eq_iff _ k.bps k.spc]
      exact forall_prop_of_true h32
  rw [hiff]
  constructor
  · exact fun hx => ⟨hx.toConsistent, hx.root⟩
  · rintro ⟨hc, hr⟩
    have hfat := k.fat_exact hc.fits hplan hf1 hroot24 (congrArg Geometry.fatSectors e)
      (congrArg Geometry.dataStart e) (congrArg Geometry.clusters e) hbytes
    rw [← hf1', ← hroot', ← hflags] at hfat
    exact ⟨hc, hr, hfat⟩

/-- The areas of a drive that `createdrive_ext` returns fit together iff the flag word names a file
system, the sector count has 32 bits, and a FAT32 drive has room for 65525 clusters. -/
theorem createdriveExt_consistent_iff {drv : Option VdfDrive} {size flags : Nat} {ext : DriveExt}
    {junk : Uninit} {d : VdfDrive} (h : createdriveExt drv size flags ext junk = some d) :
    d.toGeometry.Consistent size ↔ areasFit size flags ext := by
  have hg := createdriveExt_geometry h
  obtain ⟨p, hb, hfs, hp, e⟩ := createdriveGeometry_cases hg
  have hbps := chooseBps_mem hb
  have hsec : d.sectors = u32 (roundSize size d.bps / d.bps) := congrArg Geometry.sectors e
  have hcount := u32_roundSize_iff size hbps
  rw [← hsec] at hcount
  have hfits : areasFit size flags ext ↔
      d.filesys ≠ .unset ∧ sectorCount size d.bps < 2 ^ 32 ∧
        (d.filesys = .fat32 → 65525 * d.spc ≤ sectorCount size d.bps) := by
    unfold areasFit
    rw [hb]
    simp only [Option.mem_def, Option.some.injEq, forall_eq', hfs]
  rw [hfits]
  by_cases hf : d.filesys = .unset
  · constructor
    · intro hx; rcases hx.filesys with k | k | k <;> rw [hf] at k <;> cases k
    · exact fun hx => absurd hf hx.1
  have k := createdriveGeometry_known hg hf
  rw [k.consistent_iff, hcount]
  constructor
  · rintro ⟨h1, h2⟩
    refine ⟨hf, h1, fun h32 => ?_⟩
    rw [← hcount.mpr h1]
    exact (fits_iff_of_fat32 hg k h32).mp h2
  · rintro ⟨-, h1, h2⟩
    refine ⟨h1, ?_⟩
    by_cases h32 : d.filesys = .fat32
    · rw [fits_iff_of_fat32 hg k h32, hcount.mpr h1]
      exact h2 h32
    · exact k.fits_of_fat16 h32

/-- Every drive that `createdrive_ext` returns has an exact geometry iff the flag word names a file
system, the sector count has 32 bits, a FAT32 drive has room for 65525 clusters, and the bytes of
the root directory of another one have 32 bits. -/
theorem createdriveExt_exact_iff (drv : Option VdfDrive) (size flags : Nat) (ext : DriveExt)
    (junk : Uninit) (d : VdfDrive)
    (h : createdriveExt drv size flags ext junk = some d) :
    d.toGeometry.Exact size ↔ geometryFits size flags ext := by
  have hg := createdriveExt_geometry h
  obtain ⟨p, hb, hfs, hp, e⟩ := createdriveGeometry_cases hg
  have hn : d.rootDirCnt = if hasFlag ext.flags vdeAutoRootent then 512 else ext.rootDirCnt :=
    congrArg Geometry.rootDirCnt e
  have hroot : (∀ bps ∈ chooseBps ext,
      ∀ r ∈ chooseFsysSpc ext (flags &&& vdfFsMask) (roundSize size bps) bps, r.1 ≠ .fat32 →
        rootFits (if hasFlag ext.flags vdeAutoRootent then 512 else ext.rootDirCnt) bps) ↔
      (d.filesys ≠ .fat32 → rootFits d.rootDirCnt d.bps) := by
    rw [hb, hn]
    simp only [Option.mem_def, Option.some.injEq, forall_eq', hfs]
  have hareas := createdriveExt_consistent_iff h
  unfold geometryFits
  rw [hroot, ← hareas]
  by_cases hf : d.filesys = .unset
  · have hno : ¬ d.toGeometry.Consistent size := by
      intro hx; rcases hx.filesys with k | k | k <;> rw [hf] at k <;> cases k
    exact ⟨fun hx => absurd hx.toConsistent hno, fun hx => absurd hx.1 hno⟩
  · exact (createdriveGeometry_known hg hf).exact_iff hg

/-- A root directory of `2^27` entries is accepted on 64 MiB: its `2^32` bytes take no sector. -/
example : (createdriveGeometry (mib 64) 2 ⟨0, 512, 4, 2 ^ 27⟩ ⟨0, 0, 0, 0⟩).map
    (fun g => (g.rootDirCnt, g.rootSectors)) = some (2 ^ 27, 0) := by decide

/-- Sectors of 512 bytes, 32 of them in a cluster. -/
def ext32 : DriveExt := ⟨0, 512, 32, 512⟩

/-- A 2 GiB FAT32 drive has an exact geometry. -/
theorem createdriveExt_exact_gib : ∃ d : VdfDrive,
    createdriveExt none (gib 2) 3 ext32 ⟨0, 0, 0, 0⟩ = some d ∧ d.toGeometry.Exact (gib 2) := by
  obtain ⟨d, hd⟩ : ∃ d, createdriveExt none (gib 2) 3 ext32 ⟨0, 0, 0, 0⟩ = some d :=
    Option.isSome_iff_exists.mp (by decide)
  exact ⟨d, hd, (createdriveExt_exact_iff none (gib 2) 3 ext32 ⟨0, 0, 0, 0⟩ d hd).mpr (by decide)⟩

/-- A FAT32 drive of one sector is accepted: its cluster count wraps to 134152191. -/
theorem createdriveExt_not_exact : ¬ ∀ (drv : Option VdfDrive) (size flags : Nat) (ext : DriveExt)
    (junk : Uninit) (d : VdfDrive), size < 2 ^ 64 →
    createdriveExt drv size flags ext junk = some d → d.toGeometry.Exact size := by
  intro hall
  obtain ⟨d, hd⟩ : ∃ d, createdriveExt none 512 3 ext32 ⟨0, 0, 0, 0⟩ = some d :=
    Option.isSome_iff_exists.mp (by decide)
  have hx := hall none 512 3 ext32 ⟨0, 0, 0, 0⟩ d (by decide) hd
  have hle : d.dataStart ≤ d.sectors := hx.fits
  have hg := createdriveExt_geometry hd
  have e : (createdriveGeometry 512 3 ext32 ⟨0, 0, 0, 0⟩).map
      (fun g => (g.dataStart, g.sectors)) = some (2097184, 1) := by decide
  rw [hg] at e
  simp only [Option.map_some, Option.some.injEq, Prod.mk.injEq] at e
  omega

end Vdf
