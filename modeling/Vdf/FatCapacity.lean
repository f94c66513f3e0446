import Vdf.GeometryExact

/-!
# When a FAT copy has an entry for every cluster

The FAT is sized for the clusters that would fit if there were no FATs, without the two reserved
entries; the clusters are then counted again behind the FATs. So the FAT is large enough when the
two copies take two whole clusters (always with `VDF_ALIGN_CLUSTER`), or when the last FAT sector
has spare entries for those they do not take (`fatRoom`).
-/

namespace Vdf

open Word

/-- The width of a FAT entry. -/
def Filesys.entryBits : Filesys → Nat
  | .unset => 0
  | .fat12 => 12
  | .fat16 => 16
  | .fat32 => 32

/-- One FAT copy holds the two reserved entries and one for every cluster. -/
def Geometry.FatHolds (g : Geometry) : Prop :=
  (g.clusters + 2) * g.filesys.entryBits ≤ g.fatSectors * g.bps * 8

/-- The sectors between the root directory and the end of an unaligned drive. -/
def dataArea (fsys : Filesys) (bps spc sectors : Nat) (rootDirCnt : Int) : Nat :=
  match fsys with
  | .fat32 => sectors - 32
  | _ => sectors - (1 + rootDirSectors false bps spc rootDirCnt)

/-- `spare n`: a FAT sized for the clusters of `area` has room for `n` more entries. -/
abbrev spareEntries (fsys : Filesys) (bps fat clusters n : Nat) : Prop :=
  (clusters + n) * fsys.entryBits ≤ fat * bps * 8

/-- The inputs for which the FAT is large enough: the structures are aligned, or two FATs of
`fat` sectors take two clusters of the area, or one and the FAT has a spare entry, or the FAT has
two spare entries. -/
abbrev fatRoom (size flags : Nat) (ext : DriveExt) : Prop :=
  ∀ bps ∈ chooseBps ext,
    ∀ r ∈ chooseFsysSpc ext (flags &&& vdfFsMask) (roundSize size bps) bps,
      let rootDirCnt := if hasFlag ext.flags vdeAutoRootent then 512 else ext.rootDirCnt
      let area := dataArea r.1 bps r.2 (sectorCount size bps) rootDirCnt
      let clusters := area / r.2
      let fat := (fatLength r.1 clusters + (bps - 1)) / bps
      hasFlag flags vdfAlignCluster = true ∨ area % r.2 + r.2 < 2 * fat ∨
        (area % r.2 < 2 * fat ∧ spareEntries r.1 bps fat clusters 1) ∨
        spareEntries r.1 bps fat clusters 2

/-! ## Arithmetic -/

/-- The entries that fit behind two FATs of `fat` sectors, against those the FAT was sized for. -/
theorem spare_iff {area spc fat n bits : Nat} (hspc : 0 < spc) (hfit : 2 * fat ≤ area)
    (hsized : area / spc * bits ≤ n) :
    ((area - 2 * fat) / spc + 2) * bits ≤ n ↔
      area % spc + spc < 2 * fat ∨ (area % spc < 2 * fat ∧ (area / spc + 1) * bits ≤ n) ∨
        (area / spc + 2) * bits ≤ n := by
  have hdm := Nat.div_add_mod area spc
  have hlt := Nat.mod_lt area hspc
  rw [Nat.mul_comm] at hdm
  generalize hq : area / spc = q at *
  generalize hr : area % spc = r at *
  by_cases h2 : r + spc < 2 * fat
  · -- Two clusters or more are lost to the FATs.
    have hc : (area - 2 * fat) / spc + 2 ≤ q := by
      have h1 : q ≠ 0 := by rintro rfl; omega
      have : (area - 2 * fat) / spc < q - 1 := by
        rw [Nat.div_lt_iff_lt_mul hspc, Nat.sub_mul]
        omega
      omega
    exact ⟨fun _ => .inl h2, fun _ => Nat.le_trans (Nat.mul_le_mul_right _ hc) hsized⟩
  by_cases h1 : r < 2 * fat
  · -- Exactly one.
    have hc : (area - 2 * fat) / spc = q - 1 := by
      have h1 : q ≠ 0 := by rintro rfl; omega
      apply Nat.div_eq_of_lt_le
      · rw [Nat.sub_mul]; omega
      · rw [show q - 1 + 1 = q by omega]; omega
    have hq1 : q ≠ 0 := by rintro rfl; omega
    rw [hc, show q - 1 + 2 = q + 1 by omega]
    constructor
    · exact fun h => .inr (.inl ⟨h1, h⟩)
    · rintro (h | h | h)
      · exact absurd h h2
      · exact h.2
      · exact Nat.le_trans (Nat.mul_le_mul_right _ (by omega)) h
  · -- None.
    have hc : (area - 2 * fat) / spc = q := by
      apply Nat.div_eq_of_lt_le
      · omega
      · rw [Nat.add_mul q 1 spc]; omega
    rw [hc]
    constructor
    · exact fun h => .inr (.inr h)
    · rintro (h | h | h)
      · exact absurd h h2
      · exact absurd h.1 h1
      · exact h

/-- A FAT for `c` clusters has `c` entries. -/
theorem fatLength_entries (fsys : Filesys) (c : Nat) :
    c * fsys.entryBits ≤ fatLength fsys c * 8 := by
  cases fsys <;> simp only [fatLength, Filesys.entryBits] <;> omega

theorem fatLength_pos {fsys : Filesys} (hf : fsys ≠ .unset) {c : Nat} (h : fsys ≠ .fat12 → 0 < c) :
    0 < fatLength fsys c := by
  cases fsys with
  | unset => exact absurd rfl hf
  | fat12 => simp [fatLength]
  | fat16 => have := h (by simp); simp only [fatLength]; omega
  | fat32 => have := h (by simp); simp only [fatLength]; omega

/-- Two aligned FATs take two clusters. -/
theorem aligned_fits {area spc fat bits n : Nat} (hspc : 0 < spc) (hfit : 2 * fat ≤ area)
    (hsized : area / spc * bits ≤ n) (hdvd : spc ∣ fat) (hpos : 0 < fat) :
    ((area - 2 * fat) / spc + 2) * bits ≤ n := by
  obtain ⟨q, rfl⟩ := hdvd
  have hq : 1 ≤ q := Nat.one_le_iff_ne_zero.mpr (by rintro rfl; simp at hpos)
  have hge : spc ≤ spc * q := Nat.le_mul_of_pos_right _ hq
  refine (spare_iff hspc hfit hsized).mpr ?_
  have hlt := Nat.mod_lt area hspc
  left; omega

/-! ## The plan of a consistent geometry -/

/-- The FAT of one case holds the clusters behind it iff it has the room that `fatRoom` asks
for. `fat` is the FAT size before it is aligned. -/
theorem planFat_holds_iff {fsys : Filesys} {align : Bool} {bps spc area fat clusters : Nat}
    (hf : fsys ≠ .unset) (hb : bps ∈ sectorSizes) (hs : spc ∈ clusterSectors)
    (hc : clusters = (area - 2 * fat) / spc) (hfit : 2 * fat ≤ area)
    (hpos : fsys ≠ .fat12 → 0 < clusters) (hlt : area / spc < 2 ^ 29)
    (hfat : fat = (let e := (fatLength fsys (area / spc) + (bps - 1)) / bps
      if align then alignUp e spc else e)) :
    (clusters + 2) * fsys.entryBits ≤ fat * bps * 8 ↔
      align = true ∨
      (let est := (fatLength fsys (area / spc) + (bps - 1)) / bps
       area % spc + spc < 2 * est ∨
        (area % spc < 2 * est ∧ spareEntries fsys bps est (area / spc) 1) ∨
        spareEntries fsys bps est (area / spc) 2) := by
  have hbps := sectorSizes_le hb
  obtain ⟨hs1, hs2⟩ := clusterSectors_le hs
  dsimp only at hfat ⊢
  have hlen : fatLength fsys (area / spc) < 2 ^ 31 + 1 := by
    cases fsys <;> simp only [fatLength] <;> omega
  have hest := le_ceilDiv_mul (n := fatLength fsys (area / spc)) (a := bps) (by omega)
  have hbits := fatLength_entries fsys (area / spc)
  have hlen0 : 0 < fatLength fsys (area / spc) := by
    refine fatLength_pos hf fun h12 => ?_
    have h1 := hpos h12
    have h2 : clusters ≤ area / spc := by rw [hc]; exact Nat.div_le_div_right (Nat.sub_le _ _)
    omega
  have hestlt : (fatLength fsys (area / spc) + (bps - 1)) / bps ≤ 2 ^ 31 + 4096 :=
    Nat.le_trans (Nat.div_le_self _ _) (by omega)
  generalize fatLength fsys (area / spc) = len at *
  generalize hE : (len + (bps - 1)) / bps = est at *
  cases align with
  | false =>
    simp only [Bool.false_eq_true, ↓reduceIte, false_or] at hfat ⊢
    subst hfat hc
    exact spare_iff (by omega) hfit (by omega)
  | true =>
    simp only [↓reduceIte, true_or, iff_true] at hfat ⊢
    obtain ⟨k, hk, hpow⟩ := clusterSectors_pow hs
    rw [alignUp_eq hpow (by omega) (by omega)] at hfat
    have hge : est ≤ fat := by rw [hfat]; exact le_ceilDiv_mul (by omega)
    have hest0 : 0 < est := by
      rcases Nat.eq_zero_or_pos est with h0 | h0
      · rw [h0] at hest; omega
      · exact h0
    have hsized : area / spc * fsys.entryBits ≤ fat * bps * 8 := by
      have : est * bps ≤ fat * bps := Nat.mul_le_mul_right _ hge
      omega
    rw [hc]
    exact aligned_fits (by omega) hfit hsized ⟨_, by rw [hfat, Nat.mul_comm]⟩ (by omega)

/-! ## The result -/

/-- `planFat_holds_iff` for a plan whose FAT length is that of `fsys`. -/
theorem planFat_fatHolds_iff {g : Geometry} (k : g.Known) (hfit : g.dataStart ≤ g.sectors)
    {align : Bool} {f1 root : Nat} {fatBytes : Nat → Nat} {p : Plan}
    (hp : p = planFat align g.bps g.spc g.sectors f1 root fatBytes) (hf1 : f1 ≤ 1024)
    (hroot : root < 2 ^ 24) (hfat : g.fatSectors = p.fatSectors) (hds : g.dataStart = p.dataStart)
    (hbytes : ∀ c < 2 ^ 29, u32 (fatBytes c + (g.bps - 1)) = fatLength g.filesys c + (g.bps - 1))
    (hcl : g.clusters = p.clusters) :
    g.FatHolds ↔ align = true ∨
      (let area := g.sectors - (f1 + root)
       let est := (fatLength g.filesys (area / g.spc) + (g.bps - 1)) / g.bps
       area % g.spc + g.spc < 2 * est ∨
        (area % g.spc < 2 * est ∧ spareEntries g.filesys g.bps est (area / g.spc) 1) ∨
        spareEntries g.filesys g.bps est (area / g.spc) 2) := by
  obtain ⟨h1, h2, h3⟩ := planFat_estimate hp k.bps k.spc hf1 hroot k.sectors (hds ▸ hfit)
  have hs := (clusterSectors_le k.spc).1
  have hle : p.clusters ≤ 268435437 ∧ (g.filesys ≠ .fat12 → 0 < p.clusters) := by
    rw [← hcl]
    cases hf : g.filesys with
    | unset => exact absurd hf k.filesys
    | fat12 => exact ⟨by have := k.fat12 hf; omega, fun h => absurd rfl h⟩
    | fat16 => have := k.fat16 hf; exact ⟨by omega, fun _ => by omega⟩
    | fat32 => have := k.fat32 hf; exact ⟨by omega, fun _ => by omega⟩
  have hlt := estimate_lt (by omega) (hfat ▸ k.fatSectors) h2 hle.1
  dsimp only at h3
  rw [hbytes _ hlt] at h3
  unfold Geometry.FatHolds
  rw [hfat, hcl]
  exact planFat_holds_iff k.filesys k.bps k.spc h2 h1 hle.2 hlt h3

/-- Of a drive whose geometry did not wrap, each FAT copy has an entry for every cluster iff the
inputs leave `fatRoom`. -/
theorem createdriveExt_fatHolds_iff (drv : Option VdfDrive) (size flags : Nat) (ext : DriveExt)
    (junk : Uninit) (d : VdfDrive) (h : createdriveExt drv size flags ext junk = some d)
    (hx : d.toGeometry.Consistent size) : d.toGeometry.FatHolds ↔ fatRoom size flags ext := by
  have hg := createdriveExt_geometry h
  obtain ⟨p, hb, hfs, hp, e⟩ := createdriveGeometry_cases hg
  have hf : d.filesys ≠ .unset := by
    intro hu; rcases hx.filesys with k | k | k <;> rw [hu] at k <;> cases k
  have k := createdriveGeometry_known hg hf
  have hbps := sectorSizes_le k.bps
  have hspc := clusterSectors_le k.spc
  have hsec : d.sectors = sectorCount size d.bps := ((k.consistent_iff size).mp hx).1
  have hn : d.rootDirCnt = if hasFlag ext.flags vdeAutoRootent then 512 else ext.rootDirCnt :=
    congrArg Geometry.rootDirCnt e
  have hpe := planDrive_eq hp
  have hfat : d.fatSectors = p.fatSectors := congrArg Geometry.fatSectors e
  have hds : d.dataStart = p.dataStart := congrArg Geometry.dataStart e
  have hcl : d.clusters = p.clusters := congrArg Geometry.clusters e
  have hroot := rootDirSectors_lt k.bps k.spc
  -- The condition at the values that the run chose.
  have hroom : fatRoom size flags ext ↔ hasFlag flags vdfAlignCluster = true ∨
      (let area := dataArea d.filesys d.bps d.spc d.sectors d.rootDirCnt
       let est := (fatLength d.filesys (area / d.spc) + (d.bps - 1)) / d.bps
       area % d.spc + d.spc < 2 * est ∨
        (area % d.spc < 2 * est ∧ spareEntries d.filesys d.bps est (area / d.spc) 1) ∨
        spareEntries d.filesys d.bps est (area / d.spc) 2) := by
    unfold fatRoom
    rw [hb]
    simp only [Option.mem_def, Option.some.injEq, forall_eq', hfs, hsec, hn]
  rw [hroom]
  by_cases halign : hasFlag flags vdfAlignCluster = true
  all_goals
    cases hfsys : d.filesys with
    | unset => exact absurd hfsys hf
    | fat12 =>
      simp only [hfsys, planSwitch, planFat12, halign, Bool.false_eq_true, ↓reduceIte] at hpe
      have := planFat_fatHolds_iff k hx.fits hpe (by omega) (hroot _ _) hfat hds
        (fun c hc => by rw [hfsys]; exact u32_fat12Length hc (by omega)) hcl
      simpa only [halign, hfsys, true_or, iff_true, false_or, dataArea, Bool.false_eq_true]
        using this
    | fat16 =>
      simp only [hfsys, planSwitch, planFat16, halign, Bool.false_eq_true, ↓reduceIte] at hpe
      have := planFat_fatHolds_iff k hx.fits hpe (by omega) (hroot _ _) hfat hds
        (fun c hc => by rw [hfsys]; simp only [u32, fatLength]; omega) hcl
      simpa only [halign, hfsys, true_or, iff_true, false_or, dataArea, Bool.false_eq_true]
        using this
    | fat32 =>
      have hle := fat1Start32_le d.spc (hasFlag flags vdfAlignCluster)
      simp only [hfsys, planSwitch, planFat32, halign, Bool.false_eq_true, ↓reduceIte] at hpe hle
      have := planFat_fatHolds_iff k hx.fits hpe (by omega) (by omega) hfat hds
        (fun c hc => by rw [hfsys]; simp only [u32, fatLength]; omega) hcl
      simpa only [halign, hfsys, true_or, iff_true, false_or, dataArea, Bool.false_eq_true,
        Nat.add_zero] using this

/-- A 2 GiB FAT32 drive has room: its FATs take more than a cluster. -/
theorem createdriveExt_fatHolds_gib : ∃ d : VdfDrive,
    createdriveExt none (gib 2) 3 ext32 ⟨0, 0, 0, 0⟩ = some d ∧ d.toGeometry.FatHolds := by
  obtain ⟨d, hd⟩ : ∃ d, createdriveExt none (gib 2) 3 ext32 ⟨0, 0, 0, 0⟩ = some d :=
    Option.isSome_iff_exists.mp (by decide)
  have hg := createdriveExt_geometry hd
  have e : (createdriveGeometry (gib 2) 3 ext32 ⟨0, 0, 0, 0⟩).map
      (fun g => (g.filesys, g.bps, g.sectors, g.dataStart)) =
        some (.fat32, 512, 4194304, 2080) := by decide
  rw [hg] at e
  simp only [Option.map_some, Option.some.injEq, Prod.mk.injEq] at e
  have k := createdriveGeometry_known hg (by rw [e.1]; decide)
  have hx : d.toGeometry.Consistent (gib 2) :=
    (k.consistent_iff _).mpr ⟨by rw [e.2.1, e.2.2.1]; decide, by omega⟩
  exact ⟨d, hd, (createdriveExt_fatHolds_iff none (gib 2) 3 ext32 ⟨0, 0, 0, 0⟩ d hd hx).mpr
    (by decide)⟩

/-- FAT16 with clusters of 64 sectors. -/
def ext16 : DriveExt := ⟨0, 512, 64, 512⟩

/-- A FAT16 drive of 262217 sectors: 4096 clusters, and FATs of 4096 entries. -/
theorem createdriveExt_not_fatHolds : ¬ ∀ (drv : Option VdfDrive) (size flags : Nat)
    (ext : DriveExt) (junk : Uninit) (d : VdfDrive), size < 2 ^ 64 →
    createdriveExt drv size flags ext junk = some d → d.toGeometry.Consistent size →
    d.toGeometry.FatHolds := by
  intro hall
  obtain ⟨d, hd⟩ : ∃ d, createdriveExt none (262217 * 512) 2 ext16 ⟨0, 0, 0, 0⟩ = some d :=
    Option.isSome_iff_exists.mp (by decide)
  have hg := createdriveExt_geometry hd
  have e : (createdriveGeometry (262217 * 512) 2 ext16 ⟨0, 0, 0, 0⟩).map
      (fun g => (g.filesys, g.bps, g.sectors, g.dataStart, g.clusters, g.fatSectors)) =
        some (.fat16, 512, 262217, 65, 4096, 16) := by decide
  rw [hg] at e
  simp only [Option.map_some, Option.some.injEq, Prod.mk.injEq] at e
  have k := createdriveGeometry_known hg (by rw [e.1]; decide)
  have hx : d.toGeometry.Consistent (262217 * 512) :=
    (k.consistent_iff _).mpr ⟨by rw [e.2.1, e.2.2.1]; decide, by omega⟩
  have h := hall none (262217 * 512) 2 ext16 ⟨0, 0, 0, 0⟩ d (by decide) hd hx
  unfold Geometry.FatHolds at h
  rw [e.1, e.2.1, e.2.2.2.2.1, e.2.2.2.2.2] at h
  exact absurd h (by decide)

end Vdf
