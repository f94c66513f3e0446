import Vdf.GeometryExact

/-!
# Drives of any size

`vdf_drive_create` takes the file system and the cluster size from tables of sizes, before it knows
how many sectors the FATs take, and checks the number of clusters afterwards. A table that has a
power of two clusters in mind gives too many of them in the last sectors before its next entry,
unless the FATs take the surplus (`rejectedSectors`). -/

namespace Vdf

open Word

/-- `vdf_drive_create`. -/
def vdfDriveCreate (size flags : Nat) (junk : Uninit) : Option VdfDrive :=
  createdriveExt none size flags driveextAuto junk

/-- The size at which `createdrive_ext` gives up. -/
def autoLimit (no32 : Bool) : Nat := if no32 then gib 16 else tib 2

/-- The sector counts for which the tables choose too many clusters, and the one to which the last
sizes below the limit are rounded up. -/
def rejectedSectors (no32 align : Bool) : List (Nat × Nat) :=
  match no32, align with
  | false, false => [(32737, 32767), (4294967296, 4294967296)]
  | false, true => [(32752, 32767), (4294967296, 4294967296)]
  | true, false => [(32737, 32767), (4194145, 4194303), (8387745, 8388607), (16774945, 16777215),
      (33549345, 33554432)]
  | true, true => [(32752, 32767), (4194240, 4194303), (8387968, 8388607), (16775424, 16777215),
      (33550848, 33554432)]

/-- A sector count is not one of the rejected ones. -/
abbrev SectorsServed (no32 align : Bool) (sectors : Nat) : Prop :=
  ∀ b ∈ rejectedSectors no32 align, ¬ (b.1 ≤ sectors ∧ sectors ≤ b.2)

/-! ## The tables -/

theorem findSpc_cons (r : ClusterSizeRange) (l : List ClusterSizeRange) (size bps : Nat) :
    findSpc (r :: l) size bps = if r.maxSize = 0 ∨ size < r.maxSize then
      (if r.clusterSize ≤ bps then 1 else r.clusterSize / bps) else findSpc l size bps := by
  unfold findSpc
  rw [List.find?_cons]
  by_cases h : r.maxSize = 0 ∨ size < r.maxSize
  · rw [if_pos h, show (r.maxSize == 0 || decide (size < r.maxSize)) = true by simpa using h]
  · rw [if_neg h, show (r.maxSize == 0 || decide (size < r.maxSize)) = false by
      simpa [not_or] using h]

theorem findSpc_fat12 (size : Nat) : findSpc fat12ClusterRanges size 512 =
    if size < 15728640 then 16 else 8 := by
  simp only [fat12ClusterRanges, findSpc_cons, mib, kib, true_or, ↓reduceIte, Nat.reduceMul,
    Nat.reduceLeDiff, Nat.reduceDiv, OfNat.ofNat_ne_zero, false_or]

theorem findSpc_fat16 (size : Nat) : findSpc fat16ClusterRanges size 512 =
    if size < 16777216 then 8 else if size < 134217728 then 4 else if size < 268435456 then 8
    else if size < 536870912 then 16 else if size < 1073741824 then 32
    else if size < 2147483648 then 64 else if size < 4294967296 then 128
    else if size < 8589934592 then 256 else 512 := by
  simp only [fat16ClusterRanges, findSpc_cons, mib, gib, kib, true_or, ↓reduceIte, Nat.reduceMul,
    Nat.reduceLeDiff, Nat.reduceDiv, OfNat.ofNat_ne_zero, false_or]

theorem findSpc_fat32 (size : Nat) : findSpc fat32ClusterRanges size 512 =
    if size < 272629760 then 1 else if size < 8589934592 then 8
    else if size < 17179869184 then 16 else if size < 34359738368 then 32 else 64 := by
  simp only [fat32ClusterRanges, findSpc_cons, mib, gib, kib, true_or, ↓reduceIte, Nat.reduceMul,
    Nat.reduceLeDiff, Nat.reduceDiv, OfNat.ofNat_ne_zero, false_or, Nat.le_refl]

/-! ## The number of clusters -/

/-- The sectors of a FAT of so many bytes. -/
def fatSectorsOf (align : Bool) (spc bytes : Nat) : Nat :=
  let s := (bytes + 511) / 512
  if align then (s + (spc - 1)) / spc * spc else s

/-- The sectors in front of the data area but for the FATs. -/
def startSectors (align : Bool) (spc : Nat) : Nat :=
  if align then spc + (32 + (spc - 1)) / spc * spc else 33

def startSectors32 (align : Bool) (spc : Nat) : Nat := if align then (32 + spc) / spc * spc else 32

/-- One case of the `switch`, where the drive has room for the FATs. -/
theorem planFat_clusters (align : Bool) {spc n f1 root start : Nat} {fatBytes : Nat → Nat}
    (hs : spc ∈ clusterSectors) (hn : n < 2 ^ 32) (hstart : f1 + root = start)
    (hbytes : fatBytes ((n - start) / spc) < 2 ^ 31)
    (hfit : start + 2 * fatSectorsOf align spc (fatBytes ((n - start) / spc)) ≤ n) :
    (planFat align 512 spc n f1 root fatBytes).clusters =
      (n - (start + 2 * fatSectorsOf align spc (fatBytes ((n - start) / spc)))) / spc := by
  obtain ⟨k, hk, hpow⟩ := clusterSectors_pow hs
  have hspc := clusterSectors_le hs
  rw [planFat]
  dsimp only
  have hsum : u32 (f1 + root) = start := by rw [hstart, u32_of_lt (by omega)]
  have hrest : subU32 n start = n - start := subU32_of_le hn (by omega)
  rw [hsum, hrest]
  generalize (n - start) / spc = c at hbytes hfit ⊢
  have hfat : (if align = true then alignUp (u32 (fatBytes c + (512 - 1)) / 512) spc
      else u32 (fatBytes c + (512 - 1)) / 512) = fatSectorsOf align spc (fatBytes c) := by
    rw [u32_of_lt (by omega)]
    unfold fatSectorsOf
    dsimp only
    cases align with
    | false => rfl
    | true => rw [if_pos rfl, if_pos rfl, alignUp_eq hpow (by omega) (by omega)]
  have hsectors : u32 (fatSectorsOf align spc (fatBytes c) * 2) =
      2 * fatSectorsOf align spc (fatBytes c) := by
    rw [Nat.mul_comm]
    exact u32_of_lt (by omega)
  rw [hfat, hsectors, u32_of_lt (by omega), subU32_of_le hn (by omega)]

/-- The root directory of 512 entries. -/
theorem rootDirSectors_auto (align : Bool) {spc : Nat} (hs : spc ∈ clusterSectors) :
    (if align then spc else 1) + rootDirSectors align 512 spc 512 = startSectors align spc := by
  obtain ⟨k, hk, hpow⟩ := clusterSectors_pow hs
  have hspc := clusterSectors_le hs
  have hroot : u32 (ofInt (512 * 32) + (512 - 1)) / 512 = 32 := by decide
  unfold rootDirSectors startSectors
  rw [hroot]
  cases align with
  | false => rfl
  | true =>
    dsimp only
    rw [if_pos rfl, if_pos rfl, if_pos rfl, alignUp_eq hpow (by omega) (by omega)]

theorem fatSectorsOf_le (align : Bool) (spc bytes : Nat) :
    fatSectorsOf align spc bytes ≤ (bytes + 511) / 512 + (spc - 1) := by
  unfold fatSectorsOf
  dsimp only
  split
  · exact Nat.div_mul_le_self _ _
  · exact Nat.le_add_right _ _

theorem startSectors_le (align : Bool) (spc : Nat) :
    startSectors align spc ≤ 33 + 2 * spc := by
  unfold startSectors
  split
  · have := Nat.div_mul_le_self (32 + (spc - 1)) spc
    omega
  · omega

/-- FAT12, in the small clusters of the tables. -/
theorem planFat12_auto (align : Bool) {spc n : Nat} (hs : spc ∈ clusterSectors) (hle : spc ≤ 16)
    (hlo : 2048 ≤ n) (hn : n < 2 ^ 20) : (planFat12 align 512 spc n 512).clusters =
      (n - (startSectors align spc + 2 * fatSectorsOf align spc
        ((n - startSectors align spc) / spc * 3 / 2 + 1))) / spc := by
  have hstart := startSectors_le align spc
  have hc : (n - startSectors align spc) / spc ≤ n :=
    Nat.le_trans (Nat.div_le_self _ _) (Nat.sub_le _ _)
  have hbytes : u32 (u32 ((n - startSectors align spc) / spc * 3) / 2 + 1) =
      (n - startSectors align spc) / spc * 3 / 2 + 1 := by
    rw [u32_of_lt (n := _ * 3) (by omega), u32_of_lt (by omega)]
  have hfat := fatSectorsOf_le align spc ((n - startSectors align spc) / spc * 3 / 2 + 1)
  rw [planFat12, planFat_clusters align hs (by omega) (rootDirSectors_auto align hs)
    (by rw [hbytes]; omega) (by rw [hbytes]; omega), hbytes]

theorem planFat16_auto (align : Bool) {spc n : Nat} (hs : spc ∈ clusterSectors)
    (hlo : 32768 ≤ n) (hn : n < 2 ^ 26) : (planFat16 align 512 spc n 512).clusters =
      (n - (startSectors align spc + 2 * fatSectorsOf align spc
        ((n - startSectors align spc) / spc * 2))) / spc := by
  have hspc := clusterSectors_le hs
  have hstart := startSectors_le align spc
  have hc : (n - startSectors align spc) / spc ≤ n :=
    Nat.le_trans (Nat.div_le_self _ _) (Nat.sub_le _ _)
  have hbytes : u32 ((n - startSectors align spc) / spc * 2) =
      (n - startSectors align spc) / spc * 2 := u32_of_lt (by omega)
  have hfat := fatSectorsOf_le align spc ((n - startSectors align spc) / spc * 2)
  rw [planFat16, planFat_clusters align hs (by omega) (rootDirSectors_auto align hs)
    (by rw [hbytes]; omega) (by rw [hbytes]; omega), hbytes]

theorem planFat32_auto (align : Bool) {spc n : Nat} (hs : spc ∈ clusterSectors) (h8 : 8 ≤ spc)
    (hlo : 32768 ≤ n) (hn : n < 2 ^ 32) : (planFat32 align 512 spc n).clusters =
      (n - (startSectors32 align spc + 2 * fatSectorsOf align spc
        ((n - startSectors32 align spc) / spc * 4))) / spc := by
  obtain ⟨k, hk, hpow⟩ := clusterSectors_pow hs
  have hspc := clusterSectors_le hs
  have hf1 : (if align then maskDown 32 (u32 (32 + spc)) spc else 32) + 0 =
      startSectors32 align spc := by
    unfold startSectors32
    cases align with
    | false => rfl
    | true =>
      rw [if_pos rfl, if_pos rfl, Nat.add_zero, u32_of_lt (by omega),
        maskDown_eq hpow (by omega) (by omega)]
  have hstart : startSectors32 align spc ≤ 32 + spc := by
    unfold startSectors32
    split
    · exact Nat.div_mul_le_self _ _
    · omega
  have hc : (n - startSectors32 align spc) / spc ≤ n / 8 :=
    Nat.le_trans (Nat.div_le_div_right (Nat.sub_le _ _)) (Nat.div_le_div_left h8 (by decide))
  have hbytes : u32 ((n - startSectors32 align spc) / spc * 4) =
      (n - startSectors32 align spc) / spc * 4 := u32_of_lt (by omega)
  have hfat := fatSectorsOf_le align spc ((n - startSectors32 align spc) / spc * 4)
  rw [planFat32, planFat_clusters align hs hn hf1 (by rw [hbytes]; omega) (by rw [hbytes]; omega),
    hbytes]

/-! ## The checks on the number of clusters -/

theorem fat12_accepted (align : Bool) {n : Nat} (hlo : 2048 ≤ n) (hhi : n < 32768) :
    (planFat12 align 512 (findSpc fat12ClusterRanges (n * 512) 512) n 512).clusters ≤ 4084 ↔
      n < if align then 32752 else 32737 := by
  rw [findSpc_fat12]
  split
  · rw [planFat12_auto align (by decide) (by decide) hlo (by omega)]
    cases align <;> simp only [fatSectorsOf, startSectors, Bool.false_eq_true, ↓reduceIte] <;> omega
  · rw [planFat12_auto align (by decide) (by decide) hlo (by omega)]
    cases align
    · simp only [fatSectorsOf, startSectors, Bool.false_eq_true, ↓reduceIte]
      omega
    · have hfat : fatSectorsOf true 8 ((n - 40) / 8 * 3 / 2 + 1) = 16 := by
        simp only [fatSectorsOf, ↓reduceIte]
        omega
      simp only [startSectors, ↓reduceIte, Nat.reduceAdd, Nat.reduceSub, Nat.reduceDiv,
        Nat.reduceMul, hfat]
      omega

/-- The rejected sector counts of a FAT16 drive. -/
def rejectedSectors16 (align : Bool) : List (Nat × Nat) :=
  if align then [(4194240, 4194303), (8387968, 8388607), (16775424, 16777215), (33550848, 33554432)]
  else [(4194145, 4194303), (8387745, 8388607), (16774945, 16777215), (33549345, 33554432)]

theorem fat16_accepted (align : Bool) {n : Nat} (hlo : 32768 ≤ n) (hhi : n ≤ 33554432) :
    (4085 ≤ (planFat16 align 512 (findSpc fat16ClusterRanges (n * 512) 512) n 512).clusters ∧
      (planFat16 align 512 (findSpc fat16ClusterRanges (n * 512) 512) n 512).clusters ≤ 65524) ↔
      ∀ b ∈ rejectedSectors16 align, ¬ (b.1 ≤ n ∧ n ≤ b.2) := by
  rw [findSpc_fat16]
  split_ifs <;> rw [planFat16_auto align (by decide) hlo (by omega)] <;> cases align <;>
    simp only [fatSectorsOf, startSectors, rejectedSectors16, Bool.false_eq_true, ↓reduceIte,
      List.forall_mem_cons, List.not_mem_nil, false_imp_iff, implies_true, and_true] <;> omega

theorem fat32_accepted (align : Bool) {n : Nat} (hlo : 532480 ≤ n) (hhi : n < 2 ^ 32) :
    65525 ≤ (planFat32 align 512 (findSpc fat32ClusterRanges (n * 512) 512) n).clusters ∧
      (planFat32 align 512 (findSpc fat32ClusterRanges (n * 512) 512) n).clusters ≤ 268435437 := by
  rw [findSpc_fat32, if_neg (by omega)]
  split_ifs <;> rw [planFat32_auto align (by decide) (by decide) (by omega) hhi] <;> cases align <;>
    simp only [fatSectorsOf, startSectors32, Bool.false_eq_true, ↓reduceIte] <;> omega

/-! ## The choice -/

/-- An automatic drive is created where the check of its file system accepts the clusters. -/
theorem vdfDriveCreate_isSome {size flags : Nat} (junk : Uninit) {n : Nat}
    (hround : roundSize size 512 = n * 512) {fsys : Filesys}
    (hfsys : chooseFsysAuto (flags &&& vdfFsMask) (n * 512) = some fsys) :
    (vdfDriveCreate size flags junk).isSome = true ↔
      clustersAccepted fsys (hasFlag flags vdfFailWarn) (planSwitch fsys flags 512
        (chooseSpcAuto fsys (n * 512) 512) (u32 n)
        (u32 (n * 512 / (512 * chooseSpcAuto fsys (n * 512) 512))) 512 junk).clusters = true := by
  have hbps : chooseBps driveextAuto = some 512 := rfl
  have hroot : hasFlag driveextAuto.flags vdeAutoRootent = true := rfl
  have hspc : hasFlag driveextAuto.flags vdeAutoSpc = true := rfl
  rw [vdfDriveCreate, createdriveExt, Option.isSome_map]
  simp only [createdriveGeometry, hbps, hroot, hround, chooseFsysSpc, hspc, hfsys, ↓reduceIte,
    Option.map_some, Option.bind_eq_bind, Option.bind_some, planDrive,
    Nat.mul_div_cancel _ (show 0 < 512 by decide)]
  split
  · rename_i h
    exact iff_of_true rfl h
  · rename_i h
    exact iff_of_false (by simp) h

/-- Nothing is created where no file system is chosen. -/
theorem vdfDriveCreate_none {size flags : Nat} (junk : Uninit) {n : Nat}
    (hround : roundSize size 512 = n * 512)
    (hfsys : chooseFsysAuto (flags &&& vdfFsMask) (n * 512) = none) :
    vdfDriveCreate size flags junk = none := by
  have hbps : chooseBps driveextAuto = some 512 := rfl
  have hspc : hasFlag driveextAuto.flags vdeAutoSpc = true := rfl
  rw [vdfDriveCreate, createdriveExt]
  simp only [createdriveGeometry, hbps, hround, chooseFsysSpc, hspc, hfsys, ↓reduceIte,
    Option.map_none, Option.bind_eq_bind, Option.bind_some, Option.bind_none]

/-- The file system of an automatic drive. -/
theorem chooseFsysAuto_eq (no32 : Bool) (size : Nat) :
    chooseFsysAuto (if no32 then vdfFatAutoNo32 else vdfFatAuto) size =
      if size < 16777216 then some .fat12
      else if 272629760 ≤ size ∧ size < 2199023255552 ∧ no32 = false then some .fat32
      else if size < 17179869184 then some .fat16 else none := by
  have hmib : mib 16 = 16777216 ∧ mib 260 = 272629760 := ⟨rfl, rfl⟩
  have hgib : gib 16 = 17179869184 ∧ tib 2 = 2199023255552 := ⟨rfl, rfl⟩
  unfold chooseFsysAuto
  rw [hmib.1, hmib.2, hgib.1, hgib.2]
  cases no32 <;> simp [vdfFatAuto, vdfFatAutoNo32]

theorem roundSize_auto {size : Nat} (h : size < 2 ^ 41) :
    roundSize size 512 = sectorCount size 512 * 512 := by
  have hsum : u64 (size + (512 - 1)) = size + 511 := Nat.mod_eq_of_lt (by omega)
  rw [roundSize, hsum, maskDown_eq (show 512 = 2 ^ 9 from rfl) (by decide) (by omega),
    sectorCount]

theorem clustersAccepted_fat12 (failWarn : Bool) (c : Nat) :
    clustersAccepted .fat12 failWarn c = true ↔ c ≤ 4084 := by simp [clustersAccepted]

theorem clustersAccepted_fat16 (c : Nat) :
    clustersAccepted .fat16 false c = true ↔ 4085 ≤ c ∧ c ≤ 65524 := by simp [clustersAccepted]

theorem clustersAccepted_fat32 (c : Nat) :
    clustersAccepted .fat32 false c = true ↔ 65525 ≤ c ∧ c ≤ 268435437 := by simp [clustersAccepted]

theorem createdFat12_iff (size flags : Nat) (junk : Uninit) {n : Nat}
    (hround : roundSize size 512 = n * 512)
    (hfsys : chooseFsysAuto (flags &&& vdfFsMask) (n * 512) = some .fat12) (hlo : 2048 ≤ n)
    (hhi : n < 32768) : (vdfDriveCreate size flags junk).isSome = true ↔
      n < if hasFlag flags vdfAlignCluster then 32752 else 32737 := by
  rw [vdfDriveCreate_isSome junk hround hfsys, u32_of_lt (by omega), clustersAccepted_fat12]
  exact fat12_accepted (hasFlag flags vdfAlignCluster) hlo hhi

theorem createdFat16_iff (size flags : Nat) (junk : Uninit) {n : Nat}
    (hround : roundSize size 512 = n * 512) (hwarn : hasFlag flags vdfFailWarn = false)
    (hfsys : chooseFsysAuto (flags &&& vdfFsMask) (n * 512) = some .fat16) (hlo : 32768 ≤ n)
    (hhi : n ≤ 33554432) : (vdfDriveCreate size flags junk).isSome = true ↔
      ∀ b ∈ rejectedSectors16 (hasFlag flags vdfAlignCluster), ¬ (b.1 ≤ n ∧ n ≤ b.2) := by
  rw [vdfDriveCreate_isSome junk hround hfsys, u32_of_lt (by omega), hwarn,
    clustersAccepted_fat16]
  exact fat16_accepted (hasFlag flags vdfAlignCluster) hlo hhi

theorem createdFat32 (size flags : Nat) (junk : Uninit) {n : Nat}
    (hround : roundSize size 512 = n * 512) (hwarn : hasFlag flags vdfFailWarn = false)
    (hfsys : chooseFsysAuto (flags &&& vdfFsMask) (n * 512) = some .fat32) (hlo : 532480 ≤ n)
    (hhi : n < 2 ^ 32) : (vdfDriveCreate size flags junk).isSome = true := by
  rw [vdfDriveCreate_isSome junk hround hfsys, u32_of_lt hhi, hwarn, clustersAccepted_fat32]
  exact fat32_accepted (hasFlag flags vdfAlignCluster) hlo hhi

/-- An automatic drive of a size below the limit is created exactly where its sectors are none of
the rejected counts. -/
theorem vdfDriveCreate_iff (size flags : Nat) (junk : Uninit) (no32 : Bool)
    (hfs : flags &&& vdfFsMask = if no32 then vdfFatAutoNo32 else vdfFatAuto)
    (hwarn : hasFlag flags vdfFailWarn = false) (hlo : mib 1 ≤ size) (hhi : size < autoLimit no32) :
    (vdfDriveCreate size flags junk).isSome = true ↔
      SectorsServed no32 (hasFlag flags vdfAlignCluster) (sectorCount size 512) := by
  have hmib : 1048576 ≤ size := hlo
  have hlimit : size < if no32 then 17179869184 else 2199023255552 := by
    cases no32 <;> exact hhi
  have hround : roundSize size 512 = sectorCount size 512 * 512 :=
    roundSize_auto (by
      cases no32 <;> simp only [Bool.false_eq_true, ↓reduceIte] at hlimit <;> omega)
  have hn : 2048 ≤ sectorCount size 512 := by
    unfold sectorCount
    omega
  have hmax : sectorCount size 512 ≤ if no32 then 33554432 else 4294967296 := by
    unfold sectorCount
    cases no32 <;> simp only [Bool.false_eq_true, ↓reduceIte] at hlimit ⊢ <;> omega
  have hfsys : chooseFsysAuto (flags &&& vdfFsMask) (sectorCount size 512 * 512) = _ :=
    hfs ▸ chooseFsysAuto_eq no32 (sectorCount size 512 * 512)
  generalize sectorCount size 512 = n at hround hn hmax hfsys ⊢
  by_cases h12 : n < 32768
  · rw [if_pos (by omega)] at hfsys
    rw [createdFat12_iff size flags junk hround hfsys hn h12]
    cases no32 <;> cases hasFlag flags vdfAlignCluster <;>
      simp only [SectorsServed, rejectedSectors, Bool.false_eq_true, ↓reduceIte,
        List.forall_mem_cons, List.not_mem_nil, false_imp_iff, implies_true, and_true] <;> omega
  rw [if_neg (by omega)] at hfsys
  by_cases h32 : 532480 ≤ n ∧ n < 4294967296 ∧ no32 = false
  · obtain ⟨hfat32, htib, rfl⟩ := h32
    rw [if_pos ⟨by omega, by omega, rfl⟩] at hfsys
    refine iff_of_true (createdFat32 size flags junk hround hwarn hfsys hfat32 htib) ?_
    cases hasFlag flags vdfAlignCluster <;>
      simp only [SectorsServed, rejectedSectors, List.forall_mem_cons, List.not_mem_nil,
        false_imp_iff, implies_true, and_true] <;> omega
  rw [if_neg (fun h => h32 ⟨by omega, by omega, h.2.2⟩)] at hfsys
  by_cases h16 : n < 33554432
  · rw [if_pos (by omega)] at hfsys
    rw [createdFat16_iff size flags junk hround hwarn hfsys (by omega) (by omega)]
    cases no32 <;> cases hasFlag flags vdfAlignCluster <;>
      simp only [SectorsServed, rejectedSectors, rejectedSectors16, Bool.false_eq_true, ↓reduceIte,
        List.forall_mem_cons, List.not_mem_nil, false_imp_iff, implies_true, and_true]
        at hmax h32 ⊢ <;> omega
  · -- the last sizes below the limit are rounded up to it
    rw [if_neg (by omega)] at hfsys
    refine iff_of_false ?_ ?_
    · rw [vdfDriveCreate_none junk hround hfsys]
      exact nofun
    · cases no32 <;> cases hasFlag flags vdfAlignCluster <;>
      simp only [SectorsServed, rejectedSectors, Bool.false_eq_true, ↓reduceIte,
        List.forall_mem_cons, List.not_mem_nil, false_imp_iff, implies_true, and_true]
        at hmax h32 ⊢ <;> omega

/-- 20 MiB, FAT16. -/
theorem vdfDriveCreate_mib : (vdfDriveCreate (mib 20) vdfFatAuto ⟨0, 0, 0, 0⟩).isSome = true :=
  (vdfDriveCreate_iff (mib 20) vdfFatAuto ⟨0, 0, 0, 0⟩ false rfl rfl (by decide) (by decide)).2
    (by decide)

/-- 16 MiB but for a sector, and 2 GiB but for a sector without FAT32: FAT12 with 4088 clusters, and
FAT16 with 65527. -/
theorem vdfDriveCreate_rejected :
    (vdfDriveCreate (mib 16 - 512) vdfFatAuto ⟨0, 0, 0, 0⟩).isSome = false ∧
      (vdfDriveCreate (gib 2 - 512) vdfFatAutoNo32 ⟨0, 0, 0, 0⟩).isSome = false := by
  decide

end Vdf
