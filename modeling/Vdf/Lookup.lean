import Vdf.Lib.Fallible
import Vdf.BootParse
import Vdf.Cache
import Vdf.FatServed
import Vdf.Read
import Vdf.Sizes

/-!
# Lookups in `drv->ranges` over runs

The generators of the FAT and of the data area look up `drv->ranges` while an entry is below
`data_cluster_end` or a sector below `data_end`, and count the elements up to `file_cnt`. So a read
keeps to the array when it is asked for nothing that is laid out (`NothingLaid`), or when the array has
`file_cnt` elements (`Walkable`). On a clean drive it has `nonempty_file_cnt`.
-/

namespace Vdf

open Word Buffer

/-! ## Safe reads -/

/-- A request inside the drive, as `vdf_drive_sectors` counts it. -/
structure InDrive (d : VdfDrive) (sector cnt : Nat) : Prop where
  le : sector + cnt ≤ d.sectors + d.mbrSectors
  lt : sector < 2 ^ 32

/-- The drive whose array ends before the first range of a deleted file. -/
def VdfDrive.guard (d : VdfDrive) : VdfDrive :=
  { d with ranges := d.ranges.map fun rs => rs.takeWhile fun r => !(d.file r.file).deleted }

/-- No read looks outside the array, or at a range whose file has been deleted: the lookups go
through the array from its front. -/
structure SafeReads (d : VdfDrive) : Prop where
  inside : ∀ env sector cnt m p i, InDrive d sector cnt →
    vdfReadSectors env d sector cnt m p ≠ .error (.rangesIndex i)
  live : ∀ env sector cnt m p i, InDrive d sector cnt →
    vdfReadSectors env d.guard sector cnt m p ≠ .error (.rangesIndex i)

/-- The array has an element for each file that `file_cnt` counts. -/
def Walkable (d : VdfDrive) : Prop := ∀ i < d.fileCnt, ∃ r, rangeAt d i = .ok r

/-- Not an index outside the array. -/
def NoIndex (e : Fault) : Prop := ∀ i, e ≠ .rangesIndex i

/-! ## The lookups -/

section Lookups

variable {d : VdfDrive}

theorem findRangeLoop_ends (hw : Walkable d) (end_ : FileRange → Nat) (x k i : Nat)
    (hk : i + k ≤ d.fileCnt) :
    Ends (findRangeLoop d end_ x k i) (fun r => ∀ q ∈ r, q.2 < d.fileCnt) NoIndex := by
  induction k generalizing i with
  | zero => exact .ok (by simp)
  | succ k ih =>
    obtain ⟨r, hr⟩ := hw i (by omega)
    rw [findRangeLoop, hr]
    refine Ends.bind (P := fun _ => True) (.ok trivial) fun r _ => ?_
    split
    · exact .ok (by simpa using (by omega : i < d.fileCnt))
    · exact ih (i + 1) (by omega)

theorem findFileFatEntry_ends {ent : Nat} (h : Walkable d ∨ d.dataClusterEnd ≤ ent) :
    Ends (findFileFatEntry d ent) (fun r => ∀ q ∈ r, Walkable d ∧ q.2 < d.fileCnt) NoIndex := by
  unfold findFileFatEntry
  split
  · exact .ok (by simp)
  · have hw := h.resolve_right (by assumption)
    exact (findRangeLoop_ends hw _ _ _ _ (by omega)).mono fun r hr q hq => ⟨hw, hr q hq⟩

theorem fatNextFile_ends (hw : Walkable d) {i : Nat} (hi : i < d.fileCnt) :
    Ends (fatNextFile d i) (fun r => ∀ q ∈ r, q.2 < d.fileCnt) NoIndex := by
  unfold fatNextFile
  split
  · exact .ok (by simp)
  · have hi' : i + 1 < d.fileCnt := by omega
    obtain ⟨r, hr⟩ := hw (i + 1) hi'
    rw [hr]
    exact .ok (by simpa using hi')

theorem findFileSector_ends {sector : Nat} (h : Walkable d ∨ d.dataEnd ≤ sector) :
    Ends (findFileSector d sector) (fun r => r ≠ none → Walkable d) NoIndex := by
  unfold findFileSector
  split
  · exact .ok (by simp)
  · have hw := h.resolve_right (by assumption)
    exact (findRangeLoop_ends hw _ _ _ _ (by omega)).map fun _ _ _ => hw

end Lookups

/-! ## The generators -/

section Generators

variable {d : VdfDrive}

theorem finishFat_ends (scnt i buffer : Nat) (m : Buffer) :
    Ends (finishFat scnt i buffer m) (fun _ => True) NoIndex := by
  unfold finishFat
  dsimp only
  split_ifs
  · exact .ok trivial
  · exact .error fun _ => nofun
  · exact .ok trivial

theorem fatLoop_ends (hw : Walkable d) (w eoc scnt p fuel : Nat) (s : FatState)
    (hi : s.rangeInd < d.fileCnt) :
    Ends (fatLoop w eoc d scnt p fuel s) (fun _ => True) NoIndex := by
  induction fuel generalizing s with
  | zero => exact .ok trivial
  | succ fuel ih =>
    rw [fatLoop]
    generalize subU32 (d.file s.file).end_ 1 = last
    split
    · split
      · exact ih _ hi
      · refine (fatNextFile_ends hw hi).bind fun r hr => ?_
        split
        · exact .ok trivial
        · exact ih _ (hr _ rfl)
    · exact .ok trivial

theorem fat12Chain_rangeInd (scnt : Nat) (s : Fat12State) :
    (fat12Chain scnt s).rangeInd = s.rangeInd := by
  unfold fat12Chain
  dsimp only
  split_ifs <;> rfl

theorem fat12End_rangeInd (scnt : Nat) (s : Fat12State) :
    (fat12End scnt s).rangeInd = s.rangeInd := by
  unfold fat12End
  dsimp only
  split_ifs <;> rfl

theorem fat12Loop_ends (hw : Walkable d) (scnt fuel : Nat) (s : Fat12State)
    (hi : s.rangeInd < d.fileCnt) :
    Ends (fat12Loop d scnt fuel s) (fun _ => True) NoIndex := by
  induction fuel generalizing s with
  | zero => exact .ok trivial
  | succ fuel ih =>
    rw [fat12Loop]
    generalize subU32 (d.file s.file).end_ 1 = last
    split
    · split
      · exact ih _ (by simpa only [fat12Chain_rangeInd] using hi)
      · refine (fatNextFile_ends hw (i := (fat12End scnt s).rangeInd)
          (by simpa only [fat12End_rangeInd] using hi)).bind fun r hr => ?_
        split
        · split <;> exact .ok trivial
        · exact ih _ (hr _ rfl)
    · exact .ok trivial

theorem readSectorFatWide_ends {w sector scnt : Nat} (hreq : FatRequest w d sector scnt)
    (h : Walkable d ∨ d.dataClusterEnd ≤ 2) (media eoc : Nat) (m : Buffer) (p : Nat) :
    Ends (readSectorFatWide w media eoc d sector scnt m p) (fun _ => True) NoIndex := by
  obtain ⟨T, hT⟩ : ∃ T : Nat → Nat, sector = 0 → T 0 = media ∧ T 1 = eoc :=
    ⟨fun c => if c = 0 then media else eoc, fun _ => ⟨rfl, rfl⟩⟩
  obtain ⟨i, m₁, e, -⟩ := hreq.start (m := m) (p := p) hT
  unfold readSectorFatWide
  simp only [e]
  refine (findFileFatEntry_ends (h.imp_right fun hd => hd.trans (two_le_firstEntry hreq))).bind
    fun r hr => ?_
  cases r with
  | none => exact finishFat_ends _ _ _ _
  | some q =>
    obtain ⟨hw, hi⟩ := hr q rfl
    exact (fatLoop_ends hw _ _ _ _ _ _ hi).bind fun _ _ => finishFat_ends _ _ _ _

theorem readSectorFat12_ends {sector scnt : Nat} (h : Walkable d ∨ d.dataClusterEnd ≤ 2)
    (hb : 512 ≤ d.bps) (hlt : (sector + scnt) * d.bps < 2 ^ 31) (m : Buffer) (p : Nat) :
    Ends (readSectorFat12 d sector scnt m p) (fun _ => True) NoIndex := by
  -- From an entry on, whatever the bytes in front of it.
  have key (scnt i ent : Nat) (halfent : Bool) (m : Buffer)
      (k : Option (FileId × Nat) → Except Fault Buffer) (htwo : 2 ≤ ent)
      (hnone : k none = finishFat scnt i (p + i) m)
      (hsome : ∀ q, k (some q) = (fat12Loop d scnt scnt
        { i, buffer := p + i, ent, clust := u32 (ent + 1), halfent, file := q.1, rangeInd := q.2
          m }).bind fun x => finishFat scnt x.1 x.2.1 x.2.2) :
      Ends ((findFileFatEntry d ent).bind k) (fun _ => True) NoIndex := by
    refine (findFileFatEntry_ends (h.imp_right fun hd => hd.trans htwo)).bind fun r hr => ?_
    cases r with
    | none => exact hnone ▸ finishFat_ends _ _ _ _
    | some q =>
      obtain ⟨hw, hi⟩ := hr q rfl
      rw [hsome]
      exact (fat12Loop_ends hw _ _ _ hi).bind fun _ _ => finishFat_ends _ _ _ _
  unfold readSectorFat12
  by_cases h0 : sector = 0
  · simp only [h0, ↓reduceIte]
    exact key _ _ _ _ _ _ (Nat.le_refl 2) rfl fun _ => rfl
  · simp only [h0, ↓reduceIte]
    refine key _ _ _ _ _ _ ?_ rfl fun _ => rfl
    rw [Nat.add_mul] at hlt
    have h1 : 1 * d.bps ≤ sector * d.bps := Nat.mul_le_mul_right _ (by omega)
    have h2 : sector * 1 ≤ sector * d.bps := Nat.mul_le_mul_left _ (by omega)
    have h3 : sector * 2 * d.bps = 2 * (sector * d.bps) := by
      rw [Nat.mul_comm sector 2, Nat.mul_assoc]
    rw [u32_of_lt (by omega : sector * 2 < 2 ^ 32), h3, u32_of_lt (by omega)]
    omega

/-- `read_sector_fat` looks up entries from 2 on. -/
theorem readSectorFat_ends (hk : d.toGeometry.Known) (h : Walkable d ∨ d.dataClusterEnd ≤ 2)
    {sector scnt : Nat} (hpos : 0 < scnt) (hle : sector + scnt ≤ d.fatSectors) (m : Buffer)
    (p : Nat) : Ends (readSectorFat d sector scnt m p) (fun _ => True) NoIndex := by
  cases hf : d.filesys with
  | unset => exact absurd hf hk.filesys
  | fat12 =>
    have hlt : (sector + scnt) * d.bps < 2 ^ 31 :=
      Nat.lt_of_le_of_lt (Nat.mul_le_mul_right _ hle) hk.fatBytes
    rw [readSectorFat, hf]
    exact readSectorFat12_ends h (sectorSizes_le hk.bps).1 hlt m p
  | fat16 =>
    rw [readSectorFat_wide (.inl hf)]
    exact readSectorFatWide_ends (.of_known hk (.inl hf) hpos hle) h _ _ m p
  | fat32 =>
    rw [readSectorFat_wide (.inr hf)]
    exact readSectorFatWide_ends (.of_known hk (.inr hf) hpos hle) h _ _ m p

theorem readSectorDir_ends (sector scnt : Nat) (m : Buffer) (p : Nat) (dir : FileId) :
    Ends (readSectorDir d sector scnt m p dir) (fun _ => True) NoIndex := by
  have key (s : DirState) : Ends (if s.mx = 0 then .ok s.m
      else if s.mx < 0 then .error .memsetLength
      else .ok (s.m.fill s.buffer (s.mx.toNat * 32) 0)) (fun _ => True) NoIndex := by
    split_ifs
    · exact .ok trivial
    · exact .error fun _ => nofun
    · exact .ok trivial
  exact key _

theorem readSectorBoot_ends (sector scnt : Nat) (m : Buffer) (p : Nat) :
    Ends (readSectorBoot d sector scnt m p) (fun _ => True) NoIndex := by
  induction scnt generalizing sector m p with
  | zero => exact .ok trivial
  | succ scnt ih =>
    refine Ends.bind (P := fun _ => True) ?_ fun m _ => ih _ m _
    unfold bootSector
    split_ifs
    · exact .ok trivial
    · exact .ok trivial
    · refine Ends.map (P := fun _ => True) ?_ fun _ _ => trivial
      unfold bootRecord
      split
      · exact .ok trivial
      · exact .error fun _ => nofun

theorem dataFile_ends (env : Readers) (f : FileId) (s : DataState) :
    Ends (dataFile env d f s) (fun _ => True) NoIndex := by
  unfold dataFile
  dsimp only
  split
  · exact (readSectorDir_ends _ _ _ _ _).bind fun _ _ => .ok trivial
  · split
    · exact .ok trivial
    · split <;> exact .ok trivial

theorem dataLoop_ends (env : Readers) (fuel : Nat) (s : DataState)
    (h : Walkable d ∨ d.dataEnd ≤ s.sector) :
    Ends (dataLoop env d fuel s) (fun _ => True) NoIndex := by
  induction fuel generalizing s with
  | zero =>
    unfold dataLoop
    split
    · exact .ok trivial
    · exact .error fun _ => nofun
  | succ fuel ih =>
    unfold dataLoop
    split
    · exact .ok trivial
    · refine Ends.bind (P := fun q => q.1 = none → Walkable d) ?_ fun q hq => ?_
      · unfold dataStep
        refine (findFileSector_ends h).bind fun r hr => ?_
        split
        · exact .ok nofun
        · exact (dataFile_ends env _ s).mono fun _ _ _ => hr nofun
      · split
        · exact .ok trivial
        · exact ih _ (.inl (hq rfl))

end Generators

/-! ## `vdf_read_sectors` -/

section Read

variable {d : VdfDrive}

/-- A region serves sectors before its bound, and what is left starts there. -/
theorem readRegion_ends {bps bound n : Nat} (hb : bound < 2 ^ 32)
    {gen : Nat → Nat → Buffer → Nat → Except Fault Buffer} {s : ReadState}
    (hs : s.rem = 0 ∨ s.sector + s.rem ≤ n)
    (hgen : ∀ want, s.rem ≠ 0 → 0 < want → s.sector + want ≤ bound → s.sector + want ≤ n →
      Ends (gen s.sector want s.m s.buff) (fun _ => True) NoIndex) :
    Ends (readRegion bps bound gen s)
      (fun s' => s'.rem = 0 ∨ bound ≤ s'.sector ∧ s'.sector ≤ max s.sector bound ∧
        s'.sector + s'.rem ≤ n)
      NoIndex := by
  unfold readRegion
  split
  · rename_i h
    exact .ok (by show s.rem = 0 ∨ _; omega)
  · rename_i h
    have hrem : s.rem ≠ 0 := fun e => h (.inl e)
    have hsec : s.sector < bound := by omega
    dsimp only
    split
    · refine (hgen _ hrem (by omega) (by omega) (by omega)).bind fun m _ => ?_
      refine .ok (.inr ?_)
      dsimp only
      rw [Nat.add_sub_cancel' (by omega : s.sector ≤ bound), u32_of_lt hb]
      omega
    · refine (hgen _ hrem (by omega) (by omega) (by omega)).bind fun m _ => ?_
      exact .ok (.inl (Nat.sub_self _))

/-- Without `VDF_MBR` nothing is in front of the file system. -/
theorem Geometry.Created.mbrSectors {g : Geometry} (h : g.Created)
    (hf : hasFlag g.flags vdfMbr = false) : g.mbrSectors = 0 := by
  obtain ⟨size, flags, ext, junk, h⟩ := h
  obtain ⟨p, -, -, -, e⟩ := createdriveGeometry_cases h
  rw [congrArg Geometry.flags e] at hf
  rw [congrArg Geometry.mbrSectors e]
  simp only [hf, Bool.false_eq_true, ↓reduceIte]

/-- With `VDF_MBR` the master boot record is. -/
theorem Geometry.Created.mbrSectors_pos {g : Geometry} (h : g.Created)
    (hf : hasFlag g.flags vdfMbr = true) : 0 < g.mbrSectors := by
  have hspc := (clusterSectors_le h.spc).1
  obtain ⟨size, flags, ext, junk, h⟩ := h
  obtain ⟨p, -, -, -, e⟩ := createdriveGeometry_cases h
  rw [congrArg Geometry.flags e] at hf
  rw [congrArg Geometry.mbrSectors e]
  dsimp only at hf ⊢
  rw [if_pos hf]
  split <;> omega

/-- Behind the master boot record sectors are counted up to `sectors`. -/
theorem readMbr_ends (hg : d.toGeometry.Created) (hk : d.toGeometry.Known) {s : ReadState}
    (hrem : s.rem ≠ 0) (hs : s.sector + s.rem ≤ d.sectors + d.mbrSectors) (hlt : s.sector < 2 ^ 32) :
    Ends (readMbr d s) (fun s => s.rem = 0 ∨ s.sector + s.rem ≤ d.sectors) NoIndex := by
  have hmbr : d.mbrSectors < 2 ^ 32 := by
    have := hk.mbr
    have := (clusterSectors_le hk.spc).2
    omega
  unfold readMbr
  split
  · generalize hs₁ : (if s.sector = 0 then _ else s) = s₁
    have h₁ : s₁.sector + s₁.rem ≤ d.sectors + d.mbrSectors ∧ s₁.sector < 2 ^ 32 := by
      subst hs₁
      split
      · dsimp only
        omega
      · exact ⟨hs, hlt⟩
    refine (readRegion_ends hmbr (.inr h₁.1) ?_).bind fun s₂ h₂ => .ok ?_
    · exact fun _ _ _ _ _ => .ok trivial
    dsimp only
    rcases h₂ with h | ⟨h, hle, h'⟩
    · exact .inl h
    · right
      rw [subU32_of_le (by omega) h]
      omega
  · rename_i hf
    have := hg.mbrSectors (by simpa using hf)
    exact .ok (.inr (by omega))

theorem fatEnd_eq (hk : d.toGeometry.Known) : fatEnd d = d.fat2Start + d.fatSectors := by
  unfold fatEnd
  split
  · rename_i hf
    rw [hk.dataStart, hk.root32 hf, hk.rootStart]
    rfl
  · exact hk.rootStart

/-- The requests for a FAT are inside it. -/
theorem readFat_ends (hk : d.toGeometry.Known)
    (h : Walkable d ∨ d.dataClusterEnd ≤ 2 ∨ d.sectors ≤ d.fat1Start) {start : Nat}
    (hstart : start = d.fat1Start ∨ start = d.fat2Start) {s : ReadState}
    (hs : s.rem = 0 ∨ start ≤ s.sector ∧ s.sector + s.rem ≤ d.sectors) :
    Ends (readRegion d.bps (start + d.fatSectors)
        (fun sector want m p => readSectorFat d (subU32 sector start) want m p) s)
      (fun s' => s'.rem = 0 ∨ start + d.fatSectors ≤ s'.sector ∧ s'.sector + s'.rem ≤ d.sectors)
      NoIndex := by
  have h1 := hk.fat1_le
  have h2 := hk.fat2
  have h3 := hk.fatSectors
  have hlt := hk.sectors
  refine (readRegion_ends (n := d.sectors) (by omega) (hs.imp_right And.right)
    fun want hrem hpos hle hle' => ?_).mono fun s' hs' => by omega
  have hsec : start ≤ s.sector := (hs.resolve_left hrem).1
  rw [subU32_of_le (by omega) hsec]
  refine readSectorFat_ends hk (h.imp_right fun h => ?_) hpos (by omega) _ _
  exact h.resolve_right (by omega)

theorem readSystem_ends (hk : d.toGeometry.Known)
    (h : Walkable d ∨ d.dataClusterEnd ≤ 2 ∨ d.sectors ≤ d.fat1Start) {s : ReadState}
    (hs : s.rem = 0 ∨ s.sector + s.rem ≤ d.sectors) :
    Ends (readSystem d s)
      (fun s' => s'.rem = 0 ∨ d.dataStart ≤ s'.sector ∧ s'.sector + s'.rem ≤ d.sectors) NoIndex := by
  have h1 := hk.fat1_le
  have h2 := hk.fat2
  have h3 := hk.fatSectors
  have h4 := hk.rootStart
  have h5 := hk.dataStart
  have h6 := hk.rootSectors
  have hlt := hk.sectors
  unfold readSystem
  refine (readRegion_ends (n := d.sectors) (by omega) hs ?_).bind fun s₁ hs₁ => ?_
  · exact fun _ _ _ _ _ => readSectorBoot_ends _ _ _ _
  rw [show d.fat2Start = d.fat1Start + d.fatSectors from h2]
  refine (readFat_ends hk h (.inl rfl) (by omega)).bind fun s₂ hs₂ => ?_
  rw [fatEnd_eq hk, ← h2]
  refine (readFat_ends hk h (.inr rfl) (by omega)).bind fun s₃ hs₃ => ?_
  split
  · refine (readRegion_ends (n := d.sectors) (by omega) (by omega) ?_).mono fun s' hs' => by omega
    exact fun _ _ _ _ _ => readSectorDir_ends _ _ _ _ _
  · rename_i hf
    refine .ok ?_
    have := hk.root32 (by simpa using hf)
    omega

/-- Reads on a drive whose array can be walked, or that has nothing laid out. -/
theorem vdfReadSectors_ends (hg : d.toGeometry.Created) (hf : d.filesys ≠ .unset)
    (h : Walkable d ∨ (d.dataClusterEnd ≤ 2 ∨ d.sectors ≤ d.fat1Start) ∧
      (d.dataEnd ≤ d.dataStart ∨ d.sectors ≤ d.dataStart)) (env : Readers) {sector cnt : Nat}
    (hin : InDrive d sector cnt) (m : Buffer) (p : Nat) :
    Ends (vdfReadSectors env d sector cnt m p) (fun _ => True) NoIndex := by
  have hk := hg.known hf
  unfold vdfReadSectors
  split_ifs with hv hcnt
  · exact .ok trivial
  · exact .ok trivial
  · refine (readMbr_ends hg hk hcnt hin.le hin.lt).bind fun s hs => ?_
    refine (readSystem_ends hk (h.imp_right And.left) hs).bind fun s hs => ?_
    split
    · exact .ok trivial
    · rename_i hrem
      obtain ⟨h1, h2⟩ := hs.resolve_left hrem
      refine Ends.bind (P := fun _ => True) ?_ fun _ _ => .ok trivial
      unfold readSectorData
      refine (dataLoop_ends env _ _ (h.imp_right fun h => ?_)).map fun _ _ => trivial
      dsimp only
      omega

end Read

/-! ## The array over runs -/

section Runs

variable {qsort : List FileRange → List FileRange} {d d' : VdfDrive} {w w' : World} {c : Call}
  {r : Except Errno Unit}

/-- The array has an element for each of the `nonempty_file_cnt` files, all of them on the drive. -/
def ArrayFits (d : VdfDrive) : Prop :=
  ∃ rs, d.ranges = some rs ∧ rs.length = d.nonemptyFileCnt ∧
    ∀ r ∈ rs, (d.file r.file).deleted = false

theorem fileRecalcOffsize_count (d : VdfDrive) (f : FileId) :
    (fileRecalcOffsize d f).2.nonemptyFileCnt =
      d.nonemptyFileCnt + if (d.file f).size = 0 then 0 else 1 := by
  simp only [fileRecalcOffsize]
  split_ifs <;> simp_all [VdfDrive.modifyFile]

/-- The second pass counts the files that are not empty. -/
theorem offsizePass_count (d : VdfDrive) (l : List FileId) (h : (offsizePass d l).1 ≠ -1) :
    (offsizePass d l).2.nonemptyFileCnt =
      d.nonemptyFileCnt + (l.filter fun f => (d.file f).size != 0).length := by
  induction l generalizing d with
  | nil => rfl
  | cons f l ih =>
    simp only [offsizePass] at h ⊢
    split at h
    · exact absurd rfl h
    · rename_i hr
      have hsize : (fun x => ((fileRecalcOffsize d f).2.file x).size != 0) =
          fun x => (d.file x).size != 0 := by
        funext x
        rw [(fileRecalcOffsize_size d f x).1]
      rw [if_neg hr, ih _ h, hsize, fileRecalcOffsize_count, List.filter_cons]
      by_cases h0 : (d.file f).size = 0
      · simp [h0]
      · simp [h0]
        omega

/-- The ranges of a recalculation. -/
theorem vdfDriveRecalc_array (hq : ∀ l, (qsort l).Perm l) {fuel : Nat} (hdirty : d.dirty = true)
    (h : vdfDriveRecalc qsort fuel d = some (0, d')) :
    ∃ rs, d'.ranges = some rs ∧ rs.length = d'.nonemptyFileCnt ∧ ∀ r ∈ rs, r.file ∈ d'.allFiles := by
  obtain ⟨-, -, d₁, h1, hr, rfl⟩ := vdfDriveRecalc_cases hdirty h
  have hcount := offsizePass_count d₁ d₁.allFiles hr
  have hall := (offsizePass_relaid d₁ d₁.allFiles).allFiles
  have hsize := fun x => (offsizePass_size d₁ d₁.allFiles x).1
  have hzero : d₁.nonemptyFileCnt = 0 := by
    rw [dirRecalc_drive h1]
    rfl
  generalize (offsizePass d₁ d₁.allFiles).2 = d₂ at *
  refine ⟨_, rfl, ?_, fun r hr => ?_⟩
  · rw [(hq _).length_eq, List.length_take, Nat.min_eq_left]
    rw [hcount, hzero, Nat.zero_add, storedRanges, List.length_map, hall,
      ← List.countP_eq_length_filter, ← List.countP_eq_length_filter]
    refine List.countP_mono_left fun f _ h => ?_
    rw [← hsize f] at h
    simp [h]
  · have hmem := List.mem_of_mem_take ((hq _).mem_iff.1 hr)
    obtain ⟨f, hf, rfl⟩ := List.mem_map.1 hmem
    exact (List.mem_filter.1 hf).1

theorem Linked.live (h : Linked w) {f : FileId} (hf : f ∈ w.drive.allFiles) :
    (w.drive.file f).deleted = false := by
  have hmem := ((h.mem_allFiles f).1 hf).2
  split at hmem
  · rename_i e
    rw [e]
    exact h.root_live
  · exact hmem

theorem Does.arrayFits (h : Does qsort d c r d') (hq : ∀ l, (qsort l).Perm l)
    (hlive : ∀ f ∈ d'.allFiles, (d'.file f).deleted = false)
    (hfits : d.dirty = false → ArrayFits d) (hclean : d'.dirty = false) : ArrayFits d' := by
  rcases h.clean_cases hclean with ⟨hd, n, serial, label, rfl, -⟩ | ⟨hd, fuel, d₁, n, hrec, rfl⟩
  · exact hfits hd
  · obtain ⟨rs, hrs, hlen, hmem⟩ := vdfDriveRecalc_array hq hd hrec
    exact ⟨rs, hrs, hlen, fun r hr => hlive r.file (hmem r hr)⟩

/-- On a clean drive the array fits. -/
theorem Reachable.arrayFits (hq : ∀ l, (qsort l).Perm l) (h : Reachable qsort w)
    (hclean : w.drive.dirty = false) : ArrayFits w.drive := by
  obtain ⟨size, flags, ext, junk, w₀, hcreate, run⟩ := h
  have h := run.induct
    (P := fun w => Linked w ∧ (w.drive.dirty = false → ArrayFits w.drive))
    ⟨(rooted_create hcreate).linked, fun hd => nomatch hd.symm.trans (create_dirty hcreate)⟩
    fun _ ⟨hl, hfits⟩ hs => ⟨hl.step hs, (hl.does hs).1.arrayFits hq
      (fun _ hf => (hl.step hs).live hf) hfits⟩
  exact h.2 hclean

theorem Reachable.created (h : Reachable qsort w) : w.drive.toGeometry.Created := by
  obtain ⟨size, flags, ext, junk, w₀, hcreate, run⟩ := h
  refine (run.induct (P := fun w => Linked w ∧ w.drive.toGeometry.Created)
    ⟨(rooted_create hcreate).linked, (sized_create hcreate).created⟩
    fun {w c r w'} _ ⟨hl, hg⟩ hs => ⟨hl.step hs, ?_⟩).2
  rcases (hl.does hs).1.geometry with e | ⟨size, flags, ext, junk, -, -, h⟩
  · rw [e]
    exact hg
  · exact ⟨_, _, _, _, h⟩

/-! ## The drives that are read safely -/

/-- Nothing is laid out that a request inside the drive could ask for. -/
structure NothingLaid (d : VdfDrive) : Prop where
  fat : d.dataClusterEnd ≤ 2 ∨ d.sectors ≤ d.fat1Start
  data : d.dataEnd ≤ d.dataStart ∨ d.sectors ≤ d.dataStart

/-- `file_cnt` counts no element that the array lacks: there are no files, nothing is laid out, no
file of a clean drive is empty, or a recreated drive keeps the array and the files in it. -/
inductive RangesServe (d : VdfDrive) : Prop where
  | noFiles (h : d.fileCnt = 0)
  | nothingLaid (h : NothingLaid d)
  | clean (hd : d.dirty = false) (h : d.fileCnt ≤ d.nonemptyFileCnt)
  | kept (rs : List FileRange) (hrs : d.ranges = some rs) (hlen : d.fileCnt ≤ rs.length)
      (hlive : ∀ r ∈ rs.take d.fileCnt, (d.file r.file).deleted = false)

theorem walkable_of_length {rs : List FileRange} (hrs : d.ranges = some rs)
    (h : d.fileCnt ≤ rs.length) : Walkable d := by
  intro i hi
  have hlt : i < rs.length := by omega
  exact ⟨rs[i], by rw [rangeAt_eq hrs, List.getElem?_eq_getElem hlt]⟩

theorem walkable_of_live {rs : List FileRange} (hrs : d.ranges = some rs)
    (hlen : d.fileCnt ≤ rs.length)
    (hlive : ∀ r ∈ rs.take d.fileCnt, (d.file r.file).deleted = false) :
    Walkable d ∧ Walkable d.guard := by
  refine ⟨walkable_of_length hrs hlen, ?_⟩
  have hguard : d.guard.ranges = some (rs.takeWhile fun r => !(d.file r.file).deleted) := by
    simp [VdfDrive.guard, hrs]
  refine walkable_of_length hguard ?_
  have hsplit : rs.takeWhile (fun r => !(d.file r.file).deleted) = rs.take d.fileCnt ++
      (rs.drop d.fileCnt).takeWhile fun r => !(d.file r.file).deleted := by
    conv => lhs; rw [← List.take_append_drop d.fileCnt rs]
    exact List.takeWhile_append_of_pos fun r hr => by simp [hlive r hr]
  rw [hsplit, List.length_append, List.length_take, Nat.min_eq_left hlen]
  exact Nat.le_add_right _ _

/-- A read of a drive whose ranges serve is safe. -/
theorem RangesServe.safeReads (hg : d.toGeometry.Created) (hf : d.filesys ≠ .unset)
    (hfits : d.dirty = false → ArrayFits d) (h : RangesServe d) : SafeReads d := by
  have key : (Walkable d ∧ Walkable d.guard) ∨ NothingLaid d := by
    cases h with
    | noFiles h => exact .inl ⟨fun i hi => by omega, fun i hi => absurd (h ▸ hi) (Nat.not_lt_zero i)⟩
    | nothingLaid h => exact .inr h
    | clean hd h =>
      obtain ⟨rs, hrs, hlen, hlive⟩ := hfits hd
      exact .inl (walkable_of_live hrs (by omega) fun r hr => hlive r (List.mem_of_mem_take hr))
    | kept rs hrs hlen hlive => exact .inl (walkable_of_live hrs hlen hlive)
  refine ⟨fun env sector cnt m p i hin => ?_, fun env sector cnt m p i hin => ?_⟩
  · exact (vdfReadSectors_ends hg hf (key.imp And.left fun h => ⟨h.fat, h.data⟩) env hin m p).ne_error
      fun h => h i rfl
  · exact (vdfReadSectors_ends (d := d.guard) hg hf
      (key.imp And.right fun h => ⟨h.fat, h.data⟩) env ⟨hin.le, hin.lt⟩ m p).ne_error fun h => h i rfl

/-! ## Without an array -/

theorem rangeAt_none (h : d.ranges = none) (i : Nat) : rangeAt d i = .error (.rangesIndex i) := by
  rw [rangeAt, h]
  rfl

theorem findRangeLoop_none (h : d.ranges = none) (hcnt : d.fileCnt ≠ 0) (end_ : FileRange → Nat)
    (x : Nat) : findRangeLoop d end_ x d.fileCnt 0 = .error (.rangesIndex 0) := by
  obtain ⟨k, hk⟩ := Nat.exists_eq_succ_of_ne_zero hcnt
  rw [hk, Nat.succ_eq_add_one, findRangeLoop, rangeAt_none h]
  rfl

theorem readRegion_skip {bps bound : Nat} {gen : Nat → Nat → Buffer → Nat → Except Fault Buffer}
    {s : ReadState} (h : bound ≤ s.sector) : readRegion bps bound gen s = .ok s := by
  rw [readRegion, if_pos (.inr h)]

/-- A request for the file system. -/
theorem readMbr_behind (hg : d.toGeometry.Created) {s : ReadState}
    (hlt : d.mbrSectors + s.sector < 2 ^ 32) :
    readMbr d { s with sector := d.mbrSectors + s.sector } = .ok s := by
  unfold readMbr
  split
  · rename_i hf
    have hpos := hg.mbrSectors_pos hf
    dsimp only
    rw [if_neg (by omega), readRegion_skip (by dsimp only; omega)]
    show Except.ok _ = _
    rw [subU32_of_le hlt (by omega), Nat.add_sub_cancel_left]
  · rename_i hf
    have := hg.mbrSectors (by simpa using hf)
    simp [this]

/-- The first entry of the first FAT is looked up. -/
theorem readFat_none (hg : d.toGeometry.Created) (hf : d.filesys ≠ .unset) (hv : d.isValid = true)
    (hr : d.ranges = none) (hcnt : d.fileCnt ≠ 0) (hdata : 2 < d.dataClusterEnd) (env : Readers)
    (m : Buffer) (p : Nat) :
    vdfReadSectors env d (d.mbrSectors + d.fat1Start) 1 m p = .error (.rangesIndex 0) := by
  have hk := hg.known hf
  have h1 := hk.fat1_le
  have h2 := hk.fat2
  have hpos := hg.fatSectors_pos hf
  have hmbr := hk.mbr
  have hspc := (clusterSectors_le hk.spc).2
  have hread : ∀ m p, readSectorFat d 0 1 m p = .error (.rangesIndex 0) := by
    have hent : findFileFatEntry d 2 = .error (.rangesIndex 0) := by
      rw [findFileFatEntry, if_neg (by omega), findRangeLoop_none hr hcnt]
    intro m p
    cases hfs : d.filesys with
    | unset => exact absurd hfs hf
    | fat12 => simp only [readSectorFat, hfs, readSectorFat12, ↓reduceIte, hent]; rfl
    | fat16 => simp only [readSectorFat, hfs, readSectorFatWide, ↓reduceIte, hent]; rfl
    | fat32 => simp only [readSectorFat, hfs, readSectorFatWide, ↓reduceIte, hent]; rfl
  have hmbr' : readMbr d ⟨d.mbrSectors + d.fat1Start, 1, 0, p, m⟩ =
      .ok ⟨d.fat1Start, 1, 0, p, m⟩ :=
    readMbr_behind (s := ⟨d.fat1Start, 1, 0, p, m⟩) hg (by dsimp only; omega)
  have hsystem : readSystem d ⟨d.fat1Start, 1, 0, p, m⟩ = .error (.rangesIndex 0) := by
    unfold readSystem
    rw [readRegion_skip (by dsimp only; omega)]
    show (readRegion _ _ _ _ >>= _) = _
    rw [readRegion, if_neg (by dsimp only; omega)]
    dsimp only
    rw [subU32_of_le (by omega) (Nat.le_refl _), Nat.sub_self,
      show (if d.fat2Start ≤ d.fat1Start + 1 then d.fat2Start - d.fat1Start else 1) = 1 by
        split <;> omega, hread]
    rfl
  unfold vdfReadSectors
  rw [if_neg (by simp [hv]), if_neg (by omega), hmbr']
  show (readSystem d _ >>= _) = _
  rw [hsystem]
  rfl

/-- The first sector of the data area is looked up. -/
theorem readData_none (hg : d.toGeometry.Created) (hf : d.filesys ≠ .unset) (hv : d.isValid = true)
    (hr : d.ranges = none) (hcnt : d.fileCnt ≠ 0) (hdata : d.dataStart < d.dataEnd)
    (hlt : d.dataStart < d.sectors) (env : Readers) (m : Buffer) (p : Nat) :
    vdfReadSectors env d (d.mbrSectors + d.dataStart) 1 m p = .error (.rangesIndex 0) := by
  have hk := hg.known hf
  have h1 := hk.fat1_le
  have h2 := hk.fat2
  have h3 := hk.fatSectors
  have h4 := hk.rootStart
  have h5 := hk.dataStart
  have h6 := hk.rootSectors
  have hsec := hk.sectors
  have hmbr := hk.mbr
  have hspc := (clusterSectors_le hk.spc).2
  have hmbr' : readMbr d ⟨d.mbrSectors + d.dataStart, 1, 0, p, m⟩ =
      .ok ⟨d.dataStart, 1, 0, p, m⟩ :=
    readMbr_behind (s := ⟨d.dataStart, 1, 0, p, m⟩) hg (by dsimp only; omega)
  have hsystem : readSystem d ⟨d.dataStart, 1, 0, p, m⟩ = .ok ⟨d.dataStart, 1, 0, p, m⟩ := by
    unfold readSystem
    rw [readRegion_skip (by dsimp only; omega)]
    show (readRegion _ _ _ _ >>= _) = _
    rw [readRegion_skip (by dsimp only; omega)]
    show (readRegion _ _ _ _ >>= _) = _
    rw [fatEnd_eq hk, readRegion_skip (by dsimp only; omega)]
    show (if _ then _ else _) = _
    rw [readRegion_skip (by dsimp only; omega), ite_self]
  have hfind : findFileSector d d.dataStart = .error (.rangesIndex 0) := by
    rw [findFileSector, if_neg (by omega), findRangeLoop_none hr hcnt]
    rfl
  have hread : readSectorData env d d.dataStart 1 m p = .error (.rangesIndex 0) := by
    unfold readSectorData
    simp only [dataLoop, dataStep, hfind]
    rfl
  have hwant : (if d.sectors ≤ d.dataStart + 1 then subU32 d.sectors d.dataStart else 1) = 1 := by
    split
    · rw [subU32_of_le hsec (by omega)]
      omega
    · rfl
  unfold vdfReadSectors
  rw [if_neg (by simp [hv]), if_neg (by omega), hmbr']
  show (readSystem d _ >>= _) = _
  simp only [hsystem, bind, Except.bind, Nat.one_ne_zero, ↓reduceIte, hwant, hread]

/-- A drive without an array is read safely only when it has no files or nothing is laid out. -/
theorem SafeReads.rangesServe (hg : d.toGeometry.Created) (hf : d.filesys ≠ .unset)
    (hv : d.isValid = true) (hr : d.ranges = none) (h : SafeReads d) : RangesServe d := by
  by_cases hcnt : d.fileCnt = 0
  · exact .noFiles hcnt
  · have hk := hg.known hf
    have h1 := hk.fat1_le
    have hsec := hk.sectors
    have hmbr := hk.mbr
    have hspc := (clusterSectors_le hk.spc).2
    have hds : d.dataStart < 2 ^ 31 := by
      have := hk.fat2
      have := hk.fatSectors
      have := hk.rootStart
      have := hk.dataStart
      have := hk.rootSectors
      omega
    refine .nothingLaid ⟨?_, ?_⟩
    · by_contra hno
      exact h.inside ⟨fun _ _ _ => none, fun _ _ _ => none⟩ _ 1 (fun _ => 0) 0 0
        ⟨by omega, by omega⟩ (readFat_none hg hf hv hr hcnt (by omega) _ _ _)
    · by_contra hno
      exact h.inside ⟨fun _ _ _ => none, fun _ _ _ => none⟩ _ 1 (fun _ => 0) 0 0
        ⟨by omega, by omega⟩ (readData_none hg hf hv hr hcnt (by omega) (by omega) _ _ _)

/-- In every reachable state in which the ranges serve, every read keeps to the array and to the files
on the drive. Without an array there is no other such state. -/
theorem reads_keep_to_ranges (hq : ∀ l, (qsort l).Perm l) (hreach : Reachable qsort w)
    (hf : w.drive.filesys ≠ .unset) (hv : w.drive.isValid = true) :
    (RangesServe w.drive → SafeReads w.drive) ∧
      (w.drive.ranges = none → SafeReads w.drive → RangesServe w.drive) :=
  ⟨fun h => h.safeReads hreach.created hf (hreach.arrayFits hq),
    fun hr h => h.rangesServe hreach.created hf hv hr⟩

/-- A file of one byte is laid out, and another one is added: the array is gone, `data_cluster_end` is
still 3. -/
theorem dirty_drive_reads_null :
    ∃ w, sampleRun [.addFileVirt 0 [0x42] 1 (some 2) true 0, .recalc,
        .addFileVirt 0 [0x43] 1 (some 3) true 0] = some w ∧
      Reachable id w ∧ w.drive.isValid = true ∧ ¬ SafeReads w.drive := by
  obtain ⟨w, h, hv, hf, hr, hcnt, hdata, hlt⟩ := sampleRun_exists
    (l := [.addFileVirt 0 [0x42] 1 (some 2) true 0, .recalc,
      .addFileVirt 0 [0x43] 1 (some 3) true 0])
    (P := fun w => w.drive.isValid = true ∧ w.drive.filesys ≠ .unset ∧ w.drive.ranges = none ∧
      w.drive.fileCnt ≠ 0 ∧ 2 < w.drive.dataClusterEnd ∧
      w.drive.mbrSectors + w.drive.fat1Start + 1 ≤ min w.drive.sectors (2 ^ 32)) (by decide)
  have hreach := sampleRun_reachable h
  refine ⟨w, h, hreach, hv, fun hsafe => ?_⟩
  exact hsafe.inside ⟨fun _ _ _ => none, fun _ _ _ => none⟩ _ 1 (fun _ => 0) 0 0
    ⟨by omega, by omega⟩ (readFat_none hreach.created hf hv hr hcnt hdata _ _ _)

/-- The drive with the first file, once it is laid out. -/
theorem reads_keep_to_ranges_sample :
    ∃ w, sampleRun [.addFileVirt 0 [0x42] 1 (some 2) true 0, .recalc] = some w ∧
      SafeReads w.drive := by
  obtain ⟨w, h, hv, hf, hclean, hcnt⟩ := sampleRun_exists
    (l := [.addFileVirt 0 [0x42] 1 (some 2) true 0, .recalc])
    (P := fun w => w.drive.isValid = true ∧ w.drive.filesys ≠ .unset ∧ w.drive.dirty = false ∧
      w.drive.fileCnt ≤ w.drive.nonemptyFileCnt) (by decide)
  exact ⟨w, h, (reads_keep_to_ranges (fun l => .refl l) (sampleRun_reachable h) hf hv).1
    (.clean hclean hcnt)⟩

end Runs

end Vdf
