import Vdf.Fat12Fresh
import Vdf.FullRecords
import Vdf.Lib.Overwrite

/-!
# What a read leaves of the buffer

Two reads of the same sectors into different buffers (`LeaksNothing`) leave the same bytes where
every generator overwrites its part of the request. The tables of FAT16 and FAT32, the data of files
and the free sectors are overwritten. The records of `FullRecords` may leave bytes out, and a FAT12
entry may keep bits of one (`Fat12Fresh`): `vdfReadSectors_leaksNothing_iff`.
-/

namespace Vdf

open Word Buffer

/-! ## Specification -/

/-- A read of `n` sectors from `s` on returns and writes to the buffer of these sectors only. What two
reads into different buffers leave there is the same, unless a call for the content of a file
fails. -/
structure LeaksNothing (d : VdfDrive) (s n : Nat) : Prop where
  returns : ∀ env : Readers, env.Bounded → ∀ m p, ∃ ret m' calls,
    vdfReadSectors env d s n m p = .ok (ret, m', calls) ∧ AgreeOutside p (n * d.bps) m m'
  same : ∀ env : Readers, env.Bounded → ∀ m₁ m₂ p ret₁ m₁' calls₁ ret₂ m₂' calls₂,
    vdfReadSectors env d s n m₁ p = .ok (ret₁, m₁', calls₁) →
    vdfReadSectors env d s n m₂ p = .ok (ret₂, m₂', calls₂) →
    (∀ c ∈ calls₁, ¬ env.Fails d c) → (∀ c ∈ calls₂, ¬ env.Fails d c) →
    ∀ b < n * d.bps, m₁' (p + b) = m₂' (p + b)

/-- The sectors of a request leave no byte of the buffer. -/
structure SectorsFull (d : VdfDrive) (rs : List FileRange) (s n : Nat) : Prop where
  mbr : s = 0 → 0 < d.mbrSectors → d.bps = 512
  reserved : Clipped s n d.mbrSectors (d.mbrSectors + d.fat1Start) fun o want =>
    ∀ k < want, ReservedFull d (o + k)
  fat1 : d.filesys = .fat12 → Clipped s n (d.mbrSectors + d.fat1Start)
    (d.mbrSectors + d.fat2Start) (Fat12Fresh d rs)
  fat2 : d.filesys = .fat12 → Clipped s n (d.mbrSectors + d.fat2Start) (d.mbrSectors + fatEnd d)
    (Fat12Fresh d rs)
  root : d.filesys ≠ .fat32 → Clipped s n (d.mbrSectors + fatEnd d) (d.mbrSectors + d.dataStart)
    fun o want => LongSlotsOnly d d.rootDir o (want * d.direntPerSector)
  dirs : d.filesys ≠ .fat32 → d.mbrSectors + d.dataStart < s + n →
    ∀ r ∈ rs, (d.file r.file).isDir = true →
      Clipped s n (d.mbrSectors + r.sectstart) (d.mbrSectors + r.sectend)
        fun o want => LongSlotsOnly d r.file o (want * d.direntPerSector)

/-! ## The parts of a request -/

/-- The address behind the sectors of a request in front of `u`. -/
def cut (d : VdfDrive) (s n p u : Nat) : Nat := p + (min u (s + n) - s) * d.bps

theorem cut_mono (d : VdfDrive) (s n p : Nat) {u v : Nat} (h : u ≤ v) :
    cut d s n p u ≤ cut d s n p v :=
  Nat.add_le_add_left (Nat.mul_le_mul_right _ (by omega)) _

section Parts

variable {d : VdfDrive} {s n p lo : Nat} {g : SectorGen}

/-- The bytes of a part. -/
theorem cut_part {hi : Nat} (h : max s lo < min (s + n) hi) :
    cut d s n p lo = p + (max s lo - s) * d.bps ∧
      cut d s n p hi = p + (max s lo - s) * d.bps + (min (s + n) hi - max s lo) * d.bps := by
  unfold cut
  rw [Nat.add_assoc, ← Nat.add_mul]
  exact ⟨by congr 2; omega, by congr 2; omega⟩

/-- A region that is not in the request has none. -/
theorem cut_none {hi : Nat} (hle : lo ≤ hi) (h : min (s + n) hi ≤ max s lo) :
    cut d s n p hi = cut d s n p lo := by
  unfold cut
  congr 2
  omega

/-- What a generator makes of the bytes of a run depends on them only, and on none of them under a
condition. -/
structure SectorGen.OverwritesWhen (d : VdfDrive) (g : SectorGen) (u want : Nat) (C : Prop) :
    Prop where
  inner : ∀ q, Local q (q + want * d.bps) fun m => g.gen u want m q
  iff : ∀ q, Overwrites q (q + want * d.bps) (fun m => g.gen u want m q) ↔ C

theorem SectorGen.OverwritesWhen.of_overlay {u want : Nat} {C : Prop} (f : Nat → Option UInt8)
    (h : ∀ m q, g.gen u want m q = some (m.overlay q (want * d.bps) f))
    (hC : (∀ j < want * d.bps, f j ≠ none) ↔ C) : g.OverwritesWhen d u want C where
  inner q := .overlay fun m _ hm => (Option.some.inj ((h m q).symm.trans hm)).symm
  iff q := (overwrites_overlay_iff fun m => h m q).trans hC

/-- A generator that fails does nothing. -/
theorem SectorGen.OverwritesWhen.of_none {u want : Nat} {C : Prop}
    (h : ∀ m q, g.gen u want m q = none) (hC : C) : g.OverwritesWhen d u want C := by
  have hnone {m m' : Buffer} {q : Nat} {P : Prop} (hm : g.gen u want m q = some m') : P := by
    rw [h] at hm
    cases hm
  exact ⟨fun q => ⟨fun hm => hnone hm, fun hm => hnone hm⟩, fun q =>
    iff_of_true ⟨fun hm => hnone hm⟩ hC⟩

theorem SectorGen.OverwritesWhen.congr {u want : Nat} {C C' : Prop}
    (h : g.OverwritesWhen d u want C) (hC : C ↔ C') : g.OverwritesWhen d u want C' :=
  ⟨h.inner, fun q => (h.iff q).trans hC⟩

/-- The part of a request in a region is local, and overwrites its bytes under the condition. -/
structure RegionFull (d : VdfDrive) (s n p lo : Nat) (r : Region Buffer) (C : Prop) : Prop where
  inner : Local (cut d s n p lo) (cut d s n p r.hi) (r.part lo s n)
  iff : Overwrites (cut d s n p lo) (cut d s n p r.hi) (r.part lo s n) ↔ C

theorem SectorGen.regionFull (hle : lo ≤ g.hi) {C : Nat → Nat → Prop}
    (h : Clipped s n lo g.hi fun o want => g.OverwritesWhen d (lo + o) want (C o want)) :
    RegionFull d s n p lo (g.region d s p) (Clipped s n lo g.hi C) := by
  have hhi : (g.region d s p).hi = g.hi := rfl
  by_cases hlt : max s lo < min (s + n) g.hi
  · obtain ⟨hinner, hiff⟩ := h hlt
    rw [(by omega : lo + (max s lo - lo) = max s lo)] at hinner hiff
    obtain ⟨h1, h2⟩ := @cut_part d s n p lo g.hi hlt
    have hC : C (max s lo - lo) (min (s + n) g.hi - max s lo) ↔ Clipped s n lo g.hi C :=
      ⟨fun h _ => h, fun h => h hlt⟩
    constructor
    · rw [hhi, h1, h2, Region.part_pos (r := g.region d s p) hlt]
      exact hinner _
    · rw [hhi, h1, h2, Region.part_pos (r := g.region d s p) hlt, ← hC]
      exact hiff _
  · have hnone : min (s + n) g.hi ≤ max s lo := Nat.le_of_not_lt hlt
    constructor
    · rw [hhi, cut_none hle hnone, Region.part_none (r := g.region d s p) hnone]
      exact .skip _
    · rw [hhi, cut_none hle hnone, Region.part_none (r := g.region d s p) hnone]
      exact iff_of_true (.skip _) fun h => absurd h hlt

end Parts

/-! ## Generators -/

section Gens

variable {d : VdfDrive} {rs : List FileRange} (hk : d.toGeometry.Known)

include hk

/-- The master boot record. -/
theorem mbrGen_overwrites {g : SectorGen} {u : Nat}
    (h : ∀ m q, g.gen u 1 m q = some (readSectorMbr d m q)) :
    g.OverwritesWhen d u 1 (d.bps = 512) := by
  have hb := (sectorSizes_le hk.bps).1
  have hw := mbrRecord_within d
  refine .of_overlay (mbrRecord d).byte (fun m q => ?_) ?_
  · rw [h, readSectorMbr, Nat.one_mul, store_eq_overlay m q (hw.mono hb)]
  · rw [Nat.one_mul]
    exact (hw.covers_iff hb).trans (and_iff_left (mbrRecord_covers hk.filesys))

/-- The reserved sectors. -/
theorem bootGen_overwrites {g : SectorGen} {u o want : Nat}
    (h : ∀ m q, g.gen u want m q = (readSectorBoot d o want m q).toOption) :
    g.OverwritesWhen d u want (∀ k < want, ReservedFull d (o + k)) := by
  have hb := (sectorSizes_le hk.bps).1
  refine .of_overlay _ (fun m q => ?_) (reserved_ne_none_iff hk o want)
  rw [h, readSectorBoot_image hk.filesys hb]
  rfl

/-- A FAT of FAT12, of which the loop reads bytes of the buffer. -/
theorem fat12Gen_overwrites (hr : Ranged d rs) {g : SectorGen} {u o want : Nat} (hpos : 0 < want)
    (hle : o + want ≤ d.fatSectors) (hstays : Fat12Stays d rs o want)
    (h : ∀ m q, g.gen u want m q = (readSectorFat12 d o want m q).toOption) :
    g.OverwritesWhen d u want (Fat12Fresh d rs o want) := by
  have hb := (sectorSizes_le hk.bps).1
  have hlt : (o + want) * d.bps < 2 ^ 31 :=
    Nat.lt_of_le_of_lt (Nat.mul_le_mul_right _ hle) hk.fatBytes
  have hrun (m : Buffer) (q : Nat) : ∃ m', readSectorFat12 d o want m q = .ok m' ∧
      g.gen u want m q = some m' ∧ AgreeOutside q (want * d.bps) m m' := by
    obtain ⟨m', hm, hout⟩ := (readSectorFat12_stays hr (by omega) hpos hlt m q).stays hstays
    refine ⟨m', hm, ?_, hout⟩
    rw [h, hm]
    rfl
  have hgen {m m' : Buffer} {q : Nat} (hm : g.gen u want m q = some m') :
      readSectorFat12 d o want m q = .ok m' ∧ AgreeOutside q (want * d.bps) m m' := by
    obtain ⟨m'', he, hm'', hout⟩ := hrun m q
    cases hm.symm.trans hm''
    exact ⟨he, hout⟩
  refine ⟨fun q => ⟨fun hm => (hgen hm).2, fun {m n m' n'} hm hn hin x h1 h2 => ?_⟩,
    fun q => ⟨fun ho => ?_, fun hfresh => ⟨fun {m n m' n'} hm hn x h1 h2 => ?_⟩⟩⟩
  · obtain ⟨b, rfl⟩ : ∃ b, x = q + b := ⟨x - q, by omega⟩
    exact readSectorFat12_alike (A := fun _ => True) hr (by omega) hpos hlt hstays
      (.inr fun _ _ _ _ _ => .inl trivial) (fun b hb _ => hin _ (by omega) (by omega))
      (hgen hm).1 (hgen hn).1 (by omega)
  · obtain ⟨m, hm, hm', -⟩ := hrun (fun _ => 0) q
    obtain ⟨n, hn, hn', -⟩ := hrun (fun _ => 0xff) q
    exact readSectorFat12_fresh hr (by omega) hpos hlt hm hn fun b hb =>
      ho.same hm' hn' _ (by omega) (by omega)
  · obtain ⟨b, rfl⟩ : ∃ b, x = q + b := ⟨x - q, by omega⟩
    exact readSectorFat12_alike hr (by omega) hpos hlt hstays hfresh
      (fun _ _ h => absurd h not_false) (hgen hm).1 (hgen hn).1 (by omega)

/-- A FAT. -/
theorem fatGen_overwrites (hr : Ranged d rs) {g : SectorGen} {u o want : Nat} (hpos : 0 < want)
    (hle : o + want ≤ d.fatSectors) (hstays : FatStays d rs o want)
    (h : ∀ m q, g.gen u want m q = (readSectorFat d o want m q).toOption) :
    g.OverwritesWhen d u want (d.filesys = .fat12 → Fat12Fresh d rs o want) := by
  by_cases hne : d.filesys = .fat12
  · rw [FatStays, if_pos hne] at hstays
    have hwhen : g.OverwritesWhen d u want (Fat12Fresh d rs o want) := by
      refine fat12Gen_overwrites hk hr hpos hle hstays fun m q => ?_
      rw [h, readSectorFat, hne]
    exact hwhen.congr ⟨fun h _ => h, fun h => h hne⟩
  · have hf : d.filesys = .fat16 ∨ d.filesys = .fat32 := by
      have := hk.filesys
      cases hd : d.filesys <;> simp_all
    have hreq := FatRequest.of_known hk hf hpos hle
    rw [FatStays, if_neg hne] at hstays
    refine .of_overlay (fun j => some (entryByte d.filesys.entryWidth (requestTable
      d.filesys.entryWidth d.filesys.mediaMark d.filesys.eocMark d rs o) (o * d.bps + j)))
      (fun m q => ?_) (iff_of_true (fun _ _ => Option.some_ne_none _) fun h => absurd h hne)
    rw [h, readSectorFat_wide hf,
      (readSectorFatWide_eq hreq hr (two_le_firstEntry hreq) m q).1 hstays]
    rfl

/-- The slots of a directory. -/
theorem dirGen_overwrites {g : SectorGen} {u o want : Nat} {dir : FileId} (hpos : 0 < want)
    (h : ∀ m q, g.gen u want m q =
      some (storeAll 32 m q (runRecords d dir o (want * d.direntPerSector)))) :
    g.OverwritesWhen d u want
      (d.filesys = .fat32 ∨ LongSlotsOnly d dir o (want * d.direntPerSector)) := by
  have hb := (sectorSizes_le hk.bps).1
  have hdirent := hk.dirent
  have hmul := direntPerSector_mul hk.bps hk.dirent
  have hlen : 32 * (runRecords d dir o (want * d.direntPerSector)).length = want * d.bps := by
    rw [length_runRecords, ← hmul]
    ring
  refine .of_overlay _ (fun m q => ?_)
    (Iff.trans (hlen ▸ tableByte_ne_none_iff (by decide)) (runRecords_covers_iff d dir ?_))
  · rw [h, storeAll_eq_overlay (by decide) m q runRecords_within, hlen]
  · exact Nat.mul_pos hpos (by omega)

/-- The sectors of a file. -/
theorem fileGen_overwrites {env : Readers} (hE : env.Bounded) (r : FileRange) {o want : Nat}
    (hpos : 0 < want) : (fileGen env d r).OverwritesWhen d (d.mbrSectors + r.sectstart + o) want
      ((d.file r.file).isDir = true →
        d.filesys = .fat32 ∨ LongSlotsOnly d r.file o (want * d.direntPerSector)) := by
  by_cases hd : (d.file r.file).isDir = true
  · have hiff : (d.filesys = .fat32 ∨ LongSlotsOnly d r.file o (want * d.direntPerSector)) ↔
        ((d.file r.file).isDir = true →
          d.filesys = .fat32 ∨ LongSlotsOnly d r.file o (want * d.direntPerSector)) :=
      ⟨fun h _ => h, fun h => h hd⟩
    refine (dirGen_overwrites hk hpos fun m q => ?_).congr hiff
    simp only [fileGen, hd, ↓reduceIte, Nat.add_sub_cancel_left]
  · have hd' : (d.file r.file).isDir = false := by simpa using hd
    refine SectorGen.OverwritesWhen.congr ?_ (iff_of_true trivial fun h => absurd h hd)
    have hgen (m : Buffer) (q : Nat) : (fileGen env d r).gen (d.mbrSectors + r.sectstart + o) want
        m q = if (d.file r.file).size ≤ u32 (o * d.bps) then some (m.fill q (want * d.bps) 0)
        else (env.read d r.file (u32 (o * d.bps))
          (min ((d.file r.file).size - u32 (o * d.bps)) (want * d.bps))).map fun l =>
            (m.copy q l).fill (q + l.length) (want * d.bps - l.length) 0 := by
      simp only [fileGen, hd', Bool.false_eq_true, ↓reduceIte, Nat.add_sub_cancel_left]
    generalize u32 (o * d.bps) = off at hgen
    by_cases hz : (d.file r.file).size ≤ off
    · exact .of_overlay (fun _ => some 0) (fun m q => by rw [hgen, if_pos hz, fill_eq_overlay])
        (iff_of_true (fun _ _ => Option.some_ne_none _) trivial)
    · simp only [if_neg hz] at hgen
      cases hread : env.read d r.file off (min ((d.file r.file).size - off) (want * d.bps)) with
      | none =>
        rw [hread] at hgen
        exact .of_none hgen trivial
      | some l =>
        have hlen : l.length ≤ want * d.bps := Nat.le_trans (hE.read hread) (Nat.min_le_right ..)
        refine .of_overlay (fun j => some (l.getD j 0)) (fun m q => ?_)
          (iff_of_true (fun _ _ => Option.some_ne_none _) trivial)
        rw [hgen, hread, Option.map_some, copy_zeros_eq_overlay m q hlen]

end Gens

/-! ## All regions -/

/-- The regions `l` are local, and they overwrite all bytes of the request under a condition. -/
structure RegionsFull (d : VdfDrive) (s n p lo : Nat) (l : List (Region Buffer)) (C : Prop) :
    Prop where
  inner : Regions.Each (fun lo r => Local (cut d s n p lo) (cut d s n p r.hi) (r.part lo s n)) lo l
  iff : Regions.Each (fun lo r => Overwrites (cut d s n p lo) (cut d s n p r.hi) (r.part lo s n))
    lo l ↔ C

namespace RegionsFull

variable {d : VdfDrive} {s n p lo : Nat} {l l' : List (Region Buffer)} {r : Region Buffer}
  {C C' : Prop}

theorem nil : RegionsFull d s n p lo [] True := ⟨trivial, Iff.rfl⟩

theorem cons (h : RegionFull d s n p lo r C) (h' : RegionsFull d s n p r.hi l C') :
    RegionsFull d s n p lo (r :: l) (C ∧ C') :=
  ⟨⟨h.inner, h'.inner⟩, and_congr h.iff h'.iff⟩

theorem append (h : RegionsFull d s n p lo l C)
    (h' : RegionsFull d s n p (Regions.fin lo l) l' C') :
    RegionsFull d s n p lo (l ++ l') (C ∧ C') :=
  ⟨Regions.each_append.mpr ⟨h.inner, h'.inner⟩,
    Regions.each_append.trans (and_congr h.iff h'.iff)⟩

theorem congr (h : RegionsFull d s n p lo l C) (hC : C ↔ C') : RegionsFull d s n p lo l C' :=
  ⟨h.inner, h.iff.trans hC⟩

end RegionsFull

section Regions

variable {d : VdfDrive} {rs : List FileRange} {env : Readers} {s n p : Nat}
  (hk : d.toGeometry.Known) (hpos : 0 < n)

include hk hpos

/-- The sectors in front of the file system. -/
theorem mbrGens_full : RegionsFull d s n p 0 ((mbrGens d).map (SectorGen.region d s p))
    (s = 0 → 0 < d.mbrSectors → d.bps = 512) := by
  have hmbr : RegionFull d s n p 0 (SectorGen.region d s p
      ⟨min 1 d.mbrSectors, fun _ _ m p => some (readSectorMbr d m p)⟩)
      (Clipped s n 0 (min 1 d.mbrSectors) fun _ _ => d.bps = 512) := by
    refine SectorGen.regionFull (Nat.zero_le _) fun hlt => ?_
    have hlt : max s 0 < min (s + n) (min 1 d.mbrSectors) := hlt
    have hone : min (s + n) (min 1 d.mbrSectors) - max s 0 = 1 := by omega
    dsimp only
    rw [hone]
    exact mbrGen_overwrites hk fun _ _ => rfl
  have hgap : RegionFull d s n p (min 1 d.mbrSectors) (SectorGen.region d s p
      ⟨d.mbrSectors, fun _ want m p => some (m.fill p (d.bps * want) 0)⟩)
      (Clipped s n (min 1 d.mbrSectors) d.mbrSectors fun _ _ => True) := by
    refine SectorGen.regionFull (by dsimp only; omega) fun _ => ?_
    refine .of_overlay (fun _ => some 0) (fun m q => ?_)
      (iff_of_true (fun _ _ => Option.some_ne_none _) trivial)
    dsimp only
    rw [Nat.mul_comm, fill_eq_overlay]
  refine (RegionsFull.cons hmbr (.cons hgap .nil)).congr ⟨fun h h0 hmbr => ?_, fun h => ?_⟩
  · exact h.1 (show max s 0 < min (s + n) (min 1 d.mbrSectors) by omega)
  · refine ⟨fun hlt => ?_, fun _ => trivial, trivial⟩
    exact h (by omega) (by omega)

omit hpos in
/-- A copy of the FAT. -/
theorem fat_full (hr : Ranged d rs) {start hi : Nat} (hhi : hi = d.mbrSectors + start + d.fatSectors)
    (hstays : Clipped s n (d.mbrSectors + start) hi (FatStays d rs)) :
    RegionFull d s n p (d.mbrSectors + start) (SectorGen.region d s p ⟨hi, fun u want m p =>
      (readSectorFat d (u - (d.mbrSectors + start)) want m p).toOption⟩)
      (Clipped s n (d.mbrSectors + start) hi fun o want =>
        d.filesys = .fat12 → Fat12Fresh d rs o want) := by
  refine SectorGen.regionFull (by dsimp only; omega) fun hlt => ?_
  dsimp only at hlt ⊢
  refine fatGen_overwrites hk hr (Nat.sub_pos_of_lt hlt) (by omega) (hstays hlt) fun m q => ?_
  dsimp only
  rw [Nat.add_sub_cancel_left]

omit hpos in
/-- The reserved sectors, the FATs and the root directory. -/
theorem systemGens_full (hr : Ranged d rs) (hfats : FatsStay d rs s n) :
    RegionsFull d s n p d.mbrSectors ((systemGens d).map (SectorGen.region d s p))
      (Clipped s n d.mbrSectors (d.mbrSectors + d.fat1Start)
          (fun o want => ∀ k < want, ReservedFull d (o + k)) ∧
        (d.filesys = .fat12 → Clipped s n (d.mbrSectors + d.fat1Start)
          (d.mbrSectors + d.fat2Start) (Fat12Fresh d rs)) ∧
        (d.filesys = .fat12 → Clipped s n (d.mbrSectors + d.fat2Start) (d.mbrSectors + fatEnd d)
          (Fat12Fresh d rs)) ∧
        (d.filesys ≠ .fat32 → Clipped s n (d.mbrSectors + fatEnd d) (d.mbrSectors + d.dataStart)
          fun o want => LongSlotsOnly d d.rootDir o (want * d.direntPerSector))) := by
  have h2 := hk.fat2
  have h3 := hk.rootStart
  have h4 := hk.dataStart
  have hend := fatEnd_eq hk
  have hboot : RegionFull d s n p d.mbrSectors (SectorGen.region d s p
      ⟨d.mbrSectors + d.fat1Start, fun u want m p =>
        (readSectorBoot d (u - d.mbrSectors) want m p).toOption⟩)
      (Clipped s n d.mbrSectors (d.mbrSectors + d.fat1Start) fun o want =>
        ∀ k < want, ReservedFull d (o + k)) := by
    refine SectorGen.regionFull (Nat.le_add_right ..) fun hlt => ?_
    refine bootGen_overwrites hk fun m q => ?_
    dsimp only
    rw [Nat.add_sub_cancel_left]
  have hroot : RegionFull d s n p (d.mbrSectors + fatEnd d) (SectorGen.region d s p
      ⟨d.mbrSectors + d.dataStart, fun u want m p =>
        (readSectorDir d (u - (d.mbrSectors + fatEnd d)) want m p d.rootDir).toOption⟩)
      (Clipped s n (d.mbrSectors + fatEnd d) (d.mbrSectors + d.dataStart) fun o want =>
        d.filesys = .fat32 ∨ LongSlotsOnly d d.rootDir o (want * d.direntPerSector)) := by
    refine SectorGen.regionFull (by dsimp only; omega) fun hlt => ?_
    dsimp only at hlt ⊢
    refine dirGen_overwrites hk (Nat.sub_pos_of_lt hlt) fun m q => ?_
    dsimp only
    rw [Nat.add_sub_cancel_left, readSectorDir_eq (.of_known hk (Nat.sub_pos_of_lt hlt) (by omega))]
    rfl
  refine (RegionsFull.cons hboot (.cons (fat_full hk hr (by omega) hfats.1)
    (.cons (fat_full hk hr (by omega) hfats.2) (.cons hroot .nil)))).congr ?_
  refine and_congr Iff.rfl (and_congr ?_ (and_congr ?_ ?_))
  · exact ⟨fun h h12 hlt => h hlt h12, fun h hlt h12 => h h12 hlt⟩
  · exact ⟨fun h h12 hlt => h hlt h12, fun h hlt h12 => h h12 hlt⟩
  · rw [and_true]
    exact ⟨fun h h32 hlt => (h hlt).resolve_left h32, fun h hlt => or_iff_not_imp_left.mpr
      fun h32 => h h32 hlt⟩

omit hpos in
/-- The files `l` from sector `lo` on. -/
theorem fileGens_full (hE : env.Bounded) (l : List FileRange) (lo hi : Nat)
    (h : Chain FileRange.sectstart FileRange.sectend lo l hi) :
    RegionsFull d s n p (d.mbrSectors + lo) ((l.map (fileGen env d)).map (SectorGen.region d s p))
      (∀ r ∈ l, Clipped s n (d.mbrSectors + r.sectstart) (d.mbrSectors + r.sectend) fun o want =>
        (d.file r.file).isDir = true →
          d.filesys = .fat32 ∨ LongSlotsOnly d r.file o (want * d.direntPerSector)) ∧
      Regions.fin (d.mbrSectors + lo) ((l.map (fileGen env d)).map (SectorGen.region d s p)) =
        d.mbrSectors + hi := by
  induction l generalizing lo with
  | nil =>
    obtain rfl : lo = hi := h
    exact ⟨RegionsFull.nil.congr (iff_of_true trivial (List.forall_mem_nil _)), rfl⟩
  | cons r l ih =>
    obtain ⟨rfl, hle, hchain⟩ := h
    obtain ⟨hfull, hfin⟩ := ih r.sectend hchain
    have hfile : RegionFull d s n p (d.mbrSectors + r.sectstart) ((fileGen env d r).region d s p)
        (Clipped s n (d.mbrSectors + r.sectstart) (d.mbrSectors + r.sectend) fun o want =>
          (d.file r.file).isDir = true →
            d.filesys = .fat32 ∨ LongSlotsOnly d r.file o (want * d.direntPerSector)) :=
      SectorGen.regionFull (Nat.add_le_add_left hle _) fun hlt =>
        fileGen_overwrites hk hE r (Nat.sub_pos_of_lt hlt)
    refine ⟨(RegionsFull.cons hfile hfull).congr ?_, hfin⟩
    rw [List.forall_mem_cons]

omit hk hpos in
/-- The free sectors. -/
theorem freeGen_full {lo : Nat} (hle : lo ≤ (freeGen d).hi) :
    RegionsFull d s n p lo ([freeGen d].map (SectorGen.region d s p)) True := by
  have hfree : RegionFull d s n p lo ((freeGen d).region d s p)
      (Clipped s n lo (freeGen d).hi fun _ _ => True) :=
    SectorGen.regionFull hle fun _ => .of_overlay (fun _ => some 0)
      (fun m q => congrArg some (fill_eq_overlay ..))
      (iff_of_true (fun _ _ => Option.some_ne_none _) trivial)
  exact (RegionsFull.cons hfree .nil).congr (iff_of_true ⟨fun _ => trivial, trivial⟩ trivial)

omit hpos in
/-- The data area. -/
theorem dataGens_full (hE : env.Bounded) (hP : DataPlaced d rs) :
    RegionsFull d s n p (d.mbrSectors + d.dataStart)
      ((dataGens env d rs).map (SectorGen.region d s p))
      (d.filesys ≠ .fat32 → ∀ r ∈ rs, (d.file r.file).isDir = true →
        Clipped s n (d.mbrSectors + r.sectstart) (d.mbrSectors + r.sectend)
          fun o want => LongSlotsOnly d r.file o (want * d.direntPerSector)) := by
  obtain ⟨hfiles, hfin⟩ := @fileGens_full d env s n p hk hE rs _ _ hP.chain
  have hfree : RegionsFull d s n p (Regions.fin (d.mbrSectors + d.dataStart)
      ((rs.map (fileGen env d)).map (SectorGen.region d s p)))
      ([freeGen d].map (SectorGen.region d s p)) True := by
    rw [hfin]
    refine freeGen_full ?_
    exact Nat.le_trans (Nat.add_le_add_left (Nat.le_max_right ..) _) (Nat.le_max_left ..)
  rw [dataGens, List.map_append]
  refine (hfiles.append hfree).congr ⟨fun h h32 r hr hd hlt => ?_, fun h => ⟨?_, trivial⟩⟩
  · exact (h.1 r hr hlt hd).resolve_left h32
  · exact fun r hr hlt hd => or_iff_not_imp_left.mpr fun h32 => h h32 r hr hd hlt

/-- The regions of a request overwrite its sectors under the condition, and only then. -/
theorem driveRegions_full (hr : Ranged d rs) (hfats : FatsStay d rs s n) (hE : env.Bounded)
    {l : List FileRange}
    (hl : l = [] ∧ s + n ≤ d.mbrSectors + d.dataStart ∨ l = rs ∧ DataPlaced d rs) :
    RegionsFull d s n p 0 (driveRegions env d l s p) (SectorsFull d rs s n) := by
  have hsystem := @systemGens_full d rs s n p hk hr hfats
  have hdata : RegionsFull d s n p (d.mbrSectors + d.dataStart)
      ((dataGens env d l).map (SectorGen.region d s p))
      (d.filesys ≠ .fat32 → d.mbrSectors + d.dataStart < s + n →
        ∀ r ∈ rs, (d.file r.file).isDir = true →
          Clipped s n (d.mbrSectors + r.sectstart) (d.mbrSectors + r.sectend)
            fun o want => LongSlotsOnly d r.file o (want * d.direntPerSector)) := by
    rcases hl with ⟨rfl, hfront⟩ | ⟨rfl, hP⟩
    · refine (freeGen_full ?_).congr (iff_of_true trivial fun _ h => absurd h (by omega))
      exact Nat.le_trans (Nat.add_le_add_left (Nat.le_max_left ..) _) (Nat.le_max_left ..)
    · refine (dataGens_full hk hE hP).congr ⟨fun h h32 _ => h h32, fun h h32 r hr hd hlt => ?_⟩
      have := (hP.chain.mem hr).1
      exact h h32 (by omega) r hr hd hlt
  rw [driveRegions, List.map_append, List.map_append]
  refine ((mbrGens_full hk hpos).append (hsystem.append hdata)).congr ⟨fun h => ?_, fun h => ?_⟩
  · obtain ⟨h1, ⟨h2, h3, h4, h5⟩, h6⟩ := h
    exact ⟨h1, h2, h3, h4, h5, h6⟩
  · exact ⟨h.mbr, ⟨h.reserved, h.fat1, h.fat2, h.root⟩, h.dirs⟩

end Regions

/-! ## Readers that never fail -/

section Total

variable {d : VdfDrive} {rs : List FileRange} {s n p lo : Nat}

theorem SectorGen.region_total {g : SectorGen}
    (h : max s lo < min (s + n) g.hi → ∀ m q,
      g.gen (max s lo) (min (s + n) g.hi - max s lo) m q ≠ none) :
    Total ((g.region d s p).part lo s n) := by
  intro m
  by_cases hlt : max s lo < min (s + n) g.hi
  · rw [Region.part_pos (r := g.region d s p) hlt]
    exact Option.ne_none_iff_exists'.mp (h hlt m _)
  · rw [Region.part_none (r := g.region d s p) (Nat.le_of_not_lt hlt)]
    exact ⟨m, rfl⟩

theorem toOption_ne_none {x : Except Fault Buffer} {m : Buffer} (h : x = .ok m) :
    x.toOption ≠ none := by
  rw [h]
  exact Option.some_ne_none m

/-- With readers that never fail, no region does. -/
theorem driveRegions_total {env : Readers} (hk : d.toGeometry.Known) (hr : Ranged d rs)
    (hfats : FatsStay d rs s n) (hread : ∀ f off len, env.read d f off len ≠ none)
    (l : List FileRange) :
    Regions.Each (fun lo r => Total (r.part lo s n)) 0 (driveRegions env d l s p) := by
  have hb := (sectorSizes_le hk.bps).1
  have h2 := hk.fat2
  have h3 := hk.rootStart
  have h4 := hk.dataStart
  have hend := fatEnd_eq hk
  have hfile (r : FileRange) (u want : Nat) (m : Buffer) (q : Nat) :
      (fileGen env d r).gen u want m q ≠ none := by
    simp only [fileGen]
    split
    · exact Option.some_ne_none _
    · split
      · exact Option.some_ne_none _
      · rw [Ne, Option.map_eq_none_iff]
        exact hread _ _ _
  have hdata (lo : Nat) : Regions.Each (fun lo r => Total (r.part lo s n)) lo
      ((dataGens env d l).map (SectorGen.region d s p)) := by
    unfold dataGens
    induction l generalizing lo with
    | nil => exact ⟨SectorGen.region_total fun _ m q => Option.some_ne_none _, trivial⟩
    | cons r l ih => exact ⟨SectorGen.region_total fun _ m q => hfile r _ _ m q, ih _⟩
  have hfat (start : Nat) {hi : Nat} (hhi : hi = d.mbrSectors + start + d.fatSectors)
      (hstays : Clipped s n (d.mbrSectors + start) hi (FatStays d rs)) :
      Total ((SectorGen.region d s p ⟨hi, fun u want m p =>
        (readSectorFat d (u - (d.mbrSectors + start)) want m p).toOption⟩).part
          (d.mbrSectors + start) s n) := by
    refine SectorGen.region_total fun hlt m q => ?_
    dsimp only at hlt ⊢
    obtain ⟨m', hm, -⟩ := (readSectorFat_stays hk hr (Nat.sub_pos_of_lt hlt)
      (by omega) m q).stays (hstays hlt)
    exact toOption_ne_none hm
  rw [driveRegions, List.map_append, List.map_append, Regions.each_append, Regions.each_append]
  refine ⟨⟨SectorGen.region_total fun _ m q => Option.some_ne_none _,
    SectorGen.region_total fun _ m q => Option.some_ne_none _, trivial⟩,
    ⟨SectorGen.region_total fun _ m q => toOption_ne_none (readSectorBoot_image hk.filesys hb ..),
      hfat d.fat1Start (by omega) hfats.1, hfat d.fat2Start (by omega) hfats.2,
      SectorGen.region_total fun hlt m q => ?_, trivial⟩, hdata _⟩
  have hlt : max s (d.mbrSectors + fatEnd d) < min (s + n) (d.mbrSectors + d.dataStart) := hlt
  refine toOption_ne_none (readSectorDir_eq (.of_known hk (Nat.sub_pos_of_lt hlt) ?_) m q d.rootDir)
  show max s (d.mbrSectors + fatEnd d) - (d.mbrSectors + fatEnd d) +
    (min (s + n) (d.mbrSectors + d.dataStart) - max s (d.mbrSectors + fatEnd d)) ≤ d.rootSectors
  omega

end Total

/-! ## The result -/

section Leaks

variable {d : VdfDrive} {rs : List FileRange} {s n : Nat} (hg : d.toGeometry.Created)
  (hk : d.toGeometry.Known) (hr : Ranged d rs) (hv : d.isValid = true) (hs : s < 2 ^ 32)
  (hn : n < 2 ^ 32) (hpos : 0 < n) (hin : s + n ≤ d.allSectors)

include hg hk hr hv hs hn hpos hin

omit hg hk hr hv hs hn hpos in
/-- The bytes of a request. -/
theorem cut_request (env : Readers) (l : List FileRange) (p : Nat) : cut d s n p 0 = p ∧
    cut d s n p (Regions.fin 0 (driveRegions env d l s p)) = p + n * d.bps := by
  have hfin := driveRegions_fin env d l s p
  unfold cut
  constructor
  · rw [(by omega : min 0 (s + n) - s = 0), Nat.zero_mul, Nat.add_zero]
  · congr 2
    omega

omit hr in
/-- A request serves the files of the data area, or none. -/
theorem exists_served (hP : d.mbrSectors + d.dataStart < s + n → DataPlaced d rs)
    (hfiles : Clipped s n (d.mbrSectors + d.dataStart) d.allSectors fun o want =>
      FilesStay d rs (d.dataStart + o) want) :
    ∃ l, (l = [] ∧ s + n ≤ d.mbrSectors + d.dataStart ∨ l = rs ∧ DataPlaced d rs) ∧
      (∀ env p, Regions.Ordered 0 (driveRegions env d l s p)) ∧
      ∀ env : Readers, env.Bounded → ∀ p m ret m' calls,
        vdfReadSectors env d s n m p = .ok (ret, m', calls) → (∀ c ∈ calls, ¬ env.Fails d c) →
        Regions.serve 0 (driveRegions env d l s p) s n m = some m' := by
  rcases Nat.lt_or_ge (d.mbrSectors + d.dataStart) (s + n) with hlt | hle
  · refine ⟨rs, .inr ⟨rfl, hP hlt⟩, fun env p => driveRegions_ordered hk (.inr (hP hlt)) s p, ?_⟩
    exact fun env hE p m ret m' calls hrun hok =>
      vdfReadSectors_serve hg hk hv hE hs hn hpos hin (.inr (hP hlt)) hfiles hrun hok
  · refine ⟨[], .inl ⟨rfl, hle⟩, fun env p => driveRegions_ordered hk (.inl rfl) s p, ?_⟩
    exact fun env hE p m ret m' calls hrun hok =>
      vdfReadSectors_serve hg hk hv hE hs hn hpos hin (.inl ⟨rfl, hle⟩)
        (fun _ r hr => absurd hr List.not_mem_nil) hrun hok

/-- A request that keeps to the FATs and the files, and overwrites its sectors. -/
theorem SectorsFull.leaksNothing (hP : d.mbrSectors + d.dataStart < s + n → DataPlaced d rs)
    (hfats : FatsStay d rs s n)
    (hfiles : Clipped s n (d.mbrSectors + d.dataStart) d.allSectors fun o want =>
      FilesStay d rs (d.dataStart + o) want)
    (h : SectorsFull d rs s n) : LeaksNothing d s n := by
  have hmin : min n (d.allSectors - s) = n := by omega
  obtain ⟨l, hl, hord, hserve⟩ := exists_served hg hk hv hs hn hpos hin hP hfiles
  refine ⟨fun env hE m p => ?_, fun env hE m₁ m₂ p ret₁ m₁' calls₁ ret₂ m₂' calls₂ h₁ h₂ hok₁ hok₂
    b hb => ?_⟩
  · obtain ⟨ret, m', calls, hrun, -, hout⟩ := vdfReadSectors_reads hg hk hr hv hs hn hpos (by omega)
      (.inl hin) hfats hfiles hP hE m p
    exact ⟨ret, m', calls, hrun, hmin ▸ hout⟩
  · have hfull := @driveRegions_full d rs env s n p hk hpos hr hfats hE l hl
    have hover := Regions.overwrites (fun _ _ => cut_mono d s n p) (hord env p) hfull.inner
      (hfull.iff.mpr h)
    obtain ⟨h1, h2⟩ := cut_request hin env l p
    rw [h1, h2] at hover
    exact hover.same (hserve env hE p _ _ _ _ h₁ hok₁) (hserve env hE p _ _ _ _ h₂ hok₂) (p + b)
      (by omega) (by omega)

omit hin in
/-- A request that returns keeps to the FATs. -/
theorem LeaksNothing.fatsStay (h : LeaksNothing d s n) : FatsStay d rs s n := by
  by_contra hc
  obtain ⟨ret, m', calls, hrun, -⟩ :=
    h.returns (fullReaders fun _ _ => 1) (fullReaders_bounded _) (fun _ => 0) 0
  obtain ⟨f, hf⟩ := vdfReadSectors_error hg hk hr hv hs hn hpos hc (fullReaders fun _ _ => 1)
    (fun _ => 0) 0
  cases hrun.symm.trans hf

/-- What writes to its sectors only keeps to the files. -/
theorem LeaksNothing.filesStay (hP : d.mbrSectors + d.dataStart < s + n → DataPlaced d rs)
    (h : LeaksNothing d s n) :
    Clipped s n (d.mbrSectors + d.dataStart) d.allSectors fun o want =>
      FilesStay d rs (d.dataStart + o) want := by
  intro hmeet
  have hfats := h.fatsStay hg hk hr hv hs hn hpos
  have hlt : frontSectors d s < n := by
    unfold frontSectors
    omega
  have hle : dataSector d s ≤ d.sectors := by
    unfold dataSector
    unfold VdfDrive.allSectors at hmeet
    omega
  obtain ⟨hwant, hsum⟩ := dataWant_eq hk.sectors hle hlt
  by_contra hbad
  rw [← dataSector_eq, ← hwant] at hbad
  obtain ⟨x, v, -, hx, hrun⟩ := vdfReadSectors_writes hg hk hr hv hs hn hpos
    (fullReaders_ones d) (hP (by omega)) hfats hlt
    (by omega)
  have hx := hx hbad
  rw [hsum, (by omega : min n (d.allSectors - s) = n)] at hx
  obtain ⟨ret, m', calls, hrun', hout⟩ :=
    h.returns (fullReaders fun _ _ => 1) (fullReaders_bounded _) (fun _ => v + 1) 0
  obtain ⟨ret', m'', calls', hrun, hv'⟩ := hrun fun _ => v + 1
  cases hrun'.symm.trans hrun
  exact byte_ne_succ v (hv'.symm.trans (hout x (.inr (by omega))))

/-- What leaves nothing of the buffer overwrites every sector. -/
theorem LeaksNothing.sectorsFull (hP : d.mbrSectors + d.dataStart < s + n → DataPlaced d rs)
    (h : LeaksNothing d s n) : SectorsFull d rs s n := by
  have hfats := h.fatsStay hg hk hr hv hs hn hpos
  have hfiles := h.filesStay hg hk hr hv hs hn hpos hin hP
  obtain ⟨l, hl, hord, hserve⟩ := exists_served hg hk hv hs hn hpos hin hP hfiles
  obtain ⟨env, henv⟩ : ∃ env, env = fullReaders fun _ _ => 1 := ⟨_, rfl⟩
  have hE : env.Bounded := henv ▸ fullReaders_bounded _
  have hok (c : ReadCall) : ¬ env.Fails d c := henv ▸ fullReaders_not_fails
  have hread (f : FileId) (off len : Nat) : env.read d f off len ≠ none := hok ⟨f, off, len⟩
  have hfull := @driveRegions_full d rs env s n 0 hk hpos hr hfats hE l hl
  refine hfull.iff.mp (Regions.of_overwrites (fun _ _ => cut_mono d s n 0) (hord env 0) hfull.inner
    (driveRegions_total hk hr hfats hread l) ?_)
  obtain ⟨h1, h2⟩ := cut_request hin env l 0
  rw [h1, h2]
  refine ⟨fun {m₁ m₂ m₁' m₂'} hm₁ hm₂ x _ hx => ?_⟩
  obtain ⟨ret₁, M₁, calls₁, hrun₁, -⟩ := h.returns env hE m₁ 0
  obtain ⟨ret₂, M₂, calls₂, hrun₂, -⟩ := h.returns env hE m₂ 0
  obtain rfl := Option.some.inj (hm₁.symm.trans (hserve env hE 0 _ _ _ _ hrun₁ fun c _ => hok c))
  obtain rfl := Option.some.inj (hm₂.symm.trans (hserve env hE 0 _ _ _ _ hrun₂ fun c _ => hok c))
  have hsame := h.same env hE m₁ m₂ 0 _ _ _ _ _ _ hrun₁ hrun₂ (fun c _ => hok c) (fun c _ => hok c)
    x (by omega)
  rwa [Nat.zero_add] at hsame

end Leaks

/-- On every recalculated drive a read in the drive leaves nothing of the buffer only if it is empty
or keeps to the FATs. It leaves nothing iff it is empty, or it keeps to the FATs and to the files
and overwrites its sectors, where the ranges follow each other through the data area if it goes on
there. -/
theorem vdfReadSectors_leaksNothing_iff (d d' : VdfDrive) (rs : List FileRange)
    (hg : d.toGeometry.Created) (hf : d.filesys ≠ .unset) (ht : d.IsTree) (hr : d.InRange)
    (hcnt : d.allFiles.length ≤ d.fileCnt) (h : Recalc d d') (hrs : d'.ranges = some rs) (s n : Nat)
    (hs : s < 2 ^ 32) (hn : n < 2 ^ 32) (hin : s + n ≤ d'.allSectors) :
    (LeaksNothing d' s n → n = 0 ∨ FatsStay d' rs s n) ∧
    ((d'.mbrSectors + d'.dataStart < s + n → DataPlaced d' rs) →
      (LeaksNothing d' s n ↔ n = 0 ∨ FatsStay d' rs s n ∧
        Clipped s n (d'.mbrSectors + d'.dataStart) d'.allSectors
          (fun o want => FilesStay d' rs (d'.dataStart + o) want) ∧
        SectorsFull d' rs s n)) := by
  obtain ⟨hcan, rs', hq, rfl⟩ := (recalc_iff ht hr.dataStart).mp h
  obtain rfl : rs' = rs := Option.some.inj hrs
  have hk : (recalcDrive d rs').toGeometry.Known := hg.known hf
  have hg : (recalcDrive d rs').toGeometry.Created := hg
  have hranged := Ranged.of_result hr hcnt hq
  have hv : (recalcDrive d rs').isValid = true := hcan.valid
  generalize recalcDrive d rs' = d' at *
  rcases Nat.eq_zero_or_pos n with rfl | hpos
  · refine ⟨fun _ => .inl rfl, fun _ => iff_of_true ?_ (.inl rfl)⟩
    refine ⟨fun env _ m p => ⟨0, m, [], ?_, .refl _ _ _⟩, ?_⟩
    · rw [vdfReadSectors, hv, if_neg (by simp), if_pos rfl]
    · intro _ _ _ _ _ _ _ _ _ _ _ _ _ _ _ b hb
      omega
  · have hne : n ≠ 0 := by omega
    refine ⟨fun hl => .inr (hl.fatsStay hg hk hranged hv hs hn hpos), fun hP => ?_⟩
    rw [or_iff_right hne]
    constructor
    · intro hl
      exact ⟨hl.fatsStay hg hk hranged hv hs hn hpos,
        hl.filesStay hg hk hranged hv hs hn hpos hin hP,
        hl.sectorsFull hg hk hranged hv hs hn hpos hin hP⟩
    · rintro ⟨hfats, hfiles, hfull⟩
      exact hfull.leaksNothing hg hk hranged hv hs hn hpos hin hP hfats hfiles

/-- The boot sector and the FATs of a drive with two files, and a thousand sectors of the files. -/
theorem vdfReadSectors_leaksNothing_sample : ∃ d', Recalc drive16 d' ∧
    LeaksNothing d' 0 33 ∧ LeaksNothing d' 65 1000 := by
  obtain ⟨rs, hq⟩ := Qsort.exists_result cmpFilerange (unsortedRanges drive16)
  have hk := geometry16_created.known (by decide)
  have hL := drive16_fits.dataLayout hk drive16_isTree drive16_inRange (by decide) (by decide) hq
  have hrecalc := (recalc_iff drive16_isTree drive16_inRange.dataStart).mpr
    ⟨drive16_canRecalc, rs, hq, rfl⟩
  have hlen : rs.length = 2 := hq.perm.length_eq.trans (by decide)
  have hfat (sector scnt : Nat) : FatStays (recalcDrive drive16 rs) rs sector scnt :=
    .inr (.inl hlen.symm)
  have hboot : BootFull (recalcDrive drive16 rs) :=
    ⟨fun _ => show 0x10000 ≤ 262217 by decide, fun _ l hl => by cases hl⟩
  have h12 : ¬ (recalcDrive drive16 rs).filesys = .fat12 := show ¬ drive16.filesys = .fat12 by decide
  have hfiles : ∀ r ∈ unsortedRanges drive16, (recalcFile drive16 r.file).isDir = false := by decide
  have hiff (s n : Nat) (hs : s < 2 ^ 32) (hn : n < 2 ^ 32) (hin : s + n ≤ 262217) :=
    (vdfReadSectors_leaksNothing_iff drive16 _ rs geometry16_created (by decide)
      drive16_isTree drive16_inRange (by decide) hrecalc rfl s n hs hn hin).2 fun _ => hL.placed
  refine ⟨_, hrecalc, (hiff 0 33 (by decide) (by decide) (by decide)).mpr (.inr ⟨?_, ?_, ?_⟩),
    (hiff 65 1000 (by decide) (by decide) (by decide)).mpr (.inr ⟨?_, ?_, ?_⟩)⟩
  · exact ⟨fun _ => hfat _ _, fun _ => hfat _ _⟩
  · exact fun _ => hL.filesStay hL.offsetFits_start _
  · refine ⟨fun _ h => absurd h (show ¬ 0 < 0 by decide), fun _ k _ => ?_, fun h => absurd h h12,
      fun h => absurd h h12, fun _ hlt => absurd hlt (show ¬ max 0 33 < min (0 + 33) 65 by decide),
      fun _ hlt => absurd hlt (show ¬ 65 < 0 + 33 by decide)⟩
    exact ⟨fun h => absurd h.1 (show ¬ drive16.filesys = .fat32 by decide), fun _ => ⟨rfl, hboot⟩⟩
  · exact ⟨fun _ => hfat _ _, fun _ => hfat _ _⟩
  · exact fun _ => hL.filesStay hL.offsetFits_start _
  · refine ⟨fun h => absurd h (by decide), fun hlt => absurd hlt
      (show ¬ max 65 0 < min (65 + 1000) 1 by decide), fun h => absurd h h12, fun h => absurd h h12,
      fun _ hlt => absurd hlt (show ¬ max 65 33 < min (65 + 1000) 65 by decide),
      fun _ _ r hr hd => absurd ((hfiles r (hq.perm.mem_iff.mp hr)).symm.trans hd) (by decide)⟩

/-- The first sector of the root directory of this drive: the date of creation of its first slot is
what the buffer held. -/
theorem vdfReadSectors_leaks : ¬ ∀ d d' : VdfDrive, d.toGeometry.Created →
    d.filesys ≠ .unset → d.IsTree → d.InRange → d.allFiles.length ≤ d.fileCnt → Recalc d d' →
    ∀ s n, s < 2 ^ 32 → n < 2 ^ 32 → s + n ≤ d'.allSectors → LeaksNothing d' s n := by
  intro hall
  obtain ⟨rs, hq⟩ := Qsort.exists_result cmpFilerange (unsortedRanges drive16)
  have hk := geometry16_created.known (by decide)
  have hrecalc := (recalc_iff drive16_isTree drive16_inRange.dataStart).mpr
    ⟨drive16_canRecalc, rs, hq, rfl⟩
  have hleaks := hall drive16 _ geometry16_created (by decide) drive16_isTree drive16_inRange
    (by decide) hrecalc 33 1 (by decide) (by decide) (show 33 + 1 ≤ 262217 by decide)
  have hfull := hleaks.sectorsFull geometry16_created hk
    (Ranged.of_result drive16_inRange (by decide) hq) drive16_canRecalc.valid (by decide) (by decide)
    (by decide) (show 33 + 1 ≤ 262217 by decide) fun h => absurd h (show ¬ 65 < 33 + 1 by decide)
  have hroot : LongSlotsOnly (recalcDrive drive16 rs) 0 0 16 :=
    hfull.root (show drive16.filesys ≠ .fat32 by decide) (show max 33 33 < min (33 + 1) 65 by decide)
  have hfirst : (recalcFile drive16 0).entries.find? (fun f =>
      0 * (512 / 32) < (recalcFile drive16 f).fentStart + (recalcFile drive16 f).fentCnt + 1) =
        some 1 := by decide
  have hlong : (hasFlag drive16.flags vdfVfat && (recalcFile drive16 1).longname) = false := by decide
  have hused : 0 * (512 / 32) < (recalcFile drive16 0).dirFentCnt := by decide
  exact absurd ((hroot.2 hused 1 hfirst).1.symm.trans hlong) (by decide)

end Vdf
