import Vdf.DataStays
import Vdf.FatStays
import Vdf.Lookup
import Vdf.ReadParts

/-!
# What `vdf_read_sectors` returns

A request is served region by region, and what is left of it follows from the bound of the last
region (`Served`). The count that is returned is that of the sectors in the drive, unless the request
starts behind the last one: then `drv->sectors - sector` wraps, and most of `2^32` sectors are filled
with zeros. `vdfReadSectors_counts_iff` has the other exceptions: a count from `2^31` on, a FAT or a
file that a generator does not keep to (`FatStays`, `FilesStay`), and a data area behind the end.
-/

namespace Vdf

open Word Buffer

/-! ## Specification -/

/-- A read of `k` sectors to `p`: they are counted unless a call fails, and nothing is written behind
them. -/
structure CountedRead (env : Readers) (d : VdfDrive) (k p : Nat) (m : Buffer) (ret : Int) (m' : Buffer)
    (calls : List ReadCall) : Prop where
  ret : ret = k ∧ (∀ c ∈ calls, ¬ env.Fails d c) ∨ ret = -1 ∧ ∃ c ∈ calls, env.Fails d c
  outside : AgreeOutside p (k * d.bps) m m'

/-- A request for `n` sectors from `s` on reads those of them that are in the drive: none from behind
its end. -/
def CountsSectors (d : VdfDrive) (s n : Nat) : Prop :=
  ∀ env : Readers, env.Bounded → ∀ m p, ∃ ret m' calls,
    vdfReadSectors env d s n m p = .ok (ret, m', calls) ∧
      CountedRead env d (min n (d.allSectors - s)) p m ret m' calls

/-- With given readers a request returns the count of its sectors in the drive, and writes no others. -/
def CountsWith (env : Readers) (d : VdfDrive) (s n : Nat) : Prop :=
  ∀ m p, ∃ m' calls,
    vdfReadSectors env d s n m p = .ok (((min n (d.allSectors - s) : Nat) : Int), m', calls) ∧
      AgreeOutside p (min n (d.allSectors - s) * d.bps) m m'

/-- What a request has of either FAT keeps inside. -/
def FatsStay (d : VdfDrive) (rs : List FileRange) (s n : Nat) : Prop :=
  Clipped s n (d.mbrSectors + d.fat1Start) (d.mbrSectors + d.fat2Start) (FatStays d rs) ∧
    Clipped s n (d.mbrSectors + d.fat2Start) (d.mbrSectors + fatEnd d) (FatStays d rs)

/-! ## Regions -/

/-- The state behind the sectors of a request in front of `bound`. -/
structure Served (d : VdfDrive) (base s n p : Nat) (m : Buffer) (bound : Nat) (t : ReadState) :
    Prop where
  rem : t.rem = n - min n (bound - s)
  cnt : t.cnt = min n (bound - s)
  buff : t.buff = p + t.cnt * d.bps
  agree : AgreeOutside p (t.cnt * d.bps) m t.m
  sector : t.rem ≠ 0 → t.sector + base = s + t.cnt

section Regions

variable {d : VdfDrive} {base s n p bound : Nat} {m : Buffer} {t : ReadState}

/-- The part of a request in the next region. -/
theorem part_eq {rem cnt sector bound' o want : Nat} (hrem : rem = n - min n (bound - s))
    (hcnt : cnt = min n (bound - s)) (hs : sector + base = s + cnt) (h0 : rem ≠ 0)
    (hle : bound ≤ bound') (hbase : base ≤ bound) (hsec : sector < bound' - base)
    (ho : o = max s bound - bound) (hwant : want = min (s + n) bound' - max s bound) :
    0 < want ∧ bound + o + want ≤ bound' ∧ bound + o - base = sector ∧
      want = min (bound' - base - sector) rem ∧ min n (bound' - s) = cnt + want := by
  rcases Nat.le_total s bound with h | h
  · rw [Nat.max_eq_right h] at ho hwant
    omega
  · rw [Nat.max_eq_left h] at ho hwant
    rw [Nat.sub_eq_zero_of_le h, Nat.min_zero] at hrem hcnt
    omega

/-- The next region serves its part of the request, or fails. -/
theorem Served.region (h : Served d base s n p m bound t) (hn : n < 2 ^ 32) (bound' : Nat)
    (hle : bound ≤ bound') (hbase : base ≤ bound) (hlt : bound' < 2 ^ 32 + base)
    (gen : Nat → Nat → Buffer → Nat → Except Fault Buffer) (P : Nat → Nat → Prop)
    (hgen : ∀ o want m p, 0 < want → bound + o + want ≤ bound' →
      StaysWhen (P o want) p (want * d.bps) m (gen (bound + o - base) want m p)) :
    (Clipped s n bound bound' P → ∃ t', readRegion d.bps (bound' - base) gen t = .ok t' ∧
      Served d base s n p m bound' t') ∧
    (¬ Clipped s n bound bound' P → ∃ f, readRegion d.bps (bound' - base) gen t = .error f) := by
  obtain ⟨hrem, hcnt, hbuff, hagree, hsector⟩ := h
  by_cases hskip : t.rem = 0 ∨ bound' - base ≤ t.sector
  · -- Nothing is left, or the region is behind the request.
    have hnone : min (s + n) bound' ≤ max s bound := by
      by_cases h0 : t.rem = 0
      · omega
      · have := hsector h0
        omega
    have hmin : min n (bound' - s) = min n (bound - s) := by omega
    rw [readRegion, if_pos hskip]
    refine ⟨fun _ => ⟨t, rfl, ?_⟩, fun h => absurd (fun hlt => absurd hlt (by omega)) h⟩
    exact ⟨by rw [hmin, hrem], by rw [hmin, hcnt], hbuff, hagree, hsector⟩
  · rw [not_or, Nat.not_le] at hskip
    obtain ⟨h0, hsec⟩ := hskip
    have hs := hsector h0
    obtain ⟨o, ho⟩ : ∃ o, o = max s bound - bound := ⟨_, rfl⟩
    obtain ⟨want, hwant⟩ : ∃ want, want = min (s + n) bound' - max s bound := ⟨_, rfl⟩
    obtain ⟨hpos, hend, hsector', hpart, hmin⟩ :=
      part_eq hrem hcnt hs h0 hle hbase hsec ho hwant
    have hgen' := hgen o want t.m t.buff hpos hend
    have hclip : Clipped s n bound bound' P ↔ P o want := by
      rw [Clipped, ← ho, ← hwant]
      exact ⟨fun h => h (by omega), fun h _ => h⟩
    have hrem : t.rem = n - t.cnt ∧ t.cnt ≤ n := ⟨hcnt ▸ hrem, hcnt ▸ Nat.min_le_left ..⟩
    clear hcnt ho hwant
    have hw : (if bound' - base ≤ t.sector + t.rem then bound' - base - t.sector else t.rem) =
        want := by
      split <;> omega
    rw [hsector'] at hgen'
    rw [readRegion, if_neg (by omega), hclip]
    simp only [hw]
    clear hw
    constructor
    · intro hp
      obtain ⟨m', hm, ha⟩ := hgen'.stays hp
      rw [hm]
      refine ⟨_, rfl, ?_⟩
      have hsum : t.cnt * d.bps + want * d.bps = (t.cnt + want) * d.bps := (Nat.add_mul ..).symm
      have hc : u32 (t.cnt + want) = t.cnt + want := u32_of_lt (by omega)
      refine ⟨by dsimp only; omega, by dsimp only; omega, ?_, ?_, fun h => ?_⟩
      · dsimp only
        rw [hc]
        omega
      · dsimp only
        rw [hc]
        exact (hagree.mono (Nat.le_refl _) (by omega)).trans (ha.mono (by omega) (by omega))
      · dsimp only at h ⊢
        rw [hc, u32_of_lt (by omega)]
        omega
    · intro hp
      obtain ⟨f, hf⟩ := hgen'.fails hp
      rw [hf]
      exact ⟨f, rfl⟩

end Regions

/-! ## The sectors in front of the FATs -/

section Front

variable {d : VdfDrive}

theorem fsinfoRecord_within (d : VdfDrive) : (fsinfoRecord d).Within 512 := by
  simp only [Record.Within, fsinfoRecord, List.forall_mem_cons, length_le, List.length_replicate]
  decide

theorem mbrRecord_within (d : VdfDrive) : (mbrRecord d).Within 512 := by
  refine Record.Within.append (Record.Within.append ?_ ?_) ?_
  · simp only [Record.Within, List.forall_mem_cons, length_le, List.length_replicate]
    decide
  · cases partType d.filesys <;> simp [Record.Within]
  · simp only [Record.Within, List.forall_mem_cons, length_le, List.length_replicate]
    decide

theorem readSectorMbr_agree (hb : 512 ≤ d.bps) (m : Buffer) (p : Nat) :
    AgreeOutside p d.bps m (readSectorMbr d m p) :=
  .store m p ((mbrRecord_within d).mono hb)

theorem bootSector_stays (hf : d.filesys ≠ .unset) (hb : 512 ≤ d.bps) (sector : Nat) (m : Buffer)
    (p : Nat) : Stays p d.bps m (bootSector d sector m p) := by
  obtain ⟨r, hr⟩ := bootRecord_isOk hf
  unfold bootSector
  split
  · exact ⟨_, rfl, .store m p ((fsinfoRecord_within d).mono hb)⟩
  · split
    · exact ⟨_, rfl, .fill m p d.bps 0⟩
    · rw [hr]
      exact ⟨_, rfl, .store m p ((bootRecord_within hr).mono hb)⟩

theorem readSectorBoot_stays (hf : d.filesys ≠ .unset) (hb : 512 ≤ d.bps) (sector scnt : Nat)
    (m : Buffer) (p : Nat) : Stays p (scnt * d.bps) m (readSectorBoot d sector scnt m p) := by
  induction scnt generalizing sector m p with
  | zero => exact ⟨m, rfl, .refl _ _ _⟩
  | succ scnt ih =>
    obtain ⟨m₁, h₁, ha₁⟩ := bootSector_stays hf hb sector m p
    obtain ⟨m₂, h₂, ha₂⟩ := ih (sector + 1) m₁ (p + d.bps)
    refine ⟨m₂, by rw [readSectorBoot, h₁]; exact h₂, ?_⟩
    rw [Nat.succ_mul]
    exact (ha₁.mono (Nat.le_refl _) (by omega)).trans (ha₂.mono (by omega) (by omega))

/-- The sectors in front of the file system are served. -/
theorem readMbr_served (hg : d.toGeometry.Created) (hk : d.toGeometry.Known) {s n : Nat}
    (hs : s < 2 ^ 32) (hn : n < 2 ^ 32) (hpos : 0 < n) (m : Buffer) (p : Nat) :
    ∃ t, readMbr d { sector := s, rem := n, cnt := 0, buff := p, m } = .ok t ∧
      Served d d.mbrSectors s n p m d.mbrSectors t := by
  have hb := (sectorSizes_le hk.bps).1
  have hmbr : d.mbrSectors < 2 ^ 32 := by
    have := hk.mbr
    have := (clusterSectors_le hk.spc).2
    omega
  unfold readMbr
  split
  · rename_i hf
    have h1 := hg.mbrSectors_pos hf
    -- The first sector.
    have hstart : ∃ t, (if s = 0 then
          { sector := 1, rem := n - 1, cnt := 1, buff := p + d.bps, m := readSectorMbr d m p }
        else { sector := s, rem := n, cnt := 0, buff := p, m }) = t ∧ Served d 0 s n p m 1 t := by
      refine ⟨_, rfl, ?_⟩
      split
      · have ha := readSectorMbr_agree hb m p
        have hmin : min n (1 - s) = 1 := by omega
        exact ⟨by rw [hmin], hmin.symm, by simp, by simpa using ha, fun _ => by dsimp only; omega⟩
      · have hmin : min n (1 - s) = 0 := by omega
        exact ⟨by rw [hmin]; rfl, hmin.symm, by simp, .refl _ _ _, fun _ => rfl⟩
    obtain ⟨t, ht, hserved⟩ := hstart
    obtain ⟨t', ht', hserved'⟩ := (hserved.region hn d.mbrSectors h1 (by omega) (by omega)
      (fun _ want m p => .ok (m.fill p (d.bps * want) 0)) (fun _ _ => True)
      fun o want m p _ _ => .of_stays trivial ⟨_, rfl, Nat.mul_comm want d.bps ▸ .fill _ _ _ _⟩).1
      fun _ => trivial
    rw [Nat.sub_zero] at ht'
    dsimp only
    rw [ht, ht']
    obtain ⟨hrem, hcnt, hbuff, hagree, hsector⟩ := hserved'
    refine ⟨_, rfl, hrem, hcnt, hbuff, hagree, fun h => ?_⟩
    have hsec := hsector h
    dsimp only at h ⊢
    rw [subU32_of_le (by omega) (by omega)]
    omega
  · rename_i hf
    have h0 := hg.mbrSectors (by simpa using hf)
    refine ⟨_, rfl, ?_⟩
    rw [h0]
    exact ⟨by simp, by simp, by simp, .refl _ _ _, fun _ => rfl⟩

end Front

/-! ## The system area -/

section System

variable {d : VdfDrive} {rs : List FileRange}

/-- A request inside the root directory of FAT12 and FAT16. -/
theorem DirRequest.of_known (hk : d.toGeometry.Known) {sector scnt : Nat} (hpos : 0 < scnt)
    (hle : sector + scnt ≤ d.rootSectors) : DirRequest d sector scnt := by
  obtain ⟨hb1, hb2⟩ := sectorSizes_le hk.bps
  have hroot := hk.rootSectors
  have hdps : d.direntPerSector = d.bps / 32 := hk.dirent
  have h1 : scnt * d.direntPerSector ≤ scnt * 128 := Nat.mul_le_mul_left _ (by omega)
  have h2 : sector * (d.bps / 32) ≤ sector * 128 := Nat.mul_le_mul_left _ (by omega)
  exact ⟨hpos, by omega, by omega, by omega⟩

theorem readSectorDir_stays (hk : d.toGeometry.Known) {sector scnt : Nat} (hpos : 0 < scnt)
    (hle : sector + scnt ≤ d.rootSectors) (m : Buffer) (p : Nat) (dir : FileId) :
    Stays p (scnt * d.bps) m (readSectorDir d sector scnt m p dir) :=
  ⟨_, readSectorDir_eq (.of_known hk hpos hle) m p dir,
    storeAll_agree hk.bps hk.dirent m p dir sector scnt⟩

/-- The sectors up to the data area are served when both FATs keep inside. -/
theorem readSystem_served (hk : d.toGeometry.Known) (hr : Ranged d rs) {s n p : Nat} {m : Buffer}
    {t : ReadState} (hn : n < 2 ^ 32) (h : Served d d.mbrSectors s n p m d.mbrSectors t) :
    (FatsStay d rs s n → ∃ t', readSystem d t = .ok t' ∧
      Served d d.mbrSectors s n p m (d.mbrSectors + d.dataStart) t') ∧
    (¬ FatsStay d rs s n → ∃ f, readSystem d t = .error f) := by
  have hb := (sectorSizes_le hk.bps).1
  have h1 := hk.fat1_le
  have h2 := hk.fat2
  have h3 := hk.fatSectors
  have h4 := hk.rootStart
  have h5 := hk.dataStart
  have h6 := hk.rootSectors
  have hend := fatEnd_eq hk
  have hadd (x : Nat) : d.mbrSectors + x - d.mbrSectors = x := Nat.add_sub_cancel_left ..
  -- The boot sectors are always served.
  obtain ⟨t₁, e₁, s₁⟩ := (h.region hn (d.mbrSectors + d.fat1Start) (by omega) (by omega)
    (by omega) (fun sector want m p => readSectorBoot d sector want m p) (fun _ _ => True)
    fun o want m p _ _ => .of_stays trivial (readSectorBoot_stays hk.filesys hb _ _ m p)).1
    fun _ => trivial
  rw [hadd] at e₁
  have hfat (start : Nat) (hstart : start < 2 ^ 31) (o want : Nat) (m : Buffer) (p : Nat)
      (hw : 0 < want)
      (ho : d.mbrSectors + start + o + want ≤ d.mbrSectors + (start + d.fatSectors)) :
      StaysWhen (FatStays d rs o want) p (want * d.bps) m
        (readSectorFat d (subU32 (d.mbrSectors + start + o - d.mbrSectors) start) want m p) := by
    rw [Nat.add_assoc, hadd, subU32_of_le (by omega) (by omega), Nat.add_sub_cancel_left]
    exact readSectorFat_stays hk hr hw (by omega) m p
  have hdir (o want : Nat) (m : Buffer) (p : Nat) (hw : 0 < want)
      (ho : d.mbrSectors + fatEnd d + o + want ≤ d.mbrSectors + d.dataStart) :
      Stays p (want * d.bps) m (readSectorDir d
        (subU32 (d.mbrSectors + fatEnd d + o - d.mbrSectors) d.rootStart) want m p d.rootDir) := by
    rw [Nat.add_assoc, hadd, subU32_of_le (by omega) (by omega)]
    exact readSectorDir_stays hk hw (by omega) m p d.rootDir
  obtain ⟨hok₂, herr₂⟩ := s₁.region hn (d.mbrSectors + d.fat2Start) (by omega) (by omega)
    (by omega) (fun sector want m p => readSectorFat d (subU32 sector d.fat1Start) want m p)
    (FatStays d rs) fun o want m p hw ho => hfat d.fat1Start (by omega) o want m p hw (by omega)
  rw [hadd] at hok₂ herr₂
  have hsys : readSystem d t = (readRegion d.bps d.fat2Start
      (fun sector want m p => readSectorFat d (subU32 sector d.fat1Start) want m p) t₁).bind
      fun t => (readRegion d.bps (fatEnd d)
        (fun sector want m p => readSectorFat d (subU32 sector d.fat2Start) want m p) t).bind
        fun t => if d.filesys ≠ .fat32 then readRegion d.bps d.dataStart
          (fun sector want m p => readSectorDir d (subU32 sector d.rootStart) want m p d.rootDir) t
        else .ok t := by
    rw [readSystem, e₁]
    rfl
  rw [hsys, FatsStay]
  by_cases hc₂ : Clipped s n (d.mbrSectors + d.fat1Start) (d.mbrSectors + d.fat2Start) (FatStays d rs)
  · obtain ⟨t₂, e₂, s₂⟩ := hok₂ hc₂
    obtain ⟨hok₃, herr₃⟩ := s₂.region hn (d.mbrSectors + fatEnd d) (by omega) (by omega)
      (by omega) (fun sector want m p => readSectorFat d (subU32 sector d.fat2Start) want m p)
      (FatStays d rs) fun o want m p hw ho => hfat d.fat2Start (by omega) o want m p hw (by omega)
    rw [hadd] at hok₃ herr₃
    rw [e₂, and_iff_right hc₂]
    refine ⟨fun hc₃ => ?_, fun hc₃ => ?_⟩
    · obtain ⟨t₃, e₃, s₃⟩ := hok₃ hc₃
      dsimp only [Except.bind]
      rw [e₃]
      dsimp only
      split
      · obtain ⟨t₄, e₄, s₄⟩ := (s₃.region hn (d.mbrSectors + d.dataStart) (by omega) (by omega)
          (by omega)
          (fun sector want m p => readSectorDir d (subU32 sector d.rootStart) want m p d.rootDir)
          (fun _ _ => True) fun o want m p hw ho => .of_stays trivial (hdir o want m p hw ho)).1
          fun _ => trivial
        rw [hadd] at e₄
        exact ⟨t₄, e₄, s₄⟩
      · rename_i hf
        have h0 := hk.root32 (by simpa using hf)
        rw [(by omega : d.dataStart = fatEnd d)]
        exact ⟨t₃, rfl, s₃⟩
    · obtain ⟨f, hf⟩ := herr₃ hc₃
      dsimp only [Except.bind]
      rw [hf]
      exact ⟨f, rfl⟩
  · obtain ⟨f, hf⟩ := herr₂ hc₂
    rw [hf]
    exact ⟨fun h => absurd h.1 hc₂, fun _ => ⟨f, rfl⟩⟩

end System

/-! ## A request -/

/-- The part of a request in front of the data area, -/
def frontSectors (d : VdfDrive) (s : Nat) : Nat := d.mbrSectors + d.dataStart - s

/-- the first sector behind it, -/
def dataSector (d : VdfDrive) (s : Nat) : Nat := max s (d.mbrSectors + d.dataStart) - d.mbrSectors

/-- and `want` there. -/
def dataWant (d : VdfDrive) (s n : Nat) : Nat :=
  if d.sectors ≤ dataSector d s + (n - frontSectors d s) then subU32 d.sectors (dataSector d s)
  else n - frontSectors d s

theorem dataSector_eq (d : VdfDrive) (s : Nat) : dataSector d s =
    d.dataStart + (max s (d.mbrSectors + d.dataStart) - (d.mbrSectors + d.dataStart)) := by
  unfold dataSector
  omega

/-- In the drive the data area is asked for the rest of its sectors. -/
theorem dataWant_eq {d : VdfDrive} {s n : Nat} (hsec : d.sectors < 2 ^ 32)
    (hin : dataSector d s ≤ d.sectors) (hlt : frontSectors d s < n) :
    dataWant d s n = min (s + n) d.allSectors - max s (d.mbrSectors + d.dataStart) ∧
      frontSectors d s + dataWant d s n = min n (d.allSectors - s) := by
  have hwant : dataWant d s n = min (n - frontSectors d s) (d.sectors - dataSector d s) := by
    rw [dataWant, subU32_of_le hsec hin]
    split <;> omega
  rw [hwant]
  unfold frontSectors at hlt ⊢
  unfold dataSector at hin ⊢
  unfold VdfDrive.allSectors
  clear hwant
  rcases Nat.le_total s (d.mbrSectors + d.dataStart) with h | h
  · rw [Nat.max_eq_right h]
    omega
  · rw [Nat.max_eq_left h, Nat.sub_eq_zero_of_le h] at *
    omega

section Request

variable {d : VdfDrive} {rs : List FileRange} (hg : d.toGeometry.Created)
  (hk : d.toGeometry.Known) (hr : Ranged d rs) (hv : d.isValid = true) {s n : Nat}
  (hs : s < 2 ^ 32) (hn : n < 2 ^ 32) (hpos : 0 < n)

include hg hk hr hv hs hn hpos

theorem vdfReadSectors_error (h : ¬ FatsStay d rs s n) (env : Readers) (m : Buffer) (p : Nat) :
    ∃ f, vdfReadSectors env d s n m p = .error f := by
  obtain ⟨t, ht, hserved⟩ := readMbr_served hg hk hs hn hpos m p
  obtain ⟨f, hf⟩ := (readSystem_served hk hr hn hserved).2 h
  refine ⟨f, ?_⟩
  rw [vdfReadSectors, hv, if_neg (by simp), if_neg (by omega), ht]
  show (readSystem d t).bind _ = _
  rw [hf]
  rfl

/-- The state at the data area. -/
theorem vdfReadSectors_served (h : FatsStay d rs s n) (env : Readers) (m : Buffer) (p : Nat) :
    ∃ t, Served d d.mbrSectors s n p m (d.mbrSectors + d.dataStart) t ∧
      vdfReadSectors env d s n m p =
        if t.rem = 0 then .ok (toI32 t.cnt, t.m, [])
        else
          let want := if d.sectors ≤ t.sector + t.rem then subU32 d.sectors t.sector else t.rem
          (readSectorData env d t.sector want t.m t.buff).bind fun (r, m, calls) =>
            .ok (if r = -1 then (-1, m, calls) else (toI32 (u32 (t.cnt + want)), m, calls)) := by
  obtain ⟨t, ht, hserved⟩ := readMbr_served hg hk hs hn hpos m p
  obtain ⟨t', ht', hserved'⟩ := (readSystem_served hk hr hn hserved).1 h
  refine ⟨t', hserved', ?_⟩
  rw [vdfReadSectors, hv, if_neg (by simp), if_neg (by omega), ht]
  show (readSystem d t).bind _ = _
  rw [ht']
  rfl

/-- A request that ends in front of the data area. -/
theorem vdfReadSectors_front (h : FatsStay d rs s n) (hle : n ≤ frontSectors d s) (env : Readers)
    (m : Buffer) (p : Nat) : ∃ m', AgreeOutside p (n * d.bps) m m' ∧
      vdfReadSectors env d s n m p = .ok (toI32 n, m', []) := by
  obtain ⟨t, ht, hrun⟩ := vdfReadSectors_served hg hk hr hv hs hn hpos h env m p
  unfold frontSectors at hle
  have hcnt : t.cnt = n := by rw [ht.cnt]; omega
  have hrem : t.rem = 0 := by rw [ht.rem]; omega
  rw [if_pos hrem, hcnt] at hrun
  exact ⟨t.m, hcnt ▸ ht.agree, hrun⟩

/-- A request that goes on there. -/
theorem vdfReadSectors_data (h : FatsStay d rs s n) (hlt : frontSectors d s < n) (env : Readers)
    (m : Buffer) (p : Nat) : ∃ m₁, AgreeOutside p (frontSectors d s * d.bps) m m₁ ∧
      vdfReadSectors env d s n m p =
        (readSectorData env d (dataSector d s) (dataWant d s n) m₁
          (p + frontSectors d s * d.bps)).bind fun (r, m, calls) =>
            .ok (if r = -1 then (-1, m, calls)
              else (toI32 (u32 (frontSectors d s + dataWant d s n)), m, calls)) := by
  obtain ⟨t, ht, hrun⟩ := vdfReadSectors_served hg hk hr hv hs hn hpos h env m p
  have hc : t.cnt = frontSectors d s := by
    rw [ht.cnt]
    unfold frontSectors at hlt ⊢
    omega
  have hrem : t.rem = n - frontSectors d s := by rw [ht.rem, ← ht.cnt, hc]
  have hsec : t.sector = dataSector d s := by
    have h1 := ht.sector (by omega)
    rw [hc] at h1
    unfold frontSectors at h1
    unfold dataSector
    omega
  rw [if_neg (by omega), ht.buff, hc, hrem, hsec] at hrun
  exact ⟨t.m, hc ▸ ht.agree, hrun⟩

end Request

/-! ## Which requests are counted -/

/-- The conditions on a request of at least one sector: it starts in the drive, its sectors are an
`int`, it ends in the drive or the data area starts there, and the FATs and files keep inside. -/
structure ReadFits (d : VdfDrive) (rs : List FileRange) (s n : Nat) : Prop where
  start : s ≤ d.allSectors
  int : min n (d.allSectors - s) < 2 ^ 31
  data : s + n ≤ d.allSectors ∨ d.dataStart ≤ d.sectors
  fats : FatsStay d rs s n
  files : Clipped s n (d.mbrSectors + d.dataStart) d.allSectors fun o want =>
    FilesStay d rs (d.dataStart + o) want

section Fits

variable {d : VdfDrive} {rs : List FileRange} (hg : d.toGeometry.Created)
  (hk : d.toGeometry.Known) (hr : Ranged d rs) (hv : d.isValid = true) {s n : Nat}
  (hs : s < 2 ^ 32) (hn : n < 2 ^ 32) (hpos : 0 < n)

include hg hk hr hv hs hn hpos

/-- A request returns and stays inside, and counts its sectors unless a call fails. -/
theorem vdfReadSectors_reads (hstart : s ≤ d.allSectors)
    (hdata : s + n ≤ d.allSectors ∨ d.dataStart ≤ d.sectors) (hfats : FatsStay d rs s n)
    (hfiles : Clipped s n (d.mbrSectors + d.dataStart) d.allSectors fun o want =>
      FilesStay d rs (d.dataStart + o) want)
    (hP : d.mbrSectors + d.dataStart < s + n → DataPlaced d rs) {env : Readers} (hE : env.Bounded)
    (m : Buffer) (p : Nat) : ∃ ret m' calls, vdfReadSectors env d s n m p = .ok (ret, m', calls) ∧
      (ret = toI32 (min n (d.allSectors - s)) ∧ (∀ c ∈ calls, ¬ env.Fails d c) ∨
        ret = -1 ∧ ∃ c ∈ calls, env.Fails d c) ∧
      AgreeOutside p (min n (d.allSectors - s) * d.bps) m m' := by
  have hb := (sectorSizes_le hk.bps).1
  rcases Nat.lt_or_ge (frontSectors d s) n with hlt | hle
  · have hP := hP (by unfold frontSectors at hlt; omega)
    obtain ⟨m₁, ha, hrun⟩ := vdfReadSectors_data hg hk hr hv hs hn hpos hfats hlt env m p
    have hin : dataSector d s ≤ d.sectors := by
      unfold frontSectors at hlt
      unfold dataSector
      unfold VdfDrive.allSectors at hstart hdata
      omega
    obtain ⟨hwant, hsum⟩ := dataWant_eq hk.sectors hin hlt
    have hfit : FilesStay d rs (dataSector d s) (dataWant d s n) := by
      rw [hwant, dataSector_eq]
      by_cases hmeet : max s (d.mbrSectors + d.dataStart) < min (s + n) d.allSectors
      · exact hfiles hmeet
      · intro r _ _ h1 h2
        omega
    obtain ⟨ret, t, calls, hloop, ha', hcalls, hret⟩ := dataLoop_stays hP hk.bps hk.dirent hE _
      { sector := dataSector d s, scnt := dataWant d s n, buffer := p + frontSectors d s * d.bps
        m := m₁, calls := [] } (by unfold dataSector; dsimp only; omega) hfit (Nat.le_refl _)
    dsimp only at hloop ha' hcalls
    rw [List.nil_append] at hcalls
    rw [readSectorData, hloop, hsum, u32_of_lt (by omega)] at hrun
    have hout : AgreeOutside p (min n (d.allSectors - s) * d.bps) m t.m := by
      rw [← hsum, Nat.add_mul]
      exact (ha.mono (Nat.le_refl _) (by omega)).trans (ha'.mono (by omega) (by omega))
    rcases hret with ⟨rfl, hok⟩ | ⟨rfl, hfail⟩
    · exact ⟨_, _, _, hrun, .inl ⟨rfl, hcalls ▸ hok⟩, hout⟩
    · exact ⟨_, _, _, hrun, .inr ⟨rfl, hcalls ▸ hfail⟩, hout⟩
  · obtain ⟨m', ha, hrun⟩ := vdfReadSectors_front hg hk hr hv hs hn hpos hfats hle env m p
    have hmin : min n (d.allSectors - s) = n := by
      unfold frontSectors at hle
      unfold VdfDrive.allSectors at hdata ⊢
      omega
    rw [hmin]
    exact ⟨_, _, _, hrun, .inl ⟨rfl, by simp⟩, ha⟩

theorem ReadFits.counts (hP : d.mbrSectors + d.dataStart < s + n → DataPlaced d rs)
    (h : ReadFits d rs s n) : CountsSectors d s n := by
  intro env hE m p
  obtain ⟨ret, m', calls, hrun, hret, hout⟩ :=
    vdfReadSectors_reads hg hk hr hv hs hn hpos h.start h.data h.fats h.files hP hE m p
  rw [toI32_of_lt h.int] at hret
  exact ⟨ret, m', calls, hrun, hret, hout⟩

end Fits

/-! ## Only these -/

theorem fullReaders_bounded (content : FileId → Nat → UInt8) : (fullReaders content).Bounded := by
  constructor <;>
  · intro f off len l hl
    cases hl
    simp

theorem fullReaders_not_fails {content : FileId → Nat → UInt8} {d : VdfDrive} {c : ReadCall} :
    ¬ (fullReaders content).Fails d c := by
  rw [Readers.Fails, (fullReaders_reads content).read]
  simp

theorem byte_ne_succ (v : UInt8) : v ≠ v + 1 := by
  intro h
  have hsame := congrArg UInt8.toNat h
  rw [UInt8.toNat_add, UInt8.toNat_one] at hsame
  omega

section Counts

variable {d : VdfDrive} {rs : List FileRange} {s n : Nat} {env : Readers}

/-- What is counted is counted with readers that never fail. -/
theorem CountsSectors.countsWith (h : CountsSectors d s n) (hE : env.Bounded)
    (hok : ∀ c, ¬ env.Fails d c) : CountsWith env d s n := by
  intro m p
  obtain ⟨ret, m', calls, hrun, ⟨rfl, -⟩ | ⟨-, c, -, hc⟩, hout⟩ := h env hE m p
  · exact ⟨m', calls, hrun, hout⟩
  · exact absurd hc (hok c)

theorem CountsSectors.full (h : CountsSectors d s n) :
    CountsWith (fullReaders fun _ _ => 1) d s n :=
  h.countsWith (fullReaders_bounded fun _ _ => 1) fun _ => fullReaders_not_fails

/-- A byte that the readers leave with one value is a byte of these sectors. -/
theorem CountsWith.lt (h : CountsWith env d s n) {x : Nat} {v : UInt8}
    (hx : ∀ m, ∃ ret m' calls,
      vdfReadSectors env d s n m 0 = .ok (ret, m', calls) ∧ m' x = v) :
    x < min n (d.allSectors - s) * d.bps := by
  by_contra hge
  obtain ⟨m', calls, hrun, hout⟩ := h (fun _ => v + 1) 0
  obtain ⟨ret, m'', calls', hrun', hv⟩ := hx fun _ => v + 1
  cases hrun.symm.trans hrun'
  exact byte_ne_succ v (hv.symm.trans (hout x (.inr (by omega))))

variable (hg : d.toGeometry.Created) (hk : d.toGeometry.Known) (hr : Ranged d rs)
  (hv : d.isValid = true) (hs : s < 2 ^ 32) (hn : n < 2 ^ 32) (hpos : 0 < n)

include hg hk hr hv hs hn hpos

theorem CountsWith.fatsStay (h : CountsWith env d s n) : FatsStay d rs s n := by
  by_contra hc
  obtain ⟨m', calls, hrun, -⟩ := h (fun _ => 0) 0
  obtain ⟨f, hf⟩ := vdfReadSectors_error hg hk hr hv hs hn hpos hc env (fun _ => 0) 0
  cases hrun.symm.trans hf

/-- What is counted starts in the drive, and its sectors are an `int`. Without the data area it ends
there. -/
theorem CountsWith.window (h : CountsWith env d s n) :
    s ≤ d.allSectors ∧ min n (d.allSectors - s) < 2 ^ 31 ∧
      (n ≤ frontSectors d s → s + n ≤ d.allSectors) := by
  have hfats := h.fatsStay hg hk hr hv hs hn hpos
  obtain ⟨m', calls, hrun, -⟩ := h (fun _ => 0) 0
  have hsec := hk.sectors
  unfold VdfDrive.allSectors at *
  rcases Nat.lt_or_ge (frontSectors d s) n with hlt | hle
  · obtain ⟨m₁, -, hrun'⟩ := vdfReadSectors_data hg hk hr hv hs hn hpos hfats hlt
      env (fun _ => 0) 0
    have hcount : toI32 (u32 (frontSectors d s + dataWant d s n)) =
        (min n (d.sectors + d.mbrSectors - s) : Nat) := by
      rw [hrun] at hrun'
      cases hdata : readSectorData env d (dataSector d s) (dataWant d s n) m₁
        (0 + frontSectors d s * d.bps) with
      | error f =>
        rw [hdata] at hrun'
        cases hrun'
      | ok q =>
        rw [hdata] at hrun'
        simp only [Except.bind, Except.ok.injEq] at hrun'
        split at hrun'
        · injection hrun' with h1
          omega
        · injection hrun' with h1
          exact h1.symm
    rw [toI32_eq_natCast (u32_lt _)] at hcount
    obtain ⟨h1, h2⟩ := hcount
    rw [h1] at h2
    have hds := hk.dataStart_lt
    obtain ⟨c, hc⟩ : ∃ c, c = frontSectors d s := ⟨_, rfl⟩
    obtain ⟨sec, hsec'⟩ : ∃ sec, sec = dataSector d s := ⟨_, rfl⟩
    have hlink : sec + d.mbrSectors = s + c ∧ (c = 0 ∨ s + c = d.mbrSectors + d.dataStart) := by
      rw [hc, hsec', frontSectors, dataSector]
      omega
    rw [dataWant, ← hc, ← hsec'] at h1
    rw [← hc] at hlt
    rcases Nat.lt_or_ge d.sectors sec with hbehind | hin
    · -- `want` has wrapped.
      rw [if_pos (by omega), subU32_of_lt (by omega) hbehind, u32] at h1
      omega
    · rw [subU32_of_le hsec hin] at h1
      split at h1 <;> rw [u32_of_lt (by omega)] at h1 <;> omega
  · obtain ⟨m', -, hrun'⟩ := vdfReadSectors_front hg hk hr hv hs hn hpos hfats hle
      env (fun _ => 0) 0
    have hcount := (Prod.mk.inj (Except.ok.inj (hrun.symm.trans hrun'))).1
    rw [eq_comm, toI32_eq_natCast hn] at hcount
    omega

/-- The byte that a request in the data area is certain to write. -/
theorem vdfReadSectors_writes (hE : env.Ones d) (hP : DataPlaced d rs) (hfats : FatsStay d rs s n)
    (hlt : frontSectors d s < n) (hwant : 0 < dataWant d s n) : ∃ (x : Nat) (v : UInt8),
      (frontSectors d s + dataWant d s n) * d.bps ≤ x + 1 ∧
      (¬ FilesStay d rs (dataSector d s) (dataWant d s n) →
        (frontSectors d s + dataWant d s n) * d.bps ≤ x) ∧
      ∀ m, ∃ ret m' calls,
        vdfReadSectors env d s n m 0 = .ok (ret, m', calls) ∧ m' x = v := by
  obtain ⟨x, v, h1, h2, hrun⟩ := dataLoop_overruns hP hk.bps hk.dirent hE (dataWant d s n)
    { sector := dataSector d s, scnt := dataWant d s n, buffer := 0 + frontSectors d s * d.bps
      m := fun _ => 0, calls := [] }
    (by rw [dataSector_eq]; exact Nat.le_add_right _ _) hwant (Nat.le_refl _)
  rw [Nat.zero_add, ← Nat.add_mul] at h1 h2
  refine ⟨x, v, h1, h2, fun m => ?_⟩
  obtain ⟨m₁, -, hread⟩ := vdfReadSectors_data hg hk hr hv hs hn hpos hfats hlt env m 0
  obtain ⟨t, ht, htx⟩ := hrun m₁
  dsimp only at ht
  rw [readSectorData, ht] at hread
  exact ⟨_, _, _, hread, htx⟩

/-- What is counted for files of ones fits. -/
theorem CountsWith.fits (hE : env.Ones d) (hP : d.mbrSectors + d.dataStart < s + n → DataPlaced d rs)
    (h : CountsWith env d s n) : ReadFits d rs s n := by
  have hb := (sectorSizes_le hk.bps).1
  have hfats := h.fatsStay hg hk hr hv hs hn hpos
  obtain ⟨hstart, hint, hfront⟩ := h.window hg hk hr hv hs hn hpos
  rcases Nat.lt_or_ge (frontSectors d s) n with hlt | hle
  · have hwrites := vdfReadSectors_writes hg hk hr hv hs hn hpos hE
      (hP (by unfold frontSectors at hlt; omega)) hfats hlt
    have hdata : s + n ≤ d.allSectors ∨ d.dataStart ≤ d.sectors := by
      by_contra hbad
      rw [not_or, Nat.not_le, Nat.not_le] at hbad
      -- The request is filled up to the wrapped count.
      have hsum : frontSectors d s + dataWant d s n = 2 ^ 32 + (d.allSectors - s) := by
        have h32 := hk.dataStart_lt
        unfold VdfDrive.allSectors at hstart hbad ⊢
        have hsec : dataSector d s = d.dataStart := by
          unfold dataSector
          omega
        rw [dataWant, hsec, if_pos (by omega), subU32_of_lt h32 hbad.2, frontSectors]
        omega
      obtain ⟨x, v, hx, -, hrun⟩ := hwrites (by unfold frontSectors VdfDrive.allSectors at *; omega)
      have hlt' := h.lt hrun
      have hmul : (min n (d.allSectors - s) + 1) * d.bps ≤
          (frontSectors d s + dataWant d s n) * d.bps := Nat.mul_le_mul_right _ (by omega)
      rw [Nat.succ_mul] at hmul
      omega
    refine ⟨hstart, hint, hdata, hfats, fun hmeet => ?_⟩
    have hin : dataSector d s ≤ d.sectors := by
      unfold dataSector
      unfold VdfDrive.allSectors at hmeet
      omega
    obtain ⟨hwant, hsum⟩ := dataWant_eq hk.sectors hin hlt
    by_contra hbad
    dsimp only at hbad
    rw [← dataSector_eq, ← hwant] at hbad
    obtain ⟨x, v, -, hx, hrun⟩ := hwrites (by omega)
    have hlt' := h.lt hrun
    have := hx hbad
    rw [hsum] at this
    omega
  · refine ⟨hstart, hint, .inl (hfront hle), hfats, fun hmeet => ?_⟩
    unfold frontSectors at hle
    omega

end Counts

/-! ## The result -/

/-- On every recalculated drive a request is counted only if it is empty, or it starts in the drive, has
fewer than `2^31` sectors there, and keeps to the FATs. It is counted iff it is empty or `ReadFits`,
where the ranges follow each other through the data area if it goes on there. -/
theorem vdfReadSectors_counts_iff (d d' : VdfDrive) (rs : List FileRange)
    (hg : d.toGeometry.Created) (hf : d.filesys ≠ .unset) (ht : d.IsTree) (hr : d.InRange)
    (hcnt : d.allFiles.length ≤ d.fileCnt) (h : Recalc d d') (hrs : d'.ranges = some rs) (s n : Nat)
    (hs : s < 2 ^ 32) (hn : n < 2 ^ 32) :
    (CountsSectors d' s n →
      n = 0 ∨ s ≤ d'.allSectors ∧ min n (d'.allSectors - s) < 2 ^ 31 ∧ FatsStay d' rs s n) ∧
    ((d'.mbrSectors + d'.dataStart < s + n → DataPlaced d' rs) →
      (CountsSectors d' s n ↔ n = 0 ∨ ReadFits d' rs s n)) := by
  obtain ⟨hcan, rs', hq, rfl⟩ := (recalc_iff ht hr.dataStart).mp h
  obtain rfl : rs' = rs := Option.some.inj hrs
  have hk := hg.known hf
  have hranged := Ranged.of_result hr hcnt hq
  have hv : (recalcDrive d rs').isValid = true := hcan.valid
  rcases Nat.eq_zero_or_pos n with rfl | hpos
  · refine ⟨fun _ => .inl rfl, fun _ => iff_of_true (fun env _ m p => ?_) (.inl rfl)⟩
    refine ⟨0, m, [], ?_, .inl ⟨by simp, nofun⟩, .refl _ _ _⟩
    rw [vdfReadSectors, hv, if_neg (by simp), if_pos rfl]
  · have hne : n ≠ 0 := by omega
    refine ⟨fun hc => .inr ?_, fun hP => ?_⟩
    · obtain ⟨h1, h2, -⟩ := hc.full.window (d := recalcDrive d rs') hg hk hranged hv hs hn hpos
      exact ⟨h1, h2, hc.full.fatsStay (d := recalcDrive d rs') hg hk hranged hv hs hn hpos⟩
    · rw [or_iff_right hne]
      exact ⟨fun hc => hc.full.fits (d := recalcDrive d rs') hg hk hranged hv hs hn hpos
          (fullReaders_ones _) hP,
        ReadFits.counts (d := recalcDrive d rs') hg hk hranged hv hs hn hpos hP⟩

/-- A request for more than the whole of a drive with two files. -/
theorem vdfReadSectors_counts_sample : ∃ d', Recalc drive16 d' ∧ CountsSectors d' 0 300000 := by
  obtain ⟨rs, hq⟩ := Qsort.exists_result cmpFilerange (unsortedRanges drive16)
  have hk := geometry16_created.known (by decide)
  have hL := drive16_fits.dataLayout hk drive16_isTree drive16_inRange (by decide) (by decide) hq
  have hrecalc := (recalc_iff drive16_isTree drive16_inRange.dataStart).mpr
    ⟨drive16_canRecalc, rs, hq, rfl⟩
  have hlen : rs.length = 2 := hq.perm.length_eq.trans (by decide)
  have hfat (sector scnt : Nat) : FatStays (recalcDrive drive16 rs) rs sector scnt :=
    .inr (.inl hlen.symm)
  refine ⟨_, hrecalc, ((vdfReadSectors_counts_iff drive16 _ rs geometry16_created (by decide)
    drive16_isTree drive16_inRange (by decide) hrecalc rfl 0 300000 (by decide) (by decide)).2
    fun _ => hL.placed).mpr (.inr ?_)⟩
  exact
    { start := Nat.zero_le _, int := show min 300000 262217 < 2 ^ 31 by decide
      data := .inr (show 65 ≤ 262217 by decide), fats := ⟨fun _ => hfat _ _, fun _ => hfat _ _⟩
      files := fun _ => hL.filesStay hL.offsetFits_start _ }

/-- A sector behind the end is asked for: `want` wraps to `2^32 - 2`. -/
theorem vdfReadSectors_not_counts : ¬ ∀ d d' : VdfDrive, d.toGeometry.Created →
    d.filesys ≠ .unset → d.IsTree → d.InRange → d.allFiles.length ≤ d.fileCnt → Recalc d d' →
    ∀ s n, s < 2 ^ 32 → n < 2 ^ 32 → CountsSectors d' s n := by
  intro hall
  obtain ⟨rs, hq⟩ := Qsort.exists_result cmpFilerange (unsortedRanges drive16)
  have hrecalc := (recalc_iff drive16_isTree drive16_inRange.dataStart).mpr
    ⟨drive16_canRecalc, rs, hq, rfl⟩
  have hcounts := hall drive16 _ geometry16_created (by decide) drive16_isTree drive16_inRange
    (by decide) hrecalc 262219 1 (by decide) (by decide)
  have hstart := (hcounts.full.window geometry16_created (geometry16_created.known (by decide))
    (Ranged.of_result drive16_inRange (by decide) hq) drive16_canRecalc.valid (by decide) (by decide)
    (by decide)).1
  exact absurd hstart (show ¬ 262219 ≤ 262217 by decide)

end Vdf
