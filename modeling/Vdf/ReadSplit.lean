import Vdf.FatSplit
import Vdf.Lib.Split
import Vdf.ReadLeaks

/-!
# Requests that are cut in two

A run of sectors can be read at once or in two requests (`CutServes`). The regions of the two
requests are those of one (`serve_sequel`), so only the region that the cut lies in counts. A FAT
that is placed can be cut (`FatSplit`). A root directory with a label cannot where the slots behind
the cut differ, because a request from its first sector on leaves out the slot of the label and the
next one counts it (`SlotsSplit`). A file can be cut where the answers of its reader can
(`AnswersSplit`), and one with a content where the offset does not wrap (`OffsetSplit`).
-/

namespace Vdf

open Word Buffer

/-! ## Specification -/

/-- The readers are functions of the offset and the length that answer every call, with no more than
they are asked for. -/
structure Readers.Answer (env : Readers) : Prop extends env.Bounded where
  cback_ne : ∀ f off len, env.cback f off len ≠ none
  pread_ne : ∀ f off len, env.pread f off len ≠ none

theorem Readers.Answer.read_ne {env : Readers} (h : env.Answer) {d : VdfDrive} (f : FileId)
    (off len : Nat) : env.read d f off len ≠ none := by
  unfold Readers.read
  split
  · exact h.cback_ne f off len
  · exact h.pread_ne f off len

/-- The sectors from `s` on are read as one run of `n + k` or as a run of `n` and one of `k`: each
request returns its count and writes no other sectors, and what is left in the buffer is the same. -/
structure CutServes (env : Readers) (d : VdfDrive) (s n k : Nat) : Prop where
  whole : CountsWith env d s (n + k)
  front : CountsWith env d s n
  rest : CountsWith env d (s + n) k
  same : ∀ m p r M c r₁ m₁ c₁ r₂ M' c₂, vdfReadSectors env d s (n + k) m p = .ok (r, M, c) →
    vdfReadSectors env d s n m p = .ok (r₁, m₁, c₁) →
    vdfReadSectors env d (s + n) k m₁ (p + n * d.bps) = .ok (r₂, M', c₂) →
    ∀ b < (n + k) * d.bps, M (p + b) = M' (p + b)

/-- A directory from sector `o` on, cut behind `n` sectors: where the root of a drive with a label is
read from its first sector on, the slots behind the cut are those in front of them. -/
def SlotsSplit (d : VdfDrive) (dir : FileId) (o n k : Nat) : Prop :=
  o = 0 → labelSlots d dir = 0 ∨ ∀ i < k * d.direntPerSector, ∀ j < 32,
    (slotAt d dir (n * d.direntPerSector + i)).byte j =
      (slotAt d dir (n * d.direntPerSector - 1 + i)).byte j

/-- Byte `j` of the sectors of a regular file from sector `o` on, of which `want` are read: what the
reader answers, and zeros behind it. -/
def pieceByte (env : Readers) (d : VdfDrive) (f : FileId) (o want j : Nat) : UInt8 :=
  let off := u32 (o * d.bps)
  if (d.file f).size ≤ off then 0
  else ((env.read d f off (min ((d.file f).size - off) (want * d.bps))).getD []).getD j 0

/-- The answers for the two pieces of a file are that for both. -/
def AnswersSplit (env : Readers) (d : VdfDrive) (f : FileId) (o n k : Nat) : Prop :=
  (∀ j < n * d.bps, pieceByte env d f o (n + k) j = pieceByte env d f o n j) ∧
    ∀ j < k * d.bps, pieceByte env d f o (n + k) (n * d.bps + j) = pieceByte env d f (o + n) k j

/-- Where the offset into the file wraps between the pieces, nothing of the file is left behind it. -/
def OffsetSplit (d : VdfDrive) (f : FileId) (o n : Nat) : Prop :=
  u32 (o * d.bps) + n * d.bps < 2 ^ 32 ∨ (d.file f).size ≤ u32 ((o + n) * d.bps)

/-- Each of the three requests fits. -/
structure RunsFit (d : VdfDrive) (rs : List FileRange) (s n k : Nat) : Prop where
  whole : ReadFits d rs s (n + k)
  front : ReadFits d rs s n
  rest : ReadFits d rs (s + n) k

/-- A cut in a directory. -/
structure SlotsCut (d : VdfDrive) (rs : List FileRange) (s n k : Nat) : Prop where
  root : SplitAt s n k (d.mbrSectors + fatEnd d) (d.mbrSectors + d.dataStart)
    (SlotsSplit d d.rootDir)
  dirs : d.mbrSectors + d.dataStart < s + n + k → ∀ r ∈ rs, (d.file r.file).isDir = true →
    SplitAt s n k (d.mbrSectors + r.sectstart) (d.mbrSectors + r.sectend) (SlotsSplit d r.file)

/-- A cut in a regular file, with given readers -/
def AnswersCut (env : Readers) (d : VdfDrive) (rs : List FileRange) (s n k : Nat) : Prop :=
  d.mbrSectors + d.dataStart < s + n + k → ∀ r ∈ rs, (d.file r.file).isDir = false →
    SplitAt s n k (d.mbrSectors + r.sectstart) (d.mbrSectors + r.sectend)
      (AnswersSplit env d r.file)

/-- and with all that have a content. -/
def OffsetsCut (d : VdfDrive) (rs : List FileRange) (s n k : Nat) : Prop :=
  d.mbrSectors + d.dataStart < s + n + k → ∀ r ∈ rs, (d.file r.file).isDir = false →
    SplitAt s n k (d.mbrSectors + r.sectstart) (d.mbrSectors + r.sectend)
      fun o n _ => OffsetSplit d r.file o n

/-- A cut in a FAT. -/
def FatsSplit (d : VdfDrive) (rs : List FileRange) (s n k : Nat) : Prop :=
  SplitAt s n k (d.mbrSectors + d.fat1Start) (d.mbrSectors + d.fat2Start)
      (fun o n _ => FatSplit d rs o n) ∧
    SplitAt s n k (d.mbrSectors + d.fat2Start) (d.mbrSectors + fatEnd d)
      (fun o n _ => FatSplit d rs o n)

/-! ## Generators -/

section Gens

variable {d : VdfDrive} {g : SectorGen} {u a b : Nat} {C : Prop}

/-- The generator serves two runs as it serves one, under a condition. -/
def SectorGen.SplitsWhen (d : VdfDrive) (g : SectorGen) (u a b : Nat) (C : Prop) : Prop :=
  ∀ q, (∀ m, g.gen u (a + b) m q = (g.gen u a m q).bind fun m' =>
    g.gen (u + a) b m' (q + a * d.bps)) ↔ C

theorem SectorGen.SplitsWhen.of_eq (h : ∀ q m, g.gen u (a + b) m q = (g.gen u a m q).bind fun m' =>
    g.gen (u + a) b m' (q + a * d.bps)) : g.SplitsWhen d u a b True :=
  fun q => iff_of_true (h q) trivial

theorem SectorGen.SplitsWhen.congr {C' : Prop} (h : g.SplitsWhen d u a b C) (hC : C ↔ C') :
    g.SplitsWhen d u a b C' := fun q => (h q).trans hC

/-- Generators that overlay an image. -/
theorem SectorGen.SplitsWhen.of_overlay {f f₁ f₂ : Nat → Option UInt8}
    (h : ∀ m q, g.gen u (a + b) m q = some (m.overlay q ((a + b) * d.bps) f))
    (h₁ : ∀ m q, g.gen u a m q = some (m.overlay q (a * d.bps) f₁))
    (h₂ : ∀ m q, g.gen (u + a) b m q = some (m.overlay q (b * d.bps) f₂)) :
    g.SplitsWhen d u a b
      ((∀ j < a * d.bps, f j = f₁ j) ∧ ∀ j < b * d.bps, f (a * d.bps + j) = f₂ j) := by
  intro q
  simp only [h, h₁, h₂, Option.bind_some, Option.some.injEq, Nat.add_mul]
  exact overlay_split_iff

/-- Slices of one image. -/
theorem SectorGen.SplitsWhen.of_slices {f : Nat → Option UInt8}
    (h : ∀ m q, g.gen u (a + b) m q = some (m.overlay q ((a + b) * d.bps) f))
    (h₁ : ∀ m q, g.gen u a m q = some (m.overlay q (a * d.bps) f))
    (h₂ : ∀ m q, g.gen (u + a) b m q =
      some (m.overlay q (b * d.bps) fun j => f (a * d.bps + j))) : g.SplitsWhen d u a b True :=
  (of_overlay h h₁ h₂).congr (iff_of_true ⟨fun _ _ => rfl, fun _ _ => rfl⟩ trivial)

/-- A region can be read in two parts when the generator can at the cut. -/
theorem SectorGen.splits_iff {s n k p lo : Nat} {C : Nat → Nat → Nat → Prop}
    (h : SplitAt s n k lo g.hi fun o a b => g.SplitsWhen d (lo + o) a b (C o a b)) :
    (g.region d s p).Splits s n k lo ↔ SplitAt s n k lo g.hi C := by
  by_cases hcut : max s lo < s + n ∧ s + n < min (s + n + k) g.hi
  · obtain ⟨h1, h2⟩ := hcut
    have hgen := h h1 h2 (p + (max s lo - s) * d.bps)
    have hu : lo + (max s lo - lo) = max s lo := by omega
    have hrest : max s lo + (s + n - max s lo) = s + n := by omega
    have hq : p + (max s lo - s) * d.bps + (s + n - max s lo) * d.bps =
        p + (s + n - s) * d.bps := by
      rw [Nat.add_assoc, ← Nat.add_mul]
      congr 2
      omega
    rw [hu, hrest, hq] at hgen
    rw [Region.splits_inside (r := g.region d s p) h1 h2]
    exact hgen.trans ⟨fun hC _ _ => hC, fun hC => hC h1 h2⟩
  · refine iff_of_true (fun x => ?_) fun h1 h2 => absurd ⟨h1, h2⟩ hcut
    exact (congrFun (Region.split_outside (r := g.region d s p) hcut) x).symm

end Gens

section Areas

variable {d : VdfDrive} {rs : List FileRange} (hk : d.toGeometry.Known)

/-- The requests for a directory give slices of its slots. Behind the first sector the slot of a label
is counted. -/
def DirSliced (d : VdfDrive) (dir : FileId) : Prop :=
  ∀ o want, DirRequest d o want → ∀ m p, readSectorDir d o want m p dir =
    .ok (m.overlay p (want * d.bps) fun j =>
      (slotAt d dir (o * d.direntPerSector - labelSlots d dir + j / 32)).byte (j % 32))

include hk

/-- The reserved sectors. -/
theorem bootGen_splits {g : SectorGen} {u o a b : Nat}
    (h : ∀ a m q, g.gen u a m q = (readSectorBoot d o a m q).toOption)
    (h' : ∀ m q, g.gen (u + a) b m q = (readSectorBoot d (o + a) b m q).toOption) :
    g.SplitsWhen d u a b True := by
  have hb := (sectorSizes_le hk.bps).1
  refine .of_slices (f := fun j => (reservedRecord d (o + j / d.bps)).byte (j % d.bps))
    (fun m q => ?_) (fun m q => ?_) (fun m q => ?_)
  · rw [h, readSectorBoot_image hk.filesys hb]
    rfl
  · rw [h, readSectorBoot_image hk.filesys hb]
    rfl
  · rw [h', readSectorBoot_image hk.filesys hb]
    refine congrArg some (overlay_congr fun j _ => ?_)
    obtain ⟨h1, h2⟩ := sector_byte a (by omega : 0 < d.bps) j
    rw [h1, h2, Nat.add_assoc]

/-- A copy of the FAT. -/
theorem fatGen_splits (hr : Ranged d rs) {g : SectorGen} {u o a b : Nat} (ha : 0 < a) (hb : 0 < b)
    (hle : o + a + b ≤ d.fatSectors) (hwhole : FatStays d rs o (a + b))
    (hfront : FatStays d rs o a) (hrest : FatStays d rs (o + a) b) (hsplit : FatSplit d rs o a)
    (h : ∀ a m q, g.gen u a m q = (readSectorFat d o a m q).toOption)
    (h' : ∀ m q, g.gen (u + a) b m q = (readSectorFat d (o + a) b m q).toOption) :
    g.SplitsWhen d u a b True := by
  refine .of_eq fun q m => ?_
  obtain ⟨m', h1, h2⟩ := readSectorFat_split hsplit hk hr ha hb hle hwhole hfront hrest m q
  rw [h, h, h1, h2]
  exact (h' m' _).symm

/-- A directory. -/
theorem dirGen_splits {dir : FileId} (hdir : DirSliced d dir) {g : SectorGen} {u o a b : Nat}
    (ha : DirRequest d o a) (hab : DirRequest d o (a + b)) (hb : DirRequest d (o + a) b)
    (h : ∀ a, DirRequest d o a → ∀ m q, g.gen u a m q = (readSectorDir d o a m q dir).toOption)
    (h' : ∀ m q, g.gen (u + a) b m q = (readSectorDir d (o + a) b m q dir).toOption) :
    g.SplitsWhen d u a b (SlotsSplit d dir o a b) := by
  have hbps := (sectorSizes_le hk.bps).1
  have hmul := hk.bps_eq
  have hlab := labelSlots_le d dir
  have hdps : 0 < d.direntPerSector := Nat.lt_of_le_of_lt (Nat.zero_le 2) hab.few
  have hslice {o want : Nat} (hreq : DirRequest d o want) (m : Buffer) (q : Nat) :
      (readSectorDir d o want m q dir).toOption = some (m.overlay q (want * d.bps) fun j =>
        (slotAt d dir (o * d.direntPerSector - labelSlots d dir + j / 32)).byte (j % 32)) := by
    rw [hdir _ _ hreq]
    rfl
  refine (SectorGen.SplitsWhen.of_overlay (fun m q => (h _ hab m q).trans (hslice hab m q))
    (fun m q => (h _ ha m q).trans (hslice ha m q))
    fun m q => (h' m q).trans (hslice hb m q)).congr ?_
  rw [and_iff_right fun j _ => rfl]
  -- Slot by slot.
  have hslot (j : Nat) : (a * d.bps + j) / 32 = a * d.direntPerSector + j / 32 ∧
      (a * d.bps + j) % 32 = j % 32 := by
    have : a * d.bps = 32 * (a * d.direntPerSector) := by
      rw [← hmul]
      ring
    omega
  have hlen : b * d.bps = 32 * (b * d.direntPerSector) := by
    rw [← hmul]
    ring
  have hpos : d.direntPerSector ≤ a * d.direntPerSector := Nat.le_mul_of_pos_left _ ha.pos
  simp only [hslot, hlen, Nat.add_mul]
  unfold SlotsSplit
  by_cases h0 : o = 0
  · subst h0
    simp only [Nat.zero_mul, Nat.zero_sub, Nat.zero_add, true_imp_iff]
    rcases Nat.eq_zero_or_pos (labelSlots d dir) with hl | hl
    · simp only [hl, Nat.sub_zero, implies_true, true_or]
    · have hone : labelSlots d dir = 1 := by omega
      rw [or_iff_right (by omega), hone]
      constructor
      · intro h i hi j hj
        have := h (32 * i + j) (by omega)
        rwa [(by omega : (32 * i + j) / 32 = i), (by omega : (32 * i + j) % 32 = j)] at this
      · exact fun h j hj => h (j / 32) (by omega) (j % 32) (Nat.mod_lt _ (by decide))
  · have hge : d.direntPerSector ≤ o * d.direntPerSector :=
      Nat.le_mul_of_pos_left _ (Nat.pos_of_ne_zero h0)
    refine iff_of_true (fun j _ => ?_) fun h => absurd h h0
    congr 2
    omega

omit hk in
/-- The sectors of a regular file. -/
theorem contentGen_splits {env : Readers} (hE : env.Answer) (r : FileRange)
    (hd : (d.file r.file).isDir = false) (o a b : Nat) :
    (fileGen env d r).SplitsWhen d (d.mbrSectors + r.sectstart + o) a b
      (AnswersSplit env d r.file o a b) := by
  have hgen (o want : Nat) (m : Buffer) (q : Nat) :
      (fileGen env d r).gen (d.mbrSectors + r.sectstart + o) want m q =
        some (m.overlay q (want * d.bps) fun j => some (pieceByte env d r.file o want j)) := by
    simp only [fileGen, hd, Bool.false_eq_true, ↓reduceIte, Nat.add_sub_cancel_left, pieceByte]
    by_cases hz : (d.file r.file).size ≤ u32 (o * d.bps)
    · simp only [if_pos hz, fill_eq_overlay]
    · simp only [if_neg hz]
      cases hread : env.read d r.file (u32 (o * d.bps))
          (min ((d.file r.file).size - u32 (o * d.bps)) (want * d.bps)) with
      | none => exact absurd hread (hE.read_ne _ _ _)
      | some l =>
        have hlen : l.length ≤ want * d.bps :=
          Nat.le_trans (hE.toBounded.read hread) (Nat.min_le_right ..)
        rw [Option.map_some, copy_zeros_eq_overlay m q hlen, Option.getD_some]
  have hsplit := SectorGen.SplitsWhen.of_overlay (hgen o (a + b)) (hgen o a) fun m q => by
    rw [Nat.add_assoc (d.mbrSectors + r.sectstart)]
    exact hgen (o + a) b m q
  simp only [Option.some.injEq] at hsplit
  exact hsplit

end Areas

/-! ## Regions -/

section Regions

variable {d : VdfDrive} {rs : List FileRange} {env : Readers} {s n k p : Nat}
  (hk : d.toGeometry.Known)

/-- The sectors in front of the file system. -/
theorem mbrGens_split :
    Regions.Each (Region.Splits s n k) 0 ((mbrGens d).map (SectorGen.region d s p)) := by
  refine ⟨fun x => ?_,
    (SectorGen.splits_iff (C := fun _ _ _ => True) fun h1 h2 => ?_).mpr fun _ _ => trivial, trivial⟩
  · refine (congrFun (Region.split_outside fun h => ?_) x).symm
    have h2 : s + n < min (s + n + k) (min 1 d.mbrSectors) := h.2
    have h1 := h.1
    omega
  · refine .of_slices (f := fun _ => some 0) (fun m q => ?_) (fun m q => ?_) (fun m q => ?_) <;>
    · dsimp only
      rw [Nat.mul_comm d.bps, fill_eq_overlay]

/-- The free sectors. -/
theorem freeGen_split {lo : Nat} :
    Regions.Each (Region.Splits s n k) lo ([freeGen d].map (SectorGen.region d s p)) := by
  refine ⟨(SectorGen.splits_iff (C := fun _ _ _ => True) fun _ _ => ?_).mpr fun _ _ => trivial,
    trivial⟩
  exact .of_slices (f := fun _ => some 0) (fun m q => congrArg some (fill_eq_overlay ..))
    (fun m q => congrArg some (fill_eq_overlay ..)) fun m q => congrArg some (fill_eq_overlay ..)

include hk

/-- A copy of the FAT. -/
theorem fat_split (hr : Ranged d rs) {start hi : Nat} (hhi : hi = d.mbrSectors + start + d.fatSectors)
    (hwhole : Clipped s (n + k) (d.mbrSectors + start) hi (FatStays d rs))
    (hfront : Clipped s n (d.mbrSectors + start) hi (FatStays d rs))
    (hrest : Clipped (s + n) k (d.mbrSectors + start) hi (FatStays d rs))
    (hsplit : SplitAt s n k (d.mbrSectors + start) hi fun o n _ => FatSplit d rs o n) :
    Region.Splits s n k (d.mbrSectors + start) (SectorGen.region d s p ⟨hi, fun u want m p =>
      (readSectorFat d (u - (d.mbrSectors + start)) want m p).toOption⟩) := by
  refine (SectorGen.splits_iff (C := fun _ _ _ => True) fun h1 h2 => ?_).mpr fun _ _ => trivial
  have h2' : s + n < min (s + n + k) hi := h2
  have hw := hwhole (by omega)
  have hf := hfront (by omega)
  have he := hrest (by omega)
  have hp := hsplit h1 h2
  dsimp only at h2 hp ⊢
  generalize d.mbrSectors + start = lo at *
  rw [(by omega : min (s + (n + k)) hi - max s lo =
    s + n - max s lo + (min (s + n + k) hi - (s + n)))] at hw
  rw [(by omega : min (s + n) hi = s + n)] at hf
  rw [(by omega : max (s + n) lo = s + n),
    (by omega : s + n - lo = max s lo - lo + (s + n - max s lo))] at he
  refine fatGen_splits hk hr (by omega) (by omega) (by omega) hw hf he hp (fun a m q => ?_)
    fun m q => ?_
  · dsimp only
    rw [Nat.add_sub_cancel_left]
  · dsimp only
    rw [Nat.add_assoc, Nat.add_sub_cancel_left]

/-- The reserved sectors, the FATs and the root directory. -/
theorem systemGens_split (hr : Ranged d rs) (hwhole : FatsStay d rs s (n + k))
    (hfront : FatsStay d rs s n) (hrest : FatsStay d rs (s + n) k) (hsplit : FatsSplit d rs s n k)
    (hroot : DirSliced d d.rootDir) :
    Regions.Each (Region.Splits s n k) d.mbrSectors
        ((systemGens d).map (SectorGen.region d s p)) ↔
      SplitAt s n k (d.mbrSectors + fatEnd d) (d.mbrSectors + d.dataStart)
        (SlotsSplit d d.rootDir) := by
  have h2 := hk.fat2
  have h3 := hk.rootStart
  have h4 := hk.dataStart
  have hend := fatEnd_eq hk
  have hboot : Region.Splits s n k d.mbrSectors (SectorGen.region d s p
      ⟨d.mbrSectors + d.fat1Start, fun u want m p =>
        (readSectorBoot d (u - d.mbrSectors) want m p).toOption⟩) := by
    refine (SectorGen.splits_iff (C := fun _ _ _ => True) fun _ _ => ?_).mpr fun _ _ => trivial
    refine bootGen_splits hk (o := max s d.mbrSectors - d.mbrSectors) (fun a m q => ?_)
      fun m q => ?_
    · dsimp only
      rw [Nat.add_sub_cancel_left]
    · dsimp only
      rw [Nat.add_assoc, Nat.add_sub_cancel_left]
  have hdir := @SectorGen.splits_iff d ⟨d.mbrSectors + d.dataStart, fun u want m p =>
    (readSectorDir d (u - (d.mbrSectors + fatEnd d)) want m p d.rootDir).toOption⟩ s n k p
    (d.mbrSectors + fatEnd d) (SlotsSplit d d.rootDir) fun h1 h2 => by
      have h2 : s + n < min (s + n + k) (d.mbrSectors + d.dataStart) := h2
      dsimp only at h1 ⊢
      refine dirGen_splits hk hroot (.of_known hk (by omega) (by omega))
        (.of_known hk (by omega) (by omega)) (.of_known hk (by omega) (by omega))
        (fun a _ m q => ?_) fun m q => ?_
      · dsimp only
        rw [Nat.add_sub_cancel_left]
      · dsimp only
        rw [Nat.add_assoc, Nat.add_sub_cancel_left]
  refine Iff.trans ?_ hdir
  exact ⟨fun h => h.2.2.2.1, fun h => ⟨hboot,
    fat_split hk hr (by omega) hwhole.1 hfront.1 hrest.1 hsplit.1,
    fat_split hk hr (by omega) hwhole.2 hfront.2 hrest.2 hsplit.2, h, trivial⟩⟩

/-- A request inside a directory of the data area. -/
theorem DataPlaced.dirRequest (hP : DataPlaced d rs) {r : FileRange} (hr : r ∈ rs)
    (hd : (d.file r.file).isDir = true) {o want : Nat} (hpos : 0 < want)
    (hle : o + want ≤ r.sectend - r.sectstart) : DirRequest d o want := by
  have hb := sectorSizes_le hk.bps
  have hdps := hk.dirent
  have hmul := hk.bps_eq
  have hsize := hP.dirs r hr hd
  have h1 : (o + want) * d.bps ≤ (r.sectend - r.sectstart) * d.bps := Nat.mul_le_mul_right _ hle
  have h2 : o * d.bps = 32 * (o * d.direntPerSector) := by
    rw [← hmul]
    ring
  have h3 : want * d.bps = 32 * (want * d.direntPerSector) := by
    rw [← hmul]
    ring
  rw [Nat.add_mul] at h1
  exact ⟨hpos, by omega, by omega, by rw [← hk.dirent]; omega⟩

/-- The files `l` from sector `lo` on. -/
theorem fileGens_split (hP : DataPlaced d rs) (hE : env.Answer)
    (hdirs : ∀ r ∈ rs, (d.file r.file).isDir = true → DirSliced d r.file) (l : List FileRange)
    (hl : ∀ r ∈ l, r ∈ rs) (lo hi : Nat)
    (h : Chain FileRange.sectstart FileRange.sectend lo l hi) :
    Regions.Each (Region.Splits s n k) (d.mbrSectors + lo)
        ((l.map (fileGen env d)).map (SectorGen.region d s p)) ↔
      ∀ r ∈ l,
        ((d.file r.file).isDir = true → SplitAt s n k (d.mbrSectors + r.sectstart)
          (d.mbrSectors + r.sectend) (SlotsSplit d r.file)) ∧
        ((d.file r.file).isDir = false → SplitAt s n k (d.mbrSectors + r.sectstart)
          (d.mbrSectors + r.sectend) (AnswersSplit env d r.file)) := by
  induction l generalizing lo with
  | nil => exact iff_of_true trivial (List.forall_mem_nil _)
  | cons r l ih =>
    obtain ⟨rfl, -, hchain⟩ := h
    have hr := hl r (List.mem_cons_self ..)
    have hrest := ih (fun x hx => hl x (List.mem_cons_of_mem _ hx)) r.sectend hchain
    rw [List.forall_mem_cons]
    refine and_congr ?_ hrest
    by_cases hd : (d.file r.file).isDir = true
    · have hf : ¬ (d.file r.file).isDir = false := by simp [hd]
      refine Iff.trans (SectorGen.splits_iff fun h1 h2 => ?_)
        ⟨fun h => ⟨fun _ => h, fun h => absurd h hf⟩, fun h => h.1 hd⟩
      have h2 : s + n < min (s + n + k) (d.mbrSectors + r.sectend) := h2
      show (fileGen env d r).SplitsWhen d _ _ (min (s + n + k) (d.mbrSectors + r.sectend) - _) _
      have hreq {o want : Nat} := @DataPlaced.dirRequest d rs hk hP r hr hd o want
      have hgen {o want : Nat} (h : DirRequest d o want) (m : Buffer) (q : Nat) :
          (fileGen env d r).gen (d.mbrSectors + r.sectstart + o) want m q =
            (readSectorDir d o want m q r.file).toOption := by
        rw [readSectorDir_eq h]
        simp only [fileGen, hd, ↓reduceIte, Nat.add_sub_cancel_left]
        rfl
      have hb : DirRequest d (max s (d.mbrSectors + r.sectstart) - (d.mbrSectors + r.sectstart) +
          (s + n - max s (d.mbrSectors + r.sectstart)))
          (min (s + n + k) (d.mbrSectors + r.sectend) - (s + n)) := hreq (by omega) (by omega)
      refine dirGen_splits hk (hdirs r hr hd) (hreq (by omega) (by omega))
        (hreq (by omega) (by omega)) hb (fun a h m q => hgen h m q) fun m q => ?_
      rw [Nat.add_assoc (d.mbrSectors + r.sectstart)]
      exact hgen hb m q
    · have hf : (d.file r.file).isDir = false := by simpa using hd
      exact Iff.trans (SectorGen.splits_iff fun _ _ => contentGen_splits hE r hf _ _ _)
        ⟨fun h => ⟨fun h => absurd h hd, fun _ => h⟩, fun h => h.2 hf⟩

/-- The regions of a request can be read in two parts under the condition, and only then. -/
theorem driveRegions_split (hr : Ranged d rs) (hwhole : FatsStay d rs s (n + k))
    (hfront : FatsStay d rs s n) (hrest : FatsStay d rs (s + n) k) (hsplit : FatsSplit d rs s n k)
    (hE : env.Answer) (hroot : DirSliced d d.rootDir)
    (hdirs : ∀ r ∈ rs, (d.file r.file).isDir = true → DirSliced d r.file) {l : List FileRange}
    (hl : l = [] ∧ s + n + k ≤ d.mbrSectors + d.dataStart ∨ l = rs ∧ DataPlaced d rs) :
    Regions.Each (Region.Splits s n k) 0 (driveRegions env d l s p) ↔
      SlotsCut d rs s n k ∧ AnswersCut env d rs s n k := by
  have hsystem := @systemGens_split d rs s n k p hk hr hwhole hfront hrest hsplit hroot
  have hdata : Regions.Each (Region.Splits s n k) (d.mbrSectors + d.dataStart)
      ((dataGens env d l).map (SectorGen.region d s p)) ↔
      (d.mbrSectors + d.dataStart < s + n + k → ∀ r ∈ rs,
        ((d.file r.file).isDir = true → SplitAt s n k (d.mbrSectors + r.sectstart)
          (d.mbrSectors + r.sectend) (SlotsSplit d r.file)) ∧
        ((d.file r.file).isDir = false → SplitAt s n k (d.mbrSectors + r.sectstart)
          (d.mbrSectors + r.sectend) (AnswersSplit env d r.file))) := by
    rcases hl with ⟨rfl, hle⟩ | ⟨rfl, hP⟩
    · exact iff_of_true freeGen_split fun h => absurd h (by omega)
    · have hfiles := @fileGens_split d l env s n k p hk hP hE hdirs l (fun _ h => h) _ _ hP.chain
      rw [dataGens, List.map_append, Regions.each_append, hfiles, and_iff_left freeGen_split]
      refine ⟨fun h _ => h, fun h r hr => ?_⟩
      have hstart := (hP.chain.mem hr).1
      by_cases hlt : d.mbrSectors + d.dataStart < s + n + k
      · exact h hlt r hr
      · exact ⟨fun _ h1 h2 => by omega, fun _ h1 h2 => by omega⟩
  rw [driveRegions, List.map_append, List.map_append, Regions.each_append, Regions.each_append,
    and_iff_right mbrGens_split]
  refine (and_congr hsystem hdata).trans ⟨fun h => ?_, fun h => ?_⟩
  · exact ⟨⟨h.1, fun hlt r hr => (h.2 hlt r hr).1⟩, fun hlt r hr => (h.2 hlt r hr).2⟩
  · exact ⟨h.1.root, fun hlt r hr => ⟨h.1.dirs hlt r hr, h.2 hlt r hr⟩⟩

end Regions

/-! ## Two requests -/

section Sequel

variable {d : VdfDrive} {s n k p lo : Nat}

/-- The second request finds its sectors where the one for both has them. -/
theorem SectorGen.part_sequel (g : SectorGen) :
    (g.region d (s + n) (p + n * d.bps)).part lo (s + n) k =
      (g.region d s p).part lo (s + n) k := by
  funext m
  have hq : p + n * d.bps + (max (s + n) lo - (s + n)) * d.bps =
      p + (max (s + n) lo - s) * d.bps := by
    rw [Nat.add_assoc, ← Nat.add_mul]
    congr 2
    omega
  show (if max (s + n) lo < min (s + n + k) g.hi then g.gen _ _ m (p + n * d.bps + _) else some m) =
    if max (s + n) lo < min (s + n + k) g.hi then g.gen _ _ m _ else some m
  rw [hq]
  rfl

theorem serve_sequel (gs : List SectorGen) (m : Buffer) :
    Regions.serve lo (gs.map (SectorGen.region d (s + n) (p + n * d.bps))) (s + n) k m =
      Regions.serve lo (gs.map (SectorGen.region d s p)) (s + n) k m := by
  induction gs generalizing lo m with
  | nil => rfl
  | cons g gs ih =>
    show ((g.region d (s + n) (p + n * d.bps)).part lo (s + n) k m).bind _ =
      ((g.region d s p).part lo (s + n) k m).bind _
    rw [SectorGen.part_sequel]
    congr 1
    funext m'
    exact ih m'

/-- What holds of the regions of both requests. -/
theorem each_sequel {P Q R : Nat → Region Buffer → Prop} {gs : List SectorGen}
    (ho : Regions.Ordered lo (gs.map (SectorGen.region d s p)))
    (hP : Regions.Each P lo (gs.map (SectorGen.region d s p)))
    (hQ : Regions.Each Q lo (gs.map (SectorGen.region d (s + n) (p + n * d.bps))))
    (h : ∀ lo (g : SectorGen), lo ≤ g.hi → P lo (g.region d s p) →
      Q lo (g.region d (s + n) (p + n * d.bps)) → R lo (g.region d s p)) :
    Regions.Each R lo (gs.map (SectorGen.region d s p)) := by
  induction gs generalizing lo with
  | nil => trivial
  | cons g gs ih => exact ⟨h lo g ho.1 hP.1 hQ.1, ih ho.2 hP.2 hQ.2⟩

/-- The addresses of the request for both. -/
theorem cut_front {u : Nat} (h : u ≤ s + n) : cut d s n p u = cut d s (n + k) p u := by
  unfold cut
  congr 2
  omega

theorem cut_sequel {u : Nat} (h : s + n ≤ u) :
    cut d (s + n) k (p + n * d.bps) u = cut d s (n + k) p u := by
  unfold cut
  rw [Nat.add_assoc, ← Nat.add_mul]
  congr 2
  omega

theorem cut_between {u v : Nat} (hu : u ≤ s + n) (hv : s + n ≤ v) :
    cut d s n p v = cut d (s + n) k (p + n * d.bps) u := by
  unfold cut
  rw [Nat.add_assoc, ← Nat.add_mul]
  congr 2
  omega

/-- Two parts of a region that are local are so together. -/
theorem SectorGen.split_local {g : SectorGen} (hle : lo ≤ g.hi)
    (h1 : Local (cut d s n p lo) (cut d s n p g.hi) ((g.region d s p).part lo s n))
    (h2 : Local (cut d (s + n) k (p + n * d.bps) lo) (cut d (s + n) k (p + n * d.bps) g.hi)
      ((g.region d (s + n) (p + n * d.bps)).part lo (s + n) k)) :
    Local (cut d s (n + k) p lo) (cut d s (n + k) p g.hi) ((g.region d s p).split lo s n k) := by
  rw [SectorGen.part_sequel] at h2
  rcases Nat.le_total (s + n) lo with h | h
  · have hnone : (g.region d s p).part lo s n = some := Region.part_none (by omega)
    have he : (g.region d s p).split lo s n k = (g.region d s p).part lo (s + n) k := by
      funext m
      rw [Region.split, hnone, Option.bind_some]
    rwa [he, ← cut_sequel h, ← cut_sequel (Nat.le_trans h hle)]
  · rcases Nat.le_total (s + n) g.hi with h' | h'
    · have hb := cut_between (d := d) (k := k) (p := p) h h'
      rw [cut_front (k := k) h] at h1
      rw [← hb, cut_sequel h'] at h2
      refine .bind ?_ ?_ h1 h2
      · rw [← cut_front h]
        exact cut_mono d s n p hle
      · rw [hb, ← cut_sequel h']
        exact cut_mono d (s + n) k _ hle
    · have hnone : (g.region d s p).part lo (s + n) k = some := Region.part_none
        (show min (s + n + k) g.hi ≤ max (s + n) lo by omega)
      have he : (g.region d s p).split lo s n k = (g.region d s p).part lo s n := by
        funext m
        rw [Region.split, hnone, Option.bind_fun_some]
      rwa [he, ← cut_front h, ← cut_front h']

end Sequel

/-! ## The result -/

section Result

variable {d : VdfDrive} {rs : List FileRange} {env : Readers} {s n k : Nat}
  (hg : d.toGeometry.Created) (hk : d.toGeometry.Known) (hr : Ranged d rs) (hv : d.isValid = true)
  (hs : s + n < 2 ^ 32) (hnk : n + k < 2 ^ 32) (hin : s + n + k ≤ d.allSectors) (hn : 0 < n)
  (hk0 : 0 < k) (hP : d.mbrSectors + d.dataStart < s + n + k → DataPlaced d rs)
  (hsplit : FatsSplit d rs s n k) (hE : env.Answer) (hroot : DirSliced d d.rootDir)
  (hdirs : ∀ r ∈ rs, (d.file r.file).isDir = true → DirSliced d r.file)

include hg hk hr hv hs hnk hin hn hk0 hP hsplit hE hroot hdirs

/-- Where each request is counted, both leave the same as one does if the cut fits, and only then. -/
theorem cut_same_iff (hfit : RunsFit d rs s n k) (p : Nat) : (∀ m, ∃ M m₁ c c₁ c₂,
      vdfReadSectors env d s (n + k) m p = .ok ((n + k : Nat), M, c) ∧
      vdfReadSectors env d s n m p = .ok ((n : Nat), m₁, c₁) ∧
      vdfReadSectors env d (s + n) k m₁ (p + n * d.bps) = .ok ((k : Nat), M, c₂)) ↔
    SlotsCut d rs s n k ∧ AnswersCut env d rs s n k := by
  obtain ⟨hwhole, hfront, hrest⟩ := hfit
  have hno (c : ReadCall) : ¬ env.Fails d c := hE.read_ne _ _ _
  obtain ⟨l, hl⟩ : ∃ l, l = [] ∧ s + n + k ≤ d.mbrSectors + d.dataStart ∨
      l = rs ∧ DataPlaced d rs := by
    rcases Nat.lt_or_ge (d.mbrSectors + d.dataStart) (s + n + k) with h | h
    · exact ⟨rs, .inr ⟨rfl, hP h⟩⟩
    · exact ⟨[], .inl ⟨rfl, h⟩⟩
  have hlist : l = [] ∨ DataPlaced d l := by
    rcases hl with ⟨rfl, -⟩ | ⟨rfl, h⟩
    · exact .inl rfl
    · exact .inr h
  -- Each request is what the regions serve.
  have hrun {u w : Nat} (hu : u < 2 ^ 32) (hw : w < 2 ^ 32) (hpos : 0 < w) (hle : u + w ≤ s + n + k)
      (hfits : ReadFits d rs u w) (m : Buffer) (q : Nat) : ∃ M c,
        vdfReadSectors env d u w m q = .ok ((w : Nat), M, c) ∧
        Regions.serve 0 (driveRegions env d l u q) u w m = some M := by
    obtain ⟨ret, M, c, hM, hret⟩ := hfits.counts hg hk hr hv hu hw hpos
      (fun h => hP (by omega)) env hE.toBounded m q
    obtain ⟨rfl, hok⟩ | ⟨-, c, -, hc⟩ := hret.ret
    swap
    · exact absurd hc (hno c)
    rw [(by omega : min w (d.allSectors - u) = w)] at hM
    refine ⟨M, c, hM, vdfReadSectors_serve hg hk hv hE.toBounded hu hw hpos (by omega) ?_ ?_ hM hok⟩
    · rcases hl with ⟨rfl, h⟩ | ⟨rfl, h⟩
      · exact .inl ⟨rfl, by omega⟩
      · exact .inr h
    · rcases hl with ⟨rfl, -⟩ | ⟨rfl, -⟩
      · exact fun _ r hr => absurd hr List.not_mem_nil
      · exact hfits.files
  have hord := @driveRegions_ordered env d l hk hlist s p
  have hfull {u w : Nat} (hpos : 0 < w) (hle : u + w ≤ s + n + k) (hfats : FatsStay d rs u w)
      (q : Nat) := (@driveRegions_full d rs env u w q hk hpos hr hfats hE.toBounded l
        (hl.imp_left fun h => ⟨h.1, by omega⟩)).inner
  have htotal {u w : Nat} (hfats : FatsStay d rs u w) (q : Nat) :=
    @driveRegions_total d rs u w q env hk hr hfats (fun f off len => hE.read_ne f off len) l
  have hlocal := each_sequel (R := fun lo r => Local (cut d s (n + k) p lo)
      (cut d s (n + k) p r.hi) (r.split lo s n k)) hord (hfull hn (by omega) hfront.fats p)
    (hfull hk0 (Nat.le_refl _) hrest.fats (p + n * d.bps))
    fun lo g hle h1 h2 => SectorGen.split_local hle h1 h2
  have htotal' := each_sequel (R := fun lo r => Total (r.split lo s n k)) hord
    (htotal hfront.fats p) (htotal hrest.fats (p + n * d.bps)) fun lo g _ h1 h2 =>
      h1.bind (SectorGen.part_sequel g ▸ h2)
  have hiff := Regions.serve_split_iff (fun _ _ => cut_mono d s (n + k) p) hord
    (hfull (by omega) (by omega) hwhole.fats p) hlocal (htotal hwhole.fats p) htotal'
  rw [← driveRegions_split hk hr hwhole.fats hfront.fats hrest.fats hsplit hE hroot hdirs hl, ← hiff]
  refine forall_congr' fun m => ?_
  obtain ⟨M, c, hM, hserve⟩ := hrun (by omega) hnk (by omega) (by omega) hwhole m p
  obtain ⟨m₁, c₁, hm₁, hserve₁⟩ := hrun (by omega) (by omega) hn (by omega) hfront m p
  obtain ⟨M', c₂, hM', hserve₂⟩ := hrun hs (by omega) hk0 (Nat.le_refl _) hrest m₁ (p + n * d.bps)
  have hserve₂ : Regions.serve 0 (driveRegions env d l s p) (s + n) k m₁ = some M' :=
    (serve_sequel _ m₁).symm.trans hserve₂
  rw [← Regions.serve_split hord, hserve, hserve₁, Option.bind_some, hserve₂, Option.some.injEq]
  constructor
  · rintro ⟨N, n₁, e, e₁, e₂, h, h₁, h₂⟩
    cases h.symm.trans hM
    cases h₁.symm.trans hm₁
    cases h₂.symm.trans hM'
    rfl
  · rintro rfl
    exact ⟨M, m₁, c, c₁, c₂, hM, hm₁, hM'⟩

/-- Where each request fits, both serve what one does if the cut fits, and only then. -/
theorem cutServes_iff_of_pos (hfit : RunsFit d rs s n k) :
    CutServes env d s n k ↔ SlotsCut d rs s n k ∧ AnswersCut env d rs s n k := by
  have hno (c : ReadCall) : ¬ env.Fails d c := hE.read_ne _ _ _
  have hcounts {u w : Nat} (hu : u < 2 ^ 32) (hw : w < 2 ^ 32) (hpos : 0 < w)
      (hle : u + w ≤ s + n + k) (h : ReadFits d rs u w) : CountsWith env d u w :=
    (h.counts hg hk hr hv hu hw hpos fun h => hP (by omega)).countsWith hE.toBounded hno
  have hrun {u w : Nat} (hle : u + w ≤ s + n + k) (h : CountsWith env d u w) (m : Buffer) (q : Nat) :
      ∃ M c, vdfReadSectors env d u w m q = .ok ((w : Nat), M, c) ∧
        AgreeOutside q (w * d.bps) m M := by
    obtain ⟨M, c, hM, hout⟩ := h m q
    rw [(by omega : min w (d.allSectors - u) = w)] at hM hout
    exact ⟨M, c, hM, hout⟩
  constructor
  · intro h
    refine (cut_same_iff hg hk hr hv hs hnk hin hn hk0 hP hsplit hE hroot hdirs hfit 0).mp
      fun m => ?_
    obtain ⟨M, c, hM, hout⟩ := hrun (by omega) h.whole m 0
    obtain ⟨m₁, c₁, hm₁, hout₁⟩ := hrun (by omega) h.front m 0
    obtain ⟨M', c₂, hM', hout₂⟩ := hrun (Nat.le_refl _) h.rest m₁ (0 + n * d.bps)
    obtain rfl : M = M' := by
      funext x
      rw [Nat.add_mul] at hout
      rcases Nat.lt_or_ge x ((n + k) * d.bps) with hx | hx
      · have := h.same m 0 _ M c _ m₁ c₁ _ M' c₂ hM hm₁ hM' x hx
        rwa [Nat.zero_add] at this
      · rw [Nat.add_mul] at hx
        rw [hout x (.inr (by omega)), hout₂ x (.inr (by omega)), hout₁ x (.inr (by omega))]
    exact ⟨M, m₁, c, c₁, c₂, hM, hm₁, hM'⟩
  · intro hcut
    refine ⟨hcounts (by omega) hnk (by omega) (by omega) hfit.whole,
      hcounts (by omega) (by omega) hn (by omega) hfit.front,
      hcounts hs (by omega) hk0 (Nat.le_refl _) hfit.rest, ?_⟩
    intro m p r M c r₁ m₁ c₁ r₂ M' c₂ hM hm₁ hM' b hb
    obtain ⟨N, n₁, e, e₁, e₂, hN, hn₁, hN'⟩ := (cut_same_iff hg hk hr hv hs hnk hin hn hk0 hP hsplit
      hE hroot hdirs hfit p).mpr hcut m
    cases hN.symm.trans hM
    cases hn₁.symm.trans hm₁
    cases hN'.symm.trans hM'
    rfl

end Result

/-! ## Empty requests -/

section Empty

variable {d : VdfDrive} {rs : List FileRange} {env : Readers} {s n k : Nat} (hv : d.isValid = true)

include hv

theorem vdfReadSectors_empty (env : Readers) (s : Nat) (m : Buffer) (p : Nat) :
    vdfReadSectors env d s 0 m p = .ok (0, m, []) := by
  rw [vdfReadSectors, hv, if_neg (by simp), if_pos rfl]

theorem countsWith_empty (env : Readers) (s : Nat) : CountsWith env d s 0 := by
  intro m p
  rw [Nat.zero_min]
  exact ⟨m, [], vdfReadSectors_empty hv env s m p, .refl _ _ _⟩

omit hv in
theorem readFits_empty (hin : s ≤ d.allSectors) : ReadFits d rs s 0 where
  start := hin
  int := by omega
  data := .inl hin
  fats := ⟨fun h => by omega, fun h => by omega⟩
  files h := by omega

/-- With an empty request in front or behind there is one request. -/
theorem cutServes_of_empty (h : n = 0 ∨ k = 0) (hwhole : CountsWith env d s (n + k)) :
    CutServes env d s n k := by
  rcases h with rfl | rfl
  · rw [Nat.zero_add] at hwhole
    refine ⟨by rwa [Nat.zero_add], countsWith_empty hv env s, hwhole, ?_⟩
    intro m p r M c r₁ m₁ c₁ r₂ M' c₂ hM hm₁ hM' b _
    rw [vdfReadSectors_empty hv] at hm₁
    cases hm₁
    rw [Nat.zero_add] at hM
    rw [Nat.zero_mul, Nat.add_zero, Nat.add_zero] at hM'
    cases hM.symm.trans hM'
    rfl
  · refine ⟨hwhole, hwhole, countsWith_empty hv env _, ?_⟩
    intro m p r M c r₁ m₁ c₁ r₂ M' c₂ hM hm₁ hM' b _
    rw [vdfReadSectors_empty hv] at hM'
    cases hM'
    cases hM.symm.trans hm₁
    rfl

omit hv in
theorem splitAt_of_empty (h : n = 0 ∨ k = 0) {lo hi : Nat} {P : Nat → Nat → Nat → Prop} :
    SplitAt s n k lo hi P := fun h1 h2 => by omega

end Empty

/-! ## Requests of any length -/

section Lengths

variable {d : VdfDrive} {rs : List FileRange} {env : Readers} {s n k : Nat}
  (hg : d.toGeometry.Created) (hk : d.toGeometry.Known) (hr : Ranged d rs) (hv : d.isValid = true)

include hg hk hr hv

theorem CountsWith.keeps {u w : Nat} (hu : u < 2 ^ 32) (hw : w < 2 ^ 32)
    (h : CountsWith env d u w) : FatsStay d rs u w := by
  rcases Nat.eq_zero_or_pos w with rfl | hpos
  · exact ⟨fun h => by omega, fun h => by omega⟩
  · exact h.fatsStay hg hk hr hv hu hw hpos

variable (hs : s + n < 2 ^ 32) (hnk : n + k < 2 ^ 32) (hin : s + n + k ≤ d.allSectors)

include hs hnk hin

/-- What is served in two requests keeps to the FATs, and its sectors are an `int`. -/
theorem CutServes.keeps (h : CutServes env d s n k) : n + k < 2 ^ 31 ∧ FatsStay d rs s (n + k) ∧
    FatsStay d rs s n ∧ FatsStay d rs (s + n) k := by
  refine ⟨?_, h.whole.keeps hg hk hr hv (by omega) hnk, h.front.keeps hg hk hr hv (by omega)
    (by omega), h.rest.keeps hg hk hr hv hs (by omega)⟩
  rcases Nat.eq_zero_or_pos (n + k) with h0 | hpos
  · omega
  · obtain ⟨-, hint, -⟩ := h.whole.window hg hk hr hv (by omega) hnk hpos
    omega

variable (hP : d.mbrSectors + d.dataStart < s + n + k → DataPlaced d rs)

include hP

/-- Readers of ones are counted where each request fits only. -/
theorem CutServes.fits (hE : env.Ones d) (h : CutServes env d s n k) : RunsFit d rs s n k := by
  have hfits {u w : Nat} (hu : u < 2 ^ 32) (hw : w < 2 ^ 32) (hle : u + w ≤ s + n + k)
      (h : CountsWith env d u w) : ReadFits d rs u w := by
    rcases Nat.eq_zero_or_pos w with rfl | hpos
    · exact readFits_empty (by omega)
    · exact h.fits hg hk hr hv hu hw hpos hE fun h => hP (by omega)
  exact ⟨hfits (by omega) hnk (by omega) h.whole, hfits (by omega) (by omega) (by omega) h.front,
    hfits hs (by omega) (Nat.le_refl _) h.rest⟩

variable (hsplit : FatsSplit d rs s n k) (hroot : DirSliced d d.rootDir)
  (hdirs : ∀ r ∈ rs, (d.file r.file).isDir = true → DirSliced d r.file)

include hsplit hroot hdirs

/-- Requests that fit serve what one does where the cut fits, and only there. -/
theorem cutServes_iff (hE : env.Answer) (hfit : RunsFit d rs s n k) :
    CutServes env d s n k ↔ SlotsCut d rs s n k ∧ AnswersCut env d rs s n k := by
  by_cases hempty : n = 0 ∨ k = 0
  · refine iff_of_true (cutServes_of_empty hv hempty ?_)
      ⟨⟨splitAt_of_empty hempty, fun _ _ _ _ => splitAt_of_empty hempty⟩,
        fun _ _ _ _ => splitAt_of_empty hempty⟩
    rcases Nat.eq_zero_or_pos (n + k) with h0 | hpos
    · rw [h0]
      exact countsWith_empty hv env s
    · exact (hfit.whole.counts hg hk hr hv (by omega) hnk hpos fun h => hP (by omega)).countsWith
        hE.toBounded fun _ => hE.read_ne _ _ _
  · rw [not_or] at hempty
    exact cutServes_iff_of_pos hg hk hr hv hs hnk hin (Nat.pos_of_ne_zero hempty.1)
      (Nat.pos_of_ne_zero hempty.2) hP hsplit hE hroot hdirs hfit

end Lengths

/-! ## Recalculated drives -/

section Recalc

variable {d : VdfDrive} (ht : d.IsTree) {rs : List FileRange}

include ht

/-- The directories of a recalculated drive. -/
theorem recalc_dirSliced (hk : d.toGeometry.Known) {dir : FileId} (hdir : d.Below dir d.rootDir)
    (hd : (d.file dir).isDir = true) : DirSliced (recalcDrive d rs) dir := by
  have hlab : labelSlots (recalcDrive d rs) dir = labelSlots d dir := by
    have hpar := (recalc_dir ht rs hdir hd).1
    rw [labelSlots, labelSlots, hpar]
    rfl
  intro o want hreq m p
  rw [hlab]
  exact recalc_readSectorDir ht rs hdir hd hk hreq m p

/-- A directory among the ranges is one of the tree. -/
theorem mem_result_below (hq : Qsort.Result cmpFilerange (unsortedRanges d) rs) {r : FileRange}
    (hr : r ∈ rs) (hd : ((recalcDrive d rs).file r.file).isDir = true) :
    d.Below r.file d.rootDir ∧ (d.file r.file).isDir = true := by
  obtain ⟨f, hf, rfl⟩ := mem_unsortedRanges (hq.perm.mem_iff.mp hr)
  have hd : (recalcFile d f).isDir = true := hd
  rw [recalcFile_mem hf, (laidOut_static _ _ _).2.2, (numbered_static _ _).1] at hd
  exact ⟨((ht.mem_allFiles f).mp hf).1, hd⟩

end Recalc

/-! ## Readers with a content -/

section Content

variable {env : Readers} {content : FileId → List UInt8} (hE : env.Steady content) {d : VdfDrive}
  {f : FileId}

include hE

theorem Readers.Steady.pieceByte {o want j : Nat} (hj : j < want * d.bps) :
    Vdf.pieceByte env d f o want j = contentByte d content f (u32 (o * d.bps) + j) := by
  simp only [Vdf.pieceByte, contentByte, hE.read]
  generalize u32 (o * d.bps) = off
  by_cases hz : (d.file f).size ≤ off
  · rw [if_pos hz, if_neg (by omega)]
  · rw [if_neg hz, Option.getD_some, List.getD_eq_getElem?_getD, List.getElem?_take,
      List.getElem?_drop]
    by_cases hlt : off + j < (d.file f).size
    · rw [if_pos (by omega), if_pos hlt, ← List.getD_eq_getElem?_getD]
    · rw [if_neg (by omega), if_neg hlt]
      rfl

/-- A file with a content can be read in two parts, unless the offset wraps in front of its end. -/
theorem Readers.Steady.answersSplit {o n k : Nat} (hsize : (d.file f).size < 2 ^ 32)
    (h : OffsetSplit d f o n) : AnswersSplit env d f o n k := by
  have hsum : (n + k) * d.bps = n * d.bps + k * d.bps := Nat.add_mul ..
  constructor
  · intro j hj
    rw [hE.pieceByte (by omega), hE.pieceByte hj]
  · intro j hj
    rw [hE.pieceByte (by omega), hE.pieceByte hj]
    have hu : u32 ((o + n) * d.bps) = u32 (u32 (o * d.bps) + n * d.bps) := by
      rw [Nat.add_mul, u32, u32, u32, Nat.mod_add_mod]
    rcases Nat.lt_or_ge (u32 (o * d.bps) + n * d.bps) (2 ^ 32) with hlt | hge
    · rw [hu, u32_of_lt hlt, Nat.add_assoc]
    · have hle := h.resolve_left (Nat.not_lt.mpr hge)
      rw [contentByte, contentByte, if_neg (by omega), if_neg (by omega)]

omit hE in
theorem Readers.Steady.answer (hE : env.Steady content) : env.Answer where
  toBounded := hE.bounded
  cback_ne f off len := by
    rw [hE.cback]
    exact Option.some_ne_none _
  pread_ne f off len := by
    rw [hE.pread]
    exact Option.some_ne_none _

end Content

/-- The readers of long files of ones. -/
def onesReaders : Readers := contentReaders fun _ => List.replicate (2 ^ 32) 1

theorem onesReaders_steady : onesReaders.Steady fun _ => List.replicate (2 ^ 32) 1 :=
  contentReaders_steady _

theorem onesReaders_ones (d : VdfDrive) : onesReaders.Ones d := by
  intro f off len hlt
  rw [onesReaders_steady.read, List.drop_replicate, List.take_replicate, Nat.min_eq_left (by omega)]

/-- Where the offset wraps in front of the end of a file, its first byte is not read as the zero that
stands behind the end. -/
theorem offsetSplit_of_ones {d : VdfDrive} {f : FileId} {o n k : Nat} (hk : 0 < k * d.bps)
    (hsize : (d.file f).size < 2 ^ 32) (h : AnswersSplit onesReaders d f o n k) :
    OffsetSplit d f o n := by
  by_contra hbad
  rw [OffsetSplit, not_or, Nat.not_lt, Nat.not_le] at hbad
  have hE := onesReaders_steady
  have hbyte := h.2 0 hk
  rw [hE.pieceByte (by rw [Nat.add_mul]; omega), hE.pieceByte hk, contentByte, if_neg (by omega),
    contentByte, Nat.add_zero, if_pos hbad.2, List.getD_eq_getElem?_getD, List.getElem?_replicate,
    if_pos (by omega)] at hbyte
  exact absurd hbyte (by decide)

section Offsets

variable {d : VdfDrive} {rs : List FileRange} {s n k : Nat}
  (hP : d.mbrSectors + d.dataStart < s + n + k → DataPlaced d rs)

include hP

/-- The answers of readers with a content can be cut where the offsets do not wrap. -/
theorem OffsetsCut.answersCut (h : OffsetsCut d rs s n k) {env : Readers}
    {content : FileId → List UInt8} (hE : env.Steady content) : AnswersCut env d rs s n k :=
  fun hlt r hr hd h1 h2 => hE.answersSplit ((hP hlt).lt r hr) (h hlt r hr hd h1 h2)

/-- Those of readers of ones can only there. -/
theorem AnswersCut.offsetsCut (hb : 0 < d.bps) (h : AnswersCut onesReaders d rs s n k) :
    OffsetsCut d rs s n k := by
  intro hlt r hr hd h1 h2
  exact offsetSplit_of_ones (Nat.mul_pos (by omega) hb) ((hP hlt).lt r hr) (h hlt r hr hd h1 h2)

end Offsets

/-! ## The result -/

/-- On every recalculated drive two requests in a row serve what one does only if the sectors are
fewer than `2^31` and each request keeps to the FATs. Where a FAT that is cut can be read in two
parts, and the ranges follow each other through the data area if the requests go on there, requests
that fit do so with given readers iff the directory or file that is cut can be read in two parts. With
all readers that have a content requests do so iff each fits, a directory that is cut can be read in
two parts, and the offset into a file that is cut does not wrap there. -/
theorem vdfReadSectors_cut_iff (d d' : VdfDrive) (rs : List FileRange)
    (hg : d.toGeometry.Created) (hf : d.filesys ≠ .unset) (ht : d.IsTree) (hr : d.InRange)
    (hcnt : d.allFiles.length ≤ d.fileCnt) (h : Recalc d d') (hrs : d'.ranges = some rs)
    (s n k : Nat) (hs : s + n < 2 ^ 32) (hnk : n + k < 2 ^ 32) (hin : s + n + k ≤ d'.allSectors) :
    (∀ env, CutServes env d' s n k → n + k < 2 ^ 31 ∧ FatsStay d' rs s (n + k) ∧
      FatsStay d' rs s n ∧ FatsStay d' rs (s + n) k) ∧
    ((d'.mbrSectors + d'.dataStart < s + n + k → DataPlaced d' rs) → FatsSplit d' rs s n k →
      (∀ env : Readers, env.Answer → RunsFit d' rs s n k → (CutServes env d' s n k ↔
        SlotsCut d' rs s n k ∧ AnswersCut env d' rs s n k)) ∧
      ((∀ env content, Readers.Steady env content → CutServes env d' s n k) ↔
        RunsFit d' rs s n k ∧ SlotsCut d' rs s n k ∧ OffsetsCut d' rs s n k)) := by
  obtain ⟨hcan, rs', hq, rfl⟩ := (recalc_iff ht hr.dataStart).mp h
  obtain rfl : rs' = rs := Option.some.inj hrs
  have hk : (recalcDrive d rs').toGeometry.Known := hg.known hf
  have hg' : (recalcDrive d rs').toGeometry.Created := hg
  have hranged := Ranged.of_result hr hcnt hq
  have hv : (recalcDrive d rs').isValid = true := hcan.valid
  have hroot : DirSliced (recalcDrive d rs') (recalcDrive d rs').rootDir :=
    recalc_dirSliced ht (hg.known hf) (.refl _) ht.root_isDir
  have hdirs : ∀ r ∈ rs', ((recalcDrive d rs').file r.file).isDir = true →
      DirSliced (recalcDrive d rs') r.file := fun r hr hd =>
    recalc_dirSliced ht (hg.known hf) (mem_result_below ht hq hr hd).1
      (mem_result_below ht hq hr hd).2
  generalize recalcDrive d rs' = d' at *
  refine ⟨fun env hc => hc.keeps hg' hk hranged hv hs hnk hin, fun hP hsplit => ?_⟩
  have hiff (env : Readers) (hE : env.Answer) (hfit : RunsFit d' rs' s n k) :=
    cutServes_iff hg' hk hranged hv hs hnk hin hP hsplit hroot hdirs hE hfit
  refine ⟨hiff, fun h => ?_, ?_⟩
  · have hones := h _ _ onesReaders_steady
    have hfit := hones.fits hg' hk hranged hv hs hnk hin hP (onesReaders_ones d')
    obtain ⟨hslots, hanswers⟩ := (hiff _ onesReaders_steady.answer hfit).mp hones
    have hb := (sectorSizes_le hk.bps).1
    exact ⟨hfit, hslots, hanswers.offsetsCut hP (by omega)⟩
  · rintro ⟨hfit, hslots, hoffsets⟩ env content hE
    exact (hiff env hE.answer hfit).mpr ⟨hslots, hoffsets.answersCut hP hE⟩

/-- A drive with two files, cut in the second file and in the FAT. -/
theorem vdfReadSectors_cut_sample : ∃ d', Recalc drive16 d' ∧
    CutServes (contentReaders fun _ => [0x48, 0x69]) d' 0 200 800 ∧
    CutServes (contentReaders fun _ => [0x48, 0x69]) d' 0 10 50 := by
  obtain ⟨rs, hq⟩ := Qsort.exists_result cmpFilerange (unsortedRanges drive16)
  have h := (recalc_iff drive16_isTree drive16_inRange.dataStart).mpr
    ⟨drive16_canRecalc, rs, hq, rfl⟩
  have himaged := drive16_imageFits.imaged geometry16_created (by decide) drive16_isTree
    drive16_inRange (by decide) hq drive16_canRecalc
  have hlen : rs.length = 2 := hq.perm.length_eq.trans (by decide)
  have hfat (sector scnt : Nat) : FatStays (recalcDrive drive16 rs) rs sector scnt :=
    .inr (.inl hlen.symm)
  have hreads (s n : Nat) (hn : n < 2 ^ 31) (hin : s + n ≤ 262217) :
      ReadFits (recalcDrive drive16 rs) rs s n :=
    { start := show s ≤ 262217 by omega
      int := Nat.lt_of_le_of_lt (Nat.min_le_left ..) hn
      data := .inl hin, fats := ⟨fun _ => hfat _ _, fun _ => hfat _ _⟩
      files := fun _ => himaged.layout.filesStay (himaged.offsets _) _ }
  have hsplit : FatSplit (recalcDrive drive16 rs) rs = fun _ _ => True := by
    funext o n
    refine eq_true ⟨⟨[], rs, rfl, fun _ r hr => absurd hr List.not_mem_nil, himaged.chain,
      himaged.nonempty⟩, fun h12 => absurd h12 (show ¬ drive16.filesys = .fat12 by decide)⟩
  have hfiles : ∀ r ∈ unsortedRanges drive16,
      (recalcFile drive16 r.file).isDir = false ∧ r.sectend ≤ 1000 := by decide
  have hslots (n k : Nat) : SlotsCut (recalcDrive drive16 rs) rs 0 n k :=
    { root := fun _ _ _ =>
        .inl (show labelSlots { drive16 with file := recalcFile drive16 } 0 = 0 by decide)
      dirs := fun _ r hr hd =>
        absurd ((hfiles r (hq.perm.mem_iff.mp hr)).1.symm.trans hd) (by decide) }
  have hoffsets (n k : Nat) : OffsetsCut (recalcDrive drive16 rs) rs 0 n k := by
    intro _ r hr _ h1 h2
    have hend := (hfiles r (hq.perm.mem_iff.mp hr)).2
    have hstart : max 0 ((recalcDrive drive16 rs).mbrSectors + r.sectstart) -
        ((recalcDrive drive16 rs).mbrSectors + r.sectstart) = 0 := by omega
    have h2 : 0 + n < min (0 + n + k) (0 + r.sectend) := h2
    rw [hstart]
    refine .inl ?_
    rw [Nat.zero_mul]
    show 0 + (0 + n - max 0 (0 + r.sectstart)) * 512 < 2 ^ 32
    omega
  have hiff (n k : Nat) (hn : 0 + n < 2 ^ 32) (hnk : n + k < 2 ^ 31) (hin : 0 + n + k ≤ 262217) :
      CutServes (contentReaders fun _ => [0x48, 0x69]) (recalcDrive drive16 rs) 0 n k :=
    ((vdfReadSectors_cut_iff drive16 _ rs geometry16_created (by decide) drive16_isTree
      drive16_inRange (by decide) h rfl 0 n k hn (by omega) hin).2 (fun _ => himaged.layout.placed)
      ⟨fun _ _ => hsplit ▸ trivial, fun _ _ => hsplit ▸ trivial⟩).2.mpr
      ⟨⟨hreads _ _ hnk (by omega), hreads _ _ (by omega) (by omega),
        hreads _ _ (by omega) hin⟩, hslots n k, hoffsets n k⟩ _ _ (contentReaders_steady _)
  exact ⟨_, h, hiff 200 800 (by decide) (by decide) (by decide),
    hiff 10 50 (by decide) (by decide) (by decide)⟩

/-- A root with a label and sixteen files: its first two sectors at once have sixteen slots, and read
one after the other they have the last one twice. -/
theorem vdfReadSectors_not_cut : ¬ ∀ d d' : VdfDrive, d.toGeometry.Created →
    d.filesys ≠ .unset → d.IsTree → d.InRange → d.allFiles.length ≤ d.fileCnt → Recalc d d' →
    ∀ env content, Readers.Steady env content → ∀ s n k, s + n < 2 ^ 32 → n + k < 2 ^ 32 →
      s + n + k ≤ d'.allSectors → CutServes env d' s n k := by
  intro hall
  have ht : driveLabel.IsTree := flatDrive_isTree _ _ _
  have hr : driveLabel.InRange := flatDrive_inRange (by decide) (by decide) (by decide)
  have hk := geometry16_created.known (by decide)
  obtain ⟨rs, hq⟩ := Qsort.exists_result cmpFilerange (unsortedRanges driveLabel)
  have hcan : CanRecalc driveLabel := ⟨rfl, rfl, rfl, by decide⟩
  have h := (recalc_iff ht hr.dataStart).mpr ⟨hcan, rs, hq, rfl⟩
  have hranged : Ranged (recalcDrive driveLabel rs) rs := .of_result hr (by decide) hq
  have hserves (env : Readers) (content : FileId → List UInt8) (hE : env.Steady content) :=
    hall driveLabel _ geometry16_created (by decide) ht hr (by decide) h env content hE 33 1 1
      (by decide) (by decide) (show 33 + 1 + 1 ≤ 262217 by decide)
  have hroot : DirSliced (recalcDrive driveLabel rs) driveLabel.rootDir :=
    recalc_dirSliced ht hk (.refl _) ht.root_isDir
  have hdirs (r : FileRange) (hm : r ∈ rs) (hd : ((recalcDrive driveLabel rs).file r.file).isDir) :
      DirSliced (recalcDrive driveLabel rs) r.file :=
    recalc_dirSliced ht hk (mem_result_below ht hq hm hd).1 (mem_result_below ht hq hm hd).2
  have hP : (recalcDrive driveLabel rs).mbrSectors + (recalcDrive driveLabel rs).dataStart <
      33 + 1 + 1 → DataPlaced (recalcDrive driveLabel rs) rs :=
    fun h => absurd h (show ¬ 65 < 33 + 1 + 1 by decide)
  have hsplit : FatsSplit (recalcDrive driveLabel rs) rs 33 1 1 :=
    ⟨fun _ h2 => absurd h2 (show ¬ 33 + 1 < min (33 + 1 + 1) 17 by decide),
      fun _ h2 => absurd h2 (show ¬ 33 + 1 < min (33 + 1 + 1) 33 by decide)⟩
  have hones := hserves _ _ onesReaders_steady
  have hfit := hones.fits geometry16_created hk hranged hcan.valid (by decide) (by decide)
    (show 33 + 1 + 1 ≤ 262217 by decide) hP (onesReaders_ones _)
  obtain ⟨hcut, -⟩ := (cutServes_iff geometry16_created hk hranged hcan.valid (by decide) (by decide)
    (show 33 + 1 + 1 ≤ 262217 by decide) hP hsplit hroot hdirs onesReaders_steady.answer hfit).mp hones
  have hone : 33 + 1 - max 33 ((recalcDrive driveLabel rs).mbrSectors +
      fatEnd (recalcDrive driveLabel rs)) = 1 := show 33 + 1 - max 33 (0 + 33) = 1 by decide
  have hslots := (hcut.root (show max 33 33 < 33 + 1 by decide)
    (show 33 + 1 < min (33 + 1 + 1) 65 by decide) rfl).resolve_left
    (show ¬ labelSlots { driveLabel with file := recalcFile driveLabel } 0 = 0 by decide) 0
    (show 0 < 1 * 16 by decide) 0 (by decide)
  -- The slots do not depend on the ranges.
  have hslot : slotAt (recalcDrive driveLabel rs) 0 =
      slotAt { driveLabel with file := recalcFile driveLabel } 0 := by
    unfold slotAt dirRecords
    rfl
  rw [hone] at hslots
  have hne : ¬ (slotAt { driveLabel with file := recalcFile driveLabel } 0 (1 * 16 + 0)).byte 0 =
      (slotAt { driveLabel with file := recalcFile driveLabel } 0 (1 * 16 - 1 + 0)).byte 0 := by
    decide
  rw [← hslot] at hne
  exact hne hslots

end Vdf
