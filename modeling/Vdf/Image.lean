import Vdf.DirServed
import Vdf.Fat12Served
import Vdf.ReadCount

/-!
# The image of a drive

A laid-out drive has one image: the byte at each place is that of the sector structure, the table,
the slot or the file that its area holds, or none where no generator stores one (`driveImage`). On
the drives whose ranges are chains with served directories (`Imaged`) each generator serves slices
of its area, and `vdf_read_sectors` serves slices of the image (`Imaged.reads`).

A table with an empty file has the chains of the others, but a request that goes on behind the last
chain leaves the array (`FatsStay`).
-/

namespace Vdf

open Word Buffer

/-! ## Areas -/

/-- The sectors up to `hi`. `byte` counts from the start of the area. -/
structure Area where
  hi : Nat
  byte : Nat → Option UInt8

/-- The image of areas that follow each other from sector `lo` on. -/
def imageFrom (bps : Nat) : (lo : Nat) → List Area → Nat → Option UInt8
  | _, [], _ => none
  | lo, a :: l, x => if x < a.hi * bps then a.byte (x - lo * bps) else imageFrom bps a.hi l x

/-- The content of a reserved sector. -/
def reservedRecord (d : VdfDrive) (sector : Nat) : Record :=
  if d.filesys = .fat32 ∧ sector = 1 then fsinfoRecord d
  else if ¬ (d.filesys = .fat32 ∧ sector = 6) ∧ sector ≠ 0 then Record.zero d.bps
  else (bootRecord d).toOption.getD []

/-- The entries of the FAT. -/
def driveTable (d : VdfDrive) : Nat → Nat :=
  let ranges := d.ranges.getD []
  match d.filesys with
  | .fat12 => chainTable 0xff8 0xfff ranges
  | filesys => chainTable filesys.mediaMark filesys.eocMark ranges

/-- Byte `j` of a FAT copy. -/
def fatByte (d : VdfDrive) (j : Nat) : UInt8 :=
  match d.filesys with
  | .fat12 => packedByte (driveTable d) j
  | filesys => entryByte filesys.entryWidth (driveTable d) j

/-- Byte `j` of a directory. -/
def slotByte (d : VdfDrive) (dir : FileId) (j : Nat) : Option UInt8 :=
  (slotAt d dir (j / 32)).byte (j % 32)

/-- Byte `o` of a regular file: that of its content up to its size, or 0. -/
def contentByte (d : VdfDrive) (content : FileId → List UInt8) (f : FileId) (o : Nat) : UInt8 :=
  if o < (d.file f).size then (content f).getD o 0 else 0

/-- The sectors in front of the file system. -/
def mbrAreas (d : VdfDrive) : List Area :=
  [{ hi := min 1 d.mbrSectors, byte := (mbrRecord d).byte },
    { hi := d.mbrSectors, byte := fun _ => some 0 }]

/-- The system area. -/
def systemAreas (d : VdfDrive) : List Area :=
  let mbr := d.mbrSectors
  [{ hi := mbr + d.fat1Start, byte := fun j => (reservedRecord d (j / d.bps)).byte (j % d.bps) },
    { hi := mbr + d.fat2Start, byte := fun j => some (fatByte d j) },
    { hi := mbr + fatEnd d, byte := fun j => some (fatByte d j) },
    { hi := mbr + d.dataStart, byte := slotByte d d.rootDir }]

/-- The sectors of a file. -/
def fileArea (d : VdfDrive) (content : FileId → List UInt8) (r : FileRange) : Area where
  hi := d.mbrSectors + r.sectend
  byte j :=
    if (d.file r.file).isDir then slotByte d r.file j else some (contentByte d content r.file j)

/-- The sectors behind the last file. -/
def freeArea (d : VdfDrive) : Area where
  hi := max (d.mbrSectors + max d.dataStart d.dataEnd) d.allSectors
  byte _ := some 0

/-- The data area. -/
def dataAreas (d : VdfDrive) (content : FileId → List UInt8) : List Area :=
  (d.ranges.getD []).map (fileArea d content) ++ [freeArea d]

/-- The byte at each place of the drive. -/
def driveImage (d : VdfDrive) (content : FileId → List UInt8) : Nat → Option UInt8 :=
  imageFrom d.bps 0 (mbrAreas d ++ (systemAreas d ++ dataAreas d content))

/-- The readers answer with the bytes of one content for each file, as far as it goes. -/
structure Readers.Steady (env : Readers) (content : FileId → List UInt8) : Prop where
  cback : ∀ f off len, env.cback f off len = some (((content f).drop off).take len)
  pread : ∀ f off len, env.pread f off len = some (((content f).drop off).take len)

/-! ## Generators and areas -/

/-- A generator serves its part of a request as a slice of an area from sector `lo` on. -/
def SectorGen.Serves (d : VdfDrive) (s n lo : Nat) (g : SectorGen) (a : Area) : Prop :=
  g.hi = a.hi ∧ Clipped s n lo g.hi fun o want => ∀ m p, g.gen (lo + o) want m p =
    some (m.overlay p (want * d.bps) fun j => a.byte (o * d.bps + j))

/-- Each generator serves slices of its area. -/
def AreasServed (d : VdfDrive) (s n : Nat) : Nat → List SectorGen → List Area → Prop
  | _, [], l => l = []
  | lo, g :: gs, l => ∃ a as, l = a :: as ∧ g.Serves d s n lo a ∧ AreasServed d s n g.hi gs as

section Areas

variable {d : VdfDrive} {s n lo : Nat}

theorem areasServed_append {gs gs' : List SectorGen} {as as' : List Area}
    (h : AreasServed d s n lo gs as) {hi : Nat}
    (hfin : (gs.getLast?.map SectorGen.hi).getD lo = hi) (h' : AreasServed d s n hi gs' as') :
    AreasServed d s n lo (gs ++ gs') (as ++ as') := by
  induction gs generalizing lo as with
  | nil =>
    obtain rfl : as = [] := h
    obtain rfl : lo = hi := hfin
    exact h'
  | cons g gs ih =>
    obtain ⟨a, as, rfl, hg, hgs⟩ := h
    refine ⟨a, as ++ as', rfl, hg, ih hgs ?_⟩
    rw [← hfin]
    cases gs <;> rfl

/-- Generators that serve slices of their areas view the image of them. -/
theorem areasServed_views {image : Nat → Option UInt8} {p : Nat} {gs : List SectorGen}
    {as : List Area} (h : AreasServed d s n lo gs as)
    (himage : ∀ x, lo * d.bps ≤ x → image x = imageFrom d.bps lo as x)
    (ho : Regions.Ordered lo (gs.map (SectorGen.region d s p))) :
    Regions.Views (fun u want m => m.overlay (p + (u - s) * d.bps) (want * d.bps)
      fun j => image (u * d.bps + j)) s n lo (gs.map (SectorGen.region d s p)) := by
  induction gs generalizing lo as with
  | nil => trivial
  | cons g gs ih =>
    obtain ⟨a, as, rfl, ⟨hhi, hserves⟩, hgs⟩ := h
    obtain ⟨hlo, ho⟩ := ho
    refine ⟨fun hlt m => ?_, ih hgs (fun x hx => ?_) ho⟩
    · have hlt : max s lo < min (s + n) g.hi := hlt
      have hgen := hserves hlt m (p + (max s lo - s) * d.bps)
      rw [(by omega : lo + (max s lo - lo) = max s lo)] at hgen
      refine hgen.trans (congrArg some (overlay_congr fun j hj => ?_))
      -- The part lies in the area.
      have hx : max s lo * d.bps + j < a.hi * d.bps := by
        have hle : (max s lo + (min (s + n) g.hi - max s lo)) * d.bps ≤ a.hi * d.bps :=
          Nat.mul_le_mul_right _ (by omega)
        rw [Nat.add_mul] at hle
        exact Nat.lt_of_lt_of_le (Nat.add_lt_add_left hj _) hle
      have hle : lo * d.bps ≤ max s lo * d.bps := Nat.mul_le_mul_right _ (by omega)
      rw [himage _ (by omega), imageFrom, if_pos hx, Nat.sub_mul]
      congr 1
      omega
    · have hle : lo * d.bps ≤ g.hi * d.bps := Nat.mul_le_mul_right _ hlo
      have hx : g.hi * d.bps ≤ x := hx
      show image x = imageFrom d.bps g.hi as x
      rw [himage x (by omega), imageFrom, if_neg (by rw [← hhi]; omega), hhi]

end Areas

/-! ## The reserved sectors -/

section Reserved

variable {d : VdfDrive}

/-- Byte `j` behind `o` sectors. -/
theorem sector_byte (o : Nat) {bps : Nat} (hb : 0 < bps) (j : Nat) :
    (o * bps + j) / bps = o + j / bps ∧ (o * bps + j) % bps = j % bps := by
  rw [Nat.add_comm (o * bps), Nat.add_mul_div_right _ _ hb, Nat.add_mul_mod_self_right]
  exact ⟨Nat.add_comm _ _, rfl⟩

theorem reservedRecord_within (hb : 512 ≤ d.bps) (sector : Nat) :
    (reservedRecord d sector).Within d.bps := by
  unfold reservedRecord
  split
  · exact (fsinfoRecord_within d).mono hb
  · split
    · exact Record.zero_within d.bps
    · cases h : bootRecord d with
      | ok r => exact (bootRecord_within h).mono hb
      | error f => exact nofun

theorem bootSector_eq (hf : d.filesys ≠ .unset) (sector : Nat) (m : Buffer) (p : Nat) :
    bootSector d sector m p = .ok (m.store p (reservedRecord d sector)) := by
  obtain ⟨r, hr⟩ := bootRecord_isOk hf
  unfold bootSector reservedRecord
  split
  · rfl
  · split
    · rw [store_zero]
    · rw [hr]
      rfl

/-- The reserved sectors, one after the other. -/
theorem readSectorBoot_image (hf : d.filesys ≠ .unset) (hb : 512 ≤ d.bps) (sector scnt : Nat)
    (m : Buffer) (p : Nat) : readSectorBoot d sector scnt m p =
      .ok (m.overlay p (scnt * d.bps) fun j =>
        (reservedRecord d (sector + j / d.bps)).byte (j % d.bps)) := by
  induction scnt generalizing sector m p with
  | zero => rw [Nat.zero_mul, overlay_zero]; rfl
  | succ scnt ih =>
    rw [readSectorBoot, bootSector_eq hf]
    show readSectorBoot d (sector + 1) scnt (m.store p (reservedRecord d sector)) (p + d.bps) = _
    rw [ih, store_eq_overlay m p (reservedRecord_within hb sector), overlay_overlay, Nat.succ_mul,
      Nat.add_comm d.bps]
    congr 1
    refine overlay_congr fun j _ => ?_
    by_cases hj : j < d.bps
    · rw [glue, if_pos hj, Nat.div_eq_of_lt hj, Nat.mod_eq_of_lt hj, Nat.add_zero]
    · -- A later sector.
      obtain ⟨hdiv, hmod⟩ := sector_byte 1 (by omega : 0 < d.bps) (j - d.bps)
      rw [(by omega : 1 * d.bps + (j - d.bps) = j)] at hdiv hmod
      rw [glue, if_neg hj, hdiv, hmod, Nat.add_assoc]

end Reserved

/-! ## The FAT -/

/-- Behind a chain the entries are free. -/
theorem walkEntry_free {eoc a b : Nat} {l : List FileRange}
    (h : Chain FileRange.fatstart FileRange.fatend a l b) (hne : ∀ r ∈ l, r.fatstart < r.fatend)
    {c : Nat} (hc : b ≤ c) : walkEntry eoc a l c = 0 := by
  obtain ⟨hends, hfin⟩ := walk_of_chain h hne
  rw [walkEntry, hends, hfin, if_neg, if_neg (by omega)]
  intro hmem
  obtain ⟨r, hr, he⟩ := List.mem_map.mp hmem
  have := (h.mem hr).2.2
  omega

/-- The ranges are the chains of the FAT, but for some in front that are out of the way. -/
structure FatPlaced (d : VdfDrive) (pre live : List FileRange) : Prop where
  skipped : live ≠ [] → ∀ r ∈ pre, r.fatend ≤ 2
  chain : Chain FileRange.fatstart FileRange.fatend 2 live d.dataClusterEnd
  nonempty : ∀ r ∈ live, r.fatstart < r.fatend

section Placed

variable {d : VdfDrive} {pre live : List FileRange} (h : FatPlaced d pre live) {ent : Nat}
  (htwo : 2 ≤ ent)

include h htwo

/-- The chains from an entry on. -/
theorem FatPlaced.rangesFrom (hlt : ent < d.dataClusterEnd) : ∃ front r rest,
    live = front ++ r :: rest ∧ (∀ x ∈ front, x.fatend ≤ ent) ∧ ent < r.fatend ∧
      Vdf.rangesFrom (pre ++ live) ent = r :: rest := by
  obtain ⟨front, r, rest, hlive, -, hr, hfront, -⟩ := h.chain.split htwo hlt
  have hne : live ≠ [] := by
    rw [hlive]
    exact List.append_ne_nil_of_right_ne_nil _ (List.cons_ne_nil _ _)
  refine ⟨front, r, rest, hlive, hfront, hr, ?_⟩
  rw [Vdf.rangesFrom, hlive, ← List.append_assoc, List.dropWhile_append_of_pos fun x hx => ?_,
    List.dropWhile_cons_of_neg (by simpa using hr)]
  refine decide_eq_true ((List.mem_append.mp hx).elim (fun hx => ?_) (hfront x))
  exact Nat.le_trans (h.skipped hne x hx) htwo

/-- A request walks the same chains from its first entry on. -/
theorem FatPlaced.walkEntry (eoc : Nat) {c : Nat} (hc : ent ≤ c) :
    walkEntry eoc ent (lookedUp d (pre ++ live) ent) c = walkEntry eoc 2 live c := by
  by_cases hend : d.dataClusterEnd ≤ ent
  · rw [lookedUp, if_pos hend, walkEntry_nil _ hc, walkEntry_free h.chain h.nonempty (by omega)]
  · obtain ⟨front, r, rest, rfl, hfront, hr, hcons⟩ := h.rangesFrom htwo (Nat.lt_of_not_le hend)
    rw [lookedUp, if_neg hend, hcons]
    exact (walkEntry_of_chain h.chain h.nonempty hfront hr hc).1.symm

/-- It ends where the chains do. -/
theorem FatPlaced.walkFin (hlt : ent < d.dataClusterEnd) :
    walkFin ent (Vdf.rangesFrom (pre ++ live) ent) = d.dataClusterEnd := by
  obtain ⟨front, r, rest, rfl, hfront, hr, hcons⟩ := h.rangesFrom htwo hlt
  rw [hcons]
  exact (@walkEntry_of_chain 0 2 d.dataClusterEnd front rest r h.chain h.nonempty ent hfront hr ent
    (Nat.le_refl ent)).2

end Placed

/-- On FAT16 and FAT32 a request that keeps to the array is a slice of the table. -/
theorem FatPlaced.readSectorFat_wide {d : VdfDrive} {pre live : List FileRange}
    (h : FatPlaced d pre live) (hk : d.toGeometry.Known) (hr : Ranged d (pre ++ live))
    (hf : d.filesys = .fat16 ∨ d.filesys = .fat32) {sector scnt : Nat} (hpos : 0 < scnt)
    (hle : sector + scnt ≤ d.fatSectors)
    (hstays : WideStays d.filesys.entryWidth d (pre ++ live) sector scnt) (m : Buffer) (p : Nat) :
    readSectorFat d sector scnt m p =
      .ok (m.overlay p (scnt * d.bps) fun j => some (entryByte d.filesys.entryWidth
        (chainTable d.filesys.mediaMark d.filesys.eocMark live) (sector * d.bps + j))) := by
  have hreq := FatRequest.of_known hk hf hpos hle
  have htwo := two_le_firstEntry hreq
  rw [Vdf.readSectorFat_wide hf, (readSectorFatWide_eq hreq hr htwo m p).1 hstays]
  congr 1
  refine overlay_congr fun j _ => ?_
  congr 1
  rw [entryByte, entryByte]
  congr 1
  generalize hc : (sector * d.bps + j) / d.filesys.entryWidth = c
  -- The first entries are those of the header, and the others follow the lookup.
  rcases Nat.lt_or_ge c 2 with h2 | h2
  · obtain rfl | rfl : c = 0 ∨ c = 1 := by omega
    · rfl
    · rfl
  have hfirst : firstEntry d.filesys.entryWidth d.bps sector ≤ c := by
    unfold firstEntry
    split
    · exact h2
    · obtain ⟨q, hq⟩ := hreq.dvd
      have hw := hreq.width
      rw [hq, Nat.mul_div_cancel_left _ hw, ← hc, Nat.le_div_iff_mul_le hw, hq, Nat.mul_assoc,
        Nat.mul_comm q]
      exact Nat.le_add_right _ _
  rw [requestTable_of_two_le h2, chainTable_of_two_le h2, h.walkEntry htwo _ hfirst]

section Table

variable {d : VdfDrive} {rs : List FileRange}

/-- The ranges are the chains of the FAT. On FAT12 the upper bits of an even entry survive the odd
one that follows it in a chain, and no request begins within the chains. -/
structure Chained (d : VdfDrive) (rs : List FileRange) : Prop where
  ranged : Ranged d rs
  chain : Chain FileRange.fatstart FileRange.fatend 2 rs d.dataClusterEnd
  nonempty : ∀ r ∈ rs, r.fatstart < r.fatend
  file : ∀ r ∈ rs, r.file ∈ d.allFiles ∧ (d.file r.file).size ≠ 0 ∧
    (d.file r.file).start = r.fatstart ∧ (d.file r.file).end_ = r.fatend
  laid : ∀ f ∈ d.allFiles, (d.file f).size ≠ 0 → ∃ r ∈ rs, r.file = f
  halves : d.filesys = .fat12 → ∀ r ∈ rs, ∀ c, c % 2 = 1 → r.fatstart ≤ c → c + 1 < r.fatend →
    r.fatstart < c ∧ c < 256
  room : d.filesys = .fat12 → 3 * d.dataClusterEnd ≤ 2 * d.bps ∧
    (1 < d.fatSectors → 3 * d.dataClusterEnd ≤ d.bps)

theorem Chained.placed (h : Chained d rs) : FatPlaced d [] rs where
  skipped _ _ hr := absurd hr List.not_mem_nil
  chain := h.chain
  nonempty := h.nonempty

/-- A request that keeps to the array is a slice of the table. -/
theorem Chained.readSectorFat_wide (h : Chained d rs) (hk : d.toGeometry.Known)
    (hf : d.filesys = .fat16 ∨ d.filesys = .fat32) {sector scnt : Nat} (hpos : 0 < scnt)
    (hle : sector + scnt ≤ d.fatSectors) (hstays : WideStays d.filesys.entryWidth d rs sector scnt)
    (m : Buffer) (p : Nat) : readSectorFat d sector scnt m p =
      .ok (m.overlay p (scnt * d.bps) fun j => some (entryByte d.filesys.entryWidth
        (chainTable d.filesys.mediaMark d.filesys.eocMark rs) (sector * d.bps + j))) :=
  h.placed.readSectorFat_wide hk h.ranged hf hpos hle hstays m p

/-- The files of the chains. -/
theorem Chained.complete (h : Chained d rs) : ∀ f ∈ d.allFiles, (d.file f).size ≠ 0 →
    (d.file f).start < (d.file f).end_ → ∃ r ∈ rs, r.file = f := fun f hf hs _ => h.laid f hf hs

/-- A request from the start of a FAT12 table has an element of the array for each file. -/
theorem Chained.count (h : Chained d rs) (hf : d.filesys = .fat12) (hne : rs ≠ []) {scnt : Nat}
    (hpos : 0 < scnt) (hstays : Fat12Stays d rs 0 scnt) : d.fileCnt = rs.length := by
  cases rs with
  | nil => exact absurd rfl hne
  | cons r rest =>
    obtain ⟨h1, -, -⟩ := h.chain
    have hr := h.nonempty r (List.mem_cons_self ..)
    have hroom := (h.room hf).1
    have hle := Nat.le_mul_of_pos_left d.bps hpos
    obtain ⟨hends, hfin⟩ := walk_of_chain h.chain h.nonempty
    have hend := (h.chain.mem (List.mem_cons_self ..)).2.2
    have hfirst : firstEntry12 d.bps 0 = 2 ∧ firstByte12 0 = 3 ∧ firstOdd12 d.bps 0 = false :=
      ⟨rfl, rfl, rfl⟩
    have hcons : rangesFrom (r :: rest) 2 = r :: rest := by
      rw [rangesFrom, List.dropWhile_cons_of_neg (by simp; omega)]
    simp only [Fat12Stays, hfirst.1, hfirst.2.1, hfirst.2.2, hcons, reduceCtorEq,
      ↓reduceIte] at hstays
    have hfit := hstays.resolve_left (by omega)
    rw [hfin] at hfit
    -- The last entry of all lies in the request.
    have hlast := (hfit (d.dataClusterEnd - 3)).last (by omega)
    rw [entryOffset, Bool.toNat_false] at hlast
    exact (hlast.resolve_left (by omega)).1

/-- On FAT12 a request that the loop ends in time is a slice of the table. -/
theorem Chained.readSectorFat_packed (h : Chained d rs) (hk : d.toGeometry.Known)
    (hf : d.filesys = .fat12) {sector scnt : Nat} (hpos : 0 < scnt)
    (hle : sector + scnt ≤ d.fatSectors) (hstays : Fat12Stays d rs sector scnt) (m : Buffer)
    (p : Nat) : readSectorFat d sector scnt m p = .ok (m.overlay p (scnt * d.bps) fun j =>
      some (packedByte (chainTable 0xff8 0xfff rs) (sector * d.bps + j))) := by
  have hstart : ∀ r ∈ rs, (d.file r.file).start = r.fatstart := fun r hr => (h.file r hr).2.2.1
  by_cases hcnt : rs = [] ∨ d.fileCnt = rs.length
  · have hchained : Fat12Chained d [] rs :=
      { ranges := h.ranged.ranges, skipped := fun _ => nofun, chain := h.chain
        nonempty := h.nonempty, complete := h.complete, count := hcnt, halves := h.halves hf
        room := h.room hf }
    obtain ⟨t, ht, hserve⟩ := hchained.served hk hf (show Ranged d ([] ++ rs) from h.ranged) hstart
    obtain rfl : t = chainTable 0xff8 0xfff rs :=
      funext (ht.eq_chainTable h.chain h.nonempty h.file)
    exact hserve sector scnt hpos hle m p
  · rw [not_or] at hcnt
    -- The request starts behind the chains.
    have hs : sector ≠ 0 := by
      rintro rfl
      exact hcnt.2 (h.count hf hcnt.1 hpos hstays)
    have hroom := (h.room hf).2 (by omega)
    have hmul := Nat.le_mul_of_pos_left d.bps (Nat.pos_of_ne_zero hs)
    have hend : 2 ≤ d.dataClusterEnd := h.chain.le
    have hlt : (sector + scnt) * d.bps < 2 ^ 31 :=
      Nat.lt_of_le_of_lt (Nat.mul_le_mul_right _ hle) hk.fatBytes
    have hbps := (sectorSizes_le hk.bps).1
    have hcomm : sector * 2 * d.bps = 2 * (sector * d.bps) := by ring
    have hfirst : d.dataClusterEnd ≤ firstEntry12 d.bps sector ∧
        3 * firstEntry12 d.bps sector ≤ 2 * (sector * d.bps) := by
      rw [firstEntry12, if_neg hs, hcomm]
      omega
    rw [Vdf.readSectorFat_packed hf]
    refine readSectorFat12_free hlt (by omega) hpos (fun h0 => absurd h0 hs) ?_ (fun x hx => ?_)
      (.inr hfirst.2)
    · rw [findFileFatEntry, if_pos hfirst.1]
    · rw [chainTable_of_two_le (by omega), walkEntry_free h.chain h.nonempty (by omega)]

/-- A request that keeps to the FAT is a slice of it. -/
theorem Chained.readSectorFat_image (h : Chained d rs) (hk : d.toGeometry.Known) {sector scnt : Nat}
    (hpos : 0 < scnt) (hle : sector + scnt ≤ d.fatSectors) (hstays : FatStays d rs sector scnt)
    (m : Buffer) (p : Nat) : readSectorFat d sector scnt m p =
      .ok (m.overlay p (scnt * d.bps) fun j => some (fatByte d (sector * d.bps + j))) := by
  have hrs : d.ranges.getD [] = rs := by rw [h.ranged.ranges]; rfl
  cases hf : d.filesys with
  | unset => exact absurd hf hk.filesys
  | fat12 =>
    rw [FatStays, if_pos hf] at hstays
    rw [h.readSectorFat_packed hk hf hpos hle hstays]
    simp only [fatByte, driveTable, hf, hrs]
  | fat16 =>
    rw [FatStays, if_neg (by simp [hf])] at hstays
    rw [h.readSectorFat_wide hk (.inl hf) hpos hle hstays]
    simp only [fatByte, driveTable, hf, hrs]
  | fat32 =>
    rw [FatStays, if_neg (by simp [hf])] at hstays
    rw [h.readSectorFat_wide hk (.inr hf) hpos hle hstays]
    simp only [fatByte, driveTable, hf, hrs]

end Table

/-! ## The drives that have an image -/

/-- A laid-out drive: its ranges are chains of clusters and of sectors, its files fit them, and its
directories are served. -/
structure Imaged (d : VdfDrive) (rs : List FileRange) : Prop extends Chained d rs where
  created : d.toGeometry.Created
  known : d.toGeometry.Known
  valid : d.isValid = true
  layout : DataLayout d rs
  place : ∀ r ∈ rs, d.dataStart + (r.fatstart - 2) * d.spc = r.sectstart ∧
    d.dataStart + (r.fatend - 2) * d.spc = r.sectend
  offsets : ∀ sector, OffsetFits d rs sector
  inside : d.dataEnd ≤ d.sectors
  root : d.filesys ≠ .fat32 → DirServed d d.rootDir ∧ dirSectors d d.rootDir = d.rootSectors
  dirs : ∀ r ∈ rs, (d.file r.file).isDir = true →
    DirServed d r.file ∧ dirSectors d r.file = r.sectend - r.sectstart

section Served

variable {d : VdfDrive} {rs : List FileRange} {env : Readers} {content : FileId → List UInt8}
  {s n : Nat}

theorem Readers.Steady.read (hE : env.Steady content) (d : VdfDrive) (f : FileId) (off len : Nat) :
    env.read d f off len = some (((content f).drop off).take len) := by
  unfold Readers.read
  split
  · exact hE.cback f off len
  · exact hE.pread f off len

theorem Readers.Steady.bounded (hE : env.Steady content) : env.Bounded := by
  constructor
  · intro f off len l hl
    obtain rfl := Option.some.inj ((hE.cback f off len).symm.trans hl)
    exact List.length_take_le _ _
  · intro f off len l hl
    obtain rfl := Option.some.inj ((hE.pread f off len).symm.trans hl)
    exact List.length_take_le _ _

/-- Byte `j` behind `o` sectors of a directory. -/
theorem slotByte_add (hk : d.toGeometry.Known) (dir : FileId) (o j : Nat) :
    slotByte d dir (o * d.bps + j) =
      (slotAt d dir (o * d.direntPerSector + j / 32)).byte (j % 32) := by
  have hmul : o * d.bps = o * d.direntPerSector * 32 := by
    rw [← hk.bps_eq]
    ring
  obtain ⟨hdiv, hmod⟩ := sector_byte (o * d.direntPerSector) (by decide : 0 < 32) j
  rw [slotByte, hmul, hdiv, hmod]

/-- The sectors in front of the file system. -/
theorem mbrAreas_served (hb : 512 ≤ d.bps) : AreasServed d s n 0 (mbrGens d) (mbrAreas d) := by
  refine ⟨_, _, rfl, ⟨rfl, fun hlt m p => ?_⟩, _, _, rfl, ⟨rfl, fun _ m p => ?_⟩, rfl⟩
  · have hlt : max s 0 < min (s + n) (min 1 d.mbrSectors) := hlt
    have hone : min (s + n) (min 1 d.mbrSectors) - max s 0 = 1 ∧ max s 0 - 0 = 0 := by omega
    dsimp only
    rw [hone.1, hone.2, Nat.one_mul, Nat.zero_mul, readSectorMbr,
      store_eq_overlay m p ((mbrRecord_within d).mono hb)]
    simp only [Nat.zero_add]
  · dsimp only
    rw [fill_eq_overlay, Nat.mul_comm]

/-- The reserved sectors, the FATs and the root directory. -/
theorem Imaged.systemAreas_served (h : Imaged d rs) (hfats : FatsStay d rs s n) :
    AreasServed d s n d.mbrSectors (systemGens d) (systemAreas d) := by
  have hk := h.known
  have hb := sectorSizes_le hk.bps
  have h2 := hk.fat2
  have h3 := hk.rootStart
  have h4 := hk.dataStart
  have hend := fatEnd_eq hk
  refine ⟨_, _, rfl, ⟨rfl, fun _ m p => ?_⟩, _, _, rfl, ⟨rfl, fun hlt m p => ?_⟩, _, _, rfl,
    ⟨rfl, fun hlt m p => ?_⟩, _, _, rfl, ⟨rfl, fun hlt m p => ?_⟩, rfl⟩
  · dsimp only
    rw [readSectorBoot_image hk.filesys hb.1, Nat.add_sub_cancel_left]
    refine congrArg some (overlay_congr fun j _ => ?_)
    obtain ⟨hdiv, hmod⟩ := sector_byte (max s d.mbrSectors - d.mbrSectors) (by omega : 0 < d.bps) j
    rw [hdiv, hmod]
  · have hlt : max s (d.mbrSectors + d.fat1Start) < min (s + n) (d.mbrSectors + d.fat2Start) := hlt
    dsimp only
    rw [Nat.add_sub_cancel_left,
      h.readSectorFat_image hk (Nat.sub_pos_of_lt hlt) (by omega) (hfats.1 hlt)]
    rfl
  · have hlt : max s (d.mbrSectors + d.fat2Start) < min (s + n) (d.mbrSectors + fatEnd d) := hlt
    dsimp only
    rw [Nat.add_sub_cancel_left,
      h.readSectorFat_image hk (Nat.sub_pos_of_lt hlt) (by omega) (hfats.2 hlt)]
    rfl
  · have hlt : max s (d.mbrSectors + fatEnd d) < min (s + n) (d.mbrSectors + d.dataStart) := hlt
    have hne : d.filesys ≠ .fat32 := fun hf => by
      have := hk.root32 hf
      omega
    obtain ⟨hserved, hsectors⟩ := h.root hne
    dsimp only
    rw [Nat.add_sub_cancel_left,
      hserved.run _ _ (Nat.sub_pos_of_lt hlt) (by omega)]
    exact congrArg some (overlay_congr fun j _ => (slotByte_add hk _ _ j).symm)

/-- A run of the sectors of a file. -/
theorem Imaged.fileGen_image (h : Imaged d rs) (hE : env.Steady content) {r : FileRange}
    (hr : r ∈ rs) {o want : Nat} (hpos : 0 < want) (hle : o + want ≤ r.sectend - r.sectstart)
    (m : Buffer) (p : Nat) : (fileGen env d r).gen (d.mbrSectors + r.sectstart + o) want m p =
      some (m.overlay p (want * d.bps) fun j => (fileArea d content r).byte (o * d.bps + j)) := by
  have hk := h.known
  have hb := sectorSizes_le hk.bps
  have hmul := hk.bps_eq
  simp only [fileGen, fileArea, Nat.add_sub_cancel_left]
  by_cases hd : (d.file r.file).isDir = true
  · obtain ⟨hserved, hsectors⟩ := h.dirs r hr hd
    have hrun := hserved.run o want hpos (by omega) m p
    have hsize := h.layout.dirs r hr hd
    have hreq : DirRequest d o want := by
      have h1 : (o + want) * d.bps ≤ (r.sectend - r.sectstart) * d.bps :=
        Nat.mul_le_mul_right _ hle
      have h2 : o * d.bps = 32 * (o * d.direntPerSector) := by rw [← hmul]; ring
      have h3 : want * d.bps = 32 * (want * d.direntPerSector) := by rw [← hmul]; ring
      rw [Nat.add_mul] at h1
      exact ⟨hpos, by omega, by omega, by rw [← hk.dirent]; omega⟩
    rw [readSectorDir_eq hreq, Except.ok.injEq] at hrun
    simp only [hd, ↓reduceIte, hrun, slotByte_add hk]
  · have hd : (d.file r.file).isDir = false := by simpa using hd
    have hlt := h.layout.lt r hr
    have hoff := h.offsets (r.sectstart + o) r hr hd (Nat.le_add_right _ _) (by omega)
    rw [Nat.add_sub_cancel_left] at hoff
    simp only [hd, Bool.false_eq_true, ↓reduceIte, hE.read]
    by_cases hz : (d.file r.file).size ≤ u32 (o * d.bps)
    · -- Nothing of the file is left.
      have hle' := u32_le (o * d.bps)
      rw [if_pos hz, fill_eq_overlay]
      refine congrArg some (overlay_congr fun j _ => ?_)
      rw [contentByte, if_neg (by omega)]
    · have hu : u32 (o * d.bps) = o * d.bps := u32_of_lt (hoff.resolve_right hz)
      rw [hu] at hz
      rw [hu, if_neg hz, Option.map_some]
      generalize hl : ((content r.file).drop (o * d.bps)).take
        (min ((d.file r.file).size - o * d.bps) (want * d.bps)) = l
      have hlen : l.length = min (min ((d.file r.file).size - o * d.bps) (want * d.bps))
          ((content r.file).length - o * d.bps) := by
        rw [← hl, List.length_take, List.length_drop]
      rw [copy_zeros_eq_overlay m p (by omega)]
      refine congrArg some (overlay_congr fun j hj => ?_)
      rw [contentByte, ← hl]
      simp only [List.getD_eq_getElem?_getD, List.getElem?_take, List.getElem?_drop]
      split
      · rw [if_pos (by omega)]
      · rw [if_neg (by omega)]
        rfl

/-- The data area. -/
theorem Imaged.dataAreas_served (h : Imaged d rs) (hE : env.Steady content) :
    AreasServed d s n (d.mbrSectors + d.dataStart) (dataGens env d rs) (dataAreas d content) := by
  have hrs : d.ranges.getD [] = rs := by rw [h.ranged.ranges]; rfl
  have hfiles (l : List FileRange) (hl : ∀ r ∈ l, r ∈ rs) (lo hi : Nat)
      (hchain : Chain FileRange.sectstart FileRange.sectend lo l hi) :
      AreasServed d s n (d.mbrSectors + lo) (l.map (fileGen env d)) (l.map (fileArea d content)) ∧
      (((l.map (fileGen env d)).getLast?.map SectorGen.hi).getD (d.mbrSectors + lo)) =
        d.mbrSectors + hi := by
    induction l generalizing lo with
    | nil => exact ⟨rfl, congrArg (d.mbrSectors + ·) hchain⟩
    | cons r l ih =>
      obtain ⟨rfl, -, hchain⟩ := hchain
      obtain ⟨ih1, ih2⟩ := ih (fun x hx => hl x (List.mem_cons_of_mem _ hx)) _ hchain
      refine ⟨⟨_, _, rfl, ⟨rfl, fun hlt m p => ?_⟩, ih1⟩, ?_⟩
      · have hlt : max s (d.mbrSectors + r.sectstart) < min (s + n) (d.mbrSectors + r.sectend) :=
          hlt
        exact h.fileGen_image hE (hl r (List.mem_cons_self ..)) (Nat.sub_pos_of_lt hlt)
          (show _ + (min (s + n) (d.mbrSectors + r.sectend) - _) ≤ _ by omega) m p
      · rw [← ih2]
        cases l <;> rfl
  obtain ⟨h1, h2⟩ := hfiles rs (fun _ hr => hr) _ _ h.layout.chain
  rw [dataGens, dataAreas, hrs]
  refine areasServed_append h1 h2 ⟨_, _, rfl, ⟨rfl, fun _ m p => ?_⟩, rfl⟩
  exact congrArg some (fill_eq_overlay _ _ _ _)

/-- The regions of a request serve a slice of the image. -/
theorem Imaged.serve (h : Imaged d rs) (hE : env.Steady content) (hfats : FatsStay d rs s n)
    (hin : s + n ≤ d.allSectors) (m : Buffer) (p : Nat) :
    Regions.serve 0 (driveRegions env d rs s p) s n m =
      some (m.overlay p (n * d.bps) fun j => driveImage d content (s * d.bps + j)) := by
  have hk := h.known
  have hord := @driveRegions_ordered env d rs hk (.inr h.layout.placed) s p
  have hserved : AreasServed d s n 0 (mbrGens d ++ (systemGens d ++ dataGens env d rs))
      (mbrAreas d ++ (systemAreas d ++ dataAreas d content)) :=
    areasServed_append (mbrAreas_served (sectorSizes_le hk.bps).1) rfl
      (areasServed_append (h.systemAreas_served hfats) rfl (h.dataAreas_served hE))
  have hview := areasServed_views (p := p) hserved (fun _ _ => rfl) hord
  have hfin : s + n ≤ Regions.fin 0 (driveRegions env d rs s p) :=
    Nat.le_trans hin (driveRegions_fin env d rs s p)
  have hrun := Regions.serve_view (x := m) (fun u m => by rw [Nat.zero_mul, overlay_zero])
    (fun u a b m hu => ?_) hord hview hfin
  · rw [Nat.max_zero, Nat.sub_self, Nat.zero_mul, Nat.add_zero, Nat.add_sub_cancel_left] at hrun
    exact hrun
  · -- The parts of a run are adjacent slices.
    have hptr : p + (u + a - s) * d.bps = p + (u - s) * d.bps + a * d.bps := by
      rw [Nat.add_assoc, ← Nat.add_mul]
      congr 2
      omega
    rw [Nat.add_mul a, ← overlay_slice, hptr, Nat.add_mul]

/-- A request in the drive is served as a slice of the image. -/
theorem Imaged.reads (h : Imaged d rs) (hE : env.Steady content) (hs : s < 2 ^ 32) (hn : n < 2 ^ 31)
    (hin : s + n ≤ d.allSectors) (hfats : FatsStay d rs s n) (m : Buffer) (p : Nat) :
    ∃ calls, vdfReadSectors env d s n m p = .ok ((n : Int),
      m.overlay p (n * d.bps) (fun j => driveImage d content (s * d.bps + j)), calls) := by
  rcases Nat.eq_zero_or_pos n with rfl | hpos
  · refine ⟨[], ?_⟩
    rw [vdfReadSectors, h.valid, if_neg (by simp), if_pos rfl, Nat.zero_mul, overlay_zero]
    rfl
  · have hfits : ReadFits d rs s n :=
      { start := by omega, int := by omega, data := .inl hin, fats := hfats
        files := fun _ => h.layout.filesStay (h.offsets _) _ }
    have hcounts := hfits.counts h.created h.known h.ranged h.valid hs (by omega) hpos
      fun _ => h.layout.placed
    obtain ⟨ret, m', calls, hrun, ⟨rfl, hok⟩ | ⟨-, c, -, hfail⟩, -⟩ := hcounts env hE.bounded m p
    · rw [(by omega : min n (d.allSectors - s) = n)] at hrun
      have hserve := vdfReadSectors_serve h.created h.known h.valid hE.bounded hs (by omega) hpos
        hin (.inr h.layout.placed) (fun _ => h.layout.filesStay (h.offsets _) _) hrun hok
      obtain rfl := Option.some.inj ((h.serve hE hfats hin m p).symm.trans hserve)
      exact ⟨calls, hrun⟩
    · rw [Readers.Fails, hE.read] at hfail
      cases hfail

end Served

/-! ## The result -/

/-- The drives with an image: the layout fits, every file has clusters that hold it and are within
4 GiB, the directories fit, and the FAT of FAT12 is one that its loop can write. -/
structure ImageFits (d : VdfDrive) : Prop extends LayoutFits d where
  nonempty : ∀ f ∈ laidFiles d, (numbered d f).clusters ≠ 0
  size : ∀ f ∈ laidFiles d, (numbered d f).isDir = false →
    (numbered d f).size ≤ (numbered d f).clusters * d.bpc ∧
      (numbered d f).clusters * d.bpc ≤ 2 ^ 32
  slots : ∀ dir, d.Below dir d.rootDir → (d.file dir).isDir = true → DirFits d dir
  halves : d.filesys = .fat12 → ∀ f ∈ laidFiles d, ∀ c, c % 2 = 1 → (rangeOf d f).fatstart ≤ c →
    c + 1 < (rangeOf d f).fatend → (rangeOf d f).fatstart < c ∧ c < 256
  room : d.filesys = .fat12 → 3 * (2 + totalUsed d) ≤ 2 * d.bps ∧
    (1 < d.fatSectors → 3 * (2 + totalUsed d) ≤ d.bps)

section Recalc

variable {d : VdfDrive} (hg : d.toGeometry.Created) (hf : d.filesys ≠ .unset) (ht : d.IsTree)
  (hr : d.InRange) (hcnt : d.allFiles.length ≤ d.fileCnt) (hfits : ImageFits d)
  {rs : List FileRange} (hq : Qsort.Result cmpFilerange (unsortedRanges d) rs)

include hg hf ht hr hcnt hfits hq

theorem ImageFits.chained : Chained (recalcDrive d rs) rs := by
  have hk := hg.known hf
  obtain ⟨hchain, hlive, -, hexact⟩ :=
    hfits.liveChain ht hr (clusterSectors_le hk.spc).1 hfits.nonempty hq
  have hperm := hq.perm
  rw [unsortedRanges_laid hfits.dirs] at hperm
  have hend : (recalcDrive d rs).dataClusterEnd = 2 + totalUsed d := u32_of_lt hfits.clusters.2
  refine
    { ranged := .of_result hr hcnt hq, chain := hchain, nonempty := hlive, file := fun r hm => ?_
      laid := fun f hm hs => ?_, halves := fun h12 r hm => ?_, room := fun h12 => ?_ }
  · obtain ⟨f, hfm, rfl⟩ := hexact r hm
    exact ⟨(mem_laidFiles.mp hfm).1, recalcFile_laid hfm⟩
  · have hm : f ∈ d.allFiles := hm
    have hs : (recalcFile d f).size ≠ 0 := hs
    rw [recalcFile_mem hm, (laidOut_static _ _ _).1] at hs
    exact ⟨_, hperm.mem_iff.mpr (List.mem_map_of_mem (mem_laidFiles.mpr ⟨hm, hs⟩)), rfl⟩
  · obtain ⟨f, hfm, rfl⟩ := hexact r hm
    exact hfits.halves h12 f hfm
  · rw [hend]
    exact hfits.room h12

omit hcnt in
/-- The sectors of a range are those of its clusters. -/
theorem ImageFits.place {r : FileRange} (hm : r ∈ rs) :
    d.dataStart + (r.fatstart - 2) * d.spc = r.sectstart ∧
      d.dataStart + (r.fatend - 2) * d.spc = r.sectend := by
  obtain ⟨-, -, -, hexact⟩ := hfits.liveChain ht hr (clusterSectors_le (hg.known hf).spc).1
    hfits.nonempty hq
  obtain ⟨f, hfm, rfl⟩ := hexact r hm
  obtain ⟨h1, h2, h3, h4⟩ := hfits.toSumsFit.range_eq ht hr hfm
  rw [h1, h2, h3, h4, Nat.add_sub_cancel_left, Nat.add_sub_cancel_left]
  exact ⟨rfl, rfl⟩

/-- A recalculated drive whose layout fits has an image. -/
theorem ImageFits.imaged (hcan : CanRecalc d) : Imaged (recalcDrive d rs) rs := by
  have hk := hg.known hf
  have hL := hfits.dataLayout hk ht hr hcnt (fun f hm hd => (hfits.size f hm hd).1) hq
  have hchained := hfits.chained hg hf ht hr hcnt hq
  have hfile : ∀ r ∈ rs, ∃ f ∈ laidFiles d, r = rangeOf d f :=
    (hfits.liveChain ht hr (clusterSectors_le hk.spc).1 hfits.nonempty hq).2.2.2
  -- A directory with a range is no root of FAT12 and FAT16.
  have hbelow : ∀ r ∈ rs, ((recalcDrive d rs).file r.file).isDir = true →
      d.Below r.file d.rootDir ∧ (d.file r.file).isDir = true ∧
        ¬ (((recalcDrive d rs).file r.file).parent = none ∧
          (recalcDrive d rs).filesys ≠ .fat32) := by
    intro r hm hd
    have hmem : r.file ∈ d.allFiles := (hchained.file r hm).1
    obtain ⟨hb, hroot⟩ := (ht.mem_allFiles r.file).mp hmem
    have hd : (recalcFile d r.file).isDir = true := hd
    rw [recalcFile_mem hmem, (laidOut_static _ _ _).2.2, (numbered_static _ _).1] at hd
    refine ⟨hb, hd, fun hpar => hpar.2 (hroot ?_)⟩
    rw [(recalc_dir ht rs hb hd).1] at hpar
    rcases Relation.ReflTransGen.cases_head hb with h | ⟨p, hp, -⟩
    · exact h
    · exact nomatch hpar.1.symm.trans hp
  refine
    { toChained := hchained, created := hg, known := hk, valid := hcan.valid, layout := hL
      place := fun r => hfits.place hg hf ht hr hq, inside := ?_
      offsets := hfits.offsetFits hk ht hr hcnt (fun f hm hd => (hfits.size f hm hd).2) hq
      root := fun h32 => ⟨?_, ?_⟩, dirs := fun r hm hd => ⟨?_, ?_⟩ }
  · exact Nat.le_trans (u32_le _) hfits.sectors
  · exact (hfits.slots _ (.refl _) ht.root_isDir).served ht hk rs (.refl _) ht.root_isDir
  · have hroot : (d.file d.rootDir).parent = none := ht.root_parent
    rw [show (recalcDrive d rs).rootDir = d.rootDir from rfl,
      recalc_dirSectors ht rs (.refl _) ht.root_isDir, if_pos ⟨hroot, h32⟩]
    rfl
  · obtain ⟨hb, hdir, -⟩ := hbelow r hm hd
    exact (hfits.slots _ hb hdir).served ht hk rs hb hdir
  · rw [dirSectors, if_neg (hbelow r hm hd).2.2]
    obtain ⟨f, hfm, rfl⟩ := hfile r hm
    obtain ⟨h1, h2, -, -⟩ := hfits.toSumsFit.range_eq ht hr hfm
    rw [h1, h2, Nat.add_mul, ← Nat.add_assoc, Nat.add_sub_cancel_left]
    show (recalcFile d f).clusters * d.spc = _
    rw [recalcFile_mem (mem_laidFiles.mp hfm).1, (laidOut_static _ _ _).2.1]

end Recalc

/-- On every recalculated drive whose layout fits, a request in the drive that keeps to the FATs
reads the bytes of one image, whichever part of it is asked for. -/
theorem vdfReadSectors_image (d d' : VdfDrive) (hg : d.toGeometry.Created) (hf : d.filesys ≠ .unset)
    (ht : d.IsTree) (hr : d.InRange) (hcnt : d.allFiles.length ≤ d.fileCnt) (hfits : ImageFits d)
    (h : Recalc d d') {env : Readers} {content : FileId → List UInt8} (hE : env.Steady content)
    (s n : Nat) (hs : s < 2 ^ 32) (hn : n < 2 ^ 31) (hin : s + n ≤ d'.allSectors)
    (hfats : FatsStay d' (d'.ranges.getD []) s n) (m : Buffer) (p : Nat) :
    ∃ calls, vdfReadSectors env d' s n m p = .ok ((n : Int),
      m.overlay p (n * d'.bps) (fun j => driveImage d' content (s * d'.bps + j)), calls) := by
  obtain ⟨hcan, rs, hq, rfl⟩ := (recalc_iff ht hr.dataStart).mp h
  exact (hfits.imaged hg hf ht hr hcnt hq hcan).reads hE hs hn hin hfats m p

/-- Readers that have the contents. -/
def contentReaders (content : FileId → List UInt8) : Readers where
  cback f off len := some (((content f).drop off).take len)
  pread f off len := some (((content f).drop off).take len)

theorem contentReaders_steady (content : FileId → List UInt8) :
    (contentReaders content).Steady content := ⟨fun _ _ _ => rfl, fun _ _ _ => rfl⟩

theorem drive16_imageFits : ImageFits drive16 := by
  have hroot : DirFits drive16 0 := ⟨by decide, by decide⟩
  have hslots : ∀ dir, drive16.Below dir drive16.rootDir → (drive16.file dir).isDir = true →
      DirFits drive16 dir := by
    intro dir hb hd
    rcases Relation.ReflTransGen.cases_head hb with rfl | ⟨p, hc, -⟩
    · exact hroot
    · obtain ⟨-, hm⟩ := flatDrive_child.mp hc
      exact absurd hd ((by decide : ∀ x ∈ List.range' 1 2, ¬ (drive16.file x).isDir = true) dir hm)
  exact
    { toLayoutFits := drive16_fits, nonempty := by decide, size := by decide, slots := hslots
      halves := nofun, room := nofun }

/-- A request for more than one region of a drive with two files. -/
theorem vdfReadSectors_image_two : ∃ d', Recalc drive16 d' ∧ ∀ m p, ∃ calls,
    vdfReadSectors (contentReaders fun _ => [0x48, 0x69]) d' 30 1000 m p = .ok (1000,
      m.overlay p (1000 * 512) (fun j => driveImage d' (fun _ => [0x48, 0x69]) (30 * 512 + j)),
      calls) := by
  obtain ⟨rs, hq⟩ := Qsort.exists_result cmpFilerange (unsortedRanges drive16)
  have h := (recalc_iff drive16_isTree drive16_inRange.dataStart).mpr
    ⟨drive16_canRecalc, rs, hq, rfl⟩
  have hlen : rs.length = 2 := hq.perm.length_eq.trans (by decide)
  have hfat (sector scnt : Nat) : FatStays (recalcDrive drive16 rs) rs sector scnt :=
    .inr (.inl hlen.symm)
  exact ⟨_, h, vdfReadSectors_image drive16 _ geometry16_created (by decide) drive16_isTree
    drive16_inRange (by decide) drive16_imageFits h (contentReaders_steady _) 30 1000 (by decide)
    (by decide) (show 30 + 1000 ≤ 262217 by decide) ⟨fun _ => hfat _ _, fun _ => hfat _ _⟩⟩

end Vdf
