import Vdf.Data
import Vdf.DirSlots
import Vdf.Partition

/-!
# What `read_sector_data` writes

On a drive whose ranges follow each other, and whose files fit their clusters, a request writes
file after file: of a regular file the content that the reader gave, zeros behind it, and zeros
behind the last range (`dataByte`). One round of the loop serves one file (`dataStep_spec`).

The offset into a file is the product of two numbers below `2^32` in 32 bits. It is exact for every
file but the first one, and there unless the request starts `4 GiB` or more behind the start of a
file that has that many clusters (`OffsetFits`).
-/

namespace Vdf

open Word Buffer

/-! ## Specification -/

/-- The ranges `rs` follow each other through the data area, and the files fit their sectors. -/
structure DataLayout (d : VdfDrive) (rs : List FileRange) : Prop where
  ranges : d.ranges = some rs
  chain : Chain FileRange.sectstart FileRange.sectend d.dataStart rs d.dataEnd
  start : ∀ r ∈ rs, (d.file r.file).startsect = r.sectstart
  end_ : ∀ r ∈ rs, (d.file r.file).endsect = r.sectend
  size : ∀ r ∈ rs, (d.file r.file).isDir = false →
    (d.file r.file).size ≤ (r.sectend - r.sectstart) * d.bps
  lt : ∀ r ∈ rs, (d.file r.file).size < 2 ^ 32
  dirs : ∀ r ∈ rs, (d.file r.file).isDir = true → (r.sectend - r.sectstart) * d.bps < 2 ^ 32
  count : rs.length ≤ d.fileCnt
  endLt : d.dataEnd < 2 ^ 32

/-- The ranges `rs` follow each other through the data area, whatever the sizes of the files are. -/
structure DataPlaced (d : VdfDrive) (rs : List FileRange) : Prop where
  ranges : d.ranges = some rs
  chain : Chain FileRange.sectstart FileRange.sectend d.dataStart rs d.dataEnd
  start : ∀ r ∈ rs, (d.file r.file).startsect = r.sectstart
  end_ : ∀ r ∈ rs, (d.file r.file).endsect = r.sectend
  lt : ∀ r ∈ rs, (d.file r.file).size < 2 ^ 32
  dirs : ∀ r ∈ rs, (d.file r.file).isDir = true → (r.sectend - r.sectstart) * d.bps < 2 ^ 32
  count : rs.length ≤ d.fileCnt
  endLt : d.dataEnd < 2 ^ 32

theorem DataLayout.placed {d : VdfDrive} {rs : List FileRange} (h : DataLayout d rs) :
    DataPlaced d rs :=
  ⟨h.ranges, h.chain, h.start, h.end_, h.lt, h.dirs, h.count, h.endLt⟩

theorem DataPlaced.layout {d : VdfDrive} {rs : List FileRange} (h : DataPlaced d rs)
    (hsize : ∀ r ∈ rs, (d.file r.file).isDir = false →
      (d.file r.file).size ≤ (r.sectend - r.sectstart) * d.bps) : DataLayout d rs :=
  ⟨h.ranges, h.chain, h.start, h.end_, hsize, h.lt, h.dirs, h.count, h.endLt⟩

/-- The readers answer with `got` bytes of the content, at most as many as they are asked for. -/
structure Readers.Reads (env : Readers) (content : FileId → Nat → UInt8)
    (got : FileId → Nat → Nat → Nat) : Prop where
  le : ∀ f off len, got f off len ≤ len
  cback : ∀ f off len, env.cback f off len =
    some ((List.range (got f off len)).map fun i => content f (off + i))
  pread : ∀ f off len, env.pread f off len =
    some ((List.range (got f off len)).map fun i => content f (off + i))

/-- Byte `j` of sector `s`, which belongs to the regular file `f`: the content, unless it lies
behind the file's size or behind a short read. The request `sector`, `scnt` reads the file from
sector `first` on. -/
def fileByte (d : VdfDrive) (content : FileId → Nat → UInt8) (got : FileId → Nat → Nat → Nat)
    (sector scnt : Nat) (f : FileId) (s j : Nat) : UInt8 :=
  let fil := d.file f
  let first := max sector fil.startsect
  let off := (first - fil.startsect) * d.bps
  let len := min (fil.size - off) ((sector + scnt - first) * d.bps)
  let o := (s - fil.startsect) * d.bps + j
  if o < off + got f off len ∧ o < fil.size then content f o else 0

/-- A request is served: nothing outside it changes, the sectors of regular files hold their
content, the sectors behind the last file are zero, and no byte behind a file's size is read. -/
structure DataServed (d : VdfDrive) (rs : List FileRange) (content : FileId → Nat → UInt8)
    (got : FileId → Nat → Nat → Nat) (sector scnt : Nat) (m : Buffer) (p : Nat) (m' : Buffer)
    (calls : List ReadCall) : Prop where
  outside : ∀ x, x < p ∨ p + scnt * d.bps ≤ x → m' x = m x
  regular : ∀ s j, sector ≤ s → s < sector + scnt → j < d.bps → ∀ r ∈ rs,
    (d.file r.file).isDir = false → r.sectstart ≤ s → s < r.sectend →
    m' (p + (s - sector) * d.bps + j) = fileByte d content got sector scnt r.file s j
  free : ∀ s j, sector ≤ s → s < sector + scnt → j < d.bps → d.dataEnd ≤ s →
    m' (p + (s - sector) * d.bps + j) = 0
  calls : ∀ c ∈ calls, c.off + c.len ≤ (d.file c.file).size

/-- In the regular file of `sector`, the offset of the sector fits 32 bits, or what is left of it
does not lie in the file. -/
def OffsetFits (d : VdfDrive) (rs : List FileRange) (sector : Nat) : Prop :=
  ∀ r ∈ rs, (d.file r.file).isDir = false → r.sectstart ≤ sector → sector < r.sectend →
    (sector - r.sectstart) * d.bps < 2 ^ 32 ∨
      (d.file r.file).size ≤ u32 ((sector - r.sectstart) * d.bps)

/-! ## The bytes of a request -/

/-- Byte `j` of sector `s` of the directory `f`. -/
def dirByte (d : VdfDrive) (sector scnt : Nat) (f : FileId) (s j : Nat) : Option UInt8 :=
  let fil := d.file f
  let first := max sector fil.startsect
  let last := min fil.endsect (sector + scnt)
  tableByte 32 (runRecords d f (first - fil.startsect) ((last - first) * d.direntPerSector))
    ((s - first) * d.bps + j)

/-- Byte `i` of a request. -/
def dataByte (d : VdfDrive) (rs : List FileRange) (content : FileId → Nat → UInt8)
    (got : FileId → Nat → Nat → Nat) (sector scnt i : Nat) : Option UInt8 :=
  let s := sector + i / d.bps
  let j := i % d.bps
  if d.dataEnd ≤ s then some 0
  else match rs.find? fun r => decide (s < r.sectend) with
    | some r =>
      if (d.file r.file).isDir then dirByte d sector scnt r.file s j
      else some (fileByte d content got sector scnt r.file s j)
    | none => some 0

section Placed

variable {d : VdfDrive} {rs : List FileRange} (hP : DataPlaced d rs)

include hP

/-- The ranges around the one that holds a sector. -/
theorem DataPlaced.split {s : Nat} {r : FileRange} (hr : r ∈ rs) (h1 : r.sectstart ≤ s)
    (h2 : s < r.sectend) : s < d.dataEnd ∧
      ∃ front rest, rs = front ++ r :: rest ∧ ∀ x ∈ front, x.sectend ≤ s := by
  have hb := hP.chain.mem hr
  obtain ⟨front, x, rest, hrs, hx1, hx2, hfront, -⟩ :=
    hP.chain.split (p := s) (by omega) (by omega)
  have hx : x ∈ rs := by rw [hrs]; simp
  obtain rfl := hP.chain.eq_of_mem hx hr hx1 hx2 h1 h2
  exact ⟨by omega, front, rest, hrs, hfront⟩

theorem DataPlaced.findFileSector {sector : Nat} {r : FileRange} (hr : r ∈ rs)
    (h1 : r.sectstart ≤ sector) (h2 : sector < r.sectend) :
    findFileSector d sector = .ok (some r.file) := by
  obtain ⟨hlt, front, rest, hrs, hfront⟩ := hP.split hr h1 h2
  have h := (findRangeLoop_spec hP.ranges FileRange.sectend sector [] rs rfl
    d.fileCnt (by simpa using hP.count)).1 front r rest hrs hfront h2
  rw [List.length_nil] at h
  rw [Vdf.findFileSector, if_neg (by omega), h]
  rfl

end Placed

section Layout

variable {d : VdfDrive} {rs : List FileRange} {content : FileId → Nat → UInt8}
  {got : FileId → Nat → Nat → Nat} (hL : DataLayout d rs)

include hL

theorem dataByte_of_mem {sector scnt i : Nat} {r : FileRange} (hr : r ∈ rs)
    (h1 : r.sectstart ≤ sector + i / d.bps) (h2 : sector + i / d.bps < r.sectend) :
    dataByte d rs content got sector scnt i =
      if (d.file r.file).isDir then
        dirByte d sector scnt r.file (sector + i / d.bps) (i % d.bps)
      else some (fileByte d content got sector scnt r.file (sector + i / d.bps) (i % d.bps)) := by
  obtain ⟨hlt, front, rest, hrs, hfront⟩ := hL.placed.split hr h1 h2
  have hfind : rs.find? (fun r => decide (sector + i / d.bps < r.sectend)) = some r := by
    refine List.find?_eq_some_iff_append.mpr ⟨decide_eq_true h2, front, rest, hrs, fun x hx => ?_⟩
    simpa using hfront x hx
  simp only [dataByte, if_neg (Nat.not_le.mpr hlt), hfind]

/-- At the start of the data area the offset into the first file is 0. -/
theorem DataLayout.offsetFits_start : OffsetFits d rs d.dataStart := by
  intro r hr _ _ _
  have := (hL.chain.mem hr).1
  rw [(by omega : d.dataStart - r.sectstart = 0), Nat.zero_mul]
  exact .inl (by decide)

/-- At the end of a range the offset into the next file is 0. -/
theorem DataLayout.offsetFits_next {r : FileRange} (hr : r ∈ rs) : OffsetFits d rs r.sectend := by
  intro x hx _ h1 h2
  have h3 : r.sectend ≤ x.sectstart := by
    rcases Chain.pairwise_either hL.chain.pairwise hr hx with rfl | e | e
    · omega
    · exact e
    · have := (hL.chain.mem hr).2.1
      omega
  rw [(by omega : r.sectend - x.sectstart = 0), Nat.zero_mul]
  exact .inl (by decide)

omit hL in
/-- No file reaches over `4 GiB` of sectors. -/
theorem DataLayout.offsetFits_of_le (h : ∀ r ∈ rs, (d.file r.file).isDir = false →
    (r.sectend - r.sectstart) * d.bps ≤ 2 ^ 32) (hbps : 0 < d.bps) (sector : Nat) :
    OffsetFits d rs sector := by
  intro r hr hd h1 h2
  have h3 : (sector - r.sectstart + 1) * d.bps ≤ (r.sectend - r.sectstart) * d.bps :=
    Nat.mul_le_mul_right _ (by omega)
  have h4 := h r hr hd
  rw [Nat.succ_mul] at h3
  exact .inl (by omega)

/-- Behind the sectors of a file the bytes are those of the request for the rest. -/
theorem dataByte_shift {sector scnt k i : Nat} {r : FileRange} (hr : r ∈ rs)
    (h1 : r.sectstart ≤ sector) (h2 : sector + k = r.sectend) (hk : k ≤ scnt) (hbps : 0 < d.bps)
    (hds : d.dataStart ≤ sector) :
    dataByte d rs content got (sector + k) (scnt - k) i =
      dataByte d rs content got sector scnt (k * d.bps + i) := by
  have hdiv : sector + (k * d.bps + i) / d.bps = sector + k + i / d.bps := by
    rw [Nat.add_comm (k * d.bps), Nat.add_mul_div_right _ _ hbps]
    omega
  have hmod : (k * d.bps + i) % d.bps = i % d.bps := by
    rw [Nat.add_comm, Nat.add_mul_mod_self_right]
  have hq := Nat.zero_le (i / d.bps)
  by_cases hend : d.dataEnd ≤ sector + k + i / d.bps
  · simp only [dataByte, hdiv, if_pos hend]
  · obtain ⟨x, hx, h3, h4⟩ := hL.chain.exists_mem (p := sector + k + i / d.bps) (by omega) (by omega)
    -- The range starts behind the first `k` sectors.
    have h5 : sector + k ≤ x.sectstart := by
      rcases Chain.pairwise_either hL.chain.pairwise hr hx with rfl | e | e
      · omega
      · omega
      · omega
    have hfirst : max (sector + k) (d.file x.file).startsect =
        max sector (d.file x.file).startsect := by
      rw [hL.start x hx]
      omega
    have hsum : sector + k + (scnt - k) = sector + scnt := by omega
    rw [dataByte_of_mem hL hx h3 h4, dataByte_of_mem hL hx (by omega) (by omega), hdiv, hmod]
    simp only [dirByte, fileByte, hfirst, hsum]

end Layout

/-! ## One round -/

/-- The slots of a sector fill it. -/
theorem direntPerSector_mul {d : VdfDrive} (hbps : d.bps ∈ sectorSizes)
    (hdps : d.direntPerSector = d.bps / 32) : 32 * d.direntPerSector = d.bps := by
  obtain ⟨k, h9, -, hk⟩ := sectorSizes_pow hbps
  have : 32 ∣ d.bps := by
    rw [hk]
    exact pow_dvd_pow 2 (by omega : 5 ≤ k)
  omega

section PlacedStep

variable {d : VdfDrive} {rs : List FileRange} (hP : DataPlaced d rs) {s : DataState}
  {r : FileRange} (hr : r ∈ rs) (h1 : r.sectstart ≤ s.sector) (h2 : s.sector < r.sectend)

include hP hr h1 h2

/-- What a round computes from the sectors of a file, without 32-bit arithmetic. -/
theorem DataPlaced.sectors (n : Nat) :
    subU32 s.sector (d.file r.file).startsect = s.sector - r.sectstart ∧
      subU32 (d.file r.file).endsect s.sector = r.sectend - s.sector ∧
      u32 (s.sector + min (r.sectend - s.sector) n) =
        s.sector + min (r.sectend - s.sector) n := by
  have hend := (hP.chain.mem hr).2.2
  have h32 := hP.endLt
  rw [hP.start r hr, hP.end_ r hr]
  exact ⟨subU32_of_le (by omega) h1, subU32_of_le (by omega) (by omega), u32_of_lt (by omega)⟩

/-- The sectors of a directory, by its records. -/
theorem DataPlaced.dataStep_dir (env : Readers) (hbps : d.bps ∈ sectorSizes)
    (hdps : d.direntPerSector = d.bps / 32) (hpos : 0 < s.scnt)
    (hd : (d.file r.file).isDir = true) :
    dataStep env d s = .ok (none, { s with
      sector := s.sector + min (r.sectend - s.sector) s.scnt
      scnt := s.scnt - min (r.sectend - s.sector) s.scnt
      buffer := s.buffer + min (r.sectend - s.sector) s.scnt * d.bps
      m := storeAll 32 s.m s.buffer (runRecords d r.file (s.sector - r.sectstart)
        (min (r.sectend - s.sector) s.scnt * d.direntPerSector)) }) := by
  have hb := (sectorSizes_le hbps).1
  have hmul := direntPerSector_mul hbps hdps
  have hsize := hP.dirs r hr hd
  obtain ⟨hoff, hwant, hsec⟩ := hP.sectors hr h1 h2 s.scnt
  generalize hk : min (r.sectend - s.sector) s.scnt = k at *
  have hreq : DirRequest d (s.sector - r.sectstart) k := by
    have e1 : k * d.bps ≤ (r.sectend - r.sectstart) * d.bps := Nat.mul_le_mul_right _ (by omega)
    have e2 : (s.sector - r.sectstart) * d.bps ≤ (r.sectend - r.sectstart) * d.bps :=
      Nat.mul_le_mul_right _ (by omega)
    have e3 : k * d.bps = 32 * (k * d.direntPerSector) := by rw [← hmul]; ring
    have e4 : (s.sector - r.sectstart) * d.bps = 32 * ((s.sector - r.sectstart) * d.direntPerSector) := by
      rw [← hmul]; ring
    exact ⟨by omega, by omega, by omega, by rw [← hdps]; omega⟩
  rw [dataStep, hP.findFileSector hr h1 h2]
  show dataFile env d r.file s = _
  simp only [dataFile, hoff, hwant, hk, hsec, hd, ↓reduceIte, readSectorDir_eq hreq]
  rfl

/-- The sectors of a regular file, by what the reader answers. -/
theorem DataPlaced.dataStep_file (env : Readers) (hd : (d.file r.file).isDir = false) :
    dataStep env d s =
      let off := u32 ((s.sector - r.sectstart) * d.bps)
      let k := min (r.sectend - s.sector) s.scnt
      let next := { s with sector := s.sector + k, scnt := s.scnt - k }
      if (d.file r.file).size ≤ off then
        .ok (none, { next with
          m := s.m.fill s.buffer (k * d.bps) 0, buffer := s.buffer + k * d.bps })
      else
        let want := min ((d.file r.file).size - off) (s.scnt * d.bps)
        let calls := s.calls ++ [⟨r.file, off, want⟩]
        match env.read d r.file off want with
        | none => .ok (some (-1), { s with calls })
        | some l =>
          let cnt := min l.length want
          .ok (none, { next with
            m := (s.m.copy s.buffer l).fill (s.buffer + cnt) (k * d.bps - cnt) 0, calls
            buffer := s.buffer + cnt + (k * d.bps - cnt) }) := by
  obtain ⟨hoff, hwant, hsec⟩ := hP.sectors hr h1 h2 s.scnt
  rw [dataStep, hP.findFileSector hr h1 h2]
  show dataFile env d r.file s = _
  simp only [dataFile, hoff, hwant, hsec, hd, Bool.false_eq_true, ↓reduceIte]
  rfl

end PlacedStep

section Step

variable {d : VdfDrive} {rs : List FileRange} {env : Readers} {content : FileId → Nat → UInt8}
  {got : FileId → Nat → Nat → Nat}

theorem Readers.Reads.read (hE : env.Reads content got) (d : VdfDrive) (f : FileId) (off len : Nat) :
    env.read d f off len = some ((List.range (got f off len)).map fun i => content f (off + i)) := by
  unfold Readers.read
  split
  · exact hE.cback f off len
  · exact hE.pread f off len

/-- Content in front of zeros. -/
theorem copy_fill_eq_overlay (m : Buffer) (b g n : Nat) (c : Nat → UInt8) (h : g ≤ n) :
    ((m.copy b ((List.range g).map c)).fill (b + g) (n - g) 0) =
      m.overlay b n fun j => some (if j < g then c j else 0) := by
  have hlen : ((List.range g).map c).length = g := by simp
  rw [copy_eq_overlay, hlen, fill_eq_overlay, overlay_overlay, Nat.add_sub_cancel' h]
  refine overlay_congr fun j _ => ?_
  rw [glue]
  split
  · rename_i hj
    simp [hj]
  · rfl

/-- A round of the loop may start: `OffsetFits` is its only condition on the sector. -/
structure DataReady (d : VdfDrive) (rs : List FileRange) (s : DataState) : Prop where
  pos : 0 < s.scnt
  start : d.dataStart ≤ s.sector
  lt : s.sector + s.scnt < 2 ^ 32
  fits : OffsetFits d rs s.sector

/-- A sector behind the last file. -/
theorem dataStep_free {s : DataState} (h : d.dataEnd ≤ s.sector) :
    dataStep env d s = .ok (some 0, { s with
      m := s.m.overlay s.buffer (s.scnt * d.bps) (dataByte d rs content got s.sector s.scnt) }) := by
  have e : (s.m.overlay s.buffer (s.scnt * d.bps) (dataByte d rs content got s.sector s.scnt)) =
      s.m.fill s.buffer (s.scnt * d.bps) 0 := by
    rw [fill_eq_overlay]
    refine overlay_congr fun j _ => ?_
    have := Nat.zero_le (j / d.bps)
    rw [dataByte, if_pos (by omega)]
  rw [dataStep, findFileSector, if_pos h, e]
  rfl

variable (hL : DataLayout d rs) (hbps : d.bps ∈ sectorSizes) (hdps : d.direntPerSector = d.bps / 32)
  {s : DataState} (hs : DataReady d rs s) {r : FileRange} (hr : r ∈ rs)
  (h1 : r.sectstart ≤ s.sector) (h2 : s.sector < r.sectend)

include hL hbps hdps hs hr h1 h2

/-- The sectors of a directory. -/
theorem dataStep_dir (hd : (d.file r.file).isDir = true) :
    dataStep env d s = .ok (none, { s with
      sector := s.sector + min (r.sectend - s.sector) s.scnt
      scnt := s.scnt - min (r.sectend - s.sector) s.scnt
      buffer := s.buffer + min (r.sectend - s.sector) s.scnt * d.bps
      m := s.m.overlay s.buffer (min (r.sectend - s.sector) s.scnt * d.bps)
        (dataByte d rs content got s.sector s.scnt) }) := by
  have hmul := direntPerSector_mul hbps hdps
  have hrun := hL.placed.dataStep_dir hr h1 h2 env hbps hdps hs.pos hd
  have hpos := hs.pos
  generalize hk : min (r.sectend - s.sector) s.scnt = k at *
  have hmem : storeAll 32 s.m s.buffer
      (runRecords d r.file (s.sector - r.sectstart) (k * d.direntPerSector)) =
      s.m.overlay s.buffer (k * d.bps) (dataByte d rs content got s.sector s.scnt) := by
    rw [storeAll_eq_overlay (by decide) _ _ runRecords_within, length_runRecords,
      (by rw [← hmul]; ring : 32 * (k * d.direntPerSector) = k * d.bps)]
    refine overlay_congr fun j hj => ?_
    have hlt : j / d.bps < k := Nat.div_lt_of_lt_mul (by rwa [Nat.mul_comm])
    have hnn := Nat.zero_le (j / d.bps)
    rw [dataByte_of_mem hL hr (by omega) (by omega), if_pos hd, dirByte, hL.start r hr, hL.end_ r hr]
    have e1 : max s.sector r.sectstart = s.sector := by omega
    have e2 : min r.sectend (s.sector + s.scnt) - s.sector = k := by omega
    have e3 : (s.sector + j / d.bps - s.sector) * d.bps + j % d.bps = j := by
      rw [Nat.add_sub_cancel_left, Nat.mul_comm]
      exact Nat.div_add_mod j d.bps
    simp only [e1, e2, e3]
  rw [hrun, hmem]

omit hdps in
/-- The sectors of a regular file. -/
theorem dataStep_file (hE : env.Reads content got) (hd : (d.file r.file).isDir = false) :
    ∃ calls : List ReadCall, (∀ c ∈ calls, c.off + c.len ≤ (d.file c.file).size) ∧
      dataStep env d s = .ok (none, { s with
        sector := s.sector + min (r.sectend - s.sector) s.scnt
        scnt := s.scnt - min (r.sectend - s.sector) s.scnt
        buffer := s.buffer + min (r.sectend - s.sector) s.scnt * d.bps
        m := s.m.overlay s.buffer (min (r.sectend - s.sector) s.scnt * d.bps)
          (dataByte d rs content got s.sector s.scnt)
        calls := s.calls ++ calls }) := by
  have hb := (sectorSizes_le hbps).1
  have hend := (hL.chain.mem hr).2.2
  have h32 := hL.endLt
  have hsize := hL.size r hr hd
  have hslt := hL.lt r hr
  have hrun := hL.placed.dataStep_file hr h1 h2 env hd
  have hfit := hs.fits r hr hd h1 h2
  obtain ⟨q, hq⟩ : ∃ q, q = s.sector - r.sectstart := ⟨_, rfl⟩
  rw [← hq] at hrun hfit
  have hsplit : (r.sectend - r.sectstart) * d.bps = q * d.bps + (r.sectend - s.sector) * d.bps := by
    rw [← Nat.add_mul]
    congr 1
    omega
  generalize hk : min (r.sectend - s.sector) s.scnt = k at *
  -- The bytes of the request in this file.
  have hbyte : ∀ j, j < k * d.bps → dataByte d rs content got s.sector s.scnt j =
      some (if j < got r.file (q * d.bps)
          (min ((d.file r.file).size - q * d.bps) (s.scnt * d.bps)) ∧
          q * d.bps + j < (d.file r.file).size
        then content r.file (q * d.bps + j) else 0) := by
    intro j hj
    have hlt : j / d.bps < k := Nat.div_lt_of_lt_mul (by rwa [Nat.mul_comm])
    have e1 : max s.sector r.sectstart = s.sector := by omega
    have e2 : (s.sector + j / d.bps - r.sectstart) * d.bps + j % d.bps = q * d.bps + j := by
      have e3 : s.sector + j / d.bps - r.sectstart = q + j / d.bps := by
        have := Nat.zero_le (j / d.bps)
        omega
      have e4 := Nat.div_add_mod j d.bps
      rw [e3, Nat.add_mul, Nat.mul_comm (j / d.bps)]
      omega
    rw [dataByte_of_mem hL hr (by have := Nat.zero_le (j / d.bps); omega) (by omega),
      if_neg (by simp [hd])]
    simp only [fileByte, hL.start r hr, e1, e2, ← hq, Nat.add_sub_cancel_left,
      Nat.add_lt_add_iff_left]
  rw [hrun]
  by_cases hz : (d.file r.file).size ≤ u32 (q * d.bps)
  · -- Behind the end of the file.
    have hge : (d.file r.file).size ≤ q * d.bps := Nat.le_trans hz (u32_le _)
    refine ⟨[], nofun, ?_⟩
    have hmem : s.m.fill s.buffer (k * d.bps) 0 =
        s.m.overlay s.buffer (k * d.bps) (dataByte d rs content got s.sector s.scnt) := by
      rw [fill_eq_overlay]
      refine overlay_congr fun j hj => ?_
      rw [hbyte j hj, if_neg (by omega)]
    simp only [hz, hmem, ↓reduceIte, List.append_nil]
  · have hlt : q * d.bps < 2 ^ 32 := by omega
    rw [u32_of_lt hlt] at hz
    obtain ⟨w, hw⟩ : ∃ w, w = min ((d.file r.file).size - q * d.bps) (s.scnt * d.bps) := ⟨_, rfl⟩
    have hg := hE.le r.file (q * d.bps) w
    refine ⟨[⟨r.file, q * d.bps, w⟩], fun c hc => ?_, ?_⟩
    · rw [List.mem_singleton.mp hc]
      show q * d.bps + w ≤ (d.file r.file).size
      omega
    · have hwk : w ≤ k * d.bps := by
        rw [← hk]
        rcases Nat.le_total (r.sectend - s.sector) s.scnt with h | h
        · rw [Nat.min_eq_left h]; omega
        · rw [Nat.min_eq_right h]; omega
      have hmem : ((s.m.copy s.buffer ((List.range (got r.file (q * d.bps) w)).map
            fun i => content r.file (q * d.bps + i))).fill (s.buffer + got r.file (q * d.bps) w)
            (k * d.bps - got r.file (q * d.bps) w) 0) =
          s.m.overlay s.buffer (k * d.bps) (dataByte d rs content got s.sector s.scnt) := by
        rw [copy_fill_eq_overlay _ _ _ _ _ (by omega)]
        refine overlay_congr fun j hj => ?_
        rw [hbyte j hj, ← hw]
        congr 1
        by_cases hj' : j < got r.file (q * d.bps) w
        · rw [if_pos hj', if_pos ⟨hj', by omega⟩]
        · rw [if_neg hj', if_neg fun h => hj' h.1]
      have hbuf : s.buffer + got r.file (q * d.bps) w + (k * d.bps - got r.file (q * d.bps) w) =
          s.buffer + k * d.bps := by omega
      have hcnt : min (got r.file (q * d.bps) w) w = got r.file (q * d.bps) w := by omega
      simp only [u32_of_lt hlt, if_neg hz, ← hw, hE.read d r.file (q * d.bps) w,
        List.length_map, List.length_range, hcnt, hbuf, hmem]

end Step

/-! ## The loop -/

section Loop

variable {d : VdfDrive} {rs : List FileRange} {env : Readers} {content : FileId → Nat → UInt8}
  {got : FileId → Nat → Nat → Nat} (hL : DataLayout d rs) (hbps : d.bps ∈ sectorSizes)
  (hdps : d.direntPerSector = d.bps / 32) (hE : env.Reads content got)

include hL hbps hdps hE

/-- One round serves the sectors of one file. -/
theorem dataStep_spec {s : DataState} (hs : DataReady d rs s) (hlt : s.sector < d.dataEnd) :
    ∃ r ∈ rs, r.sectstart ≤ s.sector ∧ s.sector < r.sectend ∧ ∃ calls : List ReadCall,
      (∀ c ∈ calls, c.off + c.len ≤ (d.file c.file).size) ∧
      dataStep env d s = .ok (none, { s with
        sector := s.sector + min (r.sectend - s.sector) s.scnt
        scnt := s.scnt - min (r.sectend - s.sector) s.scnt
        buffer := s.buffer + min (r.sectend - s.sector) s.scnt * d.bps
        m := s.m.overlay s.buffer (min (r.sectend - s.sector) s.scnt * d.bps)
          (dataByte d rs content got s.sector s.scnt)
        calls := s.calls ++ calls }) := by
  obtain ⟨r, hr, h1, h2⟩ := hL.chain.exists_mem hs.start hlt
  refine ⟨r, hr, h1, h2, ?_⟩
  by_cases hd : (d.file r.file).isDir = true
  · refine ⟨[], nofun, ?_⟩
    rw [List.append_nil]
    exact dataStep_dir hL hbps hdps hs hr h1 h2 hd
  · exact dataStep_file hL hbps hs hr h1 h2 hE (by simpa using hd)

/-- The loop writes the bytes of the request. -/
theorem dataLoop_spec (fuel : Nat) (s : DataState) (hstart : d.dataStart ≤ s.sector)
    (hlt : s.sector + s.scnt < 2 ^ 32) (hfits : s.scnt = 0 ∨ OffsetFits d rs s.sector)
    (hfuel : s.scnt ≤ fuel) :
    ∃ t, dataLoop env d fuel s = .ok (0, t) ∧
      t.m = s.m.overlay s.buffer (s.scnt * d.bps) (dataByte d rs content got s.sector s.scnt) ∧
      ∃ calls, t.calls = s.calls ++ calls ∧
        ∀ c ∈ calls, c.off + c.len ≤ (d.file c.file).size := by
  induction fuel generalizing s with
  | zero =>
    have h0 : s.scnt = 0 := by omega
    refine ⟨s, ?_, ?_, [], by simp, nofun⟩
    · rw [dataLoop, if_pos h0]
    · rw [h0, Nat.zero_mul, overlay_zero]
  | succ fuel ih =>
    by_cases h0 : s.scnt = 0
    · refine ⟨s, ?_, ?_, [], by simp, nofun⟩
      · rw [dataLoop, if_pos h0]
      · rw [h0, Nat.zero_mul, overlay_zero]
    by_cases hend : d.dataEnd ≤ s.sector
    · have hstep := @dataStep_free d rs env content got s hend
      refine ⟨{ s with
        m := s.m.overlay s.buffer (s.scnt * d.bps) (dataByte d rs content got s.sector s.scnt) },
        ?_, rfl, [], (List.append_nil _).symm, nofun⟩
      rw [dataLoop, if_neg h0, hstep]
      rfl
    · have hs : DataReady d rs s := ⟨by omega, hstart, hlt, hfits.resolve_left h0⟩
      obtain ⟨r, hr, h1, h2, calls, hcalls, hstep⟩ :=
        dataStep_spec hL hbps hdps hE hs (Nat.lt_of_not_le hend)
      obtain ⟨k, hk⟩ : ∃ k, k = min (r.sectend - s.sector) s.scnt := ⟨_, rfl⟩
      rw [← hk] at hstep
      -- The next round starts at the end of the range, or has nothing left to do.
      have hnext : s.scnt - k = 0 ∨ OffsetFits d rs (s.sector + k) := by
        rcases Nat.le_total (r.sectend - s.sector) s.scnt with h | h
        · exact .inr ((by omega : r.sectend = s.sector + k) ▸ hL.offsetFits_next hr)
        · exact .inl (by omega)
      obtain ⟨t, hrun, hm, calls', hc, hcalls'⟩ := ih
        { s with
          sector := s.sector + k, scnt := s.scnt - k, buffer := s.buffer + k * d.bps
          m := s.m.overlay s.buffer (k * d.bps) (dataByte d rs content got s.sector s.scnt)
          calls := s.calls ++ calls }
        (by dsimp only; omega) (by dsimp only; omega) hnext (by dsimp only; omega)
      refine ⟨t, ?_, ?_, calls ++ calls', by rw [hc, List.append_assoc], fun c hm => ?_⟩
      · rw [dataLoop, if_neg h0, hstep]
        exact hrun
      · have hsum : k * d.bps + (s.scnt - k) * d.bps = s.scnt * d.bps := by
          rw [← Nat.add_mul]
          congr 1
          omega
        rw [hm, overlay_overlay, hsum]
        refine overlay_congr fun j hj => ?_
        rw [glue]
        split
        · rfl
        · rename_i hge
          have hkend : s.sector + k = r.sectend := by
            rcases Nat.le_total (r.sectend - s.sector) s.scnt with h | h
            · omega
            · have : k = s.scnt := by omega
              subst this
              omega
          rw [dataByte_shift hL hr h1 hkend (by omega) (by have := (sectorSizes_le hbps).1; omega)
            hstart]
          congr 1
          omega
      · rcases List.mem_append.mp hm with hm | hm
        · exact hcalls c hm
        · exact hcalls' c hm

/-- A request, with the sectors that it serves. -/
theorem readSectorData_spec {sector scnt : Nat} (hstart : d.dataStart ≤ sector)
    (hlt : sector + scnt < 2 ^ 32) (hfits : scnt = 0 ∨ OffsetFits d rs sector) (m : Buffer)
    (p : Nat) : ∃ calls, readSectorData env d sector scnt m p =
      .ok (0, m.overlay p (scnt * d.bps) (dataByte d rs content got sector scnt), calls) ∧
      ∀ c ∈ calls, c.off + c.len ≤ (d.file c.file).size := by
  obtain ⟨t, hrun, hm, calls, hc, hcalls⟩ := dataLoop_spec hL hbps hdps hE scnt
    { sector, scnt, buffer := p, m, calls := [] } hstart hlt hfits (Nat.le_refl _)
  refine ⟨calls, ?_, hcalls⟩
  rw [readSectorData, hrun]
  show Except.ok (0, t.m, t.calls) = _
  rw [hm, hc, List.nil_append]

/-- Every request in the data area is served where the offset fits. -/
theorem DataLayout.served {sector scnt : Nat} (hstart : d.dataStart ≤ sector)
    (hlt : sector + scnt < 2 ^ 32) (hfits : scnt = 0 ∨ OffsetFits d rs sector) (m : Buffer)
    (p : Nat) : ∃ m' calls, readSectorData env d sector scnt m p = .ok (0, m', calls) ∧
      DataServed d rs content got sector scnt m p m' calls := by
  obtain ⟨calls, hrun, hcalls⟩ := readSectorData_spec hL hbps hdps hE hstart hlt hfits m p
  have hb := (sectorSizes_le hbps).1
  -- Byte `j` of sector `s`, by its place in the request.
  have hbyte : ∀ s j, sector ≤ s → s < sector + scnt → j < d.bps →
      (s - sector) * d.bps + j < scnt * d.bps ∧
        sector + ((s - sector) * d.bps + j) / d.bps = s ∧
        ((s - sector) * d.bps + j) % d.bps = j := by
    intro s j h1 h2 hj
    have h3 : (s - sector + 1) * d.bps ≤ scnt * d.bps := Nat.mul_le_mul_right _ (by omega)
    rw [Nat.succ_mul] at h3
    refine ⟨by omega, ?_, ?_⟩
    · rw [Nat.add_comm _ j, Nat.add_mul_div_right _ _ (by omega), Nat.div_eq_of_lt hj]
      omega
    · rw [Nat.add_comm _ j, Nat.add_mul_mod_self_right, Nat.mod_eq_of_lt hj]
  refine ⟨_, calls, hrun, ?_⟩
  refine { outside := fun x => overlay_outside, regular := ?_, free := ?_, calls := hcalls }
  · intro s j h1 h2 hj r hr hd h3 h4
    obtain ⟨hi, e1, e2⟩ := hbyte s j h1 h2 hj
    rw [Nat.add_assoc, overlay_inside _ _ hi, dataByte_of_mem hL hr (by omega) (by omega), e1, e2,
      if_neg (by simp [hd])]
    rfl
  · intro s j h1 h2 hj h3
    obtain ⟨hi, e1, -⟩ := hbyte s j h1 h2 hj
    rw [Nat.add_assoc, overlay_inside _ _ hi, dataByte, if_pos (by omega)]
    rfl

end Loop

end Vdf
