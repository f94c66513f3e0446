import Vdf.Ranges

/-!
# `read_sector_fat`

The FAT is generated entry by entry while a range index walks `drv->ranges`. The FAT16 and FAT32
loops differ in the width of an entry and in the end-of-chain mark (`fatLoop`). The FAT12 loop
packs two entries into three bytes and has its own state, `Fat12State`: the pointer moves apart
from `i`.

`scnt` is the length of the request in bytes once it is multiplied by `bps`. A loop runs on fuel,
of which the length is always enough: every iteration adds to `i`.
-/

namespace Vdf

open Word Buffer

/-! ## Files by FAT entry -/

/-- `find_file_fat_entry`: the file of an entry and its range index. -/
def findFileFatEntry (d : VdfDrive) (ent : Nat) : Except Fault (Option (FileId × Nat)) :=
  if d.dataClusterEnd ≤ ent then .ok none
  else findRangeLoop d FileRange.fatend ent d.fileCnt 0

/-- `fat_next_file`: the file of the next range. -/
def fatNextFile (d : VdfDrive) (rangeInd : Nat) : Except Fault (Option (FileId × Nat)) :=
  if rangeInd + 1 = d.fileCnt then .ok none
  else do
    let range ← rangeAt d (rangeInd + 1)
    pure (some (range.file, rangeInd + 1))

/-! ## FAT16 and FAT32 -/

/-- The locals of a FAT16 or FAT32 loop. `buffer` points to byte `i` of the request. -/
structure FatState where
  i : Nat
  ent : Nat
  clust : Nat
  file : FileId
  rangeInd : Nat
  m : Buffer

/-- The FAT16 and FAT32 loops: entries of `w` bytes, `eoc` the end of a chain. The result is `i`
and the memory at `finish`. -/
def fatLoop (w eoc : Nat) (d : VdfDrive) (scnt p : Nat) :
    Nat → FatState → Except Fault (Nat × Buffer)
  | 0, s => .ok (s.i, s.m)
  | fuel + 1, s =>
    if s.i < scnt then
      if s.ent < subU32 (d.file s.file).end_ 1 then
        fatLoop w eoc d scnt p fuel
          { s with i := s.i + w, ent := u32 (s.ent + 1), clust := u32 (s.clust + 1)
                   m := s.m.copy (p + s.i) (le w s.clust) }
      else do
        let m := s.m.copy (p + s.i) (le w eoc)
        let ent := u32 (s.ent + 1)
        match ← fatNextFile d s.rangeInd with
        | none => pure (s.i + w, m)
        | some (file, rangeInd) =>
          fatLoop w eoc d scnt p fuel { i := s.i + w, ent, clust := u32 (ent + 1), file, rangeInd, m }
    else .ok (s.i, s.m)

/-! ## FAT12 -/

/-- The locals of the FAT12 loop. -/
structure Fat12State where
  i : Nat
  buffer : Nat
  ent : Nat
  clust : Nat
  halfent : Bool
  file : FileId
  rangeInd : Nat
  m : Buffer

/-- An entry inside a chain. `halfent` says that the entry is the second of its pair. -/
def fat12Chain (scnt : Nat) (s : Fat12State) : Fat12State :=
  let s :=
    if s.halfent then
      let m := s.m.set s.buffer (s.m s.buffer &&& 0xf0)
      let m := m.set s.buffer (m s.buffer ||| (UInt8.ofNat (s.clust <<< 4) &&& 0xf0))
      let s := { s with m, buffer := s.buffer + 1, i := s.i + 1 }
      if s.i < scnt - 1 then
        { s with m := s.m.set s.buffer (UInt8.ofNat (s.clust >>> 4))
                 buffer := s.buffer + 1, i := s.i + 1 }
      else s
    else
      let m := s.m.set s.buffer (UInt8.ofNat s.clust)
      let s := { s with m, buffer := s.buffer + 1, i := s.i + 1 }
      if s.i < scnt - 1 then
        { s with m := s.m.set s.buffer (UInt8.ofNat (s.clust >>> 8) &&& 0xf) }
      else s
  { s with clust := u32 (s.clust + 1), ent := u32 (s.ent + 1) }

/-- The last entry of a chain, before the next file is looked up. -/
def fat12End (scnt : Nat) (s : Fat12State) : Fat12State :=
  if s.halfent then
    let m := s.m.set s.buffer (s.m s.buffer ||| 0xf0)
    let s := { s with m, buffer := s.buffer + 1 }
    let s :=
      if s.i < scnt - 1 then { s with m := s.m.set s.buffer 0xff, buffer := s.buffer + 1 } else s
    { s with i := s.i + 2, ent := u32 (s.ent + 1) }
  else
    let m := s.m.set s.buffer 0xff
    let s := { s with m, buffer := s.buffer + 1 }
    let s := if s.i < scnt - 1 then { s with m := s.m.set s.buffer 0xf } else s
    { s with i := s.i + 1, ent := u32 (s.ent + 1) }

/-- The FAT12 loop. The result is `i`, the pointer and the memory at `finish`. -/
def fat12Loop (d : VdfDrive) (scnt : Nat) : Nat → Fat12State → Except Fault (Nat × Nat × Buffer)
  | 0, s => .ok (s.i, s.buffer, s.m)
  | fuel + 1, s =>
    if s.i < scnt then
      if s.ent < subU32 (d.file s.file).end_ 1 then
        let s := fat12Chain scnt s
        fat12Loop d scnt fuel { s with halfent := !s.halfent }
      else do
        let s := fat12End scnt s
        match ← fatNextFile d s.rangeInd with
        | none =>
          if s.halfent then pure (s.i, s.buffer, s.m) else pure (s.i + 1, s.buffer + 1, s.m)
        | some (file, rangeInd) =>
          fat12Loop d scnt fuel
            { s with file, rangeInd, clust := u32 (s.ent + 1), halfent := !s.halfent }
    else .ok (s.i, s.buffer, s.m)

/-! ## The generator -/

/-- `finish`: zeros up to the length; the `int` length must not be negative. -/
def finishFat (scnt i buffer : Nat) (m : Buffer) : Except Fault Buffer :=
  let n := toI32 (subU32 scnt i)
  if n = 0 then .ok m else if n < 0 then .error .memsetLength else .ok (m.fill buffer n.toNat 0)

/-- `read_sector_fat` on FAT16 and FAT32. -/
def readSectorFatWide (w media eoc : Nat) (d : VdfDrive) (sector scnt : Nat) (m : Buffer) (p : Nat) :
    Except Fault Buffer := do
  let scnt := u32 (scnt * d.bps)
  let (i, ent, m) :=
    if sector = 0 then (2 * w, 2, (m.copy p (le w media)).copy (p + w) (le w eoc))
    else (0, u32 (sector * (d.bps / w)), m)
  match ← findFileFatEntry d ent with
  | none => finishFat scnt i (p + i) m
  | some (file, rangeInd) =>
    let (i, m) ← fatLoop w eoc d scnt p scnt { i, ent, clust := u32 (ent + 1), file, rangeInd, m }
    finishFat scnt i (p + i) m

/-- `read_sector_fat` on FAT12. -/
def readSectorFat12 (d : VdfDrive) (sector scnt : Nat) (m : Buffer) (p : Nat) :
    Except Fault Buffer := do
  let scnt := u32 (scnt * d.bps)
  let start := u32 (u32 (sector * 2) * d.bps / 3)
  let (i, ent, halfent, m) :=
    if sector = 0 then (3, 2, false, ((m.set p 0xf8).set (p + 1) 0xff).set (p + 2) 0xff)
    else (0, start / 2, start % 2 == 1, m)
  match ← findFileFatEntry d ent with
  | none => finishFat scnt i (p + i) m
  | some (file, rangeInd) =>
    let (i, buffer, m) ← fat12Loop d scnt scnt
      { i, buffer := p + i, ent, clust := u32 (ent + 1), halfent, file, rangeInd, m }
    finishFat scnt i buffer m

/-- `read_sector_fat`: `scnt` sectors of a FAT from `sector` on, to `p`. -/
def readSectorFat (d : VdfDrive) (sector scnt : Nat) (m : Buffer) (p : Nat) :
    Except Fault Buffer :=
  match d.filesys with
  | .fat12 => readSectorFat12 d sector scnt m p
  | .fat16 => readSectorFatWide 2 0xfff8 0xffff d sector scnt m p
  | .fat32 => readSectorFatWide 4 0x0ffffff8 0x0fffffff d sector scnt m p
  | .unset => .error .indeterminate

end Vdf
