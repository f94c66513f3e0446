import Vdf.Boot
import Vdf.Data
import Vdf.Fat

/-!
# `vdf_read_sectors`

A request is served region by region: the master boot record and its gap, the reserved sectors, the
two FATs, the root directory of FAT12 and FAT16, the data area. What is left of it when a region
ends goes on to the next (`readRegion`).

`rem` and `want` are 64-bit in the source, and no sum of two 32-bit values leaves them; a sector and
a count are `uint32_t`, and the count is returned as an `int`.
-/

namespace Vdf

open Word Buffer

/-- The locals of `vdf_read_sectors`. `buff` points behind the sectors that were served. -/
structure ReadState where
  sector : Nat
  rem : Nat
  cnt : Nat
  buff : Nat
  m : Buffer

/-- One region, which ends before sector `bound`. `gen` serves `want` sectors from a sector on. Once
nothing is left the function has returned. -/
def readRegion (bps bound : Nat) (gen : (sector want : Nat) → Buffer → Nat → Except Fault Buffer)
    (s : ReadState) : Except Fault ReadState :=
  if s.rem = 0 ∨ bound ≤ s.sector then .ok s
  else do
    let want := if bound ≤ s.sector + s.rem then bound - s.sector else s.rem
    let m ← gen s.sector want s.m s.buff
    pure { sector := u32 (s.sector + want), rem := s.rem - want, cnt := u32 (s.cnt + want)
           buff := s.buff + want * bps, m }

/-- The sectors in front of the file system: the master boot record, and zeros. Behind them sectors
are numbered from the first one of the file system. -/
def readMbr (d : VdfDrive) (s : ReadState) : Except Fault ReadState :=
  if hasFlag d.flags vdfMbr then do
    let s := if s.sector = 0 then
        { sector := 1, rem := s.rem - 1, cnt := 1, buff := s.buff + d.bps
          m := readSectorMbr d s.m s.buff }
      else s
    let s ← readRegion d.bps d.mbrSectors (fun _ want m p => .ok (m.fill p (d.bps * want) 0)) s
    pure { s with sector := subU32 s.sector d.mbrSectors }
  else .ok s

/-- The first sector behind the second FAT. -/
def fatEnd (d : VdfDrive) : Nat := if d.filesys = .fat32 then d.dataStart else d.rootStart

/-- The reserved sectors, the FATs and the root directory. -/
def readSystem (d : VdfDrive) (s : ReadState) : Except Fault ReadState := do
  let s ← readRegion d.bps d.fat1Start (fun sector want m p => readSectorBoot d sector want m p) s
  let s ← readRegion d.bps d.fat2Start
    (fun sector want m p => readSectorFat d (subU32 sector d.fat1Start) want m p) s
  let s ← readRegion d.bps (fatEnd d)
    (fun sector want m p => readSectorFat d (subU32 sector d.fat2Start) want m p) s
  if d.filesys ≠ .fat32 then
    readRegion d.bps d.dataStart
      (fun sector want m p => readSectorDir d (subU32 sector d.rootStart) want m p d.rootDir) s
  else .ok s

/-- `vdf_read_sectors`: `cnt` sectors from `sector` on, to `p`. The result is the return value, the
memory and the calls for the contents of files. -/
def vdfReadSectors (env : Readers) (d : VdfDrive) (sector cnt : Nat) (m : Buffer) (p : Nat) :
    Except Fault (Int × Buffer × List ReadCall) :=
  if !d.isValid then .ok (-1, m, [])
  else if cnt = 0 then .ok (0, m, [])
  else do
    let s ← readMbr d { sector, rem := cnt, cnt := 0, buff := p, m }
    let s ← readSystem d s
    if s.rem = 0 then pure (toI32 s.cnt, s.m, [])
    else
      let want := if d.sectors ≤ s.sector + s.rem then subU32 d.sectors s.sector else s.rem
      let (r, m, calls) ← readSectorData env d s.sector want s.m s.buff
      pure (if r = -1 then (-1, m, calls) else (toI32 (u32 (s.cnt + want)), m, calls))

end Vdf
