import Vdf.Dir
import Vdf.Ranges

/-!
# `read_sector_data`

The data area is generated file by file. A file's content comes from outside the library: from its
callback, or from the file at its path. Both are functions of the file, the offset and the length
(`Readers`), and every call is recorded.

The loop runs on fuel, of which the number of sectors is always enough when every file ends behind
the sector that it was found for.
-/

namespace Vdf

open Word Buffer

/-- What the callbacks and the files at the paths answer. The list is what is put into the buffer,
and its length what is returned; `none` stands for -1, from the call itself or from `open`. -/
structure Readers where
  cback : FileId → Nat → Nat → Option (List UInt8)
  pread : FileId → Nat → Nat → Option (List UInt8)

/-- A call of a callback with `vfc_write`, or a `read` behind `lseek`. -/
structure ReadCall where
  file : FileId
  off : Nat
  len : Nat
  deriving DecidableEq, Repr

/-- `vdf_file_cmd`. -/
inductive VdfFileCmd where
  | vfcRead
  | vfcWrite
  deriving DecidableEq, Repr

/-- The command that a callback is called with. -/
def ReadCall.cmd (d : VdfDrive) (c : ReadCall) : Option VdfFileCmd :=
  if (d.file c.file).isVirt then some .vfcWrite else none

/-- The content of a file. -/
def Readers.read (env : Readers) (d : VdfDrive) (f : FileId) (off len : Nat) : Option (List UInt8) :=
  if (d.file f).isVirt then env.cback f off len else env.pread f off len

/-- `find_file_sector`: the file of a sector. -/
def findFileSector (d : VdfDrive) (sector : Nat) : Except Fault (Option FileId) :=
  if d.dataEnd ≤ sector then .ok none
  else (findRangeLoop d FileRange.sectend sector d.fileCnt 0).map fun r => r.map Prod.fst

/-- The locals of the loop, and the calls so far. -/
structure DataState where
  sector : Nat
  scnt : Nat
  buffer : Nat
  m : Buffer
  calls : List ReadCall

/-- One round of the loop for a sector of file `f`: the state after it, and the return value if the
function returns. -/
def dataFile (env : Readers) (d : VdfDrive) (f : FileId) (s : DataState) :
    Except Fault (Option Int × DataState) :=
  let fil := d.file f
  let off := subU32 s.sector fil.startsect
  let swant := min (subU32 fil.endsect s.sector) s.scnt
  let next := { s with sector := u32 (s.sector + swant), scnt := s.scnt - swant }
  if fil.isDir then do
    let m ← readSectorDir d off swant s.m s.buffer f
    pure (none, { next with m, buffer := s.buffer + swant * d.bps })
  else
    let off := u32 (off * d.bps)
    if fil.size ≤ off then
      let want := swant * d.bps
      pure (none, { next with m := s.m.fill s.buffer want 0, buffer := s.buffer + want })
    else
      let want := min (fil.size - off) (s.scnt * d.bps)
      let calls := s.calls ++ [⟨f, off, want⟩]
      match env.read d f off want with
      | none => pure (some (-1), { s with calls })
      | some l =>
        let cnt := min l.length want
        -- Nothing is left to fill when the file is longer than its sectors.
        let tail := swant * d.bps - cnt
        let m := (s.m.copy s.buffer l).fill (s.buffer + cnt) tail 0
        pure (none, { next with m, calls, buffer := s.buffer + cnt + tail })

/-- One round of the loop. -/
def dataStep (env : Readers) (d : VdfDrive) (s : DataState) : Except Fault (Option Int × DataState) := do
  match ← findFileSector d s.sector with
  | none => pure (some 0, { s with m := s.m.fill s.buffer (s.scnt * d.bps) 0 })
  | some f => dataFile env d f s

/-- The loop of `read_sector_data`. -/
def dataLoop (env : Readers) (d : VdfDrive) : Nat → DataState → Except Fault (Int × DataState)
  | 0, s => if s.scnt = 0 then .ok (0, s) else .error .endless
  | fuel + 1, s =>
    if s.scnt = 0 then .ok (0, s)
    else do
      match ← dataStep env d s with
      | (some r, s) => pure (r, s)
      | (none, s) => dataLoop env d fuel s

/-- `read_sector_data`: `scnt` sectors of the data area from `sector` on, to `p`. The result is the
return value, the memory and the calls. -/
def readSectorData (env : Readers) (d : VdfDrive) (sector scnt : Nat) (m : Buffer) (p : Nat) :
    Except Fault (Int × Buffer × List ReadCall) :=
  (dataLoop env d scnt { sector, scnt, buffer := p, m, calls := [] }).map
    fun (r, s) => (r, s.m, s.calls)

end Vdf
