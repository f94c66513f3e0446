import Vdf.Recalc
import Vdf.Lib.Record

/-!
# `read_sector_dir`

A directory is generated slot by slot: `fill_dirent` writes the long-name slots of an entry that
are wanted and its short slot, `read_sector_dir` calls it for the entries from the first slot of the
request on. The slots are the packed structs `dir_ent` and `dir_ent_vfat`, here records of field
assignments (`direntRecord`, `vfatRecord`).

`char` is signed, as on x86.
-/

namespace Vdf

open Word Buffer

/-! ## Names and dates -/

/-- `l` with spaces up to `n` bytes. -/
def padSpaces (n : Nat) (l : List UInt8) : List UInt8 := l ++ List.replicate (n - l.length) 0x20

/-- `ent->name` and `ent->ext` of a short name. -/
def shortnameField (shortname : List UInt8) : List UInt8 :=
  let base := (shortname.takeWhile fun c => c != 0 && c != 0x2e).take 8
  let rest := shortname.drop base.length
  let ext := if rest.head? = some 0x2e then (rest.tail.takeWhile (· != 0)).take 3 else []
  padSpaces 8 base ++ padSpaces 3 ext

/-- `ent->name` and `ent->ext` of `.` and `..`. -/
def forceNameField (name : List UInt8) : List UInt8 := padSpaces (8 + 3) name

/-- One step of `chk`. -/
def chkStep (chk c : UInt8) : UInt8 := (chk >>> 1) + ((chk &&& 1) <<< 7) + c

/-- A loop over the short name up to round `n`, and up to a `.` when that is a `stop`: `i`, `chk`
and `s` behind it. -/
def chkLoop (n : Nat) (stop : Bool) : Nat → UInt8 → List UInt8 → Nat × UInt8 × List UInt8
  | i, chk, [] => (i, chk, [])
  | i, chk, c :: s =>
    if c ≠ 0 ∧ ¬ (stop ∧ c = 0x2e) ∧ i < n then chkLoop n stop (i + 1) (chkStep chk c) s
    else (i, chk, c :: s)

/-- The spaces for the rounds from `i` up to `n`. -/
def chkPad (n i : Nat) (chk : UInt8) : UInt8 := (fun chk => chkStep chk 0x20)^[n - i] chk

/-- `chk`, from the short name with its dot. -/
def shortnameChecksum (shortname : List UInt8) : UInt8 :=
  let (i, chk, s) := chkLoop 8 true 0 0 shortname
  let chk := chkPad 8 i chk
  let (i, chk, _) := if s.head? = some 0x2e then chkLoop (8 + 3) false 8 chk s.tail else (8, chk, s)
  chkPad (8 + 3) i chk

/-- `struct tm`, the fields that are used. `mon` counts from 0 and `year` from 1900. -/
structure Tm where
  sec : Nat
  min : Nat
  hour : Nat
  mday : Nat
  mon : Nat
  year : Int
  deriving DecidableEq, Repr

/-- `gmtime`: the proleptic Gregorian calendar, in eras of 400 years from 1 March 0000. -/
def gmtime (t : Int) : Tm :=
  let s := (t % 86400).toNat
  let z := t / 86400 + 719468
  let doe := (z % 146097).toNat
  let yoe := (doe - doe / 1460 + doe / 36524 - doe / 146096) / 365
  let doy := doe - (365 * yoe + yoe / 4 - yoe / 100)
  let mp := (5 * doy + 2) / 153
  let mon := if mp < 10 then mp + 2 else mp - 10
  { sec := s % 60, min := s / 60 % 60, hour := s / 3600
    mday := doy - (153 * mp + 2) / 5 + 1, mon
    year := yoe + z / 146097 * 400 + (if mon ≤ 1 then 1 else 0) - 1900 }

example : gmtime 951782399 = ⟨59, 59, 23, 28, 1, 100⟩ := by decide

/-- `ent->modified_time`. -/
def modifiedTime (t : Tm) : Nat :=
  (t.hour &&& 0x1f) <<< 11 ||| (t.min &&& 0x3f) <<< 5 ||| (t.sec / 2 &&& 0x1f)

/-- `ent->modified_date`. -/
def modifiedDate (t : Tm) : Nat :=
  let i := t.year - 80
  let i := if i < 0 then 0 else if 127 < i then 127 else i.toNat
  (i &&& 0x7f) <<< 9 ||| ((t.mon + 1) &&& 0x0f) <<< 5 ||| (t.mday &&& 0x1f)

/-! ## Slots -/

/-- A short slot, `struct dir_ent`. `create_date` is assigned on FAT32 only. -/
def direntRecord (d : VdfDrive) (fil : VdfFile) (name : List UInt8) : Record :=
  let t := gmtime fil.date
  let cluster := if fil.size = 0 ∨ fil.parent = none ∧ d.filesys = .fat32 then 0 else fil.start
  [(0, name), (11, [UInt8.ofNat fil.attr]), (12, [0]), (22, le 2 (modifiedTime t)),
    (24, le 2 (modifiedDate t))] ++
  (if d.filesys = .fat32 then
    [(13, [if t.sec &&& 1 = 0 then 0 else 5]), (14, le 2 (modifiedTime t)),
      (16, le 2 (modifiedDate t)), (18, le 2 (modifiedDate t))]
  else [(13, [0]), (14, le 2 0), (18, le 2 0)]) ++
  [(20, le 2 (if d.filesys = .fat32 then cluster >>> 16 else 0)), (26, le 2 cluster),
    (28, le 4 (if hasFlag fil.attr vfaDir then 0 else fil.size))]

/-- `vfat_char_offsets`. -/
def vfatCharOffsets : List Nat := [1, 3, 5, 7, 9, 14, 16, 18, 20, 22, 24, 28, 30]

/-- A `char` that is stored to a `uint16_t`. -/
def charToU16 (c : UInt8) : Nat := if c < 0x80 then c.toNat else 0xff00 + c.toNat

/-- A long-name slot, `struct dir_ent_vfat`. -/
def vfatRecord (fil : VdfFile) (chk : UInt8) (seq : Nat) : Record :=
  let s := (fil.name.drop ((seq - 1) * 13)).takeWhile (· != 0)
  let seqByte := UInt8.ofNat seq
  [(0, [if seq = fil.fentCnt then seqByte ||| 0x40 else seqByte]), (11, [0xf]), (12, [0]),
    (13, [chk]), (26, le 2 0)] ++
  (List.range 13).map fun i =>
    (vfatCharOffsets.getD i 0, le 2 (match s[i]? with | some c => charToU16 c | none => 0))

/-- The long-name loop of `fill_dirent`, from sequence number `seq` down. The first component says
that the function returns from inside the loop; then come `cnt`, the memory and `buffer`. -/
def fillLong (fil : VdfFile) (chk : UInt8) (entnum maxcnt : Int) :
    (seq e cnt : Nat) → Buffer → Nat → Bool × Nat × Buffer × Nat
  | 0, _, cnt, m, p => (false, cnt, m, p)
  | seq + 1, e, cnt, m, p =>
    if (e : Int) < entnum then fillLong fil chk entnum maxcnt seq (e + 1) cnt m p
    else
      let m := m.store p (vfatRecord fil chk (seq + 1))
      let cnt := cnt + 1
      if (cnt : Int) = maxcnt then (true, cnt, m, p)
      else fillLong fil chk entnum maxcnt seq (e + 1) cnt m (p + 32)

/-- The entry has long-name slots. -/
def hasLongSlots (d : VdfDrive) (fil : VdfFile) : Bool := hasFlag d.flags vdfVfat && fil.longname

/-- `fill_dirent`: the number of slots written, and the memory. It never fails. -/
def fillDirent (d : VdfDrive) (m : Buffer) (p : Nat) (fil : VdfFile) (entnum maxcnt : Int)
    (forceName : Option (List UInt8)) : Nat × Buffer :=
  let (done, cnt, m, p) :=
    if forceName = none ∧ hasLongSlots d fil then
      fillLong fil (shortnameChecksum fil.shortname) (entnum - fil.fentStart) maxcnt fil.fentCnt 0 0 m p
    else (false, 0, m, p)
  if done then (cnt, m)
  else
    let name := match forceName with
      | some name => forceNameField name
      | none => shortnameField fil.shortname
    (cnt + 1, m.store p (direntRecord d fil name))

/-! ## The generator -/

/-- The locals of the loop of `read_sector_dir`. -/
structure DirState where
  i : Nat
  mx : Int
  buffer : Nat
  m : Buffer

/-- The loop over the entries; `scnt` is the number of slots. -/
def dirLoop (d : VdfDrive) (ent : Int) (scnt : Nat) : List FileId → DirState → DirState
  | [], s => s
  | f :: fs, s =>
    let fil := d.file f
    if (fil.fentStart : Int) + fil.fentCnt + 1 ≤ ent then dirLoop d ent scnt fs s
    else
      let (c, m) := fillDirent d s.m s.buffer fil ent s.mx none
      let s := { i := s.i + c, mx := s.mx - c, buffer := s.buffer + 32 * c, m }
      if scnt ≤ s.i then s else dirLoop d ent scnt fs s

/-- `.` and `..`. -/
def dotName : List UInt8 := [0x2e]
def dotdotName : List UInt8 := [0x2e, 0x2e]

/-- The special first slots of a request from sector 0: `i`, the memory and `buffer` behind them. -/
def fillDots (d : VdfDrive) (m : Buffer) (p : Nat) (dir : FileId) : Nat × Buffer × Nat :=
  match (d.file dir).parent with
  | some parent =>
    let m := (fillDirent d m p (d.file dir) 0 1 (some dotName)).2
    let m := (fillDirent d m (p + 32) (d.file parent) 0 1 (some dotdotName)).2
    (2, m, p + 32 * 2)
  | none => (0, m, p)

/-- `read_sector_dir`: `scnt` sectors of directory `dir` from its sector `sector` on, to `p`. The
return value is always 0. -/
def readSectorDir (d : VdfDrive) (sector scnt : Nat) (m : Buffer) (p : Nat) (dir : FileId) :
    Except Fault Buffer :=
  let (i, m, p) := if sector = 0 then fillDots d m p dir else (0, m, p)
  let ent : Int := if sector = 0 then i else toI32 (u32 (sector * (d.bps / 32)))
  let scnt := u32 (scnt * d.direntPerSector)
  let s : DirState := { i, mx := toI32 (subU32 scnt i), buffer := p, m }
  let s := if ent < (d.file dir).dirFentCnt then dirLoop d ent scnt (d.file dir).entries s else s
  if s.mx = 0 then .ok s.m
  else if s.mx < 0 then .error .memsetLength
  else .ok (s.m.fill s.buffer (s.mx.toNat * 32) 0)

end Vdf
