import Vdf.Drive
import Vdf.Name
import Vdf.Lib.Record

/-!
# `read_sector_boot` and `read_sector_mbr`

The boot sector, the information sector of FAT32 and the master boot record are packed structs of
512 bytes, assigned field by field. They are records here, with the fields in the source's order.
-/

namespace Vdf

open Word Buffer

/-! ## The volume label -/

/-- What the two loops write from `common->label` on. They run to `i <= sizeof(common->label)`, one
byte behind the field, and a space of the label takes a round without writing. -/
def labelBytes (label : List UInt8) : List UInt8 :=
  let s := (label.takeWhile (· != 0)).take (11 + 1)
  s.flatMap stuffDosname ++ List.replicate (11 + 1 - s.length) 0x20

/-! ## Records -/

/-- `boot16_32_common` at `o`, without `fstype`. -/
def bootCommonRecord (d : VdfDrive) (o : Nat) : Record :=
  [(o, [0x80]), (o + 1, [0]), (o + 2, [0x29]), (o + 3, le 4 d.serial),
    (o + 7, match d.label with
      | some label => labelBytes label
      | none => List.replicate 11 0x20)]

/-- `boot->sector_cnt`. -/
def bootSectorCnt (d : VdfDrive) : Nat :=
  if d.filesys = .fat32 then 0 else if d.sectors < 0x10000 then d.sectors else 0

/-- The fields of `fat_bootrec` in front of the union. -/
def bootHeadRecord (d : VdfDrive) : Record :=
  [(0, [0, 0, 0]), (3, [0x4d, 0x53, 0x57, 0x49, 0x4e, 0x34, 0x2e, 0x31]), (11, le 2 d.bps),
    (13, [UInt8.ofNat d.spc]), (14, le 2 d.fat1Start),
    (17, le 2 (if d.filesys = .fat32 then 0 else ofInt d.rootDirCnt)),
    (19, le 2 (bootSectorCnt d)),
    (22, le 2 (if d.filesys = .fat32 then 0 else d.fatSectors)),
    (24, le 2 1), (16, [2]), (21, [0xf8]), (24, le 2 1), (26, le 2 1)]

/-- The union of `fat_bootrec`. No case of the `switch` assigns `common` and `bootstrap` when the
file system is unset. -/
def bootUnionRecord (d : VdfDrive) : Option Record :=
  match d.filesys with
  | .fat12 => some [(28, le 2 0), (30, List.replicate 480 0)]
  | .fat16 => some ([(28, le 4 0)] ++
      (if bootSectorCnt d = 0 then [(32, le 4 d.sectors)] else []) ++
      [(54, [0x46, 0x41, 0x54, 0x31, 0x36, 0x20, 0x20, 0x20])] ++ bootCommonRecord d 36 ++
      [(62, List.replicate 448 0)])
  | .fat32 => some ([(28, le 4 0), (36, le 4 d.fatSectors), (32, le 4 d.sectors), (40, le 2 0),
      (42, le 2 0), (44, le 4 (d.file d.rootDir).start), (48, le 2 1), (50, le 2 6),
      (52, List.replicate 12 0), (82, [0x46, 0x41, 0x54, 0x33, 0x32, 0x20, 0x20, 0x20])] ++
      bootCommonRecord d 64 ++ [(90, List.replicate 420 0)])
  | .unset => none

/-- A boot sector. -/
def bootRecord (d : VdfDrive) : Except Fault Record :=
  match bootUnionRecord d with
  | some union => .ok (bootHeadRecord d ++ union ++ [(510, [0xaa]), (511, [0x55])])
  | none => .error .indeterminate

/-- `read_sector_fsinfo`. -/
def fsinfoRecord (d : VdfDrive) : Record :=
  [(0, le 4 0x41615252), (4, List.replicate 480 0), (484, le 4 0x61417272),
    (488, le 4 (subU32 d.clusters (subU32 d.dataClusterEnd 2))), (492, le 4 d.dataClusterEnd),
    (496, List.replicate 12 0), (508, le 4 0xaa550000)]

/-- `part_recs[0].type`. -/
def partType : Filesys → Option UInt8
  | .fat12 => some 0x01
  | .fat16 => some 0x0e
  | .fat32 => some 0x0c
  | .unset => none

/-- The master boot record. -/
def mbrRecord (d : VdfDrive) : Record :=
  [(0, List.replicate 440 0), (440, le 4 d.serial), (444, le 2 0), (446, [0x80])] ++
  (match partType d.filesys with
    | some type => [(450, [type])]
    | none => []) ++
  [(447, [0, 0, 0]), (451, [0, 0, 0]), (454, le 4 d.mbrSectors), (458, le 4 d.sectors),
    (462, List.replicate 48 0), (510, [0x55]), (511, [0xaa])]

/-! ## The generators -/

/-- `read_sector_mbr`. -/
def readSectorMbr (d : VdfDrive) (m : Buffer) (p : Nat) : Buffer := m.store p (mbrRecord d)

/-- One round of the loop of `read_sector_boot`. -/
def bootSector (d : VdfDrive) (sector : Nat) (m : Buffer) (p : Nat) : Except Fault Buffer :=
  if d.filesys = .fat32 ∧ sector = 1 then .ok (m.store p (fsinfoRecord d))
  else if ¬ (d.filesys = .fat32 ∧ sector = 6) ∧ sector ≠ 0 then .ok (m.fill p d.bps 0)
  else (bootRecord d).map fun r => m.store p r

/-- `read_sector_boot`: `scnt` reserved sectors from `sector` on, to `p`. -/
def readSectorBoot (d : VdfDrive) : (sector scnt : Nat) → Buffer → Nat → Except Fault Buffer
  | _, 0, m, _ => .ok m
  | sector, scnt + 1, m, p => do
    let m ← bootSector d sector m p
    readSectorBoot d (sector + 1) scnt m (p + d.bps)

end Vdf
