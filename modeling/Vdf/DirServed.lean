import Vdf.DirSlots
import Vdf.Partition
import Mathlib.Data.List.TakeWhile

/-!
# When a directory is served

`dirRecords` is a directory as its slots follow each other: `.` and `..`, and for each entry its
long-name slots and its short slot. `dir_recalc` numbers the slots the same way, except that it
reserves a slot for the label in front of the entries of the root; `read_sector_dir` leaves that
slot out when it starts from sector 0 and counts it when it starts behind (`usedRecords_eq`).
-/

namespace Vdf

open Word Buffer

/-! ## Specification -/

/-- The slots of a directory. -/
def dirRecords (d : VdfDrive) (dir : FileId) : List Record :=
  dotRecords d dir ++ (d.file dir).entries.flatMap fun f => slotRecords d (d.file f)

/-- Slot `k`, which is a zero slot behind the entries. -/
def slotAt (d : VdfDrive) (dir : FileId) (k : Nat) : Record := (dirRecords d dir).getD k zeroRecord

/-- The sectors of a directory. -/
def dirSectors (d : VdfDrive) (dir : FileId) : Nat :=
  if (d.file dir).parent = none ∧ d.filesys ≠ .fat32 then d.rootSectors
  else (d.file dir).clusters * d.spc

/-- The sectors hold all slots, and every run of them gives its slice. -/
structure DirServed (d : VdfDrive) (dir : FileId) : Prop where
  complete : (dirRecords d dir).length ≤ dirSectors d dir * d.direntPerSector
  run : ∀ sector scnt, 0 < scnt → sector + scnt ≤ dirSectors d dir → ∀ m p,
    readSectorDir d sector scnt m p dir = .ok (m.overlay p (scnt * d.bps) fun j =>
      (slotAt d dir (sector * d.direntPerSector + j / 32)).byte (j % 32))

/-- The slot that `dir_recalc` reserves for the label of the root. -/
def labelSlots (d : VdfDrive) (dir : FileId) : Nat :=
  if (d.file dir).parent = none ∧ d.label ≠ none then 1 else 0

/-- The directories that are served: the slots fit, and the root of a drive with a label has one
sector or no slot behind its first sector. -/
structure DirFits (d : VdfDrive) (dir : FileId) : Prop where
  slots : if (d.file dir).parent = none ∧ d.filesys ≠ .fat32 then
      dirSlots d dir ≤ d.rootSectors * d.direntPerSector + labelSlots d dir
    else dirSlots d dir * 32 + (d.bpc - 1) < 2 ^ 32
  label : labelSlots d dir = 0 ∨ dirSlots d dir ≤ d.direntPerSector ∨
    dirSectors { d with file := recalcFile d } dir ≤ 1

/-! ## Slots in order -/

/-- The slots that are wanted from slot `ent` on, when the entries are numbered from `a` on. -/
theorem entryRecords_eq {d : VdfDrive} {l : List FileId} {a b ent : Nat}
    (hch : Chain (fun f => (d.file f).fentStart)
      (fun f => (d.file f).fentStart + (d.file f).fentCnt + 1) a l b)
    (hlen : ∀ f ∈ l, (slotRecords d (d.file f)).length = (d.file f).fentCnt + 1) :
    entryRecords d ent l = (l.flatMap fun f => slotRecords d (d.file f)).drop (ent - a) := by
  induction l generalizing a with
  | nil => simp [entryRecords]
  | cons f l ih =>
    obtain ⟨h1, -, h3⟩ := hch
    have hf := hlen f (List.mem_cons_self ..)
    have h1 : (d.file f).fentStart = a := h1
    have hrest : entryRecords d ent l = (l.flatMap fun f => slotRecords d (d.file f)).drop
        (ent - ((d.file f).fentStart + (d.file f).fentCnt + 1)) :=
      ih h3 fun g hg => hlen g (.tail _ hg)
    rw [List.flatMap_cons]
    by_cases hskip : (d.file f).fentStart + (d.file f).fentCnt + 1 ≤ ent
    · have e : entryRecords d ent (f :: l) = entryRecords d ent l := entryRecords_skip (by omega)
      have hskip' : (slotRecords d (d.file f)).drop (ent - a) = [] :=
        List.drop_of_length_le (by omega)
      rw [e, hrest, List.drop_append, hskip', List.nil_append]
      congr 1
      omega
    · have e : entryRecords d ent (f :: l) =
          wantedRecords d ent (d.file f) ++ entryRecords d ent l := entryRecords_keep (by omega)
      have hmin : min ((ent : Int) - (d.file f).fentStart).toNat
          ((slotRecords d (d.file f)).length - 1) = ent - a := by
        rw [hf]
        omega
      rw [e, hrest, wantedRecords, hmin, List.drop_append_of_le_length (by omega)]
      congr 1
      rw [(by omega : ent - ((d.file f).fentStart + (d.file f).fentCnt + 1) = 0), List.drop_zero]

/-! ## The numbering of a recalculated drive -/

/-- A file of the tree after a recalculation: only its place is new. -/
theorem recalcFile_numbered {d : VdfDrive} (ht : d.IsTree) {x : FileId} (hx : d.Below x d.rootDir) :
    ∃ start end_ dataEnd startsect endsect,
      recalcFile d x = { numbered d x with start, end_, dataEnd, startsect, endsect } := by
  by_cases hm : x ∈ d.allFiles
  · rw [recalcFile_mem hm, VdfFile.laidOut]
    split
    · exact ⟨0, (numbered d x).end_, (numbered d x).dataEnd, (numbered d x).startsect,
        (numbered d x).endsect, rfl⟩
    · exact ⟨_, _, _, _, _, rfl⟩
  · have hroot : x = d.rootDir := by
      by_contra hne
      exact hm ((ht.mem_allFiles x).mpr ⟨hx, fun e => absurd e hne⟩)
    refine ⟨(numbered d x).start, (numbered d x).end_, (numbered d x).dataEnd,
      (numbered d x).startsect, (numbered d x).endsect, ?_⟩
    rw [recalcFile, if_neg hm, if_pos hroot]

/-- The slots of the entries follow each other. -/
theorem slot_chain (d : VdfDrive) {l : List FileId} (hl : l.Nodup) (b : Nat) :
    Chain (fun f => b + entrySlots d (l.takeWhile (· ≠ f)))
      (fun f => b + entrySlots d (l.takeWhile (· ≠ f)) + fentsNeeded d f + 1) b l
      (b + entrySlots d l) := by
  induction l generalizing b with
  | nil => simp
  | cons f l ih =>
    obtain ⟨hfl, hl⟩ := List.nodup_cons.mp hl
    refine ⟨by simp, by dsimp only; omega, ?_⟩
    have hb : b + entrySlots d ((f :: l).takeWhile (· ≠ f)) + fentsNeeded d f + 1 =
        b + (fentsNeeded d f + 1) := by simp; omega
    have hend : b + entrySlots d (f :: l) = b + (fentsNeeded d f + 1) + entrySlots d l := by
      rw [entrySlots_cons]; omega
    show Chain _ _ (b + entrySlots d ((f :: l).takeWhile (· ≠ f)) + fentsNeeded d f + 1) _ _
    rw [hb, hend]
    refine (Chain.congr_mem fun g hg => ?_).mp (ih hl (b + (fentsNeeded d f + 1)))
    have hne : f ≠ g := by rintro rfl; exact hfl hg
    simp [hne]
    omega

theorem length_dotRecords (d : VdfDrive) (dir : FileId) :
    (dotRecords d dir).length = if (d.file dir).parent = none then 0 else 2 := by
  unfold dotRecords
  cases (d.file dir).parent <;> simp

section Recalc

variable {d : VdfDrive} (ht : d.IsTree) (rs : List FileRange) {dir : FileId}
  (hdir : d.Below dir d.rootDir) (hd : (d.file dir).isDir = true)

include ht hdir

/-- An entry keeps its name, and has the slots that `dir_recalc` numbered. -/
theorem recalc_entry {f : FileId} (hf : f ∈ (d.file dir).entries) :
    ((recalcDrive d rs).file f).fentStart = slotStart d dir f ∧
      ((recalcDrive d rs).file f).fentCnt = fentsNeeded d f ∧
      (slotRecords (recalcDrive d rs) ((recalcDrive d rs).file f)).length =
        ((recalcDrive d rs).file f).fentCnt + 1 := by
  have hc : d.Child f dir := (ht.mem_entries f dir).mp hf
  obtain ⟨a, b, c, e, g, hrec⟩ := recalcFile_numbered ht (VdfDrive.Below.step hc hdir)
  have hfile : (recalcDrive d rs).file f =
      { numberedAt d (slotStart d dir f) f with
        start := a, end_ := b, dataEnd := c, startsect := e, endsect := g } := by
    show recalcFile d f = _
    rw [hrec, numbered_child hc]
  have hlong : (numberedAt d (slotStart d dir f) f).longname = (d.file f).longname := by
    unfold numberedAt sized
    dsimp only
    split <;> rfl
  rw [hfile]
  refine ⟨rfl, rfl, ?_⟩
  simp only [slotRecords, List.length_append, List.length_singleton, Nat.add_right_cancel_iff]
  have hflags : (recalcDrive d rs).flags = d.flags := rfl
  by_cases hl : hasFlag d.flags vdfVfat = true ∧ (d.file f).longname = true
  · rw [if_pos, length_longRecords]
    simp [hasLongSlots, hflags, hlong, hl]
  · rw [if_neg]
    · show 0 = fentsNeeded d f
      unfold fentsNeeded
      cases h1 : hasFlag d.flags vdfVfat <;> cases h2 : (d.file f).longname <;> simp_all
    · simpa [hasLongSlots, hflags, hlong] using hl

include hd in
/-- A directory after a recalculation. -/
theorem recalc_dir :
    ((recalcDrive d rs).file dir).parent = (d.file dir).parent ∧
      ((recalcDrive d rs).file dir).entries = (d.file dir).entries ∧
      ((recalcDrive d rs).file dir).dirFentCnt = dirSlots d dir ∧
      ((recalcDrive d rs).file dir).clusters = dirClusters d.bpc (dirSize (dirSlots d dir)) := by
  obtain ⟨a, b, c, e, g, hrec⟩ := recalcFile_numbered ht hdir
  obtain ⟨-, -, h1, h2, -⟩ := numbered_static d dir
  have hfile : (recalcDrive d rs).file dir = _ := hrec
  have hslots : (numbered d dir).dirFentCnt = dirSlots d dir ∧
      (numbered d dir).clusters = dirClusters d.bpc (dirSize (dirSlots d dir)) := by
    have hs : (sized d dir).dirFentCnt = dirSlots d dir ∧
        (sized d dir).clusters = dirClusters d.bpc (dirSize (dirSlots d dir)) := by
      simp only [sized, hd, ↓reduceIte, and_self]
    unfold numbered numberedAt
    split <;> exact hs
  rw [hfile]
  exact ⟨h1, h2, hslots⟩

/-- The slots of the entries of a recalculated directory. -/
theorem recalc_slot_chain :
    Chain (fun f => ((recalcDrive d rs).file f).fentStart)
      (fun f => ((recalcDrive d rs).file f).fentStart + ((recalcDrive d rs).file f).fentCnt + 1)
      (reservedSlots d dir) (d.file dir).entries (dirSlots d dir) := by
  refine (Chain.congr_mem fun f hf => ?_).mp
    (slot_chain d (ht.nodup_entries dir) (reservedSlots d dir))
  obtain ⟨h1, h2, -⟩ := recalc_entry ht rs hdir hf
  rw [h1, h2]
  exact ⟨rfl, rfl⟩

include hd in
/-- The reserved slots are those in front of the entries, and that of the label. -/
theorem recalc_reserved : reservedSlots d dir =
    (dotRecords (recalcDrive d rs) dir).length + labelSlots d dir := by
  rw [length_dotRecords, (recalc_dir ht rs hdir hd).1, reservedSlots, labelSlots]
  cases (d.file dir).parent <;> cases d.label <;> simp

include hd in
/-- All slots but that of the label are in the directory. -/
theorem recalc_length : (dirRecords (recalcDrive d rs) dir).length + labelSlots d dir =
    dirSlots d dir := by
  have hsum := (recalc_slot_chain ht rs hdir).sum
  have hlen : ((d.file dir).entries.map fun f => ((recalcDrive d rs).file f).fentStart +
      ((recalcDrive d rs).file f).fentCnt + 1 - ((recalcDrive d rs).file f).fentStart) =
      (d.file dir).entries.map fun f =>
        (slotRecords (recalcDrive d rs) ((recalcDrive d rs).file f)).length := by
    refine List.map_congr_left fun f hf => ?_
    rw [(recalc_entry ht rs hdir hf).2.2]
    omega
  rw [hlen, recalc_reserved ht rs hdir hd] at hsum
  rw [dirRecords, List.length_append, List.length_flatMap, (recalc_dir ht rs hdir hd).2.1]
  omega

include hd in
/-- The used slots of a request are a slice of the directory, which starts one slot early behind
the first sector of a root with a label. -/
theorem usedRecords_eq (hk : d.toGeometry.Known) (sector n : Nat) :
    usedRecords (recalcDrive d rs) dir sector n = ((dirRecords (recalcDrive d rs) dir).drop
      (sector * d.direntPerSector - labelSlots d dir)).take n := by
  obtain ⟨-, hent, hcnt, -⟩ := recalc_dir ht rs hdir hd
  have hlen := recalc_length ht rs hdir hd
  have hres := recalc_reserved ht rs hdir hd
  have hrec := fun ent => @entryRecords_eq _ _ _ _ ent (recalc_slot_chain ht rs hdir)
    fun f hf => (recalc_entry ht rs hdir hf).2.2
  have hdots := length_dotRecords_le (recalcDrive d rs) dir
  have hflat : dirRecords (recalcDrive d rs) dir = dotRecords (recalcDrive d rs) dir ++
      (d.file dir).entries.flatMap fun f =>
        slotRecords (recalcDrive d rs) ((recalcDrive d rs).file f) := by
    rw [dirRecords, hent]
  have hdps : (recalcDrive d rs).bps / 32 = d.direntPerSector := hk.dirent.symm
  have hfew : 3 ≤ d.direntPerSector := by
    have := (sectorSizes_le hk.bps).1
    have := hk.dirent
    omega
  generalize (d.file dir).entries.flatMap (fun f =>
    slotRecords (recalcDrive d rs) ((recalcDrive d rs).file f)) = flat at hrec hflat
  rw [hflat, List.length_append] at hlen
  simp only [usedRecords, hcnt, hent, hrec, hres, hdps]
  rw [hflat]
  congr 1
  by_cases h0 : sector = 0
  · simp only [h0, ↓reduceIte, Nat.zero_mul, Nat.zero_sub, List.drop_zero]
    split
    · rw [(by omega : (dotRecords (recalcDrive d rs) dir).length -
        ((dotRecords (recalcDrive d rs) dir).length + labelSlots d dir) = 0), List.drop_zero]
    · rw [List.eq_nil_of_length_eq_zero (by omega : flat.length = 0)]
  · have hge : d.direntPerSector ≤ sector * d.direntPerSector :=
      Nat.le_mul_of_pos_left _ (by omega)
    have hlab : labelSlots d dir ≤ 1 := by
      unfold labelSlots
      split <;> omega
    simp only [h0, ↓reduceIte, List.nil_append]
    split
    · have hnil : (dotRecords (recalcDrive d rs) dir).drop
          (sector * d.direntPerSector - labelSlots d dir) = [] :=
        List.drop_of_length_le (by omega)
      rw [List.drop_append, hnil, List.nil_append]
      congr 1
      omega
    · exact (List.drop_of_length_le (by rw [List.length_append]; omega)).symm

include hd in
/-- The bytes of a request. -/
theorem recalc_readSectorDir (hk : d.toGeometry.Known) {sector scnt : Nat}
    (h : DirRequest (recalcDrive d rs) sector scnt) (m : Buffer) (p : Nat) :
    readSectorDir (recalcDrive d rs) sector scnt m p dir = .ok (m.overlay p (scnt * d.bps) fun j =>
      (slotAt (recalcDrive d rs) dir
        (sector * d.direntPerSector - labelSlots d dir + j / 32)).byte (j % 32)) := by
  have hdps : (recalcDrive d rs).direntPerSector = d.direntPerSector := rfl
  have hlen : 32 * (scnt * d.direntPerSector) = scnt * d.bps := by
    rw [← hk.bps_eq]
    ring
  rw [readSectorDir_eq h, hdps, storeAll_eq_overlay (by decide) m p runRecords_within,
    length_runRecords, hlen]
  congr 1
  refine overlay_congr fun j hj => ?_
  have hi : j / 32 < scnt * d.direntPerSector := by omega
  generalize scnt * d.direntPerSector = n at *
  rw [tableByte]
  congr 1
  have hused := usedRecords_eq ht rs hdir hd hk sector n
  have hulen := congrArg List.length hused
  rw [List.length_take, List.length_drop] at hulen
  simp only [slotAt, runRecords, List.getD_eq_getElem?_getD]
  generalize sector * d.direntPerSector - labelSlots d dir = k at *
  by_cases hin : j / 32 < (usedRecords (recalcDrive d rs) dir sector n).length
  · rw [List.getElem?_append_left hin, hused, List.getElem?_take, if_pos hi, List.getElem?_drop,
      List.getElem?_eq_getElem (by omega)]
    rfl
  · rw [List.getElem?_append_right (by omega), List.getElem?_replicate, if_pos (by omega),
      List.getElem?_eq_none (by omega)]
    rfl

end Recalc

/-! ## The slots fit -/

/-- The clusters of a directory hold its slots, with or without that of the label, iff the size
does not wrap when it is rounded up. -/
theorem dirClusters_holds {bpc k slots label : Nat} (hb : bpc = 2 ^ k) (h9 : 9 ≤ k) (h21 : k ≤ 21)
    (hl : label ≤ 1) : slots * 32 + (bpc - 1) < 2 ^ 32 ↔
      (slots - label) * 32 ≤ dirClusters bpc (dirSize slots) * bpc := by
  have hb1 : 2 ^ 9 ≤ bpc := hb ▸ Nat.pow_le_pow_right (by decide) h9
  have hb2 : bpc ≤ 2 ^ 21 := hb ▸ Nat.pow_le_pow_right (by decide) h21
  constructor
  · intro h
    have e : dirSize slots = slots * 32 := u32_of_lt (by omega)
    have := le_ceilDiv_mul (n := slots * 32) (by omega : 0 < bpc)
    rw [dirClusters, e, u32_of_lt h]
    omega
  · intro h
    by_contra hge
    have hle : dirClusters bpc (dirSize slots) * bpc ≤ u32 (dirSize slots + (bpc - 1)) :=
      Nat.div_mul_le_self _ _
    -- The clusters are whole ones in 32 bits.
    have hmax : dirClusters bpc (dirSize slots) * bpc ≤ 2 ^ 32 - bpc := by
      obtain ⟨q, hq⟩ : bpc ∣ 2 ^ 32 := by
        rw [hb]
        exact pow_dvd_pow 2 (by omega)
      have hlt := Nat.lt_of_le_of_lt hle (u32_lt _)
      rw [hq, Nat.mul_comm bpc q] at hlt ⊢
      have := Nat.mul_le_mul_right bpc (Nat.lt_of_mul_lt_mul_right hlt)
      rw [Nat.succ_mul] at this
      omega
    by_cases hwrap : slots * 32 < 2 ^ 32
    · have e : dirSize slots = slots * 32 := u32_of_lt hwrap
      have hzero : dirClusters bpc (dirSize slots) = 0 := by
        have : u32 (slots * 32 + (bpc - 1)) = slots * 32 + (bpc - 1) - 2 ^ 32 := by
          unfold u32
          omega
        rw [dirClusters, e, this]
        exact Nat.div_eq_of_lt (by omega)
      rw [hzero] at h
      omega
    · omega

section Result

variable {d : VdfDrive} (ht : d.IsTree) (hk : d.toGeometry.Known) (rs : List FileRange)
  {dir : FileId} (hdir : d.Below dir d.rootDir) (hd : (d.file dir).isDir = true)

theorem labelSlots_le (d : VdfDrive) (dir : FileId) : labelSlots d dir ≤ 1 := by
  unfold labelSlots
  split <;> omega

include ht hdir hd

theorem recalc_dirSectors : dirSectors (recalcDrive d rs) dir =
    if (d.file dir).parent = none ∧ d.filesys ≠ .fat32 then d.rootSectors
    else dirClusters d.bpc (dirSize (dirSlots d dir)) * d.spc := by
  obtain ⟨h1, -, -, h2⟩ := recalc_dir ht rs hdir hd
  rw [dirSectors, h1, h2]
  rfl

include hk

/-- All slots are in the sectors. -/
theorem recalc_complete_iff :
    (dirRecords (recalcDrive d rs) dir).length ≤
        dirSectors (recalcDrive d rs) dir * d.direntPerSector ↔
      if (d.file dir).parent = none ∧ d.filesys ≠ .fat32 then
        dirSlots d dir ≤ d.rootSectors * d.direntPerSector + labelSlots d dir
      else dirSlots d dir * 32 + (d.bpc - 1) < 2 ^ 32 := by
  have hlen := recalc_length ht rs hdir hd
  rw [recalc_dirSectors ht rs hdir hd]
  split
  · omega
  · obtain ⟨k, h9, h21, hb⟩ := hk.bpc_pow
    rw [dirClusters_holds hb h9 h21 (labelSlots_le d dir)]
    have e : dirClusters d.bpc (dirSize (dirSlots d dir)) * d.bpc =
        dirClusters d.bpc (dirSize (dirSlots d dir)) * d.spc * d.direntPerSector * 32 := by
      rw [hk.bpc, ← hk.bps_eq]
      ring
    rw [e]
    omega

/-- A request inside a directory. -/
theorem recalc_dirRequest {sector scnt : Nat} (hpos : 0 < scnt)
    (hle : sector + scnt ≤ dirSectors (recalcDrive d rs) dir) :
    DirRequest (recalcDrive d rs) sector scnt := by
  obtain ⟨hb1, hb2⟩ := sectorSizes_le hk.bps
  have hdps := hk.dirent
  have hregion : dirSectors (recalcDrive d rs) dir * d.direntPerSector < 2 ^ 31 := by
    rw [recalc_dirSectors ht rs hdir hd]
    split
    · have h1 : d.rootSectors * d.direntPerSector ≤ d.rootSectors * 128 :=
        Nat.mul_le_mul_left _ (by omega)
      have h2 := hk.rootSectors
      omega
    · have h1 : dirClusters d.bpc (dirSize (dirSlots d dir)) * d.bpc ≤ _ := Nat.div_mul_le_self _ _
      have h2 := u32_lt (dirSize (dirSlots d dir) + (d.bpc - 1))
      have e : dirClusters d.bpc (dirSize (dirSlots d dir)) * d.bpc =
          dirClusters d.bpc (dirSize (dirSlots d dir)) * d.spc * d.direntPerSector * 32 := by
        rw [hk.bpc, ← hk.bps_eq]
        ring
      omega
  have h1 : (sector + scnt) * d.direntPerSector ≤ _ := Nat.mul_le_mul_right d.direntPerSector hle
  rw [Nat.add_mul] at h1
  refine ⟨hpos, ?_, ?_, ?_⟩
  · show 2 < d.direntPerSector
    omega
  · show scnt * d.direntPerSector < 2 ^ 31
    omega
  · show sector * (d.bps / 32) < 2 ^ 31
    rw [← hdps]
    omega

/-- A directory that fits is served. -/
theorem DirFits.served (h : DirFits d dir) : DirServed (recalcDrive d rs) dir := by
  have hlen := recalc_length ht rs hdir hd
  have hlab := labelSlots_le d dir
  refine ⟨(recalc_complete_iff ht hk rs hdir hd).mpr h.slots, fun sector scnt hpos hle m p => ?_⟩
  rw [recalc_readSectorDir ht rs hdir hd hk (recalc_dirRequest ht hk rs hdir hd hpos hle)]
  congr 1
  refine overlay_congr fun j _ => ?_
  have hdps : (recalcDrive d rs).direntPerSector = d.direntPerSector := rfl
  rw [hdps]
  congr 1
  by_cases h0 : sector = 0
  · rw [h0, Nat.zero_mul, Nat.zero_sub]
  have hge : d.direntPerSector ≤ sector * d.direntPerSector := Nat.le_mul_of_pos_left _ (by omega)
  rcases h.label with h1 | h1 | h1
  · rw [h1, Nat.sub_zero]
  · -- Nothing is left behind the first sector.
    rw [slotAt, slotAt, List.getD_eq_getElem?_getD, List.getD_eq_getElem?_getD,
      List.getElem?_eq_none (by omega), List.getElem?_eq_none (by omega)]
  · have h1 : dirSectors (recalcDrive d rs) dir ≤ 1 := h1
    omega

end Result

/-! ## The last slot -/

/-- A short slot starts with its name. -/
theorem direntRecord_byte_zero (d : VdfDrive) (fil : VdfFile) (c : UInt8) (name : List UInt8) :
    (direntRecord d fil (c :: name)).byte 0 = some c := by
  have e : direntRecord d fil (c :: name) =
      [(0, c :: name)] ++ (direntRecord d fil (c :: name)).tail := rfl
  have hrest : Record.byte (direntRecord d fil (c :: name)).tail 0 = none := by
    have hoff : ∀ o ∈ (direntRecord d fil (c :: name)).tail.map Prod.fst, 0 < o := by
      unfold direntRecord
      by_cases h : d.filesys = .fat32 <;> simp [h]
    refine Record.byte_eq_none.mpr fun w hw h => ?_
    have := hoff w.1 (List.mem_map_of_mem hw)
    omega
  rw [e, Record.byte_append, hrest]
  simp [Record.byte]

/-- A short name is not empty. -/
theorem shortnameField_cons (s : List UInt8) :
    ∃ c l, shortnameField s = c :: l ∧ c ≠ 0 := by
  unfold shortnameField
  cases h : (s.takeWhile fun c => c != 0 && c != 0x2e) with
  | nil => exact ⟨0x20, _, rfl, by decide⟩
  | cons c l =>
    refine ⟨c, _, rfl, ?_⟩
    have hm : c ∈ s.takeWhile fun c => c != 0 && c != 0x2e := by rw [h]; simp
    have := List.mem_takeWhile_imp hm
    simp at this
    exact this.1

/-- The last slot of a directory with entries is the short slot of its last entry. -/
theorem dirRecords_last {d : VdfDrive} {dir : FileId} (hne : (d.file dir).entries ≠ []) :
    ∃ front fil, dirRecords d dir = front ++ [direntRecord d fil (shortnameField fil.shortname)] := by
  rcases List.eq_nil_or_concat (d.file dir).entries with h | ⟨l, f, h⟩
  · exact absurd h hne
  · refine ⟨dotRecords d dir ++ (l.flatMap fun f => slotRecords d (d.file f)) ++
      (if hasLongSlots d (d.file f) then
        longRecords (d.file f) (shortnameChecksum (d.file f).shortname) (d.file f).fentCnt else []),
      d.file f, ?_⟩
    rw [dirRecords, h]
    simp [slotRecords]

section Needed

variable {d : VdfDrive} (ht : d.IsTree) (hk : d.toGeometry.Known) (rs : List FileRange)
  {dir : FileId} (hdir : d.Below dir d.rootDir) (hd : (d.file dir).isDir = true)

include ht hk hdir hd

/-- Behind the first sector of a root with a label, the last slot is written in the place of a zero
slot. -/
theorem DirServed.fits (hroom : labelSlots d dir = 0 ∨
      dirSlots d dir ≠ dirSectors (recalcDrive d rs) dir * d.direntPerSector + 1)
    (h : DirServed (recalcDrive d rs) dir) : DirFits d dir := by
  refine ⟨(recalc_complete_iff ht hk rs hdir hd).mp h.complete, ?_⟩
  have hlen := recalc_length ht rs hdir hd
  have hcomplete : (dirRecords (recalcDrive d rs) dir).length ≤
      dirSectors (recalcDrive d rs) dir * d.direntPerSector := h.complete
  by_contra hbad
  simp only [not_or, Nat.not_le] at hbad
  obtain ⟨hlab0, hmany, hwide⟩ := hbad
  have hlab : labelSlots d dir = 1 := by have := labelSlots_le d dir; omega
  have hwide : 1 < dirSectors (recalcDrive d rs) dir := hwide
  have hslots := hroom.resolve_left hlab0
  have hfew : 0 < d.direntPerSector := by
    have := hk.bps_eq
    have := (sectorSizes_le hk.bps).1
    omega
  -- The slot behind the last one, and its sector.
  obtain ⟨k, hkl⟩ : ∃ k, k = (dirRecords (recalcDrive d rs) dir).length := ⟨_, rfl⟩
  have hklt : k < dirSectors (recalcDrive d rs) dir * d.direntPerSector := by omega
  have hsec : k / d.direntPerSector < dirSectors (recalcDrive d rs) dir :=
    Nat.div_lt_of_lt_mul (by rwa [Nat.mul_comm])
  have hpos : 0 < k / d.direntPerSector := Nat.div_pos (by omega) hfew
  have hmod := Nat.mod_lt k hfew
  have hdivmod := Nat.div_add_mod k d.direntPerSector
  rw [Nat.mul_comm] at hdivmod
  have hfirst : d.direntPerSector ≤ k / d.direntPerSector * d.direntPerSector :=
    Nat.le_mul_of_pos_left _ hpos
  have hrun := h.run (k / d.direntPerSector) 1 (by omega) (by omega) (fun _ => 0) 0
  rw [recalc_readSectorDir ht rs hdir hd hk
    (recalc_dirRequest ht hk rs hdir hd (by omega) (by omega)), Except.ok.injEq] at hrun
  have hbyte := congrFun hrun (0 + 32 * (k % d.direntPerSector))
  have hin : 32 * (k % d.direntPerSector) < 1 * d.bps := by
    rw [← hk.bps_eq]
    omega
  rw [overlay_inside _ _ hin] at hbyte
  have hin' : 32 * (k % d.direntPerSector) < 1 * (recalcDrive d rs).bps := hin
  rw [overlay_inside _ _ hin', Nat.mul_div_cancel_left _ (by decide : 0 < 32),
    Nat.mul_mod_right, hlab] at hbyte
  have hidx : k / d.direntPerSector * d.direntPerSector - 1 + k % d.direntPerSector = k - 1 := by
    omega
  have hdps : (recalcDrive d rs).direntPerSector = d.direntPerSector := rfl
  rw [hidx, hdps, hdivmod] at hbyte
  -- On the one side the last slot, on the other a zero slot.
  have hzero : slotAt (recalcDrive d rs) dir k = zeroRecord := by
    rw [slotAt, List.getD_eq_getElem?_getD, List.getElem?_eq_none (by omega)]
    rfl
  have hentries : ((recalcDrive d rs).file dir).entries ≠ [] := by
    intro hnil
    have h1 : (d.file dir).parent = none := by
      unfold labelSlots at hlab
      split at hlab
      · rename_i hp; exact hp.1
      · omega
    have h2 := length_dotRecords (recalcDrive d rs) dir
    rw [(recalc_dir ht rs hdir hd).1, if_pos h1] at h2
    rw [dirRecords, hnil] at hkl
    simp [h2] at hkl
    omega
  obtain ⟨front, fil, hlast⟩ := dirRecords_last hentries
  have hshort : slotAt (recalcDrive d rs) dir (k - 1) =
      direntRecord (recalcDrive d rs) fil (shortnameField fil.shortname) := by
    rw [slotAt, hlast]
    rw [hlast, List.length_append, List.length_singleton] at hkl
    rw [hkl, Nat.add_sub_cancel, List.getD_eq_getElem?_getD,
      List.getElem?_append_right (Nat.le_refl _), Nat.sub_self]
    rfl
  obtain ⟨c, l, hname, hc⟩ := shortnameField_cons fil.shortname
  rw [hzero, hshort, hname, direntRecord_byte_zero] at hbyte
  exact hc hbyte

end Needed

/-! ## The result -/

/-- A directory of a recalculated drive is served when it fits, and only then, but for a root with
a label whose slots fill its sectors to the last one. -/
theorem readSectorDir_served_iff (d d' : VdfDrive) (hg : d.toGeometry.Created)
    (hf : d.filesys ≠ .unset) (ht : d.IsTree) (hds : d.dataStart < 2 ^ 32) (h : Recalc d d')
    (dir : FileId) (hdir : d.Below dir d.rootDir) (hd : (d.file dir).isDir = true) :
    (DirFits d dir → DirServed d' dir) ∧
      ((labelSlots d dir = 0 ∨ dirSlots d dir ≠ dirSectors d' dir * d.direntPerSector + 1) →
        DirServed d' dir → DirFits d dir) := by
  have hk := hg.known hf
  obtain ⟨-, rs, -, rfl⟩ := (recalc_iff ht hds).mp h
  exact ⟨DirFits.served ht hk rs hdir hd, DirServed.fits ht hk rs hdir hd⟩

/-- The root of a drive with two files. -/
theorem readSectorDir_served_two : ∃ d', Recalc drive16 d' ∧ DirServed d' 0 ∧ DirFits drive16 0 := by
  obtain ⟨rs, hq⟩ := Qsort.exists_result cmpFilerange (unsortedRanges drive16)
  have h := (recalc_iff drive16_isTree drive16_inRange.dataStart).mpr
    ⟨drive16_canRecalc, rs, hq, rfl⟩
  have hiff := readSectorDir_served_iff drive16 _ geometry16_created (by decide) drive16_isTree
    drive16_inRange.dataStart h 0 (VdfDrive.Below.refl 0) drive16_isTree.root_isDir
  have hserved := hiff.1 ⟨by decide, by decide⟩
  exact ⟨_, h, hserved, hiff.2 (.inl (by decide)) hserved⟩

/-- A root with a label and sixteen empty files. -/
def driveLabel : VdfDrive :=
  flatDrive geometry16 (some [0x56]) (List.replicate 16 { virt := true })

/-- Its second sector repeats the last slot of the first. -/
theorem readSectorDir_not_served : ¬ ∀ d d' : VdfDrive, d.toGeometry.Created → d.filesys ≠ .unset →
    d.IsTree → d.dataStart < 2 ^ 32 → Recalc d d' → ∀ dir, d.Below dir d.rootDir →
    (d.file dir).isDir = true → DirServed d' dir := by
  intro hall
  have ht : driveLabel.IsTree := flatDrive_isTree _ _ _
  have hk : driveLabel.toGeometry.Known := geometry16_created.known (by decide)
  obtain ⟨rs, hq⟩ := Qsort.exists_result cmpFilerange (unsortedRanges driveLabel)
  have hserved := hall driveLabel _ geometry16_created (by decide) ht (by decide)
    ((recalc_iff ht (by decide)).mpr ⟨⟨rfl, rfl, rfl, by decide⟩, rs, hq, rfl⟩) 0
    (VdfDrive.Below.refl 0) ht.root_isDir
  have hfits := hserved.fits ht hk rs (VdfDrive.Below.refl 0) ht.root_isDir (.inr ?_)
  · have hlabel := hfits.label
    revert hlabel
    decide
  · show dirSlots driveLabel 0 ≠ 32 * 16 + 1
    decide

end Vdf
