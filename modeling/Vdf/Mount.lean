import Vdf.BootParse
import Vdf.ImageBytes
import Vdf.Listing

/-!
# Mounting a drive

What a FAT driver finds on the image of a drive: it takes the places of the volume from the boot
sector, whose signature it does not look at, follows the chains of the first FAT and parses the
directories (`mountTree`). On a recalculated drive whose names and dates a driver can read
(`MountFits`) it finds the files of the drive, each under its names, with its attributes, its date
and its content (`vdf_drive_mounts`).
-/

namespace Vdf

open Word Buffer

/-! ## The driver -/

/-- The format of a known file system. -/
def Filesys.kind : Filesys → FatKind
  | .fat12 => .fat12
  | .fat16 => .fat16
  | _ => .fat32

/-- The volume whose boot sector is at `base`. -/
def mountVolume (m : Buffer) (base : Nat) : FatVolume :=
  let b := readBpb m base
  { kind := b.filesys.kind, table := base + b.reserved * b.bps, data := base + b.dataStart * b.bps
    bpc := b.spc * b.bps, clusters := b.clusters }

/-- Its root directory. -/
def mountRoot (m : Buffer) (base : Nat) : DirPlace :=
  let b := readBpb m base
  if b.filesys = .fat32 then .chain b.rootCluster
  else .region (base + b.rootStart * b.bps) (32 * b.rootEntries)

/-- The tree of the volume, if it has less than `depth` levels. -/
def mountTree (m : Buffer) (base depth : Nat) : Option (List (FatTree EntryInfo)) :=
  (mountVolume m base).tree m parseDir depth (mountRoot m base)

/-! ## The files of a drive -/

/-- The bytes of a file: its content up to its size, and zeros where that ends before. -/
def fileBytes (d : VdfDrive) (content : FileId → List UInt8) (f : FileId) : List UInt8 :=
  (List.range (d.file f).size).map (contentByte d content f)

/-- The files of a drive. -/
def driveHierarchy (d : VdfDrive) (content : FileId → List UInt8) :
    FatVolume.Hierarchy FileId EntryInfo where
  entries dir := (d.file dir).entries
  info f := fileInfo d (d.file f)
  isDir f := hasFlag (d.file f).attr vfaDir
  bytes f := if hasFlag (d.file f).attr vfaDir then [] else fileBytes d content f

/-- The places of the drive's volume. -/
def driveVolume (d : VdfDrive) : FatVolume where
  kind := d.filesys.kind
  table := (d.mbrSectors + d.fat1Start) * d.bps
  data := (d.mbrSectors + d.dataStart) * d.bps
  bpc := d.spc * d.bps
  clusters := d.clusters

/-- The slots of the root that the boot sector tells. -/
def rootEntries (d : VdfDrive) : Nat := ofInt d.rootDirCnt % 65536

/-- The place of its root. -/
def driveRoot (d : VdfDrive) : DirPlace :=
  if d.filesys = .fat32 then .chain (d.file d.rootDir).start
  else .region ((d.mbrSectors + d.rootStart) * d.bps) (32 * rootEntries d)

/-- The drives with an image that a driver can mount. -/
structure Mounted (d : VdfDrive) (rs : List FileRange) : Prop extends Imaged d rs where
  tree : d.IsTree
  boot : ∀ r, bootRecord d = .ok r → ∀ (m : Buffer) p, (readBpb (m.store p r) p).Describes d
  clusters : d.dataClusterEnd ≤ d.clusters + 2
  holds : d.dataClusterEnd * d.filesys.entryBits ≤ d.fatSectors * d.bps * 8
  rootRoom : d.filesys ≠ .fat32 → (dirRecords d d.rootDir).length ≤ rootEntries d ∧
    32 * rootEntries d ≤ d.rootSectors * d.bps
  dirSize : ∀ f ∈ d.allFiles, (d.file f).isDir = true → (d.file f).size ≠ 0
  live : ∀ f ∈ d.allFiles, (d.file f).deleted = false
  slots : ∀ f, d.Below f d.rootDir → SlotReadable (d.file f)
  names : ∀ f, d.Below f d.rootDir → f ≠ d.rootDir → EntryReadable d (d.file f)

/-! ## Areas of an image that is shown -/

section Areas

/-- Areas that end in front of a place have no byte there. -/
theorem imageFrom_behind {bps x : Nat} {pre : List Area} (h : ∀ b ∈ pre, b.hi * bps ≤ x) (lo : Nat)
    (l : List Area) : imageFrom bps lo (pre ++ l) x =
      imageFrom bps ((pre.getLast?.map Area.hi).getD lo) l x := by
  induction pre generalizing lo with
  | nil => rfl
  | cons b pre ih =>
    rw [List.cons_append, imageFrom, if_neg (Nat.not_lt.mpr (h b (List.mem_cons_self ..))),
      ih fun c hc => h c (List.mem_cons_of_mem b hc)]
    cases pre <;> rfl

/-- A buffer that shows the image shows an area of it from sector `lo` on. -/
theorem area_shows (pre : List Area) (a : Area) (post : List Area) {img : Buffer}
    {bps N lo k : Nat} (himg : img.Shows 0 N (imageFrom bps 0 (pre ++ a :: post)))
    (hlo : (pre.getLast?.map Area.hi).getD 0 = lo) (hpre : ∀ b ∈ pre, b.hi ≤ lo)
    (hk : lo + k ≤ a.hi) (hN : (lo + k) * bps ≤ N) : img.Shows (lo * bps) (k * bps) a.byte := by
  intro j hj b hb
  rw [Nat.add_mul] at hN
  have hhi : (lo + k) * bps ≤ a.hi * bps := Nat.mul_le_mul_right _ hk
  rw [Nat.add_mul] at hhi
  have hbyte := himg (lo * bps + j) (by omega) b (by
    rw [imageFrom_behind fun c hc => Nat.le_trans (Nat.mul_le_mul_right _ (hpre c hc))
      (Nat.le_add_right ..), hlo, imageFrom, if_pos (by omega), Nat.add_sub_cancel_left]
    exact hb)
  rwa [Nat.zero_add] at hbyte

end Areas

section Volume

variable {d : VdfDrive} {rs : List FileRange} {content : FileId → List UInt8} {img : Buffer}
  (h : Mounted d rs) (himg : img.Shows 0 (d.allSectors * d.bps) (driveImage d content))

/-- The sectors of a part of the file system. -/
theorem VdfDrive.part_le (d : VdfDrive) {k : Nat} (hk : k ≤ d.sectors) :
    (d.mbrSectors + k) * d.bps ≤ d.allSectors * d.bps :=
  Nat.mul_le_mul_right _ (by unfold VdfDrive.allSectors; omega)

include h in
theorem Mounted.dataStart_le : d.dataStart ≤ d.sectors :=
  Nat.le_trans h.layout.chain.le h.inside

include h himg

/-- The boot sector. -/
theorem Mounted.boot_shows {r : Record} (hr : bootRecord d = .ok r) :
    img.Shows (d.mbrSectors * d.bps) d.bps r.byte := by
  have hk := h.known
  have hbps := sectorSizes_le hk.bps
  have hfit := h.dataStart_le
  have h1 := hk.fat1_pos
  have h2 := hk.fat2
  have h3 := hk.rootStart
  have h4 := hk.dataStart
  have hfront : ∀ b ∈ mbrAreas d, b.hi ≤ d.mbrSectors := by
    simp only [mbrAreas, List.forall_mem_cons]
    exact ⟨Nat.min_le_right .., Nat.le_refl _, List.forall_mem_nil _⟩
  have hshown : img.Shows (d.mbrSectors * d.bps) (1 * d.bps) _ :=
    area_shows (mbrAreas d) _ _ himg rfl hfront (by dsimp only; omega) (d.part_le (by omega))
  rw [Nat.one_mul] at hshown
  refine hshown.congr fun j hj => ?_
  have hsector : reservedRecord d 0 = r := by
    unfold reservedRecord
    rw [if_neg (by simp), if_neg (by simp), hr]
    rfl
  dsimp only
  rw [Nat.div_eq_of_lt hj, Nat.mod_eq_of_lt hj, hsector]

/-- The first FAT. -/
theorem Mounted.table_shows : img.Shows ((d.mbrSectors + d.fat1Start) * d.bps)
    (d.fatSectors * d.bps) fun j => some (fatByte d j) := by
  have hk := h.known
  have hfit := h.dataStart_le
  have h2 := hk.fat2
  have h3 := hk.rootStart
  have h4 := hk.dataStart
  refine area_shows (mbrAreas d ++ [⟨d.mbrSectors + d.fat1Start, _⟩])
    ⟨d.mbrSectors + d.fat2Start, _⟩ _ (by rw [List.append_assoc]; exact himg) (by simp) ?_
    (by dsimp only; omega) ?_
  · simp only [mbrAreas, List.forall_mem_append, List.forall_mem_cons]
    exact ⟨⟨by omega, Nat.le_add_right .., List.forall_mem_nil _⟩, Nat.le_refl _,
      List.forall_mem_nil _⟩
  · rw [Nat.add_assoc]
    exact d.part_le (by omega)

/-- The root directory of FAT12 and FAT16. -/
theorem Mounted.root_shows (h32 : d.filesys ≠ .fat32) :
    img.Shows ((d.mbrSectors + d.rootStart) * d.bps) (d.rootSectors * d.bps)
      (slotByte d d.rootDir) := by
  have hk := h.known
  have hfit := h.dataStart_le
  have h2 := hk.fat2
  have h3 := hk.rootStart
  have h4 := hk.dataStart
  have hend : fatEnd d = d.rootStart := if_neg h32
  refine area_shows (mbrAreas d ++ [⟨d.mbrSectors + d.fat1Start, _⟩,
    ⟨d.mbrSectors + d.fat2Start, _⟩, ⟨d.mbrSectors + fatEnd d, _⟩])
    ⟨d.mbrSectors + d.dataStart, _⟩ _ (by rw [List.append_assoc]; exact himg) (by simp [hend]) ?_
    (by dsimp only; omega) ?_
  · simp only [mbrAreas, List.forall_mem_append, List.forall_mem_cons, hend]
    exact ⟨⟨by omega, by omega, List.forall_mem_nil _⟩, by omega, by omega, by omega,
      List.forall_mem_nil _⟩
  · rw [Nat.add_assoc]
    exact d.part_le (by omega)

/-- The sectors of a file. -/
theorem Mounted.file_shows {r : FileRange} (hr : r ∈ rs) :
    img.Shows ((d.mbrSectors + r.sectstart) * d.bps) ((r.sectend - r.sectstart) * d.bps)
      (fileArea d content r).byte := by
  have hk := h.known
  have h2 := hk.fat2
  have h3 := hk.rootStart
  have h4 := hk.dataStart
  have hend := fatEnd_eq hk
  have hinside := h.inside
  have hrs : d.ranges.getD [] = rs := by rw [h.ranged.ranges]; rfl
  obtain ⟨hr1, hr2, hr3⟩ := h.layout.chain.mem hr
  obtain ⟨front, rest, e⟩ := List.append_of_mem hr
  have hchain := h.layout.chain
  rw [e, Chain.append_iff] at hchain
  obtain ⟨c, hfront, rfl, -, -⟩ := hchain
  have hareas : img.Shows 0 (d.allSectors * d.bps) (imageFrom d.bps 0
      ((mbrAreas d ++ (systemAreas d ++ front.map (fileArea d content))) ++
        fileArea d content r :: (rest.map (fileArea d content) ++ [freeArea d]))) := by
    rw [driveImage, dataAreas, hrs, e, List.map_append, List.map_cons] at himg
    simpa only [List.append_assoc, List.cons_append] using himg
  refine area_shows _ _ _ hareas ?_ ?_ (by simp only [fileArea]; omega) ?_
  · -- The range starts where the one in front of it ends.
    rw [List.getLast?_append, List.getLast?_append, List.getLast?_map]
    have hlast := hfront.last
    cases hl : front.getLast? with
    | none =>
      obtain rfl := List.getLast?_eq_none_iff.mp hl
      exact congrArg (d.mbrSectors + ·) hfront
    | some x => exact congrArg (d.mbrSectors + ·) (hlast x hl)
  · intro b hb
    rcases List.mem_append.mp hb with hb | hb
    · have hb : b.hi = min 1 d.mbrSectors ∨ b.hi = d.mbrSectors := by
        simp only [mbrAreas, List.mem_cons, List.not_mem_nil, or_false] at hb
        rcases hb with rfl | rfl
        · exact .inl rfl
        · exact .inr rfl
      omega
    rcases List.mem_append.mp hb with hb | hb
    · have hb : b.hi ≤ d.mbrSectors + d.dataStart := by
        simp only [systemAreas, List.mem_cons, List.not_mem_nil, or_false] at hb
        rcases hb with rfl | rfl | rfl | rfl <;> dsimp only <;> omega
      omega
    · obtain ⟨x, hx, rfl⟩ := List.mem_map.mp hb
      have hx := (hfront.mem hx).2.2
      show d.mbrSectors + x.sectend ≤ _
      omega
  · rw [Nat.add_assoc]
    exact d.part_le (by omega)

/-! ## The volume -/

/-- The boot sector describes the drive. -/
theorem Mounted.describes : (readBpb img (d.mbrSectors * d.bps)).Describes d ∧
    (readBpb img (d.mbrSectors * d.bps)).rootEntries =
      (if d.filesys = .fat32 then 0 else ofInt d.rootDirCnt) % 65536 := by
  obtain ⟨r, hr⟩ := bootRecord_isOk h.known.filesys
  have hbps := sectorSizes_le h.known.bps
  have hself := (h.boot_shows himg hr).store_self ((bootRecord_within hr).mono hbps.1)
  have hdesc := h.boot r hr img (d.mbrSectors * d.bps)
  have hent := (readBpb_head hr img (d.mbrSectors * d.bps)).2.2.2.1
  rw [hself] at hdesc hent
  exact ⟨hdesc, hent⟩

/-- The driver finds the places of the volume. -/
theorem Mounted.volume : mountVolume img (d.mbrSectors * d.bps) = driveVolume d ∧
    mountRoot img (d.mbrSectors * d.bps) = driveRoot d := by
  obtain ⟨hdesc, hent⟩ := h.describes himg
  refine ⟨?_, ?_⟩
  · simp only [mountVolume, driveVolume, hdesc.bps, hdesc.spc, hdesc.fat1Start, hdesc.dataStart,
      hdesc.clusters, hdesc.filesys, Nat.add_mul]
  · unfold mountRoot driveRoot
    dsimp only
    rw [hdesc.filesys]
    split
    · rename_i h32
      rw [(hdesc.rootCluster h32).1]
    · rename_i h32
      rw [hent, if_neg h32, hdesc.rootStart, hdesc.bps, Nat.add_mul]
      rfl

/-! ## Chains -/

omit himg in
/-- The table of a drive, and the marks of its format. -/
theorem Mounted.marks : ∃ eoc, (∀ c, 2 ≤ c → driveTable d c = walkEntry eoc 2 rs c) ∧
    d.filesys.kind.eoc ≤ eoc % 2 ^ d.filesys.kind.bits ∧ d.clusters + 2 ≤ d.filesys.kind.eoc ∧
    d.filesys.kind.width = d.filesys.entryBits ∧
    ∀ j, fatByte d j = d.filesys.kind.byte (driveTable d) j := by
  have hk := h.known
  have hrs : d.ranges.getD [] = rs := by rw [h.ranged.ranges]; rfl
  cases hf : d.filesys with
  | unset => exact absurd hf hk.filesys
  | fat12 =>
    have hc := hk.fat12 hf
    refine ⟨0xfff, fun c hc => ?_, by decide, ?_, rfl, fun j => ?_⟩
    · simp only [driveTable, hf, hrs, chainTable_of_two_le hc]
    · show d.clusters + 2 ≤ 0xff8
      omega
    · simp only [fatByte, hf]
      rfl
  | fat16 =>
    have hc := (hk.fat16 hf).2
    refine ⟨0xffff, fun c hc => ?_, by decide, ?_, rfl, fun j => ?_⟩
    · simp only [driveTable, hf, hrs, chainTable_of_two_le hc]
      rfl
    · show d.clusters + 2 ≤ 0xfff8
      omega
    · simp only [fatByte, hf]
      rfl
  | fat32 =>
    have hc := (hk.fat32 hf).2
    refine ⟨0xfffffff, fun c hc => ?_, by decide, ?_, rfl, fun j => ?_⟩
    · simp only [driveTable, hf, hrs, chainTable_of_two_le hc]
      rfl
    · show d.clusters + 2 ≤ 0xffffff8
      omega
    · simp only [fatByte, hf]
      rfl

/-- The clusters of a range are a run of the FAT. -/
theorem Mounted.run {r : FileRange} (hr : r ∈ rs) :
    (driveVolume d).Run img r.fatstart (r.fatend - r.fatstart) := by
  obtain ⟨eoc, htable, heoc, hmark, hwidth, hbyte⟩ := h.marks
  obtain ⟨hlow, hle, hhigh⟩ := h.chain.mem hr
  have hlt := h.nonempty r hr
  have hclusters := h.clusters
  have hbits := d.filesys.kind.eoc_lt
  have hholds := h.holds
  have hshown := (h.table_shows himg).congr fun j _ => congrArg some (hbyte j).symm
  have hentry (c : Nat) (h1 : r.fatstart ≤ c) (h2 : c < r.fatend) :
      (driveVolume d).kind.entry img (driveVolume d).table c =
        (if c + 1 = r.fatend then eoc else c + 1) % 2 ^ d.filesys.kind.bits := by
    have hfit : (c + 1) * d.filesys.kind.width ≤ d.fatSectors * d.bps * 8 := by
      rw [hwidth]
      exact Nat.le_trans (Nat.mul_le_mul_right _ (by omega)) hholds
    rw [← walkEntry_interval h.chain h.nonempty hr h1 h2, ← htable c (by omega)]
    exact d.filesys.kind.entry_shown hshown hfit
  refine ⟨by omega, hlow, ?_, fun c h1 h2 => ?_, ?_⟩
  · show r.fatstart + (r.fatend - r.fatstart) ≤ d.clusters + 2
    omega
  · rw [hentry c h1 (by omega), if_neg (by omega), Nat.mod_eq_of_lt (by omega)]
  · rw [hentry _ (by omega) (by omega), if_pos (by omega)]
    exact heoc

omit himg in
/-- The clusters of a range are its sectors. -/
theorem Mounted.place_eq {r : FileRange} (hr : r ∈ rs) :
    (driveVolume d).address r.fatstart = (d.mbrSectors + r.sectstart) * d.bps ∧
      (r.fatend - r.fatstart) * (driveVolume d).bpc = (r.sectend - r.sectstart) * d.bps := by
  obtain ⟨h1, h2⟩ := h.place r hr
  have hlow := (h.chain.mem hr).1
  have hlt := h.nonempty r hr
  constructor
  · show (d.mbrSectors + d.dataStart) * d.bps + (r.fatstart - 2) * (d.spc * d.bps) = _
    rw [← Nat.mul_assoc, ← Nat.add_mul, Nat.add_assoc, h1]
  · show (r.fatend - r.fatstart) * (d.spc * d.bps) = _
    rw [← h1, ← h2, ← Nat.mul_assoc, Nat.add_sub_add_left, ← Nat.sub_mul]
    congr 2
    omega

/-! ## Files and directories -/

omit h himg in
/-- An entry of a directory of the tree. -/
theorem VdfDrive.IsTree.entry (ht : d.IsTree) {dir f : FileId} (hdir : d.Below dir d.rootDir)
    (hf : f ∈ (d.file dir).entries) :
    d.Below f d.rootDir ∧ f ≠ d.rootDir ∧ f ∈ d.allFiles ∧ (d.file f).parent ≠ none := by
  have hc : d.Child f dir := (ht.mem_entries f dir).mp hf
  have hne : (d.file f).parent ≠ none := by
    rw [hc]
    exact Option.some_ne_none dir
  have hroot : f ≠ d.rootDir := by
    rintro rfl
    exact hne ht.root_parent
  have hb := VdfDrive.Below.step hc hdir
  exact ⟨hb, hroot, (ht.mem_allFiles f).mpr ⟨hb, fun e => absurd e hroot⟩, hne⟩

omit himg in
/-- The first cluster of an entry with a range. -/
theorem Mounted.entryCluster {r : FileRange} (hr : r ∈ rs)
    (hpar : (d.file r.file).parent ≠ none) : entryCluster d (d.file r.file) = r.fatstart := by
  obtain ⟨-, hsize, hstart, -⟩ := h.file r hr
  obtain ⟨-, hle, hhigh⟩ := h.chain.mem hr
  have hclusters := h.clusters
  obtain ⟨-, -, -, hmark, -, -⟩ := h.marks
  have hbits := d.filesys.kind.eoc_lt
  rw [Vdf.entryCluster, if_neg fun hz => hz.elim hsize fun hz => hpar hz.1, hstart]
  cases hf : d.filesys with
  | unset => exact absurd hf h.known.filesys
  | fat12 =>
    rw [if_neg (by simp), Nat.mod_eq_of_lt]
    have := h.known.fat12 hf
    omega
  | fat16 =>
    rw [if_neg (by simp), Nat.mod_eq_of_lt]
    have := h.known.fat16 hf
    omega
  | fat32 =>
    rw [if_pos rfl, Nat.mod_eq_of_lt]
    have := h.known.fat32 hf
    omega

omit himg in
/-- The slots of a directory can be read. -/
theorem Mounted.dirReadable {dir : FileId} (hdir : d.Below dir d.rootDir) : DirReadable d dir where
  entries f hf := by
    obtain ⟨hb, hne, -⟩ := h.tree.entry hdir hf
    exact h.names f hb hne
  dots parent hpar := by
    refine ⟨h.slots dir hdir, ?_⟩
    rcases Relation.ReflTransGen.cases_head hdir with rfl | ⟨p, hc, hp⟩
    · cases hpar.symm.trans h.tree.root_parent
    · obtain rfl : p = parent := Option.some.inj (hc.symm.trans hpar)
      exact h.slots p hp

/-- The driver reads the content of a file. -/
theorem Mounted.readFile {f : FileId} (hf : f ∈ d.allFiles) (hpar : (d.file f).parent ≠ none)
    (hreg : hasFlag (d.file f).attr vfaDir = false) :
    (driveVolume d).readFile img (entryOf d (d.file f)).cluster (entryOf d (d.file f)).size =
      some (fileBytes d content f) := by
  have hsize : (entryOf d (d.file f)).size = (d.file f).size := by
    rw [entryOf, hreg]
    rfl
  rw [hsize]
  by_cases h0 : (d.file f).size = 0
  · rw [fileBytes, h0, FatVolume.readFile, if_pos rfl]
    rfl
  · obtain ⟨r, hr, rfl⟩ := h.laid f hf h0
    obtain ⟨-, -, -, hmark, -, -⟩ := h.marks
    obtain ⟨haddr, hbytes⟩ := h.place_eq hr
    have hdir : (d.file r.file).isDir = false := by rw [VdfFile.isDir, hreg, Bool.and_false]
    have hfit := h.layout.size r hr hdir
    rw [← hbytes] at hfit
    rw [show (entryOf d (d.file r.file)).cluster = _ from h.entryCluster hr hpar,
      (h.run himg hr).file hmark hfit, haddr, fileBytes]
    refine congrArg some (List.map_congr_left fun j hj => ?_)
    refine h.file_shows himg hr j ?_ _ ?_
    · rw [← hbytes]
      exact Nat.lt_of_lt_of_le (List.mem_range.mp hj) hfit
    · simp only [fileArea, hdir, Bool.false_eq_true, ↓reduceIte]

omit himg in
/-- What is listed of a directory whose slots are shown at `a`. -/
theorem Mounted.parse {dir : FileId} (hdir : d.Below dir d.rootDir) {a k : Nat}
    (hlen : (dirRecords d dir).length ≤ k) (hshown : img.Shows a (32 * k) (slotByte d dir)) :
    parseDir (img.slice a (32 * k)) = (d.file dir).entries.map fun f => entryOf d (d.file f) :=
  parseDir_slice (h.dirReadable hdir) hlen hshown

/-- A directory with a range is found at its chain. -/
theorem Mounted.hasDir {r : FileRange} (hr : r ∈ rs) (hd : (d.file r.file).isDir = true)
    (hdir : d.Below r.file d.rootDir) : (driveVolume d).HasDir img parseDir
      (driveHierarchy d content) (fun f => entryOf d (d.file f)) r.file (.chain r.fatstart) := by
  obtain ⟨-, -, -, hmark, -, -⟩ := h.marks
  obtain ⟨haddr, hbytes⟩ := h.place_eq hr
  obtain ⟨hserved, hsectors⟩ := h.dirs r hr hd
  have hmul := direntPerSector_mul h.known.bps h.known.dirent
  have hlen : (r.sectend - r.sectstart) * d.bps =
      32 * ((r.sectend - r.sectstart) * d.direntPerSector) := by
    rw [← hmul]
    ring
  have hshown := h.file_shows himg hr
  simp only [fileArea, hd, ↓reduceIte] at hshown
  refine ⟨?_, fun f hf hreg => ?_⟩
  · have hcomplete := hserved.complete
    rw [hsectors] at hcomplete
    rw [hlen] at hshown
    rw [FatVolume.readDir, (h.run himg hr).bytes hmark, haddr, hbytes, hlen, Option.map_some,
      h.parse hdir hcomplete hshown]
    rfl
  · obtain ⟨-, -, hall, hpar⟩ := h.tree.entry hdir hf
    rw [h.readFile himg hall hpar hreg]
    exact congrArg some (if_neg (Bool.eq_false_iff.mp hreg)).symm

/-- The root is found where the boot sector says. -/
theorem Mounted.hasRoot : (driveVolume d).HasDir img parseDir (driveHierarchy d content)
    (fun f => entryOf d (d.file f)) d.rootDir (driveRoot d) := by
  by_cases h32 : d.filesys = .fat32
  · have hmem : d.rootDir ∈ d.allFiles := (h.tree.mem_allFiles _).mpr ⟨.refl _, fun _ => h32⟩
    obtain ⟨r, hr, e⟩ := h.laid _ hmem (h.dirSize _ hmem h.tree.root_isDir)
    obtain ⟨-, -, hstart, -⟩ := h.file r hr
    have hroot := h.hasDir himg hr (by rw [e]; exact h.tree.root_isDir) (by rw [e]; exact .refl _)
    rw [driveRoot, if_pos h32, ← e, hstart]
    exact hroot
  · obtain ⟨hlen, hfit⟩ := h.rootRoom h32
    refine ⟨?_, fun f hf hreg => ?_⟩
    · rw [driveRoot, if_neg h32, FatVolume.readDir, Option.map_some,
        h.parse (.refl _) hlen ((h.root_shows himg h32).take hfit)]
      rfl
    · obtain ⟨-, -, hall, hpar⟩ := h.tree.entry (.refl _) hf
      rw [h.readFile himg hall hpar hreg]
      exact congrArg some (if_neg (Bool.eq_false_iff.mp hreg)).symm

/-- A directory that is an entry is found where the entry says. -/
theorem Mounted.hasEntry {dir f : FileId} (hdir : d.Below dir d.rootDir)
    (hf : f ∈ (d.file dir).entries) (hd : hasFlag (d.file f).attr vfaDir = true) :
    d.Below f d.rootDir ∧ (driveVolume d).HasDir img parseDir (driveHierarchy d content)
      (fun f => entryOf d (d.file f)) f (.chain (entryOf d (d.file f)).cluster) := by
  obtain ⟨hb, -, hall, hpar⟩ := h.tree.entry hdir hf
  have hisDir : (d.file f).isDir = true := by
    rw [VdfFile.isDir, h.live f hall]
    exact hd
  obtain ⟨r, hr, rfl⟩ := h.laid f hall (h.dirSize f hall hisDir)
  refine ⟨hb, ?_⟩
  rw [show (entryOf d (d.file r.file)).cluster = _ from h.entryCluster hr hpar]
  exact h.hasDir himg hr hisDir hb

/-- The driver finds the tree of the drive. -/
theorem Mounted.tree_found : ∃ levels, ∀ depth, levels ≤ depth → ∃ ts,
    mountTree img (d.mbrSectors * d.bps) depth = some ts ∧
      List.Forall₂ (driveHierarchy d content).Denotes (d.file d.rootDir).entries ts := by
  obtain ⟨rank, hrank⟩ := h.tree.acyclic
  obtain ⟨hvolume, hroot⟩ := h.volume himg
  refine ⟨rank d.rootDir + 1, fun depth hdepth => ?_⟩
  rw [mountTree, hvolume, hroot]
  exact FatVolume.tree_denotes (P := fun dir => d.Below dir d.rootDir) (fun _ => ⟨rfl, rfl⟩)
    (fun dir _ f hf => hrank f dir ((h.tree.mem_entries f dir).mp hf))
    (fun dir hdir f hf hd => h.hasEntry himg hdir hf hd) depth (.refl _) (h.hasRoot himg) hdepth

end Volume

/-! ## Images that are read -/

/-- Every byte of the image was read by some request in the drive, whichever that is. -/
def ReadsOff (env : Readers) (d : VdfDrive) (img : Buffer) : Prop :=
  ∀ x < d.allSectors * d.bps, ∃ s n m p m' calls, s < 2 ^ 32 ∧ n < 2 ^ 31 ∧ s + n ≤ d.allSectors ∧
    s * d.bps ≤ x ∧ x < (s + n) * d.bps ∧
    vdfReadSectors env d s n m p = .ok ((n : Int), m', calls) ∧ img x = m' (p + (x - s * d.bps))

/-- What was read shows the image of the drive. -/
theorem Imaged.readsOff_shows {d : VdfDrive} {rs : List FileRange} (h : Imaged d rs)
    {env : Readers} {content : FileId → List UInt8} (hE : env.Steady content) {img : Buffer}
    (himg : ReadsOff env d img) : img.Shows 0 (d.allSectors * d.bps) (driveImage d content) := by
  intro x hx b hb
  obtain ⟨s, n, m, p, m', calls, hs, hn, hin, hle, hlt, hrun, hbyte⟩ := himg x hx
  have hshowing :=
    h.showing hE (E := fun _ => True) (fun _ _ _ _ _ => trivial) s n m p hs hn hin
  rw [driveReader, hrun] at hshowing
  obtain ⟨-, hshows, -⟩ := hshowing
  rw [Nat.add_mul] at hlt
  rw [Nat.zero_add, hbyte]
  exact hshows _ (by omega) b (by dsimp only; rwa [Nat.add_sub_cancel' hle])

/-- Single sectors read all of it off, when none leaves the array. -/
theorem Imaged.exists_readsOff {d : VdfDrive} {rs : List FileRange} (h : Imaged d rs)
    {env : Readers} {content : FileId → List UInt8} (hE : env.Steady content)
    (hall : d.allSectors ≤ 2 ^ 32) (hfats : ∀ s, FatsStay d rs s 1) :
    ∃ img, ReadsOff env d img := by
  have hbps := sectorSizes_le h.known.bps
  refine ⟨fun x => (driveImage d content x).getD 0, fun x hx => ?_⟩
  have hs : x / d.bps < d.allSectors := Nat.div_lt_of_lt_mul (by rwa [Nat.mul_comm])
  obtain ⟨calls, hrun⟩ := h.reads hE (by omega) (by decide) hs (hfats (x / d.bps)) (fun _ => 0) 0
  have hle := Nat.div_mul_le_self x d.bps
  have hlt : x < (x / d.bps + 1) * d.bps := Nat.lt_mul_of_div_lt (Nat.lt_succ_self _) (by omega)
  refine ⟨_, 1, _, 0, _, calls, by omega, by decide, hs, hle, hlt, hrun, ?_⟩
  rw [Nat.add_mul] at hlt
  rw [Buffer.overlay_inside _ _ (by omega), Nat.add_sub_cancel' hle]

/-! ## The result -/

/-- A driver can read the names and the date: the short name is an 8.3 name that does not look
deleted, a long one has at most 255 characters of seven bits, and the date is one that FAT can
store. -/
structure NameReadable (d : VdfDrive) (fil : VdfFile) : Prop where
  first : (shortnameField fil.shortname).head? ≠ some 0xe5
  short : DosName fil.shortname
  ended : 0 ∉ fil.shortname
  date : InStampRange fil.date
  long : hasLongSlots d fil = true →
    1 ≤ fil.name.length ∧ fil.name.length ≤ 255 ∧ ∀ c ∈ fil.name, 0 < c ∧ c < 0x80

/-- The drives that a driver can mount when they are recalculated: they have an image, the boot
sector describes them, the FAT has an entry for each cluster that is used and the root has room, no
file is deleted or a label, and the names and dates can be read. -/
structure MountFits (d : VdfDrive) : Prop extends ImageFits d where
  boot : BootFits d
  holds : (2 + totalUsed d) * d.filesys.entryBits ≤ d.fatSectors * d.bps * 8
  rootRoom : d.filesys ≠ .fat32 →
    dirSlots d d.rootDir ≤ rootEntries d + labelSlots d d.rootDir
  live : ∀ f ∈ d.allFiles, (d.file f).deleted = false
  attr : ∀ f, d.Below f d.rootDir → hasFlag (d.file f).attr vfaVollabel = false
  names : ∀ f, d.Below f d.rootDir → f ≠ d.rootDir → NameReadable d (d.file f)

section Recalc

variable {d : VdfDrive} (hg : d.toGeometry.Created) (hf : d.filesys ≠ .unset) (ht : d.IsTree)
  (hr : d.InRange) (hfits : MountFits d) {rs : List FileRange}

include ht hfits

/-- A directory of `all_files` has a size. -/
theorem MountFits.dirSize_ne_zero {f : FileId} (hm : f ∈ d.allFiles)
    (hd : (d.file f).isDir = true) : dirSize (dirSlots d f) ≠ 0 := by
  obtain ⟨hb, hroot⟩ := (ht.mem_allFiles f).mp hm
  rcases Relation.ReflTransGen.cases_head hb with rfl | ⟨p, hc, -⟩
  · exact (hfits.boot.root (hroot rfl)).1
  · have hpar : (d.file f).parent ≠ none := by
      rw [show (d.file f).parent = some p from hc]
      exact Option.some_ne_none p
    have hslots := (hfits.slots f hb hd).slots
    rw [if_neg fun h => hpar h.1] at hslots
    have hdots : 2 ≤ dirSlots d f := by
      rw [dirSlots, reservedSlots, if_neg hpar]
      exact Nat.le_add_right ..
    rw [dirSize, u32_of_lt (by omega)]
    omega

include hr

/-- The slots of a file can be read when its name can. -/
theorem MountFits.slotReadable (hrel : Relaid d (recalcDrive d rs)) {f : FileId}
    (hb : d.Below f d.rootDir) : SlotReadable ((recalcDrive d rs).file f) where
  attr := by rw [hrel.attr]; exact hfits.attr f hb
  size := by
    obtain ⟨_, _, _, _, _, e⟩ := recalcFile_numbered ht hb
    rw [show (recalcDrive d rs).file f = _ from e]
    exact numbered_size_lt hr f

theorem MountFits.entryReadable (hrel : Relaid d (recalcDrive d rs)) {f : FileId}
    (hb : d.Below f d.rootDir) (hne : f ≠ d.rootDir) :
    EntryReadable (recalcDrive d rs) ((recalcDrive d rs).file f) where
  toSlotReadable := hfits.slotReadable ht hr hrel hb
  first := by rw [hrel.shortname]; exact (hfits.names f hb hne).first
  short := by rw [hrel.shortname]; exact (hfits.names f hb hne).short
  ended := by rw [hrel.shortname]; exact (hfits.names f hb hne).ended
  date := by rw [hrel.date]; exact (hfits.names f hb hne).date
  long hlong := by
    obtain ⟨p, hc, hp⟩ := (Relation.ReflTransGen.cases_head hb).resolve_left hne
    have hfents := (recalc_entry ht rs hp ((ht.mem_entries f p).mpr hc)).2.1
    have hlong' : hasLongSlots d (d.file f) = true := by
      rw [hasLongSlots, hrel.longname] at hlong
      exact hlong
    obtain ⟨h1, h2, h3⟩ := (hfits.names f hb hne).long hlong'
    obtain ⟨hflag, hname⟩ := (Bool.and_eq_true _ _).mp hlong'
    refine ⟨hlong, ?_, by rwa [hrel.name], by rwa [hrel.name], by rwa [hrel.name]⟩
    rw [hfents, hrel.name, fentsNeeded, hflag, hname]
    rfl

include hg hf

/-- A recalculated drive that fits can be mounted. -/
theorem MountFits.mounted (hcnt : d.allFiles.length ≤ d.fileCnt)
    (hq : Qsort.Result cmpFilerange (unsortedRanges d) rs) (hcan : CanRecalc d) :
    Mounted (recalcDrive d rs) rs := by
  obtain ⟨-, qsort, fuel, -, hrun⟩ := (recalc_iff ht hr.dataStart).mpr ⟨hcan, rs, hq, rfl⟩
  have hrel : Relaid d (recalcDrive d rs) := vdfDriveRecalc_relaid hrun
  have hboot := hfits.boot
  have hroot (h32 : d.filesys ≠ .fat32) :
      32 * rootEntries d ≤ d.rootSectors * d.bps := by
    have hbps := sectorSizes_le (hg.known hf).bps
    rw [hg.rootSectors hf h32, ← hboot.rootDir h32, Nat.mul_comm 32]
    exact le_ceilDiv_mul (by omega)
  refine
    { toImaged := hfits.toImageFits.imaged hg hf ht hr hcnt hq hcan, tree := hrel.isTree ht
      boot := fun r hrec m p => (describes_iff hrec m p hg hf).mpr ⟨hboot.spc, hboot.sectors,
        hboot.rootDir, fun _ => Nat.le_trans (Nat.le_add_right ..) hfits.sectors, fun h32 => ?_⟩
      clusters := ?_, holds := ?_, rootRoom := fun h32 => ⟨?_, hroot h32⟩
      dirSize := fun f hm hd => ?_, live := fun f hm => (hrel.fileDeleted f).trans (hfits.live f hm)
      slots := fun f hb => ?_, names := fun f hb hne => ?_ }
  · obtain ⟨h1, h2⟩ := hboot.root h32
    have hstart : ((recalcDrive d rs).file d.rootDir).start = _ := recalc_root_start ht h32 rs
    rw [if_neg h1] at hstart
    rw [show (recalcDrive d rs).rootDir = d.rootDir from rfl, hstart]
    exact ⟨h2, u32_lt _⟩
  · have hle := u32_le (2 + totalUsed d)
    have hclusters := hfits.clusters.1
    show u32 (2 + totalUsed d) ≤ d.clusters + 2
    omega
  · exact Nat.le_trans (Nat.mul_le_mul_right _ (u32_le _)) hfits.holds
  · have hlen := recalc_length ht rs (.refl _) ht.root_isDir
    have hroom := hfits.rootRoom h32
    show (dirRecords (recalcDrive d rs) d.rootDir).length ≤ rootEntries d
    omega
  · have hm : f ∈ d.allFiles := hm
    rw [hrel.isDir] at hd
    have hsize := hfits.dirSize_ne_zero ht hm hd
    rw [show (recalcDrive d rs).file f = recalcFile d f from rfl, recalcFile_mem hm,
      (laidOut_static _ _ _).1, (numbered_sized d f).1, sized, if_pos hd]
    exact hsize
  · rw [hrel.below] at hb
    exact hfits.slotReadable ht hr hrel hb
  · rw [hrel.below] at hb
    exact hfits.entryReadable ht hr hrel hb hne

/-- A recalculated drive that fits is one that a driver can mount. -/
theorem MountFits.recalculated (hcnt : d.allFiles.length ≤ d.fileCnt) {d' : VdfDrive}
    (h : Recalc d d') :
    ∃ rs, Mounted d' rs ∧ Relaid d d' := by
  obtain ⟨hcan, rs, hq, rfl⟩ := (recalc_iff ht hr.dataStart).mp h
  obtain ⟨-, qsort, fuel, -, hrun⟩ := h
  exact ⟨rs, hfits.mounted hg hf ht hr hcnt hq hcan, vdfDriveRecalc_relaid hrun⟩

end Recalc

/-- A recalculation leaves the hierarchy alone. -/
theorem Relaid.driveHierarchy {d d' : VdfDrive} (h : Relaid d d') (ht : d.IsTree)
    (content : FileId → List UInt8) : driveHierarchy d' content = driveHierarchy d content := by
  have hlong (f : FileId) : hasLongSlots d' (d'.file f) = hasLongSlots d (d.file f) := by
    rw [hasLongSlots, hasLongSlots, h.longname, h.geometry]
  have hinfo (f : FileId) : fileInfo d' (d'.file f) = fileInfo d (d.file f) := by
    simp only [fileInfo, hlong, h.attr, h.name, h.shortname, h.date]
  have hbytes (f : FileId) (hd : ¬ hasFlag (d.file f).attr vfaDir = true) :
      fileBytes d' content f = fileBytes d content f := by
    have hreg : (d.file f).isDir = false := by
      rw [VdfFile.isDir, Bool.eq_false_iff.mpr hd, Bool.and_false]
    have hroot : f ≠ d.rootDir := by
      rintro rfl
      exact absurd (ht.root_isDir.symm.trans hreg) (by simp)
    have hsize := (h.size f hreg hroot).1
    unfold fileBytes contentByte
    rw [hsize]
  simp only [Vdf.driveHierarchy, h.entries, h.attr, hinfo]
  congr 1
  funext f
  split
  · rfl
  · exact hbytes f ‹_›

/-- A FAT driver that mounts what was read from a recalculated drive finds the files of the drive:
the tree below the root, each file under its name, with its attributes, dates and bytes. -/
theorem vdf_drive_mounts (d d' : VdfDrive) (hg : d.toGeometry.Created) (hf : d.filesys ≠ .unset)
    (ht : d.IsTree) (hr : d.InRange) (hcnt : d.allFiles.length ≤ d.fileCnt) (hfits : MountFits d)
    (h : Recalc d d') {env : Readers} {content : FileId → List UInt8} (hE : env.Steady content)
    (img : Buffer) (himg : ReadsOff env d' img) :
    ∃ levels, ∀ depth, levels ≤ depth → ∃ ts,
      mountTree img (d'.mbrSectors * d'.bps) depth = some ts ∧
        List.Forall₂ (driveHierarchy d content).Denotes (d.file d.rootDir).entries ts := by
  obtain ⟨rs, hmounted, hrel⟩ := hfits.recalculated hg hf ht hr hcnt h
  have htree := hmounted.tree_found (hmounted.readsOff_shows hE himg)
  rw [hrel.driveHierarchy ht, hrel.rootDir, hrel.entries] at htree
  exact htree

/-- A FAT16 drive with long names. -/
def geometryVfat : Geometry := { geometry16 with flags := geometry16.flags ||| vdfVfat }

theorem geometryVfat_created : geometryVfat.Created :=
  ⟨262217 * 512, geometry16.flags ||| vdfVfat, ⟨0, 512, 64, 512⟩, ⟨0, 0, 0, 0⟩, by decide⟩

/-- A file with a long name, `read me.txt`, and an empty directory `D`. -/
def driveTree : VdfDrive :=
  flatDrive geometryVfat none
    [{ name := [0x72, 0x65, 0x61, 0x64, 0x20, 0x6d, 0x65, 0x2e, 0x74, 0x78, 0x74]
       shortname := [0x52, 0x45, 0x41, 0x44, 0x4d, 0x45, 0x2e, 0x54, 0x58, 0x54]
       longname := true, size := 1000, clusters := 1, virt := true, date := 1000000001 },
      { name := [0x44], shortname := [0x44], attr := vfaDir, virt := true, date := 1000000001 }]

theorem driveTree_below {f : FileId} (hb : driveTree.Below f driveTree.rootDir) :
    f = 0 ∨ f ∈ List.range' 1 2 := by
  rcases Relation.ReflTransGen.cases_head hb with rfl | ⟨p, hc, -⟩
  · exact .inl rfl
  · exact .inr (flatDrive_child.mp hc).2

theorem driveTree_fits : MountFits driveTree where
  sectors := by decide
  clusters := by decide
  span := by decide
  empties := by decide
  dirs := by decide
  nonempty := by decide
  size := by decide
  slots dir hb hd := by
    rcases driveTree_below hb with rfl | hm
    · exact ⟨by decide, by decide⟩
    · rcases List.mem_cons.mp hm with rfl | hm
      · cases hd
      · obtain rfl := List.mem_singleton.mp hm
        exact ⟨by decide, by decide⟩
  halves h12 := by cases h12
  room h12 := by cases h12
  boot := { filesys := by decide, spc := by decide, sectors := by decide, rootDir := by decide
            room := by decide, root := by decide }
  holds := by decide
  rootRoom _ := by decide
  live := by decide
  attr f hb := by
    rcases driveTree_below hb with rfl | hm
    · rfl
    · exact (by decide : ∀ f ∈ List.range' 1 2,
        hasFlag (driveTree.file f).attr vfaVollabel = false) f hm
  names f hb hne := by
    rcases driveTree_below hb with rfl | hm
    · exact absurd rfl hne
    · obtain ⟨h1, h2, h3, h4⟩ := (by decide +kernel : ∀ f ∈ List.range' 1 2,
        (shortnameField (driveTree.file f).shortname).head? ≠ some 0xe5 ∧
          DosName (driveTree.file f).shortname ∧ 0 ∉ (driveTree.file f).shortname ∧
          InStampRange (driveTree.file f).date) f hm
      refine ⟨h1, h2, h3, h4, fun hlong => ?_⟩
      rcases List.mem_cons.mp hm with rfl | hm
      · exact ⟨by decide, by decide, by decide +kernel⟩
      · obtain rfl := List.mem_singleton.mp hm
        exact absurd hlong (by decide)

theorem driveTree_isTree : driveTree.IsTree := flatDrive_isTree _ _ _

theorem driveTree_inRange : driveTree.InRange :=
  flatDrive_inRange (by decide) (by decide) (by decide)

/-- Its recalculation, in which no request leaves the array. -/
theorem driveTree_recalc : ∃ rs, Recalc driveTree (recalcDrive driveTree rs) ∧
    Mounted (recalcDrive driveTree rs) rs ∧ ∀ s n, FatsStay (recalcDrive driveTree rs) rs s n := by
  have hcan : CanRecalc driveTree := ⟨rfl, rfl, rfl, by decide⟩
  obtain ⟨rs, hq⟩ := Qsort.exists_result cmpFilerange (unsortedRanges driveTree)
  have hlen : rs.length = 2 := hq.perm.length_eq.trans (by decide)
  have hfat (sector scnt : Nat) : FatStays (recalcDrive driveTree rs) rs sector scnt :=
    .inr (.inl hlen.symm)
  exact ⟨rs, (recalc_iff driveTree_isTree driveTree_inRange.dataStart).mpr ⟨hcan, rs, hq, rfl⟩,
    driveTree_fits.mounted geometryVfat_created (by decide) driveTree_isTree driveTree_inRange
      (by decide) hq hcan, fun s n => ⟨fun _ => hfat _ _, fun _ => hfat _ _⟩⟩

/-- The drive with a long name and a directory is mounted. -/
theorem vdf_drive_mounts_two : ∃ d' img depth ts, Recalc driveTree d' ∧
    mountTree img (d'.mbrSectors * d'.bps) depth = some ts ∧
      List.Forall₂ (driveHierarchy driveTree fun _ => [0x48, 0x69]).Denotes
        (driveTree.file driveTree.rootDir).entries ts := by
  have hE := contentReaders_steady fun _ => [0x48, 0x69]
  obtain ⟨rs, h, hmounted, hfats⟩ := driveTree_recalc
  obtain ⟨img, himg⟩ := hmounted.exists_readsOff hE (show 262217 ≤ 2 ^ 32 by decide)
    fun s => hfats s 1
  obtain ⟨levels, htree⟩ := vdf_drive_mounts driveTree _ geometryVfat_created (by decide)
    driveTree_isTree driveTree_inRange (by decide) driveTree_fits h hE img himg
  obtain ⟨ts, hts⟩ := htree levels (Nat.le_refl _)
  exact ⟨_, img, levels, ts, h, hts⟩

end Vdf
