import Vdf.BootLabel
import Vdf.Image

/-!
# The bytes that a record leaves out

A sector that is stored as a packed record keeps what the buffer held where no field is assigned:
behind the 512 bytes of a boot sector when the sectors are larger, in the fields of a branch that
is not taken (`BootFull`), and in `create_date` of a short slot on FAT12 and FAT16. A request of
`read_sector_dir` leaves none out iff all its used slots are long-name slots (`LongSlotsOnly`).
-/

namespace Vdf

open Word Buffer

/-! ## The reserved sectors and the master boot record -/

section Boot

variable {d : VdfDrive}

/-- The boot sector leaves no byte of its 512 out: on FAT16 the 32-bit count is assigned to drives of
`0x10000` sectors on, and a label of FAT16 and FAT32 fills its field with at most one space. -/
structure BootFull (d : VdfDrive) : Prop where
  sectors : d.filesys = .fat16 → 0x10000 ≤ d.sectors
  label : d.filesys ≠ .fat12 → ∀ l ∈ d.label, labelSpaces l ≤ 1

theorem BootFull.of_fat32 (h32 : d.filesys = .fat32)
    (h : ∀ l ∈ d.label, 11 ≤ (labelBytes l).length) : BootFull d := by
  refine ⟨fun h16 => absurd (h32.symm.trans h16) (by decide), fun _ l hl => ?_⟩
  have hlen := labelBytes_length_eq l
  have := h l hl
  omega

/-- A reserved sector leaves no byte out. -/
def ReservedFull (d : VdfDrive) (sector : Nat) : Prop :=
  (d.filesys = .fat32 ∧ sector = 1 → d.bps = 512) ∧
    (IsBootSector d sector → d.bps = 512 ∧ BootFull d)

theorem fsinfoRecord_covers (d : VdfDrive) : (fsinfoRecord d).Covers 512 := by
  intro j hj hnone
  rw [Record.byte_eq_none] at hnone
  simp only [fsinfoRecord, List.forall_mem_cons, length_le, List.length_replicate] at hnone
  omega

theorem mbrRecord_covers (hf : d.filesys ≠ .unset) : (mbrRecord d).Covers 512 := by
  intro j hj hnone
  rw [Record.byte_eq_none, mbrRecord, List.forall_mem_append, List.forall_mem_append] at hnone
  obtain ⟨⟨h1, h2⟩, h3⟩ := hnone
  have htype : j ≠ 450 := by
    rintro rfl
    revert h2
    cases hd : d.filesys with
    | unset => exact absurd hd hf
    | fat12 | fat16 | fat32 => simp [partType]
  simp only [List.forall_mem_cons, length_le, List.length_cons, List.length_nil,
    List.length_replicate] at h1 h3
  omega

/-- A FAT16 drive has sectors. -/
theorem sectors_pos16 (hk : d.toGeometry.Known) (h16 : d.filesys = .fat16) : 0 < d.sectors := by
  have h := (hk.fat16 h16).2
  have h1 := hk.clusters
  have h2 := (clusterSectors_le hk.spc).2
  have h3 := hk.fat1_le
  have h4 := hk.fat2
  have h5 := hk.fatSectors
  have h6 := hk.rootStart
  have h7 := hk.dataStart
  have h8 := hk.rootSectors
  by_contra h0
  have h0 : d.sectors = 0 := by omega
  have hpos : 0 < d.dataStart := by
    have := hk.fat1_pos
    omega
  rw [h0, subU32_of_lt (by omega) hpos] at h1
  have hle : 65525 * d.spc ≤ 65525 * 512 := Nat.mul_le_mul_left _ h2
  have hlt : (2 ^ 32 + 0 - d.dataStart) / d.spc < 65525 := by omega
  rw [Nat.div_lt_iff_lt_mul (clusterSectors_le hk.spc).1] at hlt
  omega

/-- The common fields end with the label, which fills its field under the condition. -/
theorem bootCommonRecord_label (d : VdfDrive) : ∃ l, (∀ o, bootCommonRecord d o =
      [(o, [0x80]), (o + 1, [0]), (o + 2, [0x29]), (o + 3, le 4 d.serial), (o + 7, l)]) ∧
    (11 ≤ l.length ↔ ∀ x ∈ d.label, labelSpaces x ≤ 1) := by
  cases hd : d.label with
  | none =>
    refine ⟨List.replicate 11 0x20, fun o => by rw [bootCommonRecord, hd], ?_⟩
    exact iff_of_true (Nat.le_of_eq List.length_replicate.symm) fun x hx => by cases hx
  | some label =>
    refine ⟨labelBytes label, fun o => by rw [bootCommonRecord, hd], ?_⟩
    have hlen := labelBytes_length_eq label
    simp only [Option.mem_def, Option.some.injEq, forall_eq']
    omega

/-- The fields around the union leave no byte out but its own. -/
theorem bootRecord_covers {u : Record} :
    Record.Covers (bootHeadRecord d ++ u ++ [(510, [0xaa]), (511, [0x55])]) 512 ↔
      ∀ j, 28 ≤ j → j < 510 → u.byte j ≠ none := by
  have hbyte (j : Nat) : Record.byte (bootHeadRecord d ++ u ++ [(510, [0xaa]), (511, [0x55])]) j =
      none ↔ 28 ≤ j ∧ u.byte j = none ∧ j ≠ 510 ∧ j ≠ 511 := by
    rw [Record.byte_eq_none, Record.byte_eq_none, List.append_assoc, List.forall_mem_append,
      List.forall_mem_append]
    simp only [bootHeadRecord, List.forall_mem_cons, length_le, List.length_cons, List.length_nil,
      List.not_mem_nil, false_imp_iff, implies_true, and_true]
    constructor
    · rintro ⟨hhead, hunion, hmagic⟩
      exact ⟨by omega, hunion, by omega, by omega⟩
    · rintro ⟨hhead, hunion, hmagic⟩
      exact ⟨by omega, hunion, by omega⟩
  simp only [Record.Covers, Ne, hbyte]
  exact ⟨fun h j h1 h2 hn => h j (by omega) ⟨h1, hn, by omega, by omega⟩,
    fun h j hj hn => h j hn.1 (by omega) hn.2.1⟩

section Union

variable {u : Record} (hu : bootUnionRecord d = some u)

include hu

theorem bootUnion_covers12 (hf : d.filesys = .fat12) : ∀ j, 28 ≤ j → j < 510 → u.byte j ≠ none := by
  rw [bootUnionRecord, hf] at hu
  obtain rfl := Option.some.inj hu
  intro j h1 h2
  rw [Ne, Record.byte_eq_none]
  simp only [List.forall_mem_cons, length_le, List.length_replicate]
  omega

theorem bootUnion_covers16 (hpos : 0 < d.sectors) (hf : d.filesys = .fat16) :
    (∀ j, 28 ≤ j → j < 510 → u.byte j ≠ none) ↔
      0x10000 ≤ d.sectors ∧ ∀ x ∈ d.label, labelSpaces x ≤ 1 := by
  obtain ⟨l, hcommon, hlabel⟩ := bootCommonRecord_label d
  have hcnt : bootSectorCnt d = 0 ↔ 0x10000 ≤ d.sectors := by
    rw [bootSectorCnt, hf, if_neg (by decide)]
    split <;> omega
  rw [bootUnionRecord, hf] at hu
  obtain rfl := Option.some.inj hu
  simp only [hcommon, Ne, Record.byte_eq_none]
  rw [← hlabel]
  constructor
  · intro hcov
    constructor
    · by_contra hlt
      refine hcov 32 (by omega) (by omega) ?_
      rw [if_neg (mt hcnt.mp hlt)]
      simp only [List.append_nil, List.append_assoc, List.forall_mem_append, List.forall_mem_cons,
        length_le, List.length_replicate, List.length_cons, List.length_nil, List.not_mem_nil,
        false_imp_iff, implies_true, and_true]
      omega
    · by_contra hlt
      refine hcov 53 (by omega) (by omega) ?_
      split <;>
      · simp only [List.append_nil, List.append_assoc, List.forall_mem_append,
          List.forall_mem_cons, length_le, List.length_replicate, List.length_cons,
          List.length_nil, List.not_mem_nil, false_imp_iff, implies_true, and_true]
        omega
  · rintro ⟨hsec, hl⟩ j h1 h2
    rw [if_pos (hcnt.mpr hsec)]
    simp only [List.append_assoc, List.forall_mem_append, List.forall_mem_cons, length_le,
      List.length_replicate, List.length_cons, List.length_nil]
    omega

theorem bootUnion_covers32 (hf : d.filesys = .fat32) :
    (∀ j, 28 ≤ j → j < 510 → u.byte j ≠ none) ↔ ∀ x ∈ d.label, labelSpaces x ≤ 1 := by
  obtain ⟨l, hcommon, hlabel⟩ := bootCommonRecord_label d
  rw [bootUnionRecord, hf] at hu
  obtain rfl := Option.some.inj hu
  simp only [hcommon, Ne, Record.byte_eq_none]
  rw [← hlabel]
  constructor
  · intro hcov
    by_contra hlt
    refine hcov 81 (by omega) (by omega) ?_
    simp only [List.append_assoc, List.forall_mem_append, List.forall_mem_cons, length_le,
      List.length_replicate, List.length_cons, List.length_nil, List.not_mem_nil, false_imp_iff,
      implies_true, and_true]
    omega
  · intro hl j h1 h2
    simp only [List.append_assoc, List.forall_mem_append, List.forall_mem_cons, length_le,
      List.length_replicate, List.length_cons, List.length_nil]
    omega

end Union

/-- The boot sector has all of its 512 bytes under the condition, and only then. -/
theorem bootRecord_covers_iff (hk : d.toGeometry.Known) {r : Record} (h : bootRecord d = .ok r) :
    r.Covers 512 ↔ BootFull d := by
  obtain ⟨u, hu, rfl⟩ := bootRecord_eq h
  rw [bootRecord_covers]
  cases hf : d.filesys with
  | unset => exact absurd hf hk.filesys
  | fat12 =>
    exact iff_of_true (bootUnion_covers12 hu hf)
      ⟨fun h => absurd (hf.symm.trans h) (by decide), fun h => absurd hf h⟩
  | fat16 =>
    rw [bootUnion_covers16 hu (sectors_pos16 hk hf) hf]
    exact ⟨fun h => ⟨fun _ => h.1, fun _ => h.2⟩,
      fun h => ⟨h.sectors hf, h.label (by rw [hf]; decide)⟩⟩
  | fat32 =>
    rw [bootUnion_covers32 hu hf]
    exact ⟨fun h => ⟨fun h' => absurd (hf.symm.trans h') (by decide), fun _ => h⟩,
      fun h => h.label (by rw [hf]; decide)⟩

/-- A reserved sector has all its bytes under the condition, and only then. -/
theorem reservedRecord_covers_iff (hk : d.toGeometry.Known) (sector : Nat) :
    (reservedRecord d sector).Covers d.bps ↔ ReservedFull d sector := by
  have hb := (sectorSizes_le hk.bps).1
  unfold reservedRecord ReservedFull IsBootSector
  by_cases hinfo : d.filesys = .fat32 ∧ sector = 1
  · rw [if_pos hinfo, (fsinfoRecord_within d).covers_iff hb]
    constructor
    · exact fun h => ⟨fun _ => h.1, fun hboot => by omega⟩
    · exact fun h => ⟨h.1 hinfo, fsinfoRecord_covers d⟩
  · rw [if_neg hinfo]
    by_cases hboot : sector = 0 ∨ d.filesys = .fat32 ∧ sector = 6
    · obtain ⟨r, hr⟩ := bootRecord_isOk hk.filesys
      rw [if_neg (by tauto), hr]
      show r.Covers d.bps ↔ _
      rw [(bootRecord_within hr).covers_iff hb, bootRecord_covers_iff hk hr]
      exact ⟨fun h => ⟨fun h' => absurd h' hinfo, fun _ => h⟩, fun h => h.2 hboot⟩
    · rw [if_pos (by tauto)]
      exact iff_of_true (Record.covers_zero _) ⟨fun h => absurd h hinfo, fun h => absurd h hboot⟩

/-- A run of the reserved sectors. -/
theorem reserved_ne_none_iff (hk : d.toGeometry.Known) (sector scnt : Nat) :
    (∀ j < scnt * d.bps, (reservedRecord d (sector + j / d.bps)).byte (j % d.bps) ≠ none) ↔
      ∀ k < scnt, ReservedFull d (sector + k) := by
  have hb := (sectorSizes_le hk.bps).1
  constructor
  · intro h k hk'
    refine (reservedRecord_covers_iff hk _).mp fun j hj => ?_
    have hle : (k + 1) * d.bps ≤ scnt * d.bps := Nat.mul_le_mul_right _ hk'
    rw [Nat.succ_mul] at hle
    obtain ⟨hdiv, hmod⟩ := sector_byte k (by omega : 0 < d.bps) j
    have hbyte := h (k * d.bps + j) (by omega)
    rwa [hdiv, hmod, Nat.div_eq_of_lt hj, Nat.mod_eq_of_lt hj, Nat.add_zero] at hbyte
  · intro h j hj
    exact (reservedRecord_covers_iff hk _).mpr
      (h _ ((Nat.div_lt_iff_lt_mul (by omega)).mpr hj)) _ (Nat.mod_lt _ (by omega))

end Boot

/-! ## Slots -/

section Slots

variable {d : VdfDrive}

theorem vfatRecord_covers (fil : VdfFile) (chk : UInt8) (seq : Nat) :
    (vfatRecord fil chk seq).Covers 32 := by
  have hchars : ∀ j < 32, j ∉ [0, 11, 12, 13, 26, 27] →
      ∃ i ∈ List.range 13, vfatCharOffsets.getD i 0 ≤ j ∧ j < vfatCharOffsets.getD i 0 + 2 := by
    decide
  intro j hj hnone
  rw [Record.byte_eq_none, vfatRecord, List.forall_mem_append] at hnone
  obtain ⟨hfields, hname⟩ := hnone
  simp only [List.forall_mem_cons, length_le, List.length_cons, List.length_nil] at hfields
  obtain ⟨i, hi, h1, h2⟩ := hchars j hj (by
    simp only [List.mem_cons, List.not_mem_nil, or_false]
    omega)
  exact hname _ (List.mem_map_of_mem hi) ⟨h1, by simpa using h2⟩

/-- A short slot has all its bytes on FAT32. Elsewhere `create_date` is left out. -/
theorem direntRecord_covers_iff (d : VdfDrive) (fil : VdfFile) {name : List UInt8}
    (hn : name.length = 11) : (direntRecord d fil name).Covers 32 ↔ d.filesys = .fat32 := by
  by_cases hf : d.filesys = .fat32
  · refine iff_of_true (fun j hj hnone => ?_) hf
    rw [Record.byte_eq_none] at hnone
    simp only [direntRecord, hf, ↓reduceIte, List.append_assoc, List.forall_mem_append,
      List.forall_mem_cons, length_le, List.length_cons, List.length_nil, hn] at hnone
    omega
  · refine iff_of_false (fun hc => hc 16 (by decide) ?_) hf
    rw [Record.byte_eq_none]
    simp only [direntRecord, hf, ↓reduceIte, List.append_assoc, List.forall_mem_append,
      List.forall_mem_cons, length_le, List.length_cons, List.length_nil, hn, List.not_mem_nil,
      false_imp_iff, implies_true, and_true]
    omega

theorem length_forceNameField {name : List UInt8} (h : name.length ≤ 11) :
    (forceNameField name).length = 11 := by
  rw [forceNameField, length_padSpaces]
  omega

/-- The first entry that reaches behind slot `ent` of a directory. -/
def entryFrom (d : VdfDrive) (dir : FileId) (ent : Nat) : Option FileId :=
  (d.file dir).entries.find? fun f => ent < (d.file f).fentStart + (d.file f).fentCnt + 1

/-- The used ones of the `n` slots of a request from a sector on are long-name slots: it starts with
no `.` and `..`, and the first entry that reaches into it has long-name slots for all of it. -/
def LongSlotsOnly (d : VdfDrive) (dir : FileId) (sector n : Nat) : Prop :=
  let ent := sector * (d.bps / 32)
  (sector = 0 → (d.file dir).parent = none) ∧
    (ent < (d.file dir).dirFentCnt → ∀ f ∈ entryFrom d dir ent,
      hasLongSlots d (d.file f) = true ∧ n + (ent - (d.file f).fentStart) ≤ (d.file f).fentCnt)

/-- The records of the entries start with those of the first one. -/
theorem entryRecords_first (d : VdfDrive) (dir : FileId) (ent : Nat) :
    match entryFrom d dir ent with
    | none => entryRecords d ent (d.file dir).entries = []
    | some f => ∃ rest, entryRecords d ent (d.file dir).entries =
        wantedRecords d ent (d.file f) ++ rest := by
  unfold entryFrom
  induction (d.file dir).entries with
  | nil => rfl
  | cons f l ih =>
    by_cases h : ((d.file f).fentStart : Int) + (d.file f).fentCnt + 1 ≤ (ent : Int)
    · rw [List.find?_cons_of_neg (by simp only [decide_eq_true_eq]; omega), entryRecords_skip h]
      exact ih
    · rw [List.find?_cons_of_pos (by simp only [decide_eq_true_eq]; omega), entryRecords_keep h]
      exact ⟨_, rfl⟩

theorem longRecords_covers {fil : VdfFile} {chk : UInt8} {seq : Nat} :
    ∀ r ∈ longRecords fil chk seq, r.Covers 32 := by
  induction seq with
  | zero => exact List.forall_mem_nil _
  | succ seq ih => exact List.forall_mem_cons.mpr ⟨vfatRecord_covers fil chk (seq + 1), ih⟩

/-- The wanted slots of an entry in front of its short slot. -/
theorem wantedRecords_front (d : VdfDrive) (ent : Nat) (fil : VdfFile) : ∃ front,
    wantedRecords d ent fil = front ++ [direntRecord d fil (shortnameField fil.shortname)] ∧
      (∀ r ∈ front, r.Covers 32) ∧
      front.length = if hasLongSlots d fil then fil.fentCnt - (ent - fil.fentStart) else 0 := by
  have hskip : ((ent : Int) - fil.fentStart).toNat = ent - fil.fentStart := by omega
  unfold wantedRecords slotRecords
  by_cases hl : hasLongSlots d fil = true
  · rw [if_pos hl, if_pos hl, List.length_append, length_longRecords, List.length_singleton,
      Nat.add_sub_cancel, hskip, List.drop_append_of_le_length (by
        rw [length_longRecords]
        exact Nat.min_le_right _ _)]
    refine ⟨_, rfl, fun r hr => longRecords_covers r (List.mem_of_mem_drop hr), ?_⟩
    rw [List.length_drop, length_longRecords]
    omega
  · rw [if_neg hl, if_neg hl]
    exact ⟨[], by simp, List.forall_mem_nil _, rfl⟩

/-- On FAT32 every slot has all its bytes. -/
theorem runRecords_covers (h32 : d.filesys = .fat32) {dir : FileId} {sector n : Nat} :
    ∀ r ∈ runRecords d dir sector n, r.Covers 32 := by
  have hdots : ∀ r ∈ dotRecords d dir, r.Covers 32 := by
    unfold dotRecords
    split
    · refine List.forall_mem_cons.mpr ⟨?_, List.forall_mem_singleton.mpr ?_⟩ <;>
        exact (direntRecord_covers_iff _ _ (length_forceNameField (by decide))).mpr h32
    · exact List.forall_mem_nil _
  have hentries {ent : Nat} {l : List FileId} : ∀ r ∈ entryRecords d ent l, r.Covers 32 := by
    intro r hr
    obtain ⟨f, -, hf⟩ := List.mem_flatMap.mp hr
    obtain ⟨front, he, hfront, -⟩ := wantedRecords_front d ent (d.file f)
    rw [he, List.mem_append, List.mem_singleton] at hf
    rcases hf with hf | rfl
    · exact hfront r hf
    · exact (direntRecord_covers_iff _ _ (length_shortnameField _)).mpr h32
  intro r hr
  rcases List.mem_append.mp hr with hr | hr
  · rcases List.mem_append.mp (List.mem_of_mem_take hr) with hr | hr
    · split at hr
      · exact hdots r hr
      · cases hr
    · obtain ⟨ent, hr⟩ : ∃ ent : Nat, r ∈ if ent < (d.file dir).dirFentCnt then
          entryRecords d ent (d.file dir).entries else [] := ⟨_, hr⟩
      split at hr
      · exact hentries r hr
      · cases hr
  · rw [List.eq_of_mem_replicate hr]
    exact Record.covers_zero 32

/-- The used slots of a request that starts with no `.`. -/
theorem usedRecords_entries {dir : FileId} {sector n : Nat}
    (h : sector = 0 → (d.file dir).parent = none) : usedRecords d dir sector n =
      (if sector * (d.bps / 32) < (d.file dir).dirFentCnt then
        entryRecords d (sector * (d.bps / 32) : Nat) (d.file dir).entries else []).take n := by
  have hdots : (if sector = 0 then dotRecords d dir else []) = [] := by
    split
    · rw [dotRecords, h ‹_›]
    · rfl
  have hent : (if sector = 0 then ([] : List Record).length else sector * (d.bps / 32)) =
      sector * (d.bps / 32) := by
    split
    · rw [‹sector = 0›, Nat.zero_mul]
      rfl
    · rfl
  unfold usedRecords
  simp only [hdots, hent, List.nil_append]

/-- The first slots of the entries leave no byte out when they are long-name slots of the first
one. -/
theorem entryRecords_covers_iff (h32 : d.filesys ≠ .fat32) (dir : FileId) (ent : Nat) {n : Nat}
    (hpos : 0 < n) : (∀ r ∈ (entryRecords d ent (d.file dir).entries).take n, r.Covers 32) ↔
      ∀ f ∈ entryFrom d dir ent, hasLongSlots d (d.file f) = true ∧
        n + (ent - (d.file f).fentStart) ≤ (d.file f).fentCnt := by
  have hfirst := entryRecords_first d dir ent
  cases hf : entryFrom d dir ent with
  | none =>
    rw [hf] at hfirst
    dsimp only at hfirst
    rw [hfirst, List.take_nil]
    exact iff_of_true (List.forall_mem_nil _) fun f h => by cases h
  | some f =>
    rw [hf] at hfirst
    obtain ⟨rest, hrest⟩ := hfirst
    obtain ⟨front, he, hfront, hlen⟩ := wantedRecords_front d ent (d.file f)
    have hroom : n ≤ front.length ↔ hasLongSlots d (d.file f) = true ∧
        n + (ent - (d.file f).fentStart) ≤ (d.file f).fentCnt := by
      rw [hlen]
      split
      · rename_i hl
        rw [and_iff_right hl]
        omega
      · rename_i hl
        exact iff_of_false (by omega) fun h => hl h.1
    simp only [Option.mem_def, Option.some.injEq, forall_eq']
    rw [hrest, he, ← hroom, List.append_assoc]
    constructor
    · -- A request that the front does not fill has the short slot.
      intro hall
      by_contra hlt
      refine absurd (hall (direntRecord d (d.file f) (shortnameField (d.file f).shortname)) ?_)
        (mt (direntRecord_covers_iff d _ (length_shortnameField _)).mp h32)
      rw [List.take_append, List.mem_append]
      obtain ⟨k, hk⟩ : ∃ k, n - front.length = k + 1 := ⟨n - front.length - 1, by omega⟩
      rw [hk]
      exact .inr (List.mem_cons_self ..)
    · intro hle r hr
      rw [List.take_append_of_le_length hle] at hr
      exact hfront r (List.mem_of_mem_take hr)

/-- A request of a directory leaves no byte out on FAT32, and elsewhere when its used slots are
long-name slots. -/
theorem runRecords_covers_iff (d : VdfDrive) (dir : FileId) {sector n : Nat} (hpos : 0 < n) :
    (∀ r ∈ runRecords d dir sector n, r.Covers 32) ↔
      d.filesys = .fat32 ∨ LongSlotsOnly d dir sector n := by
  by_cases h32 : d.filesys = .fat32
  · exact iff_of_true (runRecords_covers h32) (.inl h32)
  · have hzeros : (∀ r ∈ runRecords d dir sector n, r.Covers 32) ↔
        ∀ r ∈ usedRecords d dir sector n, r.Covers 32 := by
      rw [runRecords, List.forall_mem_append, and_iff_left]
      intro r hr
      rw [List.eq_of_mem_replicate hr]
      exact Record.covers_zero 32
    rw [or_iff_right h32, hzeros, LongSlotsOnly]
    by_cases hdots : sector = 0 → (d.file dir).parent = none
    · rw [usedRecords_entries hdots, and_iff_right hdots]
      by_cases hent : sector * (d.bps / 32) < (d.file dir).dirFentCnt
      · rw [if_pos hent, forall_prop_of_true hent]
        exact entryRecords_covers_iff h32 dir _ hpos
      · rw [if_neg hent, List.take_nil]
        exact iff_of_true (List.forall_mem_nil _) fun h => absurd h hent
    · -- The first slot is that of `.`.
      refine iff_of_false (fun hall => ?_) fun h => hdots h.1
      rw [Classical.not_imp] at hdots
      obtain ⟨h0, hpar⟩ := hdots
      obtain ⟨parent, hpar⟩ := Option.ne_none_iff_exists'.mp hpar
      refine absurd (hall (direntRecord d (d.file dir) (forceNameField dotName)) ?_)
        (mt (direntRecord_covers_iff d _ (length_forceNameField (by decide))).mp h32)
      obtain ⟨k, rfl⟩ : ∃ k, n = k + 1 := ⟨n - 1, by omega⟩
      unfold usedRecords dotRecords
      rw [if_pos h0, hpar]
      exact List.mem_cons_self ..

end Slots

end Vdf
