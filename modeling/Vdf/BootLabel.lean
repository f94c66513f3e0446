import Vdf.BootParse
import Vdf.Lib.BigEndian

/-!
# The volume label in the boot sector

Of the first twelve characters of a label each one that is no space becomes a byte, and the second
loop pads to twelve rounds. What is written fits the field of eleven bytes iff one of the twelve is
a space: with none it reaches the file system type, with more the end of the field keeps what the
buffer held. -/

namespace Vdf

open Word Buffer

/-- The offset of the label field. -/
def labelOffset : Filesys → Nat
  | .fat32 => 71
  | _ => 43

/-- The eight characters behind the label field. -/
def fstype : Filesys → List UInt8
  | .fat16 => [0x46, 0x41, 0x54, 0x31, 0x36, 0x20, 0x20, 0x20]
  | .fat32 => [0x46, 0x41, 0x54, 0x33, 0x32, 0x20, 0x20, 0x20]
  | _ => []

/-- The sectors that hold a boot sector. -/
def IsBootSector (d : VdfDrive) (sector : Nat) : Prop :=
  sector = 0 ∨ (d.filesys = .fat32 ∧ sector = 6)

/-- The characters of a `char *`. -/
def labelChars (label : List UInt8) : List UInt8 := label.takeWhile (· != 0)

/-- The label in its DOS form, cut and padded to the field. -/
def labelField (label : List UInt8) : List UInt8 :=
  let s := ((labelChars label).flatMap stuffDosname).take 11
  s ++ List.replicate (11 - s.length) 0x20

/-- The spaces among the characters that the first loop takes. -/
def labelSpaces (label : List UInt8) : Nat := ((labelChars label).take 12).count 0x20

/-- Every boot sector has the label in its field and the type behind it, whatever the buffer held,
and what is written as the label stays in the field. -/
structure LabelServed (d : VdfDrive) (label : List UInt8) : Prop where
  inside : (labelBytes label).length ≤ 11
  served : ∀ sector scnt m p, ∃ m', readSectorBoot d sector scnt m p = .ok m' ∧
    ∀ i < scnt, IsBootSector d (sector + i) →
      m'.slice (p + i * d.bps + labelOffset d.filesys) 11 = labelField label ∧
      m'.slice (p + i * d.bps + labelOffset d.filesys + 11) 8 = fstype d.filesys

/-! ## What the loops write -/

theorem stuffDosname_length_eq (c : UInt8) :
    (stuffDosname c).length = if c = 0x20 then 0 else 1 := by
  unfold stuffDosname
  split
  · rfl
  · split <;> rfl

/-- A space takes a round without writing. -/
theorem stuffDosname_flatMap_length (s : List UInt8) :
    (s.flatMap stuffDosname).length + s.count 0x20 = s.length := by
  induction s with
  | nil => rfl
  | cons c s ih =>
    have hc := stuffDosname_length_eq c
    rw [List.flatMap_cons, List.length_append, List.count_cons, List.length_cons, hc]
    by_cases h : c = 0x20
    · simp only [h, ↓reduceIte, beq_self_eq_true]
      omega
    · simp only [h, ↓reduceIte, beq_iff_eq]
      omega

theorem labelBytes_eq (label : List UInt8) : labelBytes label =
    ((labelChars label).take 12).flatMap stuffDosname ++
      List.replicate (12 - ((labelChars label).take 12).length) 0x20 := rfl

theorem labelBytes_length_eq (label : List UInt8) :
    (labelBytes label).length + labelSpaces label = 12 := by
  have hlen := stuffDosname_flatMap_length ((labelChars label).take 12)
  have hle : ((labelChars label).take 12).length ≤ 12 := by simp
  rw [labelBytes_eq, labelSpaces, List.length_append, List.length_replicate]
  omega

/-- With one space the eleven bytes are the field. -/
theorem labelBytes_eq_field {label : List UInt8} (h : labelSpaces label = 1) :
    labelBytes label = labelField label := by
  have hlen := stuffDosname_flatMap_length ((labelChars label).take 12)
  rw [labelSpaces] at h
  rw [h] at hlen
  have hsplit : (labelChars label).flatMap stuffDosname =
      ((labelChars label).take 12).flatMap stuffDosname ++
        ((labelChars label).drop 12).flatMap stuffDosname := by
    rw [← List.flatMap_append, List.take_append_drop]
  have hle : ((labelChars label).take 12).length ≤ 12 := by simp
  have htake : ((labelChars label).flatMap stuffDosname).take 11 =
      ((labelChars label).take 12).flatMap stuffDosname := by
    by_cases hlong : 12 ≤ (labelChars label).length
    · have h12 : ((labelChars label).take 12).length = 12 := by simp [hlong]
      rw [hsplit, List.take_left']
      omega
    · rw [hsplit, List.drop_eq_nil_of_le (by omega), List.flatMap_nil, List.append_nil]
      exact List.take_of_length_le (by omega)
  rw [labelBytes_eq, labelField, htake]
  congr 2
  omega

/-! ## The bytes of a boot sector -/

section Bytes

variable {d : VdfDrive} {label : List UInt8} {r : Record}

/-- From the label on, the common fields are the label. -/
theorem bootCommonRecord_byte (hl : d.label = some label) (o : Nat) {k : Nat} :
    (bootCommonRecord d o).byte (o + 7 + k) =
      if k < (labelBytes label).length then some ((labelBytes label).getD k 0) else none := by
  have hbefore : Record.Avoids [(o, [0x80]), (o + 1, [0]), (o + 2, [0x29]), (o + 3, le 4 d.serial)]
      (o + 7) (k + 1) := by
    simp only [Record.Avoids, List.forall_mem_cons, List.length_cons, List.length_nil, length_le]
    exact ⟨by omega, by omega, by omega, by omega, by simp⟩
  have hsplit : bootCommonRecord d o =
      [(o, [0x80]), (o + 1, [0]), (o + 2, [0x29]), (o + 3, le 4 d.serial)] ++
        [(o + 7, labelBytes label)] := by
    rw [bootCommonRecord, hl]
    rfl
  rw [hsplit, Record.byte_append, hbefore.byte (Nat.lt_succ_self k), Option.or_none,
    Record.byte_cons, Record.byte_nil, Option.none_or]
  by_cases hk : k < (labelBytes label).length
  · rw [if_pos hk, if_pos (by omega), Nat.add_sub_cancel_left]
  · rw [if_neg hk, if_neg (by omega)]

/-- The type stands behind the field, and the label is written after it. -/
theorem bootUnionRecord_label (hfs : d.filesys = .fat16 ∨ d.filesys = .fat32)
    (hl : d.label = some label) {k : Nat} (hk : k < 19) : ∃ u, bootUnionRecord d = some u ∧
      u.byte (labelOffset d.filesys + k) =
        if k < (labelBytes label).length then some ((labelBytes label).getD k 0)
        else if 11 ≤ k then some ((fstype d.filesys).getD (k - 11) 0) else none := by
  have hlen := labelBytes_length_eq label
  rcases hfs with hfs | hfs
  · refine ⟨_, by rw [bootUnionRecord, hfs], ?_⟩
    have hpre : Record.Avoids ([(28, le 4 0)] ++
        (if bootSectorCnt d = 0 then [(32, le 4 d.sectors)] else [])) 43 19 := by
      split <;>
      · simp only [Record.Avoids, List.cons_append, List.nil_append, List.forall_mem_cons,
          length_le]
        decide
    have hlast : Record.Avoids [(62, List.replicate 448 0)] 43 19 := by
      simp only [Record.Avoids, List.forall_mem_cons, List.length_replicate]
      decide
    have hcommon := bootCommonRecord_byte hl 36 (k := k)
    rw [show labelOffset d.filesys = 43 by rw [hfs]; rfl, Record.byte_append, hlast.byte hk,
      Record.byte_append, hcommon, Record.byte_append, hpre.byte hk]
    by_cases hin : k < (labelBytes label).length
    · simp only [if_pos hin, Option.none_or, Option.some_or]
    · simp only [if_neg hin, Option.none_or, Option.or_none, Record.byte_cons, Record.byte_nil, hfs,
        fstype, List.length_cons, List.length_nil]
      by_cases h11 : 11 ≤ k
      · rw [if_pos h11, if_pos (by omega), show 43 + k - 54 = k - 11 by omega]
      · rw [if_neg h11, if_neg (by omega)]
  · refine ⟨_, by rw [bootUnionRecord, hfs], ?_⟩
    have hlast : Record.Avoids [(90, List.replicate 420 0)] 71 19 := by
      simp only [Record.Avoids, List.forall_mem_cons, List.length_replicate]
      decide
    have hpre : Record.Avoids [(28, le 4 0), (36, le 4 d.fatSectors), (32, le 4 d.sectors),
        (40, le 2 0), (42, le 2 0), (44, le 4 (d.file d.rootDir).start), (48, le 2 1),
        (50, le 2 6), (52, List.replicate 12 0)] 71 19 := by
      simp only [Record.Avoids, List.forall_mem_cons, length_le, List.length_replicate]
      decide
    have hsplit : ∀ t : List UInt8, [(28, le 4 0), (36, le 4 d.fatSectors), (32, le 4 d.sectors),
        (40, le 2 0), (42, le 2 0), (44, le 4 (d.file d.rootDir).start), (48, le 2 1),
        (50, le 2 6), (52, List.replicate 12 0), (82, t)] =
        [(28, le 4 0), (36, le 4 d.fatSectors), (32, le 4 d.sectors), (40, le 2 0), (42, le 2 0),
        (44, le 4 (d.file d.rootDir).start), (48, le 2 1), (50, le 2 6),
        (52, List.replicate 12 0)] ++ [(82, t)] := fun _ => rfl
    have hcommon := bootCommonRecord_byte hl 64 (k := k)
    rw [show labelOffset d.filesys = 71 by rw [hfs]; rfl, hsplit, Record.byte_append,
      hlast.byte hk, Record.byte_append, hcommon, Record.byte_append, hpre.byte hk]
    by_cases hin : k < (labelBytes label).length
    · simp only [if_pos hin, Option.none_or, Option.some_or]
    · simp only [if_neg hin, Option.none_or, Option.or_none, Record.byte_cons, Record.byte_nil, hfs,
        fstype, List.length_cons, List.length_nil]
      by_cases h11 : 11 ≤ k
      · rw [if_pos h11, if_pos (by omega), show 71 + k - 82 = k - 11 by omega]
      · rw [if_neg h11, if_neg (by omega)]

/-- The label and the type in a boot sector. -/
theorem bootRecord_label (hfs : d.filesys = .fat16 ∨ d.filesys = .fat32) (hl : d.label = some label)
    (hr : bootRecord d = .ok r) {k : Nat} (hk : k < 19) :
    r.byte (labelOffset d.filesys + k) =
      if k < (labelBytes label).length then some ((labelBytes label).getD k 0)
      else if 11 ≤ k then some ((fstype d.filesys).getD (k - 11) 0) else none := by
  obtain ⟨u, hu, hbyte⟩ := bootUnionRecord_label hfs hl hk
  obtain ⟨u', hu', rfl⟩ := bootRecord_eq hr
  obtain rfl : u = u' := Option.some.inj (hu.symm.trans hu')
  have hoff : 43 ≤ labelOffset d.filesys ∧ labelOffset d.filesys ≤ 71 := by
    cases d.filesys <;> decide
  have hhead := ((bootHeadRecord_between d).avoids (o := labelOffset d.filesys) (w := 19)
    (by omega)).byte hk
  have hsig : Record.Avoids [(510, [0xaa]), (511, [0x55])] (labelOffset d.filesys) 19 := by
    simp only [Record.Avoids, List.forall_mem_cons, List.length_cons, List.length_nil]
    exact ⟨by omega, by omega, by simp⟩
  rw [Record.byte_append, hsig.byte hk, Option.none_or, Record.byte_append, hhead, Option.or_none,
    hbyte]

end Bytes

/-! ## The sectors -/

section Sectors

variable {d : VdfDrive} {label : List UInt8}

theorem bootSector_boot {sector : Nat} (h : IsBootSector d sector) (m : Buffer) (p : Nat) :
    bootSector d sector m p = (bootRecord d).map fun r => m.store p r := by
  rcases h with rfl | ⟨hfs, rfl⟩
  · rw [bootSector, if_neg (fun h => absurd h.2 (by decide)), if_neg (fun h => h.2 rfl)]
  · rw [bootSector, if_neg (fun h => absurd h.2 (by decide)), if_neg (fun h => h.1 ⟨hfs, rfl⟩)]

/-- One round writes nothing in front of its sector. -/
theorem bootSector_below (hfs : d.filesys ≠ .unset) (sector : Nat) (m : Buffer) (p : Nat) :
    ∃ m', bootSector d sector m p = .ok m' ∧ ∀ x < p, m' x = m x := by
  obtain ⟨r, hr⟩ := bootRecord_isOk hfs
  unfold bootSector
  split
  · exact ⟨_, rfl, fun x hx => store_below m _ hx⟩
  · split
    · refine ⟨_, rfl, fun x hx => ?_⟩
      rw [fill, if_neg (by omega)]
    · rw [hr]
      exact ⟨_, rfl, fun x hx => store_below m _ hx⟩

/-- Each boot sector stands where its round wrote it: the next sector starts behind it. -/
theorem readSectorBoot_sectors (hfs : d.filesys ≠ .unset) (scnt sector : Nat) (m : Buffer)
    (p : Nat) : ∃ m', readSectorBoot d sector scnt m p = .ok m' ∧ (∀ x < p, m' x = m x) ∧
      ∀ i < scnt, IsBootSector d (sector + i) → ∃ (m₀ : Buffer) (r : Record), bootRecord d = .ok r ∧
        ∀ x < p + i * d.bps + d.bps, m' x = m₀.store (p + i * d.bps) r x := by
  induction scnt generalizing sector m p with
  | zero => exact ⟨m, rfl, fun _ _ => rfl, fun i hi => absurd hi (Nat.not_lt_zero i)⟩
  | succ scnt ih =>
    obtain ⟨m₁, h₁, hbelow₁⟩ := bootSector_below hfs sector m p
    obtain ⟨m', h', hbelow, hat⟩ := ih (sector + 1) m₁ (p + d.bps)
    refine ⟨m', ?_, fun x hx => ?_, fun i hi hboot => ?_⟩
    · rw [readSectorBoot, h₁]
      exact h'
    · rw [hbelow x (by omega), hbelow₁ x hx]
    · cases i with
      | zero =>
        rw [Nat.add_zero] at hboot
        obtain ⟨r, hr⟩ := bootRecord_isOk hfs
        rw [bootSector_boot hboot, hr] at h₁
        cases h₁
        refine ⟨m, r, hr, fun x hx => ?_⟩
        rw [Nat.zero_mul, Nat.add_zero] at hx ⊢
        exact hbelow x hx
      | succ i =>
        rw [show sector + (i + 1) = sector + 1 + i by omega] at hboot
        obtain ⟨m₀, r, hr, heq⟩ := hat i (by omega) hboot
        rw [Nat.succ_mul, show p + (i * d.bps + d.bps) = p + d.bps + i * d.bps by omega]
        exact ⟨m₀, r, hr, heq⟩

/-- The field and the type, byte by byte. -/
theorem store_label_byte (hfs : d.filesys = .fat16 ∨ d.filesys = .fat32) (hl : d.label = some label)
    {r : Record} (hr : bootRecord d = .ok r) (m : Buffer) (p : Nat) {k : Nat} (hk : k < 19) :
    m.store p r (p + labelOffset d.filesys + k) =
      if k < (labelBytes label).length then (labelBytes label).getD k 0
      else if 11 ≤ k then (fstype d.filesys).getD (k - 11) 0
      else m (p + labelOffset d.filesys + k) := by
  have hoff : labelOffset d.filesys ≤ 71 := by cases d.filesys <;> decide
  rw [store_eq_overlay m p (bootRecord_within hr), Nat.add_assoc, overlay_inside _ _ (by omega),
    bootRecord_label hfs hl hr hk]
  split
  · rfl
  · split <;> rfl

/-- With one space the label is served. -/
theorem labelServed_of_space (hfs : d.filesys = .fat16 ∨ d.filesys = .fat32) (hbps : 512 ≤ d.bps)
    (hl : d.label = some label) (h : labelSpaces label = 1) : LabelServed d label := by
  have hlen : (labelBytes label).length = 11 := by
    have := labelBytes_length_eq label
    omega
  have hoff : labelOffset d.filesys ≤ 71 := by cases d.filesys <;> decide
  have hset : d.filesys ≠ .unset := by rcases hfs with h | h <;> rw [h] <;> exact nofun
  have htype : (fstype d.filesys).length = 8 := by rcases hfs with h | h <;> rw [h] <;> rfl
  refine ⟨by omega, fun sector scnt m p => ?_⟩
  obtain ⟨m', hm', -, hat⟩ := readSectorBoot_sectors hset scnt sector m p
  refine ⟨m', hm', fun i hi hboot => ?_⟩
  obtain ⟨m₀, r, hr, heq⟩ := hat i hi hboot
  rw [← labelBytes_eq_field h]
  constructor
  · refine List.ext_getElem (by rw [length_slice, hlen]) fun k hk hk' => ?_
    rw [length_slice] at hk
    rw [getElem_slice, heq _ (by omega), store_label_byte hfs hl hr _ _ (by omega), if_pos hk',
      List.getD_eq_getElem _ _ hk']
  · refine List.ext_getElem (by rw [length_slice, htype]) fun k hk hk' => ?_
    rw [length_slice] at hk
    rw [getElem_slice, heq _ (by omega), Nat.add_assoc _ 11 k,
      store_label_byte hfs hl hr _ _ (by omega), if_neg (by omega), if_pos (by omega),
      Nat.add_sub_cancel_left, List.getD_eq_getElem _ _ hk']

/-- The label is in its field, and in nothing else, exactly where one of its first twelve characters
is a space. -/
theorem bootLabel_served_iff (hfs : d.filesys = .fat16 ∨ d.filesys = .fat32) (hbps : 512 ≤ d.bps)
    (hl : d.label = some label) : LabelServed d label ↔ labelSpaces label = 1 := by
  constructor
  · intro h
    have hlen := labelBytes_length_eq label
    have hin := h.inside
    by_contra hne
    -- two spaces leave the last byte of the field as it was
    have hset : d.filesys ≠ .unset := by rcases hfs with h | h <;> rw [h] <;> exact nofun
    have hoff : labelOffset d.filesys ≤ 71 := by cases d.filesys <;> decide
    obtain ⟨r, hr⟩ := bootRecord_isOk hset
    have hlast : ∀ m : Buffer, (labelField label).getD 10 0 = m (labelOffset d.filesys + 10) := by
      intro m
      obtain ⟨m', hm', hat⟩ := h.served 0 1 m 0
      rw [readSectorBoot_zero, hr] at hm'
      cases hm'
      have hfield := (hat 0 (by decide) (.inl rfl)).1
      rw [Nat.zero_mul, Nat.zero_add] at hfield
      have hbyte := store_label_byte hfs hl hr m 0 (k := 10) (by decide)
      rw [Nat.zero_add, if_neg (by omega), if_neg (by decide)] at hbyte
      rw [← hbyte, ← hfield, List.getD_eq_getElem _ _ (by rw [length_slice]; decide),
        getElem_slice]
    have h0 := hlast fun _ => 0
    have h1 := hlast fun _ => 1
    exact absurd (h0.symm.trans h1) (by decide)
  · exact labelServed_of_space hfs hbps hl

end Sectors

/-- A FAT16 drive with a label. -/
def driveNamed (label : List UInt8) : VdfDrive := flatDrive geometry16 (some label) []

/-- "MY DISK". -/
theorem bootLabel_served_disk :
    LabelServed (driveNamed [0x4d, 0x59, 0x20, 0x44, 0x49, 0x53, 0x4b])
      [0x4d, 0x59, 0x20, 0x44, 0x49, 0x53, 0x4b] :=
  (bootLabel_served_iff (.inl rfl) (by decide) rfl).2 (by decide)

/-- "DISK": the padding has a twelfth space, on the first character of the type. -/
theorem bootLabel_not_served : ¬ LabelServed (driveNamed [0x44, 0x49, 0x53, 0x4b])
    [0x44, 0x49, 0x53, 0x4b] ∧ ∃ m', readSectorBoot (driveNamed [0x44, 0x49, 0x53, 0x4b]) 0 1
      (fun _ => 0) 0 = .ok m' ∧ m' 54 = 0x20 := by
  refine ⟨fun h => absurd h.inside (by decide), ?_⟩
  obtain ⟨r, hr⟩ := bootRecord_isOk (d := driveNamed [0x44, 0x49, 0x53, 0x4b]) nofun
  refine ⟨_, by rw [readSectorBoot_zero, hr]; rfl, ?_⟩
  exact store_label_byte (.inl rfl) rfl hr (fun _ => 0) 0 (k := 11) (by decide)

end Vdf
