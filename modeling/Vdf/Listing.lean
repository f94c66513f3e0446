import Vdf.Clusters
import Vdf.Dates
import Vdf.DirServed
import Vdf.DosNames
import Vdf.LongSlots
import Vdf.Lib.FatVolume

/-!
# Listing a directory

How a driver parses the slots of a directory: a free slot ends it, the slots of a long name stand in
front of the short slot that they belong to, and deleted slots and volume labels are passed over
(`listSlots`). The slots that `fill_dirent` writes parse to one entry for each file, under its own
name, with its attributes, its date, its first cluster and its size (`listSlots_dir`).

A driver passes over a file whose short name starts with 0xe5, and a file with the attribute of a
volume label; a long name is one of at most 255 seven-bit characters (`EntryReadable`).
-/

namespace Vdf

open Word Buffer Calendar

/-! ## The driver -/

/-- The names of an entry, its attributes and the second of its last change. -/
structure EntryInfo where
  long : Option (List Nat)
  short : List UInt8
  attr : UInt8
  modified : Option Int
  deriving DecidableEq

/-- The short slot at `p`, behind the slots of a long name. -/
def shortEntry (m : Buffer) (p : Nat) (long : Option (List Nat)) : Listed EntryInfo where
  info := { long, short := decodeShortname (m.slice p 11), attr := m (p + 11)
            modified := (decodeStamp (m.get16 (p + 24)) (m.get16 (p + 22))).map Civil.seconds }
  isDir := m (p + 11) &&& 0x10 != 0
  cluster := slotCluster m p
  size := m.get32 (p + 28)

/-- The `n` slots at `p`. -/
def listSlots (m : Buffer) : (n p : Nat) → (long : Option (List Nat)) → List (Listed EntryInfo)
  | 0, _, _ => []
  | n + 1, p, long =>
    if m p = 0 then []
    else if m p = 0xe5 then listSlots m n (p + 32) none
    else if m (p + 11) = 0x0f then
      listSlots m n (p + 32) (if 0x40 ≤ m p then decodeLongName m p else long)
    else if m (p + 11) &&& 8 ≠ 0 then listSlots m n (p + 32) none
    else shortEntry m p long :: listSlots m n (p + 32) none

/-- The entry is `.` or `..`. -/
def IsDots (e : Listed EntryInfo) : Bool := e.info.short == [0x2e] || e.info.short == [0x2e, 0x2e]

/-- The bytes of a directory. -/
def parseDir (bytes : List UInt8) : List (Listed EntryInfo) :=
  (listSlots (fun j => bytes.getD j 0) (bytes.length / 32) 0 none).filter fun e => !IsDots e

/-! ## What is listed of a file -/

/-- What a driver should find of a file. The date is kept to two seconds. -/
def fileInfo (d : VdfDrive) (fil : VdfFile) : EntryInfo where
  long := if hasLongSlots d fil then some (fil.name.map UInt8.toNat) else none
  short := fil.shortname
  attr := UInt8.ofNat fil.attr
  modified := some (fil.date - fil.date % 2)

/-- The entry of a file. -/
def entryOf (d : VdfDrive) (fil : VdfFile) : Listed EntryInfo where
  info := fileInfo d fil
  isDir := hasFlag fil.attr vfaDir
  cluster := entryCluster d fil
  size := if hasFlag fil.attr vfaDir then 0 else fil.size

/-- What a slot of the file says, with the field `name`. -/
def listedAs (d : VdfDrive) (fil : VdfFile) (name : List UInt8) (long : Option (List Nat)) :
    Listed EntryInfo :=
  let stamp := decodeStamp (modifiedDate (gmtime fil.date)) (modifiedTime (gmtime fil.date))
  { entryOf d fil with
    info := { long, short := decodeShortname name, attr := UInt8.ofNat fil.attr
              modified := stamp.map Civil.seconds } }

/-- `.` and `..`. -/
def dotEntries (d : VdfDrive) (dir : FileId) : List (Listed EntryInfo) :=
  match (d.file dir).parent with
  | some parent => [listedAs d (d.file dir) (forceNameField dotName) none,
      listedAs d (d.file parent) (forceNameField dotdotName) none]
  | none => []

/-- A driver can read a slot of the file. -/
structure SlotReadable (fil : VdfFile) : Prop where
  attr : hasFlag fil.attr vfaVollabel = false
  size : fil.size < 2 ^ 32

/-- A driver can read the entry. -/
structure EntryReadable (d : VdfDrive) (fil : VdfFile) : Prop extends SlotReadable fil where
  first : (shortnameField fil.shortname).head? ≠ some 0xe5
  short : DosName fil.shortname
  ended : 0 ∉ fil.shortname
  date : InStampRange fil.date
  long : hasLongSlots d fil = true → LongNamed d fil

/-- A slot that can be read says what it should. -/
theorem EntryReadable.listedAs {d : VdfDrive} {fil : VdfFile} (h : EntryReadable d fil) :
    listedAs d fil (shortnameField fil.shortname)
      (if hasLongSlots d fil then some (fil.name.map UInt8.toNat) else none) = entryOf d fil := by
  obtain ⟨c, hsec, hc⟩ := gmtime_civil fil.date
  have hfirst := (c.year_le_iff 1980).1 (hsec ▸ h.date.1)
  have hlast : ¬ 2108 ≤ c.year := fun hle => by
    have := hsec ▸ (c.year_le_iff 2108).2 hle
    have := h.date.2
    omega
  obtain ⟨c', hdecode, hround⟩ := decodeStamp_modified c hfirst (by omega)
  rw [hsec] at hround
  simp only [Vdf.listedAs, entryOf, fileInfo, decodeShortname_field h.short h.ended, hc, hdecode,
    Option.map_some, hround]

/-! ## Short slots -/

section Short

variable {d : VdfDrive} {fil : VdfFile} {name : List UInt8} {m : Buffer} {p n : Nat}

/-- A flag in the low byte. -/
theorem ofNat_and_flag (a : Nat) {b : Nat} (hb : b < 256) :
    (UInt8.ofNat a &&& UInt8.ofNat b != 0) = hasFlag a b := by
  have hval : (UInt8.ofNat a &&& UInt8.ofNat b).toNat = a &&& b := by
    rw [UInt8.toNat_and, UInt8.toNat_ofNat', UInt8.toNat_ofNat', Nat.mod_eq_of_lt hb]
    refine Nat.eq_of_testBit_eq fun i => ?_
    rw [Nat.testBit_and, Nat.testBit_and, Nat.testBit_mod_two_pow a 8 i]
    by_cases hi : i < 8
    · simp [hi]
    · have hlt : b < 2 ^ i :=
        Nat.lt_of_lt_of_le hb (Nat.pow_le_pow_right Nat.two_pos (Nat.le_of_not_lt hi))
      simp [Nat.testBit_eq_false_of_lt hlt]
  rw [hasFlag, Bool.eq_iff_iff, bne_iff_ne, bne_iff_ne, Ne, Ne, ← UInt8.toNat_inj, hval]
  exact Iff.rfl

/-- The fields of a short slot. -/
theorem direntRecord_fields :
    (direntRecord d fil name).byte 11 = some (UInt8.ofNat fil.attr) ∧
      (direntRecord d fil name).Holds 22 2 (modifiedTime (gmtime fil.date)) ∧
      (direntRecord d fil name).Holds 24 2 (modifiedDate (gmtime fil.date)) ∧
      (direntRecord d fil name).Holds 28 4 (if hasFlag fil.attr vfaDir then 0 else fil.size) := by
  refine ⟨?_, ?_, ?_, ?_⟩
  · have e : direntRecord d fil name =
        [(0, name), (11, [UInt8.ofNat fil.attr])] ++ (direntRecord d fil name).tail.tail := rfl
    have hrest : Record.Avoids (direntRecord d fil name).tail.tail 11 1 := by
      unfold direntRecord
      by_cases h32 : d.filesys = .fat32 <;> simp [Record.Avoids, h32]
    rw [e, Record.byte_append, hrest.byte (k := 0) (by decide)]
    simp [Record.byte]
  · exact Record.holds_of_last [(0, name), (11, [UInt8.ofNat fil.attr]), (12, [0])] _ (by
      by_cases h32 : d.filesys = .fat32 <;> simp [Record.Avoids, h32])
  · exact Record.holds_of_last [(0, name), (11, [UInt8.ofNat fil.attr]), (12, [0]),
      (22, le 2 (modifiedTime (gmtime fil.date)))] _ (by
      by_cases h32 : d.filesys = .fat32 <;> simp [Record.Avoids, h32])
  · rw [direntRecord]
    refine (Record.holds_of_last [_, _] _ ?_).prepend _
    simp [Record.Avoids]

/-- A short slot that is shown is the entry. -/
theorem shortEntry_shown (h : m.Shows p 32 (direntRecord d fil name).byte) (hn : name.length = 11)
    (hfil : SlotReadable fil) (long : Option (List Nat)) :
    shortEntry m p long = listedAs d fil name long := by
  have hw := @direntRecord_within d fil name (by omega)
  obtain ⟨h11, h22, h24, h28⟩ := @direntRecord_fields d fil name
  have hself := h.store_self hw
  have hattr : m (p + 11) = UInt8.ofNat fil.attr := h 11 (by decide) _ h11
  have hname : m.slice p 11 = name := by
    refine List.ext_getElem (by rw [length_slice, hn]) fun j h1 h2 => ?_
    rw [length_slice] at h1
    rw [getElem_slice, h j (by omega) _ (direntRecord_name d fil hn h1),
      List.getD_eq_getElem _ _ h2]
  obtain ⟨c, -, hc⟩ := gmtime_civil fil.date
  have htime : m.get16 (p + 22) = modifiedTime (gmtime fil.date) := by
    have hval := get16_store m p hw (by decide) h22
    rwa [hself, hc, Nat.mod_eq_of_lt (modifiedTime_lt c), ← hc] at hval
  have hdate : m.get16 (p + 24) = modifiedDate (gmtime fil.date) := by
    have hval := get16_store m p hw (by decide) h24
    rwa [hself, hc, Nat.mod_eq_of_lt (modifiedDate_lt c), ← hc] at hval
  have hsize : m.get32 (p + 28) = if hasFlag fil.attr vfaDir then 0 else fil.size := by
    have hval := get32_store m p hw (by decide) h28
    rw [hself] at hval
    rw [hval]
    split
    · rfl
    · exact Nat.mod_eq_of_lt hfil.size
  have hcluster : slotCluster m p = entryCluster d fil := by
    have hstored : slotCluster (m.store p (direntRecord d fil name)) p = entryCluster d fil :=
      slotCluster_store m p (by omega)
    rwa [hself] at hstored
  simp only [shortEntry, listedAs, entryOf, hname, hattr, htime, hdate, hcluster, hsize,
    ← ofNat_and_flag fil.attr (b := vfaDir) (by decide)]
  rfl

/-- A short slot that is parsed. -/
theorem listSlots_short (h : m.Shows p 32 (direntRecord d fil name).byte) (hn : name.length = 11)
    (hfil : SlotReadable fil) (h0 : name.head? ≠ some 0) (h5 : name.head? ≠ some 0xe5)
    (long : Option (List Nat)) :
    listSlots m (n + 1) p long = listedAs d fil name long :: listSlots m n (p + 32) none := by
  have hattr : m (p + 11) = UInt8.ofNat fil.attr :=
    h 11 (by decide) _ direntRecord_fields.1
  have hflag : (m (p + 11) &&& 8 != 0) = false := by
    rw [hattr, ← hfil.attr, ← ofNat_and_flag fil.attr (b := vfaVollabel) (by decide)]
    rfl
  have hflag : m (p + 11) &&& 8 = 0 := by simpa using hflag
  have hfirst : name.head? = some (m p) := by
    cases name with
    | nil => cases hn
    | cons c l => exact congrArg some (h 0 (by decide) _ (direntRecord_byte_zero d fil c l)).symm
  rw [hfirst] at h0 h5
  have h0f : m (p + 11) ≠ 0x0f := by
    intro he
    rw [he] at hflag
    exact absurd hflag (by decide)
  rw [listSlots, if_neg fun he => h0 (congrArg some he), if_neg fun he => h5 (congrArg some he),
    if_neg h0f, if_neg (not_not_intro hflag), shortEntry_shown h hn hfil]

end Short

/-! ## Entries -/

section Entry

variable {d : VdfDrive} {fil : VdfFile} {m : Buffer} {p n : Nat}

/-- Record `k` of a table that is shown. -/
theorem shows_record {rs : List Record} (h : m.Shows p (32 * rs.length) (tableByte 32 rs)) {k : Nat}
    (hk : k < rs.length) : m.Shows (p + 32 * k) 32 rs[k].byte := by
  refine (h.slice (o := 32 * k) (k := 32) (by omega)).congr fun j hj => ?_
  rw [tableByte, Nat.mul_add_div (by decide), Nat.div_eq_of_lt hj, Nat.add_zero, Nat.mul_add_mod,
    Nat.mod_eq_of_lt hj, List.getD_eq_getElem _ _ hk]

/-- The records of a table, and those behind them. -/
theorem shows_append {rs ss : List Record}
    (h : m.Shows p (32 * (rs ++ ss).length) (tableByte 32 (rs ++ ss))) :
    m.Shows p (32 * rs.length) (tableByte 32 rs) ∧
      m.Shows (p + 32 * rs.length) (32 * ss.length) (tableByte 32 ss) := by
  rw [List.length_append, Nat.mul_add] at h
  constructor
  · refine (h.take (Nat.le_add_right ..)).congr fun j hj => ?_
    rw [tableByte, tableByte, List.getD_append _ _ _ _ (by omega)]
  · refine (h.slice (o := 32 * rs.length) (k := 32 * ss.length) (by omega)).congr fun j _ => ?_
    rw [tableByte, tableByte, Nat.mul_add_div (by decide), Nat.mul_add_mod,
      List.getD_append_right _ _ _ _ (Nat.le_add_right ..), Nat.add_sub_cancel_left]

/-- The slots of a long name from slot `k` on, and the short slot behind them. -/
theorem listSlots_long (h : LongNamed d fil) (hfil : EntryReadable d fil)
    (hm : m.Shows p (32 * (slotRecords d fil).length) (tableByte 32 (slotRecords d fil)))
    (i : Nat) {k : Nat} (hk : k + i = fil.fentCnt) {long : Option (List Nat)}
    (hlong : k ≠ 0 → long = some (fil.name.map UInt8.toNat)) :
    listSlots m (i + 1 + n) (p + 32 * k) long =
      entryOf d fil :: listSlots m n (p + 32 * (fil.fentCnt + 1)) none := by
  have hself := hm.storeAll_self (by decide) (fun r hr => slotRecords_within r hr)
  have hle := h.le
  have hcnt := h.fents
  induction i generalizing k long with
  | zero =>
    -- The short slot.
    obtain rfl : k = fil.fentCnt := hk
    obtain ⟨c, l, hfield, hc⟩ := shortnameField_cons fil.shortname
    have hlen : (slotRecords d fil).length = fil.fentCnt + 1 := by
      rw [slotRecords_long h, List.length_append, length_longRecords]
      rfl
    have hlt : fil.fentCnt < (slotRecords d fil).length := by omega
    have hrec : (slotRecords d fil)[fil.fentCnt] =
        direntRecord d fil (shortnameField fil.shortname) := by
      simp only [slotRecords_long h]
      rw [List.getElem_append_right (by rw [length_longRecords])]
      simp
    have hshort := shows_record hm hlt
    rw [hrec] at hshort
    rw [Nat.zero_add, Nat.add_comm 1 n, listSlots_short hshort (length_shortnameField _)
      hfil.toSlotReadable (by rw [hfield]; simpa using hc) hfil.first, hlong (by omega),
      Nat.mul_succ, ← Nat.add_assoc, ← hfil.listedAs, if_pos h.long]
  | succ i ih =>
    obtain ⟨h1, h2, -⟩ := slotRecords_isLong h m p (k := k) (by omega)
    rw [hself] at h1 h2
    have hfirst : 0 < (m (p + 32 * k)).toNat ∧ (m (p + 32 * k)).toNat < 0xe5 ∧
        (k = 0 → 0x40 ≤ (m (p + 32 * k)).toNat) := by
      split at h1 <;> omega
    have hrest : listSlots m (i + 1 + n) (p + 32 * (k + 1)) (some (fil.name.map UInt8.toNat)) =
        entryOf d fil :: listSlots m n (p + 32 * (fil.fentCnt + 1)) none :=
      ih (by omega) fun _ => rfl
    rw [(by omega : i + 1 + 1 + n = i + 1 + n + 1), listSlots, if_neg (fun he => by
      rw [he] at hfirst
      exact absurd hfirst.1 (by decide)), if_neg (fun he => by
      rw [he] at hfirst
      exact absurd hfirst.2.1 (by decide)), if_pos h2]
    have hname : (if 0x40 ≤ m (p + 32 * k) then decodeLongName m (p + 32 * k) else long) =
        some (fil.name.map UInt8.toNat) := by
      by_cases hk0 : k = 0
      · have hmark : (0x40 : UInt8) ≤ m (p + 32 * k) :=
          UInt8.le_iff_toNat_le.mpr (hfirst.2.2 hk0)
        rw [if_pos hmark, hk0, Nat.mul_zero, Nat.add_zero]
        have hdec := decodeLongName_slots h m p
        rwa [hself] at hdec
      · rw [if_neg, hlong hk0]
        rw [UInt8.le_iff_toNat_le, h1, if_neg hk0]
        have h40 : (0x40 : UInt8).toNat = 0x40 := rfl
        omega
    rw [hname, Nat.add_assoc p, ← Nat.mul_succ]
    exact hrest

/-- The slots of an entry. -/
theorem listSlots_entry (hfil : EntryReadable d fil)
    (hm : m.Shows p (32 * (slotRecords d fil).length) (tableByte 32 (slotRecords d fil))) :
    listSlots m ((slotRecords d fil).length + n) p none =
      entryOf d fil :: listSlots m n (p + 32 * (slotRecords d fil).length) none := by
  by_cases hl : hasLongSlots d fil = true
  · have h := hfil.long hl
    have hlen : (slotRecords d fil).length = fil.fentCnt + 1 := by
      rw [slotRecords_long h, List.length_append, length_longRecords]
      rfl
    rw [hlen]
    exact listSlots_long h hfil hm fil.fentCnt (Nat.zero_add _) (fun h0 => absurd rfl h0)
  · have hrec : slotRecords d fil = [direntRecord d fil (shortnameField fil.shortname)] := by
      rw [slotRecords, if_neg hl]
      rfl
    obtain ⟨c, l, hfield, hc⟩ := shortnameField_cons fil.shortname
    have hshort := shows_record hm (k := 0) (by simp [hrec])
    simp only [hrec, List.getElem_cons_zero, Nat.mul_zero, Nat.add_zero] at hshort
    rw [hrec, List.length_singleton, Nat.add_comm 1 n, listSlots_short hshort
      (length_shortnameField _) hfil.toSlotReadable (by rw [hfield]; simpa using hc) hfil.first,
      ← hfil.listedAs, if_neg hl]

/-- The slots of the entries of a directory. -/
theorem listSlots_entries {l : List FileId} (hl : ∀ f ∈ l, EntryReadable d (d.file f))
    (hm : m.Shows p (32 * (l.flatMap fun f => slotRecords d (d.file f)).length)
      (tableByte 32 (l.flatMap fun f => slotRecords d (d.file f)))) :
    listSlots m ((l.flatMap fun f => slotRecords d (d.file f)).length + n) p none =
      l.map (fun f => entryOf d (d.file f)) ++
        listSlots m n (p + 32 * (l.flatMap fun f => slotRecords d (d.file f)).length) none := by
  induction l generalizing p with
  | nil => rw [List.flatMap_nil, List.length_nil, Nat.zero_add, Nat.mul_zero, Nat.add_zero]; rfl
  | cons f l ih =>
    rw [List.flatMap_cons] at hm ⊢
    obtain ⟨h1, h2⟩ := shows_append hm
    rw [List.length_append, Nat.add_assoc, listSlots_entry (hl f (List.mem_cons_self ..)) h1,
      ih (fun x hx => hl x (List.mem_cons_of_mem f hx)) h2, List.map_cons, List.cons_append,
      Nat.mul_add, Nat.add_assoc p]

end Entry

/-! ## Directories -/

/-- `.` and `..` are no 8.3 names. -/
theorem DosName.not_dots {s : List UInt8} (h : DosName s) : s ≠ [0x2e] ∧ s ≠ [0x2e, 0x2e] := by
  obtain ⟨b, e, hb, -, rfl⟩ := h
  have hne : ∀ l, dotted b e ≠ 0x2e :: l := by
    intro l he
    cases b with
    | nil => exact hb.nonempty rfl
    | cons c b =>
      have hc := (hb.chars c (List.mem_cons_self ..)).2.1
      exact hc (List.cons.inj he).1
  exact ⟨hne _, hne _⟩

section Dir

variable {d : VdfDrive} {dir : FileId} {m : Buffer} {p n : Nat}

/-- The directory can be read: the slots of its entries, and those of itself and its parent. -/
structure DirReadable (d : VdfDrive) (dir : FileId) : Prop where
  entries : ∀ f ∈ (d.file dir).entries, EntryReadable d (d.file f)
  dots : ∀ parent, (d.file dir).parent = some parent →
    SlotReadable (d.file dir) ∧ SlotReadable (d.file parent)

theorem listSlots_dots (h : DirReadable d dir)
    (hm : m.Shows p (32 * (dotRecords d dir).length) (tableByte 32 (dotRecords d dir))) :
    listSlots m ((dotRecords d dir).length + n) p none =
      dotEntries d dir ++ listSlots m n (p + 32 * (dotRecords d dir).length) none := by
  cases hpar : (d.file dir).parent with
  | none =>
    have hrec : dotRecords d dir = [] := by rw [dotRecords, hpar]
    have hent : dotEntries d dir = [] := by rw [dotEntries, hpar]
    rw [hrec, hent, List.length_nil, Nat.zero_add, Nat.mul_zero, Nat.add_zero]
    rfl
  | some parent =>
    obtain ⟨hself, hparent⟩ := h.dots parent hpar
    have hrec : dotRecords d dir = [direntRecord d (d.file dir) (forceNameField dotName),
        direntRecord d (d.file parent) (forceNameField dotdotName)] := by rw [dotRecords, hpar]
    have hent : dotEntries d dir = [listedAs d (d.file dir) (forceNameField dotName) none,
        listedAs d (d.file parent) (forceNameField dotdotName) none] := by rw [dotEntries, hpar]
    have h0 := shows_record hm (k := 0) (by simp [hrec])
    have h1 := shows_record hm (k := 1) (by simp [hrec])
    simp only [hrec, List.getElem_cons_zero, List.getElem_cons_succ, Nat.mul_zero,
      Nat.add_zero] at h0 h1
    rw [hrec, hent, List.length_cons, List.length_singleton, (by omega : 1 + 1 + n = n + 1 + 1),
      listSlots_short h0 rfl hself (by decide) (by decide),
      listSlots_short h1 rfl hparent (by decide) (by decide)]
    rfl

/-- Zero slots end a directory. -/
theorem listSlots_end (h : n ≠ 0 → m p = 0) (long : Option (List Nat)) :
    listSlots m n p long = [] := by
  cases n with
  | zero => rfl
  | succ n => rw [listSlots, if_pos (h (Nat.succ_ne_zero n))]

/-- A directory that is shown parses to `.` and `..` and its entries. -/
theorem listSlots_dir (h : DirReadable d dir) (hn : (dirRecords d dir).length ≤ n)
    (hm : m.Shows p (32 * n) fun j => (slotAt d dir (j / 32)).byte (j % 32)) :
    listSlots m n p none =
      dotEntries d dir ++ (d.file dir).entries.map fun f => entryOf d (d.file f) := by
  obtain ⟨k, rfl⟩ : ∃ k, n = (dirRecords d dir).length + k := ⟨_, (Nat.add_sub_of_le hn).symm⟩
  have hused : m.Shows p (32 * (dirRecords d dir).length) (tableByte 32 (dirRecords d dir)) := by
    refine (hm.take (k := 32 * (dirRecords d dir).length) (by omega)).congr fun j hj => ?_
    rw [tableByte, slotAt, List.getD_eq_getElem _ _ (by omega),
      List.getD_eq_getElem _ _ (by omega)]
  have hzero : k ≠ 0 → m (p + 32 * (dirRecords d dir).length) = 0 := by
    intro hk
    refine hm _ (by omega) 0 ?_
    dsimp only
    rw [Nat.mul_div_cancel_left _ (by decide), Nat.mul_mod_right, slotAt,
      List.getD_eq_default _ _ (Nat.le_refl _)]
    rfl
  rw [dirRecords] at hused hzero ⊢
  obtain ⟨h1, h2⟩ := shows_append hused
  rw [List.length_append, Nat.add_assoc, listSlots_dots h h1, listSlots_entries h.entries h2,
    listSlots_end, List.append_nil]
  rw [Nat.add_assoc, ← Nat.mul_add, ← List.length_append]
  exact hzero

/-- The bytes of a directory parse to its entries. -/
theorem parseDir_slice (h : DirReadable d dir) (hn : (dirRecords d dir).length ≤ n)
    (hm : m.Shows p (32 * n) fun j => (slotAt d dir (j / 32)).byte (j % 32)) :
    parseDir (m.slice p (32 * n)) = (d.file dir).entries.map fun f => entryOf d (d.file f) := by
  have hshown : Shows (fun j => (m.slice p (32 * n)).getD j 0) 0 (32 * n) fun j =>
      (slotAt d dir (j / 32)).byte (j % 32) := fun j hj b hb => by
    rw [Nat.zero_add]
    dsimp only
    rw [List.getD_eq_getElem _ _ (by rwa [length_slice]), getElem_slice]
    exact hm j hj b hb
  have hdots : (dotEntries d dir).filter (fun e => !IsDots e) = [] := by
    cases hpar : (d.file dir).parent with
    | none => rw [dotEntries, hpar]; rfl
    | some parent => rw [dotEntries, hpar]; rfl
  have hplain : ∀ e ∈ (d.file dir).entries.map (fun f => entryOf d (d.file f)),
      (!IsDots e) = true := by
    intro e he
    obtain ⟨f, hf, rfl⟩ := List.mem_map.mp he
    obtain ⟨h1, h2⟩ := (h.entries f hf).short.not_dots
    simp [IsDots, entryOf, fileInfo, h1, h2]
  rw [parseDir, length_slice, Nat.mul_div_cancel_left n (by decide), listSlots_dir h hn hshown,
    List.filter_append, hdots, List.nil_append, List.filter_eq_self.mpr hplain]

end Dir

end Vdf
