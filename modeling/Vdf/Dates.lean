import Vdf.BootParse
import Vdf.DirSlots
import Vdf.Lib.Calendar

/-!
# The dates of a short slot

A FAT stamp is a word for the date, from 1980 on, and one for the time, to two seconds. `fill_dirent` clamps the
year alone: a date outside of 1980 to 2107 keeps its month, day and time. The odd second of a FAT32 creation is
stored as 5 units of 10 ms.
-/

namespace Vdf

open Word Buffer Calendar

/-! ## `gmtime` -/

/-- The fields of a second, as `gmtime` returns them. -/
def tmOf (c : Civil) : Tm :=
  { sec := c.sec, min := c.min, hour := c.hour, mday := c.mday, mon := c.mon, year := c.year - 1900 }

/-- `gmtime` yields the calendar fields of the second. -/
theorem gmtime_civil (t : Int) : ∃ c : Civil, c.seconds = t ∧ gmtime t = tmOf c := by
  unfold gmtime
  extract_lets s z doe yoe doy k mon
  have hs : s < 86400 := by omega
  have hday : t = (146097 * (z / 146097) + doe - 719468) * 86400 + s := by omega
  obtain ⟨c, q, m, doy', hc, hq, hm, hsum, hy, hdoy, hlast⟩ :=
    @era_split doe yoe (by omega) rfl
  obtain rfl : doy = doy' := hdoy
  obtain ⟨year, hyear⟩ : ∃ year : Int, year = yoe + z / 146097 * 400 + if mon ≤ 1 then 1 else 0 := ⟨_, rfl⟩
  obtain ⟨hmon, hle, hmday, hdays⟩ :=
    @march_date (z / 146097) c q m doy k hc hq hm hlast rfl year mon rfl (by rw [hyear, hy])
  clear_value mon k doy yoe doe z s
  refine ⟨{ year, mon, mday := doy - (153 * k + 2) / 5 + 1, hour := s / 3600, min := s / 60 % 60
            sec := s % 60, mon_lt := hmon, mday_pos := Nat.le_add_left .., mday_le := hmday
            hour_lt := by omega, min_lt := Nat.mod_lt _ (by decide), sec_lt := Nat.mod_lt _ (by decide) },
    ?_, by simp only [tmOf, hyear]⟩
  have hclock : s / 3600 * 3600 + s / 60 % 60 * 60 + s % 60 = s := by
    clear hday hsum hy hlast hyear hdays
    omega
  have hcast (x : Nat) : ((x + 1 : Nat) : Int) - 1 = x := by omega
  simp only [Civil.seconds, Civil.days, Civil.clock, hclock, hcast, hdays]
  rw [hday, hsum]
  clear hclock hdays hmday hle hmon hyear hlast hday hsum hy
  omega

/-! ## Stamps -/

/-- The second that two words stand for. -/
def decodeStamp (date time : Nat) : Option Civil :=
  let year : Int := 1980 + (date / 512 : Nat)
  let mon := date / 32 % 16 - 1
  let mday := date % 32
  let hour := time / 2048
  let min := time / 32 % 64
  let sec := time % 32 * 2
  if h : (1 ≤ date / 32 % 16 ∧ mon < 12) ∧ 1 ≤ mday ∧ mday ≤ monthDays year mon ∧ hour < 24 ∧ min < 60 ∧
      sec < 60 then
    some ⟨year, mon, mday, hour, min, sec, h.1.2, h.2.1, h.2.2.1, h.2.2.2.1, h.2.2.2.2.1, h.2.2.2.2.2⟩
  else none

example : (decodeStamp 33 0).map Civil.seconds = some 315532800 := by decide

/-- The field for the year. -/
def stampYear (year : Int) : Nat := if year < 1980 then 0 else if 2107 < year then 127 else (year - 1980).toNat

theorem modifiedTime_eq (c : Civil) : modifiedTime (tmOf c) = c.hour * 2048 + c.min * 32 + c.sec / 2 := by
  have h1 := c.hour_lt
  have h2 := c.min_lt
  have h3 := c.sec_lt
  have hmask (x n : Nat) : x &&& (2 ^ n - 1) = x % 2 ^ n := Nat.and_two_pow_sub_one_eq_mod x n
  have hh : c.hour &&& 0x1f = c.hour := (hmask c.hour 5).trans (Nat.mod_eq_of_lt (by omega))
  have hm : c.min &&& 0x3f = c.min := (hmask c.min 6).trans (Nat.mod_eq_of_lt (by omega))
  have hs : c.sec / 2 &&& 0x1f = c.sec / 2 := (hmask _ 5).trans (Nat.mod_eq_of_lt (by omega))
  simp only [modifiedTime, tmOf, hh, hm, hs]
  rw [Nat.or_assoc, ← Nat.shiftLeft_add_eq_or_of_lt (i := 5) (by omega),
    ← Nat.shiftLeft_add_eq_or_of_lt (i := 11) (by rw [Nat.shiftLeft_eq]; omega), Nat.shiftLeft_eq,
    Nat.shiftLeft_eq]
  omega

theorem modifiedDate_eq (c : Civil) :
    modifiedDate (tmOf c) = stampYear c.year * 512 + (c.mon + 1) * 32 + c.mday := by
  have h1 := c.mon_lt
  have h2 := c.mday_le.trans (monthDays_le _ _)
  have hmask (x n : Nat) : x &&& (2 ^ n - 1) = x % 2 ^ n := Nat.and_two_pow_sub_one_eq_mod x n
  have hm : c.mon + 1 &&& 0x0f = c.mon + 1 := (hmask _ 4).trans (Nat.mod_eq_of_lt (by omega))
  have hd : c.mday &&& 0x1f = c.mday := (hmask _ 5).trans (Nat.mod_eq_of_lt (by omega))
  have hword (i : Nat) (hi : i < 128) : (i &&& 0x7f) <<< 9 ||| (c.mon + 1 &&& 0x0f) <<< 5 ||| (c.mday &&& 0x1f) =
      i * 512 + (c.mon + 1) * 32 + c.mday := by
    have hy : i &&& 0x7f = i := (hmask _ 7).trans (Nat.mod_eq_of_lt (by omega))
    rw [hy, hm, hd, Nat.or_assoc, ← Nat.shiftLeft_add_eq_or_of_lt (i := 5) (by omega),
      ← Nat.shiftLeft_add_eq_or_of_lt (i := 9) (by rw [Nat.shiftLeft_eq]; omega), Nat.shiftLeft_eq,
      Nat.shiftLeft_eq]
    omega
  have hyear : (tmOf c).year = c.year - 1900 := rfl
  unfold modifiedDate stampYear
  dsimp only
  by_cases hlow : c.year < 1980
  · rw [if_pos hlow, if_pos (by omega : (tmOf c).year - 80 < 0)]
    exact hword 0 (by decide)
  · rw [if_neg hlow, if_neg (by omega : ¬ (tmOf c).year - 80 < 0)]
    by_cases hhigh : 2107 < c.year
    · rw [if_pos hhigh, if_pos (by omega : 127 < (tmOf c).year - 80)]
      exact hword 127 (by decide)
    · rw [if_neg hhigh, if_neg (by omega : ¬ 127 < (tmOf c).year - 80),
        (by omega : ((tmOf c).year - 80).toNat = (c.year - 1980).toNat)]
      exact hword _ (by omega)

/-- The stamp of a second of 1980 to 2107 decodes to it, rounded down. -/
theorem decodeStamp_modified (c : Civil) (h1 : 1980 ≤ c.year) (h2 : c.year ≤ 2107) :
    ∃ c', decodeStamp (modifiedDate (tmOf c)) (modifiedTime (tmOf c)) = some c' ∧
      c'.seconds = c.seconds - c.seconds % 2 := by
  have hmon := c.mon_lt
  have hmday := c.mday_le.trans (monthDays_le _ _)
  have hhour := c.hour_lt
  have hmin := c.min_lt
  have hsec := c.sec_lt
  have hpos := c.mday_pos
  rw [modifiedDate_eq, modifiedTime_eq]
  have hy : stampYear c.year = (c.year - 1980).toNat := by
    unfold stampYear
    split_ifs <;> omega
  have hyear : (1980 : Int) + (((stampYear c.year * 512 + (c.mon + 1) * 32 + c.mday) / 512 : Nat) : Int) =
      c.year := by omega
  have hm : (stampYear c.year * 512 + (c.mon + 1) * 32 + c.mday) / 32 % 16 = c.mon + 1 := by omega
  have hd : (stampYear c.year * 512 + (c.mon + 1) * 32 + c.mday) % 32 = c.mday := by omega
  have hh : (c.hour * 2048 + c.min * 32 + c.sec / 2) / 2048 = c.hour := by omega
  have hn : (c.hour * 2048 + c.min * 32 + c.sec / 2) / 32 % 64 = c.min := by
    clear hyear hm hd hh hy
    omega
  have hs : (c.hour * 2048 + c.min * 32 + c.sec / 2) % 32 * 2 = c.sec - c.sec % 2 := by
    clear hyear hm hd hh hn hy
    omega
  simp only [decodeStamp, hyear, hm, hd, hh, hn, hs, Nat.add_sub_cancel]
  rw [dif_pos ⟨⟨by omega, hmon⟩, hpos, c.mday_le, hhour, hmin, by omega⟩]
  refine ⟨_, rfl, ?_⟩
  simp only [Civil.seconds, Civil.days, Civil.clock]
  omega

/-! ## The slot -/

/-- `m` is the memory behind a call of `fill_dirent` that got to the short slot, at `q`. -/
inductive WritesSlot (d : VdfDrive) (fil : VdfFile) : Buffer → Nat → Prop where
  | entry (m : Buffer) (p : Nat) (ent : Int) (maxcnt : Nat)
      (h : (wantedRecords d ent fil).length ≤ maxcnt) :
      WritesSlot d fil (fillDirent d m p fil ent maxcnt none).2
        (p + 32 * ((fillDirent d m p fil ent maxcnt none).1 - 1))
  | dots (m : Buffer) (p : Nat) (ent maxcnt : Int) (name : List UInt8)
      (h : name = dotName ∨ name = dotdotName) :
      WritesSlot d fil (fillDirent d m p fil ent maxcnt (some name)).2 p

/-- The modified stamp of a slot as one number: the date, then the time. -/
def stampWord (m : Buffer) (q : Nat) : Nat := m.get16 (q + 24) * 65536 + m.get16 (q + 22)

section Slot

variable {d : VdfDrive} {fil : VdfFile} {m : Buffer} {q : Nat}

theorem WritesSlot.store (h : WritesSlot d fil m q) :
    ∃ m₀ name, name.length = 8 + 3 ∧ m = Buffer.store m₀ q (direntRecord d fil name) := by
  cases h with
  | entry m p ent maxcnt h =>
    obtain ⟨m₀, hm⟩ := fillDirent_last d m p fil ent h
    exact ⟨m₀, _, length_shortnameField _, hm⟩
  | dots m p ent maxcnt name h =>
    rw [fillDirent_force]
    refine ⟨m, _, ?_, rfl⟩
    rcases h with rfl | rfl <;> rfl

theorem writesSlot_exists (d : VdfDrive) (fil : VdfFile) : ∃ m q, WritesSlot d fil m q :=
  ⟨_, _, .entry (fun _ => 0) 0 0 _ (Nat.le_refl _)⟩

/-- The words of the slot. -/
theorem WritesSlot.words (h : WritesSlot d fil m q) :
    m.get16 (q + 22) = modifiedTime (gmtime fil.date) % 65536 ∧
      m.get16 (q + 24) = modifiedDate (gmtime fil.date) % 65536 ∧
      (d.filesys = .fat32 → m.get16 (q + 14) = modifiedTime (gmtime fil.date) % 65536 ∧
        m.get16 (q + 16) = modifiedDate (gmtime fil.date) % 65536 ∧
        m (q + 13) = if (gmtime fil.date).sec &&& 1 = 0 then 0 else 5) := by
  obtain ⟨m₀, name, hn, rfl⟩ := h.store
  have hw := @direntRecord_within d fil name (by omega)
  have h22 : (direntRecord d fil name).Holds 22 2 (modifiedTime (gmtime fil.date)) :=
    Record.holds_of_last [(0, name), (11, [UInt8.ofNat fil.attr]), (12, [0])] _ (by
      by_cases h32 : d.filesys = .fat32 <;> simp [Record.Avoids, h32])
  have h24 : (direntRecord d fil name).Holds 24 2 (modifiedDate (gmtime fil.date)) :=
    Record.holds_of_last [(0, name), (11, [UInt8.ofNat fil.attr]), (12, [0]),
      (22, le 2 (modifiedTime (gmtime fil.date)))] _ (by
      by_cases h32 : d.filesys = .fat32 <;> simp [Record.Avoids, h32])
  refine ⟨get16_store m₀ q hw (by decide) h22, get16_store m₀ q hw (by decide) h24, fun h32 => ?_⟩
  obtain ⟨front, rest, hrest, e⟩ : ∃ front rest, Record.Avoids rest 13 5 ∧ direntRecord d fil name =
      front ++ (13, [if (gmtime fil.date).sec &&& 1 = 0 then 0 else 5]) ::
        (14, le 2 (modifiedTime (gmtime fil.date))) :: (16, le 2 (modifiedDate (gmtime fil.date))) ::
          rest := by
    rw [direntRecord, if_pos h32, List.append_assoc]
    exact ⟨_, _, by simp [Record.Avoids], rfl⟩
  have h14 : (direntRecord d fil name).Holds 14 2 (modifiedTime (gmtime fil.date)) := by
    rw [e, List.append_cons]
    refine Record.holds_of_last _ _ fun x hx => ?_
    rcases List.mem_cons.1 hx with rfl | hx
    · exact .inl (Nat.le_refl _)
    · have := hrest x hx
      omega
  have h16 : (direntRecord d fil name).Holds 16 2 (modifiedDate (gmtime fil.date)) := by
    rw [e, List.append_cons, List.append_cons]
    exact Record.holds_of_last _ _ fun x hx => by have := hrest x hx; omega
  refine ⟨get16_store m₀ q hw (by decide) h14, get16_store m₀ q hw (by decide) h16, ?_⟩
  have h13 : (direntRecord d fil name).byte 13 =
      some (if (gmtime fil.date).sec &&& 1 = 0 then 0 else 5) := by
    have h0 : Record.byte rest 13 = none := hrest.byte (k := 0) (by decide)
    rw [e]
    simp [h0]
  rw [store_eq_overlay m₀ q hw, overlay_inside _ _ (by decide), h13]
  rfl

end Slot

/-! ## Which dates are kept -/

/-- The first stamp, and the last one. -/
def firstStamp : Nat := 33 * 65536
def lastStamp : Nat := 65439 * 65536 + 49021

/-- A second from 1980-01-01 to 2107-12-31. -/
def InStampRange (t : Int) : Prop :=
  daysBeforeYear 1980 * 86400 ≤ t ∧ t < daysBeforeYear 2108 * 86400

instance (t : Int) : Decidable (InStampRange t) := inferInstanceAs (Decidable (_ ∧ _))

/-- The short slot at `q` has the date of the file: its second rounded down, and the second itself as the
creation of FAT32. A date outside of the range is the nearest stamp. -/
structure Dated (d : VdfDrive) (fil : VdfFile) (m : Buffer) (q : Nat) : Prop where
  modified : InStampRange fil.date → ∃ c, decodeStamp (m.get16 (q + 24)) (m.get16 (q + 22)) = some c ∧
    c.seconds = fil.date - fil.date % 2
  created : InStampRange fil.date → d.filesys = .fat32 →
    ∃ c, decodeStamp (m.get16 (q + 16)) (m.get16 (q + 14)) = some c ∧
      c.seconds * 100 + (m (q + 13)).toNat = fil.date * 100
  early : fil.date < daysBeforeYear 1980 * 86400 → stampWord m q = firstStamp
  late : daysBeforeYear 2108 * 86400 ≤ fil.date → stampWord m q = lastStamp

/-- The dates of the files are kept, and the modified stamps are in their order. -/
structure DatesKept (d : VdfDrive) (files : List VdfFile) : Prop where
  dated : ∀ fil ∈ files, ∀ m q, WritesSlot d fil m q → Dated d fil m q
  ordered : ∀ a ∈ files, ∀ b ∈ files, a.date ≤ b.date → ∀ m q m' q', WritesSlot d a m q →
    WritesSlot d b m' q' → stampWord m q ≤ stampWord m' q'

/-- The first two seconds of a year, and the last two. -/
def StartsYear (t : Tm) : Prop := t.mon = 0 ∧ t.mday = 1 ∧ t.hour = 0 ∧ t.min = 0 ∧ t.sec < 2
def EndsYear (t : Tm) : Prop := t.mon = 11 ∧ t.mday = 31 ∧ t.hour = 23 ∧ t.min = 59 ∧ 58 ≤ t.sec

instance (t : Tm) : Decidable (StartsYear t) := inferInstanceAs (Decidable (_ ∧ _))
instance (t : Tm) : Decidable (EndsYear t) := inferInstanceAs (Decidable (_ ∧ _))

/-- A date that is kept: an even second on FAT32, and outside of the range the start of an earlier year or
the end of a later one. -/
def Datable (d : VdfDrive) (t : Int) : Prop :=
  if t < daysBeforeYear 1980 * 86400 then StartsYear (gmtime t)
  else if t < daysBeforeYear 2108 * 86400 then d.filesys = .fat32 → t % 2 = 0
  else EndsYear (gmtime t)

instance (d : VdfDrive) (t : Int) : Decidable (Datable d t) := by
  unfold Datable
  infer_instance

/-- The stamp of a second. -/
def stampOf (t : Int) : Nat := modifiedDate (gmtime t) * 65536 + modifiedTime (gmtime t)

section Kept

variable {d : VdfDrive} {fil : VdfFile} {m : Buffer} {q : Nat} {t : Int} {c : Civil}

theorem modifiedTime_lt (c : Civil) : modifiedTime (tmOf c) < 65536 := by
  have h1 := c.hour_lt
  have h2 := c.min_lt
  have h3 := c.sec_lt
  rw [modifiedTime_eq]
  omega

theorem modifiedDate_lt (c : Civil) : modifiedDate (tmOf c) < 65536 := by
  have h1 := c.mon_lt
  have h2 := c.mday_le.trans (monthDays_le _ _)
  rw [modifiedDate_eq]
  unfold stampYear
  split_ifs <;> omega

theorem WritesSlot.stampWord_eq (h : WritesSlot d fil m q) : stampWord m q = stampOf fil.date := by
  obtain ⟨c, -, hc⟩ := gmtime_civil fil.date
  rw [stampWord, h.words.1, h.words.2.1, stampOf, hc, Nat.mod_eq_of_lt (modifiedTime_lt c),
    Nat.mod_eq_of_lt (modifiedDate_lt c)]

/-- The stamp by the calendar fields. -/
theorem stampOf_eq (hc : gmtime t = tmOf c) : stampOf t =
    (stampYear c.year * 512 + (c.mon + 1) * 32 + c.mday) * 65536 +
      (c.hour * 2048 + c.min * 32 + c.sec / 2) := by
  rw [stampOf, hc, modifiedDate_eq, modifiedTime_eq]

/-- A date in front of the range has the first stamp iff its year starts with it. -/
theorem stampOf_early (hc : gmtime t = tmOf c) (hy : c.year < 1980) :
    stampOf t = firstStamp ↔ StartsYear (gmtime t) := by
  have h1 := c.mon_lt
  have h2 := c.mday_le.trans (monthDays_le _ _)
  have h3 := c.mday_pos
  have h4 := c.hour_lt
  have h5 := c.min_lt
  have h6 := c.sec_lt
  rw [stampOf_eq hc, hc, stampYear, if_pos hy]
  simp only [StartsYear, tmOf, firstStamp]
  omega

/-- A date behind it has the last stamp iff its year ends with it. -/
theorem stampOf_late (hc : gmtime t = tmOf c) (hy : 2107 < c.year) :
    stampOf t = lastStamp ↔ EndsYear (gmtime t) := by
  have h1 := c.mon_lt
  have h2 := c.mday_le.trans (monthDays_le _ _)
  have h4 := c.hour_lt
  have h5 := c.min_lt
  have h6 := c.sec_lt
  rw [stampOf_eq hc, hc, stampYear, if_neg (by omega), if_pos hy]
  simp only [EndsYear, tmOf, lastStamp]
  omega

theorem sec_and_one (c : Civil) : (tmOf c).sec &&& 1 = 0 ↔ c.seconds % 2 = 0 := by
  rw [Nat.and_one_is_mod]
  show c.sec % 2 = 0 ↔ _
  simp only [Civil.seconds, Civil.clock]
  omega

/-- A slot has the date of its file iff the date is kept. -/
theorem WritesSlot.dated_iff (h : WritesSlot d fil m q) : Dated d fil m q ↔ Datable d fil.date := by
  obtain ⟨c, hsec, hc⟩ := gmtime_civil fil.date
  obtain ⟨htime, hdate, hcreated⟩ := h.words
  rw [hc, Nat.mod_eq_of_lt (modifiedTime_lt c)] at htime
  rw [hc, Nat.mod_eq_of_lt (modifiedDate_lt c)] at hdate
  rw [hc, Nat.mod_eq_of_lt (modifiedTime_lt c), Nat.mod_eq_of_lt (modifiedDate_lt c)] at hcreated
  have hfirst : daysBeforeYear 1980 * 86400 ≤ fil.date ↔ 1980 ≤ c.year := hsec ▸ c.year_le_iff 1980
  have hlast : daysBeforeYear 2108 * 86400 ≤ fil.date ↔ 2108 ≤ c.year := hsec ▸ c.year_le_iff 2108
  have hstamp := h.stampWord_eq
  unfold Datable
  by_cases hearly : c.year < 1980
  · have hlt : fil.date < daysBeforeYear 1980 * 86400 := by omega
    rw [if_pos hlt, ← stampOf_early hc hearly, ← hstamp]
    refine ⟨fun hd => hd.early hlt, fun he => ⟨fun hr => ?_, fun hr => ?_, fun _ => he, fun hl => ?_⟩⟩
    · exact absurd hr.1 (by omega)
    · exact absurd hr.1 (by omega)
    · exact absurd (hlast.1 hl) (by omega)
  · rw [if_neg (by omega)]
    by_cases hlate : 2107 < c.year
    · have hle : daysBeforeYear 2108 * 86400 ≤ fil.date := by omega
      rw [if_neg (by omega), ← stampOf_late hc hlate, ← hstamp]
      refine ⟨fun hd => hd.late hle, fun he => ⟨fun hr => ?_, fun hr => ?_, fun hl => ?_, fun _ => he⟩⟩
      · exact absurd hr.2 (by omega)
      · exact absurd hr.2 (by omega)
      · exact absurd hl (by omega)
    · rw [if_pos (by omega)]
      obtain ⟨c', hdecode, hround⟩ := decodeStamp_modified c (by omega) (by omega)
      rw [hsec] at hround
      constructor
      · intro hd hf
        obtain ⟨c₂, hc₂, hexact⟩ := hd.created ⟨by omega, by omega⟩ hf
        rw [(hcreated hf).1, (hcreated hf).2.1, hdecode] at hc₂
        cases hc₂
        rw [(hcreated hf).2.2, hround] at hexact
        split at hexact
        · rename_i hz
          rw [← hsec]
          exact (sec_and_one c).1 hz
        · have h5 : ((5 : UInt8).toNat : Int) = 5 := rfl
          omega
      · intro heven
        refine ⟨fun _ => ⟨c', by rw [htime, hdate, hdecode], hround⟩, fun _ hf => ⟨c', ?_, ?_⟩,
          fun hl => absurd hl (by omega), fun hl => absurd hl (by omega)⟩
        · rw [(hcreated hf).1, (hcreated hf).2.1, hdecode]
        · have hz := heven hf
          rw [(hcreated hf).2.2, if_pos ((sec_and_one c).2 (hsec ▸ hz)), hround, hz]
          simp

/-- The bounds of a stamp. -/
theorem stampOf_bounds (t : Int) : firstStamp ≤ stampOf t ∧ stampOf t ≤ lastStamp := by
  obtain ⟨c, -, hc⟩ := gmtime_civil t
  have h1 := c.mon_lt
  have h2 := c.mday_le.trans (monthDays_le _ _)
  have h3 := c.mday_pos
  have h4 := c.hour_lt
  have h5 := c.min_lt
  have h6 := c.sec_lt
  have h7 : stampYear c.year ≤ 127 := by
    unfold stampYear
    split_ifs <;> omega
  rw [stampOf_eq hc]
  unfold firstStamp lastStamp
  omega

/-- In the range a later second has no earlier stamp. -/
theorem stampOf_mono {a b : Int} (hle : a ≤ b) (ha : InStampRange a) (hb : InStampRange b) :
    stampOf a ≤ stampOf b := by
  obtain ⟨x, rfl, hx⟩ := gmtime_civil a
  obtain ⟨y, rfl, hy⟩ := gmtime_civil b
  have hx1 := (x.year_le_iff 1980).1 ha.1
  have hy1 := (y.year_le_iff 1980).1 hb.1
  have hx2 : ¬ 2108 ≤ x.year := fun h => absurd ((x.year_le_iff 2108).2 h) (by have := ha.2; omega)
  have hy2 : ¬ 2108 ≤ y.year := fun h => absurd ((y.year_le_iff 2108).2 h) (by have := hb.2; omega)
  by_contra hlt
  rw [stampOf_eq hx, stampOf_eq hy, stampYear, stampYear, if_neg (by omega), if_neg (by omega),
    if_neg (by omega), if_neg (by omega)] at hlt
  have hbefore : y.Before x := by
    have h1 := x.mon_lt
    have h2 := y.mon_lt
    have h3 := x.mday_le.trans (monthDays_le _ _)
    have h4 := y.mday_le.trans (monthDays_le _ _)
    have h5 := x.hour_lt
    have h6 := y.hour_lt
    have h7 := x.min_lt
    have h8 := y.min_lt
    have h9 := x.sec_lt
    have h10 := y.sec_lt
    unfold Civil.Before Civil.clock
    rcases Int.lt_trichotomy y.year x.year with h | h | h
    · exact .inl h
    · refine .inr ⟨h, ?_⟩
      rcases Nat.lt_trichotomy y.mon x.mon with h | h | h
      · exact .inl h
      · refine .inr ⟨h, ?_⟩
        rcases Nat.lt_trichotomy y.mday x.mday with h | h | h
        · exact .inl h
        · exact .inr ⟨h, by omega⟩
        · omega
      · omega
    · omega
  exact absurd (Civil.seconds_lt hbefore) (by omega)

end Kept

/-- The dates of the files of a drive are kept, in their order, iff each of them is `Datable`. -/
theorem datesKept_iff (d : VdfDrive) (files : List VdfFile) :
    DatesKept d files ↔ ∀ fil ∈ files, Datable d fil.date := by
  constructor
  · intro h fil hm
    obtain ⟨m, q, hw⟩ := writesSlot_exists d fil
    exact hw.dated_iff.1 (h.dated fil hm m q hw)
  · intro h
    refine ⟨fun fil hm m q hw => hw.dated_iff.2 (h fil hm), fun a ha b hb hle m q m' q' hwa hwb => ?_⟩
    have hda := hwa.dated_iff.2 (h a ha)
    have hdb := hwb.dated_iff.2 (h b hb)
    by_cases hearly : a.date < daysBeforeYear 1980 * 86400
    · rw [hda.early hearly, hwb.stampWord_eq]
      exact (stampOf_bounds b.date).1
    · by_cases hlate : daysBeforeYear 2108 * 86400 ≤ b.date
      · rw [hdb.late hlate, hwa.stampWord_eq]
        exact (stampOf_bounds a.date).2
      · rw [hwa.stampWord_eq, hwb.stampWord_eq]
        exact stampOf_mono hle ⟨by omega, by omega⟩ ⟨by omega, by omega⟩

/-- The second second of 1980 on FAT32, and the last one of 1979 in front of it. -/
theorem dates_not_kept : ¬ DatesKept driveEmpty32 [{ date := 315532801 }] ∧
    ¬ DatesKept drive16 [{ date := 315532799 }, { date := 315532800 }] := by
  constructor
  · intro h
    obtain ⟨m, q, hw⟩ := writesSlot_exists driveEmpty32 { date := 315532801 }
    exact absurd (hw.dated_iff.1 (h.dated _ List.mem_cons_self m q hw)) (by decide)
  · intro h
    obtain ⟨m, q, hw⟩ := writesSlot_exists drive16 { date := 315532799 }
    obtain ⟨m', q', hw'⟩ := writesSlot_exists drive16 { date := 315532800 }
    have hle := h.ordered _ List.mem_cons_self _ (List.mem_cons_of_mem _ List.mem_cons_self) (by decide) m q
      m' q' hw hw'
    rw [hw.stampWord_eq, hw'.stampWord_eq] at hle
    exact absurd hle (by decide)

end Vdf
