import Mathlib.Data.List.TakeWhile
import Mathlib.Tactic.Ring
import Vdf.Fat12Walk
import Vdf.FatServed

/-!
# Requests that stay inside

When `read_sector_fat` returns, and writes nothing outside its request, whatever the table is. The
wide loops only run past the array (`WideStays`). The FAT12 loop also counts two bytes for an entry
whose second byte is not in the request: at the end of a chain, and behind the last one. Then the
length of `finish` is negative (`Fat12Stays`).
-/

namespace Vdf

open Word Buffer

/-- A call returns and leaves what is outside its request. -/
def Stays (p len : Nat) (m : Buffer) (r : Except Fault Buffer) : Prop :=
  ∃ m', r = .ok m' ∧ AgreeOutside p len m m'

/-- A call that stays inside its request under a condition, and fails without it. -/
structure StaysWhen (c : Prop) (p len : Nat) (m : Buffer) (r : Except Fault Buffer) : Prop where
  stays : c → Stays p len m r
  fails : ¬ c → ∃ f, r = .error f

namespace StaysWhen

variable {c : Prop} {p len : Nat} {m m' : Buffer} {r : Except Fault Buffer}

theorem of_stays (hc : c) (h : Stays p len m r) : StaysWhen c p len m r :=
  ⟨fun _ => h, fun hn => absurd hc hn⟩

theorem of_error (hc : ¬ c) {f : Fault} (h : r = .error f) : StaysWhen c p len m r :=
  ⟨fun hn => absurd hn hc, fun _ => ⟨f, h⟩⟩

end StaysWhen

/-- The ranges from the first one on that ends behind an entry. -/
def rangesFrom (rs : List FileRange) (ent : Nat) : List FileRange :=
  rs.dropWhile fun r => r.fatend ≤ ent

theorem rangesFrom_cases (rs : List FileRange) (ent : Nat) :
    rangesFrom rs ent = [] ∧ (∀ r ∈ rs, r.fatend ≤ ent) ∨
      ∃ front r rest, rangesFrom rs ent = r :: rest ∧ rs = front ++ r :: rest ∧
        (∀ x ∈ front, x.fatend ≤ ent) ∧ ent < r.fatend := by
  cases h : rangesFrom rs ent with
  | nil => exact .inl ⟨rfl, fun r hr => by simpa using List.dropWhile_eq_nil_iff.1 h r hr⟩
  | cons r rest =>
    refine .inr ⟨rs.takeWhile fun r => r.fatend ≤ ent, r, rest, rfl, ?_, fun x hx => ?_, ?_⟩
    · rw [← h, rangesFrom, List.takeWhile_append_dropWhile]
    · simpa using List.mem_takeWhile_imp hx
    · have := List.head?_dropWhile_not (fun r : FileRange => r.fatend ≤ ent) rs
      rw [rangesFrom] at h
      rw [h] at this
      simpa using this

/-! ## FAT16 and FAT32 -/

/-- Nothing is looked up, or the array has an element for each file, or the last chain ends behind
the request. -/
def WideStays (w : Nat) (d : VdfDrive) (rs : List FileRange) (sector scnt : Nat) : Prop :=
  let ent := firstEntry w d.bps sector
  d.dataClusterEnd ≤ ent ∨ d.fileCnt = rs.length ∨
    rangesFrom rs ent ≠ [] ∧ (sector + scnt) * d.bps < walkFin ent (rangesFrom rs ent) * w

section Wide

variable {w media eoc : Nat} {d : VdfDrive} {rs : List FileRange} {sector scnt : Nat}

theorem readSectorFatWide_error (h : FatRequest w d sector scnt) {f : Fault} {m : Buffer} {p : Nat}
    (he : findFileFatEntry d (firstEntry w d.bps sector) = .error f) :
    readSectorFatWide w media eoc d sector scnt m p = .error f := by
  obtain ⟨T, hT⟩ : ∃ T : Nat → Nat, sector = 0 → T 0 = media ∧ T 1 = eoc :=
    ⟨fun c => if c = 0 then media else eoc, fun _ => ⟨rfl, rfl⟩⟩
  obtain ⟨i, m₁, e, -⟩ := h.start (m := m) (p := p) hT
  unfold readSectorFatWide
  simp only [e, he]
  rfl

/-- The ranges whose chains a request walks from its first entry on. -/
def lookedUp (d : VdfDrive) (rs : List FileRange) (ent : Nat) : List FileRange :=
  if d.dataClusterEnd ≤ ent then [] else rangesFrom rs ent

/-- The table of which a request writes its part. -/
def requestTable (w media eoc : Nat) (d : VdfDrive) (rs : List FileRange) (sector c : Nat) : Nat :=
  let ent := firstEntry w d.bps sector
  if c = 0 then media else if c = 1 then eoc else walkEntry eoc ent (lookedUp d rs ent) c

theorem requestTable_of_two_le {c : Nat} (h : 2 ≤ c) : requestTable w media eoc d rs sector c =
    walkEntry eoc (firstEntry w d.bps sector) (lookedUp d rs (firstEntry w d.bps sector)) c := by
  rw [requestTable, if_neg (by omega), if_neg (by omega)]

/-- A request writes its part of the table under the condition, and fails without it. -/
theorem readSectorFatWide_eq (h : FatRequest w d sector scnt) (hr : Ranged d rs)
    (htwo : 2 ≤ firstEntry w d.bps sector) (m : Buffer) (p : Nat) :
    (WideStays w d rs sector scnt → readSectorFatWide w media eoc d sector scnt m p =
      .ok (m.overlay p (scnt * d.bps) fun j =>
        some (entryByte w (requestTable w media eoc d rs sector) (sector * d.bps + j)))) ∧
    (¬ WideStays w d rs sector scnt →
      ∃ f, readSectorFatWide w media eoc d sector scnt m p = .error f) := by
  have h01 : sector = 0 → requestTable w media eoc d rs sector 0 = media ∧
      requestTable w media eoc d rs sector 1 = eoc := fun _ => ⟨rfl, rfl⟩
  have htable : ∀ c, firstEntry w d.bps sector ≤ c →
      requestTable w media eoc d rs sector c = walkEntry eoc (firstEntry w d.bps sector)
        (lookedUp d rs (firstEntry w d.bps sector)) c := fun c hc =>
    requestTable_of_two_le (Nat.le_trans htwo hc)
  -- Nothing is looked up.
  have hfree (hnil : lookedUp d rs (firstEntry w d.bps sector) = [])
      (he : findFileFatEntry d (firstEntry w d.bps sector) = .ok none) :
      readSectorFatWide w media eoc d sector scnt m p = .ok (m.overlay p (scnt * d.bps) fun j =>
        some (entryByte w (requestTable w media eoc d rs sector) (sector * d.bps + j))) :=
    readSectorFatWide_free h h01 he fun c hc _ => by
      rw [htable c hc, hnil, walkEntry_nil _ hc]
  by_cases hend : d.dataClusterEnd ≤ firstEntry w d.bps sector
  · refine ⟨fun _ => hfree (if_pos hend) ?_, fun hc => absurd (.inl hend) hc⟩
    rw [findFileFatEntry, if_pos hend]
  · obtain ⟨hfound, hnone⟩ := findFileFatEntry_spec hr (Nat.lt_of_not_le hend)
    have hlooked : lookedUp d rs (firstEntry w d.bps sector) =
        rangesFrom rs (firstEntry w d.bps sector) := if_neg hend
    rcases rangesFrom_cases rs (firstEntry w d.bps sector) with
      ⟨hnil, hall⟩ | ⟨front, r, rest, hcons, hrs, hfront, hlt⟩
    · have hlook := hnone hall
      by_cases hcnt : d.fileCnt = rs.length
      · rw [if_pos hcnt] at hlook
        exact ⟨fun _ => hfree (hlooked.trans hnil) hlook, fun hc => absurd (.inr (.inl hcnt)) hc⟩
      · rw [if_neg hcnt] at hlook
        exact ⟨fun hc => absurd hc (by simp [WideStays, hend, hcnt, hnil]),
          fun _ => ⟨_, readSectorFatWide_error h hlook⟩⟩
    · obtain ⟨hok, herr⟩ := readSectorFatWide_walk (m := m) (p := p) h hr h01 hrs
        (hfound front r rest hrs hfront hlt) fun c hc _ => by rw [htable c hc, hlooked, hcons]
      have hcond : WideStays w d rs sector scnt ↔ d.fileCnt = rs.length ∨
          (sector + scnt) * d.bps < walkFin (firstEntry w d.bps sector) (r :: rest) * w := by
        simp only [WideStays, hcons, hend, false_or, ne_eq, reduceCtorEq, not_false_eq_true, true_and]
      rw [hcond, not_or, Nat.not_lt]
      exact ⟨hok, fun hc => ⟨_, herr hc.1 hc.2⟩⟩

/-- A request stays inside under the condition, and fails without it. -/
theorem readSectorFatWide_stays (h : FatRequest w d sector scnt) (hr : Ranged d rs)
    (htwo : 2 ≤ firstEntry w d.bps sector) (m : Buffer) (p : Nat) :
    StaysWhen (WideStays w d rs sector scnt) p (scnt * d.bps) m
      (readSectorFatWide w media eoc d sector scnt m p) := by
  obtain ⟨hok, herr⟩ := @readSectorFatWide_eq w media eoc d rs sector scnt h hr htwo m p
  exact ⟨fun hc => ⟨_, hok hc, .overlay m p _ _⟩, herr⟩

end Wide

/-! ## FAT12 -/

/-- The byte of a request at which the loop writes the entry `k` entries on. It stands at byte `i`, at
the second entry of a pair if `half`. -/
def entryOffset (i : Nat) (half : Bool) (k : Nat) : Nat := i + (3 * k + half.toNat) / 2

/-- The entry `k` entries on is the second one of its pair. -/
def entryOdd (half : Bool) (k : Nat) : Prop := (k + half.toNat) % 2 = 1

/-- Entry `x`, written at byte `b` of a request of `len` bytes, does not count past it. -/
structure EntryFits (ends : List Nat) (fin len : Nat) (complete : Prop) (b : Nat) (odd : Prop)
    (x : Nat) : Prop where
  -- The mark in the second entry of a pair counts for two bytes.
  mark : x + 1 ∈ ends → odd → b + 1 ≠ len
  -- A second entry whose second byte is the last one leaves that byte to the entry behind it, and
  -- the last entry of all counts for two.
  early : x + 2 = fin → x + 1 ∉ ends → odd → b + 2 ≠ len
  last : x + 1 = fin → len ≤ b ∨ complete ∧ b + 2 ≤ len

/-- The entries from `x` on fit. -/
def EntriesFit (ends : List Nat) (fin len : Nat) (complete : Prop) (i x : Nat) (half : Bool) : Prop :=
  ∀ k, EntryFits ends fin len complete (entryOffset i half k) (entryOdd half k) (x + k)

section Entries

variable {ends : List Nat} {fin len i x : Nat} {complete : Prop} {half : Bool}

/-- The entry that the loop stands at, and those behind it. -/
theorem entriesFit_step : EntriesFit ends fin len complete i x half ↔
    EntryFits ends fin len complete i (half = true) x ∧
      EntriesFit ends fin len complete (i + if half then 2 else 1) (x + 1) (!half) := by
  have h0 : entryOffset i half 0 = i ∧ (entryOdd half 0 ↔ half = true) := by
    cases half <;> simp [entryOffset, entryOdd]
  have hs (k : Nat) : entryOffset i half (k + 1) =
      entryOffset (i + if half then 2 else 1) (!half) k ∧
      (entryOdd half (k + 1) ↔ entryOdd (!half) k) ∧ x + (k + 1) = x + 1 + k := by
    cases half
    · simp only [entryOffset, entryOdd, Bool.toNat_false, Bool.toNat_true, Bool.not_false,
        Bool.false_eq_true, ↓reduceIte]
      exact ⟨by omega, trivial, by omega⟩
    · simp only [entryOffset, entryOdd, Bool.toNat_false, Bool.toNat_true, Bool.not_true, ↓reduceIte]
      exact ⟨by omega, by omega, by omega⟩
  rw [EntriesFit, EntriesFit, ← Nat.and_forall_add_one]
  refine and_congr (by rw [h0.1, h0.2, Nat.add_zero]) (forall_congr' fun k => ?_)
  obtain ⟨h1, h2, h3⟩ := hs k
  rw [h1, h2, h3]

/-- Behind the request nothing is written. -/
theorem entriesFit_behind (h : len ≤ i) : EntriesFit ends fin len complete i x half := fun k =>
  have hb : len ≤ entryOffset i half k := Nat.le_add_right_of_le h
  ⟨fun _ _ => by omega, fun _ _ _ => by omega, fun _ => .inl hb⟩

/-- The last entry of all. -/
theorem entriesFit_last (hfin : x + 1 = fin) (hends : ∀ c, x < c → c ∈ ends → c ≤ fin)
    (hlt : i < len) : EntriesFit ends fin len complete i x half ↔ complete ∧ i + 2 ≤ len := by
  rw [entriesFit_step]
  constructor
  · rintro ⟨h, -⟩
    exact (h.last hfin).resolve_left (by omega)
  · rintro ⟨hc, hle⟩
    refine ⟨⟨fun _ _ => by omega, fun h => by omega, fun _ => .inr ⟨hc, hle⟩⟩, fun k => ?_⟩
    refine ⟨fun h => ?_, fun h => by omega, fun h => by omega⟩
    have := hends _ (by omega) h
    omega

end Entries

section Loop

variable {d : VdfDrive} {rs : List FileRange} {ends : List Nat} {fin p len : Nat} {s : Fat12State}

/-- The stores of one entry. -/
theorem store_agree (hb : s.buffer = p + s.i) (hlt : s.i < len) (m : Buffer) (v : UInt8) :
    AgreeOutside p len m (m.set s.buffer v) :=
  .set m (by omega) (by omega)

theorem store_two_agree (hb : s.buffer = p + s.i) (hlt : s.i + 1 < len) (m : Buffer) (v v' : UInt8) :
    AgreeOutside p len m ((m.set s.buffer v).set (s.buffer + 1) v') :=
  (store_agree hb (by omega) m v).trans (.set _ (by omega) (by omega))

theorem evenMem_agree (hb : s.buffer = p + s.i) (hlt : s.i < len) :
    AgreeOutside p len s.m (evenMem ends fin len s) := by
  unfold evenMem
  by_cases hend : s.ent + 1 ∈ ends
  · simp only [hend, ↓reduceIte]
    split
    · exact store_two_agree hb (by omega) _ _ _
    · exact store_agree hb hlt _ _
  · simp only [hend, ↓reduceIte]
    split
    · exact store_two_agree hb (by omega) _ _ _
    · exact store_agree hb hlt _ _

theorem oddDone_agree (hb : s.buffer = p + s.i) (hlt : s.i < len) :
    AgreeOutside p len s.m (oddDone ends len s).2.2 := by
  unfold oddDone
  dsimp only
  split_ifs
  · exact store_two_agree hb (by omega) _ _ _
  · exact store_agree hb hlt _ _
  · exact store_two_agree hb (by omega) _ _ _
  · exact store_agree hb hlt _ _

/-- The loop returns behind bytes of the request, -/
def LoopStays (p len : Nat) (m : Buffer) (r : Except Fault (Nat × Nat × Buffer)) : Prop :=
  ∃ i m', r = .ok (i, p + i, m') ∧ i ≤ len ∧ AgreeOutside p len m m'

/-- or it has counted a byte too many, or it fails. -/
def LoopFails (len : Nat) (r : Except Fault (Nat × Nat × Buffer)) : Prop :=
  (∃ f, r = .error f) ∨ ∃ q m', r = .ok (len + 1, q, m')

theorem fat12Loop_done (fuel : Nat) (h : len ≤ s.i) :
    fat12Loop d len fuel s = .ok (s.i, s.buffer, s.m) := by
  cases fuel with
  | zero => rfl
  | succ fuel => rw [fat12Loop, if_neg (by omega)]

theorem LoopStays.of_step {m m' : Buffer} {r : Except Fault (Nat × Nat × Buffer)}
    (h : LoopStays p len m' r) (hm : AgreeOutside p len m m') : LoopStays p len m r := by
  obtain ⟨i, m'', hr, hle, ha⟩ := h
  exact ⟨i, m'', hr, hle, hm.trans ha⟩

/-- A loop that stays inside under a condition, and counts a byte too many or fails without it. -/
structure LoopStaysWhen (c : Prop) (p len : Nat) (m : Buffer)
    (r : Except Fault (Nat × Nat × Buffer)) : Prop where
  stays : c → LoopStays p len m r
  fails : ¬ c → LoopFails len r

namespace LoopStaysWhen

variable {c : Prop} {m m' : Buffer} {r : Except Fault (Nat × Nat × Buffer)}

theorem of_stays (hc : c) (h : LoopStays p len m r) : LoopStaysWhen c p len m r :=
  ⟨fun _ => h, fun hn => absurd hc hn⟩

theorem of_fails (hc : ¬ c) (h : LoopFails len r) : LoopStaysWhen c p len m r :=
  ⟨fun hn => absurd hn hc, fun _ => h⟩

theorem of_step (h : LoopStaysWhen c p len m' r) (hm : AgreeOutside p len m m') :
    LoopStaysWhen c p len m r :=
  ⟨fun hc => (h.stays hc).of_step hm, h.fails⟩

end LoopStaysWhen

/-- The outcome of the last entry of all, which counts for two bytes. -/
theorem loop_last {complete : Prop} [Decidable complete] {i n : Nat} {m m' : Buffer}
    (hi : i < len) (ha : AgreeOutside p len m m')
    {r : Except Fault (Nat × Nat × Buffer)} {q : Nat} (hq : i + 2 ≤ len → q = p + (i + 2))
    (hr : r = if complete then .ok (i + 2, q, m') else .error (.rangesIndex n)) :
    LoopStaysWhen (complete ∧ i + 2 ≤ len) p len m r := by
  constructor
  · rintro ⟨hc, hle⟩
    rw [if_pos hc, hq hle] at hr
    exact ⟨_, _, hr, hle, ha⟩
  · intro hn
    by_cases hc : complete
    · have hgt : ¬ i + 2 ≤ len := fun h => hn ⟨hc, h⟩
      rw [if_pos hc, (by omega : i + 2 = len + 1)] at hr
      exact .inr ⟨_, _, hr⟩
    · rw [if_neg hc] at hr
      exact .inl ⟨_, hr⟩

/-- A state of the loop for a request of `len` bytes at `p`. -/
structure Fat12At (rs : List FileRange) (ends : List Nat) (fin p len : Nat) (s : Fat12State) :
    Prop where
  walk : WalkAt rs ends fin s.ent s.file s.rangeInd
  clust : s.clust = s.ent + 1
  buffer : s.buffer = p + s.i
  le : s.i ≤ len
  bound : s.ent + 2 * (len - s.i) + 2 < 2 ^ 32

/-- The next entry, some bytes further. -/
theorem Fat12At.next (h : Fat12At rs ends fin p len s) {i q : Nat} {half : Bool} {m : Buffer}
    {file : FileId} {rangeInd : Nat} (hat : WalkAt rs ends fin (s.ent + 1) file rangeInd)
    (hq : q = p + i) (hi : s.i < i) (hle : i ≤ len) : Fat12At rs ends fin p len
      { i, buffer := q, ent := s.ent + 1, clust := s.ent + 2, halfent := half, file, rangeInd, m } := by
  have := h.bound
  exact ⟨hat, rfl, hq, hle, by dsimp only; omega⟩

/-- `fuel` rounds stay inside when the entries from the state on fit, and only then. -/
def Fat12Fits (d : VdfDrive) (rs : List FileRange) (ends : List Nat) (fin p len fuel : Nat) : Prop :=
  ∀ s, Fat12At rs ends fin p len s → len - s.i ≤ fuel →
    LoopStaysWhen (EntriesFit ends fin len (d.fileCnt = rs.length) s.i s.ent s.halfent) p len s.m
      (fat12Loop d len fuel s)

section Rounds

variable {fuel : Nat} (hr : Ranged d rs) (ih : Fat12Fits d rs ends fin p len fuel)
  (h : Fat12At rs ends fin p len s) (hlt : s.i < len) (hfuel : len - s.i ≤ fuel + 1)

include hr h hlt

/-- The last entry of all. -/
theorem loop_end (hstop : fin ≤ s.ent + 1) :
    LoopStaysWhen (EntriesFit ends fin len (d.fileCnt = rs.length) s.i s.ent s.halfent) p len s.m
      (fat12Loop d len (fuel + 1) s) := by
  have hfin := h.walk.lt
  have hb := h.buffer
  have hx := h.bound
  rw [entriesFit_last (by omega) (fun c => h.walk.le_of_mem) hlt]
  cases hh : s.halfent with
  | false =>
    obtain ⟨hlast, -⟩ := fat12Loop_even len fuel hr h.walk h.clust (by omega) hlt hh
    exact loop_last hlt (evenMem_agree hb hlt) (fun _ => by omega) (hlast (by omega)).2
  | true =>
    obtain ⟨hlast, -⟩ := fat12Loop_odd len fuel hr h.walk h.clust (by omega) hlt hh
    obtain ⟨hend, hrun⟩ := hlast (by omega)
    have hdone : oddDone ends len s =
        (s.i + 2, (oddDone ends len s).2.1, (oddDone ends len s).2.2) := by
      unfold oddDone
      rw [if_pos hend]
      split <;> rfl
    refine loop_last hlt (oddDone_agree hb hlt) (fun hle => ?_) (hdone ▸ hrun)
    rw [oddDone, if_pos hend, if_pos (by omega)]
    dsimp only
    omega

include ih hfuel

/-- The first entry of a pair counts for one byte. -/
theorem loop_even (hh : s.halfent = false) (hgo : s.ent + 1 < fin) :
    LoopStaysWhen (EntriesFit ends fin len (d.fileCnt = rs.length) s.i s.ent s.halfent) p len s.m
      (fat12Loop d len (fuel + 1) s) := by
  have hb := h.buffer
  have hx := h.bound
  obtain ⟨file, rangeInd, hat, hrun⟩ :=
    (fat12Loop_even len fuel hr h.walk h.clust (by omega) hlt hh).2 hgo
  have hfit : EntryFits ends fin len (d.fileCnt = rs.length) s.i (false = true) s.ent :=
    ⟨by simp, by simp, fun h => by omega⟩
  have hrest := ih
    { i := s.i + 1, buffer := s.buffer + 1, ent := s.ent + 1, clust := s.ent + 2, halfent := true
      file, rangeInd, m := evenMem ends fin len s }
    (h.next hat (by omega) (by omega) (by omega)) (by dsimp only; omega)
  rw [hrun, hh, entriesFit_step, and_iff_right hfit]
  exact hrest.of_step (evenMem_agree hb hlt)

/-- A second entry with room for its bytes, and for what is behind an entry that is no mark. -/
theorem loop_odd (hh : s.halfent = true) (hgo : s.ent + 1 < fin)
    (hroom : if s.ent + 1 ∈ ends then s.i + 1 < len else s.i + 2 < len) :
    LoopStaysWhen (EntriesFit ends fin len (d.fileCnt = rs.length) s.i s.ent s.halfent) p len s.m
      (fat12Loop d len (fuel + 1) s) := by
  have hb := h.buffer
  have hx := h.bound
  obtain ⟨file, rangeInd, hat, hrun⟩ :=
    (fat12Loop_odd len fuel hr h.walk h.clust (by omega) hlt hh).2 hgo
  have hdone : (oddDone ends len s).1 = s.i + 2 ∧ (oddDone ends len s).2.1 = s.buffer + 2 := by
    unfold oddDone
    split at hroom
    · rename_i hend
      rw [if_pos hend, if_pos hroom]
      exact ⟨rfl, rfl⟩
    · rename_i hend
      rw [if_neg hend, if_pos hroom]
      exact ⟨rfl, rfl⟩
  have hle : s.i + 2 ≤ len := by split at hroom <;> omega
  have hfit : EntryFits ends fin len (d.fileCnt = rs.length) s.i (true = true) s.ent :=
    ⟨fun hend _ => by rw [if_pos hend] at hroom; omega,
      fun _ hend _ => by rw [if_neg hend] at hroom; omega, fun h => by omega⟩
  have hrest := ih
    { i := s.i + 2, buffer := s.buffer + 2, ent := s.ent + 1, clust := s.ent + 2, halfent := false
      file, rangeInd, m := (oddDone ends len s).2.2 }
    (h.next hat (by omega) (by omega) hle) (by dsimp only; omega)
  rw [hrun, hh, entriesFit_step, hdone.1, hdone.2, and_iff_right hfit]
  exact hrest.of_step (oddDone_agree hb hlt)

omit ih hfuel

/-- The mark in a second entry at the last byte counts for two. -/
theorem loop_odd_mark (hh : s.halfent = true) (hgo : s.ent + 1 < fin) (hend : s.ent + 1 ∈ ends)
    (hcut : len ≤ s.i + 1) :
    LoopStaysWhen (EntriesFit ends fin len (d.fileCnt = rs.length) s.i s.ent s.halfent) p len s.m
      (fat12Loop d len (fuel + 1) s) := by
  have hx := h.bound
  obtain ⟨file, rangeInd, hat, hrun⟩ :=
    (fat12Loop_odd len fuel hr h.walk h.clust (by omega) hlt hh).2 hgo
  have hdone : (oddDone ends len s).1 = len + 1 := by
    rw [oddDone, if_pos hend, if_neg (by omega)]
    dsimp only
    omega
  rw [hrun, hh, entriesFit_step]
  refine .of_fails (fun hfit => absurd (by omega) (hfit.1.mark hend rfl)) (.inr ?_)
  rw [fat12Loop_done _ (by dsimp only; omega), hdone]
  exact ⟨_, _, rfl⟩

include hfuel

/-- A second entry whose second byte is not in the request leaves its last byte, if there is one, to
the first entry of the next pair. -/
theorem loop_odd_cut (hh : s.halfent = true) (hgo : s.ent + 1 < fin) (hend : s.ent + 1 ∉ ends)
    (hcut : len ≤ s.i + 2) :
    LoopStaysWhen (EntriesFit ends fin len (d.fileCnt = rs.length) s.i s.ent s.halfent) p len s.m
      (fat12Loop d len (fuel + 1) s) := by
  have hb := h.buffer
  have hx := h.bound
  have hagree : AgreeOutside p len s.m (oddDone ends len s).2.2 := oddDone_agree hb hlt
  obtain ⟨file, rangeInd, hat, hrun⟩ :=
    (fat12Loop_odd len fuel hr h.walk h.clust (by omega) hlt hh).2 hgo
  have hdone : (oddDone ends len s).1 = s.i + 1 ∧ (oddDone ends len s).2.1 = s.buffer + 1 := by
    rw [oddDone, if_neg hend, if_neg (by omega)]
    exact ⟨rfl, rfl⟩
  have hbehind := @entriesFit_behind ends fin len (s.i + 2) (s.ent + 1)
    (d.fileCnt = rs.length) false (by omega)
  rw [hrun, hh, entriesFit_step, hdone.1, hdone.2]
  by_cases hone : s.i + 1 = len
  · have hfit : EntryFits ends fin len (d.fileCnt = rs.length) s.i (true = true) s.ent :=
      ⟨fun h => absurd h hend, fun _ _ _ => by omega, fun h => by omega⟩
    refine .of_stays ⟨hfit, hbehind⟩ ?_
    rw [fat12Loop_done _ (by dsimp only; omega)]
    exact ⟨s.i + 1, _, by rw [hb]; rfl, by omega, hagree⟩
  · obtain ⟨fuel, rfl⟩ : ∃ n, fuel = n + 1 := ⟨fuel - 1, by omega⟩
    obtain ⟨hlast, hnext⟩ := fat12Loop_even (s :=
      { i := s.i + 1, buffer := s.buffer + 1, ent := s.ent + 1, clust := s.ent + 2
        halfent := false, file, rangeInd, m := (oddDone ends len s).2.2 })
      len fuel hr hat rfl (by dsimp only; omega) (by dsimp only; omega) rfl
    have hagree' : AgreeOutside p len s.m (evenMem ends fin len
        { i := s.i + 1, buffer := s.buffer + 1, ent := s.ent + 1, clust := s.ent + 2
          halfent := false, file, rangeInd, m := (oddDone ends len s).2.2 }) :=
      hagree.trans (evenMem_agree (by dsimp only; omega) (by dsimp only; omega))
    rcases Nat.lt_or_ge (s.ent + 2) fin with hgo' | hstop
    · obtain ⟨file', rangeInd', -, hrun'⟩ := hnext hgo'
      have hfit : EntryFits ends fin len (d.fileCnt = rs.length) s.i (true = true) s.ent :=
        ⟨fun h => absurd h hend, fun h => by omega, fun h => by omega⟩
      refine .of_stays ⟨hfit, hbehind⟩ ?_
      rw [hrun', fat12Loop_done _ (by dsimp only; omega)]
      exact ⟨s.i + 2, _, by rw [hb]; rfl, by omega, hagree'⟩
    · -- It is the last one of all, and counts for two bytes.
      refine .of_fails (fun hfit => absurd (by omega) (hfit.1.early (by omega) hend rfl)) ?_
      exact (loop_last (i := s.i + 1) (by omega) hagree' (fun h => by omega)
        (hlast (by dsimp only; omega)).2).fails (by omega)

end Rounds

/-- The loop stays inside when the entries fit, and only then. -/
theorem fat12Loop_stays (hr : Ranged d rs) (fuel : Nat) : Fat12Fits d rs ends fin p len fuel := by
  induction fuel with
  | zero =>
    intro s h hfuel
    exact .of_stays (entriesFit_behind (by omega))
      ⟨s.i, s.m, by rw [fat12Loop, h.buffer], h.le, .refl _ _ _⟩
  | succ fuel ih =>
    intro s h hfuel
    rcases Nat.lt_or_ge s.i len with hlt | hge
    · rcases Nat.lt_or_ge (s.ent + 1) fin with hgo | hstop
      · cases hh : s.halfent with
        | false => exact hh ▸ loop_even hr ih h hlt hfuel hh hgo
        | true =>
          by_cases hend : s.ent + 1 ∈ ends
          · rcases Nat.lt_or_ge (s.i + 1) len with hroom | hcut
            · exact hh ▸ loop_odd hr ih h hlt hfuel hh hgo (by rwa [if_pos hend])
            · exact hh ▸ loop_odd_mark hr h hlt hh hgo hend hcut
          · rcases Nat.lt_or_ge (s.i + 2) len with hroom | hcut
            · exact hh ▸ loop_odd hr ih h hlt hfuel hh hgo (by rwa [if_neg hend])
            · exact hh ▸ loop_odd_cut hr h hlt hfuel hh hgo hend hcut
      · exact loop_end hr h hlt hstop
    · exact .of_stays (entriesFit_behind hge)
        ⟨s.i, s.m, by rw [fat12Loop_done _ hge, h.buffer], h.le, .refl _ _ _⟩

/-- The length of `finish` is negative behind a byte too many. -/
theorem finishFat_negative (hlt : len < 2 ^ 31) (q : Nat) (m : Buffer) :
    finishFat len (len + 1) q m = .error .memsetLength := by
  have hn : toI32 (subU32 len (len + 1)) = -1 := by
    rw [subU32_of_lt (by omega) (by omega), toI32, if_neg (by omega)]
    omega
  unfold finishFat
  dsimp only
  rw [hn]
  rfl

theorem LoopStays.finish {m : Buffer} {r : Except Fault (Nat × Nat × Buffer)} (hlt : len < 2 ^ 31)
    (h : LoopStays p len m r) : Stays p len m (r.bind fun (i, q, m') => finishFat len i q m') := by
  obtain ⟨i, m', rfl, hle, ha⟩ := h
  refine ⟨m'.fill (p + i) (len - i) 0, finishFat_eq hle hlt, ha.trans ?_⟩
  exact (AgreeOutside.fill m' (p + i) (len - i) 0).mono (by omega) (by omega)

theorem LoopFails.finish {r : Except Fault (Nat × Nat × Buffer)} (hlt : len < 2 ^ 31)
    (h : LoopFails len r) : ∃ f, (r.bind fun (i, q, m') => finishFat len i q m') = .error f := by
  rcases h with ⟨f, rfl⟩ | ⟨q, m', rfl⟩
  · exact ⟨f, rfl⟩
  · exact ⟨_, finishFat_negative hlt q m'⟩

end Loop

/-- The entry that a request looks up first, -/
def firstEntry12 (bps sector : Nat) : Nat := if sector = 0 then 2 else sector * 2 * bps / 3 / 2

/-- the byte at which it is written, -/
def firstByte12 (sector : Nat) : Nat := if sector = 0 then 3 else 0

/-- and whether it is taken for the second one of its pair. -/
def firstOdd12 (bps sector : Nat) : Bool := if sector = 0 then false else sector * 2 * bps / 3 % 2 == 1

/-- Nothing is looked up, or the entries from the first one on fit. -/
def Fat12Stays (d : VdfDrive) (rs : List FileRange) (sector scnt : Nat) : Prop :=
  let ent := firstEntry12 d.bps sector
  let live := rangesFrom rs ent
  d.dataClusterEnd ≤ ent ∨
    if live = [] then d.fileCnt = rs.length
    else EntriesFit (walkEnds ent live) (walkFin ent live) (scnt * d.bps) (d.fileCnt = rs.length)
      (firstByte12 sector) ent (firstOdd12 d.bps sector)

section Packed

variable {d : VdfDrive} {rs : List FileRange} {sector scnt : Nat}

/-- The entries in front of a sector are counted without overflow. -/
theorem u32_start (sector : Nat) {bps : Nat} (hbps : 3 ≤ bps)
    (hlt : sector * bps < 2 ^ 31) : u32 (sector * 2) = sector * 2 ∧
      u32 (sector * 2 * bps / 3) = sector * 2 * bps / 3 := by
  have h1 := Nat.mul_le_mul_left sector hbps
  have h2 : sector * 2 * bps = 2 * (sector * bps) := by ring
  exact ⟨u32_of_lt (by omega), u32_of_lt (by omega)⟩

/-- The memory before the lookup of the first entry. -/
def fat12Header (sector : Nat) (m : Buffer) (p : Nat) : Buffer :=
  if sector = 0 then ((m.set p 0xf8).set (p + 1) 0xff).set (p + 2) 0xff else m

theorem fat12Header_agree (sector : Nat) {len : Nat} (hlen : 3 ≤ len) (m : Buffer) (p : Nat) :
    AgreeOutside p len m (fat12Header sector m p) := by
  unfold fat12Header
  split
  · refine (AgreeOutside.set m ?_ ?_).trans ((AgreeOutside.set _ ?_ ?_).trans (.set _ ?_ ?_)) <;>
      omega
  · exact .refl _ _ _

/-- A request up to the lookup of its first entry. -/
theorem readSectorFat12_eq (hbps : 3 ≤ d.bps) (hpos : 0 < scnt)
    (hlt : (sector + scnt) * d.bps < 2 ^ 31) (m : Buffer) (p : Nat) :
    readSectorFat12 d sector scnt m p =
      (findFileFatEntry d (firstEntry12 d.bps sector)).bind fun
        | none => finishFat (scnt * d.bps) (firstByte12 sector) (p + firstByte12 sector)
            (fat12Header sector m p)
        | some (file, rangeInd) =>
          (fat12Loop d (scnt * d.bps) (scnt * d.bps)
            { i := firstByte12 sector, buffer := p + firstByte12 sector
              ent := firstEntry12 d.bps sector, clust := u32 (firstEntry12 d.bps sector + 1)
              halfent := firstOdd12 d.bps sector, file, rangeInd, m := fat12Header sector m p }).bind
            fun (i, q, m') => finishFat (scnt * d.bps) i q m' := by
  have hle : d.bps ≤ scnt * d.bps := Nat.le_mul_of_pos_left _ hpos
  rw [Nat.add_mul] at hlt
  have hlen : u32 (scnt * d.bps) = scnt * d.bps := u32_of_lt (by omega)
  unfold readSectorFat12 firstEntry12 firstByte12 firstOdd12 fat12Header
  by_cases hs : sector = 0
  · simp only [hlen, hs, ↓reduceIte]
    rfl
  · obtain ⟨hs2, hs3⟩ := u32_start sector hbps (by omega)
    simp only [hlen, hs2, hs3, hs, ↓reduceIte]
    rfl

/-- The state at the first entry of a request. -/
theorem Fat12At.first {front rest : List FileRange} {r : FileRange} (hrs : rs = front ++ r :: rest)
    (hbps : 3 ≤ d.bps) (hpos : 0 < scnt) (hlt : (sector + scnt) * d.bps < 2 ^ 31) (m : Buffer)
    (p : Nat) : Fat12At rs (walkEnds (firstEntry12 d.bps sector) (r :: rest))
      (walkFin (firstEntry12 d.bps sector) (r :: rest)) p (scnt * d.bps)
      { i := firstByte12 sector, buffer := p + firstByte12 sector
        ent := firstEntry12 d.bps sector, clust := u32 (firstEntry12 d.bps sector + 1)
        halfent := firstOdd12 d.bps sector, file := r.file, rangeInd := front.length, m } := by
  have hle : d.bps ≤ scnt * d.bps := Nat.le_mul_of_pos_left _ hpos
  rw [Nat.add_mul] at hlt
  have hbyte : firstByte12 sector ≤ scnt * d.bps := by unfold firstByte12; split <;> omega
  have hent : firstEntry12 d.bps sector + 2 * (scnt * d.bps - firstByte12 sector) + 2 < 2 ^ 32 := by
    have h2 : sector * 2 * d.bps = 2 * (sector * d.bps) := by ring
    unfold firstEntry12 firstByte12
    by_cases hs : sector = 0
    · rw [if_pos hs, if_pos hs]
      omega
    · have h3 : d.bps ≤ sector * d.bps := Nat.le_mul_of_pos_left _ (Nat.pos_of_ne_zero hs)
      rw [if_neg hs, if_neg hs, h2]
      omega
  exact ⟨.of_range hrs _, u32_of_lt (by omega), rfl, hbyte, hent⟩

/-- A request stays inside under the condition, and fails without it. -/
theorem readSectorFat12_stays (hr : Ranged d rs) (hbps : 3 ≤ d.bps) (hpos : 0 < scnt)
    (hlt : (sector + scnt) * d.bps < 2 ^ 31) (m : Buffer) (p : Nat) :
    StaysWhen (Fat12Stays d rs sector scnt) p (scnt * d.bps) m
      (readSectorFat12 d sector scnt m p) := by
  have hle : d.bps ≤ scnt * d.bps := Nat.le_mul_of_pos_left _ hpos
  have he := readSectorFat12_eq hbps hpos hlt m p
  have ha : AgreeOutside p (scnt * d.bps) m (fat12Header sector m p) :=
    fat12Header_agree sector (by omega) m p
  generalize fat12Header sector m p = m₁ at he ha
  rw [Nat.add_mul] at hlt
  have hbyte : firstByte12 sector ≤ scnt * d.bps := by unfold firstByte12; split <;> omega
  have hfree : Stays p (scnt * d.bps) m
      (finishFat (scnt * d.bps) (firstByte12 sector) (p + firstByte12 sector) m₁) := by
    refine ⟨_, finishFat_eq hbyte (by omega), ha.trans ?_⟩
    exact (AgreeOutside.fill _ _ _ _).mono (by omega) (by omega)
  rw [he]
  by_cases hend : d.dataClusterEnd ≤ firstEntry12 d.bps sector
  · rw [findFileFatEntry, if_pos hend]
    exact .of_stays (.inl hend) hfree
  · obtain ⟨hfound, hnone⟩ := findFileFatEntry_spec hr (Nat.lt_of_not_le hend)
    rcases rangesFrom_cases rs (firstEntry12 d.bps sector) with
      ⟨hnil, hall⟩ | ⟨front, r, rest, hcons, hrs, hfront, hlt'⟩
    · have hcond : Fat12Stays d rs sector scnt ↔ d.fileCnt = rs.length := by
        simp only [Fat12Stays, hnil, ↓reduceIte]
        exact or_iff_right hend
      rw [hnone hall]
      by_cases hcnt : d.fileCnt = rs.length
      · rw [if_pos hcnt]
        exact .of_stays (hcond.2 hcnt) hfree
      · rw [if_neg hcnt]
        exact .of_error (fun h => hcnt (hcond.1 h)) rfl
    · obtain ⟨hin, hout⟩ := fat12Loop_stays hr (scnt * d.bps) _
        (.first hrs hbps hpos (by rwa [Nat.add_mul]) m₁ p) (by dsimp only; omega)
      rw [hfound front r rest hrs hfront hlt']
      simp only [Fat12Stays, hcons, reduceCtorEq, ↓reduceIte, or_iff_right hend]
      refine ⟨fun hfit => ?_, fun hfit => (hout hfit).finish (by omega)⟩
      obtain ⟨m', hm, ha'⟩ := (hin hfit).finish (by omega)
      exact ⟨m', hm, ha.trans ha'⟩

end Packed

/-! ## A FAT -/

/-- The condition for a request inside a FAT. -/
def FatStays (d : VdfDrive) (rs : List FileRange) (sector scnt : Nat) : Prop :=
  if d.filesys = .fat12 then Fat12Stays d rs sector scnt
  else WideStays d.filesys.entryWidth d rs sector scnt

theorem readSectorFat_stays {d : VdfDrive} {rs : List FileRange} (hk : d.toGeometry.Known)
    (hr : Ranged d rs) {sector scnt : Nat} (hpos : 0 < scnt) (hle : sector + scnt ≤ d.fatSectors)
    (m : Buffer) (p : Nat) : StaysWhen (FatStays d rs sector scnt) p (scnt * d.bps) m
      (readSectorFat d sector scnt m p) := by
  have hwide (hf : d.filesys = .fat16 ∨ d.filesys = .fat32) (hne : d.filesys ≠ .fat12) :
      StaysWhen (FatStays d rs sector scnt) p (scnt * d.bps) m
        (readSectorFat d sector scnt m p) := by
    have hreq := FatRequest.of_known hk hf hpos hle
    rw [FatStays, if_neg hne, readSectorFat_wide hf]
    exact readSectorFatWide_stays hreq hr (two_le_firstEntry hreq) m p
  cases hf : d.filesys with
  | unset => exact absurd hf hk.filesys
  | fat12 =>
    have hb := (sectorSizes_le hk.bps).1
    have hlt : (sector + scnt) * d.bps < 2 ^ 31 :=
      Nat.lt_of_le_of_lt (Nat.mul_le_mul_right _ hle) hk.fatBytes
    rw [FatStays, if_pos hf, readSectorFat, hf]
    exact readSectorFat12_stays hr (by omega) hpos hlt m p
  | fat16 => exact hwide (.inl hf) (by rw [hf]; nofun)
  | fat32 => exact hwide (.inr hf) (by rw [hf]; nofun)

end Vdf
