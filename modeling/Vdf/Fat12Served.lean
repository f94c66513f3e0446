import Vdf.FatStays

/-!
# When the FAT12 table is served

`Fat12Served`: some table of 12-bit entries meets the specification of the FAT, and every request
inside a FAT copy gives the matching slice of it, with nothing written behind the request. Beyond
what FAT16 and FAT32 ask for, no odd entry inside a chain may follow an entry with upper bits, and
no request for a later sector may look up a chain: it looks up the entry at half its distance
(`Fat12Chained`).
-/

namespace Vdf

open Word Buffer

/-! ## Requests -/

section Request

variable {d : VdfDrive} {rs : List FileRange} {scnt p : Nat} {m : Buffer} {T : Nat → Nat}

/-- `finish` behind `n` bytes of a table that is free from there on. -/
theorem finishFat_packed (m : Buffer) (p o : Nat) {n len c : Nat} (hle : n ≤ len)
    (hlt : len < 2 ^ 31)
    (hz : ∀ x, c ≤ x → T x = 0) (hc : 3 * c ≤ 2 * (o + n)) :
    finishFat len n (p + n) (m.overlay p n fun j => some (packedByte T (o + j))) =
      .ok (m.overlay p len fun j => some (packedByte T (o + j))) := by
  rw [finishFat_eq hle hlt, fill_eq_overlay, overlay_overlay, Nat.add_sub_cancel' hle]
  congr 1
  refine overlay_congr fun j hj => ?_
  rw [glue]
  split
  · rfl
  · rw [packedByte_free hz (by omega)]

/-- The bytes in front of the first chain. -/
theorem fatHeader_eq (h0 : T 0 = 0xff8) (h1 : T 1 = 0xfff) :
    ((m.set p 0xf8).set (p + 1) 0xff).set (p + 2) 0xff =
      m.overlay p 3 fun j => some (packedByte T j) := by
  have e0 : packedByte T 0 = 0xf8 := by rw [packedByte_zero T 0, h0]; rfl
  have e1 : packedByte T 1 = 0xff := by rw [packedByte_one T 0, h0, h1]; rfl
  have e2 : packedByte T 2 = 0xff := by rw [packedByte_two T 0, h1]; rfl
  have hfirst : m.set p 0xf8 = m.overlay p 1 fun j => some (packedByte T j) := by
    rw [set_eq_overlay]
    exact overlay_congr fun j hj => by rw [(by omega : j = 0), e0]
  rw [hfirst, overlay_snoc m rfl (by rw [e1]), overlay_snoc m rfl (by rw [e2])]

/-- A request at which no chain is looked up. -/
theorem readSectorFat12_free {sector : Nat} (hlt : (sector + scnt) * d.bps < 2 ^ 31)
    (hbps : 3 ≤ d.bps) (hpos : 0 < scnt) (h0 : sector = 0 → T 0 = 0xff8 ∧ T 1 = 0xfff)
    (he : findFileFatEntry d (firstEntry12 d.bps sector) = .ok none)
    (hz : ∀ x, firstEntry12 d.bps sector ≤ x → T x = 0)
    (hfirst : sector = 0 ∨ 3 * firstEntry12 d.bps sector ≤ 2 * (sector * d.bps)) :
    readSectorFat12 d sector scnt m p =
      .ok (m.overlay p (scnt * d.bps) fun j => some (packedByte T (sector * d.bps + j))) := by
  have hle : d.bps ≤ scnt * d.bps := Nat.le_mul_of_pos_left _ hpos
  rw [Nat.add_mul] at hlt
  have hlen : u32 (scnt * d.bps) = scnt * d.bps := u32_of_lt (by omega)
  unfold readSectorFat12
  by_cases hs : sector = 0
  · subst hs
    obtain ⟨h0, h1⟩ := h0 rfl
    simp only [firstEntry12, ↓reduceIte] at he hz
    simp only [hlen, ↓reduceIte, fatHeader_eq h0 h1, he, bind, Except.bind]
    have hdone := finishFat_packed m p 0 (by omega : 3 ≤ scnt * d.bps) (by omega) hz
      (by omega)
    simp only [Nat.zero_add, Nat.zero_mul] at hdone ⊢
    exact hdone
  · obtain ⟨hs2, hs3⟩ := u32_start sector hbps (by omega)
    simp only [firstEntry12, hs, ↓reduceIte] at he hz
    simp only [hlen, hs2, hs3, hs, ↓reduceIte, he, bind, Except.bind]
    have hdone := finishFat_packed m p (sector * d.bps) (Nat.zero_le (scnt * d.bps)) (by omega) hz
      (by rw [firstEntry12, if_neg hs] at hfirst; omega)
    rw [overlay_zero] at hdone
    exact hdone

/-- Behind the last chain the entries are free. -/
theorem Fat12Table.free {ends : List Nat} {fin a k x : Nat} (h : Fat12Table ends fin a T k)
    (hends : ∀ c ∈ ends, c ≤ fin) (hk : 2 * k ≤ x) (hx : fin ≤ a + x) : T x = 0 := by
  have hout : a + x + 1 ∉ ends := fun hmem => by
    have := hends _ hmem
    omega
  have hv : walkValue ends fin (a + x) = 0 := by
    rw [walkValue, if_neg hout, if_neg (by omega)]
  have hw : ∀ half, writtenEntry ends fin (a + x) half = 0 := by
    intro half
    rw [writtenEntry, if_neg (by omega), hv]
  rcases Nat.mod_two_eq_zero_or_one x with he | he
  · have h0 := (h (x / 2) (by omega)).1
    rwa [(by omega : 2 * (x / 2) = x), hw] at h0
  · have h1 := (h (x / 2) (by omega)).2
    rwa [Nat.add_assoc a, (by omega : 2 * (x / 2) + 1 = x), hw] at h1

/-- A request from the start of the FAT: `r` is the first range that ends behind cluster 2. -/
theorem readSectorFat12_walk {front rest : List FileRange} {r : FileRange} (hr : Ranged d rs)
    (hrs : rs = front ++ r :: rest) (hlt : scnt * d.bps < 2 ^ 31)
    (he : findFileFatEntry d 2 = .ok (some (r.file, front.length))) (h0 : T 0 = 0xff8)
    (h1 : T 1 = 0xfff) (hT : Fat12Table (walkEnds 2 (r :: rest)) (walkFin 2 (r :: rest)) 0 T 1)
    (hfit : 3 * walkFin 2 (r :: rest) ≤ 2 * (scnt * d.bps)) :
    readSectorFat12 d 0 scnt m p = if d.fileCnt = rs.length then
        .ok (m.overlay p (scnt * d.bps) fun j => some (packedByte T j))
      else .error (.rangesIndex rs.length) := by
  have hlen : u32 (scnt * d.bps) = scnt * d.bps := u32_of_lt (by omega)
  have hhead : Fat12Head rs (walkEnds 2 (r :: rest)) (walkFin 2 (r :: rest)) 0 p m T 1
      { i := 3, buffer := p + 3, ent := 2, clust := 3, halfent := false, file := r.file
        rangeInd := front.length, m := m.overlay p 3 fun j => some (packedByte T j) } :=
    { walk := .of_range hrs 2, i := rfl, buffer := rfl, ent := rfl, clust := rfl, halfent := rfl
      mem := rfl }
  have hrun := hhead.run (scnt * d.bps) (scnt * d.bps) hT hr (by omega) (by omega) (by omega)
  have htwo : 2 < walkFin 2 (r :: rest) := hhead.walk.lt
  have hfree : ∀ x, walkFin 2 (r :: rest) ≤ x → T x = 0 := fun x hx =>
    hT.free (fun c hc => (walkEnds_bounds 2 (r :: rest) c hc).2) (by omega) (by omega)
  have hdone := finishFat_packed m p 0
    (by omega : (3 * walkFin 2 (r :: rest) + 1) / 2 ≤ scnt * d.bps) (by omega) hfree (by omega)
  simp only [Nat.zero_add] at hdone
  rw [Nat.sub_zero] at hrun
  have hthree : u32 (2 + 1) = 3 := u32_of_lt (by omega)
  unfold readSectorFat12
  by_cases hcnt : d.fileCnt = rs.length
  · rw [if_pos hcnt] at hrun ⊢
    simp only [hlen, ↓reduceIte, fatHeader_eq h0 h1, he, bind, Except.bind, hthree, hrun]
    exact hdone
  · rw [if_neg hcnt] at hrun ⊢
    simp only [hlen, ↓reduceIte, fatHeader_eq h0 h1, he, bind, Except.bind, hthree, hrun]

end Request

/-! ## Specification -/

/-- Every request inside a FAT copy gives its slice of the packed table `t`. -/
def Fat12Serves (d : VdfDrive) (t : Nat → Nat) : Prop :=
  ∀ sector scnt, 0 < scnt → sector + scnt ≤ d.fatSectors → ∀ m p,
    readSectorFat d sector scnt m p = .ok (m.overlay p (scnt * d.bps) fun j =>
      some (packedByte t (sector * d.bps + j)))

/-- The drive's own table is served. -/
def Fat12Served (d : VdfDrive) : Prop := ∃ t, FatTable d 0xff8 0xfff t ∧ Fat12Serves d t

/-- The ranges `live` are the chains of the FAT, and those before them are out of the way. The upper
bits of an even entry survive the odd one that follows it in a chain (`halves`), and no request
begins within the chains (`room`). -/
structure Fat12Chained (d : VdfDrive) (pre live : List FileRange) : Prop where
  ranges : d.ranges = some (pre ++ live)
  skipped : live ≠ [] → ∀ r ∈ pre, r.fatend ≤ 2
  chain : Chain FileRange.fatstart FileRange.fatend 2 live d.dataClusterEnd
  nonempty : ∀ r ∈ live, r.fatstart < r.fatend
  complete : ∀ f ∈ d.allFiles, (d.file f).size ≠ 0 → (d.file f).start < (d.file f).end_ →
    ∃ r ∈ live, r.file = f
  count : live = [] ∨ d.fileCnt = (pre ++ live).length
  halves : ∀ r ∈ live, ∀ c, c % 2 = 1 → r.fatstart ≤ c → c + 1 < r.fatend →
    r.fatstart < c ∧ c < 256
  room : 3 * d.dataClusterEnd ≤ 2 * d.bps ∧ (1 < d.fatSectors → 3 * d.dataClusterEnd ≤ d.bps)

/-- The drives whose FAT is served. -/
def Fat12Chains (d : VdfDrive) : Prop := ∃ pre live, Fat12Chained d pre live

section Chained

variable {d : VdfDrive} {pre live : List FileRange}

/-- `read_sector_fat` on FAT12. -/
theorem readSectorFat_packed (hf : d.filesys = .fat12) (sector scnt : Nat) (m : Buffer) (p : Nat) :
    readSectorFat d sector scnt m p = readSectorFat12 d sector scnt m p := by
  rw [readSectorFat, hf]

theorem Fat12Chained.fatChained (h : Fat12Chained d pre live) : FatChained d pre live :=
  { h with count := h.count.imp_right .inl }

/-- The loop leaves the table of the chains. -/
theorem Fat12Chained.table (h : Fat12Chained d pre live) : Fat12Table (walkEnds 2 live)
    (walkFin 2 live) 0 (chainTable 0xff8 0xfff live) 1 := by
  intro x hx
  have hvalue : ∀ c, 2 ≤ c →
      chainTable 0xff8 0xfff live c = walkValue (walkEnds 2 live) (walkFin 2 live) c :=
    fun c hc => chainTable_of_two_le hc
  obtain ⟨hends, hfin⟩ := walk_of_chain h.chain h.nonempty
  refine ⟨?_, ?_⟩
  · rw [hvalue _ (by omega), Nat.zero_add, writtenEntry]
    split
    · rename_i hcut
      obtain ⟨-, hlt, hin⟩ := hcut
      rw [hfin] at hlt
      rw [hends] at hin
      obtain ⟨r, hr, h1, h2⟩ := h.chain.exists_mem (by omega : 2 ≤ 2 * x + 1) hlt
      have hne : r.fatend ≠ 2 * x + 2 := fun e => hin (e ▸ List.mem_map_of_mem hr)
      obtain ⟨h3, h4⟩ := h.halves r hr (2 * x + 1) (by omega) h1 (by omega)
      have hval : walkEntry 0xfff 2 live (2 * x) = 2 * x + 1 := by
        rw [walkEntry_interval h.chain h.nonempty hr (by omega) (by omega), if_neg (by omega)]
      rw [show walkValue (walkEnds 2 live) (walkFin 2 live) (2 * x) = 2 * x + 1 from hval,
        Nat.mod_eq_of_lt h4]
    · rfl
  · rw [hvalue _ (by omega), Nat.zero_add, writtenEntry, if_neg (by simp)]

/-- A FAT whose ranges are such chains is served. -/
theorem Fat12Chained.served (hk : d.toGeometry.Known) (hf : d.filesys = .fat12)
    (hr : Ranged d (pre ++ live)) (hstart : ∀ r ∈ live, (d.file r.file).start = r.fatstart)
    (h : Fat12Chained d pre live) : Fat12Served d := by
  have ht := chainTable_fatTable h.fatChained
    (fun r hm => ⟨hstart r hm, hr.end_ r (by simp [hm])⟩) 0xff8 0xfff
  have hbps := (sectorSizes_le hk.bps).1
  refine ⟨_, ht, fun sector scnt hpos hle m p => ?_⟩
  have hlt : (sector + scnt) * d.bps < 2 ^ 31 :=
    Nat.lt_of_le_of_lt (Nat.mul_le_mul_right _ hle) hk.fatBytes
  have h01 := fun _ : sector = 0 => And.intro ht.first ht.second
  have hend : 2 ≤ d.dataClusterEnd := h.chain.le
  rw [readSectorFat_packed hf]
  by_cases hfirst : firstEntry12 d.bps sector < d.dataClusterEnd
  · -- The request begins at the start of the FAT.
    have hs : sector = 0 := by
      by_contra hs
      have hroom := h.room.2 (by omega)
      have hmul := Nat.le_mul_of_pos_left d.bps (Nat.pos_of_ne_zero hs)
      have hcomm : sector * 2 * d.bps = 2 * (sector * d.bps) := by ring
      rw [firstEntry12, if_neg hs, hcomm] at hfirst
      omega
    subst hs
    rw [firstEntry12, if_pos rfl] at hfirst
    cases live with
    | nil =>
      have hnil : 2 = d.dataClusterEnd := h.chain
      omega
    | cons r rest =>
      obtain ⟨h1, h2, h3⟩ := h.chain
      have hne := h.nonempty r (List.mem_cons_self ..)
      have hlook := (findFileFatEntry_spec hr (by omega : 2 < d.dataClusterEnd)).1 pre r rest rfl
        (h.skipped (by simp)) (by omega)
      have hle := Nat.le_mul_of_pos_left d.bps hpos
      have hroom := h.room.1
      rw [Nat.zero_add] at hlt
      rw [readSectorFat12_walk hr rfl hlt hlook ht.first ht.second h.table
        (by rw [(walk_of_chain h.chain h.nonempty).2]; omega),
        if_pos (h.count.resolve_left (by simp)), Nat.zero_mul]
      simp only [Nat.zero_add]
  · refine readSectorFat12_free hlt (by omega) hpos h01 ?_ (fun x hx => ht.free x (by omega)) ?_
    · rw [findFileFatEntry, if_pos (by omega)]
    · by_cases hs : sector = 0
      · exact .inl hs
      · right
        have hcomm : sector * 2 * d.bps = 2 * (sector * d.bps) := by ring
        rw [firstEntry12, if_neg hs, hcomm]
        omega

end Chained

/-! ## Only such chains are served -/

/-- A request behind the first sector at which a chain is looked up. -/
theorem readSectorFat12_later {d : VdfDrive} {sector scnt rangeInd : Nat} {file : FileId}
    (hbps : 3 ≤ d.bps) (hpos : 0 < scnt) (hlt : (sector + scnt) * d.bps < 2 ^ 31) (hs : sector ≠ 0)
    (he : findFileFatEntry d (firstEntry12 d.bps sector) = .ok (some (file, rangeInd)))
    (m : Buffer) (p : Nat) : readSectorFat12 d sector scnt m p =
      (fat12Loop d (scnt * d.bps) (scnt * d.bps)
        { i := 0, buffer := p, ent := firstEntry12 d.bps sector
          clust := u32 (firstEntry12 d.bps sector + 1), halfent := firstOdd12 d.bps sector
          file, rangeInd, m }).bind fun (i, q, m') => finishFat (scnt * d.bps) i q m' := by
  rw [readSectorFat12_eq hbps hpos hlt, he, fat12Header, firstByte12, if_neg hs, if_neg hs]
  rfl

/-- The ranges of a FAT12 drive, all with clusters, and an entry behind them. -/
structure Fat12Laid (d : VdfDrive) (live : List FileRange) : Prop where
  known : d.toGeometry.Known
  fat12 : d.filesys = .fat12
  ranged : Ranged d live
  chain : Chain FileRange.fatstart FileRange.fatend 2 live d.dataClusterEnd
  nonempty : ∀ r ∈ live, r.fatstart < r.fatend
  marks : d.dataClusterEnd < 0xfff
  behind : 3 * (d.dataClusterEnd + 1) < 2 * (d.fatSectors * d.bps)

/-- The table that the loop leaves of the chains. -/
def writtenTable (live : List FileRange) (c : Nat) : Nat :=
  if c = 0 then 0xff8 else if c = 1 then 0xfff
  else writtenEntry (walkEnds 2 live) (walkFin 2 live) c (c % 2 == 1)

theorem writtenTable_of_two_le {live : List FileRange} {c : Nat} (h : 2 ≤ c) : writtenTable live c =
    writtenEntry (walkEnds 2 live) (walkFin 2 live) c (c % 2 == 1) := by
  rw [writtenTable, if_neg (by omega), if_neg (by omega)]

theorem writtenTable_table (live : List FileRange) :
    Fat12Table (walkEnds 2 live) (walkFin 2 live) 0 (writtenTable live) 1 := by
  intro x hx
  rw [writtenTable_of_two_le (by omega), writtenTable_of_two_le (by omega), Nat.zero_add,
    Nat.mul_mod_right, Nat.mul_add_mod]
  exact ⟨rfl, rfl⟩

namespace Fat12Laid

variable {d : VdfDrive} {live : List FileRange} {t : Nat → Nat}

/-- Every entry fits into 12 bits. -/
theorem entry_lt (h : Fat12Laid d live) (c : Nat) :
    walkEntry 0xfff 2 live c < 4096 ∧ ∀ half,
      writtenEntry (walkEnds 2 live) (walkFin 2 live) c half < 4096 := by
  obtain ⟨-, hfin⟩ := walk_of_chain h.chain h.nonempty
  have hmarks := h.marks
  have hv : walkEntry 0xfff 2 live c < 4096 := by
    unfold walkEntry
    split
    · decide
    · split <;> omega
  refine ⟨hv, fun half => ?_⟩
  unfold writtenEntry
  split
  · exact Nat.lt_trans (Nat.mod_lt _ (by decide)) (by decide)
  · exact hv

theorem chainTable_lt (h : Fat12Laid d live) (c : Nat) : chainTable 0xff8 0xfff live c < 4096 := by
  unfold chainTable
  split
  · decide
  · split
    · decide
    · exact (h.entry_lt c).1

/-- The walk of a request for the second sector, which looks up the entry at half its distance. -/
theorem second (h : Fat12Laid d live) (hover : firstEntry12 d.bps 1 < d.dataClusterEnd) :
    ∃ ends file rangeInd, findFileFatEntry d (firstEntry12 d.bps 1) = .ok (some (file, rangeInd)) ∧
      WalkAt live ends d.dataClusterEnd (firstEntry12 d.bps 1) file rangeInd ∧
      ∀ c, firstEntry12 d.bps 1 ≤ c →
        walkValue ends d.dataClusterEnd c = walkEntry 0xfff 2 live c := by
  have hbps := (sectorSizes_le h.known.bps).1
  have htwo : 2 ≤ firstEntry12 d.bps 1 := by
    rw [firstEntry12, if_neg (by decide), Nat.one_mul]
    omega
  obtain ⟨s, x, l, rfl, -, hx, hs, -⟩ := h.chain.split htwo hover
  have hwalk := fun c (hc : firstEntry12 d.bps 1 ≤ c) =>
    @walkEntry_of_chain 0xfff _ _ _ _ _ h.chain h.nonempty _ hs hx c hc
  have hfin := (hwalk _ (Nat.le_refl _)).2
  have hat := WalkAt.of_range (rfl : s ++ x :: l = s ++ x :: l) (firstEntry12 d.bps 1)
  rw [hfin] at hat
  refine ⟨_, _, _, (findFileFatEntry_spec h.ranged hover).1 s x l rfl hs hx, hat, fun c hc => ?_⟩
  rw [(hwalk c hc).1, walkEntry, hfin]
  rfl

section Serves

variable (h : Fat12Laid d live) (hT : ∀ c, 2 ≤ c → t c = chainTable 0xff8 0xfff live c)
  (hserve : Fat12Serves d t)
include h hT hserve

/-- The loop over the whole FAT leaves the table of the chains, and no file is left behind the last
range. -/
theorem whole (hne : live ≠ []) : d.fileCnt = live.length ∧
    ∀ c, 2 ≤ c → c < d.dataClusterEnd → writtenTable live c = walkEntry 0xfff 2 live c := by
  obtain ⟨r, rest, rfl⟩ := List.exists_cons_of_ne_nil hne
  obtain ⟨-, hfin⟩ := walk_of_chain h.chain h.nonempty
  have hbehind := h.behind
  have hlt := h.known.fatBytes
  have hpos : 0 < d.fatSectors := by
    rcases Nat.eq_zero_or_pos d.fatSectors with e | e
    · rw [e, Nat.zero_mul] at hbehind
      omega
    · exact e
  have hr := List.mem_cons_self (a := r) (l := rest)
  have h2 := h.chain.mem hr
  have h3 := h.nonempty r hr
  have hlook := (findFileFatEntry_spec h.ranged (by omega : 2 < d.dataClusterEnd)).1 [] r rest rfl
    nofun (by omega)
  have hwalk := readSectorFat12_walk (m := fun _ => 0) (p := 0) h.ranged rfl hlt hlook rfl rfl
    (writtenTable_table (r :: rest)) (by rw [hfin]; omega)
  have hgot := hserve 0 d.fatSectors hpos (by omega) (fun _ => 0) 0
  rw [readSectorFat_packed h.fat12, hwalk] at hgot
  split at hgot
  · rename_i hcnt
    refine ⟨hcnt, fun c hc hle => ?_⟩
    simp only [Nat.zero_mul, Nat.zero_add] at hgot
    have heq := @entry_eq_of_packedByte _ _ (d.fatSectors * d.bps) c
      (fun j hj => overlay_inj (Except.ok.inj hgot) hj) (by omega)
    rw [hT c hc, Nat.mod_eq_of_lt (h.chainTable_lt c), writtenTable_of_two_le hc,
      Nat.mod_eq_of_lt ((h.entry_lt c).2 _), chainTable_of_two_le hc] at heq
    rw [writtenTable_of_two_le hc, heq]
  · cases hgot

/-- An odd entry inside a chain clears the upper bits of the one in front of it. -/
theorem halves : ∀ r ∈ live, ∀ c, c % 2 = 1 → r.fatstart ≤ c → c + 1 < r.fatend →
    r.fatstart < c ∧ c < 256 := by
  intro r hr c hodd h1 h2
  obtain ⟨-, hsame⟩ := h.whole hT hserve (List.ne_nil_of_mem hr)
  obtain ⟨hends, hfin⟩ := walk_of_chain h.chain h.nonempty
  have hb := h.chain.mem hr
  have hmarks := h.marks
  have hinside := @walkEntry_interval 0xfff _ _ h.chain h.nonempty _ hr _ h1 (by omega)
  rw [if_neg (by omega)] at hinside
  have hin : c + 1 ∉ walkEnds 2 live := by
    intro hm
    rw [walkEntry, if_pos hm] at hinside
    omega
  have hcut := hsame (c - 1) (by omega) (by omega)
  rw [writtenTable_of_two_le (by omega), (by omega : (c - 1) % 2 = 0), writtenEntry,
    if_pos ⟨rfl, by omega, by rwa [(by omega : c - 1 + 2 = c + 1)]⟩] at hcut
  change walkEntry 0xfff 2 live (c - 1) % 256 = walkEntry 0xfff 2 live (c - 1) at hcut
  rcases Nat.lt_or_ge r.fatstart c with hlt | hge
  · have hprev := @walkEntry_interval 0xfff _ _ h.chain h.nonempty _ hr (c - 1) (by omega) (by omega)
    rw [if_neg (by omega)] at hprev
    exact ⟨hlt, by omega⟩
  · -- The entry in front ends the chain before.
    obtain ⟨s, hs, h3, h4⟩ := h.chain.exists_mem (by omega : 2 ≤ c - 1) (by omega)
    have hend : s.fatend = c := by
      rcases Chain.pairwise_either h.chain.pairwise hs hr with e | e | e
      · subst e
        omega
      · omega
      · have := h.nonempty s hs
        omega
    have hprev := @walkEntry_interval 0xfff _ _ h.chain h.nonempty _ hs _ h3 h4
    rw [if_pos (by omega)] at hprev
    omega

omit hT in
/-- A request behind the first sector that looks up a chain, and the bytes that its loop leaves. -/
theorem later (hsec : 1 < d.fatSectors) {file : FileId} {rangeInd : Nat}
    (he : findFileFatEntry d (firstEntry12 d.bps 1) = .ok (some (file, rangeInd))) (m : Buffer) :
    ∃ i q m', fat12Loop d ((d.fatSectors - 1) * d.bps) ((d.fatSectors - 1) * d.bps)
        { i := 0, buffer := 0, ent := firstEntry12 d.bps 1
          clust := u32 (firstEntry12 d.bps 1 + 1), halfent := firstOdd12 d.bps 1, file, rangeInd
          m } = .ok (i, q, m') ∧
      ∀ j < q, j < (d.fatSectors - 1) * d.bps → m' j = packedByte t (d.bps + j) := by
  have hbps := (sectorSizes_le h.known.bps).1
  have hlt : (1 + (d.fatSectors - 1)) * d.bps < 2 ^ 31 := by
    rw [Nat.add_sub_cancel' (by omega)]
    exact h.known.fatBytes
  have hgot := hserve 1 (d.fatSectors - 1) (by omega) (by omega) m 0
  rw [readSectorFat_packed h.fat12,
    readSectorFat12_later (by omega) (by omega) hlt (by decide) he m 0] at hgot
  generalize hrun : fat12Loop d _ _ _ = r at hgot ⊢
  cases r with
  | error f => cases hgot
  | ok out =>
    obtain ⟨i, q, m'⟩ := out
    refine ⟨i, q, m', rfl, fun j hq hj => ?_⟩
    have hin := @overlay_inside m 0 _ _ (fun j => some (packedByte t (1 * d.bps + j))) hj
    rw [Nat.zero_add, Nat.one_mul] at hin
    rw [← finishFat_below hgot hq, Nat.one_mul, hin]
    rfl

omit hT in
/-- Taken for the second entry of its pair, it keeps a half of the byte that the buffer had. -/
theorem second_half (hsec : 1 < d.fatSectors) (hbps : d.bps = 512 ∨ d.bps = 2048) :
    d.dataClusterEnd ≤ firstEntry12 d.bps 1 := by
  by_contra hover
  rw [Nat.not_le] at hover
  obtain ⟨ends, file, rangeInd, hlook, hat, -⟩ := h.second hover
  have hmarks := h.marks
  have hlen : d.bps ≤ (d.fatSectors - 1) * d.bps := Nat.le_mul_of_pos_left _ (by omega)
  have hodd : firstOdd12 d.bps 1 = true := by rcases hbps with e | e <;> rw [e] <;> rfl
  have hlow : (firstEntry12 d.bps 1 + 1) % 16 = 11 := by rcases hbps with e | e <;> rw [e] <;> rfl
  obtain ⟨fuel, hfuel⟩ : ∃ n, (d.fatSectors - 1) * d.bps = n + 1 :=
    ⟨(d.fatSectors - 1) * d.bps - 1, by omega⟩
  have hbyte : ∀ b : UInt8, packedByte t d.bps =
      if firstEntry12 d.bps 1 + 1 ∈ ends then b ||| 0xf0
      else (b &&& (0xf0 : UInt8)) ||| (UInt8.ofNat ((firstEntry12 d.bps 1 + 1) <<< 4) &&& 0xf0) := by
    intro b
    obtain ⟨i, q, m', hrun, hbytes⟩ := h.later hserve hsec hlook fun _ => b
    rw [hodd, u32_of_lt (by omega), hfuel] at hrun
    obtain ⟨hq, hm⟩ := fat12Loop_half h.ranged hat rfl (by dsimp only; omega) (by dsimp only; omega)
      rfl hrun
    exact (hbytes 0 hq (by omega)).symm.trans hm
  have hsame := (hbyte 0).symm.trans (hbyte 0xff)
  split at hsame
  · cases hsame
  · rw [ofNat_shiftLeft_and, hlow] at hsame
    cases hsame

/-- Taken for the first entry of its pair, it ends a chain, and so do those behind it up to a pair
whose second entry is free. -/
theorem second_pair (hsec : 1 < d.fatSectors) (hbps : d.bps = 1024 ∨ d.bps = 4096) :
    d.dataClusterEnd ≤ firstEntry12 d.bps 1 := by
  by_contra hover
  rw [Nat.not_le] at hover
  obtain ⟨ends, file, rangeInd, hlook, hat, hvalue⟩ := h.second hover
  have hmarks := h.marks
  have hbehind := h.behind
  have hodd : firstOdd12 d.bps 1 = false := by rcases hbps with e | e <;> rw [e] <;> rfl
  obtain ⟨i, q, m', hrun, hbytes⟩ := h.later hserve hsec hlook fun _ => 0
  obtain ⟨len, hlen⟩ : ∃ n, n = (d.fatSectors - 1) * d.bps := ⟨_, rfl⟩
  have hfat : d.fatSectors * d.bps = len + d.bps := by
    rw [hlen, Nat.sub_one_mul, Nat.sub_add_cancel (Nat.le_mul_of_pos_left _ (by omega))]
  obtain ⟨a, ha⟩ : ∃ a, a = firstEntry12 d.bps 1 := ⟨_, rfl⟩
  have hthird : d.bps = 3 * a + 1 ∧ a % 2 = 1 ∧ 256 ≤ a := by
    rcases hbps with e | e <;> rw [ha, e] <;> decide
  have hpos : d.bps ≤ len := hlen ▸ Nat.le_mul_of_pos_left _ (by omega)
  obtain ⟨k, hk⟩ : ∃ k, k = d.dataClusterEnd / 2 - a := ⟨_, rfl⟩
  rw [← ha] at hover hat hvalue hrun
  rw [← hlen, hodd, u32_of_lt (by omega)] at hrun
  -- The loop comes to the pair.
  obtain ⟨T, hTable⟩ : ∃ T, Fat12Table ends d.dataClusterEnd a T 0 :=
    ⟨fun y => writtenEntry ends d.dataClusterEnd (a + y) (y % 2 == 1), fun x _ => by
      dsimp only
      rw [Nat.mul_mod_right, Nat.mul_add_mod]
      exact ⟨rfl, rfl⟩⟩
  have hhead : Fat12Head live ends d.dataClusterEnd a 0 (fun _ => 0) T 0
      { i := 0, buffer := 0, ent := a, clust := a + 1, halfent := false, file, rangeInd
        m := fun _ => 0 } :=
    { walk := hat, i := rfl, buffer := rfl, ent := rfl, clust := rfl, halfent := rfl
      mem := (overlay_zero _ _ _).symm }
  obtain ⟨s, hs, hloop⟩ := hhead.reach (k := k) len len hTable h.ranged (by omega) (by omega) (by omega)
    (by omega)
  rw [hloop] at hrun
  obtain ⟨hq, hm⟩ := hs.first_byte (fun x _ => hTable x (Nat.zero_le x)) h.ranged (by omega) hrun
    (by omega) (by omega)
  -- Its entry ends a chain, for an odd one inside a chain is below 256.
  have hmark : walkValue ends d.dataClusterEnd (a + 2 * k) = 0xfff := by
    obtain ⟨r, hr, h1, h2⟩ := h.chain.exists_mem (by omega : 2 ≤ a + 2 * k) (by omega)
    have hend : a + 2 * k + 1 = r.fatend := by
      by_contra hne
      have := (h.halves hT hserve r hr (a + 2 * k) (by omega) h1 (by omega)).2
      omega
    rw [hvalue _ (by omega), @walkEntry_interval 0xfff _ _ h.chain h.nonempty _ hr _ h1 h2,
      if_pos hend]
  have hbyte : packedByte T (3 * k) = 0xff := by
    rw [packedByte_zero, (hTable k (Nat.zero_le k)).1, writtenEntry, hmark]
    split <;> rfl
  -- In the table the byte has the upper half of a free entry.
  have hgot := hbytes (0 + 3 * k) hq (by omega)
  have hfree : t (2 * (a + k) + 1) = 0 := by
    obtain ⟨-, hfin⟩ := walk_of_chain h.chain h.nonempty
    rw [hT _ (by omega), chainTable_of_two_le (by omega), walkEntry, hfin, if_neg, if_neg (by omega)]
    intro hmem
    have := (walkEnds_bounds 2 live _ hmem).2
    omega
  rw [hm, hbyte, (by omega : d.bps + (0 + 3 * k) = 3 * (a + k) + 1), packedByte_one, hfree] at hgot
  have := mod_eq_of_ofNat (show UInt8.ofNat 255 = _ from hgot)
  omega

/-- So no request begins within the chains. -/
theorem room : 3 * d.dataClusterEnd ≤ 2 * d.bps ∧
    (1 < d.fatSectors → 3 * d.dataClusterEnd ≤ d.bps) := by
  have hbehind := h.behind
  have hbps := h.known.bps
  have hsecond (hsec : 1 < d.fatSectors) : 3 * d.dataClusterEnd ≤ d.bps := by
    have hfirst : d.dataClusterEnd ≤ 1 * 2 * d.bps / 3 / 2 := by
      simp only [sectorSizes, List.mem_cons, List.not_mem_nil, or_false] at hbps
      rcases hbps with e | e | e | e
      · exact h.second_half hserve hsec (.inl e)
      · exact h.second_pair hT hserve hsec (.inl e)
      · exact h.second_half hserve hsec (.inr e)
      · exact h.second_pair hT hserve hsec (.inr e)
    omega
  refine ⟨?_, hsecond⟩
  rcases Nat.lt_or_ge 1 d.fatSectors with hsec | hsec
  · have := hsecond hsec
    omega
  · have := Nat.mul_le_mul_right d.bps hsec
    omega

end Serves

end Fat12Laid

/-! ## The result -/

/-- The ranges of a layout on FAT12. -/
theorem SumsFit.fat12Laid {d : VdfDrive} (hk : d.toGeometry.Known) (hf : d.filesys = .fat12)
    (ht : d.IsTree) (hr : d.InRange) (hcnt : d.allFiles.length ≤ d.fileCnt) (hs : SumsFit d)
    (hdirs : ∀ f ∈ (storedFiles d).take (laidFiles d).length, (numbered d f).size ≠ 0)
    (hne : ∀ f ∈ laidFiles d, (numbered d f).clusters ≠ 0)
    (hroom : 3 * (3 + totalUsed d) < 2 * (d.fatSectors * d.bps)) {rs : List FileRange}
    (hq : Qsort.Result cmpFilerange (unsortedRanges d) rs) :
    LayoutFits d ∧ Fat12Laid (recalcDrive d rs) rs := by
  have hclusters := hk.fat12 hf
  have hused := hs.clusters.1
  have hspc := clusterSectors_le hk.spc
  have hfits : LayoutFits d :=
    { toSumsFit := hs, dirs := hdirs
      span := fun f hm => by
        have h1 : usedBefore (numbered d) d.allFiles f ≤ 4084 := by
          have := usedBefore_le ht hm
          omega
        exact Nat.lt_of_le_of_lt (Nat.mul_le_mul h1 hspc.2) (by decide)
      empties := List.pairwise_of_forall_mem_list fun f hfm _ _ h0 => absurd h0 (hne f hfm) }
  obtain ⟨hch, hlive, -, -⟩ := hfits.liveChain ht hr hspc.1 hne hq
  have hend : (recalcDrive d rs).dataClusterEnd = 2 + totalUsed d := u32_of_lt hs.clusters.2
  refine ⟨hfits, ?_⟩
  exact
    { known := hk, fat12 := hf, ranged := .of_result hr hcnt hq, chain := hch, nonempty := hlive
      marks := by rw [hend]; omega
      behind := by rw [hend, (by omega : 2 + totalUsed d + 1 = 3 + totalUsed d)]; exact hroom }

/-- When every file has clusters, a FAT12 table is served by such chains only. -/
theorem Fat12Served.chained {d : VdfDrive} (hk : d.toGeometry.Known) (hf : d.filesys = .fat12)
    (ht : d.IsTree) (hr : d.InRange) (hcnt : d.allFiles.length ≤ d.fileCnt) (hs : SumsFit d)
    (hdirs : ∀ f ∈ (storedFiles d).take (laidFiles d).length, (numbered d f).size ≠ 0)
    (hne : ∀ f ∈ laidFiles d, (numbered d f).clusters ≠ 0)
    (hroom : 3 * (3 + totalUsed d) < 2 * (d.fatSectors * d.bps)) {rs : List FileRange}
    (hq : Qsort.Result cmpFilerange (unsortedRanges d) rs)
    (hserved : Fat12Served (recalcDrive d rs)) : Fat12Chained (recalcDrive d rs) [] rs := by
  obtain ⟨t, htable, hserve⟩ := hserved
  obtain ⟨hfits, hlaid⟩ := hs.fat12Laid hk hf ht hr hcnt hdirs hne hroom hq
  obtain ⟨hch, hlive, hcomplete, hexact⟩ :=
    hfits.liveChain ht hr (clusterSectors_le hk.spc).1 hne hq
  have hT := htable.eq_chainTable hch hlive fun r hm => by
    obtain ⟨f, hfm, rfl⟩ := hexact r hm
    exact ⟨(mem_laidFiles.mp hfm).1, recalcFile_laid hfm⟩
  refine
    { ranges := rfl, skipped := fun _ => nofun, chain := hch, nonempty := hlive
      complete := hcomplete, count := ?_
      halves := hlaid.halves (fun c _ => hT c) hserve, room := hlaid.room (fun c _ => hT c) hserve }
  by_cases hnil : rs = []
  · exact .inl hnil
  · exact .inr (hlaid.whole (fun c _ => hT c) hserve hnil).1

/-- On FAT12 such chains are served, and, when the layout does not wrap, every file has clusters and
the FAT goes on behind them, only such chains are. -/
theorem readSectorFat12_served_iff (d d' : VdfDrive) (hg : d.toGeometry.Created)
    (hf : d.filesys = .fat12) (ht : d.IsTree) (hr : d.InRange)
    (hcnt : d.allFiles.length ≤ d.fileCnt) (h : Recalc d d') :
    (Fat12Chains d' → Fat12Served d') ∧
      (SumsFit d → (∀ f ∈ (storedFiles d).take (laidFiles d).length, (numbered d f).size ≠ 0) →
        (∀ f ∈ laidFiles d, (numbered d f).clusters ≠ 0) →
        3 * (3 + totalUsed d) < 2 * (d.fatSectors * d.bps) → Fat12Served d' → Fat12Chains d') := by
  have hk := hg.known (by rw [hf]; decide)
  obtain ⟨-, rs, hq, rfl⟩ := (recalc_iff ht hr.dataStart).mp h
  constructor
  · rintro ⟨pre, live, hc⟩
    have e : rs = pre ++ live := Option.some.inj hc.ranges
    subst e
    refine hc.served hk hf (.of_result hr hcnt hq) fun r hm => ?_
    obtain ⟨f, -, rfl⟩ := mem_unsortedRanges (hq.perm.mem_iff.mp (List.mem_append_right _ hm))
    rfl
  · intro hs hdirs hne hroom hserved
    exact ⟨[], rs, hserved.chained hk hf ht hr hcnt hs hdirs hne hroom hq⟩

/-- The geometry of a floppy disk of 1440 KiB. -/
def geometry12 : Geometry :=
  { flags := 1, filesys := .fat12, bps := 512, spc := 1, bpc := 512, sectors := 2880
    clusters := 2847, bytes := 1474560, rootDirCnt := 224, mbrSectors := 0, direntPerSector := 16
    fatSectors := 9, fat1Start := 1, fat2Start := 10, rootStart := 19, rootSectors := 14
    dataStart := 33 }

theorem geometry12_created : geometry12.Created :=
  ⟨2880 * 512, 1, ⟨0, 512, 1, 224⟩, ⟨0, 0, 0, 0⟩, by decide⟩

/-- Two files of two clusters on a floppy disk. -/
def drive12 : VdfDrive :=
  flatDrive geometry12 none
    [{ size := 1000, clusters := 2, virt := true }, { size := 1024, clusters := 2, virt := true }]

/-- The FAT of a floppy disk with two files. -/
theorem readSectorFat12_served_two : ∃ d', Recalc drive12 d' ∧ Fat12Chains d' ∧ Fat12Served d' := by
  have ht : drive12.IsTree := flatDrive_isTree _ _ _
  have hr : drive12.InRange := flatDrive_inRange (by decide) (by decide) (by decide)
  have hcan : CanRecalc drive12 := ⟨rfl, rfl, rfl, by decide⟩
  have hs : SumsFit drive12 := ⟨by decide, by decide⟩
  have hk := geometry12_created.known (by decide)
  obtain ⟨rs, hq⟩ := Qsort.exists_result cmpFilerange (unsortedRanges drive12)
  have h := (recalc_iff ht hr.dataStart).mpr ⟨hcan, rs, hq, rfl⟩
  have hne : ∀ f ∈ laidFiles drive12, (numbered drive12 f).clusters ≠ 0 := by decide
  obtain ⟨hfits, -⟩ := hs.fat12Laid hk rfl ht hr (by decide) (by decide) hne (by decide) hq
  obtain ⟨hch, hlive, hcomplete, -⟩ := hfits.liveChain ht hr (by decide) hne hq
  have hpairs : ∀ r ∈ unsortedRanges drive12, r.fatstart % 2 = 0 ∧ r.fatend = r.fatstart + 2 := by
    decide
  have hend : (recalcDrive drive12 rs).dataClusterEnd = 6 := by
    show u32 (2 + totalUsed drive12) = 6
    decide
  have hcnt : drive12.fileCnt = (unsortedRanges drive12).length := by decide
  have hroom : 3 * 6 ≤ 2 * drive12.bps ∧ (1 < drive12.fatSectors → 3 * 6 ≤ drive12.bps) := by decide
  have hc : Fat12Chains (recalcDrive drive12 rs) := by
    refine ⟨[], rs, ?_⟩
    exact
      { ranges := rfl, skipped := fun _ => nofun, chain := hch, nonempty := hlive
        complete := hcomplete, count := .inr (hcnt.trans hq.perm.length_eq.symm)
        halves := fun r hm c hodd h1 h2 => by
          have := hpairs r (hq.perm.mem_iff.mp hm)
          omega
        room := hend ▸ hroom }
  have hiff := readSectorFat12_served_iff drive12 _ geometry12_created rfl ht hr (by decide) h
  exact ⟨_, h, hiff.2 hs (by decide) hne (by decide) (hiff.1 hc), hiff.1 hc⟩

/-- A file of one cluster in front of a file of two. -/
def driveStraddled : VdfDrive :=
  flatDrive geometry12 none
    [{ size := 100, clusters := 1, virt := true }, { size := 1000, clusters := 2, virt := true }]

/-- The first entry of the second file clears the upper half of the mark of the first file. -/
theorem readSectorFat12_not_served : ¬ ∀ d d' : VdfDrive, d.toGeometry.Created →
    d.filesys = .fat12 → d.IsTree → d.InRange → d.allFiles.length ≤ d.fileCnt → Recalc d d' →
    Fat12Served d' := by
  intro hall
  have ht : driveStraddled.IsTree := flatDrive_isTree _ _ _
  have hr : driveStraddled.InRange := flatDrive_inRange (by decide) (by decide) (by decide)
  have hcan : CanRecalc driveStraddled := ⟨rfl, rfl, rfl, by decide⟩
  have hs : SumsFit driveStraddled := ⟨by decide, by decide⟩
  obtain ⟨rs, hq⟩ := Qsort.exists_result cmpFilerange (unsortedRanges driveStraddled)
  have hserved := hall driveStraddled _ geometry12_created rfl ht hr (by decide)
    ((recalc_iff ht hr.dataStart).mpr ⟨hcan, rs, hq, rfl⟩)
  have hc := hserved.chained (geometry12_created.known (by decide)) rfl ht hr (by decide) hs
    (by decide) (by decide) (by decide) hq
  have hsecond : ∃ r ∈ unsortedRanges driveStraddled, r.fatstart = 3 ∧ r.fatend = 5 := by decide
  obtain ⟨r, hm, h1, h2⟩ := hsecond
  have := (hc.halves r (hq.perm.mem_iff.mpr hm) 3 rfl (by omega) (by omega)).1
  omega

end Vdf
