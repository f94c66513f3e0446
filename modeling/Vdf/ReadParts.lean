import Vdf.DataStays
import Vdf.Lib.Regions
import Vdf.Lookup

/-!
# `vdf_read_sectors` region by region

`driveRegions` are the regions that a request crosses, each file of the data area one of its own,
with generators that do not depend on the locals of `vdf_read_sectors`: what is left of the request,
and where its bytes go, follows from the bounds of a region (`ReadAt`). `vdfReadSectors_serve` says
that a request of which no call fails leaves what the regions serve. -/

namespace Vdf

open Word Buffer

/-- The sectors of the drive and those in front of it. -/
def VdfDrive.allSectors (d : VdfDrive) : Nat := d.sectors + d.mbrSectors

/-! ## Generators -/

/-- The generator of the sectors up to `hi`, which are numbered from the master boot record on. -/
structure SectorGen where
  hi : Nat
  gen : (u want : Nat) → Buffer → (p : Nat) → Option Buffer

/-- Its region, for a request from sector `s` on to `p`. -/
def SectorGen.region (d : VdfDrive) (s p : Nat) (g : SectorGen) : Region Buffer :=
  { hi := g.hi, gen := fun u want m => g.gen u want m (p + (u - s) * d.bps) }

/-- The sectors in front of the file system. -/
def mbrGens (d : VdfDrive) : List SectorGen :=
  [{ hi := min 1 d.mbrSectors, gen := fun _ _ m p => some (readSectorMbr d m p) },
    { hi := d.mbrSectors, gen := fun _ want m p => some (m.fill p (d.bps * want) 0) }]

/-- The system area. -/
def systemGens (d : VdfDrive) : List SectorGen :=
  let mbr := d.mbrSectors
  [{ hi := mbr + d.fat1Start
     gen := fun u want m p => (readSectorBoot d (u - mbr) want m p).toOption },
    { hi := mbr + d.fat2Start
      gen := fun u want m p => (readSectorFat d (u - (mbr + d.fat1Start)) want m p).toOption },
    { hi := mbr + fatEnd d
      gen := fun u want m p => (readSectorFat d (u - (mbr + d.fat2Start)) want m p).toOption },
    { hi := mbr + d.dataStart
      gen := fun u want m p =>
        (readSectorDir d (u - (mbr + fatEnd d)) want m p d.rootDir).toOption }]

/-- The sectors of a file. A file that is longer than its sectors is asked for them only. -/
def fileGen (env : Readers) (d : VdfDrive) (r : FileRange) : SectorGen where
  hi := d.mbrSectors + r.sectend
  gen u want m p :=
    let fil := d.file r.file
    let o := u - (d.mbrSectors + r.sectstart)
    let off := u32 (o * d.bps)
    if fil.isDir then some (storeAll 32 m p (runRecords d r.file o (want * d.direntPerSector)))
    else if fil.size ≤ off then some (m.fill p (want * d.bps) 0)
    else (env.read d r.file off (min (fil.size - off) (want * d.bps))).map fun l =>
      (m.copy p l).fill (p + l.length) (want * d.bps - l.length) 0

/-- The sectors behind the last file. -/
def freeGen (d : VdfDrive) : SectorGen where
  hi := max (d.mbrSectors + max d.dataStart d.dataEnd) d.allSectors
  gen _ want m p := some (m.fill p (want * d.bps) 0)

/-- The data area. -/
def dataGens (env : Readers) (d : VdfDrive) (rs : List FileRange) : List SectorGen :=
  rs.map (fileGen env d) ++ [freeGen d]

/-- The regions of a drive, for a request from sector `s` on to `p`. -/
def driveRegions (env : Readers) (d : VdfDrive) (rs : List FileRange) (s p : Nat) :
    List (Region Buffer) :=
  (mbrGens d ++ (systemGens d ++ dataGens env d rs)).map (SectorGen.region d s p)

/-! ## The locals -/

/-- The locals of `vdf_read_sectors` behind the sectors of a request in front of `bound`. -/
structure ReadAt (d : VdfDrive) (base s n p bound : Nat) (m : Buffer) (t : ReadState) : Prop where
  rem : t.rem = n - min n (bound - s)
  cnt : t.cnt = min n (bound - s)
  buff : t.buff = p + t.cnt * d.bps
  mem : t.m = m
  sector : t.rem ≠ 0 → t.sector + base = s + t.cnt

/-- A run of `vdf_read_sectors` up to `bound`, and what the regions leave. -/
def Follows (d : VdfDrive) (base s n p bound : Nat) (x : Except Fault ReadState) :
    Option Buffer → Prop
  | some m => ∃ t, x = .ok t ∧ ReadAt d base s n p bound m t
  | none => ∃ f, x = .error f

section Regions

variable {d : VdfDrive} {base s n p bound bound' : Nat} {m : Buffer} {t : ReadState}

theorem Follows.bind {x : Except Fault ReadState} {o : Option Buffer}
    {k : ReadState → Except Fault ReadState} {g : Buffer → Option Buffer} {base' : Nat}
    (h : Follows d base s n p bound x o)
    (hk : ∀ m t, ReadAt d base s n p bound m t → Follows d base' s n p bound' (k t) (g m)) :
    Follows d base' s n p bound' (x.bind k) (o.bind g) := by
  cases o with
  | some m =>
    obtain ⟨t, rfl, ht⟩ := h
    exact hk m t ht
  | none =>
    obtain ⟨f, rfl⟩ := h
    exact ⟨f, rfl⟩

/-- The next region. -/
theorem ReadAt.region (h : ReadAt d base s n p bound m t) (hn : n < 2 ^ 32) (bound' : Nat)
    (g : SectorGen) (hhi : g.hi = bound') (hle : bound ≤ bound') (hbase : base ≤ bound)
    (hlt : bound' < 2 ^ 32 + base)
    (gen : Nat → Nat → Buffer → Nat → Except Fault Buffer)
    (hgen : ∀ u want m p, 0 < want → bound ≤ u → u + want ≤ bound' →
      g.gen u want m p = (gen (u - base) want m p).toOption) :
    Follows d base s n p bound' (readRegion d.bps (bound' - base) gen t)
      ((g.region d s p).part bound s n m) := by
  subst hhi
  obtain ⟨hrem, hcnt, hbuff, hmem, hsector⟩ := h
  by_cases hskip : t.rem = 0 ∨ g.hi - base ≤ t.sector
  · -- Nothing is left, or the region is behind the request.
    have hnone : min (s + n) g.hi ≤ max s bound := by
      by_cases h0 : t.rem = 0
      · exact Nat.le_trans (Nat.min_le_left ..) (by omega)
      · have := hsector h0
        exact Nat.le_trans (Nat.min_le_right ..) (by omega)
    have hmin : min n (g.hi - s) = min n (bound - s) := by omega
    rw [readRegion, if_pos hskip, Region.part_none hnone]
    exact ⟨t, rfl, by rw [hmin, hrem], by rw [hmin, hcnt], hbuff, hmem, hsector⟩
  · rw [not_or, Nat.not_le] at hskip
    obtain ⟨h0, hsec⟩ := hskip
    have hs := hsector h0
    have hfirst : max s bound = s + t.cnt ∧ t.rem = n - t.cnt ∧ t.cnt ≤ n ∧ bound ≤ s + t.cnt := by
      omega
    obtain ⟨hmax, hleft, hcn, hb⟩ := hfirst
    clear hrem hcnt hsector
    obtain ⟨want, hwant⟩ : ∃ want, want = min (s + n) g.hi - max s bound := ⟨_, rfl⟩
    have hw : max s bound < min (s + n) g.hi ∧ 0 < want ∧ s + t.cnt + want ≤ g.hi ∧
        t.cnt + want ≤ n ∧ min n (g.hi - s) = t.cnt + want := by
      rw [hmax] at hwant ⊢
      omega
    have hread : (if g.hi - base ≤ t.sector + t.rem then g.hi - base - t.sector else t.rem) =
        want := by
      rw [hmax] at hwant
      split <;> omega
    obtain ⟨hlt', hpos, hin, hle', hmin⟩ := hw
    have hptr : p + (s + t.cnt - s) * d.bps = t.buff := by
      rw [hbuff, Nat.add_sub_cancel_left]
    have hserved := hgen (s + t.cnt) want m t.buff hpos hb hin
    rw [(by omega : s + t.cnt - base = t.sector)] at hserved
    have hpart : (g.region d s p).part bound s n m = (gen t.sector want m t.buff).toOption := by
      rw [Region.part_pos (r := g.region d s p) hlt', ← hserved]
      show g.gen _ (min (s + n) g.hi - _) m (p + _) = _
      rw [← hwant, hmax, hptr]
    rw [hpart, readRegion, if_neg (by omega)]
    simp only [hread, hmem]
    clear hwant hmax hread hgen hserved hpart
    cases gen t.sector want m t.buff with
    | error f => exact ⟨f, rfl⟩
    | ok m' =>
      have hc : u32 (t.cnt + want) = t.cnt + want := u32_of_lt (by omega)
      have hnext : t.rem - want ≠ 0 → u32 (t.sector + want) + base = s + (t.cnt + want) := by
        intro h
        rw [u32_of_lt (by omega)]
        omega
      refine ⟨_, rfl, ?_, ?_, ?_, rfl, ?_⟩
      · rw [hmin]
        dsimp only
        omega
      · rw [hmin]
        exact hc
      · dsimp only
        rw [hc, hbuff, Nat.add_mul, Nat.add_assoc]
      · dsimp only
        rw [hc]
        exact hnext

end Regions

/-! ## The regions in front of the data area -/

section Request

variable {d : VdfDrive} (hg : d.toGeometry.Created) (hk : d.toGeometry.Known) {s n p : Nat}
  (hs : s < 2 ^ 32) (hn : n < 2 ^ 32) (hpos : 0 < n)

include hg hk hs hn hpos

/-- The sectors in front of the file system. -/
theorem readMbr_follows (m : Buffer) : Follows d d.mbrSectors s n p d.mbrSectors
    (readMbr d { sector := s, rem := n, cnt := 0, buff := p, m })
    (Regions.serve 0 ((mbrGens d).map (SectorGen.region d s p)) s n m) := by
  have hmbr : d.mbrSectors < 2 ^ 32 := by
    have := hk.mbr
    have := (clusterSectors_le hk.spc).2
    omega
  unfold readMbr
  simp only [mbrGens, List.map_cons, List.map_nil, Regions.serve, Option.bind_fun_some]
  split
  · rename_i hf
    have h1 : min 1 d.mbrSectors = 1 := Nat.min_eq_left (hg.mbrSectors_pos hf)
    -- The first sector.
    have hstart : ∃ m₁ t, (if s = 0 then
          { sector := 1, rem := n - 1, cnt := 1, buff := p + d.bps, m := readSectorMbr d m p }
        else { sector := s, rem := n, cnt := 0, buff := p, m }) = t ∧ ReadAt d 0 s n p 1 m₁ t ∧
        (SectorGen.region d s p ⟨1, fun _ _ m p => some (readSectorMbr d m p)⟩).part 0 s n m =
          some m₁ := by
      by_cases h0 : s = 0
      · subst h0
        have hmin : min n (1 - 0) = 1 := by omega
        refine ⟨readSectorMbr d m p, _, rfl, ?_, ?_⟩
        · exact ⟨by rw [hmin]; rfl, hmin.symm, by simp, rfl, fun _ => rfl⟩
        · rw [Region.part_pos (show max 0 0 < min (0 + n) 1 by omega)]
          simp [SectorGen.region]
      · have hmin : min n (1 - s) = 0 := by omega
        refine ⟨m, _, rfl, ?_, ?_⟩
        · rw [if_neg h0]
          exact ⟨by rw [hmin]; rfl, hmin.symm, by simp, rfl, fun _ => rfl⟩
        · rw [Region.part_none (show min (s + n) 1 ≤ max s 0 by omega)]
    obtain ⟨m₁, t, ht, hat, hpart⟩ := hstart
    have hgap := hat.region hn d.mbrSectors
      ⟨_, fun _ want m p => some (m.fill p (d.bps * want) 0)⟩ rfl
      (hg.mbrSectors_pos hf) (Nat.zero_le _) (by omega)
      (fun _ want m p => .ok (m.fill p (d.bps * want) 0)) fun _ _ _ _ _ _ _ => rfl
    rw [Nat.sub_zero] at hgap
    rw [h1, hpart, ht, Option.bind_some]
    show Follows _ _ _ _ _ _ _ ((SectorGen.region d s p _).part 1 s n m₁)
    generalize (SectorGen.region d s p _).part 1 s n m₁ = o at hgap ⊢
    cases o with
    | none =>
      obtain ⟨f, hf⟩ := hgap
      exact ⟨f, by rw [hf]; rfl⟩
    | some m₂ =>
      obtain ⟨t', ht', hrem, hcnt, hbuff, hmem, hsector⟩ := hgap
      refine ⟨{ t' with sector := subU32 t'.sector d.mbrSectors }, by rw [ht']; rfl, hrem, hcnt,
        hbuff,
        hmem, fun h => ?_⟩
      have hsec := hsector h
      dsimp only at h ⊢
      rw [subU32_of_le (by omega) (by omega)]
      omega
  · rename_i hf
    have h0 := hg.mbrSectors (by simpa using hf)
    rw [h0, Region.part_none (show min (s + n) 0 ≤ max s 0 by omega), Option.bind_some,
      Region.part_none (show min (s + n) 0 ≤ max s (min 1 0) by omega)]
    exact ⟨_, rfl, by simp, by simp, by simp, rfl, fun _ => rfl⟩

omit hg hpos hs in
/-- The system area. -/
theorem readSystem_follows {m : Buffer} {t : ReadState}
    (h : ReadAt d d.mbrSectors s n p d.mbrSectors m t) :
    Follows d d.mbrSectors s n p (d.mbrSectors + d.dataStart) (readSystem d t)
      (Regions.serve d.mbrSectors ((systemGens d).map (SectorGen.region d s p)) s n m) := by
  have h1 := hk.fat1_le
  have h2 := hk.fat2
  have h3 := hk.fatSectors
  have h4 := hk.rootStart
  have h5 := hk.dataStart
  have h6 := hk.rootSectors
  have hend := fatEnd_eq hk
  have hadd (x : Nat) : d.mbrSectors + x - d.mbrSectors = x := Nat.add_sub_cancel_left ..
  have hboot := h.region hn (d.mbrSectors + d.fat1Start)
      ⟨_, fun u want m p => (readSectorBoot d (u - d.mbrSectors) want m p).toOption⟩ rfl
      (by omega) (by omega) (by omega)
      (fun sector want m p => readSectorBoot d sector want m p) fun _ _ _ _ _ _ _ => rfl
  have hfat (start stop : Nat) (hstop : stop = start + d.fatSectors) (hlt : stop < 2 ^ 32)
      (m : Buffer)
      (t : ReadState) (h : ReadAt d d.mbrSectors s n p (d.mbrSectors + start) m t) :=
    h.region hn (d.mbrSectors + stop) ⟨_, fun u want m p =>
      (readSectorFat d (u - (d.mbrSectors + start)) want m p).toOption⟩ rfl (by omega) (by omega)
      (by omega) (fun sector want m p => readSectorFat d (subU32 sector start) want m p)
      fun u want m p _ _ _ => by
        rw [subU32_of_le (by omega) (by omega), Nat.sub_sub]
  have hdir (m : Buffer) (t : ReadState)
      (h : ReadAt d d.mbrSectors s n p (d.mbrSectors + fatEnd d) m t) :=
    h.region hn (d.mbrSectors + d.dataStart) ⟨_, fun u want m p =>
      (readSectorDir d (u - (d.mbrSectors + fatEnd d)) want m p d.rootDir).toOption⟩ rfl (by omega)
      (by omega) (by omega)
      (fun sector want m p => readSectorDir d (subU32 sector d.rootStart) want m p d.rootDir)
      fun u want m p _ _ _ => by
        rw [subU32_of_le (by omega) (by omega), (by omega : fatEnd d = d.rootStart), Nat.sub_sub]
  simp only [hadd] at hboot hfat hdir
  unfold readSystem
  simp only [systemGens, List.map_cons, List.map_nil, Regions.serve, Option.bind_fun_some]
  refine hboot.bind fun m₁ t₁ ht₁ => (hfat _ _ (by omega) (by omega) m₁ t₁ ht₁).bind
    fun m₂ t₂ ht₂ => (hfat _ _ (by omega) (by omega) m₂ t₂ ht₂).bind fun m₃ t₃ ht₃ => ?_
  by_cases hf : d.filesys = .fat32
  · rw [if_neg (by simpa using hf), Region.part_none
      (show min (s + n) (d.mbrSectors + d.dataStart) ≤ max s (d.mbrSectors + fatEnd d) by
        rw [fatEnd, if_pos hf]; omega)]
    rw [fatEnd, if_pos hf] at ht₃
    exact ⟨t₃, rfl, ht₃⟩
  · rw [if_pos hf]
    exact hdir m₃ t₃ ht₃

end Request

/-! ## The data area -/

/-- Nothing is left to read. -/
theorem dataLoop_done {env : Readers} {d : VdfDrive} {st : DataState} (h : st.scnt = 0)
    (fuel : Nat) :
    dataLoop env d fuel st = .ok (0, st) := by
  cases fuel <;> rw [dataLoop, if_pos h]

section Data

variable {env : Readers} {d : VdfDrive} {rs : List FileRange} (hP : DataPlaced d rs)
  (hbps : d.bps ∈ sectorSizes) (hdps : d.direntPerSector = d.bps / 32) (hE : env.Bounded)

include hP hbps hdps hE

/-- One round serves what its range does. -/
theorem dataStep_gen {st : DataState} (hpos : 0 < st.scnt) {r : FileRange} (hr : r ∈ rs)
    (h1 : r.sectstart ≤ st.sector) (h2 : st.sector < r.sectend)
    (hfit : (d.file r.file).isDir = false → r.sectend < st.sector + st.scnt →
      FileStays d r st.sector) :
    (∃ c, dataStep env d st = .ok (some (-1), { st with calls := c })) ∨
    ∃ m c, (fileGen env d r).gen (d.mbrSectors + st.sector)
        (min (r.sectend - st.sector) st.scnt) st.m st.buffer = some m ∧
      dataStep env d st = .ok (none,
        { sector := st.sector + min (r.sectend - st.sector) st.scnt
          scnt := st.scnt - min (r.sectend - st.sector) st.scnt
          buffer := st.buffer + min (r.sectend - st.sector) st.scnt * d.bps
          m, calls := c }) := by
  have ho : d.mbrSectors + st.sector - (d.mbrSectors + r.sectstart) = st.sector - r.sectstart := by
    omega
  by_cases hd : (d.file r.file).isDir = true
  · rw [hP.dataStep_dir hr h1 h2 env hbps hdps hpos hd]
    refine .inr ⟨_, _, ?_, rfl⟩
    simp only [fileGen, ho, hd, ↓reduceIte]
  · have hd : (d.file r.file).isDir = false := by simpa using hd
    have hfit := hfit hd
    rw [hP.dataStep_file hr h1 h2 env hd]
    unfold FileStays at hfit
    simp only [fileGen, ho, hd, Bool.false_eq_true, ↓reduceIte]
    generalize u32 ((st.sector - r.sectstart) * d.bps) = off at hfit ⊢
    obtain ⟨k, hk⟩ : ∃ k, k = min (r.sectend - st.sector) st.scnt := ⟨_, rfl⟩
    rw [← hk]
    by_cases hz : (d.file r.file).size ≤ off
    · rw [if_pos hz, if_pos hz]
      exact .inr ⟨_, _, rfl, rfl⟩
    · rw [if_neg hz, if_neg hz]
      -- What is left of the file fits its sectors, unless the request ends there.
      have hwant : min ((d.file r.file).size - off) (st.scnt * d.bps) =
          min ((d.file r.file).size - off) (k * d.bps) := by
        rcases Nat.lt_or_ge r.sectend (st.sector + st.scnt) with h | h
        · have hle : k * d.bps ≤ st.scnt * d.bps := Nat.mul_le_mul_right _ (by omega)
          have := hfit h
          rw [(by omega : r.sectend - st.sector = k)] at this
          rw [Nat.min_eq_left (by omega), Nat.min_eq_left (by omega)]
        · rw [hk, Nat.min_eq_right (by omega : st.scnt ≤ r.sectend - st.sector)]
      rw [hwant]
      cases hread : env.read d r.file off (min ((d.file r.file).size - off) (k * d.bps)) with
      | none => exact .inl ⟨_, rfl⟩
      | some bytes =>
        have hlen := hE.read hread
        have hle : bytes.length ≤ k * d.bps := Nat.le_trans hlen (Nat.min_le_right ..)
        refine .inr ⟨_, st.calls ++ [⟨r.file, off, min ((d.file r.file).size - off) (k * d.bps)⟩],
          rfl, ?_⟩
        simp only [Nat.min_eq_left hlen, Nat.add_assoc, Nat.add_sub_of_le hle]

/-- The rounds follow the files `l` from sector `lo` on. -/
theorem dataLoop_serve {s n p X W : Nat}
    (hX : X + d.mbrSectors = max s (d.mbrSectors + d.dataStart))
    (hW : X + W + d.mbrSectors = s + n) (hfits : FilesStay d rs X W) (hin : s + n ≤ d.allSectors)
    {t : DataState} (fuel : Nat) (l : List FileRange) (lo : Nat) (st : DataState)
    (hl : ∀ r ∈ l, r ∈ rs) (hlo : d.dataStart ≤ lo)
    (hchain : Chain FileRange.sectstart FileRange.sectend lo l d.dataEnd) (hfuel : st.scnt ≤ fuel)
    (hscnt : st.scnt = s + n - max s (d.mbrSectors + lo))
    (hsector : st.scnt ≠ 0 → d.mbrSectors + st.sector = max s (d.mbrSectors + lo) ∧
      st.buffer = p + (d.mbrSectors + st.sector - s) * d.bps)
    (h : dataLoop env d fuel st = .ok (0, t)) :
    Regions.serve (d.mbrSectors + lo) ((dataGens env d l).map (SectorGen.region d s p)) s n st.m =
      some t.m := by
  induction l generalizing lo fuel st with
  | nil =>
    obtain rfl : lo = d.dataEnd := hchain
    simp only [dataGens, List.map_nil, List.nil_append, List.map_cons, Regions.serve,
      Option.bind_fun_some]
    by_cases h0 : st.scnt = 0
    · rw [dataLoop_done h0] at h
      cases h
      rw [Region.part_none (show min (s + n) (freeGen d).hi ≤ max s (d.mbrSectors + d.dataEnd) from
        Nat.le_trans (Nat.min_le_left ..) (by omega))]
    · obtain ⟨hs, hb⟩ := hsector h0
      obtain ⟨fuel, rfl⟩ : ∃ k, fuel = k + 1 := ⟨fuel - 1, by omega⟩
      have hhi : min (s + n) (freeGen d).hi = s + n :=
        Nat.min_eq_left (Nat.le_trans hin (Nat.le_max_right ..))
      rw [dataLoop, if_neg h0, dataStep, findFileSector, if_pos (by omega)] at h
      cases h
      rw [Region.part_pos (r := (freeGen d).region d s p)
        (show max s (d.mbrSectors + d.dataEnd) < min (s + n) (freeGen d).hi by omega)]
      show some (st.m.fill (p + (max s (d.mbrSectors + d.dataEnd) - s) * d.bps)
        ((min (s + n) (freeGen d).hi - max s (d.mbrSectors + d.dataEnd)) * d.bps) 0) = _
      rw [hhi, ← hscnt, ← hs, ← hb]
  | cons r l ih =>
    obtain ⟨rfl, hle, hchain'⟩ := hchain
    have hr : r ∈ rs := hl r (List.mem_cons_self ..)
    have hl' : ∀ x ∈ l, x ∈ rs := fun x hx => hl x (List.mem_cons_of_mem _ hx)
    show ((SectorGen.region d s p (fileGen env d r)).part _ s n st.m).bind (Regions.serve
      (d.mbrSectors + r.sectend) ((dataGens env d l).map (SectorGen.region d s p)) s n) = _
    by_cases hskip : st.scnt = 0 ∨ r.sectend ≤ st.sector
    · -- The range is not in the request.
      have hnone : min (s + n) (d.mbrSectors + r.sectend) ≤ max s (d.mbrSectors + r.sectstart) := by
        by_cases h0 : st.scnt = 0
        · exact Nat.le_trans (Nat.min_le_left ..) (by omega)
        · have := (hsector h0).1
          exact Nat.le_trans (Nat.min_le_right ..) (by omega)
      rw [Region.part_none (r := (fileGen env d r).region d s p) hnone, Option.bind_some]
      refine ih fuel r.sectend st hl' (by omega) hchain' hfuel ?_ (fun h0 => ?_) h
      · by_cases h0 : st.scnt = 0
        · omega
        · have := (hsector h0).1
          omega
      · obtain ⟨hs, hb⟩ := hsector h0
        exact ⟨by omega, hb⟩
    · rw [not_or, Nat.not_le] at hskip
      obtain ⟨h0, h2⟩ := hskip
      obtain ⟨hs, hb⟩ := hsector h0
      obtain ⟨fuel, rfl⟩ : ∃ k, fuel = k + 1 := ⟨fuel - 1, by omega⟩
      obtain ⟨k, hk⟩ : ∃ k, k = min (r.sectend - st.sector) st.scnt := ⟨_, rfl⟩
      have hlt : max s (d.mbrSectors + r.sectstart) < min (s + n) (d.mbrSectors + r.sectend) := by
        omega
      have hwant : min (s + n) (d.mbrSectors + r.sectend) -
          max s (d.mbrSectors + r.sectstart) = k := by
        omega
      have hfit : (d.file r.file).isDir = false → r.sectend < st.sector + st.scnt →
          FileStays d r st.sector := by
        intro hd hlt'
        have hmax : max X r.sectstart = st.sector := by omega
        exact hmax ▸ hfits r hr hd (by omega) (by omega)
      rw [dataLoop, if_neg h0] at h
      rcases dataStep_gen hP hbps hdps hE (Nat.pos_of_ne_zero h0) hr (by omega) h2 hfit with
        ⟨c, hstep⟩ | ⟨m, c, hgen, hstep⟩
      · rw [hstep] at h
        cases h
      · rw [hstep] at h
        rw [← hk] at hgen h
        rw [Region.part_pos (r := (fileGen env d r).region d s p) hlt]
        show ((fileGen env d r).gen _ (min (s + n) (d.mbrSectors + r.sectend) - _) st.m
          (p + _)).bind _ = _
        rw [hwant, ← hs, ← hb, hgen, Option.bind_some]
        refine ih fuel r.sectend { sector := st.sector + k, scnt := st.scnt - k
                                   buffer := st.buffer + k * d.bps, m, calls := c }
          hl' (by omega) hchain' (by dsimp only; omega) (by dsimp only; omega) (fun h0' => ?_) h
        dsimp only at h0' ⊢
        refine ⟨by omega, ?_⟩
        rw [hb, Nat.add_assoc, ← Nat.add_mul]
        congr 2
        omega

end Data

/-! ## A request -/

/-- The part of a request between two bounds, from the first of them on, meets a condition. -/
def Clipped (s n lo hi : Nat) (P : (sector want : Nat) → Prop) : Prop :=
  max s lo < min (s + n) hi → P (max s lo - lo) (min (s + n) hi - max s lo)

/-- Each region of a drive ends behind the one in front of it. -/
theorem driveRegions_ordered {env : Readers} {d : VdfDrive} {rs : List FileRange}
    (hk : d.toGeometry.Known) (hrs : rs = [] ∨ DataPlaced d rs) (s p : Nat) :
    Regions.Ordered 0 (driveRegions env d rs s p) := by
  have h1 := hk.fat2
  have h2 := hk.rootStart
  have h3 := hk.dataStart
  have hend := fatEnd_eq hk
  have hfiles (l : List FileRange) (lo hi : Nat)
      (h : Chain FileRange.sectstart FileRange.sectend lo l hi) :
      Regions.Ordered (d.mbrSectors + lo)
        ((l.map (fileGen env d)).map (SectorGen.region d s p)) ∧
      Regions.fin (d.mbrSectors + lo) ((l.map (fileGen env d)).map (SectorGen.region d s p)) =
        d.mbrSectors + hi := by
    induction l generalizing lo with
    | nil => exact ⟨trivial, congrArg (d.mbrSectors + ·) h⟩
    | cons r l ih =>
      obtain ⟨rfl, hle, h⟩ := h
      exact ⟨⟨Nat.add_le_add_left hle _, (ih _ h).1⟩, (ih _ h).2⟩
  have hdata : Regions.Ordered (d.mbrSectors + d.dataStart)
      ((dataGens env d rs).map (SectorGen.region d s p)) := by
    unfold dataGens
    rw [List.map_append, Regions.ordered_append]
    rcases hrs with rfl | hP
    · exact ⟨trivial,
        Nat.le_trans (Nat.add_le_add_left (Nat.le_max_left ..) _) (Nat.le_max_left ..),
        trivial⟩
    · obtain ⟨ho, hfin⟩ := hfiles rs _ _ hP.chain
      rw [hfin]
      exact ⟨ho,
        Nat.le_trans (Nat.add_le_add_left (Nat.le_max_right ..) _) (Nat.le_max_left ..), trivial⟩
  unfold driveRegions
  rw [List.map_append, List.map_append, Regions.ordered_append, Regions.ordered_append]
  refine ⟨⟨Nat.zero_le _, Nat.min_le_right .., trivial⟩,
    ⟨Nat.le_add_right .., ?_, ?_, ?_, trivial⟩, hdata⟩
  · exact Nat.add_le_add_left (by omega) _
  · exact Nat.add_le_add_left (by omega) _
  · exact Nat.add_le_add_left (by omega) _

/-- The last region reaches behind the drive. -/
theorem driveRegions_fin (env : Readers) (d : VdfDrive) (rs : List FileRange) (s p : Nat) :
    d.allSectors ≤ Regions.fin 0 (driveRegions env d rs s p) := by
  have hlast (lo : Nat) (l : List (Region Buffer)) (r : Region Buffer) :
      Regions.fin lo (l ++ [r]) = r.hi := by
    induction l generalizing lo with
    | nil => rfl
    | cons x l ih => exact ih x.hi
  have happ : driveRegions env d rs s p =
      (mbrGens d ++ (systemGens d ++ rs.map (fileGen env d))).map (SectorGen.region d s p) ++
        [(freeGen d).region d s p] := by
    rw [driveRegions, dataGens]
    simp only [List.map_append, List.append_assoc, List.map_cons, List.map_nil]
  rw [happ, hlast]
  exact Nat.le_max_right ..

/-- A request of which no call fails leaves what the regions serve. -/
theorem vdfReadSectors_serve {env : Readers} {d : VdfDrive} {rs : List FileRange}
    (hg : d.toGeometry.Created) (hk : d.toGeometry.Known) (hv : d.isValid = true) (hE : env.Bounded)
    {s n p : Nat} (hs : s < 2 ^ 32) (hn : n < 2 ^ 32) (hpos : 0 < n) (hin : s + n ≤ d.allSectors)
    (hrs : rs = [] ∧ s + n ≤ d.mbrSectors + d.dataStart ∨ DataPlaced d rs)
    (hfits : Clipped s n (d.mbrSectors + d.dataStart) d.allSectors fun o want =>
      FilesStay d rs (d.dataStart + o) want) {m M : Buffer} {ret : Int} {calls : List ReadCall}
    (h : vdfReadSectors env d s n m p = .ok (ret, M, calls)) (hok : ∀ c ∈ calls, ¬ env.Fails d c) :
    Regions.serve 0 (driveRegions env d rs s p) s n m = some M := by
  have hsec := hk.sectors
  have hfollows := (readMbr_follows hg hk (p := p) hs hn hpos m).bind
    fun m₁ t ht => readSystem_follows hk hn ht
  have hord := @driveRegions_ordered env d rs hk (hrs.imp_left And.left) s p
  unfold driveRegions at hord ⊢
  rw [List.map_append, List.map_append, Regions.ordered_append, Regions.ordered_append] at hord
  have hdata := hord.2.2
  rw [List.map_append, List.map_append, Regions.serve_append]
  simp only [Regions.serve_append]
  rw [← Option.bind_assoc]
  change Regions.Ordered (d.mbrSectors + d.dataStart)
    ((dataGens env d rs).map (SectorGen.region d s p)) at hdata
  change Option.bind (Option.bind (Regions.serve 0 ((mbrGens d).map (SectorGen.region d s p)) s n m)
    (Regions.serve d.mbrSectors ((systemGens d).map (SectorGen.region d s p)) s n))
      (Regions.serve (d.mbrSectors + d.dataStart) ((dataGens env d rs).map (SectorGen.region d s p))
        s n) = some M
  have hrun : vdfReadSectors env d s n m p =
      ((readMbr d { sector := s, rem := n, cnt := 0, buff := p, m }).bind
        (readSystem d)).bind fun t =>
        if t.rem = 0 then .ok (toI32 t.cnt, t.m, [])
        else
          let want := if d.sectors ≤ t.sector + t.rem then subU32 d.sectors t.sector else t.rem
          (readSectorData env d t.sector want t.m t.buff).bind fun x =>
            .ok (if x.1 = -1 then (-1, x.2.1, x.2.2)
              else (toI32 (u32 (t.cnt + want)), x.2.1, x.2.2)) := by
    rw [vdfReadSectors, hv, if_neg (by simp), if_neg (by omega)]
    show Except.bind _ _ = _
    cases readMbr d { sector := s, rem := n, cnt := 0, buff := p, m } <;> rfl
  rw [hrun] at h
  generalize Option.bind (Regions.serve 0 _ s n m) _ = o at hfollows ⊢
  cases o with
  | none =>
    obtain ⟨f, hf⟩ := hfollows
    rw [hf] at h
    cases h
  | some m₁ =>
    obtain ⟨t, ht, hrem, hcnt, hbuff, rfl, hsector⟩ := hfollows
    rw [ht] at h
    rw [Option.bind_some]
    by_cases h0 : t.rem = 0
    · -- The data area is not reached.
      rw [Regions.serve_behind hdata (by omega)]
      change (if t.rem = 0 then _ else _) = _ at h
      rw [if_pos h0] at h
      exact congrArg (some ·.2.1) (Except.ok.inj h)
    · have hX := hsector h0
      have hend : t.sector + t.rem + d.mbrSectors = s + n := by omega
      have hwant : (if d.sectors ≤ t.sector + t.rem then subU32 d.sectors t.sector else t.rem) =
          t.rem := by
        unfold VdfDrive.allSectors at hin
        split
        · rw [subU32_of_le hsec (by omega)]
          omega
        · rfl
      have hreach : d.mbrSectors + d.dataStart < s + n := by omega
      have hP := hrs.resolve_left fun h => by omega
      have hstart : t.sector + d.mbrSectors = max s (d.mbrSectors + d.dataStart) := by omega
      have hfits' : FilesStay d rs t.sector t.rem := by
        have hclip := hfits (by omega)
        dsimp only at hclip
        rwa [(by omega : d.dataStart + (max s (d.mbrSectors + d.dataStart) -
          (d.mbrSectors + d.dataStart)) = t.sector), (by omega : min (s + n) d.allSectors -
          max s (d.mbrSectors + d.dataStart) = t.rem)] at hclip
      change (if t.rem = 0 then _ else _) = _ at h
      simp only [if_neg h0, hwant] at h
      obtain ⟨r, u, _, hloop, -, hcalls, hret⟩ := dataLoop_stays hP hk.bps hk.dirent hE t.rem
        { sector := t.sector, scnt := t.rem, buffer := t.buff, m := t.m, calls := [] }
        (show d.dataStart ≤ t.sector by omega) hfits' (Nat.le_refl _)
      have hdata : readSectorData env d t.sector t.rem t.m t.buff = .ok (r, u.m, u.calls) := by
        rw [readSectorData, hloop]
        rfl
      rw [hdata] at h
      rcases hret with ⟨rfl, -⟩ | ⟨rfl, hfail⟩
      · have hM : u.m = M := congrArg (·.2.1) (Except.ok.inj h)
        rw [← hM]
        refine dataLoop_serve hP hk.bps hk.dirent hE hstart hend hfits' hin t.rem rs d.dataStart _
          (fun _ hr => hr) (Nat.le_refl _) hP.chain (Nat.le_refl _) ?_ (fun _ => ⟨?_, ?_⟩) hloop
        · dsimp only
          omega
        · dsimp only
          omega
        · dsimp only
          rw [hbuff, Nat.add_comm d.mbrSectors, hX, Nat.add_sub_cancel_left]
      · obtain ⟨c, hc, hfail⟩ := hfail
        have hM : u.calls = calls := congrArg (·.2.2) (Except.ok.inj h)
        rw [← hM, hcalls] at hok
        exact absurd hfail (hok c (List.mem_append_right _ hc))

end Vdf
