import Vdf.Locked
import Vdf.ReadCount
import Vdf.TransportLocks

/-!
# `vdf_dump_drive`

The dump reads a cluster at a time and goes on by the number of sectors that it gets. That number is the one
that the drive has left, or a whole cluster where the request ends in front of a data area that starts behind
the end of the drive. The bound of the loop is an `ssectcnt_t` as a `size_t`: from `2^31` sectors on it is more
than any sector, and the loop goes on at the end of the drive.
-/

namespace Vdf

open Word Buffer Hub

/-! ## The sectors that a read counts -/

/-- The state behind the sectors of a request in front of `bound`, but for the memory. -/
structure Passed (base s n bound : Nat) (t : ReadState) : Prop where
  rem : t.rem = n - min n (bound - s)
  cnt : t.cnt = min n (bound - s)
  sector : t.rem ≠ 0 → t.sector + base = s + t.cnt

/-- A region that does not fail. -/
theorem Passed.region {base s n bound b : Nat} {t : ReadState} (h : Passed base s n bound t)
    (hn : n < 2 ^ 32) (hle : bound ≤ base + b) (hbase : base ≤ bound) (hlt : b < 2 ^ 32) (bps : Nat)
    (gen : Nat → Nat → Buffer → Nat → Except Fault Buffer) :
    Ends (readRegion bps b gen t) (Passed base s n (base + b)) fun _ => True := by
  obtain ⟨hrem, hcnt, hsector⟩ := h
  unfold readRegion
  split
  · rename_i hskip
    have hmin : min n (base + b - s) = min n (bound - s) := by
      by_cases h0 : t.rem = 0
      · omega
      · have := hsector h0
        omega
    exact .ok ⟨by rw [hmin, hrem], by rw [hmin, hcnt], hsector⟩
  · rename_i hskip
    have hsec := hsector (by omega)
    refine (Ends.any _).bind fun m _ => .ok ?_
    have hwant : (if b ≤ t.sector + t.rem then b - t.sector else t.rem) =
        min n (base + b - s) - min n (bound - s) := by
      split <;> omega
    rw [hwant]
    refine ⟨by dsimp only; omega, ?_, fun h => ?_⟩
    · dsimp only
      rw [u32_of_lt (by omega)]
      omega
    · dsimp only at h ⊢
      rw [u32_of_lt (by omega), u32_of_lt (by omega)]
      omega

section Count

variable {d : VdfDrive} {s n : Nat}

/-- What `vdf_read_sectors` counts unless it fails. -/
def countedSectors (d : VdfDrive) (s n : Nat) : Nat :=
  if n ≤ frontSectors d s then n else u32 (frontSectors d s + dataWant d s n)

theorem readMbr_passed (hg : d.toGeometry.Created) (hk : d.toGeometry.Known) (hs : s < 2 ^ 32)
    (hn : n < 2 ^ 32) (hpos : 0 < n) (m : Buffer) (p : Nat) :
    Ends (readMbr d { sector := s, rem := n, cnt := 0, buff := p, m })
      (Passed d.mbrSectors s n d.mbrSectors) fun _ => True := by
  unfold readMbr
  split
  · rename_i hf
    have hmbr := hg.mbrSectors_pos hf
    have hlt : d.mbrSectors < 2 ^ 32 := by
      have := hk.mbr
      have := (clusterSectors_le hk.spc).2
      omega
    have hfirst : Passed 0 s n 1 (if s = 0 then
        { sector := 1, rem := n - 1, cnt := 1, buff := p + d.bps, m := readSectorMbr d m p }
        else { sector := s, rem := n, cnt := 0, buff := p, m }) := by
      split
      · exact ⟨by dsimp only; omega, by dsimp only; omega, fun _ => by dsimp only; omega⟩
      · exact ⟨by dsimp only; omega, by dsimp only; omega, fun _ => rfl⟩
    refine (hfirst.region hn (by omega) (Nat.zero_le _) hlt _ _).bind fun t ht => .ok ?_
    rw [Nat.zero_add] at ht
    refine ⟨ht.rem, ht.cnt, fun h => ?_⟩
    have hsec := ht.sector h
    have hrem := ht.rem
    have hcnt := ht.cnt
    dsimp only at h ⊢
    rw [subU32_of_le (by omega) (by omega)]
    omega
  · rename_i hf
    have h0 := hg.mbrSectors (by simpa using hf)
    exact .ok ⟨by dsimp only; omega, by dsimp only; omega, fun _ => by dsimp only; omega⟩

theorem readSystem_passed (hk : d.toGeometry.Known) (hn : n < 2 ^ 32) {t : ReadState}
    (h : Passed d.mbrSectors s n d.mbrSectors t) :
    Ends (readSystem d t) (Passed d.mbrSectors s n (d.mbrSectors + d.dataStart)) fun _ => True := by
  have h1 := hk.fat1_le
  have h2 := hk.fat2
  have h3 := hk.fatSectors
  have h4 := hk.rootStart
  have h5 := hk.dataStart
  have h6 := hk.rootSectors
  have hend := fatEnd_eq hk
  unfold readSystem
  refine (h.region hn (by omega) (by omega) (by omega) _ _).bind fun t h => ?_
  refine (h.region hn (by omega) (by omega) (by omega) _ _).bind fun t h => ?_
  refine (h.region hn (by omega) (by omega) (by omega) _ _).bind fun t h => ?_
  split
  · exact h.region hn (by omega) (by omega) (by omega) _ _
  · rename_i hf
    have h0 := hk.root32 (by simpa using hf)
    rw [(by omega : d.dataStart = fatEnd d)]
    exact .ok h

/-- A request of at least one sector. -/
theorem vdfReadSectors_passed (hg : d.toGeometry.Created) (hk : d.toGeometry.Known)
    (hv : d.isValid = true) (hs : s < 2 ^ 32) (hn : n < 2 ^ 32) (hpos : 0 < n) (env : Readers)
    (m : Buffer) (p : Nat) :
    Ends (vdfReadSectors env d s n m p)
      (fun x => x.1 = -1 ∨ x.1 = toI32 (countedSectors d s n)) fun _ => True := by
  unfold vdfReadSectors
  rw [hv, if_neg (by simp), if_neg (by omega)]
  refine (readMbr_passed hg hk hs hn hpos m p).bind fun t ht => ?_
  refine (readSystem_passed hk hn ht).bind fun t ht => ?_
  obtain ⟨hrem, hcnt, hsector⟩ := ht
  split
  · refine .ok (.inr ?_)
    rw [countedSectors, if_pos (by unfold frontSectors; omega)]
    dsimp only
    congr 1
    omega
  · rename_i h0
    have hfront : t.cnt = frontSectors d s := by unfold frontSectors; omega
    have hsec : t.sector = dataSector d s := by
      have := hsector h0
      unfold frontSectors at hfront
      unfold dataSector
      omega
    have hleft : t.rem = n - frontSectors d s := by omega
    have hlt : ¬ n ≤ frontSectors d s := by omega
    rw [countedSectors, if_neg hlt, dataWant, hsec, hleft, hfront]
    refine (Ends.any _).bind fun x _ => ?_
    dsimp only
    split
    · exact .ok (.inl rfl)
    · exact .ok (.inr rfl)

/-- From a sector of the drive on, that is what the drive has left, unless the data area starts behind its
end. -/
theorem countedSectors_eq (hk : d.toGeometry.Known) (hs : s < d.allSectors)
    (hall : d.allSectors < 2 ^ 32) (hn : n < 2 ^ 32) : countedSectors d s n =
      if d.sectors < d.dataStart ∧ n ≤ frontSectors d s then n else min n (d.allSectors - s) := by
  have hsec := hk.sectors
  have h32 := hk.dataStart_lt
  unfold countedSectors
  by_cases hle : n ≤ frontSectors d s
  · simp only [hle, ↓reduceIte, and_true]
    unfold frontSectors at hle
    unfold VdfDrive.allSectors at hs ⊢
    split <;> omega
  · rw [if_neg hle, if_neg (by tauto)]
    by_cases hd : d.dataStart ≤ d.sectors
    · have hin : dataSector d s ≤ d.sectors := by
        unfold dataSector
        unfold VdfDrive.allSectors at hs
        omega
      rw [(dataWant_eq hsec hin (by omega)).2, u32_of_lt (by omega)]
    · -- The subtraction wraps, and so does the count.
      have hstart : dataSector d s = d.dataStart := by
        unfold dataSector
        unfold VdfDrive.allSectors at hs
        omega
      rw [dataWant, hstart, if_pos (by omega), subU32_of_lt h32 (by omega)]
      unfold frontSectors at hle ⊢
      unfold VdfDrive.allSectors at hs hall ⊢
      unfold u32
      omega

end Count

/-! ## The dumped sectors -/

section Dump

/-- The buffer behind the first `k` reads of a dump. -/
def dumpBuff (d : VdfDrive) (read : SectorReader) (junk : Buffer) : Nat → Buffer
  | 0 => junk
  | k + 1 =>
    match read (k * d.spc) d.spc (dumpBuff d read junk k) 0 with
    | .ok (_, m) => m
    | .error _ => dumpBuff d read junk k

/-- Sector `i`, as `vdf_read_sectors` put it into the buffer. -/
def dumpSector (d : VdfDrive) (read : SectorReader) (junk : Buffer) (i : Nat) : List UInt8 :=
  (dumpBuff d read junk (i / d.spc + 1)).slice (i % d.spc * d.bps) d.bps

/-- The first `n` sectors in order. -/
def dumpFile (d : VdfDrive) (read : SectorReader) (junk : Buffer) (n : Nat) : List UInt8 :=
  (List.range n).flatMap (dumpSector d read junk)

/-- The reads of a dump succeed. -/
def DumpReads (d : VdfDrive) (read : SectorReader) (junk : Buffer) : Prop :=
  ∀ k, k * d.spc < d.allSectors →
    ∃ r m, read (k * d.spc) d.spc (dumpBuff d read junk k) 0 = .ok (r, m) ∧ r ≠ -1

variable {d : VdfDrive} {read : SectorReader} {junk : Buffer} {e : DumpEnv}

theorem slice_sectors (m : Buffer) (bps a n : Nat) :
    m.slice a (n * bps) = (List.range n).flatMap fun i => m.slice (a + i * bps) bps := by
  induction n with
  | zero => simp [slice]
  | succ n ih =>
    rw [Nat.succ_mul, ← slice_append, ih, List.range_succ, List.flatMap_append,
      List.flatMap_singleton]

/-- The file behind a read of `n` sectors of cluster `k`. -/
theorem dumpFile_append {k n : Nat} (hn : n ≤ d.spc) (hpos : 0 < d.spc) :
    dumpFile d read junk (k * d.spc) ++ (dumpBuff d read junk (k + 1)).slice 0 (n * d.bps) =
      dumpFile d read junk (k * d.spc + n) := by
  rw [dumpFile, dumpFile, List.range_add, List.flatMap_append, List.flatMap_map, slice_sectors]
  congr 1
  refine List.flatMap_congr fun i hi => ?_
  have hi := List.mem_range.1 hi
  rw [dumpSector, Nat.mul_comm k, Nat.mul_add_div hpos, Nat.mul_add_mod, Nat.div_eq_of_lt (by omega),
    Nat.mod_eq_of_lt (by omega), Nat.add_zero, Nat.zero_add]

theorem length_dumpFile (n : Nat) : (dumpFile d read junk n).length = n * d.bps := by
  induction n with
  | zero => simp [dumpFile]
  | succ n ih =>
    rw [dumpFile, List.range_succ, List.flatMap_append, List.length_append, List.flatMap_singleton,
      Nat.succ_mul, dumpSector, length_slice]
    congr 1

/-! ## The loop -/

/-- One round, with a read that counts `c` sectors. -/
theorem dumpLoop_round {k c cnt fuel : Nat} {m : Buffer} {file : List UInt8}
    (hw : ∀ s, e.writes s = true) (hlt : k * d.spc < cnt)
    (hread : read (k * d.spc) d.spc (dumpBuff d read junk k) 0 = .ok ((c : Int), m))
    (hsum : k * d.spc + c < 2 ^ 32) :
    dumpLoop d read e cnt (fuel + 1) (k * d.spc) (dumpBuff d read junk k) file =
      dumpLoop d read e cnt fuel (k * d.spc + c) (dumpBuff d read junk (k + 1))
        (file ++ (dumpBuff d read junk (k + 1)).slice 0 (c * d.bps)) := by
  have hbuff : dumpBuff d read junk (k + 1) = m := by rw [dumpBuff, hread]
  have hsect : ofInt (((k * d.spc : Nat) : Int) + (c : Int)) = k * d.spc + c := by
    rw [← Int.natCast_add, ofInt_natCast hsum]
  rw [dumpLoop, if_neg (by omega), hread, hbuff]
  dsimp only
  rw [if_neg (by omega), hw, hsect]
  rfl

/-- A bound that no sector reaches is not met. -/
theorem dumpLoop_unbounded {cnt : Nat} (hcnt : 2 ^ 32 ≤ cnt) (fuel : Nat) {sect : Nat}
    (hs : sect < 2 ^ 32) (buff : Buffer) (file file' : List UInt8) :
    dumpLoop d read e cnt fuel sect buff file ≠ some (0, file') := by
  induction fuel generalizing sect buff file with
  | zero => nofun
  | succ fuel ih =>
    rw [dumpLoop, if_neg (by omega)]
    split
    · nofun
    · split_ifs
      · nofun
      · nofun
      · exact ih (ofInt_lt _) _ _

/-- The sectors that a dump writes. -/
def dumpedSectors (d : VdfDrive) : Nat :=
  d.allSectors / d.spc * d.spc +
    if d.allSectors % d.spc = 0 then 0 else countedSectors d (d.allSectors / d.spc * d.spc) d.spc

section Clusters

variable (hk : d.toGeometry.Known) (hall : d.allSectors < 2 ^ 31) (hw : ∀ s, e.writes s = true)
  (hread : ∀ k, k * d.spc < d.allSectors → ∃ m, read (k * d.spc) d.spc (dumpBuff d read junk k) 0 =
    .ok ((countedSectors d (k * d.spc) d.spc : Nat), m))

include hk hall hw hread

/-- The clusters that are whole. -/
theorem dumpLoop_whole {k : Nat} (hle : k * d.spc ≤ d.allSectors) (fuel : Nat) :
    dumpLoop d read e d.allSectors (fuel + k) 0 junk [] =
      dumpLoop d read e d.allSectors fuel (k * d.spc) (dumpBuff d read junk k)
        (dumpFile d read junk (k * d.spc)) := by
  have hspc := clusterSectors_le hk.spc
  induction k generalizing fuel with
  | zero => simp [dumpFile, dumpBuff]
  | succ k ih =>
    rw [Nat.succ_mul] at hle
    have hcount : countedSectors d (k * d.spc) d.spc = d.spc := by
      rw [countedSectors_eq hk (by omega) (by omega) (by omega)]
      split <;> omega
    obtain ⟨m, hm⟩ := hread k (by omega)
    rw [hcount] at hm
    rw [(by omega : fuel + (k + 1) = fuel + 1 + k), ih (by omega),
      dumpLoop_round hw (by omega) hm (by omega), dumpFile_append (Nat.le_refl _) hspc.1,
      Nat.succ_mul]

/-- The dump ends. -/
theorem dumpLoop_ends {fuel : Nat} (hfuel : d.allSectors / d.spc + 2 ≤ fuel) :
    dumpLoop d read e d.allSectors fuel 0 junk [] =
      some (0, dumpFile d read junk (dumpedSectors d)) := by
  have hspc := clusterSectors_le hk.spc
  have hsum : d.allSectors / d.spc * d.spc + d.allSectors % d.spc = d.allSectors := by
    rw [Nat.mul_comm]
    exact Nat.div_add_mod ..
  have hmod := Nat.mod_lt d.allSectors hspc.1
  generalize hK : d.allSectors / d.spc = k at hfuel hsum
  obtain ⟨rest, rfl⟩ : ∃ rest, fuel = rest + 2 + k := ⟨fuel - 2 - k, by omega⟩
  rw [dumpLoop_whole hk hall hw hread (by omega), dumpedSectors, hK]
  split
  · rename_i h0
    rw [dumpLoop, if_pos (by omega), Nat.add_zero]
  · rename_i h0
    have hcount := countedSectors_eq hk (s := k * d.spc) (n := d.spc) (by omega) (by omega) (by omega)
    have hle : countedSectors d (k * d.spc) d.spc ≤ d.spc ∧
        d.allSectors ≤ k * d.spc + countedSectors d (k * d.spc) d.spc := by
      rw [hcount]
      split <;> omega
    obtain ⟨m, hm⟩ := hread k (by omega)
    rw [dumpLoop_round hw (by omega) hm (by omega), dumpFile_append hle.1 hspc.1, dumpLoop,
      if_pos hle.2]

end Clusters

end Dump

/-! ## Dumps of locked drives -/

section Lock

variable {qsort : List FileRange → List FileRange} {m : Nat} {d d' : VdfDrive}

theorem vdfDriveRecalc_add {r : Int × VdfDrive} (h : vdfDriveRecalc qsort m d = some r) (n : Nat) :
    vdfDriveRecalc qsort (m + n) d = some r := by
  unfold vdfDriveRecalc at h ⊢
  split_ifs at h ⊢
  · exact h
  · exact h
  · exact h
  · obtain ⟨d₁, hd, h⟩ := Option.map_eq_some_iff.1 h
    exact Option.map_eq_some_iff.2 ⟨d₁, dirRecalc_add hd n, h⟩

theorem vdfRecalc_add {x : Result Unit} (h : vdfRecalc qsort m d = some x) (n : Nat) :
    vdfRecalc qsort (m + n) d = some x := by
  obtain ⟨y, hy, hx⟩ := Option.map_eq_some_iff.1 h
  exact Option.map_eq_some_iff.2 ⟨y, vdfDriveRecalc_add hy n, hx⟩

theorem vdfDriveLock_add {x : Result Unit} (h : vdfDriveLock qsort m d = some x) (n : Nat) :
    vdfDriveLock qsort (m + n) d = some x := by
  unfold vdfDriveLock at h ⊢
  split
  · rename_i hv
    rwa [if_pos hv] at h
  · rename_i hv
    rw [if_neg hv] at h
    split
    · rename_i hl
      rw [if_pos hl] at h
      obtain ⟨y, hy, hx⟩ := Option.map_eq_some_iff.1 h
      exact Option.map_eq_some_iff.2 ⟨y, vdfRecalc_add hy n, hx⟩
    · rename_i hl
      rwa [if_neg hl] at h

theorem vdfDriveLock_valid (h : vdfDriveLock qsort m d = some (.ok (), d')) : d'.isValid = true := by
  have hvalid : d'.isValid = d.isValid := by
    rw [VdfDrive.isValid, (vdfDriveLock_spec h).1, VdfDrive.isValid]
  rw [hvalid]
  by_contra hv
  rw [vdfDriveLock, if_pos (by simpa using hv)] at h
  cases h

/-- A drive that is up to date is not recalculated. -/
theorem vdfDriveLock_clean (hv : d.isValid = true) (hd : d.dirty = false) (hl : d.lockcnt = 0) :
    vdfDriveLock qsort m d = some (.ok (), d.relock 1 d.serial) := by
  have hlocked : d.isLocked = false := by simp [VdfDrive.isLocked, hl]
  have hrun : vdfDriveRecalc qsort m d = some (0, d) := by simp [vdfDriveRecalc, hv, hlocked, hd]
  have hlock : d.relock 1 d.serial = { d with lockcnt := d.lockcnt + 1 } := by
    rw [VdfDrive.relock, hl]
  rw [vdfDriveLock, vdfRecalc, hrun, hv, if_neg (by simp), if_pos hl, hlock]
  rfl

end Lock

section Drives

variable {h : Host} {s : Hub} {d : VdfDrive} {e : DumpEnv} {n : Nat}

/-- The dump of a drive that is locked as `d` ends, and the file holds the sectors of the drive. -/
def Dumps (h : Host) (s : Hub) (d : VdfDrive) (e : DumpEnv) : Prop :=
  ∃ N, ∀ fuel, N ≤ fuel → ∃ file s', s.vdfDumpDrive h fuel e = some (0, file, s') ∧
    file = dumpFile d (driveReader h.readers d) e.junk d.allSectors ∧ file.length = d.bytes

/-- Where a dump is right: the sectors are an `ssectcnt_t`, and the last read ends with the drive. -/
def DumpFits (d : VdfDrive) : Prop :=
  d.allSectors < 2 ^ 31 ∧ (d.dataStart ≤ d.sectors ∨ d.allSectors % d.spc = 0)

theorem dumpedSectors_eq_iff (hg : d.toGeometry.Created) (hk : d.toGeometry.Known)
    (hall : d.allSectors < 2 ^ 31) : dumpedSectors d = d.allSectors ↔ DumpFits d := by
  have hspc := clusterSectors_le hk.spc
  have hsum := Nat.div_add_mod' d.allSectors d.spc
  have hmod := Nat.mod_lt d.allSectors hspc.1
  have hend (hlt : d.sectors < d.dataStart) (h0 : d.allSectors % d.spc ≠ 0) :
      d.allSectors / d.spc * d.spc + d.spc ≤ d.mbrSectors + d.dataStart :=
    hg.end_le_dataStart hk.filesys hlt h0
  rw [DumpFits, and_iff_right hall, dumpedSectors]
  generalize d.allSectors / d.spc * d.spc = a at hsum hend
  by_cases h0 : d.allSectors % d.spc = 0
  · simp only [h0, ↓reduceIte, or_true, iff_true]
    omega
  · rw [if_neg h0, countedSectors_eq hk (by omega) (by omega) (by omega), frontSectors]
    rw [or_iff_left h0]
    split <;> omega

theorem Geometry.Created.bytes_eq {g : Geometry} (hg : g.Created) :
    g.bytes = u32 (g.sectors + g.mbrSectors) * g.bps := by
  obtain ⟨size, flags, ext, junk, h⟩ := hg
  obtain ⟨plan, -, -, -, e⟩ := createdriveGeometry_cases h
  exact congrArg (·.bytes) e

/-- The reads of a dump count as `vdf_read_sectors` does. -/
theorem DumpReads.counts {env : Readers} {junk : Buffer} (hg : d.toGeometry.Created)
    (hk : d.toGeometry.Known) (hv : d.isValid = true) (hall : d.allSectors < 2 ^ 31)
    (hreads : DumpReads d (driveReader env d) junk) (k : Nat) (hlt : k * d.spc < d.allSectors) :
    ∃ m, driveReader env d (k * d.spc) d.spc (dumpBuff d (driveReader env d) junk k) 0 =
      .ok ((countedSectors d (k * d.spc) d.spc : Nat), m) := by
  have hspc := clusterSectors_le hk.spc
  have hsmall : countedSectors d (k * d.spc) d.spc < 2 ^ 31 := by
    rw [countedSectors_eq hk hlt (by omega) (by omega)]
    split <;> omega
  obtain ⟨r, m, hread, hr⟩ := hreads k hlt
  have hends := vdfReadSectors_passed hg hk hv (s := k * d.spc) (n := d.spc) (by omega) (by omega)
    hspc.1 env (dumpBuff d (driveReader env d) junk k) 0
  refine ⟨m, ?_⟩
  rw [driveReader] at hread ⊢
  cases hx : vdfReadSectors env d (k * d.spc) d.spc (dumpBuff d (driveReader env d) junk k) 0 with
  | error f =>
    rw [hx] at hread
    cases hread
  | ok x =>
    rw [hx] at hread hends
    cases hread
    rcases hends with hends | hends
    · exact absurd hends hr
    · rw [toI32_of_lt hsmall] at hends
      exact congrArg (fun r => Except.ok (r, x.2.1)) hends

/-- The loop of a dump that succeeds. -/
theorem vdfDumpDrive_loop (hl : vdfDriveLock h.qsort n s.drive = some (.ok (), d))
    (hm : e.malloc = true) (ho : e.opens = true) (fuel : Nat) : s.vdfDumpDrive h (n + fuel) e =
      (dumpLoop d (driveReader h.readers d) e (toSize (vdfDriveSectors d)) (n + fuel) 0 e.junk []).map
        fun (r, file) => (r, file, (s.setDrive d).setDrive (vdfDriveUnlock d).2) := by
  rw [vdfDumpDrive, vdfDriveLock_add hl fuel]
  simp [hm, ho]

theorem vdfDriveSectors_eq (hv : d.isValid = true) (hall : d.allSectors < 2 ^ 32) :
    vdfDriveSectors d = toI32 d.allSectors := by
  rw [vdfDriveSectors, hv, if_neg (by simp)]
  exact congrArg toI32 (u32_of_lt hall)

/-- From `2^31` sectors on the bound is a negative `ssectcnt_t`. -/
theorem Dumps.lt (hall : d.allSectors < 2 ^ 32)
    (hl : vdfDriveLock h.qsort n s.drive = some (.ok (), d)) (hm : e.malloc = true)
    (ho : e.opens = true) (hdumps : Dumps h s d e) : d.allSectors < 2 ^ 31 := by
  by_contra hge
  have hcnt : 2 ^ 32 ≤ toSize (vdfDriveSectors d) := by
    rw [vdfDriveSectors_eq (vdfDriveLock_valid hl) hall, toI32, if_neg (by omega), toSize]
    omega
  obtain ⟨N, hN⟩ := hdumps
  obtain ⟨file, s', hrun, -, -⟩ := hN (n + N) (by omega)
  rw [vdfDumpDrive_loop hl hm ho] at hrun
  obtain ⟨⟨r, file'⟩, hloop, he⟩ := Option.map_eq_some_iff.1 hrun
  cases he
  exact dumpLoop_unbounded hcnt _ (by decide) _ _ _ hloop

/-- A drive of fewer than `2^32` sectors that can be locked, where everything succeeds: the dump ends with
the sectors of the drive iff `DumpFits`. -/
theorem vdfDumpDrive_iff (hg : d.toGeometry.Created) (hf : d.filesys ≠ .unset)
    (hall : d.allSectors < 2 ^ 32) (hl : vdfDriveLock h.qsort n s.drive = some (.ok (), d))
    (hm : e.malloc = true) (ho : e.opens = true) (hw : ∀ s, e.writes s = true)
    (hreads : DumpReads d (driveReader h.readers d) e.junk) : Dumps h s d e ↔ DumpFits d := by
  have hk := hg.known hf
  have hv := vdfDriveLock_valid hl
  have hbytes : d.bytes = d.allSectors * d.bps := by
    rw [hg.bytes_eq]
    exact congrArg (· * d.bps) (u32_of_lt hall)
  rcases Nat.lt_or_ge d.allSectors (2 ^ 31) with hlt | hge
  · -- The bound is the number of sectors.
    have hcnt : toSize (vdfDriveSectors d) = d.allSectors := by
      rw [vdfDriveSectors_eq hv hall, toI32_of_lt hlt, toSize_natCast (by omega)]
    obtain ⟨q, hq⟩ : ∃ q, d.allSectors / d.spc = q := ⟨_, rfl⟩
    have hends (fuel : Nat) (hle : q + 2 ≤ n + fuel) : s.vdfDumpDrive h (n + fuel) e =
        some (0, dumpFile d (driveReader h.readers d) e.junk (dumpedSectors d),
          (s.setDrive d).setDrive (vdfDriveUnlock d).2) := by
      rw [vdfDumpDrive_loop hl hm ho, hcnt, dumpLoop_ends hk hlt hw (hreads.counts hg hk hv hlt) (by omega)]
      rfl
    rw [← dumpedSectors_eq_iff hg hk hlt]
    constructor
    · rintro ⟨N, hN⟩
      obtain ⟨file, s', hrun, -, hlen⟩ := hN (n + (N + (q + 2))) (by omega)
      rw [hends _ (by omega)] at hrun
      cases hrun
      rw [length_dumpFile, hbytes] at hlen
      exact Nat.eq_of_mul_eq_mul_right (by have := sectorSizes_le hk.bps; omega) hlen
    · intro hsect
      refine ⟨n + (q + 2), fun fuel hfuel => ?_⟩
      obtain ⟨k, rfl⟩ : ∃ k, fuel = n + k := ⟨fuel - n, by omega⟩
      refine ⟨_, _, hends k (by omega), by rw [hsect], ?_⟩
      rw [length_dumpFile, hsect, hbytes]
  · exact iff_of_false (fun hdumps => absurd (hdumps.lt hall hl hm ho) (by omega))
      fun hfits => absurd hfits.1 (by omega)

end Drives

/-! ## Two drives -/

/-- The reads of a drive whose layout fits, and whose ranges are all there, succeed. -/
theorem LayoutFits.dumpReads {d : VdfDrive} {rs : List FileRange} (hg : d.toGeometry.Created)
    (hf : d.filesys = .fat16 ∨ d.filesys = .fat32) (ht : d.IsTree) (hr : d.InRange)
    (hcan : CanRecalc d) (hlen : rs.length = d.fileCnt) (hcnt : d.allFiles.length ≤ d.fileCnt)
    (hfits : LayoutFits d) (hsize : ∀ f ∈ laidFiles d, (numbered d f).isDir = false →
      (numbered d f).size ≤ (numbered d f).clusters * d.bpc ∧ (numbered d f).clusters * d.bpc ≤ 2 ^ 32)
    (hq : Qsort.Result cmpFilerange (unsortedRanges d) rs) (hd : d.dataStart ≤ d.sectors)
    (hall : d.allSectors < 2 ^ 32) (g : FileId → Nat → UInt8) (junk : Buffer) :
    DumpReads ((recalcDrive d rs).relock 1 d.serial)
      (driveReader (fullReaders g) ((recalcDrive d rs).relock 1 d.serial)) junk := by
  have hset : d.filesys ≠ .unset := by rcases hf with h | h <;> simp [h]
  have hk := hg.known hset
  have hspc := clusterSectors_le hk.spc
  have hL := hfits.dataLayout hk ht hr hcnt (fun f hm h => (hsize f hm h).1) hq
  have hoff := hfits.offsetFits hk ht hr hcnt (fun f hm h => (hsize f hm h).2) hq
  have hfat (sector scnt : Nat) : FatStays (recalcDrive d rs) rs sector scnt := by
    rw [FatStays, if_neg (by
      rcases hf with h | h <;> simp [show (recalcDrive d rs).filesys = _ from h])]
    exact .inr (.inl hlen.symm)
  intro k hlt
  have hlt : k * d.spc < d.allSectors := hlt
  have hcounts : CountsSectors (recalcDrive d rs) (k * d.spc) d.spc :=
    ReadFits.counts (d := recalcDrive d rs) hg hk (Ranged.of_result hr hcnt hq) hcan.valid
      (Nat.lt_trans hlt hall) (by omega) hspc.1 (fun _ => hL.placed)
      { start := Nat.le_of_lt hlt, int := Nat.lt_of_le_of_lt (Nat.min_le_left ..) (by omega)
        data := .inr hd, fats := ⟨fun _ => hfat _ _, fun _ => hfat _ _⟩
        files := fun _ => hL.filesStay (hoff _) _ }
  obtain ⟨r, m', calls, hrun, hread⟩ := hcounts (fullReaders g) (fullReaders_bounded g)
    (dumpBuff _ (driveReader (fullReaders g) ((recalcDrive d rs).relock 1 d.serial)) junk k) 0
  refine ⟨r, m', ?_, ?_⟩
  · rw [driveReader]
    exact congrArg (Except.map fun x : Int × Buffer × List ReadCall => (x.1, x.2.1))
      ((relock_sameImage (recalcDrive d rs) 1 d.serial (.inl rfl) ..).trans hrun)
  · rcases hread.ret with ⟨h, -⟩ | ⟨-, c, -, h⟩
    · omega
    · exact absurd h fullReaders_not_fails

/-- A drive whose recalculation is done, and the host of it. -/
def cleanHub (d : VdfDrive) (rs : List FileRange) : Hub := { drive := recalcDrive d rs }

def readingHost : Host := { sampleHost with readers := fullReaders fun _ _ => 1 }

/-- Everything succeeds. -/
def dumpsWell : DumpEnv := { malloc := true, opens := true, writes := fun _ => true, junk := fun _ => 0 }

/-- Two files on a FAT16 drive of 128 MiB. -/
theorem vdfDumpDrive_mib : ∃ rs, Dumps readingHost (cleanHub drive16 rs)
    ((recalcDrive drive16 rs).relock 1 drive16.serial) dumpsWell := by
  obtain ⟨rs, hq⟩ := Qsort.exists_result cmpFilerange (unsortedRanges drive16)
  have hlen : rs.length = 2 := hq.perm.length_eq.trans (by decide)
  have hreads := drive16_fits.dumpReads geometry16_created (.inl rfl) drive16_isTree drive16_inRange
    drive16_canRecalc hlen (by decide) (by decide) hq (by decide) (by decide) (fun _ _ => 1) fun _ => 0
  have hlock : vdfDriveLock readingHost.qsort 0 (cleanHub drive16 rs).drive =
      some (.ok (), (recalcDrive drive16 rs).relock 1 drive16.serial) :=
    vdfDriveLock_clean drive16_canRecalc.valid rfl rfl
  have hsmall : ((recalcDrive drive16 rs).relock 1 drive16.serial).allSectors < 2 ^ 31 :=
    show geometry16.sectors + 0 < 2 ^ 31 by decide
  have hfits : DumpFits ((recalcDrive drive16 rs).relock 1 drive16.serial) :=
    ⟨hsmall, .inl (show 65 ≤ geometry16.sectors by decide)⟩
  exact ⟨rs, (vdfDumpDrive_iff (e := dumpsWell) geometry16_created
    (show geometry16.filesys ≠ .unset by decide) (Nat.lt_trans hsmall (by decide)) hlock rfl rfl
    (fun _ => rfl) hreads).2 hfits⟩

/-- A file on the largest FAT32 drive. -/
def driveTib : VdfDrive := flatDrive geometryMax none [{ size := 1000, clusters := 1, virt := true }]

theorem geometryMax_created : geometryMax.Created :=
  ⟨4294967295 * 512, 3, ⟨0, 512, 128, 512⟩, ⟨0, 0, 0, 0⟩, by decide⟩

/-- The bound is `2^64 - 1` there. -/
theorem vdfDumpDrive_tib : ¬ ∀ (h : Host) (s : Hub) (d : VdfDrive) (e : DumpEnv) (n : Nat),
    d.toGeometry.Created → d.filesys ≠ .unset → d.allSectors < 2 ^ 32 →
    vdfDriveLock h.qsort n s.drive = some (.ok (), d) → e.malloc = true → e.opens = true →
    (∀ s, e.writes s = true) → DumpReads d (driveReader h.readers d) e.junk → Dumps h s d e := by
  intro hall
  obtain ⟨rs, hq⟩ := Qsort.exists_result cmpFilerange (unsortedRanges driveTib)
  have hlen : rs.length = 2 := hq.perm.length_eq.trans (by decide)
  have ht : driveTib.IsTree := flatDrive_isTree _ _ _
  have hr : driveTib.InRange := flatDrive_inRange (by decide) (by decide) (by decide)
  have hfits : LayoutFits driveTib :=
    { sectors := by decide, clusters := by decide, span := by decide, empties := by decide
      dirs := by decide }
  have hreads := hfits.dumpReads geometryMax_created (.inr rfl) ht hr ⟨rfl, rfl, rfl, by decide⟩ hlen
    (by decide) (by decide) hq (by decide) (by decide) (fun _ _ => 1) fun _ => 0
  have hlock : vdfDriveLock readingHost.qsort 0 (cleanHub driveTib rs).drive =
      some (.ok (), (recalcDrive driveTib rs).relock 1 driveTib.serial) :=
    vdfDriveLock_clean rfl rfl rfl
  have hsmall : ((recalcDrive driveTib rs).relock 1 driveTib.serial).allSectors < 2 ^ 32 :=
    show geometryMax.sectors + 0 < 2 ^ 32 by decide
  have hdumps := hall readingHost (cleanHub driveTib rs)
    ((recalcDrive driveTib rs).relock 1 driveTib.serial) dumpsWell 0 geometryMax_created
    (show geometryMax.filesys ≠ .unset by decide) hsmall hlock rfl rfl (fun _ => rfl) hreads
  exact absurd (hdumps.lt hsmall hlock rfl rfl)
    (show ¬ geometryMax.sectors + 0 < 2 ^ 31 by decide)

end Vdf
