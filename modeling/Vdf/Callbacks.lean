import Vdf.ReadCount
import Vdf.ReadBytes
import Vdf.Sizes

/-!
# What a read asks the files for

`read_sector_data` asks each regular file of a request once, for the bytes of the file that the
request holds (`requestCalls`). A callback is asked with `vfc_write`, though: a read is served
(`ServesCalls`) only if no byte of a virtual file lies in it. A layout that wraps can put bytes of a
file in front of the data area, or leave it without a range; those are not asked for either
(`HasRanges`).

A call of `vdf_read_bytes` asks through `vdf_read_sectors` alone, so a sequence of reads is one of
requests for sectors (`ReadRequest.parts`, `vdfReadBytes_congr`).
-/

namespace Vdf

open Word Buffer

/-! ## Specification -/

/-- Byte `x` of the file `f` lies in the `n` sectors from `s` on. -/
def InRequest (d : VdfDrive) (s n : Nat) (f : FileId) (x : Nat) : Prop :=
  s ≤ d.mbrSectors + (d.file f).startsect + x / d.bps ∧
    d.mbrSectors + (d.file f).startsect + x / d.bps < s + n

/-- The calls of one `vdf_read_sectors`: callbacks read; a call asks for bytes of the file that the
request holds, from a sector boundary on, and for at least one; no byte is asked for twice, and
every one is asked for unless a call fails. -/
structure CallsServe (env : Readers) (d : VdfDrive) (s n : Nat) (calls : List ReadCall) : Prop where
  cmd : ∀ c ∈ calls, ∀ cmd ∈ c.cmd d, cmd = .vfcRead
  pos : ∀ c ∈ calls, 0 < c.len
  inside : ∀ c ∈ calls, c.off + c.len ≤ (d.file c.file).size
  aligned : ∀ c ∈ calls, d.bps ∣ c.off
  disjoint : calls.Pairwise fun a b =>
    a.file = b.file → a.off + a.len ≤ b.off ∨ b.off + b.len ≤ a.off
  requested : ∀ c ∈ calls, ∀ x, c.off ≤ x → x < c.off + c.len → InRequest d s n c.file x
  covers : (∀ c ∈ calls, ¬ env.Fails d c) → ∀ f ∈ d.allFiles, (d.file f).isDir = false →
    ∀ x < (d.file f).size, InRequest d s n f x →
      ∃ c ∈ calls, c.file = f ∧ c.off ≤ x ∧ x < c.off + c.len

/-- Whatever the readers answer, the request returns, and its calls are as they should be. -/
def ServesCalls (d : VdfDrive) (s n : Nat) : Prop :=
  ∀ (env : Readers) (m : Buffer) (p : Nat), ∃ ret m' calls,
    vdfReadSectors env d s n m p = .ok (ret, m', calls) ∧ CallsServe env d s n calls

/-- A read of sectors or of bytes. -/
inductive ReadRequest where
  | sectors (s n : Nat)
  | bytes (off n : Nat)

/-- The calls of `vdf_read_sectors` that a read makes. A sector and a count are `uint32_t`. -/
def ReadRequest.parts (bps : Nat) : ReadRequest → List (Nat × Nat)
  | .sectors s n => [(u32 s, u32 n)]
  | .bytes off n => (byteRequests bps off n).map (Prod.map u32 u32)

/-- So does every part of every read of a sequence. -/
def ServesReads (d : VdfDrive) (reqs : List ReadRequest) : Prop :=
  ∀ q ∈ reqs, ∀ part ∈ q.parts d.bps, ServesCalls d part.1 part.2

/-- No byte of a virtual file lies in the request. -/
def NoVirtual (d : VdfDrive) (s n : Nat) : Prop :=
  ∀ f ∈ d.allFiles, (d.file f).isVirt = true → (d.file f).isDir = false →
    ∀ x < (d.file f).size, ¬ InRequest d s n f x

/-! ## The calls of a request of the data area -/

/-- The call for a range. -/
def rangeCalls (d : VdfDrive) (sector scnt : Nat) (r : FileRange) : List ReadCall :=
  let first := max sector r.sectstart
  let off := (first - r.sectstart) * d.bps
  if (d.file r.file).isDir = false ∧ first < min r.sectend (sector + scnt) ∧
      off < (d.file r.file).size then
    [⟨r.file, off, min ((d.file r.file).size - off) ((sector + scnt - first) * d.bps)⟩]
  else []

/-- The calls for all ranges. -/
def requestCalls (d : VdfDrive) (rs : List FileRange) (sector scnt : Nat) : List ReadCall :=
  rs.flatMap (rangeCalls d sector scnt)

theorem rangeCalls_outside {d : VdfDrive} {sector scnt : Nat} {r : FileRange}
    (h : min r.sectend (sector + scnt) ≤ max sector r.sectstart) :
    rangeCalls d sector scnt r = [] := if_neg fun hc => by omega

theorem mem_rangeCalls {d : VdfDrive} {sector scnt : Nat} {r : FileRange} {c : ReadCall}
    (h : c ∈ rangeCalls d sector scnt r) :
    (d.file r.file).isDir = false ∧ max sector r.sectstart < min r.sectend (sector + scnt) ∧
      (max sector r.sectstart - r.sectstart) * d.bps < (d.file r.file).size ∧
      c = ⟨r.file, (max sector r.sectstart - r.sectstart) * d.bps,
        min ((d.file r.file).size - (max sector r.sectstart - r.sectstart) * d.bps)
          ((sector + scnt - max sector r.sectstart) * d.bps)⟩ := by
  unfold rangeCalls at h
  dsimp only at h
  split at h
  · rename_i hc
    exact ⟨hc.1, hc.2.1, hc.2.2, List.mem_singleton.mp h⟩
  · cases h

section Placed

variable {d : VdfDrive} {rs : List FileRange} (hP : DataPlaced d rs)

include hP

/-- Behind the last file nothing is asked for. -/
theorem requestCalls_free {sector scnt : Nat} (h : d.dataEnd ≤ sector) :
    requestCalls d rs sector scnt = [] := by
  refine List.flatMap_eq_nil_iff.mpr fun r hr => rangeCalls_outside ?_
  have := (hP.chain.mem hr).2.2
  omega

/-- The call for the file of a sector, and those for the files behind it. -/
theorem requestCalls_step {sector scnt k : Nat} {r : FileRange} (hr : r ∈ rs)
    (h1 : r.sectstart ≤ sector) (h2 : sector < r.sectend)
    (hk : k = min (r.sectend - sector) scnt) :
    requestCalls d rs sector scnt =
      rangeCalls d sector scnt r ++ requestCalls d rs (sector + k) (scnt - k) := by
  obtain ⟨-, front, rest, rfl, hfront⟩ := hP.split hr h1 h2
  have hnone (n : Nat) : front.flatMap (rangeCalls d (sector + n) (scnt - n)) = [] :=
    List.flatMap_eq_nil_iff.mpr fun x hx =>
      rangeCalls_outside (by have := hfront x hx; omega)
  have hrest : rest.flatMap (rangeCalls d sector scnt) =
      rest.flatMap (rangeCalls d (sector + k) (scnt - k)) := by
    refine List.flatMap_congr fun x hx => ?_
    have h3 : r.sectend ≤ x.sectstart := (List.pairwise_append.mp hP.chain.pairwise).2.1
      |> List.pairwise_cons.mp |>.1 x hx
    rcases Nat.lt_or_ge (sector + k) (sector + scnt) with hlt | hge
    · have e1 : max sector x.sectstart = max (sector + k) x.sectstart := by omega
      have e2 : sector + scnt = sector + k + (scnt - k) := by omega
      simp only [rangeCalls, e1, e2]
    · rw [rangeCalls_outside (by omega), rangeCalls_outside (by omega)]
  have hown : rangeCalls d (sector + k) (scnt - k) r = [] := rangeCalls_outside (by omega)
  have hfirst := hnone 0
  rw [Nat.add_zero, Nat.sub_zero] at hfirst
  simp only [requestCalls, List.flatMap_append, List.flatMap_cons, hnone, hfirst, hrest, hown,
    List.nil_append]

end Placed

section Loop

variable {d : VdfDrive} {rs : List FileRange} {env : Readers} (hL : DataLayout d rs)
  (hbps : d.bps ∈ sectorSizes) (hdps : d.direntPerSector = d.bps / 32)
  (hfits : ∀ sector, OffsetFits d rs sector)

include hL hbps hdps hfits

/-- One round asks the file of the sector, and goes on unless that fails. -/
theorem dataStep_calls {s : DataState} (hpos : 0 < s.scnt) {r : FileRange} (hr : r ∈ rs)
    (h1 : r.sectstart ≤ s.sector) (h2 : s.sector < r.sectend) :
    (∃ m' buffer, dataStep env d s = .ok (none,
      { sector := s.sector + min (r.sectend - s.sector) s.scnt
        scnt := s.scnt - min (r.sectend - s.sector) s.scnt
        buffer, m := m', calls := s.calls ++ rangeCalls d s.sector s.scnt r })) ∨
    (∃ c ∈ rangeCalls d s.sector s.scnt r, env.Fails d c) ∧ dataStep env d s =
      .ok (some (-1), { s with calls := s.calls ++ rangeCalls d s.sector s.scnt r }) := by
  have hP := hL.placed
  have hfirst : max s.sector r.sectstart = s.sector := by omega
  by_cases hd : (d.file r.file).isDir = true
  · have hnone : rangeCalls d s.sector s.scnt r = [] := if_neg (by simp [hd])
    rw [hP.dataStep_dir hr h1 h2 env hbps hdps hpos hd, hnone, List.append_nil]
    exact .inl ⟨_, _, rfl⟩
  · have hd : (d.file r.file).isDir = false := by simpa using hd
    have hfit := hfits s.sector r hr hd h1 h2
    rw [hP.dataStep_file hr h1 h2 env hd]
    obtain ⟨q, hq⟩ : ∃ q, q = (s.sector - r.sectstart) * d.bps := ⟨_, rfl⟩
    rw [← hq] at hfit ⊢
    dsimp only
    by_cases hz : (d.file r.file).size ≤ u32 q
    · have hnone : rangeCalls d s.sector s.scnt r = [] := by
        refine if_neg fun hc => ?_
        have h3 := hc.2.2
        have h4 := u32_le q
        rw [hfirst, ← hq] at h3
        omega
      rw [if_pos hz, hnone, List.append_nil]
      exact .inl ⟨_, _, rfl⟩
    · have hlt : q < 2 ^ 32 := by omega
      rw [u32_of_lt hlt] at hz ⊢
      have hone : rangeCalls d s.sector s.scnt r =
          [⟨r.file, q, min ((d.file r.file).size - q) (s.scnt * d.bps)⟩] := by
        have hsum : s.sector + s.scnt - s.sector = s.scnt := Nat.add_sub_cancel_left ..
        unfold rangeCalls
        dsimp only
        rw [hfirst, ← hq, hsum, if_pos ⟨hd, by omega, by omega⟩]
      rw [if_neg hz, hone]
      cases hread : env.read d r.file q (min ((d.file r.file).size - q) (s.scnt * d.bps)) with
      | none => exact .inr ⟨⟨_, List.mem_singleton_self _, hread⟩, rfl⟩
      | some l => exact .inl ⟨_, _, rfl⟩

/-- The loop asks the files of the request in their order, up to a call that fails. -/
theorem dataLoop_calls (fuel : Nat) (s : DataState) (hstart : d.dataStart ≤ s.sector)
    (hfuel : s.scnt ≤ fuel) : ∃ ret t calls, dataLoop env d fuel s = .ok (ret, t) ∧
      t.calls = s.calls ++ calls ∧ calls <+: requestCalls d rs s.sector s.scnt ∧
      ((∀ c ∈ calls, ¬ env.Fails d c) → calls = requestCalls d rs s.sector s.scnt) := by
  have hnothing : s.scnt = 0 → requestCalls d rs s.sector s.scnt = [] := fun h =>
    List.flatMap_eq_nil_iff.mpr fun r _ => rangeCalls_outside (by omega)
  induction fuel generalizing s with
  | zero =>
    have h0 : s.scnt = 0 := by omega
    refine ⟨0, s, [], ?_, (List.append_nil _).symm, List.nil_prefix, fun _ => (hnothing h0).symm⟩
    rw [dataLoop, if_pos h0]
  | succ fuel ih =>
    by_cases h0 : s.scnt = 0
    · refine ⟨0, s, [], ?_, (List.append_nil _).symm, List.nil_prefix, fun _ => (hnothing h0).symm⟩
      rw [dataLoop, if_pos h0]
    rw [dataLoop, if_neg h0]
    by_cases hend : d.dataEnd ≤ s.sector
    · refine ⟨0, { s with m := s.m.fill s.buffer (s.scnt * d.bps) 0 }, [], ?_,
        (List.append_nil _).symm, List.nil_prefix,
        fun _ => (requestCalls_free hL.placed hend).symm⟩
      rw [dataStep, findFileSector, if_pos hend]
      rfl
    · obtain ⟨r, hr, h1, h2⟩ := hL.chain.exists_mem hstart (Nat.lt_of_not_le hend)
      obtain ⟨k, hk⟩ : ∃ k, k = min (r.sectend - s.sector) s.scnt := ⟨_, rfl⟩
      rw [requestCalls_step hL.placed hr h1 h2 hk]
      rcases @dataStep_calls d rs env hL hbps hdps hfits s (Nat.pos_of_ne_zero h0) r hr h1 h2 with
        ⟨m', buffer, hstep⟩ | ⟨⟨c, hc, hfail⟩, hstep⟩
      · rw [← hk] at hstep
        obtain ⟨ret, t, calls, hrun, hc, hpre, hall⟩ := ih
          { sector := s.sector + k, scnt := s.scnt - k, buffer, m := m'
            calls := s.calls ++ rangeCalls d s.sector s.scnt r }
          (by dsimp only; omega) (by dsimp only; omega)
          fun h => List.flatMap_eq_nil_iff.mpr fun r _ => rangeCalls_outside (by omega)
        refine ⟨ret, t, rangeCalls d s.sector s.scnt r ++ calls, ?_, by rw [hc, List.append_assoc],
          List.prefix_append_right_inj _ |>.mpr hpre, fun hno => ?_⟩
        · rw [hstep]
          exact hrun
        · rw [hall fun c hm => hno c (List.mem_append_right _ hm)]
      · refine ⟨-1, { s with calls := s.calls ++ rangeCalls d s.sector s.scnt r },
          rangeCalls d s.sector s.scnt r, ?_, rfl, List.prefix_append _ _,
          fun hno => absurd hfail (hno c hc)⟩
        rw [hstep]
        rfl

end Loop

/-! ## The bytes of the calls -/

section Bytes

variable {d : VdfDrive} {rs : List FileRange} (hL : DataLayout d rs) (hbps : 0 < d.bps)

include hL hbps

omit hbps in
/-- The sector of a byte of a file. -/
theorem DataLayout.byte_sector {r : FileRange} (hr : r ∈ rs) (hd : (d.file r.file).isDir = false)
    {x : Nat} (hx : x < (d.file r.file).size) :
    d.dataStart ≤ r.sectstart + x / d.bps ∧ r.sectstart + x / d.bps < r.sectend := by
  have hb := hL.chain.mem hr
  have hlt : x / d.bps < r.sectend - r.sectstart :=
    Nat.div_lt_of_lt_mul (Nat.mul_comm .. ▸ Nat.lt_of_lt_of_le hx (hL.size r hr hd))
  generalize x / d.bps = o at *
  omega

omit hbps in
/-- A byte of a file lies in a request iff it lies in what is asked for in the data area. -/
theorem DataLayout.inRequest_iff (hsec : d.sectors < 2 ^ 32) {s n : Nat}
    (hlt : frontSectors d s < n) {r : FileRange} (hr : r ∈ rs) (hb : r.sectend ≤ d.sectors)
    (hd : (d.file r.file).isDir = false) {x : Nat} (hx : x < (d.file r.file).size) :
    InRequest d s n r.file x ↔ dataSector d s ≤ r.sectstart + x / d.bps ∧
      r.sectstart + x / d.bps < dataSector d s + dataWant d s n := by
  obtain ⟨h1, h2⟩ := hL.byte_sector hr hd hx
  rw [InRequest, hL.start r hr, Nat.add_assoc]
  generalize r.sectstart + x / d.bps = y at *
  rcases Nat.lt_or_ge d.sectors (dataSector d s) with hbehind | hin
  · unfold dataSector at *
    omega
  · have hwant := (dataWant_eq hsec hin hlt).1
    unfold VdfDrive.allSectors at hwant
    unfold frontSectors at hlt
    unfold dataSector at *
    omega

/-- The bytes that the file of a range is asked for. -/
theorem mem_rangeCalls_iff {sector scnt : Nat} {r : FileRange} (hr : r ∈ rs)
    (hd : (d.file r.file).isDir = false) (x : Nat) :
    (∃ c ∈ rangeCalls d sector scnt r, c.off ≤ x ∧ x < c.off + c.len) ↔
      x < (d.file r.file).size ∧ sector ≤ r.sectstart + x / d.bps ∧
        r.sectstart + x / d.bps < sector + scnt := by
  obtain ⟨first, hfirst⟩ : ∃ first, first = max sector r.sectstart := ⟨_, rfl⟩
  have hstart : r.sectstart ≤ first := by omega
  obtain ⟨o, ho⟩ : ∃ o, o = first - r.sectstart := ⟨_, rfl⟩
  -- Where the sectors of the request start and end in the file.
  have hlow : o * d.bps ≤ x ↔ o ≤ x / d.bps := (Nat.le_div_iff_mul_le hbps).symm
  have hhigh (k : Nat) : x < k * d.bps ↔ x / d.bps < k := (Nat.div_lt_iff_lt_mul hbps).symm
  have hsum : o * d.bps + (sector + scnt - first) * d.bps = (o + (sector + scnt - first)) * d.bps :=
    (Nat.add_mul ..).symm
  constructor
  · rintro ⟨c, hc, h1, h2⟩
    obtain ⟨-, h3, h4, rfl⟩ := mem_rangeCalls hc
    dsimp only at h1 h2
    rw [← hfirst] at h1 h2 h3 h4
    rw [← ho] at h1 h2 h4
    have h5 : x < (o + (sector + scnt - first)) * d.bps := by omega
    rw [hlow] at h1
    rw [hhigh] at h5
    exact ⟨by omega, by omega, by omega⟩
  · rintro ⟨hx, h1, h2⟩
    obtain ⟨-, h3⟩ := hL.byte_sector hr hd hx
    generalize x / d.bps = y at *
    have h4 : o * d.bps ≤ x := hlow.mpr (by omega)
    have h5 : x < (o + (sector + scnt - first)) * d.bps := (hhigh _).mpr (by omega)
    refine ⟨⟨r.file, o * d.bps, min ((d.file r.file).size - o * d.bps)
      ((sector + scnt - first) * d.bps)⟩, ?_, h4, by dsimp only; omega⟩
    unfold rangeCalls
    dsimp only
    rw [← hfirst, ← ho, if_pos ⟨hd, by omega, by omega⟩]
    exact List.mem_singleton_self _

end Bytes

/-- Each file has at most one range, and regular ones end in the drive. -/
structure OneRange (d : VdfDrive) (rs : List FileRange) : Prop where
  nodup : (rs.map FileRange.file).Nodup
  mem : ∀ r ∈ rs, r.file ∈ d.allFiles
  end_le : ∀ r ∈ rs, (d.file r.file).isDir = false → r.sectend ≤ d.sectors

/-- The request goes on to the data area if a byte of a file lies in it, and the file has a range.
-/
def HasRanges (d : VdfDrive) (rs : List FileRange) (s n : Nat) : Prop :=
  ∀ f ∈ d.allFiles, (d.file f).isDir = false → ∀ x < (d.file f).size, InRequest d s n f x →
    d.mbrSectors + d.dataStart < s + n ∧ ∃ r ∈ rs, r.file = f

section Serve

variable {d : VdfDrive} {rs : List FileRange} (hL : DataLayout d rs) (hO : OneRange d rs)
  (hbps : 0 < d.bps) (hsec : d.sectors < 2 ^ 32) {s n : Nat} (hhas : HasRanges d rs s n)
  (hv : NoVirtual d s n)

include hL hO hbps hsec hhas hv

/-- The calls of a request without virtual files, up to one that fails. -/
theorem requestCalls_serve (env : Readers) (hlt : frontSectors d s < n) {calls : List ReadCall}
    (hpre : calls <+: requestCalls d rs (dataSector d s) (dataWant d s n))
    (hall : (∀ c ∈ calls, ¬ env.Fails d c) →
      calls = requestCalls d rs (dataSector d s) (dataWant d s n)) :
    CallsServe env d s n calls := by
  have hmem : ∀ c ∈ calls, ∃ r ∈ rs, c ∈ rangeCalls d (dataSector d s) (dataWant d s n) r :=
    fun c hc => List.mem_flatMap.mp (hpre.subset hc)
  have hpos : ∀ c ∈ calls, 0 < c.len := by
    intro c hc
    obtain ⟨r, -, hcr⟩ := hmem c hc
    obtain ⟨-, h1, h2, rfl⟩ := mem_rangeCalls hcr
    have := Nat.mul_pos (by omega : 0 < dataSector d s + dataWant d s n -
      max (dataSector d s) r.sectstart) hbps
    dsimp only
    omega
  -- Every byte that is asked for is one of the file in the request.
  have hreq : ∀ c ∈ calls, c.file ∈ d.allFiles ∧ (d.file c.file).isDir = false ∧
      ∀ x, c.off ≤ x → x < c.off + c.len →
        x < (d.file c.file).size ∧ InRequest d s n c.file x := by
    intro c hc
    obtain ⟨r, hr, hcr⟩ := hmem c hc
    obtain ⟨hd, -, -, hfile⟩ := mem_rangeCalls hcr
    have hfile : c.file = r.file := congrArg ReadCall.file hfile
    rw [hfile]
    refine ⟨hO.mem r hr, hd, fun x h1 h2 => ?_⟩
    obtain ⟨hx, hy⟩ := (mem_rangeCalls_iff hL hbps hr hd x).mp ⟨c, hcr, h1, h2⟩
    exact ⟨hx, (hL.inRequest_iff hsec hlt hr (hO.end_le r hr hd) hd hx).mpr hy⟩
  constructor
  case cmd =>
    intro c hc cmd hcmd
    obtain ⟨hf, hd, hbytes⟩ := hreq c hc
    have hvirt : (d.file c.file).isVirt = true := by
      rw [ReadCall.cmd] at hcmd
      by_contra h
      simp [h] at hcmd
    obtain ⟨hx, hin⟩ := hbytes c.off (Nat.le_refl _) (by have := hpos c hc; omega)
    exact absurd hin (hv c.file hf hvirt hd c.off hx)
  case pos => exact hpos
  case inside =>
    intro c hc
    have := ((hreq c hc).2.2 (c.off + c.len - 1) (by have := hpos c hc; omega)
      (by have := hpos c hc; omega)).1
    omega
  case aligned =>
    intro c hc
    obtain ⟨r, -, hcr⟩ := hmem c hc
    obtain ⟨-, -, -, rfl⟩ := mem_rangeCalls hcr
    exact Nat.dvd_mul_left ..
  case disjoint =>
    refine (List.Pairwise.imp ?_ (List.Pairwise.sublist hpre.sublist
      (R := fun a b => a.file ≠ b.file) ?_))
    · exact fun hne he => absurd he hne
    · refine List.pairwise_flatMap.mpr ⟨fun r _ => ?_, ?_⟩
      · unfold rangeCalls
        dsimp only
        split
        · exact List.pairwise_singleton _ _
        · exact List.Pairwise.nil
      · refine (List.pairwise_map.mp hO.nodup).imp fun hne a ha b hb => ?_
        rw [(mem_rangeCalls ha).2.2.2, (mem_rangeCalls hb).2.2.2]
        exact hne
  case requested => exact fun c hc x h1 h2 => ((hreq c hc).2.2 x h1 h2).2
  case covers =>
    intro hno f hf hd x hx hin
    obtain ⟨-, r, hr, rfl⟩ := hhas f hf hd x hx hin
    obtain ⟨c, hc, h1, h2⟩ := (mem_rangeCalls_iff hL hbps hr hd x).mpr
      ⟨hx, (hL.inRequest_iff hsec hlt hr (hO.end_le r hr hd) hd hx).mp hin⟩
    rw [hall hno]
    exact ⟨c, List.mem_flatMap.mpr ⟨r, hr, hc⟩,
      congrArg ReadCall.file (mem_rangeCalls hc).2.2.2, h1, h2⟩

end Serve

/-! ## Reads of bytes -/

section Bytes

variable {read read' : SectorReader} {bps off : Nat}

/-- The head asks for the sector of its byte, and leaves the rest of the range. -/
theorem readHead_congr {k : Nat} (hbps : bps = 2 ^ k) (s : BytesState)
    (hs : s.soff = u32 (off / bps))
    (h : off % bps ≠ 0 → ∀ m p, read s.soff 1 m p = read' s.soff 1 m p) :
    readHead read bps off s = readHead read' bps off s ∧
      ∀ s', readHead read bps off s = .ok (none, s') → s'.cnt = s.cnt - headBytes bps off s.cnt ∧
        (s'.cnt ≠ 0 → s'.soff = u32 ((off + headBytes bps off s.cnt) / bps)) := by
  have hpos : 0 < bps := by rw [hbps]; exact Nat.two_pow_pos k
  have hmask : off &&& (bps - 1) = off % bps := by rw [hbps, Nat.and_two_pow_sub_one_eq_mod]
  simp only [readHead, hmask]
  by_cases hdoff : off % bps = 0
  · simp only [if_pos hdoff, headBytes]
    refine ⟨trivial, fun s' h' => ?_⟩
    cases h'
    exact ⟨rfl, fun _ => by rw [hs, Nat.add_zero]⟩
  · simp only [if_neg hdoff, headBytes, h hdoff]
    refine ⟨trivial, fun s' h' => ?_⟩
    cases hread : read' s.soff 1 s.sbuff 0 with
    | error f =>
      rw [hread] at h'
      cases h'
    | ok r =>
      rw [hread] at h'
      simp only [bind, Except.bind, pure, Except.pure] at h'
      split at h'
      · cases h'
      · cases h'
        refine ⟨rfl, fun hne => ?_⟩
        dsimp only at hne ⊢
        -- The head ends at a sector boundary, since the range goes on.
        have hlt := Nat.mod_lt off hpos
        have hdiv := Nat.div_add_mod off bps
        have hsum : off + min (bps - off % bps) s.cnt = bps * (off / bps + 1) := by
          rw [Nat.mul_succ]
          omega
        rw [hsum, Nat.mul_div_cancel_left _ hpos, hs]
        simp only [u32]
        omega

/-- The whole sectors are one request, and leave less than a sector. -/
theorem readWhole_congr (s : BytesState) (hsoff : s.cnt ≠ 0 → s.soff = u32 s.soff)
    (h : s.cnt / bps ≠ 0 → ∀ m p,
      read s.soff (u32 (s.cnt / bps)) m p = read' s.soff (u32 (s.cnt / bps)) m p) :
    readWhole read bps s = readWhole read' bps s ∧
      ∀ s', readWhole read bps s = .ok (none, s') → s'.cnt = s.cnt % bps ∧
        (s'.cnt ≠ 0 → s'.soff = u32 (s.soff + s.cnt / bps)) := by
  have hdiv := Nat.div_add_mod s.cnt bps
  rw [Nat.mul_comm] at hdiv
  simp only [readWhole]
  by_cases hzero : s.cnt / bps = 0
  · simp only [if_pos hzero]
    refine ⟨trivial, fun s' h' => ?_⟩
    cases h'
    rw [hzero] at hdiv ⊢
    exact ⟨by omega, fun hne => by rw [Nat.add_zero, ← hsoff hne]⟩
  · simp only [if_neg hzero, h hzero]
    refine ⟨trivial, fun s' h' => ?_⟩
    cases hread : read' s.soff (u32 (s.cnt / bps)) s.m s.buff with
    | error f =>
      rw [hread] at h'
      cases h'
    | ok r =>
      rw [hread] at h'
      simp only [bind, Except.bind, pure, Except.pure] at h'
      split at h'
      · cases h'
      · split at h'
        · cases h'
        · cases h'
          exact ⟨by dsimp only; omega, fun _ => rfl⟩

theorem readTail_congr (s : BytesState)
    (h : s.cnt ≠ 0 → ∀ m p, read s.soff 1 m p = read' s.soff 1 m p) :
    readTail read s = readTail read' s := by
  simp only [readTail]
  split
  · rfl
  · rename_i hne
    rw [h hne]

/-- A read of bytes depends on its parts alone: it makes no other request. -/
theorem vdfReadBytes_congr {d : VdfDrive} {k n : Nat} (hbps : d.bps = 2 ^ k)
    (h : ∀ part ∈ (ReadRequest.bytes off n).parts d.bps, ∀ m p,
      read part.1 part.2 m p = read' part.1 part.2 m p) (sbuff m : Buffer) (p : Nat) :
    vdfReadBytes read d sbuff off n m p = vdfReadBytes read' d sbuff off n m p := by
  have hpart : ∀ q ∈ byteRequests d.bps off n, ∀ m p,
      read (u32 q.1) (u32 q.2) m p = read' (u32 q.1) (u32 q.2) m p :=
    fun q hq => h _ (List.mem_map_of_mem hq)
  have hone : u32 1 = 1 := rfl
  simp only [vdfReadBytes]
  split
  · rfl
  split
  · rfl
  obtain ⟨hhead, hnext⟩ := @readHead_congr read read' d.bps off k hbps
    ⟨u32 (off / d.bps), p, 0, n, m, sbuff⟩ rfl fun hdoff => by
      have := hpart (off / d.bps, 1) (by simp [byteRequests, hdoff])
      rwa [hone] at this
  rw [← hhead]
  cases hrun : readHead read d.bps off ⟨u32 (off / d.bps), p, 0, n, m, sbuff⟩ with
  | error f => rfl
  | ok r =>
    obtain ⟨_ | r, s⟩ := r
    · obtain ⟨hcnt, hsoff⟩ := hnext s hrun
      dsimp only at hcnt hsoff
      obtain ⟨hwhole, hnext⟩ := @readWhole_congr read read' d.bps s
        (fun hne => by rw [hsoff hne, u32_of_lt (u32_lt _)]) fun hzero => by
          have hne : s.cnt ≠ 0 := fun e => hzero (by rw [e, Nat.zero_div])
          rw [hsoff hne]
          rw [hcnt] at hzero ⊢
          exact hpart (_, _) (by simp [byteRequests, hzero])
      simp only [bind, Except.bind]
      rw [← hwhole]
      cases hrun' : readWhole read d.bps s with
      | error f => rfl
      | ok r =>
        obtain ⟨_ | r, s'⟩ := r
        · obtain ⟨hcnt', hsoff'⟩ := hnext s' hrun'
          refine readTail_congr s' fun hne => ?_
          have hne' : s.cnt ≠ 0 := fun e => hne (by rw [hcnt', e, Nat.zero_mod])
          rw [hsoff' hne, hsoff hne', u32_u32_add]
          rw [hcnt'] at hne
          rw [hcnt] at hne ⊢
          have := hpart
            ((off + headBytes d.bps off n) / d.bps + (n - headBytes d.bps off n) / d.bps, 1)
            (by simp [byteRequests, hne])
          rwa [hone] at this
        · rfl
    · rfl

end Bytes

/-! ## The result -/

/-- The clusters of a file hold it, and have `4 GiB` at most. -/
theorem clustersOf_mul {k size : Nat} (hk : k ≤ 32) (h : size < 2 ^ 32) :
    size ≤ clustersOf (2 ^ k) size * 2 ^ k ∧ clustersOf (2 ^ k) size * 2 ^ k ≤ 2 ^ 32 := by
  have hpos := Nat.two_pow_pos k
  have hall : 2 ^ 32 = 2 ^ (32 - k) * 2 ^ k := by rw [← Nat.pow_add, Nat.sub_add_cancel hk]
  refine ⟨le_ceilDiv_mul hpos, ?_⟩
  rw [hall]
  refine Nat.mul_le_mul_right _ (Nat.le_of_lt_succ ((Nat.div_lt_iff_lt_mul hpos).mpr ?_))
  rw [Nat.succ_mul, ← hall]
  omega

/-- A request that returns with readers that never fail asks for every byte. -/
theorem ServesCalls.only {d : VdfDrive} {rs : List FileRange} (hg : d.toGeometry.Created)
    (hk : d.toGeometry.Known) (hr : Ranged d rs) (hv : d.isValid = true) {s n : Nat}
    (hs : s < 2 ^ 32) (hn : n < 2 ^ 32) (h : ServesCalls d s n) :
    FatsStay d rs s n ∧ NoVirtual d s n := by
  obtain ⟨ret, m', calls, hrun, hserve⟩ := h (fullReaders fun _ _ => 0) (fun _ => 0) 0
  constructor
  · by_contra hbad
    rcases Nat.eq_zero_or_pos n with rfl | hpos
    · exact hbad ⟨fun hlt => by omega, fun hlt => by omega⟩
    · obtain ⟨f, hf⟩ := vdfReadSectors_error hg hk hr hv hs hn hpos hbad
        (fullReaders fun _ _ => 0) (fun _ => 0) 0
      cases hrun.symm.trans hf
  · intro f hf hvirt hd x hx hin
    obtain ⟨c, hc, rfl, -⟩ := hserve.covers (fun c _ => fullReaders_not_fails) f hf hd x hx hin
    have hcmd := hserve.cmd c hc .vfcWrite (by rw [ReadCall.cmd, if_pos hvirt]; rfl)
    cases hcmd

/-- No byte lies in the request. -/
theorem CallsServe.nil {env : Readers} {d : VdfDrive} {s n : Nat}
    (h : ∀ f ∈ d.allFiles, (d.file f).isDir = false → ∀ x < (d.file f).size,
      ¬ InRequest d s n f x) : CallsServe env d s n [] where
  cmd := nofun
  pos := nofun
  inside := nofun
  aligned := nofun
  disjoint := List.Pairwise.nil
  requested := nofun
  covers := fun _ f hf hd x hx hin => absurd hin (h f hf hd x hx)

section Quiet

variable {d : VdfDrive} {rs : List FileRange} (hg : d.toGeometry.Created)
  (hk : d.toGeometry.Known) (hr : Ranged d rs) (hv : d.isValid = true) {s n : Nat}
  (hs : s < 2 ^ 32) (hn : n < 2 ^ 32)

include hg hk hr hv hs hn

/-- A request that ends in front of the data area asks for nothing. -/
theorem ServesCalls.front_iff (hfats : FatsStay d rs s n)
    (hend : s + n ≤ d.mbrSectors + d.dataStart) : ServesCalls d s n ↔ HasRanges d rs s n := by
  have hrun : ∀ env m p, ∃ ret m', vdfReadSectors env d s n m p = .ok (ret, m', []) := by
    intro env m p
    rcases Nat.eq_zero_or_pos n with rfl | hpos
    · exact ⟨0, m, by rw [vdfReadSectors, hv, if_neg (by simp), if_pos rfl]⟩
    · obtain ⟨m', -, hrun⟩ := vdfReadSectors_front hg hk hr hv hs hn hpos hfats
        (by unfold frontSectors; omega) env m p
      exact ⟨_, m', hrun⟩
  constructor
  · intro h f hf hd x hx hin
    obtain ⟨ret, m', calls, hcalls, hserve⟩ := h (fullReaders fun _ _ => 0) (fun _ => 0) 0
    obtain ⟨ret', m'', hnone⟩ := hrun (fullReaders fun _ _ => 0) (fun _ => 0) 0
    cases hcalls.symm.trans hnone
    obtain ⟨c, hc, -⟩ := hserve.covers (fun c _ => fullReaders_not_fails) f hf hd x hx hin
    cases hc
  · intro h env m p
    obtain ⟨ret, m', hnone⟩ := hrun env m p
    refine ⟨ret, m', [], hnone, .nil fun f hf hd x hx hin => ?_⟩
    have := (h f hf hd x hx hin).1
    omega

variable (hL : DataLayout d rs) (hfits : ∀ sector, OffsetFits d rs sector)

include hL hfits

/-- The run of a request that goes on there, up to a call that fails. -/
theorem vdfReadSectors_calls (hfats : FatsStay d rs s n) (hlt : frontSectors d s < n)
    (env : Readers) (m : Buffer) (p : Nat) : ∃ ret m' calls,
      vdfReadSectors env d s n m p = .ok (ret, m', calls) ∧
      calls <+: requestCalls d rs (dataSector d s) (dataWant d s n) ∧
      ((∀ c ∈ calls, ¬ env.Fails d c) →
        calls = requestCalls d rs (dataSector d s) (dataWant d s n)) := by
  obtain ⟨m₁, -, hrun⟩ := vdfReadSectors_data hg hk hr hv hs hn (by omega) hfats hlt env m p
  obtain ⟨ret, t, calls, hloop, hc, hpre, hall⟩ := @dataLoop_calls d rs env hL hk.bps hk.dirent
    hfits (dataWant d s n)
    { sector := dataSector d s, scnt := dataWant d s n, buffer := p + frontSectors d s * d.bps
      m := m₁, calls := [] } (by unfold dataSector; dsimp only; omega) (Nat.le_refl _)
  rw [List.nil_append] at hc
  rw [readSectorData, hloop] at hrun
  by_cases hret : ret = -1
  · exact ⟨-1, t.m, calls, by rw [hrun, ← hc, hret]; rfl, hpre, hall⟩
  · refine ⟨toI32 (u32 (frontSectors d s + dataWant d s n)), t.m, calls, ?_, hpre, hall⟩
    rw [hrun, ← hc]
    dsimp only [Except.map, Except.bind]
    rw [if_neg hret]

/-- A request without virtual files that goes on there is served iff its files have ranges. -/
theorem ServesCalls.data_iff (hO : OneRange d rs) (hfats : FatsStay d rs s n)
    (hnone : NoVirtual d s n) (hend : d.mbrSectors + d.dataStart < s + n) :
    ServesCalls d s n ↔ HasRanges d rs s n := by
  have hb := (sectorSizes_le hk.bps).1
  rcases Nat.eq_zero_or_pos n with rfl | hpos
  · refine ⟨fun _ f _ _ x _ hin => absurd hin.1 (Nat.not_le.mpr hin.2), fun _ env m p => ?_⟩
    refine ⟨0, m, [], ?_, .nil fun f _ _ x _ hin => absurd hin.1 (Nat.not_le.mpr hin.2)⟩
    rw [vdfReadSectors, hv, if_neg (by simp), if_pos rfl]
  have hlt : frontSectors d s < n := by unfold frontSectors; omega
  have hcalls := vdfReadSectors_calls hg hk hr hv hs hn hL hfits hfats hlt
  constructor
  · intro h f hf hd x hx hin
    obtain ⟨ret, m', calls, hrun, hserve⟩ := h (fullReaders fun _ _ => 0) (fun _ => 0) 0
    obtain ⟨ret', m'', calls', hrun', hpre, -⟩ := hcalls (fullReaders fun _ _ => 0) (fun _ => 0) 0
    cases hrun.symm.trans hrun'
    obtain ⟨c, hc, rfl, -⟩ := hserve.covers (fun c _ => fullReaders_not_fails) f hf hd x hx hin
    obtain ⟨r, hm, hcr⟩ := List.mem_flatMap.mp (hpre.subset hc)
    exact ⟨hend, r, hm, (congrArg ReadCall.file (mem_rangeCalls hcr).2.2.2).symm⟩
  · intro hhas env m p
    obtain ⟨ret, m', calls, hrun, hpre, hall⟩ := hcalls env m p
    exact ⟨ret, m', calls, hrun,
      requestCalls_serve hL hO (by omega) hk.sectors hhas hnone env hlt hpre hall⟩

end Quiet

section Placed

variable {d : VdfDrive} {rs : List FileRange} (hk : d.toGeometry.Known) (ht : d.IsTree)
  (hr : d.InRange) (hcan : CanRecalc d)
  (hq : Qsort.Result cmpFilerange (unsortedRanges d) rs)
  (hceil : ∀ f ∈ d.allFiles, (d.file f).isDir = false →
    (d.file f).clusters = clustersOf d.bpc (d.file f).size)
  (hP : DataPlaced (recalcDrive d rs) rs)

include hk hr hcan hq hceil hP

/-- The range of a regular file, where the ranges follow each other, has the clusters of its size.
-/
theorem DataPlaced.regular {r : FileRange} (hm : r ∈ rs)
    (hd : ((recalcDrive d rs).file r.file).isDir = false) :
    ((recalcDrive d rs).file r.file).size ≤ (r.sectend - r.sectstart) * d.bps ∧
      (r.sectend - r.sectstart) * d.bps ≤ 2 ^ 32 ∧ r.sectend ≤ d.sectors := by
  have hle := (hP.chain.mem hm).2.1
  have hmem := hq.perm.mem_iff.mp hm
  rw [unsortedRanges_eq] at hmem
  obtain ⟨f, hf, rfl⟩ := List.mem_map.mp hmem
  have hstored := List.mem_of_mem_take hf
  have hall : f ∈ d.allFiles := List.mem_of_mem_filter hstored
  have hfile : (recalcDrive d rs).file f =
      (numbered d f).laidOut d.toGeometry (usedBefore (numbered d) d.allFiles f) :=
    recalcFile_mem hall
  obtain ⟨h1, -, h3⟩ := laidOut_static d.toGeometry (usedBefore (numbered d) d.allFiles f)
    (numbered d f)
  change ((recalcDrive d rs).file f).isDir = false at hd
  rw [hfile, h3, (numbered_static d f).1] at hd
  have hsize : (numbered d f).size ≠ 0 := by
    have := (List.mem_filter.mp hstored).2
    simpa [hd] using this
  -- The sectors are those of the clusters, in 32 bits.
  rw [fileRange_laid hall hsize] at hle ⊢
  obtain ⟨j, -, hj, hbpc⟩ := hk.bpc_pow
  have hsized : (numbered d f).size = (d.file f).size ∧
      (numbered d f).clusters = clustersOf d.bpc (d.file f).size := by
    obtain ⟨e1, e2⟩ := numbered_sized d f
    have e : sized d f = d.file f := if_neg (by simp [hd])
    rw [e1, e2, e, hceil f hall hd]
    exact ⟨rfl, rfl⟩
  obtain ⟨hc1, hc2⟩ := clustersOf_mul (k := j) (by omega) (hr.size f)
  rw [← hbpc, ← hsized.2, hk.bpc, Nat.mul_comm d.bps, ← Nat.mul_assoc] at hc1 hc2
  have hb := (sectorSizes_le hk.bps).1
  have hlen : (numbered d f).clusters * d.spc < 2 ^ 32 := by
    have h4 : (numbered d f).clusters * d.spc * 512 ≤ (numbered d f).clusters * d.spc * d.bps :=
      Nat.mul_le_mul_left _ hb
    omega
  have hend : (rangeOf d f).sectend =
      (rangeOf d f).sectstart + (numbered d f).clusters * d.spc := by
    simp only [rangeOf, sectorOf, Nat.add_mul, ← Nat.add_assoc] at hle ⊢
    exact u32_add_of_le hlen hle
  have hin := (hcan.fits f hall hsize).2
  refine ⟨?_, ?_, Nat.le_of_lt hin⟩
  · change ((recalcDrive d rs).file f).size ≤ _
    rw [hfile, h1, hsized.1, hend, Nat.add_sub_cancel_left]
    exact hc1
  · rw [hend, Nat.add_sub_cancel_left]
    exact hc2

include ht

theorem DataPlaced.oneRange : OneRange (recalcDrive d rs) rs := by
  have hfiles : (rs.map FileRange.file).Perm ((storedFiles d).take (laidFiles d).length) := by
    have := hq.perm.map FileRange.file
    rwa [unsortedRanges_eq, List.map_map,
      show FileRange.file ∘ fileRange { d with file := recalcFile d } = id from rfl,
      List.map_id] at this
  refine ⟨hfiles.nodup_iff.mpr (ht.nodup_allFiles.sublist
    ((List.take_sublist ..).trans List.filter_sublist)), fun r hm => ?_,
    fun r hm hd => (hP.regular hk hr hcan hq hceil hm hd).2.2⟩
  exact List.mem_of_mem_filter
    (List.mem_of_mem_take (hfiles.mem_iff.mp (List.mem_map_of_mem hm)))

end Placed

/-- The files of a layout that fits have their ranges, in the data area. -/
theorem LayoutFits.hasRanges {d : VdfDrive} (hk : d.toGeometry.Known) (ht : d.IsTree)
    (hr : d.InRange) (hcnt : d.allFiles.length ≤ d.fileCnt) (hf : LayoutFits d)
    {rs : List FileRange} (hq : Qsort.Result cmpFilerange (unsortedRanges d) rs) (s n : Nat) :
    HasRanges (recalcDrive d rs) rs s n := by
  have hP := (hf.dataPlaced hk ht hr hcnt hq).1
  intro f hall hd x hx hin
  have hall : f ∈ d.allFiles := hall
  have hsize : (numbered d f).size ≠ 0 := by
    have e : ((recalcDrive d rs).file f).size = (numbered d f).size := by
      rw [show (recalcDrive d rs).file f = recalcFile d f from rfl, recalcFile_mem hall]
      exact (laidOut_static ..).1
    omega
  have hm : rangeOf d f ∈ rs := by
    rw [hq.perm.mem_iff, unsortedRanges_laid hf.dirs]
    exact List.mem_map_of_mem (mem_laidFiles.mpr ⟨hall, hsize⟩)
  have hstart : ((recalcDrive d rs).file f).startsect = (rangeOf d f).sectstart := hP.start _ hm
  have hfirst := (hP.chain.mem hm).1
  have hlast := hin.2
  rw [hstart] at hlast
  generalize x / (recalcDrive d rs).bps = y at hlast
  exact ⟨by omega, _, hm, rfl⟩

/-- No part of a sequence of reads holds a byte of a virtual file, and each keeps to the FATs. -/
def QuietReads (d : VdfDrive) (rs : List FileRange) (reqs : List ReadRequest) : Prop :=
  ∀ q ∈ reqs, ∀ part ∈ q.parts d.bps, FatsStay d rs part.1 part.2 ∧ NoVirtual d part.1 part.2

theorem ReadRequest.parts_lt {bps : Nat} {q : ReadRequest} {part : Nat × Nat}
    (h : part ∈ q.parts bps) : part.1 < 2 ^ 32 ∧ part.2 < 2 ^ 32 := by
  cases q with
  | sectors s n =>
    rw [List.mem_singleton.mp h]
    exact ⟨u32_lt _, u32_lt _⟩
  | bytes off n =>
    obtain ⟨x, -, rfl⟩ := List.mem_map.mp h
    exact ⟨u32_lt _, u32_lt _⟩

/-- On every recalculated drive whose files have the clusters of their sizes a sequence of reads
asks for what it should only if no part of it holds a byte of a virtual file. Where the ranges
follow each other through the data area, if a part goes on there, it does iff that is so and each
file with a byte in a part has a range. -/
theorem servesReads_iff (d d' : VdfDrive) (rs : List FileRange) (hg : d.toGeometry.Created)
    (hset : d.filesys ≠ .unset) (ht : d.IsTree) (hr : d.InRange)
    (hcnt : d.allFiles.length ≤ d.fileCnt) (h : Recalc d d') (hrs : d'.ranges = some rs)
    (hceil : ∀ f ∈ d.allFiles, (d.file f).isDir = false →
      (d.file f).clusters = clustersOf d.bpc (d.file f).size) (reqs : List ReadRequest) :
    (ServesReads d' reqs → QuietReads d' rs reqs) ∧
      ((∀ q ∈ reqs, ∀ part ∈ q.parts d'.bps, d'.mbrSectors + d'.dataStart < part.1 + part.2 →
          DataPlaced d' rs) →
        (ServesReads d' reqs ↔ QuietReads d' rs reqs ∧
          ∀ q ∈ reqs, ∀ part ∈ q.parts d'.bps, HasRanges d' rs part.1 part.2)) := by
  obtain ⟨hcan, rs', hq, rfl⟩ := (recalc_iff ht hr.dataStart).mp h
  obtain rfl : rs' = rs := Option.some.inj hrs
  have hk := hg.known hset
  have hranged := Ranged.of_result hr hcnt hq
  have honly : ServesReads (recalcDrive d rs') reqs → QuietReads (recalcDrive d rs') rs' reqs :=
    fun hserve q hmem part hpart => (hserve q hmem part hpart).only (d := recalcDrive d rs') hg hk
      hranged hcan.valid (ReadRequest.parts_lt hpart).1 (ReadRequest.parts_lt hpart).2
  refine ⟨honly, fun hplaced => ?_⟩
  -- One part.
  have hpart_iff : ∀ q ∈ reqs, ∀ part ∈ q.parts (recalcDrive d rs').bps,
      FatsStay (recalcDrive d rs') rs' part.1 part.2 →
      NoVirtual (recalcDrive d rs') part.1 part.2 →
      (ServesCalls (recalcDrive d rs') part.1 part.2 ↔
        HasRanges (recalcDrive d rs') rs' part.1 part.2) := by
    intro q hmem part hpart hfats hnone
    obtain ⟨hs, hn⟩ := ReadRequest.parts_lt hpart
    rcases Nat.lt_or_ge ((recalcDrive d rs').mbrSectors + (recalcDrive d rs').dataStart)
      (part.1 + part.2) with hlt | hle
    · have hP := hplaced q hmem part hpart hlt
      have hL := hP.layout fun r hm hd => (hP.regular hk hr hcan hq hceil hm hd).1
      refine ServesCalls.data_iff (d := recalcDrive d rs') hg hk hranged hcan.valid hs hn hL
        (fun sector => ?_) (hP.oneRange hk ht hr hcan hq hceil) hfats hnone hlt
      exact DataLayout.offsetFits_of_le (d := recalcDrive d rs')
        (fun r hm hd => (hP.regular hk hr hcan hq hceil hm hd).2.1)
        (by have := (sectorSizes_le hk.bps).1; exact Nat.lt_of_lt_of_le (by decide) this) sector
    · exact ServesCalls.front_iff (d := recalcDrive d rs') hg hk hranged hcan.valid hs hn hfats hle
  constructor
  · intro hserve
    have hquiet := honly hserve
    refine ⟨hquiet, fun q hmem part hpart => ?_⟩
    obtain ⟨hfats, hnone⟩ := hquiet q hmem part hpart
    exact (hpart_iff q hmem part hpart hfats hnone).1 (hserve q hmem part hpart)
  · rintro ⟨hquiet, hhas⟩ q hmem part hpart
    obtain ⟨hfats, hnone⟩ := hquiet q hmem part hpart
    exact (hpart_iff q hmem part hpart hfats hnone).2 (hhas q hmem part hpart)

/-- A real file in front of a virtual one. -/
def driveMixed : VdfDrive :=
  flatDrive geometry16 none
    [{ size := 1000, clusters := 1 }, { size := 70000, clusters := 3, virt := true }]

/-- The sectors up to the end of the real file, and bytes of the file. -/
theorem servesReads_mixed : ∃ d', Recalc driveMixed d' ∧
    ServesReads d' [.sectors 0 129, .bytes 33802 1000] := by
  obtain ⟨rs, hq⟩ := Qsort.exists_result cmpFilerange (unsortedRanges driveMixed)
  have ht : driveMixed.IsTree := flatDrive_isTree _ _ _
  have hr : driveMixed.InRange := flatDrive_inRange (by decide) (by decide) (by decide)
  have hrecalc := (recalc_iff ht hr.dataStart).mpr ⟨⟨rfl, rfl, rfl, by decide⟩, rs, hq, rfl⟩
  have hfit : LayoutFits driveMixed :=
    { sectors := by decide, clusters := by decide, span := by decide, empties := by decide
      dirs := by decide }
  have hlen : rs.length = 2 := hq.perm.length_eq.trans (by decide)
  have hfat (sector scnt : Nat) : FatStays (recalcDrive driveMixed rs) rs sector scnt :=
    .inr (.inl hlen.symm)
  -- The virtual file starts at sector 129.
  have hquiet (s n : Nat) (hle : s + n ≤ 129) : NoVirtual (recalcDrive driveMixed rs) s n := by
    intro f hf hvirt _ x _ hin
    have hf : f ∈ [1, 2] := hf
    have hstart : (recalcFile driveMixed f).isVirt = true →
        129 ≤ (recalcFile driveMixed f).startsect := by
      rcases List.mem_cons.mp hf with rfl | hf
      · decide
      · rw [List.mem_singleton.mp hf]
        decide
    have h1 := hin.2
    have h2 := hstart hvirt
    dsimp only [recalcDrive, passState] at h1
    generalize x / _ = y at h1
    omega
  have hk := geometry16_created.known (by decide)
  refine ⟨_, hrecalc, ((servesReads_iff driveMixed _ rs geometry16_created (by decide) ht hr
    (by decide) hrecalc rfl (by decide) _).2 fun _ _ _ _ _ =>
      (hfit.dataPlaced hk ht hr (by decide) hq).1).mpr ⟨fun q hmem part hpart =>
        ⟨⟨fun _ => hfat _ _, fun _ => hfat _ _⟩, ?_⟩, fun _ _ _ _ =>
          hfit.hasRanges hk ht hr (by decide) hq _ _⟩⟩
  have hparts : ∀ part ∈ ReadRequest.parts 512 (.sectors 0 129) ++
      ReadRequest.parts 512 (.bytes 33802 1000), part.1 + part.2 ≤ 129 := by decide
  refine hquiet part.1 part.2 (hparts part ?_)
  rcases List.mem_cons.mp hmem with rfl | hmem
  · exact List.mem_append_left _ hpart
  · rw [List.mem_singleton.mp hmem] at hpart
    exact List.mem_append_right _ hpart

/-- One sector of a virtual file is asked for with `vfc_write`. -/
theorem not_servesReads : ¬ ∀ d d' : VdfDrive, d.toGeometry.Created → d.filesys ≠ .unset →
    d.IsTree → d.InRange → d.allFiles.length ≤ d.fileCnt → Recalc d d' →
    (∀ f ∈ d.allFiles, (d.file f).isDir = false →
      (d.file f).clusters = clustersOf d.bpc (d.file f).size) →
    ∀ reqs, ServesReads d' reqs := by
  intro hall
  obtain ⟨rs, hq⟩ := Qsort.exists_result cmpFilerange (unsortedRanges drive16)
  have hrecalc := (recalc_iff drive16_isTree drive16_inRange.dataStart).mpr
    ⟨drive16_canRecalc, rs, hq, rfl⟩
  have hserve := hall drive16 _ geometry16_created (by decide) drive16_isTree drive16_inRange
    (by decide) hrecalc (by decide) [.sectors 65 1] _ (List.mem_singleton_self _) (65, 1)
    (List.mem_singleton_self _)
  have hnone := (hserve.only geometry16_created (geometry16_created.known (by decide))
    (Ranged.of_result drive16_inRange (by decide) hq) drive16_canRecalc.valid (by decide)
    (by decide)).2
  exact hnone 1 (show 1 ∈ drive16.allFiles by decide)
    (show (recalcFile drive16 1).isVirt = true by decide)
    (show (recalcFile drive16 1).isDir = false by decide) 0
    (show 0 < (recalcFile drive16 1).size by decide)
    (show 65 ≤ 0 + (recalcFile drive16 1).startsect + 0 / 512 ∧
      0 + (recalcFile drive16 1).startsect + 0 / 512 < 65 + 1 by decide)

end Vdf
