import Vdf.DataServed

/-!
# Requests of the data area that stay inside

A round of `read_sector_data` asks for what is left of a file, up to the end of the request, and a
file that is longer than its sectors moves `buffer` past them: the rounds behind it write too far.
`FilesStay` says when no file of a request does, and `dataLoop_overruns` that it is needed.
-/

namespace Vdf

open Word Buffer

/-- The readers answer with no more than they are asked for. -/
structure Readers.Bounded (env : Readers) : Prop where
  cback : ∀ f off len l, env.cback f off len = some l → l.length ≤ len
  pread : ∀ f off len l, env.pread f off len = some l → l.length ≤ len

theorem Readers.Bounded.read {env : Readers} (h : env.Bounded) {d : VdfDrive} {f : FileId}
    {off len : Nat} {l : List UInt8} (hl : env.read d f off len = some l) : l.length ≤ len := by
  unfold Readers.read at hl
  split at hl
  · exact h.cback _ _ _ _ hl
  · exact h.pread _ _ _ _ hl

/-- A call that fails. -/
def Readers.Fails (env : Readers) (d : VdfDrive) (c : ReadCall) : Prop :=
  env.read d c.file c.off c.len = none

/-- What is left of a file from a sector on fits what is left of its sectors. -/
def FileStays (d : VdfDrive) (r : FileRange) (sector : Nat) : Prop :=
  (d.file r.file).size ≤ u32 ((sector - r.sectstart) * d.bps) + (r.sectend - sector) * d.bps

/-- So does every regular file with sectors in a request that ends inside it. -/
def FilesStay (d : VdfDrive) (rs : List FileRange) (sector scnt : Nat) : Prop :=
  ∀ r ∈ rs, (d.file r.file).isDir = false → max sector r.sectstart < r.sectend →
    r.sectend < sector + scnt → FileStays d r (max sector r.sectstart)

section Stays

variable {d : VdfDrive} {rs : List FileRange} (hP : DataPlaced d rs)

include hP

/-- Behind the last file nothing is read. -/
theorem filesStay_free {sector scnt : Nat} (h : d.dataEnd ≤ sector) :
    FilesStay d rs sector scnt := by
  intro r hr _ h1 _
  have := (hP.chain.mem hr).2.2
  omega

/-- The other files of a request start behind the file of its first sector. -/
theorem DataPlaced.behind {sector : Nat} {r x : FileRange} (hr : r ∈ rs)
    (h1 : r.sectstart ≤ sector) (hx : x ∈ rs) (h : sector < x.sectend) :
    x = r ∨ r.sectend ≤ x.sectstart := by
  rcases Chain.pairwise_either hP.chain.pairwise hr hx with rfl | e | e
  · exact .inl rfl
  · exact .inr e
  · omega

/-- A file that the request ends in is not too long. -/
theorem filesStay_last {sector scnt : Nat} {r : FileRange} (hr : r ∈ rs)
    (h1 : r.sectstart ≤ sector) (h3 : sector + scnt ≤ r.sectend) :
    FilesStay d rs sector scnt := by
  intro x hx _ h4 h5
  rcases hP.behind hr h1 hx (by omega) with rfl | h6 <;> omega

/-- The file of a sector, and the files behind it. -/
theorem filesStay_step {sector scnt : Nat} {r : FileRange} (hr : r ∈ rs)
    (h1 : r.sectstart ≤ sector) (h2 : sector < r.sectend) (h3 : r.sectend < sector + scnt) :
    FilesStay d rs sector scnt ↔ ((d.file r.file).isDir = false → FileStays d r sector) ∧
      FilesStay d rs r.sectend (scnt - (r.sectend - sector)) := by
  have hmax : max sector r.sectstart = sector := by omega
  constructor
  · intro h
    refine ⟨fun hd => hmax ▸ h r hr hd (by omega) h3, fun x hx hd h4 h5 => ?_⟩
    have h6 := (hP.behind hr h1 hx (by omega)).resolve_left (by rintro rfl; omega)
    have h7 := h x hx hd (by omega) (by omega)
    rwa [(by omega : max sector x.sectstart = max r.sectend x.sectstart)] at h7
  · rintro ⟨h, hrest⟩ x hx hd h4 h5
    rcases hP.behind hr h1 hx (by omega) with rfl | h6
    · rw [hmax]
      exact h hd
    · rw [(by omega : max sector x.sectstart = max r.sectend x.sectstart)]
      exact hrest x hx hd (by omega) (by omega)

end Stays

/-- Files that fit their sectors are not too long where the offset into the first one fits. -/
theorem DataLayout.filesStay {d : VdfDrive} {rs : List FileRange} (hL : DataLayout d rs)
    {sector : Nat} (h : OffsetFits d rs sector) (scnt : Nat) : FilesStay d rs sector scnt := by
  intro r hr hd h1 _
  have hsize := hL.size r hr hd
  have hsplit : (r.sectend - r.sectstart) * d.bps =
      (max sector r.sectstart - r.sectstart) * d.bps +
        (r.sectend - max sector r.sectstart) * d.bps := by
    rw [← Nat.add_mul]
    congr 1
    omega
  rw [FileStays]
  rcases Nat.le_total sector r.sectstart with h2 | h2
  · rw [Nat.max_eq_right h2, Nat.sub_self, Nat.zero_mul]
    omega
  · rw [Nat.max_eq_left h2] at h1 hsplit ⊢
    rcases h r hr hd h2 h1 with h3 | h3
    · rw [u32_of_lt h3]
      omega
    · omega

/-! ## Within the request -/

/-- The slots of a request fill its sectors. -/
theorem storeAll_agree {d : VdfDrive} (hbps : d.bps ∈ sectorSizes)
    (hdps : d.direntPerSector = d.bps / 32) (m : Buffer) (p : Nat) (dir : FileId)
    (sector scnt : Nat) : AgreeOutside p (scnt * d.bps) m
      (storeAll 32 m p (runRecords d dir sector (scnt * d.direntPerSector))) := by
  have hmul := direntPerSector_mul hbps hdps
  rw [storeAll_eq_overlay (by decide) _ _ runRecords_within, length_runRecords,
    (by rw [← hmul]; ring : 32 * (scnt * d.direntPerSector) = scnt * d.bps)]
  exact .overlay _ _ _ _

section Within

variable {d : VdfDrive} {rs : List FileRange} {env : Readers} (hP : DataPlaced d rs)
  (hbps : d.bps ∈ sectorSizes) (hdps : d.direntPerSector = d.bps / 32) (hE : env.Bounded)

include hP hbps hdps hE

/-- One round serves the sectors of one file, or a call fails. -/
theorem dataStep_stays {s : DataState} (hpos : 0 < s.scnt) {r : FileRange} (hr : r ∈ rs)
    (h1 : r.sectstart ≤ s.sector) (h2 : s.sector < r.sectend)
    (hfit : (d.file r.file).isDir = false → r.sectend < s.sector + s.scnt →
      FileStays d r s.sector) :
    (∃ m' calls, AgreeOutside s.buffer (min (r.sectend - s.sector) s.scnt * d.bps) s.m m' ∧
      (∀ c ∈ calls, ¬ env.Fails d c) ∧
      dataStep env d s = .ok (none, { s with
        sector := s.sector + min (r.sectend - s.sector) s.scnt
        scnt := s.scnt - min (r.sectend - s.sector) s.scnt
        buffer := s.buffer + min (r.sectend - s.sector) s.scnt * d.bps
        m := m', calls := s.calls ++ calls })) ∨
    ∃ c, env.Fails d c ∧ dataStep env d s = .ok (some (-1), { s with calls := s.calls ++ [c] }) := by
  by_cases hd : (d.file r.file).isDir = true
  · refine .inl ⟨_, [], storeAll_agree hbps hdps s.m s.buffer r.file (s.sector - r.sectstart) _,
      nofun, ?_⟩
    rw [hP.dataStep_dir hr h1 h2 env hbps hdps hpos hd, List.append_nil]
  · have hd : (d.file r.file).isDir = false := by simpa using hd
    rw [hP.dataStep_file hr h1 h2 env hd]
    have hfit := hfit hd
    rw [FileStays] at hfit
    generalize u32 ((s.sector - r.sectstart) * d.bps) = off at *
    obtain ⟨k, hk⟩ : ∃ k, k = min (r.sectend - s.sector) s.scnt := ⟨_, rfl⟩
    simp only [← hk]
    by_cases hz : (d.file r.file).size ≤ off
    · refine .inl ⟨_, [], .fill s.m s.buffer (k * d.bps) 0, nofun, ?_⟩
      rw [if_pos hz, List.append_nil]
    · rw [if_neg hz]
      obtain ⟨w, hw⟩ : ∃ w, w = min ((d.file r.file).size - off) (s.scnt * d.bps) := ⟨_, rfl⟩
      rw [← hw]
      cases hread : env.read d r.file off w with
      | none => exact .inr ⟨⟨r.file, off, w⟩, hread, rfl⟩
      | some l =>
        have hlen := hE.read hread
        have hwk : w ≤ k * d.bps := by
          rcases Nat.lt_or_ge r.sectend (s.sector + s.scnt) with h | h
          · have := hfit h
            rw [hk, Nat.min_eq_left (by omega)]
            omega
          · rw [hk, Nat.min_eq_right (by omega)]
            omega
        have hbuf : s.buffer + l.length + (k * d.bps - l.length) = s.buffer + k * d.bps := by omega
        refine .inl ⟨(s.m.copy s.buffer l).fill (s.buffer + l.length) (k * d.bps - l.length) 0,
          [⟨r.file, off, w⟩], ?_, ?_, ?_⟩
        · exact ((AgreeOutside.copy s.m s.buffer l).mono (Nat.le_refl _) (by omega)).trans
            ((AgreeOutside.fill _ _ _ _).mono (by omega) (by omega))
        · intro c hc
          rw [List.mem_singleton.mp hc, Readers.Fails, hread]
          nofun
        · simp only [Nat.min_eq_left hlen, hbuf]

/-- The loop stays inside when the files do. -/
theorem dataLoop_stays (fuel : Nat) (s : DataState) (hstart : d.dataStart ≤ s.sector)
    (hfits : FilesStay d rs s.sector s.scnt) (hfuel : s.scnt ≤ fuel) :
    ∃ ret t calls, dataLoop env d fuel s = .ok (ret, t) ∧
      AgreeOutside s.buffer (s.scnt * d.bps) s.m t.m ∧ t.calls = s.calls ++ calls ∧
      (ret = 0 ∧ (∀ c ∈ calls, ¬ env.Fails d c) ∨ ret = -1 ∧ ∃ c ∈ calls, env.Fails d c) := by
  induction fuel generalizing s with
  | zero =>
    refine ⟨0, s, [], ?_, .refl _ _ _, (List.append_nil _).symm, .inl ⟨rfl, by simp⟩⟩
    rw [dataLoop, if_pos (by omega)]
  | succ fuel ih =>
    by_cases h0 : s.scnt = 0
    · refine ⟨0, s, [], ?_, .refl _ _ _, (List.append_nil _).symm, .inl ⟨rfl, by simp⟩⟩
      rw [dataLoop, if_pos h0]
    rw [dataLoop, if_neg h0]
    by_cases hend : d.dataEnd ≤ s.sector
    · refine ⟨0, { s with m := s.m.fill s.buffer (s.scnt * d.bps) 0 }, [], ?_, .fill _ _ _ _,
        (List.append_nil _).symm, .inl ⟨rfl, by simp⟩⟩
      rw [dataStep, findFileSector, if_pos hend]
      rfl
    · obtain ⟨r, hr, h1, h2⟩ := hP.chain.exists_mem hstart (Nat.lt_of_not_le hend)
      have hfit : (d.file r.file).isDir = false → r.sectend < s.sector + s.scnt →
          FileStays d r s.sector := fun hd h3 => ((filesStay_step hP hr h1 h2 h3).1 hfits).1 hd
      obtain ⟨k, hk⟩ : ∃ k, k = min (r.sectend - s.sector) s.scnt := ⟨_, rfl⟩
      have hsum : (s.scnt - k) * d.bps + k * d.bps = s.scnt * d.bps := by
        rw [← Nat.add_mul]
        congr 1
        omega
      rcases dataStep_stays hP hbps hdps hE (Nat.pos_of_ne_zero h0) hr h1 h2 hfit with
        ⟨m', calls, ha, hcalls, hstep⟩ | ⟨c, hc, hstep⟩
      · rw [← hk] at ha hstep
        have hnext : FilesStay d rs (s.sector + k) (s.scnt - k) := by
          rcases Nat.lt_or_ge r.sectend (s.sector + s.scnt) with h3 | h3
          · have h := ((filesStay_step hP hr h1 h2 h3).1 hfits).2
            rwa [(by omega : s.sector + k = r.sectend), (by omega : k = r.sectend - s.sector)]
          · intro x _ _ h4 h5
            omega
        obtain ⟨ret, t, calls', hrun, ha', hc', hret⟩ := ih
          { s with sector := s.sector + k, scnt := s.scnt - k, buffer := s.buffer + k * d.bps
                   m := m', calls := s.calls ++ calls }
          (by dsimp only; omega) hnext (by dsimp only; omega)
        refine ⟨ret, t, calls ++ calls', ?_, ?_, by rw [hc', List.append_assoc], ?_⟩
        · rw [hstep]
          exact hrun
        · exact (ha.mono (Nat.le_refl _) (by omega)).trans
            (ha'.mono (by dsimp only; omega) (by dsimp only; omega))
        · refine hret.imp (And.imp_right fun h c hm => ?_) (And.imp_right fun h => ?_)
          · exact (List.mem_append.mp hm).elim (hcalls c) (h c)
          · obtain ⟨c, hm, hc⟩ := h
            exact ⟨c, List.mem_append_right _ hm, hc⟩
      · refine ⟨-1, { s with calls := s.calls ++ [c] }, [c], ?_, .refl _ _ _, rfl,
          .inr ⟨rfl, c, by simp, hc⟩⟩
        rw [hstep]
        rfl

end Within

/-! ## Past the request -/

/-- The readers of files of ones. -/
def Readers.Ones (env : Readers) (d : VdfDrive) : Prop :=
  ∀ f off len, off + len < 2 ^ 32 → env.read d f off len = some (List.replicate len 1)

theorem fullReaders_ones (d : VdfDrive) : (fullReaders fun _ _ => 1).Ones d := by
  intro f off len _
  rw [(fullReaders_reads fun _ _ => 1).read, List.map_const', List.length_range]

section Overruns

variable {d : VdfDrive} {rs : List FileRange} (hP : DataPlaced d rs) (hbps : d.bps ∈ sectorSizes)
  (hdps : d.direntPerSector = d.bps / 32) {env : Readers} (hE : env.Ones d)

include hP hbps hdps hE

/-- One round with readers that answer in full writes the last byte that it counts, and counts too
many for a file that is too long. -/
theorem dataStep_writes {s : DataState} (hpos : 0 < s.scnt) {r : FileRange} (hr : r ∈ rs)
    (h1 : r.sectstart ≤ s.sector) (h2 : s.sector < r.sectend) :
    ∃ (g : Nat) (v : UInt8) (calls : List ReadCall), 0 < g ∧
      min (r.sectend - s.sector) s.scnt * d.bps ≤ g ∧
      ((d.file r.file).isDir = false → r.sectend < s.sector + s.scnt → ¬ FileStays d r s.sector →
        min (r.sectend - s.sector) s.scnt * d.bps < g) ∧
      ∀ m, ∃ m' : Buffer, m' (s.buffer + g - 1) = v ∧
        dataStep env d { s with m } = .ok (none, { s with
          sector := s.sector + min (r.sectend - s.sector) s.scnt
          scnt := s.scnt - min (r.sectend - s.sector) s.scnt
          buffer := s.buffer + g, m := m', calls }) := by
  have hb := (sectorSizes_le hbps).1
  obtain ⟨k, hk⟩ : ∃ k, k = min (r.sectend - s.sector) s.scnt := ⟨_, rfl⟩
  have hkpos : 0 < k * d.bps := Nat.mul_pos (by omega) (by omega)
  by_cases hd : (d.file r.file).isDir = true
  · have hmul := direntPerSector_mul hbps hdps
    obtain ⟨recs, hrecs⟩ : ∃ l, l = runRecords d r.file (s.sector - r.sectstart)
      (k * d.direntPerSector) := ⟨_, rfl⟩
    have hlen : 32 * recs.length = k * d.bps := by
      rw [hrecs, length_runRecords, ← hmul]
      ring
    -- The last byte of the last slot.
    obtain ⟨x, hx, hlast⟩ := tableByte_last (w := 32) (by decide)
      (List.ne_nil_of_length_pos (by omega : 0 < recs.length))
    obtain ⟨v, hv⟩ := Option.ne_none_iff_exists'.mp (runRecords_last x (hrecs ▸ hx))
    rw [hv, hlen] at hlast
    refine ⟨k * d.bps, v, s.calls, hkpos, by rw [hk], fun h => absurd hd (by simp [h]), fun m => ?_⟩
    refine ⟨storeAll 32 m s.buffer recs, ?_, ?_⟩
    · rw [storeAll_eq_overlay (by decide) _ _ (hrecs ▸ runRecords_within), hlen,
        Nat.add_sub_assoc hkpos, overlay_inside _ _ (by omega), hlast]
      rfl
    · rw [hP.dataStep_dir (s := { s with m }) hr h1 h2 _ hbps hdps hpos hd, hrecs, hk]
  · have hd : (d.file r.file).isDir = false := by simpa using hd
    have hrun (m : Buffer) := hP.dataStep_file (s := { s with m }) hr h1 h2 env hd
    simp only [FileStays, ← hk] at hrun ⊢
    generalize u32 ((s.sector - r.sectstart) * d.bps) = off at *
    by_cases hz : (d.file r.file).size ≤ off
    · refine ⟨k * d.bps, 0, s.calls, hkpos, Nat.le_refl _, fun _ _ h => absurd (by omega) h,
        fun m => ⟨m.fill s.buffer (k * d.bps) 0, ?_, ?_⟩⟩
      · rw [fill_eq_overlay, Nat.add_sub_assoc hkpos, overlay_inside _ _ (by omega)]
        rfl
      · rw [hrun, if_pos hz]
    · obtain ⟨w, hw⟩ : ∃ w, w = min ((d.file r.file).size - off) (s.scnt * d.bps) := ⟨_, rfl⟩
      have hread : env.read d r.file off w = some (List.replicate w 1) :=
        hE r.file off w (by have := hP.lt r hr; omega)
      have hwk : r.sectend < s.sector + s.scnt →
          ¬ (d.file r.file).size ≤ off + (r.sectend - s.sector) * d.bps → k * d.bps < w := by
        intro h3 h4
        have h5 : k * d.bps + d.bps ≤ s.scnt * d.bps := by
          rw [← Nat.succ_mul]
          exact Nat.mul_le_mul_right _ (by omega)
        rw [(by omega : r.sectend - s.sector = k)] at h4
        omega
      refine ⟨w + (k * d.bps - w), if k * d.bps ≤ w then 1 else 0,
        s.calls ++ [⟨r.file, off, w⟩], by omega, by omega, fun _ h3 h4 => ?_, fun m => ?_⟩
      · have := hwk h3 h4
        omega
      · refine ⟨(m.copy s.buffer (List.replicate w 1)).fill (s.buffer + w)
          (k * d.bps - w) 0, ?_, ?_⟩
        · have hlen : (List.replicate w (1 : UInt8)).length = w := List.length_replicate
          by_cases hw' : k * d.bps ≤ w
          · rw [if_pos hw', fill_eq_overlay, overlay_outside (.inl (by omega)), copy_eq_overlay, hlen,
              Nat.add_sub_assoc (by omega), overlay_inside _ _ (by omega), Option.getD_some,
              List.getD_eq_getElem?_getD, List.getElem?_eq_getElem (by rw [hlen]; omega),
              List.getElem_replicate, Option.getD_some]
          · rw [if_neg hw', fill_eq_overlay,
              (by omega : s.buffer + (w + (k * d.bps - w)) - 1 = s.buffer + w + (k * d.bps - w - 1)),
              overlay_inside _ _ (by omega), Option.getD_some]
        · rw [hrun, if_neg hz, ← hw, hread]
          simp only [List.length_replicate, Nat.min_self, Nat.add_assoc]

/-- A request with a file that is too long writes behind its end. -/
theorem dataLoop_overruns (fuel : Nat) (s : DataState) (hstart : d.dataStart ≤ s.sector)
    (hpos : 0 < s.scnt) (hfuel : s.scnt ≤ fuel) :
    ∃ (x : Nat) (v : UInt8), s.buffer + s.scnt * d.bps ≤ x + 1 ∧
      (¬ FilesStay d rs s.sector s.scnt → s.buffer + s.scnt * d.bps ≤ x) ∧
      ∀ m, ∃ t, dataLoop env d fuel { s with m } = .ok (0, t) ∧
        t.m x = v := by
  have hb := (sectorSizes_le hbps).1
  induction fuel generalizing s with
  | zero => omega
  | succ fuel ih =>
    have hscnt : 0 < s.scnt * d.bps := Nat.mul_pos hpos (by omega)
    by_cases hend : d.dataEnd ≤ s.sector
    · refine ⟨s.buffer + s.scnt * d.bps - 1, 0, by omega,
        fun h => absurd (filesStay_free hP hend) h, fun m => ?_⟩
      refine ⟨{ s with m := m.fill s.buffer (s.scnt * d.bps) 0 }, ?_, ?_⟩
      · rw [dataLoop, if_neg (by dsimp only; omega), dataStep, findFileSector, if_pos hend]
        rfl
      · dsimp only
        rw [fill_eq_overlay, Nat.add_sub_assoc hscnt, overlay_inside _ _ (by omega)]
        rfl
    · obtain ⟨r, hr, h1, h2⟩ := hP.chain.exists_mem hstart (Nat.lt_of_not_le hend)
      obtain ⟨g, v, calls, hg, hge, hgt, hstep⟩ := dataStep_writes hP hbps hdps hE hpos hr h1 h2
      rcases Nat.lt_or_ge r.sectend (s.sector + s.scnt) with h3 | h3
      · -- More sectors follow.
        have hmin : min (r.sectend - s.sector) s.scnt = r.sectend - s.sector := by omega
        have hsec : s.sector + (r.sectend - s.sector) = r.sectend := by omega
        rw [hmin] at hge hgt
        simp only [hmin, hsec] at hstep
        have hsum : (s.scnt - (r.sectend - s.sector)) * d.bps + (r.sectend - s.sector) * d.bps =
            s.scnt * d.bps := by
          rw [← Nat.add_mul]
          congr 1
          omega
        obtain ⟨x, v', hx, hx', hrun⟩ := ih
          { s with sector := r.sectend, scnt := s.scnt - (r.sectend - s.sector)
                   buffer := s.buffer + g, calls }
          (by dsimp only; omega) (by dsimp only; omega) (by dsimp only; omega)
        dsimp only at hx hx' hrun
        refine ⟨x, v', by omega, fun hn => ?_, fun m => ?_⟩
        · by_cases hfile : (d.file r.file).isDir = false → FileStays d r s.sector
          · have := hx' fun h => hn ((filesStay_step hP hr h1 h2 h3).2 ⟨hfile, h⟩)
            omega
          · rw [Classical.not_imp] at hfile
            have := hgt hfile.1 h3 hfile.2
            omega
        · obtain ⟨m', -, hm'⟩ := hstep m
          obtain ⟨t, ht, htx⟩ := hrun m'
          refine ⟨t, ?_, htx⟩
          rw [dataLoop, if_neg (by dsimp only; omega), hm']
          exact ht
      · -- The file ends the request.
        have hmin : min (r.sectend - s.sector) s.scnt = s.scnt := by omega
        rw [hmin] at hge hgt
        simp only [hmin] at hstep
        refine ⟨s.buffer + g - 1, v, by omega,
          fun h => absurd (filesStay_last hP hr h1 h3) h, fun m => ?_⟩
        obtain ⟨m', hv, hm'⟩ := hstep m
        refine ⟨{ s with sector := s.sector + s.scnt, scnt := 0, buffer := s.buffer + g, m := m'
                         calls }, ?_, hv⟩
        rw [dataLoop, if_neg (by dsimp only; omega), hm', Nat.sub_self]
        show dataLoop _ _ _ _ = _
        cases fuel <;> rw [dataLoop, if_pos rfl]

end Overruns

end Vdf
