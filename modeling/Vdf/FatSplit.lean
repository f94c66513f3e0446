import Vdf.Fat12Fresh
import Vdf.Image

/-!
# A FAT that is read in two parts

Where the ranges are the chains of the FAT (`FatPlaced`), a request on FAT16 and FAT32 gives a slice
of one table, wherever it starts. On FAT12 a request behind the first sector looks up a wrong entry.
Only where that one is free, and nothing is written at all, the FAT can be read in two parts.
-/

namespace Vdf

open Word Buffer

/-! ## Longer requests on FAT12 -/

section Longer

variable {d : VdfDrive} {rs : List FileRange} {ends : List Nat} {fin len len' : Nat}

/-- An entry whose bytes are in the request is written so in a longer one. -/
theorem evenMem_longer {s : Fat12State} (hroom : s.i + 2 < len) (hle : len ≤ len')
    (file : FileId) (rangeInd : Nat) :
    evenMem ends fin len' (s.twin file rangeInd s.m) = evenMem ends fin len s := by
  have h : s.i + (if s.ent + 1 ∈ ends then 1 else 2) < len := by split <;> omega
  have h' : s.i + (if s.ent + 1 ∈ ends then 1 else 2) < len' := by omega
  exact (if_pos h').trans (if_pos h).symm

theorem oddDone_longer {s : Fat12State} (hroom : s.i + 2 < len) (hle : len ≤ len')
    (file : FileId) (rangeInd : Nat) :
    oddDone ends len' (s.twin file rangeInd s.m) = oddDone ends len s ∧
      (oddDone ends len s).1 = s.i + 2 ∧ (oddDone ends len s).2.1 = s.buffer + 2 := by
  have h1 : s.i + 1 < len := by omega
  have h1' : s.i + 1 < len' := by omega
  have h2' : s.i + 2 < len' := by omega
  simp only [oddDone, Fat12State.twin, hroom, h1, h1', h2', ↓reduceIte, true_and]
  split <;> exact ⟨rfl, rfl⟩

/-- The loop does the same for a longer request when its entries have room in the shorter one. -/
theorem fat12Loop_longer (hr : Ranged d rs) (hle : len ≤ len') {p : Nat} (k : Nat)
    (s : Fat12State) (file : FileId) (rangeInd fuel fuel' : Nat)
    (h : Fat12At rs ends fin p len s) (hat : WalkAt rs ends fin s.ent file rangeInd)
    (hfin : s.ent + 1 + k = fin) (hroom : entryOffset s.i s.halfent k + 2 < len) (hfuel : k < fuel)
    (hfuel' : k < fuel') :
    fat12Loop d len' fuel' (s.twin file rangeInd s.m) = fat12Loop d len fuel s := by
  induction k generalizing s file rangeInd fuel fuel' with
  | zero =>
    obtain ⟨fuel, rfl⟩ : ∃ j, fuel = j + 1 := ⟨fuel - 1, by omega⟩
    obtain ⟨fuel', rfl⟩ : ∃ j, fuel' = j + 1 := ⟨fuel' - 1, by omega⟩
    have hx := h.bound
    unfold entryOffset at hroom
    have hlt : s.i < len := by omega
    have hlt' : (s.twin file rangeInd s.m).i < len' := Nat.lt_of_lt_of_le hlt hle
    rcases Bool.eq_false_or_eq_true s.halfent with hh | hh
    · obtain ⟨-, hrun⟩ := (fat12Loop_odd len fuel hr h.walk h.clust (by omega) hlt hh).1 hfin
      obtain ⟨-, hrun'⟩ := (fat12Loop_odd (s := s.twin file rangeInd s.m) len' fuel' hr hat h.clust
        (show s.ent + 2 < 2 ^ 32 by omega) hlt' hh).1 hfin
      rw [hrun, hrun', (oddDone_longer (by omega) hle file rangeInd).1]
    · obtain ⟨-, hrun⟩ := (fat12Loop_even len fuel hr h.walk h.clust (by omega) hlt hh).1 hfin
      obtain ⟨-, hrun'⟩ := (fat12Loop_even (s := s.twin file rangeInd s.m) len' fuel' hr hat h.clust
        (show s.ent + 2 < 2 ^ 32 by omega) hlt' hh).1 hfin
      rw [hrun, hrun', evenMem_longer (by omega) hle]
      rfl
  | succ k ih =>
    obtain ⟨fuel, rfl⟩ : ∃ j, fuel = j + 1 := ⟨fuel - 1, by omega⟩
    obtain ⟨fuel', rfl⟩ : ∃ j, fuel' = j + 1 := ⟨fuel' - 1, by omega⟩
    have hx := h.bound
    have hb := h.buffer
    unfold entryOffset at hroom
    have hlt : s.i < len := by omega
    have hlt' : (s.twin file rangeInd s.m).i < len' := Nat.lt_of_lt_of_le hlt hle
    have hgo : s.ent + 1 < fin := by omega
    rcases Bool.eq_false_or_eq_true s.halfent with hh | hh
    · obtain ⟨f₁, r₁, hat₁, hrun⟩ :=
        (fat12Loop_odd len fuel hr h.walk h.clust (by omega) hlt hh).2 hgo
      obtain ⟨f₂, r₂, hat₂, hrun'⟩ := (fat12Loop_odd (s := s.twin file rangeInd s.m) len' fuel' hr
        hat h.clust (show s.ent + 2 < 2 ^ 32 by omega) hlt' hh).2 hgo
      rw [hh, Bool.toNat_true] at hroom
      obtain ⟨hdone, hi, hq⟩ := @oddDone_longer ends len len' s (by omega) hle file rangeInd
      rw [hrun, hrun', hdone, hi, hq]
      exact ih
        { i := s.i + 2, buffer := s.buffer + 2, ent := s.ent + 1, clust := s.ent + 2
          halfent := false, file := f₁, rangeInd := r₁, m := (oddDone ends len s).2.2 }
        f₂ r₂ fuel fuel' (h.next hat₁ (by omega) (by omega) (by omega)) hat₂ (by dsimp only; omega)
        (show s.i + 2 + (3 * k + 0) / 2 + 2 < len by omega) (by omega) (by omega)
    · obtain ⟨f₁, r₁, hat₁, hrun⟩ :=
        (fat12Loop_even len fuel hr h.walk h.clust (by omega) hlt hh).2 hgo
      obtain ⟨f₂, r₂, hat₂, hrun'⟩ := (fat12Loop_even (s := s.twin file rangeInd s.m) len' fuel' hr
        hat h.clust (show s.ent + 2 < 2 ^ 32 by omega) hlt' hh).2 hgo
      rw [hh, Bool.toNat_false] at hroom
      rw [hrun, hrun', evenMem_longer (by omega) hle]
      exact ih
        { i := s.i + 1, buffer := s.buffer + 1, ent := s.ent + 1, clust := s.ent + 2
          halfent := true, file := f₁, rangeInd := r₁, m := evenMem ends fin len s }
        f₂ r₂ fuel fuel' (h.next hat₁ (by omega) (by omega) (by omega)) hat₂ (by dsimp only; omega)
        (show s.i + 1 + (3 * k + 1) / 2 + 2 < len by omega) (by omega) (by omega)

end Longer

/-! ## Two requests -/

section Split

variable {d : VdfDrive} {o n k : Nat}

/-- Zeros behind the first `i` bytes, as far as the first request goes, and behind it. -/
theorem fill_split (m : Buffer) (p : Nat) {i a : Nat} (b : Nat) (hi : i ≤ a) :
    (m.fill (p + i) (a - i) 0).fill (p + a) b 0 = m.fill (p + i) (a + b - i) 0 := by
  have h1 : p + a = p + i + (a - i) := by omega
  have h2 : a + b - i = a - i + b := by omega
  rw [fill_eq_overlay, fill_eq_overlay, fill_eq_overlay, h1, overlay_overlay, h2]
  exact overlay_congr fun j _ => by rw [glue]; split <;> rfl

/-- The entries in front of the one that a later request looks up lie in the first request. -/
theorem entryOffset_first_lt {bps fin k : Nat} (hbps : 512 ≤ bps) (hn : 0 < n)
    (hfin : firstEntry12 bps o + 1 + k = fin) (hlt : fin ≤ firstEntry12 bps (o + n)) :
    entryOffset (firstByte12 o) (firstOdd12 bps o) k + 2 < n * bps := by
  have hnb : bps ≤ n * bps := Nat.le_mul_of_pos_left _ hn
  have hsum : (o + n) * 2 * bps = 2 * (o * bps) + 2 * (n * bps) := by ring
  have hhalf : (firstOdd12 bps o).toNat ≤ 1 := Bool.toNat_le _
  rw [firstEntry12, if_neg (by omega : o + n ≠ 0), hsum] at hlt
  unfold entryOffset
  by_cases h0 : o = 0
  · subst h0
    simp only [firstEntry12, firstByte12, ↓reduceIte, Nat.zero_mul] at *
    omega
  · have hone : o * 2 * bps = 2 * (o * bps) := by ring
    rw [firstEntry12, if_neg h0, hone] at hfin
    rw [firstByte12, if_neg h0]
    omega

/-- On FAT12 a request whose first entry is taken for a free one gives zeros. -/
theorem readSectorFat12_behind (hbps : 3 ≤ d.bps) (ho : o ≠ 0) (hk : 0 < k)
    (hlt : (o + k) * d.bps < 2 ^ 31) (hend : d.dataClusterEnd ≤ firstEntry12 d.bps o) (m : Buffer)
    (p : Nat) : readSectorFat12 d o k m p = .ok (m.fill p (k * d.bps) 0) := by
  rw [Nat.add_mul] at hlt
  rw [readSectorFat12_eq hbps hk (by rwa [Nat.add_mul]), findFileFatEntry, if_pos hend]
  show finishFat (k * d.bps) (firstByte12 o) (p + firstByte12 o) (fat12Header o m p) = _
  rw [firstByte12, if_neg ho, fat12Header, if_neg ho, finishFat_eq (Nat.zero_le _) (by omega),
    Nat.add_zero, Nat.sub_zero]

/-- So a request that is cut there ends like its first part, and zeros follow. -/
theorem readSectorFat12_split {pre live : List FileRange} (hP : FatPlaced d pre live)
    (hr : Ranged d (pre ++ live)) (hbps : 512 ≤ d.bps) (hn : 0 < n) (hk : 0 < k)
    (hlt : (o + n + k) * d.bps < 2 ^ 31)
    (hend : d.dataClusterEnd ≤ firstEntry12 d.bps (o + n))
    (hstays : Fat12Stays d (pre ++ live) o n) (m : Buffer) (p : Nat) :
    ∃ m', readSectorFat12 d o n m p = .ok m' ∧ readSectorFat12 d o (n + k) m p =
      readSectorFat12 d (o + n) k m' (p + n * d.bps) := by
  have hsum : (n + k) * d.bps = n * d.bps + k * d.bps := Nat.add_mul ..
  have hle : d.bps ≤ n * d.bps := Nat.le_mul_of_pos_left _ hn
  have hlt' : o * d.bps + n * d.bps + k * d.bps < 2 ^ 31 := by
    rwa [← Nat.add_mul, ← Nat.add_mul]
  have hlt₁ : (o + n) * d.bps < 2 ^ 31 := by rw [Nat.add_mul]; omega
  have hlt₂ : (o + (n + k)) * d.bps < 2 ^ 31 := by rw [← Nat.add_assoc]; exact hlt
  have hbyte : firstByte12 o ≤ n * d.bps := by unfold firstByte12; split <;> omega
  have hfront := readSectorFat12_eq (by omega) hn hlt₁ m p
  have hwhole := readSectorFat12_eq (by omega) (by omega) hlt₂ m p
  generalize fat12Header o m p = m₁ at hfront hwhole
  -- Behind `i` bytes both write zeros.
  have hzeros (i : Nat) (m₂ : Buffer) (hi : i ≤ n * d.bps)
      (h1 : readSectorFat12 d o n m p = finishFat (n * d.bps) i (p + i) m₂)
      (h2 : readSectorFat12 d o (n + k) m p = finishFat ((n + k) * d.bps) i (p + i) m₂) :
      ∃ m', readSectorFat12 d o n m p = .ok m' ∧ readSectorFat12 d o (n + k) m p =
        readSectorFat12 d (o + n) k m' (p + n * d.bps) := by
    refine ⟨_, h1.trans (finishFat_eq hi (by omega)), ?_⟩
    rw [h2, finishFat_eq (by omega) (by omega),
      readSectorFat12_behind (by omega) (by omega) hk hlt hend, fill_split _ _ _ hi, hsum]
  by_cases hfree : d.dataClusterEnd ≤ firstEntry12 d.bps o
  · rw [findFileFatEntry, if_pos hfree] at hfront hwhole
    exact hzeros _ m₁ hbyte hfront hwhole
  · have htwo : 2 ≤ firstEntry12 d.bps o := by
      unfold firstEntry12
      split
      · exact Nat.le_refl 2
      · have : d.bps ≤ o * d.bps := Nat.le_mul_of_pos_left _ (by omega)
        rw [(by ring : o * 2 * d.bps = 2 * (o * d.bps))]
        omega
    obtain ⟨hfound, -⟩ := findFileFatEntry_spec hr (Nat.lt_of_not_le hfree)
    obtain ⟨front, r, rest, hlive, hpre, hr', hcons⟩ :=
      hP.rangesFrom htwo (Nat.lt_of_not_le hfree)
    have hfin := hP.walkFin htwo (Nat.lt_of_not_le hfree)
    have hrs : pre ++ live = (pre ++ front) ++ r :: rest := by rw [hlive, List.append_assoc]
    have hfit := hstays.resolve_left hfree
    simp only [hcons, reduceCtorEq, ↓reduceIte] at hfit
    rw [hcons] at hfin
    have hskip : ∀ x ∈ pre ++ front, x.fatend ≤ firstEntry12 d.bps o := by
      intro x hx
      refine (List.mem_append.mp hx).elim (fun hx => ?_) (hpre x)
      exact Nat.le_trans (hP.skipped (by rw [hlive]; simp) x hx) htwo
    rw [hfound _ r rest hrs hskip hr'] at hfront hwhole
    have hat := Fat12At.first hrs (by omega) hn hlt₁ m₁ p
    obtain ⟨i, m₂, hrun, hi, -⟩ := (fat12Loop_stays hr (n * d.bps) _ hat
      (by dsimp only; omega)).stays hfit
    obtain ⟨j, hj⟩ : ∃ j, firstEntry12 d.bps o + 1 + j = d.dataClusterEnd :=
      ⟨d.dataClusterEnd - firstEntry12 d.bps o - 1, by omega⟩
    have hroom := entryOffset_first_lt hbps hn hj hend
    have hfuel : j < n * d.bps := by unfold entryOffset at hroom; omega
    have hlong := fat12Loop_longer hr (hsum ▸ Nat.le_add_right _ _ : n * d.bps ≤ (n + k) * d.bps) j
      _ r.file (pre ++ front).length (n * d.bps) ((n + k) * d.bps) hat hat.walk
      (by rw [hfin]; exact hj) hroom hfuel (by omega)
    rw [hrun] at hlong
    dsimp only [Fat12State.twin] at hlong
    refine hzeros i m₂ hi (hfront.trans ?_) (hwhole.trans ?_)
    · show (fat12Loop d _ _ _).bind _ = _
      rw [hrun]
      rfl
    · show (fat12Loop d _ _ _).bind _ = _
      rw [hlong]
      rfl

/-- The chains of a FAT, and on FAT12 a second request that looks up a free entry. -/
def FatSplit (d : VdfDrive) (rs : List FileRange) (o n : Nat) : Prop :=
  (∃ pre live, rs = pre ++ live ∧ FatPlaced d pre live) ∧
    (d.filesys = .fat12 → d.dataClusterEnd ≤ firstEntry12 d.bps (o + n))

/-- Where requests keep to the array, a FAT can be read in two parts. -/
theorem readSectorFat_split {rs : List FileRange} (h : FatSplit d rs o n)
    (hk : d.toGeometry.Known) (hr : Ranged d rs) (hn : 0 < n) (hk0 : 0 < k)
    (hle : o + n + k ≤ d.fatSectors) (hwhole : FatStays d rs o (n + k))
    (hfront : FatStays d rs o n) (hrest : FatStays d rs (o + n) k) (m : Buffer) (p : Nat) :
    ∃ m', readSectorFat d o n m p = .ok m' ∧ readSectorFat d o (n + k) m p =
      readSectorFat d (o + n) k m' (p + n * d.bps) := by
  obtain ⟨⟨pre, live, rfl, hP⟩, hend⟩ := h
  by_cases h12 : d.filesys = .fat12
  · have hb := (sectorSizes_le hk.bps).1
    have hlt : (o + n + k) * d.bps < 2 ^ 31 :=
      Nat.lt_of_le_of_lt (Nat.mul_le_mul_right _ hle) hk.fatBytes
    rw [FatStays, if_pos h12] at hfront
    simp only [readSectorFat, h12]
    exact readSectorFat12_split hP hr hb hn hk0 hlt (hend h12) hfront m p
  · have hf : d.filesys = .fat16 ∨ d.filesys = .fat32 := by
      have := hk.filesys
      cases hd : d.filesys <;> simp_all
    rw [FatStays, if_neg h12] at hwhole hfront hrest
    refine ⟨_, hP.readSectorFat_wide hk hr hf hn (by omega) hfront m p, ?_⟩
    rw [hP.readSectorFat_wide hk hr hf (by omega) (by omega) hwhole,
      hP.readSectorFat_wide hk hr hf hk0 hle hrest]
    rw [Nat.add_mul n, Nat.add_mul o]
    exact congrArg _ (overlay_slice m p _ _ _ fun x => some (entryByte _ _ x)).symm

end Split

end Vdf
