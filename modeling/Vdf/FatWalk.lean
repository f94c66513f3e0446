import Vdf.Fat
import Mathlib.Algebra.BigOperators.Group.List.Basic

/-!
# What the FAT16 and FAT32 loop writes

For any array of ranges, in order or not, the loop gives each range at least one entry: it counts
up to the end of the range's file and ends the chain there, or at once when the end is already
behind it (`walkEnd`). `walkEntry` is the table that results; `fatLoop_spec` is the loop invariant
and `readSectorFatWide_spec` the effect of one request.
-/

namespace Vdf

open Word Buffer

/-! ## The walk over the ranges -/

/-- Where the chain of `r` ends when the loop enters it at `ent`. The subtraction `end - 1` of an
`end` of 0 wraps. -/
def walkEnd (ent : Nat) (r : FileRange) : Nat :=
  max (if r.fatend = 0 then 2 ^ 32 else r.fatend) (ent + 1)

/-- The ends of the chains of `l`, entered at `ent`. -/
def walkEnds : Nat → List FileRange → List Nat
  | _, [] => []
  | ent, r :: l => walkEnd ent r :: walkEnds (walkEnd ent r) l

/-- The end of the last chain. -/
def walkFin : Nat → List FileRange → Nat
  | ent, [] => ent
  | ent, r :: l => walkFin (walkEnd ent r) l

/-- The entries that the walk writes from `ent` on. -/
def walkEntry (eoc ent : Nat) (l : List FileRange) (c : Nat) : Nat :=
  if c + 1 ∈ walkEnds ent l then eoc else if c < walkFin ent l then c + 1 else 0

theorem lt_walkEnd (ent : Nat) (r : FileRange) : ent < walkEnd ent r := by
  unfold walkEnd; omega

theorem le_walkFin (ent : Nat) (l : List FileRange) : ent ≤ walkFin ent l := by
  induction l generalizing ent with
  | nil => exact Nat.le_refl _
  | cons r l ih => exact Nat.le_trans (Nat.le_of_lt (lt_walkEnd ent r)) (ih _)

theorem walkEnds_bounds (ent : Nat) (l : List FileRange) :
    ∀ t ∈ walkEnds ent l, ent < t ∧ t ≤ walkFin ent l := by
  induction l generalizing ent with
  | nil => nofun
  | cons r l ih =>
    intro t ht
    have h1 := lt_walkEnd ent r
    rcases List.mem_cons.mp ht with rfl | ht
    · exact ⟨h1, le_walkFin _ l⟩
    · have := ih _ t ht
      exact ⟨by omega, this.2⟩

theorem walkEnds_sorted (ent : Nat) (l : List FileRange) :
    (walkEnds ent l).Pairwise fun a b => a < b := by
  induction l generalizing ent with
  | nil => exact .nil
  | cons r l ih =>
    exact List.pairwise_cons.mpr ⟨fun t ht => (walkEnds_bounds _ l t ht).1, ih _⟩

@[simp] theorem length_walkEnds (ent : Nat) (l : List FileRange) :
    (walkEnds ent l).length = l.length := by
  induction l generalizing ent with
  | nil => rfl
  | cons r l ih => simp only [walkEnds, List.length_cons, ih]

/-- A walk whose ends add up to those of the ranges ends each chain where its range ends. -/
theorem walkEnds_eq_of_sum {ent : Nat} {l : List FileRange}
    (h : (walkEnds ent l).sum = (l.map FileRange.fatend).sum) :
    walkEnds ent l = l.map FileRange.fatend := by
  have hge : ∀ (ent : Nat) (l : List FileRange),
      (l.map FileRange.fatend).sum ≤ (walkEnds ent l).sum := by
    intro ent l
    induction l generalizing ent with
    | nil => exact Nat.le_refl _
    | cons r l ih =>
      have h1 := ih (walkEnd ent r)
      have h2 : r.fatend ≤ walkEnd ent r := by unfold walkEnd; split <;> omega
      simp only [walkEnds, List.map_cons, List.sum_cons]
      omega
  induction l generalizing ent with
  | nil => rfl
  | cons r l ih =>
    have h1 := hge (walkEnd ent r) l
    have h2 : r.fatend ≤ walkEnd ent r := by unfold walkEnd; split <;> omega
    simp only [walkEnds, List.map_cons, List.sum_cons] at h ⊢
    rw [ih (by omega), (by omega : walkEnd ent r = r.fatend)]

/-- Past an entry inside a chain the walk goes on as before. -/
theorem walk_succ {ent : Nat} {r : FileRange} (h : ent + 1 < walkEnd ent r) (l : List FileRange) :
    walkEnds (ent + 1) (r :: l) = walkEnds ent (r :: l) ∧
      walkFin (ent + 1) (r :: l) = walkFin ent (r :: l) := by
  have e : walkEnd (ent + 1) r = walkEnd ent r := by unfold walkEnd at *; omega
  simp only [walkEnds, walkFin, e, and_self]

section

variable {eoc ent : Nat} {r : FileRange} {l : List FileRange}

theorem walkEntry_succ (h : ent + 1 < walkEnd ent r) :
    walkEntry eoc (ent + 1) (r :: l) = walkEntry eoc ent (r :: l) := by
  funext c
  rw [walkEntry, walkEntry, (walk_succ h l).1, (walk_succ h l).2]

/-- Inside a chain an entry is its successor. -/
theorem walkEntry_chain (h : ent + 1 < walkEnd ent r) :
    walkEntry eoc ent (r :: l) ent = ent + 1 := by
  have hnot : ent + 1 ∉ walkEnds ent (r :: l) := by
    intro hm
    rcases List.mem_cons.mp hm with e | hm
    · omega
    · have := (walkEnds_bounds _ l _ hm).1
      omega
  have hfin := le_walkFin (walkEnd ent r) l
  rw [walkEntry, if_neg hnot, if_pos (by simp only [walkFin]; omega)]

/-- The last entry of a chain is the mark. -/
theorem walkEntry_end (h : walkEnd ent r = ent + 1) : walkEntry eoc ent (r :: l) ent = eoc := by
  rw [walkEntry, if_pos (by simp [walkEnds, h])]

/-- Behind a chain the walk is that of the ranges that follow. -/
theorem walkEntry_next {c : Nat} (h : walkEnd ent r ≤ c) :
    walkEntry eoc ent (r :: l) c = walkEntry eoc (walkEnd ent r) l c := by
  have hne : c + 1 ≠ walkEnd ent r := by omega
  simp only [walkEntry, walkEnds, walkFin, List.mem_cons, hne, false_or]
  rfl

end

theorem walkEntry_nil (eoc : Nat) {ent c : Nat} (h : ent ≤ c) : walkEntry eoc ent [] c = 0 := by
  rw [walkEntry, walkEnds, walkFin, if_neg List.not_mem_nil, if_neg (by omega)]

/-! ## The loop -/

/-- The drive's ranges are `rs`, and each has the end of its file. -/
structure Ranged (d : VdfDrive) (rs : List FileRange) : Prop where
  ranges : d.ranges = some rs
  end_ : ∀ r ∈ rs, (d.file r.file).end_ = r.fatend
  lt : ∀ r ∈ rs, r.fatend < 2 ^ 32
  count : rs.length ≤ d.fileCnt

/-- The next range, the end of the list, or a read past the array. -/
theorem Ranged.fatNextFile {d : VdfDrive} {s t : List FileRange} {r : FileRange}
    (h : Ranged d (s ++ r :: t)) : Vdf.fatNextFile d s.length = match t with
      | r' :: _ => .ok (some (r'.file, s.length + 1))
      | [] => if d.fileCnt = s.length + 1 then .ok none else .error (.rangesIndex (s.length + 1)) := by
  have hlen := h.count
  rw [List.length_append, List.length_cons] at hlen
  cases t with
  | nil =>
    rw [Vdf.fatNextFile, rangeAt_eq h.ranges, List.getElem?_eq_none (by simp)]
    by_cases hc : s.length + 1 = d.fileCnt
    · rw [if_pos hc, if_pos hc.symm]
    · rw [if_neg hc, if_neg (Ne.symm hc)]; rfl
  | cons r' t =>
    rw [List.length_cons] at hlen
    have e : (s ++ r :: r' :: t)[s.length + 1]? = some r' := by
      rw [List.getElem?_append_right (by omega), Nat.add_sub_cancel_left]; rfl
    rw [Vdf.fatNextFile, if_neg (by omega), rangeAt_eq h.ranges, e]; rfl

/-- The test of the loop: the entry is not the last of its chain. -/
theorem lt_end_iff {ent : Nat} {r : FileRange} (he : ent + 1 < 2 ^ 32) (hlt : r.fatend < 2 ^ 32) :
    ent < subU32 r.fatend 1 ↔ ent + 1 < walkEnd ent r := by
  unfold walkEnd
  by_cases h0 : r.fatend = 0
  · rw [if_pos h0, h0, subU32_of_lt (by omega) (by omega)]; omega
  · rw [if_neg h0, subU32_of_le hlt (by omega)]; omega

/-- The loop has written the table `T` up to byte `i` and stands at entry `ent`, with `r` the range
of its file; from there on `T` is the walk. -/
structure FatInv (w eoc : Nat) (rs : List FileRange) (scnt o p : Nat) (m₀ : Buffer) (T : Nat → Nat)
    (s : FatState) (front : List FileRange) (r : FileRange) (rest : List FileRange) : Prop where
  ranges : rs = front ++ r :: rest
  file : s.file = r.file
  rangeInd : s.rangeInd = front.length
  ent : o + s.i = s.ent * w
  le : s.i ≤ scnt
  clust : s.clust = s.ent + 1
  mem : s.m = m₀.overlay p s.i fun j => some (entryByte w T (o + j))
  table : ∀ c, s.ent ≤ c → c * w < o + scnt → T c = walkEntry eoc s.ent (r :: rest) c

/-- A result of the loop: the table up to `i`, and zeros behind it. -/
structure LoopDone (w scnt o p : Nat) (m₀ : Buffer) (T : Nat → Nat) (i : Nat) (m : Buffer) : Prop where
  le : i ≤ scnt
  mem : m = m₀.overlay p i fun j => some (entryByte w T (o + j))
  zero : ∃ c, o + i = c * w ∧ ∀ x, c ≤ x → x * w < o + scnt → T x = 0

section Loop

variable {w eoc : Nat} {d : VdfDrive} {rs : List FileRange} {scnt o p : Nat} {m₀ : Buffer}
  {T : Nat → Nat} {s : FatState} {front rest : List FileRange} {r : FileRange}

/-- At the end of the request nothing is left to write, and the walk is not at its end. -/
theorem FatInv.done (h : FatInv w eoc rs scnt o p m₀ T s front r rest) (hw : 0 < w)
    (he : s.i = scnt) :
    LoopDone w scnt o p m₀ T s.i s.m ∧ ¬ walkFin s.ent (r :: rest) * w ≤ o + scnt := by
  have hent := h.ent
  refine ⟨⟨h.le, h.mem, s.ent, hent, fun x hx hlt => ?_⟩, fun hle => ?_⟩
  · have := Nat.mul_le_mul_right w hx
    omega
  · rw [← he, hent] at hle
    have h1 := Nat.le_of_mul_le_mul_right hle hw
    have h2 := le_walkFin (walkEnd s.ent r) rest
    have h3 := lt_walkEnd s.ent r
    simp only [walkFin] at h1
    omega

/-- An entry that is stored extends the table. -/
theorem FatInv.store (h : FatInv w eoc rs scnt o p m₀ T s front r rest) {v : Nat}
    (hv : T s.ent = v) : s.m.copy (p + s.i) (Buffer.le w v) =
      m₀.overlay p (s.i + w) fun j => some (entryByte w T (o + j)) := by
  rw [← overlay_entry m₀ T h.ent, hv, h.mem]

/-- One more entry fits, and its number is small. -/
theorem FatInv.room (h : FatInv w eoc rs scnt o p m₀ T s front r rest) (hw : 0 < w)
    (hlen : o + scnt < 2 ^ 31) (hdvd : w ∣ o + scnt) (hlt : s.i < scnt) :
    s.i + w ≤ scnt ∧ o + (s.i + w) = (s.ent + 1) * w ∧ s.ent < 2 ^ 31 := by
  have hent := h.ent
  obtain ⟨q, hq⟩ := hdvd
  have h1 : s.ent * w < q * w := by rw [Nat.mul_comm q w]; omega
  have h2 : (s.ent + 1) * w ≤ q * w := Nat.mul_le_mul_right _ (Nat.lt_of_mul_lt_mul_right h1)
  have h3 := Nat.le_mul_of_pos_right s.ent hw
  rw [Nat.succ_mul, Nat.mul_comm q w] at h2
  rw [Nat.succ_mul]
  omega

/-- The loop writes the walk, up to the end of the request or of the last chain; if the last
chain ends inside the request and `file_cnt` counts more files than there are ranges, it reads past
the array. -/
theorem fatLoop_spec (hr : Ranged d rs) (hw : 0 < w) (hlen : o + scnt < 2 ^ 31)
    (hdvd : w ∣ o + scnt) (fuel : Nat) (s : FatState) (front : List FileRange) (r : FileRange)
    (rest : List FileRange) (h : FatInv w eoc rs scnt o p m₀ T s front r rest)
    (hfuel : scnt - s.i ≤ fuel) :
    (d.fileCnt = rs.length ∨ o + scnt < walkFin s.ent (r :: rest) * w →
      ∃ i m, fatLoop w eoc d scnt p fuel s = .ok (i, m) ∧ LoopDone w scnt o p m₀ T i m) ∧
    (d.fileCnt ≠ rs.length → walkFin s.ent (r :: rest) * w ≤ o + scnt →
      fatLoop w eoc d scnt p fuel s = .error (.rangesIndex rs.length)) := by
  induction fuel generalizing s front rest r with
  | zero =>
    obtain ⟨h1, h2⟩ := h.done hw (by have := h.le; omega)
    exact ⟨fun _ => ⟨_, _, rfl, h1⟩, fun _ h => absurd h h2⟩
  | succ fuel ih =>
    by_cases hlt : s.i < scnt
    · obtain ⟨hle, hent', he⟩ := h.room hw hlen hdvd hlt
      have hent := h.ent
      have hmem : r ∈ rs := by rw [h.ranges]; simp
      have htest : s.ent < subU32 (d.file s.file).end_ 1 ↔ s.ent + 1 < walkEnd s.ent r := by
        rw [h.file, hr.end_ r hmem]
        exact lt_end_iff (by omega) (hr.lt r hmem)
      have hinc : u32 (s.ent + 1) = s.ent + 1 := u32_of_lt (by omega)
      have hinc' : u32 (s.ent + 1 + 1) = s.ent + 1 + 1 := u32_of_lt (by omega)
      have hT0 := h.table s.ent (Nat.le_refl _) (by omega)
      by_cases hin : s.ent + 1 < walkEnd s.ent r
      · -- Inside the chain.
        rw [walkEntry_chain hin, ← h.clust] at hT0
        have hinv : FatInv w eoc rs scnt o p m₀ T
            { s with i := s.i + w, ent := s.ent + 1, clust := s.ent + 1 + 1
                     m := m₀.overlay p (s.i + w) fun j => some (entryByte w T (o + j)) }
            front r rest :=
          { ranges := h.ranges, file := h.file, rangeInd := h.rangeInd, ent := hent', le := hle
            clust := rfl, mem := rfl
            table := fun c hc hcl => by
              rw [walkEntry_succ hin]
              exact h.table c (Nat.le_of_succ_le hc) hcl }
        rw [fatLoop, if_pos hlt, if_pos (htest.mpr hin), h.store hT0, ← (walk_succ hin rest).2,
          h.clust, hinc, hinc']
        exact ih _ front r rest hinv (by dsimp only; omega)
      · -- The end of the chain.
        have hend : walkEnd s.ent r = s.ent + 1 := by have := lt_walkEnd s.ent r; omega
        rw [walkEntry_end hend] at hT0
        have hrun : fatLoop w eoc d scnt p (fuel + 1) s =
            (fatNextFile d s.rangeInd).bind fun next => next.elim
              (pure (s.i + w, m₀.overlay p (s.i + w) fun j => some (entryByte w T (o + j))))
              fun found => fatLoop w eoc d scnt p fuel
                { i := s.i + w, ent := s.ent + 1, clust := s.ent + 1 + 1, file := found.1
                  rangeInd := found.2
                  m := m₀.overlay p (s.i + w) fun j => some (entryByte w T (o + j)) } := by
          rw [fatLoop, if_pos hlt, if_neg (by rw [htest]; exact hin)]
          dsimp only
          rewrite [hinc, hinc', h.store hT0]
          refine bind_congr fun next => ?_
          cases next <;> rfl
        have hrs := h.ranges
        subst hrs
        rw [hrun, h.rangeInd, hr.fatNextFile]
        cases rest with
        | nil =>
          have hfin : walkFin s.ent [r] = s.ent + 1 := by simp [walkFin, hend]
          rw [hfin]
          by_cases hc : d.fileCnt = front.length + 1
          · rw [if_pos hc]
            refine ⟨fun _ => ⟨_, _, rfl, hle, rfl, s.ent + 1, hent', fun x hx hxl => ?_⟩,
              fun h => absurd (by simpa using hc) h⟩
            rw [h.table x (by omega) hxl, walkEntry_next (by omega), walkEntry_nil _ (by omega)]
          · rw [if_neg hc]
            constructor
            · rintro (h | h)
              · exact absurd (by simpa using h) hc
              · omega
            · intro _ _
              simp; rfl
        | cons r' rest =>
          have hfin : walkFin s.ent (r :: r' :: rest) = walkFin (s.ent + 1) (r' :: rest) := by
            simp only [walkFin, hend]
          have hinv : FatInv w eoc (front ++ r :: r' :: rest) scnt o p m₀ T
              { i := s.i + w, ent := s.ent + 1, clust := s.ent + 1 + 1, file := r'.file
                rangeInd := front.length + 1
                m := m₀.overlay p (s.i + w) fun j => some (entryByte w T (o + j)) }
              (front ++ [r]) r' rest :=
            { ranges := by simp, file := rfl, rangeInd := by simp, ent := hent', le := hle
              clust := rfl, mem := rfl
              table := fun c hc hcl => by
                rw [h.table c (Nat.le_of_succ_le hc) hcl,
                  walkEntry_next (by rw [hend]; exact hc), hend] }
          rw [hfin]
          exact ih _ (front ++ [r]) r' rest hinv (by dsimp only; omega)
    · obtain ⟨h1, h2⟩ := h.done hw (by have := h.le; omega)
      rw [fatLoop, if_neg hlt]
      exact ⟨fun _ => ⟨_, _, rfl, h1⟩, fun _ h => absurd h h2⟩

end Loop

/-! ## The start of a request -/

/-- `finish` keeps what lies in front of its pointer. -/
theorem finishFat_below {len i q x : Nat} {m m' : Buffer} (h : finishFat len i q m = .ok m')
    (hx : x < q) : m' x = m x := by
  unfold finishFat at h
  dsimp only at h
  split at h
  · cases h
    rfl
  · split at h
    · cases h
    · cases h
      exact if_neg (by omega)

theorem finishFat_eq {scnt i q : Nat} {m : Buffer} (hle : i ≤ scnt) (hlt : scnt < 2 ^ 31) :
    finishFat scnt i q m = .ok (m.fill q (scnt - i) 0) := by
  have hn : toI32 (subU32 scnt i) = (scnt - i : Nat) := by
    rw [subU32_of_le (by omega) hle, toI32, if_pos (by omega)]
  unfold finishFat
  dsimp only
  rw [hn]
  by_cases h0 : scnt - i = 0
  · rw [h0, fill_zero]; rfl
  · rw [if_neg (by omega), if_neg (by omega)]; rfl

/-- The first entry that a request looks up. -/
def firstEntry (w bps sector : Nat) : Nat := if sector = 0 then 2 else sector * (bps / w)

section Request

variable {w media eoc : Nat} {d : VdfDrive} {rs : List FileRange} {sector scnt p : Nat} {m : Buffer}
  {T : Nat → Nat}

/-- The length of a request and the bytes before its first entry. -/
structure FatRequest (w : Nat) (d : VdfDrive) (sector scnt : Nat) : Prop where
  pos : 0 < scnt
  width : 0 < w
  dvd : w ∣ d.bps
  two : 2 * w ≤ d.bps
  lt : (sector + scnt) * d.bps < 2 ^ 31

/-- The memory before the lookup holds the start of the table. -/
theorem FatRequest.start (h : FatRequest w d sector scnt)
    (hT : sector = 0 → T 0 = media ∧ T 1 = eoc) :
    ∃ i m₁, (if sector = 0 then (2 * w, 2, (m.copy p (Buffer.le w media)).copy (p + w) (Buffer.le w eoc))
        else (0, u32 (sector * (d.bps / w)), m)) = (i, firstEntry w d.bps sector, m₁) ∧
      i ≤ scnt * d.bps ∧ sector * d.bps + i = firstEntry w d.bps sector * w ∧
      m₁ = m.overlay p i fun j => some (entryByte w T (sector * d.bps + j)) := by
  have hlt := h.lt
  have hle : d.bps ≤ scnt * d.bps := Nat.le_mul_of_pos_left _ h.pos
  rw [Nat.add_mul] at hlt
  unfold firstEntry
  by_cases h0 : sector = 0
  · subst h0
    obtain ⟨h1, h2⟩ := hT rfl
    refine ⟨2 * w, _, by rw [if_pos rfl, if_pos rfl], by have := h.two; omega, by simp, ?_⟩
    have e1 := overlay_entry m (i := 0) (o := 0) (c := 0) (p := p) (w := w) T (by simp)
    have e2 := overlay_entry m (i := w) (o := 0) (c := 1) (p := p) (w := w) T (by simp)
    rw [overlay_zero, h1, Nat.add_zero, Nat.zero_add] at e1
    rw [h2, ← e1] at e2
    rw [Nat.zero_mul, Nat.two_mul, ← e2]
  · have hmul : sector * (d.bps / w) * w = sector * d.bps := by
      rw [Nat.mul_assoc, Nat.div_mul_cancel h.dvd]
    have := Nat.le_mul_of_pos_right (sector * (d.bps / w)) h.width
    refine ⟨0, m, ?_, Nat.zero_le _, by rw [if_neg h0]; omega, by rw [overlay_zero]⟩
    rw [if_neg h0, if_neg h0, u32_of_lt (by omega)]

/-- A request behind the used clusters. -/
theorem readSectorFatWide_free (h : FatRequest w d sector scnt)
    (hT : sector = 0 → T 0 = media ∧ T 1 = eoc)
    (he : findFileFatEntry d (firstEntry w d.bps sector) = .ok none)
    (hz : ∀ x, firstEntry w d.bps sector ≤ x → x * w < (sector + scnt) * d.bps → T x = 0) :
    readSectorFatWide w media eoc d sector scnt m p =
      .ok (m.overlay p (scnt * d.bps) fun j => some (entryByte w T (sector * d.bps + j))) := by
  obtain ⟨i, m₁, e, hi, ho, hm⟩ := h.start (m := m) (p := p) hT
  have hlt := h.lt
  rw [Nat.add_mul] at hlt
  have hlen : u32 (scnt * d.bps) = scnt * d.bps := u32_of_lt (by omega)
  unfold readSectorFatWide
  simp only [hlen, e, he]
  show finishFat _ _ _ _ = _
  rw [finishFat_eq hi (by omega), hm, overlay_entry_zero m T ho h.width, Nat.add_sub_cancel' hi]
  intro x hx hxl
  refine hz x hx ?_
  rw [Nat.add_mul]
  omega

/-- A request inside the used clusters: `r` is the first range that ends behind its first entry. -/
theorem readSectorFatWide_walk (h : FatRequest w d sector scnt) (hr : Ranged d rs)
    (hT : sector = 0 → T 0 = media ∧ T 1 = eoc) {front rest : List FileRange} {r : FileRange}
    (hrs : rs = front ++ r :: rest)
    (he : findFileFatEntry d (firstEntry w d.bps sector) = .ok (some (r.file, front.length)))
    (hwalk : ∀ c, firstEntry w d.bps sector ≤ c → c * w < (sector + scnt) * d.bps →
      T c = walkEntry eoc (firstEntry w d.bps sector) (r :: rest) c) :
    (d.fileCnt = rs.length ∨
        (sector + scnt) * d.bps < walkFin (firstEntry w d.bps sector) (r :: rest) * w →
      readSectorFatWide w media eoc d sector scnt m p =
        .ok (m.overlay p (scnt * d.bps) fun j => some (entryByte w T (sector * d.bps + j)))) ∧
    (d.fileCnt ≠ rs.length →
        walkFin (firstEntry w d.bps sector) (r :: rest) * w ≤ (sector + scnt) * d.bps →
      readSectorFatWide w media eoc d sector scnt m p = .error (.rangesIndex rs.length)) := by
  obtain ⟨i, m₁, e, hi, ho, hm⟩ := h.start (m := m) (p := p) hT
  have hlt := h.lt
  have hw := h.width
  have hsum : (sector + scnt) * d.bps = sector * d.bps + scnt * d.bps := Nat.add_mul ..
  rw [hsum] at hlt hwalk ⊢
  have hlen : u32 (scnt * d.bps) = scnt * d.bps := u32_of_lt (by omega)
  have hent := Nat.le_mul_of_pos_right (firstEntry w d.bps sector) hw
  have hdvd : w ∣ sector * d.bps + scnt * d.bps :=
    Nat.dvd_add (h.dvd.mul_left _) (h.dvd.mul_left _)
  have hinv : FatInv w eoc rs (scnt * d.bps) (sector * d.bps) p m T
      { i, ent := firstEntry w d.bps sector, clust := firstEntry w d.bps sector + 1
        file := r.file, rangeInd := front.length, m := m₁ } front r rest :=
    { ranges := hrs, file := rfl, rangeInd := rfl, ent := ho, le := hi, clust := rfl, mem := hm
      table := hwalk }
  have hspec := fatLoop_spec hr hw hlt hdvd (scnt * d.bps) _ front r rest hinv
    (Nat.sub_le _ _)
  have hrun : readSectorFatWide w media eoc d sector scnt m p =
      (fatLoop w eoc d (scnt * d.bps) p (scnt * d.bps)
        { i, ent := firstEntry w d.bps sector, clust := firstEntry w d.bps sector + 1
          file := r.file, rangeInd := front.length, m := m₁ }).bind fun x =>
        finishFat (scnt * d.bps) x.1 (p + x.1) x.2 := by
    unfold readSectorFatWide
    simp only [hlen, e, he]
    rw [u32_of_lt (by omega : firstEntry w d.bps sector + 1 < 2 ^ 32)]
    rfl
  rw [hrun]
  constructor
  · intro hok
    obtain ⟨i', m', hl, hle, hmem, c, hc, hz⟩ := hspec.1 hok
    rw [hl]
    show finishFat _ _ _ _ = _
    rw [finishFat_eq hle (by omega), hmem, overlay_entry_zero m T hc hw, Nat.add_sub_cancel' hle]
    intro x hx hxl
    exact hz x hx (by omega)
  · intro hne hfin
    rw [hspec.2 hne hfin]
    rfl

/-- What the lookup of the first entry gives. -/
theorem findFileFatEntry_spec (hr : Ranged d rs) {ent : Nat} (he : ent < d.dataClusterEnd) :
    (∀ front r rest, rs = front ++ r :: rest → (∀ x ∈ front, x.fatend ≤ ent) → ent < r.fatend →
      findFileFatEntry d ent = .ok (some (r.file, front.length))) ∧
    ((∀ x ∈ rs, x.fatend ≤ ent) → findFileFatEntry d ent =
      if d.fileCnt = rs.length then .ok none else .error (.rangesIndex rs.length)) := by
  have h := findRangeLoop_spec hr.ranges FileRange.fatend ent [] rs rfl d.fileCnt
    (by simpa using hr.count)
  rw [findFileFatEntry, if_neg (by omega)]
  simpa only [List.length_nil, Nat.zero_add] using h

end Request

end Vdf
