import Vdf.FatWalk
import Vdf.Lib.Packed

/-!
# The FAT12 loop

The loop goes over pairs of entries. The second entry of a pair clears the lower half of the byte
that it shares with the first one when it lies inside a chain, so the first one keeps only its
lower eight bits (`writtenEntry`). The guards against the end of the request are exact for an
end-of-chain mark and one byte early for any other entry. `WalkAt` says where the walk over the
ranges stands; the loop needs nothing else of them.
-/

namespace Vdf

open Word Buffer

/-! ## Where the walk stands -/

/-- The walk stands at entry `x` of the file, `ends` are the ends of the chains and `fin` is the
last of them. -/
def WalkAt (rs : List FileRange) (ends : List Nat) (fin x : Nat) (file : FileId) (rangeInd : Nat) :
    Prop :=
  ∃ front r rest, rs = front ++ r :: rest ∧ file = r.file ∧ rangeInd = front.length ∧
    walkFin x (r :: rest) = fin ∧ ∀ c, x < c → (c ∈ walkEnds x (r :: rest) ↔ c ∈ ends)

theorem walkFin_mem (x : Nat) (r : FileRange) (rest : List FileRange) :
    walkFin x (r :: rest) ∈ walkEnds x (r :: rest) := by
  induction rest generalizing x r with
  | nil => exact List.mem_singleton.2 rfl
  | cons r' rest ih => exact List.mem_cons_of_mem _ (ih (walkEnd x r) r')

namespace WalkAt

variable {d : VdfDrive} {rs : List FileRange} {ends : List Nat} {fin x : Nat} {file : FileId}
  {rangeInd : Nat}

theorem of_range {front rest : List FileRange} {r : FileRange} (h : rs = front ++ r :: rest)
    (x : Nat) :
    WalkAt rs (walkEnds x (r :: rest)) (walkFin x (r :: rest)) x r.file front.length :=
  ⟨front, r, rest, h, rfl, rfl, rfl, fun _ _ => Iff.rfl⟩

/-- The walk is not at its end. -/
theorem lt (h : WalkAt rs ends fin x file rangeInd) : x < fin := by
  obtain ⟨front, r, rest, -, -, -, rfl, -⟩ := h
  exact Nat.lt_of_lt_of_le (lt_walkEnd x r) (le_walkFin _ rest)

theorem mem_iff {rest : List FileRange} {r : FileRange}
    (he : ∀ c, x < c → (c ∈ walkEnds x (r :: rest) ↔ c ∈ ends)) :
    x + 1 ∈ ends ↔ walkEnd x r = x + 1 := by
  rw [← he (x + 1) (Nat.lt_succ_self x)]
  have hlt := lt_walkEnd x r
  constructor
  · intro hm
    rcases List.mem_cons.mp hm with e | hm
    · exact e.symm
    · have := (walkEnds_bounds _ rest _ hm).1
      omega
  · intro e
    rw [walkEnds, e]
    exact List.mem_cons_self ..

/-- No chain ends behind the last one. -/
theorem le_of_mem (h : WalkAt rs ends fin x file rangeInd) {c : Nat} (hx : x < c)
    (hc : c ∈ ends) : c ≤ fin := by
  obtain ⟨front, r, rest, -, -, -, rfl, he⟩ := h
  exact (walkEnds_bounds x (r :: rest) c ((he c hx).2 hc)).2

/-- The last chain ends at the end. -/
theorem fin_mem (h : WalkAt rs ends fin x file rangeInd) : fin ∈ ends := by
  have hlt := h.lt
  obtain ⟨front, r, rest, -, -, -, rfl, he⟩ := h
  exact (he _ hlt).1 (walkFin_mem x r rest)

/-- The comparison of the loop finds the end of a chain. -/
theorem test (h : WalkAt rs ends fin x file rangeInd) (hr : Ranged d rs) (hx : x + 1 < 2 ^ 32) :
    x < subU32 (d.file file).end_ 1 ↔ x + 1 ∉ ends := by
  obtain ⟨front, r, rest, rfl, rfl, -, -, he⟩ := h
  have hm : r ∈ front ++ r :: rest := by simp
  have hlt := lt_walkEnd x r
  rw [hr.end_ r hm, lt_end_iff hx (hr.lt r hm), mem_iff he]
  omega

/-- Inside a chain the walk stays in its range. -/
theorem succ (h : WalkAt rs ends fin x file rangeInd) (hx : x + 1 ∉ ends) :
    WalkAt rs ends fin (x + 1) file rangeInd := by
  obtain ⟨front, r, rest, e1, e2, e3, e4, he⟩ := h
  have hlt := lt_walkEnd x r
  rw [mem_iff he] at hx
  obtain ⟨h1, h2⟩ := walk_succ (by omega : x + 1 < walkEnd x r) rest
  exact ⟨front, r, rest, e1, e2, e3, h2.trans e4, fun c hc => by rw [h1]; exact he c (by omega)⟩

/-- At the end of a chain the walk goes on to the next range, or past the array. -/
theorem next (h : WalkAt rs ends fin x file rangeInd) (hr : Ranged d rs) (hx : x + 1 ∈ ends) :
    (x + 1 = fin ∧ fatNextFile d rangeInd =
      if d.fileCnt = rs.length then .ok none else .error (.rangesIndex rs.length)) ∨
    (x + 1 < fin ∧ ∃ file' rangeInd', fatNextFile d rangeInd = .ok (some (file', rangeInd')) ∧
      WalkAt rs ends fin (x + 1) file' rangeInd') := by
  obtain ⟨front, r, rest, rfl, rfl, rfl, rfl, he⟩ := h
  have hend := (mem_iff he).mp hx
  rw [hr.fatNextFile]
  cases rest with
  | nil => left; simp [walkFin, hend]
  | cons r' rest =>
    have hfin : walkFin x (r :: r' :: rest) = walkFin (x + 1) (r' :: rest) := by
      simp only [walkFin, hend]
    have hat : WalkAt (front ++ r :: r' :: rest) ends (walkFin x (r :: r' :: rest)) (x + 1)
        r'.file (front.length + 1) := by
      refine ⟨front ++ [r], r', rest, by simp, rfl, by simp, hfin.symm, fun c hc => ?_⟩
      have e : walkEnds x (r :: r' :: rest) = (x + 1) :: walkEnds (x + 1) (r' :: rest) := by
        rw [← hend]; rfl
      rw [← he c (by omega), e, List.mem_cons]
      constructor
      · exact .inr
      · rintro (e | hm)
        · omega
        · exact hm
    exact .inr ⟨hat.lt, _, _, rfl, hat⟩

end WalkAt

/-! ## Entries -/

/-- The entry of a walk: the end of a chain, the next entry, or free. -/
def walkValue (ends : List Nat) (fin x : Nat) : Nat :=
  if x + 1 ∈ ends then 0xfff else if x < fin then x + 1 else 0

/-- What the loop leaves of the first entry of a pair (`half = false`) and of the second. -/
def writtenEntry (ends : List Nat) (fin x : Nat) (half : Bool) : Nat :=
  if half = false ∧ x + 1 < fin ∧ x + 2 ∉ ends then walkValue ends fin x % 256
  else walkValue ends fin x

/-! ## One step -/

section Step

variable {d : VdfDrive} {rs : List FileRange} {ends : List Nat} {fin scnt fuel : Nat}
  {s : Fat12State}

/-- The memory after the first entry of a pair. -/
def evenMem (ends : List Nat) (fin scnt : Nat) (s : Fat12State) : Buffer :=
  let v := walkValue ends fin s.ent
  let m := s.m.set s.buffer (UInt8.ofNat v)
  if s.i + (if s.ent + 1 ∈ ends then 1 else 2) < scnt then
    m.set (s.buffer + 1) (UInt8.ofNat (v / 256 % 16))
  else m

/-- The first entry of a pair. -/
theorem fat12Loop_even (scnt fuel : Nat) (hr : Ranged d rs)
    (hat : WalkAt rs ends fin s.ent s.file s.rangeInd) (hc : s.clust = s.ent + 1)
    (hx : s.ent + 2 < 2 ^ 32) (hlt : s.i < scnt) (hh : s.halfent = false) :
    (s.ent + 1 = fin → s.ent + 1 ∈ ends ∧ fat12Loop d scnt (fuel + 1) s =
      if d.fileCnt = rs.length then .ok (s.i + 2, s.buffer + 2, evenMem ends fin scnt s)
      else .error (.rangesIndex rs.length)) ∧
    (s.ent + 1 < fin → ∃ file rangeInd, WalkAt rs ends fin (s.ent + 1) file rangeInd ∧
      fat12Loop d scnt (fuel + 1) s = fat12Loop d scnt fuel
        { i := s.i + 1, buffer := s.buffer + 1, ent := s.ent + 1, clust := s.ent + 2
          halfent := true, file, rangeInd, m := evenMem ends fin scnt s }) := by
  obtain ⟨i, buffer, ent, clust, halfent, file, rangeInd, m⟩ := s
  simp only at hat hc hx hlt hh
  subst hc hh
  dsimp only
  have htest := hat.test hr (by omega)
  have h1 : u32 (ent + 1) = ent + 1 := u32_of_lt (by omega)
  have h2 : u32 (ent + 1 + 1) = ent + 2 := u32_of_lt (by omega)
  by_cases hend : ent + 1 ∈ ends
  · have hv : walkValue ends fin ent = 0xfff := if_pos hend
    have hmem : evenMem ends fin scnt ⟨i, buffer, ent, ent + 1, false, file, rangeInd, m⟩ =
        if i < scnt - 1 then (m.set buffer 0xff).set (buffer + 1) 0xf else m.set buffer 0xff := by
      simp only [evenMem, hv, hend, ↓reduceIte]
      by_cases hg : i < scnt - 1
      · rw [if_pos hg, if_pos (by omega)]; rfl
      · rw [if_neg hg, if_neg (by omega)]; rfl
    have hrun : fat12Loop d scnt (fuel + 1) ⟨i, buffer, ent, ent + 1, false, file, rangeInd, m⟩ =
        (fatNextFile d rangeInd).bind fun next => next.elim
          (.ok (i + 2, buffer + 2,
            evenMem ends fin scnt ⟨i, buffer, ent, ent + 1, false, file, rangeInd, m⟩))
          fun found => fat12Loop d scnt fuel
            { i := i + 1, buffer := buffer + 1, ent := ent + 1, clust := ent + 2
              halfent := true, file := found.1, rangeInd := found.2
              m := evenMem ends fin scnt
                ⟨i, buffer, ent, ent + 1, false, file, rangeInd, m⟩ } := by
      rw [hmem, fat12Loop, if_pos hlt, if_neg (by rw [htest]; exact fun h => h hend)]
      by_cases hg : i < scnt - 1
      · simp only [fat12End, Bool.false_eq_true, ↓reduceIte, hg, h1, h2]
        refine bind_congr fun next => ?_
        cases next <;> rfl
      · simp only [fat12End, Bool.false_eq_true, ↓reduceIte, hg, h1, h2]
        refine bind_congr fun next => ?_
        cases next <;> rfl
    rw [hrun]
    rcases hat.next hr hend with ⟨e, hn⟩ | ⟨e, file', ri', hn, hat'⟩
    · refine ⟨fun _ => ⟨hend, ?_⟩, fun h => by omega⟩
      rw [hn]
      split <;> rfl
    · refine ⟨fun h => by omega, fun _ => ⟨file', ri', hat', ?_⟩⟩
      rw [hn]
      rfl
  · have hat' := hat.succ hend
    have hlt' := hat'.lt
    have hv : walkValue ends fin ent = ent + 1 := by
      rw [walkValue, if_neg hend, if_pos (by omega)]
    have hmem : evenMem ends fin scnt ⟨i, buffer, ent, ent + 1, false, file, rangeInd, m⟩ =
        if i + 1 < scnt - 1 then
          (m.set buffer (UInt8.ofNat (ent + 1))).set (buffer + 1)
            (UInt8.ofNat ((ent + 1) >>> 8) &&& 0xf)
        else m.set buffer (UInt8.ofNat (ent + 1)) := by
      simp only [evenMem, hv, hend, ↓reduceIte, ofNat_and_low, Nat.shiftRight_eq_div_pow]
      by_cases hg : i + 1 < scnt - 1
      · rw [if_pos hg, if_pos (by omega)]
      · rw [if_neg hg, if_neg (by omega)]
    refine ⟨fun h => by omega, fun _ => ⟨file, rangeInd, hat', ?_⟩⟩
    rw [hmem, fat12Loop, if_pos hlt, if_pos (htest.mpr hend)]
    by_cases hg : i + 1 < scnt - 1
    · simp only [fat12Chain, Bool.false_eq_true, ↓reduceIte, hg, h1, h2, Bool.not_false]
    · simp only [fat12Chain, Bool.false_eq_true, ↓reduceIte, hg, h1, h2, Bool.not_false]

/-- The bytes, the pointer and the memory after the second entry of a pair. -/
def oddDone (ends : List Nat) (scnt : Nat) (s : Fat12State) : Nat × Nat × Buffer :=
  if s.ent + 1 ∈ ends then
    let m := s.m.set s.buffer (s.m s.buffer ||| 0xf0)
    if s.i + 1 < scnt then (s.i + 2, s.buffer + 2, m.set (s.buffer + 1) 0xff)
    else (s.i + 2, s.buffer + 1, m)
  else
    let m := s.m.set s.buffer
      ((s.m s.buffer &&& (0xf0 : UInt8)) ||| (UInt8.ofNat ((s.ent + 1) <<< 4) &&& 0xf0))
    if s.i + 2 < scnt then
      (s.i + 2, s.buffer + 2, m.set (s.buffer + 1) (UInt8.ofNat ((s.ent + 1) / 16)))
    else (s.i + 1, s.buffer + 1, m)

/-- The second entry of a pair. -/
theorem fat12Loop_odd (scnt fuel : Nat) (hr : Ranged d rs)
    (hat : WalkAt rs ends fin s.ent s.file s.rangeInd) (hc : s.clust = s.ent + 1)
    (hx : s.ent + 2 < 2 ^ 32) (hlt : s.i < scnt) (hh : s.halfent = true) :
    (s.ent + 1 = fin → s.ent + 1 ∈ ends ∧ fat12Loop d scnt (fuel + 1) s =
      if d.fileCnt = rs.length then .ok (oddDone ends scnt s)
      else .error (.rangesIndex rs.length)) ∧
    (s.ent + 1 < fin → ∃ file rangeInd, WalkAt rs ends fin (s.ent + 1) file rangeInd ∧
      fat12Loop d scnt (fuel + 1) s = fat12Loop d scnt fuel
        { i := (oddDone ends scnt s).1, buffer := (oddDone ends scnt s).2.1, ent := s.ent + 1
          clust := s.ent + 2, halfent := false, file, rangeInd
          m := (oddDone ends scnt s).2.2 }) := by
  obtain ⟨i, buffer, ent, clust, halfent, file, rangeInd, m⟩ := s
  simp only at hat hc hx hlt hh
  subst hc hh
  dsimp only
  have htest := hat.test hr (by omega)
  have h1 : u32 (ent + 1) = ent + 1 := u32_of_lt (by omega)
  have h2 : u32 (ent + 1 + 1) = ent + 2 := u32_of_lt (by omega)
  by_cases hend : ent + 1 ∈ ends
  · have hrun : fat12Loop d scnt (fuel + 1) ⟨i, buffer, ent, ent + 1, true, file, rangeInd, m⟩ =
        (fatNextFile d rangeInd).bind fun next => next.elim
          (.ok (oddDone ends scnt ⟨i, buffer, ent, ent + 1, true, file, rangeInd, m⟩))
          fun found =>
            let r := oddDone ends scnt ⟨i, buffer, ent, ent + 1, true, file, rangeInd, m⟩
            fat12Loop d scnt fuel
              { i := r.1, buffer := r.2.1, ent := ent + 1, clust := ent + 2
                halfent := false, file := found.1, rangeInd := found.2, m := r.2.2 } := by
      rw [fat12Loop, if_pos hlt, if_neg (by rw [htest]; exact fun h => h hend)]
      by_cases hg : i < scnt - 1
      · have hg' : i + 1 < scnt := by omega
        simp only [fat12End, oddDone, ↓reduceIte, hg, hg', hend, h1, h2]
        refine bind_congr fun next => ?_
        cases next <;> rfl
      · have hg' : ¬ i + 1 < scnt := by omega
        simp only [fat12End, oddDone, ↓reduceIte, hg, hg', hend, h1, h2]
        refine bind_congr fun next => ?_
        cases next <;> rfl
    rw [hrun]
    rcases hat.next hr hend with ⟨e, hn⟩ | ⟨e, file', ri', hn, hat'⟩
    · refine ⟨fun _ => ⟨hend, ?_⟩, fun h => by omega⟩
      rw [hn]
      split <;> rfl
    · refine ⟨fun h => by omega, fun _ => ⟨file', ri', hat', ?_⟩⟩
      rw [hn]
      rfl
  · have hat' := hat.succ hend
    have hlt' := hat'.lt
    refine ⟨fun h => by omega, fun _ => ⟨file, rangeInd, hat', ?_⟩⟩
    rw [fat12Loop, if_pos hlt, if_pos (htest.mpr hend)]
    by_cases hg : i + 1 < scnt - 1
    · have hg' : i + 2 < scnt := by omega
      simp only [fat12Chain, oddDone, ↓reduceIte, hg, hg', hend, h1, h2, Bool.not_true, set_self,
        set_set, Nat.shiftRight_eq_div_pow]
    · have hg' : ¬ i + 2 < scnt := by omega
      simp only [fat12Chain, oddDone, ↓reduceIte, hg, hg', hend, h1, h2, Bool.not_true, set_self,
        set_set]

end Step

/-! ## What is written stays -/

section Below

variable {d : VdfDrive} {scnt fuel : Nat} {s : Fat12State}

/-- The pointer moves on, and leaves what lies in front of it. -/
def Fat12State.Below (s s' : Fat12State) : Prop :=
  s.buffer ≤ s'.buffer ∧ ∀ x < s.buffer, s'.m x = s.m x

theorem fat12Chain_below (scnt : Nat) (s : Fat12State) : s.Below (fat12Chain scnt s) := by
  unfold fat12Chain Fat12State.Below
  cases s.halfent with
  | true =>
    simp only [↓reduceIte]
    split <;> exact ⟨by dsimp only; omega, fun x hx => by simp (disch := omega) only [set_outside]⟩
  | false =>
    simp only [Bool.false_eq_true, ↓reduceIte]
    split <;> exact ⟨by dsimp only; omega, fun x hx => by simp (disch := omega) only [set_outside]⟩

theorem fat12End_below (scnt : Nat) (s : Fat12State) : s.Below (fat12End scnt s) := by
  unfold fat12End Fat12State.Below
  cases s.halfent with
  | true =>
    simp only [↓reduceIte]
    split <;> exact ⟨by dsimp only; omega, fun x hx => by simp (disch := omega) only [set_outside]⟩
  | false =>
    simp only [Bool.false_eq_true, ↓reduceIte]
    split <;> exact ⟨by dsimp only; omega, fun x hx => by simp (disch := omega) only [set_outside]⟩

/-- So does the loop. -/
theorem fat12Loop_below {i q : Nat} {m : Buffer} (h : fat12Loop d scnt fuel s = .ok (i, q, m)) :
    s.buffer ≤ q ∧ ∀ x < s.buffer, m x = s.m x := by
  induction fuel generalizing s with
  | zero =>
    cases h
    exact ⟨Nat.le_refl _, fun _ _ => rfl⟩
  | succ fuel ih =>
    have hkeep : ∀ {s' s'' : Fat12State}, s.Below s' →
        fat12Loop d scnt fuel s'' = .ok (i, q, m) → s''.buffer = s'.buffer → s''.m = s'.m →
        s.buffer ≤ q ∧ ∀ x < s.buffer, m x = s.m x := by
      intro s' s'' hb hrun hbuffer hm
      obtain ⟨h1, h2⟩ := ih hrun
      rw [hbuffer] at h1 h2
      rw [hm] at h2
      exact ⟨Nat.le_trans hb.1 h1, fun x hx =>
        (h2 x (Nat.lt_of_lt_of_le hx hb.1)).trans (hb.2 x hx)⟩
    rw [fat12Loop] at h
    split at h
    · split at h
      · exact hkeep (fat12Chain_below scnt s) h rfl rfl
      · have hb := fat12End_below scnt s
        generalize fat12End scnt s = e at h hb
        dsimp only at h
        cases hn : fatNextFile d e.rangeInd with
        | error f =>
          rw [hn] at h
          cases h
        | ok o =>
          rw [hn] at h
          cases o with
          | none =>
            cases hh : e.halfent with
            | true =>
              simp only [hh, bind, Except.bind, ↓reduceIte, pure, Except.pure] at h
              cases h
              exact hb
            | false =>
              simp only [hh, bind, Except.bind, pure, Except.pure] at h
              cases h
              exact ⟨Nat.le_succ_of_le hb.1, hb.2⟩
          | some next => exact hkeep hb h rfl rfl
    · cases h
      exact ⟨Nat.le_refl _, fun _ _ => rfl⟩

/-- The byte that a request shares with the entry in front of it keeps half of what it was. -/
theorem fat12Loop_half {rs : List FileRange} {ends : List Nat} {fin i q : Nat} {m : Buffer}
    (hr : Ranged d rs) (hat : WalkAt rs ends fin s.ent s.file s.rangeInd) (hc : s.clust = s.ent + 1)
    (hx : s.ent + 2 < 2 ^ 32) (hlt : s.i < scnt) (hh : s.halfent = true)
    (h : fat12Loop d scnt (fuel + 1) s = .ok (i, q, m)) :
    s.buffer < q ∧ m s.buffer = if s.ent + 1 ∈ ends then s.m s.buffer ||| 0xf0
      else (s.m s.buffer &&& (0xf0 : UInt8)) ||| (UInt8.ofNat ((s.ent + 1) <<< 4) &&& 0xf0) := by
  have hdone : s.buffer < (oddDone ends scnt s).2.1 ∧ (oddDone ends scnt s).2.2 s.buffer =
      if s.ent + 1 ∈ ends then s.m s.buffer ||| 0xf0
      else (s.m s.buffer &&& (0xf0 : UInt8)) ||| (UInt8.ofNat ((s.ent + 1) <<< 4) &&& 0xf0) := by
    have hne : s.buffer ≠ s.buffer + 1 := by omega
    unfold oddDone
    by_cases hend : s.ent + 1 ∈ ends
    · rw [if_pos hend, if_pos hend]
      split
      · exact ⟨by dsimp only; omega, (set_outside hne).trans (set_self ..)⟩
      · exact ⟨Nat.lt_succ_self _, set_self ..⟩
    · rw [if_neg hend, if_neg hend]
      split
      · exact ⟨by dsimp only; omega, (set_outside hne).trans (set_self ..)⟩
      · exact ⟨Nat.lt_succ_self _, set_self ..⟩
  obtain ⟨hlast, hnext⟩ := fat12Loop_odd scnt fuel hr hat hc hx hlt hh
  have hfin := hat.lt
  rcases Nat.lt_or_ge (s.ent + 1) fin with hgo | hstop
  · obtain ⟨file, rangeInd, -, hrun⟩ := hnext hgo
    rw [hrun] at h
    obtain ⟨hq, hkeep⟩ := fat12Loop_below h
    exact ⟨Nat.lt_of_lt_of_le hdone.1 hq, (hkeep _ hdone.1).trans hdone.2⟩
  · rw [(hlast (by omega)).2] at h
    split at h
    · have e : oddDone ends scnt s = (i, q, m) := Except.ok.inj h
      rw [e] at hdone
      exact hdone
    · cases h

end Below

/-! ## Pairs -/

/-- The loop stands at pair `k` of a request to `p` that starts at entry `a`, and has written the
table `T` up to there. -/
structure Fat12Head (rs : List FileRange) (ends : List Nat) (fin a p : Nat) (m₀ : Buffer)
    (T : Nat → Nat) (k : Nat) (s : Fat12State) : Prop where
  walk : WalkAt rs ends fin (a + 2 * k) s.file s.rangeInd
  i : s.i = 3 * k
  buffer : s.buffer = p + 3 * k
  ent : s.ent = a + 2 * k
  clust : s.clust = a + 2 * k + 1
  halfent : s.halfent = false
  mem : s.m = m₀.overlay p (3 * k) fun j => some (packedByte T j)

/-- From pair `k` on the table is what the loop leaves of the walk. -/
def Fat12Table (ends : List Nat) (fin a : Nat) (T : Nat → Nat) (k : Nat) : Prop :=
  ∀ x, k ≤ x → T (2 * x) = writtenEntry ends fin (a + 2 * x) false ∧
    T (2 * x + 1) = writtenEntry ends fin (a + 2 * x + 1) true

namespace Fat12Head

variable {d : VdfDrive} {rs : List FileRange} {ends : List Nat} {fin a p scnt k fuel : Nat}
  {m₀ : Buffer} {T : Nat → Nat} {s : Fat12State}

/-- The state between the two entries of pair `k`. -/
def mid (ends : List Nat) (fin a p scnt k : Nat) (s : Fat12State) (file : FileId) (rangeInd : Nat) :
    Fat12State :=
  { i := 3 * k + 1, buffer := p + 3 * k + 1, ent := a + 2 * k + 1, clust := a + 2 * k + 2
    halfent := true, file, rangeInd, m := evenMem ends fin scnt s }

section Memory

variable (h : Fat12Head rs ends fin a p m₀ T k s) (hT : Fat12Table ends fin a T k)
include h hT

/-- The byte of the first entry. -/
theorem first : s.m.set s.buffer (UInt8.ofNat (walkValue ends fin s.ent)) =
    m₀.overlay p (3 * k + 1) fun j => some (packedByte T j) := by
  rw [h.mem, h.buffer, h.ent]
  refine overlay_snoc m₀ rfl ?_
  rw [packedByte_zero, (hT k (Nat.le_refl k)).1, writtenEntry]
  congr 1
  split
  · exact ofNat_eq_of_mod (Nat.mod_mod _ _)
  · rfl

/-- The memory after the first entry, when the second byte of the pair is written. -/
theorem evenMem_eq (hg : 3 * k + (if a + 2 * k + 1 ∈ ends then 1 else 2) < scnt) :
    evenMem ends fin scnt s = (m₀.overlay p (3 * k + 1) fun j => some (packedByte T j)).set
      (p + 3 * k + 1) (UInt8.ofNat (walkValue ends fin (a + 2 * k) / 256 % 16)) := by
  have hfirst := h.first hT
  simp only [evenMem]
  rw [hfirst, h.i, h.ent, if_pos hg, h.buffer]

/-- The memory after the first entry, when the second byte of the pair is not written. -/
theorem evenMem_eq_of_le (hg : scnt ≤ 3 * k + (if a + 2 * k + 1 ∈ ends then 1 else 2)) :
    evenMem ends fin scnt s = m₀.overlay p (3 * k + 1) fun j => some (packedByte T j) := by
  have hfirst := h.first hT
  simp only [evenMem]
  rw [hfirst, h.i, h.ent, if_neg (by omega)]

end Memory

/-- The byte that the entries share, after the second one. -/
theorem shared (hT : Fat12Table ends fin a T k) (hlt : a + 2 * k + 1 < fin) {b : UInt8}
    (hb : b = UInt8.ofNat (walkValue ends fin (a + 2 * k) / 256 % 16)) :
    (if a + 2 * k + 2 ∈ ends then b ||| 0xf0
      else (b &&& (0xf0 : UInt8)) ||| (UInt8.ofNat ((a + 2 * k + 2) <<< 4) &&& 0xf0)) =
    packedByte T (3 * k + 1) := by
  obtain ⟨e0, e1⟩ := hT k (Nat.le_refl k)
  rw [packedByte_one, e0, e1, hb]
  simp only [writtenEntry, Bool.true_eq_false, false_and, ↓reduceIte, true_and, hlt]
  by_cases hend : a + 2 * k + 2 ∈ ends
  · have hv : walkValue ends fin (a + 2 * k + 1) = 0xfff := if_pos hend
    rw [if_pos hend, if_neg (by simp [hend]), ofNat_or_high, hv]
  · have hv : walkValue ends fin (a + 2 * k + 1) = a + 2 * k + 2 := by
      rw [walkValue, if_neg hend, if_pos hlt]
    rw [if_neg hend, if_pos hend, ofNat_and_high, ofNat_shiftLeft_and, hv]
    have e : walkValue ends fin (a + 2 * k) % 256 / 256 = 0 := by omega
    rw [e, Nat.zero_mod, Nat.zero_add]
    exact UInt8.zero_or

/-- The memory after the byte that the entries share. -/
theorem shared_mem (hT : Fat12Table ends fin a T k) (hlt : a + 2 * k + 1 < fin) {m : Buffer}
    (hm : m = (m₀.overlay p (3 * k + 1) fun j => some (packedByte T j)).set (p + 3 * k + 1)
      (UInt8.ofNat (walkValue ends fin (a + 2 * k) / 256 % 16))) :
    m.set (p + 3 * k + 1) (if a + 2 * k + 2 ∈ ends then m (p + 3 * k + 1) ||| 0xf0
      else (m (p + 3 * k + 1) &&& (0xf0 : UInt8)) |||
        (UInt8.ofNat ((a + 2 * k + 2) <<< 4) &&& 0xf0)) =
      m₀.overlay p (3 * k + 2) fun j => some (packedByte T j) := by
  subst hm
  rw [set_self, set_set, shared hT hlt rfl]
  exact overlay_snoc m₀ (by omega) rfl

section Second

variable (h : Fat12Head rs ends fin a p m₀ T k s) (hT : Fat12Table ends fin a T k)
  (hlt : a + 2 * k + 1 < fin) (file : FileId) (rangeInd : Nat)
include h hT hlt

/-- The whole pair is written. -/
theorem oddDone_eq (hg : 3 * k + (if a + 2 * k + 2 ∈ ends then 2 else 3) < scnt) :
    oddDone ends scnt (mid ends fin a p scnt k s file rangeInd) =
      (3 * k + 3, p + (3 * k + 3), m₀.overlay p (3 * k + 3) fun j => some (packedByte T j)) := by
  have hm := h.evenMem_eq hT (show 3 * k + (if a + 2 * k + 1 ∈ ends then 1 else 2) < scnt by
    split at hg <;> split <;> omega)
  have hs := shared_mem hT hlt hm
  obtain ⟨-, e1⟩ := hT k (Nat.le_refl k)
  have hlast : ∀ {v : UInt8}, packedByte T (3 * k + 2) = v →
      (m₀.overlay p (3 * k + 2) fun j => some (packedByte T j)).set (p + 3 * k + 1 + 1) v =
        m₀.overlay p (3 * k + 3) fun j => some (packedByte T j) := by
    intro v hv
    exact overlay_snoc m₀ (by omega) (by rw [hv])
  have hnum : a + 2 * k + 1 + 1 = a + 2 * k + 2 := by omega
  have hend3 : p + 3 * k + 1 + 2 = p + (3 * k + 3) := by omega
  by_cases hend : a + 2 * k + 2 ∈ ends
  · rw [if_pos hend] at hs hg
    have hg1 : 3 * k + 1 + 1 < scnt := by omega
    simp only [oddDone, mid, hnum, hend, hg1, ↓reduceIte, hs, hend3]
    rw [hlast]
    rw [packedByte_two, e1, writtenEntry, if_neg (by simp), walkValue, if_pos hend]; rfl
  · rw [if_neg hend] at hs hg
    have hg1 : 3 * k + 1 + 2 < scnt := by omega
    simp only [oddDone, mid, hnum, hend, hg1, ↓reduceIte, hs, hend3]
    rw [hlast]
    rw [packedByte_two, e1, writtenEntry, if_neg (by simp), walkValue, if_neg hend, if_pos hlt]

end Second

/-- The last chain ends at the first entry of the pair. -/
theorem last (h : Fat12Head rs ends fin a p m₀ T k s) (hT : Fat12Table ends fin a T k)
    (hr : Ranged d rs) (hfin : a + 2 * k + 1 = fin) (hx : fin + 1 < 2 ^ 32)
    (hg : 3 * k + 2 ≤ scnt) : fat12Loop d scnt (fuel + 1) s =
      if d.fileCnt = rs.length then .ok (3 * k + 2, p + (3 * k + 2),
        m₀.overlay p (3 * k + 2) fun j => some (packedByte T j))
      else .error (.rangesIndex rs.length) := by
  have hent := h.ent
  have hi := h.i
  have hat : WalkAt rs ends fin s.ent s.file s.rangeInd := hent ▸ h.walk
  obtain ⟨hend, hrun⟩ := (fat12Loop_even scnt fuel hr hat (by rw [h.clust, hent]) (by omega)
    (by omega) h.halfent).1 (by omega)
  rw [hent] at hend
  obtain ⟨e0, e1⟩ := hT k (Nat.le_refl k)
  have hv : walkValue ends fin (a + 2 * k) = 0xfff := if_pos hend
  have h0 : T (2 * k) = 0xfff := by rw [e0, writtenEntry, if_neg (by omega), hv]
  have h1 : T (2 * k + 1) = 0 := by
    have hout : fin + 1 ∉ ends := fun hmem => by
      have := h.walk.le_of_mem (by omega) hmem
      omega
    rw [e1, hfin, writtenEntry, if_neg (by simp), walkValue, if_neg hout, if_neg (by omega)]
  have hmem : evenMem ends fin scnt s =
      m₀.overlay p (3 * k + 2) fun j => some (packedByte T j) := by
    rw [h.evenMem_eq hT (by rw [if_pos hend]; omega), hv]
    exact overlay_snoc m₀ (by omega) (by rw [packedByte_one, h0, h1])
  rw [hrun, hmem, hi, h.buffer, Nat.add_assoc]

/-- The pair is written, and the loop goes on to the next one unless its last entry is that of the
walk. -/
theorem pair (fuel : Nat) (h : Fat12Head rs ends fin a p m₀ T k s) (hT : Fat12Table ends fin a T k)
    (hr : Ranged d rs) (hlt : a + 2 * k + 1 < fin) (hx : fin + 1 < 2 ^ 32)
    (hg : 3 * k + (if a + 2 * k + 2 ∈ ends then 2 else 3) < scnt) :
    (a + 2 * k + 2 = fin → fat12Loop d scnt (fuel + 2) s =
      if d.fileCnt = rs.length then .ok (3 * k + 3, p + (3 * k + 3),
        m₀.overlay p (3 * k + 3) fun j => some (packedByte T j))
      else .error (.rangesIndex rs.length)) ∧
    (a + 2 * k + 2 < fin → ∃ s', Fat12Head rs ends fin a p m₀ T (k + 1) s' ∧
      fat12Loop d scnt (fuel + 2) s = fat12Loop d scnt fuel s') := by
  have hent := h.ent
  have hi := h.i
  have hscnt : s.i < scnt := by split at hg <;> omega
  have hat : WalkAt rs ends fin s.ent s.file s.rangeInd := hent ▸ h.walk
  obtain ⟨file, rangeInd, hat₁, hfirst⟩ := (fat12Loop_even scnt (fuel + 1) hr hat
    (by rw [h.clust, hent]) (by omega) hscnt h.halfent).2 (by omega)
  rw [hent, hi, h.buffer] at hfirst
  rw [hent] at hat₁
  have hdone := h.oddDone_eq hT hlt file rangeInd hg
  obtain ⟨hfin, hnext⟩ := fat12Loop_odd (s := mid ends fin a p scnt k s file rangeInd) scnt fuel
    hr hat₁ rfl (by simp only [mid]; omega) (by simp only [mid]; split at hg <;> omega) rfl
  rw [hdone] at hfin hnext
  constructor
  · intro e
    rw [hfirst]
    exact (hfin e).2
  · intro e
    obtain ⟨file', rangeInd', hat₂, hsecond⟩ := hnext e
    have hnum : a + 2 * (k + 1) = a + 2 * k + 1 + 1 := by omega
    refine ⟨_, ?_, hfirst.trans hsecond⟩
    exact
      { walk := hnum ▸ hat₂, i := rfl, buffer := rfl, ent := hnum.symm, mem := rfl
        halfent := rfl, clust := congrArg (· + 1) hnum.symm }

/-- The walk is written up to its end, when it fits into the request. -/
theorem run (scnt fuel : Nat) (h : Fat12Head rs ends fin a p m₀ T k s)
    (hT : Fat12Table ends fin a T k)
    (hr : Ranged d rs) (hx : fin + 1 < 2 ^ 32) (hfit : 3 * (fin - a) ≤ 2 * scnt)
    (hfuel : fin - (a + 2 * k) ≤ fuel) : fat12Loop d scnt fuel s =
      if d.fileCnt = rs.length then
        .ok ((3 * (fin - a) + 1) / 2, p + (3 * (fin - a) + 1) / 2,
          m₀.overlay p ((3 * (fin - a) + 1) / 2) fun j => some (packedByte T j))
      else .error (.rangesIndex rs.length) := by
  -- The induction is on the entries that are left, two of them for each pair.
  induction hleft : fin - (a + 2 * k) using Nat.strong_induction_on generalizing k s fuel with
  | _ left ih =>
    have hlt := h.walk.lt
    by_cases hlast : a + 2 * k + 1 = fin
    · obtain ⟨fuel, rfl⟩ : ∃ n, fuel = n + 1 := ⟨fuel - 1, by omega⟩
      rw [h.last hT hr hlast hx (by omega), (by omega : (3 * (fin - a) + 1) / 2 = 3 * k + 2)]
    · obtain ⟨fuel, rfl⟩ : ∃ n, fuel = n + 2 := ⟨fuel - 2, by omega⟩
      have hguard : 3 * k + (if a + 2 * k + 2 ∈ ends then 2 else 3) < scnt := by
        split
        · omega
        · rename_i hend
          have hne : a + 2 * k + 2 ≠ fin := fun e => hend (e ▸ h.walk.fin_mem)
          omega
      obtain ⟨hend, hnext⟩ := h.pair fuel hT hr (by omega) hx hguard
      rcases Nat.lt_or_ge (a + 2 * k + 2) fin with hgo | hstop
      · obtain ⟨s', h', hrun⟩ := hnext hgo
        rw [hrun]
        exact ih _ (by omega) fuel h' (fun x hx => hT x (by omega)) (by omega) rfl
      · rw [hend (by omega), (by omega : (3 * (fin - a) + 1) / 2 = 3 * k + 3)]

/-- The loop comes to each pair in front of the end of the walk and of the request. -/
theorem reach (scnt fuel : Nat) (h : Fat12Head rs ends fin a p m₀ T 0 s)
    (hT : Fat12Table ends fin a T 0) (hr : Ranged d rs) (hx : fin + 1 < 2 ^ 32)
    (hk : a + 2 * k < fin) (hg : 3 * k < scnt) (hfuel : 2 * k ≤ fuel) :
    ∃ s', Fat12Head rs ends fin a p m₀ T k s' ∧
      fat12Loop d scnt fuel s = fat12Loop d scnt (fuel - 2 * k) s' := by
  induction k with
  | zero => exact ⟨s, h, rfl⟩
  | succ k ih =>
    obtain ⟨s₁, h₁, hrun⟩ := ih (by omega) (by omega) (by omega)
    have hguard : 3 * k + (if a + 2 * k + 2 ∈ ends then 2 else 3) < scnt := by split <;> omega
    obtain ⟨s₂, h₂, hnext⟩ := (h₁.pair (fuel - 2 * (k + 1)) (fun x _ => hT x (Nat.zero_le x)) hr
      (by omega) hx hguard).2 (by omega)
    refine ⟨s₂, h₂, ?_⟩
    rw [hrun, ← hnext, (by omega : fuel - 2 * k = fuel - 2 * (k + 1) + 2)]

section Bytes

variable (h : Fat12Head rs ends fin a p m₀ T k s) (hT : Fat12Table ends fin a T k)
  (hr : Ranged d rs) (hx : fin + 1 < 2 ^ 32) {i q : Nat} {m : Buffer}
  (hrun : fat12Loop d scnt fuel s = .ok (i, q, m))
include h hT hr hx hrun

/-- The first byte of the pair is still there when the loop ends. -/
theorem first_byte (hg : 3 * k < scnt) (hfuel : 1 ≤ fuel) :
    p + 3 * k < q ∧ m (p + 3 * k) = packedByte T (3 * k) := by
  have hent := h.ent
  have hi := h.i
  have hbuffer := h.buffer
  have hat : WalkAt rs ends fin s.ent s.file s.rangeInd := hent ▸ h.walk
  have hlt := hat.lt
  have hmem : evenMem ends fin scnt s (p + 3 * k) = packedByte T (3 * k) := by
    have hin := @overlay_inside m₀ p (3 * k + 1) (3 * k) (fun j => some (packedByte T j)) (by omega)
    rcases Nat.lt_or_ge (3 * k + if a + 2 * k + 1 ∈ ends then 1 else 2) scnt with hg | hg
    · rw [h.evenMem_eq hT hg, set_outside (by omega), hin]
      rfl
    · rw [h.evenMem_eq_of_le hT hg, hin]
      rfl
  obtain ⟨fuel, rfl⟩ : ∃ n, fuel = n + 1 := ⟨fuel - 1, by omega⟩
  obtain ⟨hend, hnext⟩ := fat12Loop_even scnt fuel hr hat (by rw [h.clust, hent]) (by omega)
    (by omega) h.halfent
  rcases Nat.lt_or_ge (s.ent + 1) fin with hgo | hstop
  · obtain ⟨file, rangeInd, -, hloop⟩ := hnext hgo
    rw [hloop] at hrun
    obtain ⟨hq, hkeep⟩ := fat12Loop_below hrun
    dsimp only at hq hkeep
    exact ⟨by omega, by rw [hkeep _ (by omega), hmem]⟩
  · rw [(hend (by omega)).2] at hrun
    split at hrun
    · cases hrun
      exact ⟨by omega, hmem⟩
    · cases hrun

end Bytes

end Fat12Head

end Vdf
