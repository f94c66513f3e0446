import Vdf.FatStays
import Vdf.Lib.Overwrite

/-!
# What the FAT12 loop reads of its buffer

The second entry of a pair keeps bits of the byte that it shares with the first one. Mostly the
request has just written that byte. It has not where it starts with a second entry, and at its last
byte, which the first entry of the pair writes for an end-of-chain mark only. There the entry leaves
bits of what lay in the buffer, unless it sets them all (`Fat12Fresh`).
-/

namespace Vdf

open Word Buffer

/-! ## Entries -/

/-- Entry `x`, written at byte `b` of a request of `len` bytes, leaves nothing of a byte that the
request has not written: the byte is one of `A`, which are known, or the entry sets its bits. -/
def EntryFresh (A : Nat → Prop) (ends : List Nat) (len b : Nat) (odd start : Prop) (x : Nat) : Prop :=
  odd → b < len → start ∨ b + 1 = len ∧ x ∉ ends → A b ∨ x + 1 ∉ ends ∧ (x + 1) % 16 = 15

/-- The entry that is written first is the second one of its pair. -/
theorem half_of_entryOdd {half : Bool} (h : entryOdd half 0) : half = true := by
  cases half with
  | false => exact absurd h (Nat.zero_ne_one)
  | true => rfl

/-- The entries from `x` on leave nothing. The request starts with entry `x` if `start`. -/
def EntriesFresh (A : Nat → Prop) (ends : List Nat) (fin len i x : Nat) (half : Bool)
    (start : Prop) : Prop :=
  ∀ k, x + k < fin →
    EntryFresh A ends len (entryOffset i half k) (entryOdd half k) (start ∧ k = 0) (x + k)

section Entries

variable {A : Nat → Prop} {ends : List Nat} {fin len i x : Nat} {half : Bool} {start : Prop}

/-- The entry that the loop stands at, -/
theorem EntriesFresh.head (h : EntriesFresh A ends fin len i x half start) (hx : x < fin) :
    EntryFresh A ends len i (half = true) start x := by
  have h0 := h 0 hx
  cases half <;> simp_all [EntryFresh, entryOffset, entryOdd]

/-- and those behind it. -/
theorem EntriesFresh.tail (h : EntriesFresh A ends fin len i x half start) :
    EntriesFresh A ends fin len (i + if half then 2 else 1) (x + 1) (!half) False := by
  intro k hk hodd hb hstale
  have hx : x + (k + 1) = x + 1 + k := by omega
  have h1 := h (k + 1) (by omega)
  rw [hx] at h1
  have hstale : (start ∧ k + 1 = 0) ∨
      entryOffset (i + if half then 2 else 1) (!half) k + 1 = len ∧ x + 1 + k ∉ ends :=
    .inr (hstale.resolve_left fun h => h.1)
  cases half with
  | false =>
    have e : entryOffset i false (k + 1) = entryOffset (i + 1) true k := by
      simp only [entryOffset, Bool.toNat_false, Bool.toNat_true]
      omega
    simp only [entryOdd, Bool.not_false, Bool.toNat_true, Bool.false_eq_true, ↓reduceIte] at *
    rw [← e] at hb hstale ⊢
    exact h1 hodd hb hstale
  | true =>
    have e : entryOffset i true (k + 1) = entryOffset (i + 2) false k := by
      simp only [entryOffset, Bool.toNat_false, Bool.toNat_true]
      omega
    simp only [entryOdd, Bool.not_true, Bool.toNat_false, Bool.toNat_true, ↓reduceIte] at *
    rw [← e] at hb hstale ⊢
    exact h1 (by omega) hb hstale

end Entries

/-! ## Two runs -/

section Twins

variable {d : VdfDrive} {rs : List FileRange} {A : Nat → Prop} {ends : List Nat} {fin p len : Nat}
  {start : Prop} {s : Fat12State} {n : Buffer} {file : FileId} {rangeInd : Nat}

/-- The state of a second run, with a memory of its own, at the same entry of the walk. -/
def Fat12State.twin (s : Fat12State) (file : FileId) (rangeInd : Nat) (n : Buffer) : Fat12State :=
  { s with file, rangeInd, m := n }

/-- A run and a second one with the memory `n`: the known bytes of the request are
the same, those that were written, and the byte that a second entry shares with the one in front of
it, unless that one has not written it. -/
structure Fat12Twins (A : Nat → Prop) (ends : List Nat) (p len : Nat) (start : Prop)
    (s : Fat12State) (n : Buffer) : Prop where
  known : ∀ b < len, A b → s.m (p + b) = n (p + b)
  done : ∀ b < s.i, s.m (p + b) = n (p + b)
  half : s.halfent = true → s.i < len →
    s.m (p + s.i) = n (p + s.i) ∨ start ∨ s.i + 1 = len ∧ s.ent ∉ ends

/-- The second run ends like the first, and has the same known bytes and those written. -/
def EndsLike (A : Nat → Prop) (p len : Nat) (r r' : Except Fault (Nat × Nat × Buffer)) : Prop :=
  ∀ i q m, r = .ok (i, q, m) → ∃ n, r' = .ok (i, q, n) ∧
    (∀ b < len, A b → m (p + b) = n (p + b)) ∧ ∀ b < i, m (p + b) = n (p + b)

/-- A store of one byte to both. -/
theorem set_twins {m n : Buffer} {a : Nat} {v w : UInt8} (hv : v = w) {x : Nat}
    (h : x ≠ a → m x = n x) : m.set a v x = n.set a w x := by
  by_cases hx : x = a
  · rw [hx, set_self, set_self, hv]
  · rw [set_outside hx, set_outside hx, h hx]

/-- The first entry of a pair, in both memories. -/
theorem evenMem_twins {x : Nat} (h : x ≠ s.buffer →
    ¬ (x = s.buffer + 1 ∧ s.i + (if s.ent + 1 ∈ ends then 1 else 2) < len) → s.m x = n x) :
    evenMem ends fin len s x = evenMem ends fin len (s.twin file rangeInd n) x := by
  unfold evenMem Fat12State.twin
  dsimp only
  by_cases hg : s.i + (if s.ent + 1 ∈ ends then 1 else 2) < len
  · rw [if_pos hg, if_pos hg]
    exact set_twins rfl fun h1 => set_twins rfl fun h2 => h h2 fun h3 => h1 h3.1
  · rw [if_neg hg, if_neg hg]
    exact set_twins rfl fun h2 => h h2 fun h3 => hg h3.2

/-- A second entry of 15 in its low bits sets the upper half of the byte that it shares, and clears
the lower one. -/
theorem sharedByte_sets {c : Nat} (hc : c % 16 = 15) (v : UInt8) :
    ((v &&& (0xf0 : UInt8)) ||| (UInt8.ofNat (c <<< 4) &&& (0xf0 : UInt8))) = 0xf0 := by
  have h : ∀ a : BitVec 8, (a &&& 0xf0#8) ||| 0xf0#8 = 0xf0#8 := by decide
  rw [ofNat_shiftLeft_and, hc]
  exact UInt8.eq_of_toBitVec_eq (h v.toBitVec)

/-- Any other one keeps bits of it. -/
theorem sharedByte_keeps {c : Nat}
    (h : (((0 : UInt8) &&& (0xf0 : UInt8)) ||| (UInt8.ofNat (c <<< 4) &&& (0xf0 : UInt8))) =
      (((0xff : UInt8) &&& (0xf0 : UInt8)) ||| (UInt8.ofNat (c <<< 4) &&& (0xf0 : UInt8)))) :
    c % 16 = 15 := by
  have hall : ∀ a : Fin 16, (((0 : UInt8) &&& (0xf0 : UInt8)) ||| UInt8.ofNat (16 * a.val)) =
      (((0xff : UInt8) &&& (0xf0 : UInt8)) ||| UInt8.ofNat (16 * a.val)) → a.val = 15 := by decide
  rw [ofNat_shiftLeft_and] at h
  exact hall ⟨c % 16, Nat.mod_lt _ (by decide)⟩ h

/-- The second entry of a pair, in both memories: what it makes of the shared byte is the same. -/
theorem oddDone_twins (hshared : s.m s.buffer = n s.buffer ∨
      s.ent + 1 ∉ ends ∧ (s.ent + 1) % 16 = 15) :
    ∃ n', oddDone ends len (s.twin file rangeInd n) =
      ((oddDone ends len s).1, (oddDone ends len s).2.1, n') ∧
    ∀ x, (x ≠ s.buffer → (oddDone ends len s).2.1 ≤ x → s.m x = n x) →
      (x < s.buffer → s.m x = n x) → (oddDone ends len s).2.2 x = n' x := by
  have hmark (hend : s.ent + 1 ∈ ends) : s.m s.buffer ||| 0xf0 = n s.buffer ||| 0xf0 := by
    rw [hshared.resolve_right fun h => h.1 hend]
  have hchain : ((s.m s.buffer &&& (0xf0 : UInt8)) |||
        (UInt8.ofNat ((s.ent + 1) <<< 4) &&& (0xf0 : UInt8))) =
      ((n s.buffer &&& (0xf0 : UInt8)) |||
        (UInt8.ofNat ((s.ent + 1) <<< 4) &&& (0xf0 : UInt8))) := by
    rcases hshared with h | ⟨-, h⟩
    · rw [h]
    · rw [sharedByte_sets h, sharedByte_sets h]
  unfold oddDone Fat12State.twin
  dsimp only
  by_cases hend : s.ent + 1 ∈ ends
  · rw [if_pos hend, if_pos hend]
    by_cases hg : s.i + 1 < len
    · rw [if_pos hg, if_pos hg]
      exact ⟨_, rfl, fun x hx hx' => set_twins rfl fun h1 => set_twins (hmark hend) fun h2 =>
        (Nat.lt_or_ge x s.buffer).elim hx' fun h3 => hx h2 (by dsimp only; omega)⟩
    · rw [if_neg hg, if_neg hg]
      exact ⟨_, rfl, fun x hx hx' => set_twins (hmark hend) fun h2 =>
        (Nat.lt_or_ge x s.buffer).elim hx' fun h3 => hx h2 (by dsimp only; omega)⟩
  · rw [if_neg hend, if_neg hend]
    by_cases hg : s.i + 2 < len
    · rw [if_pos hg, if_pos hg]
      exact ⟨_, rfl, fun x hx hx' => set_twins rfl fun h1 => set_twins hchain fun h2 =>
        (Nat.lt_or_ge x s.buffer).elim hx' fun h3 => hx h2 (by dsimp only; omega)⟩
    · rw [if_neg hg, if_neg hg]
      exact ⟨_, rfl, fun x hx hx' => set_twins hchain fun h2 =>
        (Nat.lt_or_ge x s.buffer).elim hx' fun h3 => hx h2 (by dsimp only; omega)⟩

/-- `fuel` rounds of two runs end alike. -/
def Fat12Alike (d : VdfDrive) (rs : List FileRange) (A : Nat → Prop) (ends : List Nat)
    (fin p len fuel : Nat) : Prop :=
  ∀ s file rangeInd n start, Fat12At rs ends fin p len s →
    WalkAt rs ends fin s.ent file rangeInd → len - s.i ≤ fuel →
    EntriesFit ends fin len (d.fileCnt = rs.length) s.i s.ent s.halfent →
    EntriesFresh A ends fin len s.i s.ent s.halfent start → Fat12Twins A ends p len start s n →
    EndsLike A p len (fat12Loop d len fuel s) (fat12Loop d len fuel (s.twin file rangeInd n))

/-- Behind the request nothing is done. -/
theorem Fat12Twins.behind (h : Fat12Twins A ends p len start s n) (hge : len ≤ s.i) (fuel : Nat) :
    EndsLike A p len (fat12Loop d len fuel s) (fat12Loop d len fuel (s.twin file rangeInd n)) := by
  rw [fat12Loop_done fuel hge, fat12Loop_done fuel (show len ≤ (s.twin file rangeInd n).i from hge)]
  intro i q m he
  cases he
  exact ⟨n, rfl, h.known, h.done⟩

section Rounds

variable {fuel : Nat} (hr : Ranged d rs) (h : Fat12At rs ends fin p len s)
  (hat' : WalkAt rs ends fin s.ent file rangeInd) (hlt : s.i < len)
  (hfit : EntriesFit ends fin len (d.fileCnt = rs.length) s.i s.ent s.halfent)
  (hfresh : EntriesFresh A ends fin len s.i s.ent s.halfent start)
  (htwins : Fat12Twins A ends p len start s n)

include h hlt hfresh htwins

/-- The shared byte of a second entry. -/
theorem shared_twins (hh : s.halfent = true) :
    s.m s.buffer = n s.buffer ∨ s.ent + 1 ∉ ends ∧ (s.ent + 1) % 16 = 15 := by
  rw [h.buffer]
  rcases htwins.half hh hlt with hsame | hstale
  · exact .inl hsame
  · exact (hfresh.head h.walk.lt hh hlt hstale).imp_left (htwins.known _ hlt)

include hr hfit hat'

/-- The last entry of all. -/
theorem alike_end (hstop : fin ≤ s.ent + 1) : EndsLike A p len (fat12Loop d len (fuel + 1) s)
    (fat12Loop d len (fuel + 1) (s.twin file rangeInd n)) := by
  have hfin := h.walk.lt
  have hb := h.buffer
  have hx := h.bound
  obtain ⟨-, hroom⟩ := (entriesFit_last (by omega) (fun c => h.walk.le_of_mem) hlt).mp hfit
  intro i q m he
  rcases Bool.eq_false_or_eq_true s.halfent with hh | hh
  · obtain ⟨hend, hrun⟩ := (fat12Loop_odd len fuel hr h.walk h.clust (by omega) hlt hh).1 (by omega)
    obtain ⟨-, hrun'⟩ := (fat12Loop_odd (s := s.twin file rangeInd n) len fuel hr hat' h.clust
      (show s.ent + 2 < 2 ^ 32 by omega) hlt hh).1 (show s.ent + 1 = fin by omega)
    obtain ⟨n', hdone, hsame⟩ := @oddDone_twins ends len s n file rangeInd
      (shared_twins h hlt hfresh htwins hh)
    rw [hrun] at he
    rw [hrun', hdone]
    split at he
    · rw [if_pos ‹_›]
      have e : oddDone ends len s = (i, q, m) := Except.ok.inj he
      have hq : q = p + i := by
        have e' := e
        rw [oddDone, if_pos hend, if_pos (by omega)] at e'
        cases e'
        omega
      rw [e] at hsame ⊢
      dsimp only at hsame
      refine ⟨n', rfl, fun b hlen hA => ?_, fun b hb' => ?_⟩
      · exact hsame _ (fun _ _ => htwins.known b hlen hA) fun _ => htwins.known b hlen hA
      · exact hsame _ (fun _ h1 => by omega) fun h1 => htwins.done b (by omega)
    · cases he
  · obtain ⟨hend, hrun⟩ := (fat12Loop_even len fuel hr h.walk h.clust (by omega) hlt hh).1 (by omega)
    obtain ⟨-, hrun'⟩ := (fat12Loop_even (s := s.twin file rangeInd n) len fuel hr hat' h.clust
      (show s.ent + 2 < 2 ^ 32 by omega) hlt hh).1 (show s.ent + 1 = fin by omega)
    rw [hrun] at he
    rw [hrun']
    split at he
    · rw [if_pos ‹_›]
      cases he
      refine ⟨_, rfl, fun b hlen hA => ?_, fun b hb' => ?_⟩
      · exact evenMem_twins fun _ _ => htwins.known b hlen hA
      · refine evenMem_twins fun h1 h2 => htwins.done b ?_
        rw [if_pos hend] at h2
        omega
    · cases he

variable (ih : Fat12Alike d rs A ends fin p len fuel) (hfuel : len - s.i ≤ fuel + 1)

include ih hfuel

/-- The first entry of a pair writes the byte that the second one shares, unless the request ends
there. -/
theorem alike_even (hh : s.halfent = false) (hgo : s.ent + 1 < fin) : EndsLike A p len
    (fat12Loop d len (fuel + 1) s) (fat12Loop d len (fuel + 1) (s.twin file rangeInd n)) := by
  have hb := h.buffer
  have hx := h.bound
  obtain ⟨f₁, r₁, hat₁, hrun₁⟩ :=
    (fat12Loop_even len fuel hr h.walk h.clust (by omega) hlt hh).2 hgo
  obtain ⟨f₂, r₂, hat₂, hrun₂⟩ := (fat12Loop_even (s := s.twin file rangeInd n) len fuel hr hat'
    h.clust (show s.ent + 2 < 2 ^ 32 by omega) hlt hh).2 hgo
  rw [hrun₁, hrun₂]
  have hfit' := (entriesFit_step.mp hfit).2
  have hfresh' := hfresh.tail
  rw [hh] at hfit' hfresh'
  refine ih { i := s.i + 1, buffer := s.buffer + 1, ent := s.ent + 1, clust := s.ent + 2
              halfent := true, file := f₁, rangeInd := r₁, m := evenMem ends fin len s } f₂ r₂
    (evenMem ends fin len (s.twin file rangeInd n)) False
    (h.next hat₁ (by omega) (by omega) (by omega)) hat₂ (by dsimp only; omega) hfit' hfresh' ?_
  refine ⟨fun b hlen hA => ?_, fun b hb' => ?_, fun _ hin => ?_⟩
  · exact evenMem_twins fun _ _ => htwins.known b hlen hA
  · refine evenMem_twins fun h1 _ => htwins.done b ?_
    dsimp only at hb'
    omega
  · dsimp only at hin ⊢
    by_cases hlast : s.i + 1 + 1 = len ∧ s.ent + 1 ∉ ends
    · exact .inr (.inr hlast)
    · refine .inl (evenMem_twins fun h1 h2 => absurd ⟨by omega, ?_⟩ h2)
      split
      · exact hin
      · have : s.i + 1 + 1 ≠ len := fun e => hlast ⟨e, ‹_›⟩
        omega

/-- The second entry of a pair. -/
theorem alike_odd (hh : s.halfent = true) (hgo : s.ent + 1 < fin) : EndsLike A p len
    (fat12Loop d len (fuel + 1) s) (fat12Loop d len (fuel + 1) (s.twin file rangeInd n)) := by
  have hb := h.buffer
  have hx := h.bound
  obtain ⟨f₁, r₁, hat₁, hrun₁⟩ :=
    (fat12Loop_odd len fuel hr h.walk h.clust (by omega) hlt hh).2 hgo
  obtain ⟨f₂, r₂, hat₂, hrun₂⟩ := (fat12Loop_odd (s := s.twin file rangeInd n) len fuel hr hat'
    h.clust (show s.ent + 2 < 2 ^ 32 by omega) hlt hh).2 hgo
  obtain ⟨n', hdone, hsame⟩ := @oddDone_twins ends len s n file rangeInd
    (shared_twins h hlt hfresh htwins hh)
  have hmark := (entriesFit_step.mp hfit).1.mark
  have hearly := (entriesFit_step.mp hfit).1.early
  have hfit' := (entriesFit_step.mp hfit).2
  have hfresh' := hfresh.tail
  rw [hdone] at hrun₂
  rw [hrun₁, hrun₂]
  rw [hh] at hmark hearly hfit' hfresh'
  -- The loop goes on behind two bytes, or it leaves the last one to the next entry.
  have hnext : (oddDone ends len s).2.1 = p + (oddDone ends len s).1 ∧
      ((oddDone ends len s).1 = s.i + 2 ∧ s.i + 2 ≤ len ∨
        (oddDone ends len s).1 = s.i + 1 ∧ len ≤ s.i + 2 ∧ s.ent + 1 ∉ ends) := by
    unfold oddDone
    by_cases hend : s.ent + 1 ∈ ends
    · have := hmark hend rfl
      rw [if_pos hend, if_pos (by omega)]
      exact ⟨by dsimp only; omega, .inl ⟨rfl, by omega⟩⟩
    · rw [if_neg hend]
      by_cases hg : s.i + 2 < len
      · rw [if_pos hg]
        exact ⟨by dsimp only; omega, .inl ⟨rfl, by omega⟩⟩
      · rw [if_neg hg]
        exact ⟨by dsimp only; omega, .inr ⟨rfl, by omega, hend⟩⟩
  obtain ⟨hq, hi⟩ := hnext
  generalize oddDone ends len s = r at hsame hq hi ⊢
  obtain ⟨i', q', m'⟩ := r
  dsimp only at hsame hq hi ⊢
  refine ih { i := i', buffer := q', ent := s.ent + 1, clust := s.ent + 2
              halfent := false, file := f₁, rangeInd := r₁, m := m' } f₂ r₂ n' False
    (h.next hat₁ hq (by omega) (by omega)) hat₂ (by dsimp only; omega) ?_ ?_ ?_
  · rcases hi with ⟨rfl, -⟩ | ⟨rfl, hcut, hend⟩
    · exact hfit'
    · refine entriesFit_step.mpr ⟨⟨by simp, by simp, fun hfin => ?_⟩, entriesFit_behind ?_⟩
      · have := hearly hfin hend rfl
        dsimp only
        omega
      · simp only [Bool.false_eq_true, ↓reduceIte]
        omega
  · rcases hi with ⟨rfl, -⟩ | ⟨rfl, hcut, -⟩
    · exact hfresh'
    · intro k _ hodd hb' _
      simp only [entryOdd, entryOffset, Bool.toNat_false, Nat.add_zero] at hodd hb'
      omega
  · refine ⟨fun b hlen hA => ?_, fun b hb' => ?_, fun h => absurd h (by simp)⟩
    · exact hsame _ (fun _ _ => htwins.known b hlen hA) fun _ => htwins.known b hlen hA
    · dsimp only at hb'
      exact hsame _ (fun _ h1 => by omega) fun h1 => htwins.done b (by omega)

end Rounds

/-- The loop ends alike on two memories. -/
theorem fat12Loop_alike (hr : Ranged d rs) (fuel : Nat) : Fat12Alike d rs A ends fin p len fuel := by
  induction fuel with
  | zero =>
    intro s file rangeInd n start h _ hfuel _ _ htwins
    exact htwins.behind (by omega) 0
  | succ fuel ih =>
    intro s file rangeInd n start h hat' hfuel hfit hfresh htwins
    rcases Nat.lt_or_ge s.i len with hlt | hge
    · rcases Nat.lt_or_ge (s.ent + 1) fin with hgo | hstop
      · rcases Bool.eq_false_or_eq_true s.halfent with hh | hh
        · exact alike_odd hr h hat' hlt hfit hfresh htwins ih hfuel hh hgo
        · exact alike_even hr h hat' hlt hfit hfresh htwins ih hfuel hh hgo
      · exact alike_end hr h hat' hlt hfit hfresh htwins hstop
    · exact htwins.behind hge _

end Twins

/-! ## The last byte -/

section Last

variable {d : VdfDrive} {rs : List FileRange} {ends : List Nat} {fin p len : Nat}

/-- What a second entry `x` makes of the byte `v` that it shares. -/
def sharedByte (ends : List Nat) (x : Nat) (v : UInt8) : UInt8 :=
  if x + 1 ∈ ends then v ||| 0xf0
  else (v &&& (0xf0 : UInt8)) ||| (UInt8.ofNat ((x + 1) <<< 4) &&& (0xf0 : UInt8))

/-- A second entry with room for its second byte leaves those behind it. -/
theorem oddDone_behind {s : Fat12State} {x : Nat} (hroom : s.i + 2 < len) (hx : s.buffer + 1 < x) :
    (oddDone ends len s).1 = s.i + 2 ∧ (oddDone ends len s).2.1 = s.buffer + 2 ∧
      (oddDone ends len s).2.2 x = s.m x := by
  unfold oddDone
  by_cases hend : s.ent + 1 ∈ ends
  · rw [if_pos hend, if_pos (by omega)]
    exact ⟨rfl, rfl, by simp (disch := omega) only [set_outside]⟩
  · rw [if_neg hend, if_pos (by omega)]
    exact ⟨rfl, rfl, by simp (disch := omega) only [set_outside]⟩

/-- A first entry writes the last byte of a request, as its second one, at the end of a chain only. -/
theorem evenMem_last {s : Fat12State} {x : Nat} (hx : s.buffer < x)
    (hlast : x = s.buffer + 1 → s.i + 2 = len ∧ s.ent + 1 ∉ ends) :
    evenMem ends fin len s x = s.m x := by
  unfold evenMem
  by_cases hg : s.i + (if s.ent + 1 ∈ ends then 1 else 2) < len
  · have hne : x ≠ s.buffer + 1 := by
      intro he
      obtain ⟨hlen, hend⟩ := hlast he
      rw [if_neg hend] at hg
      omega
    rw [if_pos hg, set_outside hne, set_outside (by omega)]
  · rw [if_neg hg, set_outside (by omega)]

/-- A second entry at the last byte of a request, behind an entry that does not end a chain, shares
it with what lay in the buffer. -/
theorem fat12Loop_last (hr : Ranged d rs) {i q : Nat} {m : Buffer} (fuel k : Nat) (s : Fat12State)
    (h : Fat12At rs ends fin p len s) (hfuel : len - s.i ≤ fuel) (hk : s.ent + k < fin)
    (hodd : entryOdd s.halfent k) (hb : entryOffset s.i s.halfent k + 1 = len)
    (hends : k = 0 ∨ s.ent + k ∉ ends) (hrun : fat12Loop d len fuel s = .ok (i, q, m)) :
    p + len ≤ q ∧ m (p + (len - 1)) = sharedByte ends (s.ent + k) (s.m (p + (len - 1))) := by
  have hx := h.bound
  have hbuf := h.buffer
  induction fuel generalizing k s with
  | zero =>
    unfold entryOffset at hb
    omega
  | succ fuel ih =>
    unfold entryOffset at hb
    have hlt : s.i < len := by omega
    rcases Nat.eq_zero_or_pos k with rfl | hpos
    · have hh : s.halfent = true := half_of_entryOdd hodd
      obtain ⟨hq, hm⟩ := fat12Loop_half hr h.walk h.clust (by omega) hlt hh hrun
      rw [hh, Bool.toNat_true] at hb
      have hlast : s.buffer = p + (len - 1) := by omega
      rw [hlast] at hq hm
      exact ⟨by omega, hm⟩
    · have hends := hends.resolve_left (by omega)
      obtain ⟨k, rfl⟩ : ∃ j, k = j + 1 := ⟨k - 1, by omega⟩
      have hsum : s.ent + (k + 1) = s.ent + 1 + k := by omega
      unfold entryOdd at hodd
      rcases Bool.eq_false_or_eq_true s.halfent with hh | hh
      · rw [hh, Bool.toNat_true] at hodd hb
        obtain ⟨file, rangeInd, hat, hgo⟩ :=
          (fat12Loop_odd len fuel hr h.walk h.clust (by omega) hlt hh).2 (by omega)
        obtain ⟨hi, hq, hkeep⟩ := @oddDone_behind ends len s (p + (len - 1))
          (show s.i + 2 < len by omega) (by omega)
        rw [hgo, hi, hq] at hrun
        rw [← hkeep, hsum]
        exact ih k
          { i := s.i + 2, buffer := s.buffer + 2, ent := s.ent + 1, clust := s.ent + 2
            halfent := false, file, rangeInd, m := (oddDone ends len s).2.2 }
          (h.next hat (by omega) (by omega) (by omega)) (by dsimp only; omega)
          (by dsimp only; omega) (show (k + 0) % 2 = 1 by omega)
          (show s.i + 2 + (3 * k + 0) / 2 + 1 = len by omega) (.inr (hsum ▸ hends)) hrun
          (by dsimp only; omega) (by dsimp only; omega)
      · rw [hh, Bool.toNat_false] at hodd hb
        obtain ⟨file, rangeInd, hat, hgo⟩ :=
          (fat12Loop_even len fuel hr h.walk h.clust (by omega) hlt hh).2 (by omega)
        have hkeep : evenMem ends fin len s (p + (len - 1)) = s.m (p + (len - 1)) := by
          refine evenMem_last (by omega) fun he => ?_
          have hk0 : k = 0 := by omega
          subst hk0
          exact ⟨by omega, hends⟩
        rw [hgo] at hrun
        rw [← hkeep, hsum]
        exact ih k
          { i := s.i + 1, buffer := s.buffer + 1, ent := s.ent + 1, clust := s.ent + 2
            halfent := true, file, rangeInd, m := evenMem ends fin len s }
          (h.next hat (by omega) (by omega) (by omega)) (by dsimp only; omega)
          (by dsimp only; omega) (show (k + 1) % 2 = 1 by omega)
          (show s.i + 1 + (3 * k + 1) / 2 + 1 = len by omega) (.inr (hsum ▸ hends)) hrun
          (by dsimp only; omega) (by dsimp only; omega)

/-- A shared byte of which nothing is left. -/
theorem sharedByte_same {x : Nat} (h : sharedByte ends x 0 = sharedByte ends x 0xff) :
    x + 1 ∉ ends ∧ (x + 1) % 16 = 15 := by
  unfold sharedByte at h
  by_cases hend : x + 1 ∈ ends
  · rw [if_pos hend, if_pos hend] at h
    exact absurd h (by decide)
  · rw [if_neg hend, if_neg hend] at h
    exact ⟨hend, sharedByte_keeps h⟩

end Last

/-! ## What is left of the buffer -/

/-- The entries of a request leave nothing of its bytes but of those of `A`. -/
def Fat12FreshBut (A : Nat → Prop) (d : VdfDrive) (rs : List FileRange) (sector scnt : Nat) : Prop :=
  let ent := firstEntry12 d.bps sector
  let live := rangesFrom rs ent
  d.dataClusterEnd ≤ ent ∨
    EntriesFresh A (walkEnds ent live) (walkFin ent live) (scnt * d.bps) (firstByte12 sector) ent
      (firstOdd12 d.bps sector) True

/-- Nothing is left of the buffer: the second entries that share a byte which the request has not
written set its bits. These are the first entry of the request, and an entry at its last byte that
does not follow the end of a chain. -/
def Fat12Fresh (d : VdfDrive) (rs : List FileRange) (sector scnt : Nat) : Prop :=
  Fat12FreshBut (fun _ => False) d rs sector scnt

section Request

variable {d : VdfDrive} {rs : List FileRange} {sector scnt : Nat} {A : Nat → Prop}

/-- The bytes in front of the first entry are the same in both. -/
theorem fat12Header_twins {m n : Buffer} {p x : Nat}
    (h : ¬ (sector = 0 ∧ p ≤ x ∧ x < p + 3) → m x = n x) :
    fat12Header sector m p x = fat12Header sector n p x := by
  unfold fat12Header
  split
  · exact set_twins rfl fun h1 => set_twins rfl fun h2 => set_twins rfl fun h3 => h (by omega)
  · exact h fun h' => absurd h'.1 ‹_›

/-- The zeros behind what is the same. -/
theorem finishFat_twins {len i : Nat} {m n m' n' : Buffer} {p b : Nat} (hle : i ≤ len)
    (hlt : len < 2 ^ 31) (h : ∀ b < i, m (p + b) = n (p + b))
    (hm : finishFat len i (p + i) m = .ok m') (hn : finishFat len i (p + i) n = .ok n')
    (hb : b < len) : m' (p + b) = n' (p + b) := by
  rw [finishFat_eq hle hlt] at hm hn
  cases hm
  cases hn
  simp only [fill]
  by_cases hi : b < i
  · rw [if_neg (by omega), if_neg (by omega), h b hi]
  · rw [if_pos (by omega), if_pos (by omega)]

/-- Two requests that stay inside make the same of their bytes when the entries leave nothing of
those that are not known. -/
theorem readSectorFat12_alike (hr : Ranged d rs) (hbps : 3 ≤ d.bps) (hpos : 0 < scnt)
    (hlt : (sector + scnt) * d.bps < 2 ^ 31) (hstays : Fat12Stays d rs sector scnt)
    (hfresh : Fat12FreshBut A d rs sector scnt) {m n m' n' : Buffer} {p : Nat}
    (hA : ∀ b < scnt * d.bps, A b → m (p + b) = n (p + b))
    (hm : readSectorFat12 d sector scnt m p = .ok m')
    (hn : readSectorFat12 d sector scnt n p = .ok n') {b : Nat} (hb : b < scnt * d.bps) :
    m' (p + b) = n' (p + b) := by
  have hle : d.bps ≤ scnt * d.bps := Nat.le_mul_of_pos_left _ hpos
  rw [readSectorFat12_eq hbps hpos hlt] at hm hn
  rw [Nat.add_mul] at hlt
  have hbyte : firstByte12 sector ≤ scnt * d.bps := by unfold firstByte12; split <;> omega
  have hhead : ∀ b < firstByte12 sector,
      fat12Header sector m p (p + b) = fat12Header sector n p (p + b) := by
    intro b hb
    unfold firstByte12 at hb
    split at hb
    · exact fat12Header_twins fun h => absurd ⟨‹_›, by omega, by omega⟩ h
    · omega
  have hknown : ∀ b < scnt * d.bps, A b →
      fat12Header sector m p (p + b) = fat12Header sector n p (p + b) :=
    fun b hb hAb => fat12Header_twins fun _ => hA b hb hAb
  generalize fat12Header sector m p = m₁ at hm hhead hknown
  generalize fat12Header sector n p = n₁ at hn hhead hknown
  -- Nothing is looked up.
  have hfree (he : findFileFatEntry d (firstEntry12 d.bps sector) = .ok none) :
      m' (p + b) = n' (p + b) := by
    rw [he] at hm hn
    exact finishFat_twins hbyte (by omega) hhead hm hn hb
  by_cases hend : d.dataClusterEnd ≤ firstEntry12 d.bps sector
  · exact hfree (by rw [findFileFatEntry, if_pos hend])
  · obtain ⟨hfound, hnone⟩ := findFileFatEntry_spec hr (Nat.lt_of_not_le hend)
    rcases rangesFrom_cases rs (firstEntry12 d.bps sector) with
      ⟨hnil, hall⟩ | ⟨front, r, rest, hcons, hrs, hfront, hlt'⟩
    · refine hfree ?_
      have hlook := hnone hall
      split at hlook
      · exact hlook
      · rw [hlook] at hm
        cases hm
    · have hfit := hstays.resolve_left hend
      have hfresh := hfresh.resolve_left hend
      simp only [hcons, reduceCtorEq, ↓reduceIte] at hfit hfresh
      have hlook := hfound front r rest hrs hfront hlt'
      have hat := fun m => Fat12At.first hrs hbps hpos (by rwa [Nat.add_mul]) m p
      rw [hlook] at hm hn
      obtain ⟨i, m₂, hrun, hi, -⟩ := (fat12Loop_stays hr (scnt * d.bps) _ (hat m₁)
        (by dsimp only; omega)).stays hfit
      obtain ⟨n₂, hrun', -, hsame⟩ := fat12Loop_alike hr (scnt * d.bps) _ r.file front.length n₁ True
        (hat m₁) (hat n₁).walk (by dsimp only; omega) hfit hfresh
        ⟨hknown, hhead, fun _ _ => .inr (.inl trivial)⟩ i _ m₂ hrun
      have hm : (fat12Loop d (scnt * d.bps) (scnt * d.bps) _).bind _ = Except.ok m' := hm
      have hn : (fat12Loop d (scnt * d.bps) (scnt * d.bps) _).bind _ = Except.ok n' := hn
      rw [hrun] at hm
      rw [Fat12State.twin] at hrun'
      rw [hrun'] at hn
      exact finishFat_twins hi (by omega) hsame hm hn hb

/-- The loop of a request that writes entries, from its first one on. -/
theorem readSectorFat12_loop (hr : Ranged d rs) (hbps : 3 ≤ d.bps) (hpos : 0 < scnt)
    (hlt : (sector + scnt) * d.bps < 2 ^ 31) {m m' : Buffer} {p : Nat}
    (hm : readSectorFat12 d sector scnt m p = .ok m')
    (hend : ¬ d.dataClusterEnd ≤ firstEntry12 d.bps sector) {ends : List Nat} {fin : Nat}
    (hends : walkEnds (firstEntry12 d.bps sector) (rangesFrom rs (firstEntry12 d.bps sector)) = ends)
    (hfin : walkFin (firstEntry12 d.bps sector) (rangesFrom rs (firstEntry12 d.bps sector)) = fin)
    (hwalk : firstEntry12 d.bps sector < fin) :
    ∃ s i q m₂, Fat12At rs ends fin p (scnt * d.bps) s ∧ s.i = firstByte12 sector ∧
      s.ent = firstEntry12 d.bps sector ∧ s.halfent = firstOdd12 d.bps sector ∧
      s.m = fat12Header sector m p ∧
      fat12Loop d (scnt * d.bps) (scnt * d.bps) s = .ok (i, q, m₂) ∧
      finishFat (scnt * d.bps) i q m₂ = .ok m' := by
  subst hends hfin
  have he := readSectorFat12_eq hbps hpos hlt m p
  rw [hm] at he
  generalize fat12Header sector m p = m₁ at he ⊢
  obtain ⟨hfound, -⟩ := findFileFatEntry_spec hr (Nat.lt_of_not_le hend)
  rcases rangesFrom_cases rs (firstEntry12 d.bps sector) with
    ⟨hnil, -⟩ | ⟨front, r, rest, hcons, hrs, hfront, hlt'⟩
  · rw [hnil] at hwalk
    exact absurd hwalk (Nat.lt_irrefl _)
  · rw [hcons]
    rw [hfound front r rest hrs hfront hlt'] at he
    have hat := Fat12At.first hrs hbps hpos hlt m₁ p
    cases hrun : fat12Loop d (scnt * d.bps) (scnt * d.bps)
      { i := firstByte12 sector, buffer := p + firstByte12 sector
        ent := firstEntry12 d.bps sector, clust := u32 (firstEntry12 d.bps sector + 1)
        halfent := firstOdd12 d.bps sector, file := r.file, rangeInd := front.length, m := m₁ } with
    | error f =>
      have he : Except.ok m' = (fat12Loop d (scnt * d.bps) (scnt * d.bps) _).bind _ := he
      rw [hrun] at he
      cases he
    | ok t =>
      have he : Except.ok m' = (fat12Loop d (scnt * d.bps) (scnt * d.bps) _).bind _ := he
      rw [hrun] at he
      exact ⟨_, t.1, t.2.1, t.2.2, hat, rfl, rfl, rfl, rfl, hrun, he.symm⟩

/-- A second entry that shares a byte with what lay in the buffer. -/
theorem readSectorFat12_shared (hr : Ranged d rs) (hbps : 3 ≤ d.bps) (hpos : 0 < scnt)
    (hlt : (sector + scnt) * d.bps < 2 ^ 31) {m m' : Buffer} {p : Nat}
    (hm : readSectorFat12 d sector scnt m p = .ok m')
    (hend : ¬ d.dataClusterEnd ≤ firstEntry12 d.bps sector) {ends : List Nat} {b k x : Nat}
    (hends : walkEnds (firstEntry12 d.bps sector) (rangesFrom rs (firstEntry12 d.bps sector)) = ends)
    (hb : entryOffset (firstByte12 sector) (firstOdd12 d.bps sector) k = b)
    (hx : firstEntry12 d.bps sector + k = x)
    (hk : x < walkFin (firstEntry12 d.bps sector) (rangesFrom rs (firstEntry12 d.bps sector)))
    (hodd : entryOdd (firstOdd12 d.bps sector) k) (hin : b < scnt * d.bps)
    (hstale : k = 0 ∨ b + 1 = scnt * d.bps ∧ x ∉ ends) :
    m' (p + b) = sharedByte ends x (m (p + b)) := by
  obtain ⟨s, i, q, m₂, hat, hi, hent, hhalf, hmem, hrun, hfin⟩ :=
    readSectorFat12_loop hr hbps hpos hlt hm hend hends rfl (by omega)
  have hfirst : firstByte12 sector ≤ b := hb ▸ Nat.le_add_right _ _
  -- The byte lies behind the first entries of the table.
  have hhead : s.m (p + b) = m (p + b) := by
    rw [hmem, fat12Header]
    split
    · have : firstByte12 sector = 3 := if_pos ‹_›
      simp (disch := omega) only [set_outside]
    · rfl
  have hx' := hat.bound
  have hbuf := hat.buffer
  rw [← hhead]
  rw [← hi, ← hhalf] at hb
  rw [← hhalf] at hodd
  rw [← hent] at hx
  rcases hstale with rfl | ⟨hlast, hends⟩
  · have hh : s.halfent = true := half_of_entryOdd hodd
    have hb : s.buffer = p + b := by
      rw [hh] at hb
      unfold entryOffset at hb
      rw [Bool.toNat_true] at hb
      omega
    obtain ⟨fuel, hfuel⟩ : ∃ n, scnt * d.bps = n + 1 := ⟨scnt * d.bps - 1, by omega⟩
    rw [hfuel] at hrun
    obtain ⟨hq, hm₂⟩ := fat12Loop_half hr hat.walk hat.clust (by omega) (by omega) hh hrun
    rw [hb] at hq hm₂
    rw [finishFat_below hfin hq, hm₂, ← hx]
    rfl
  · obtain ⟨hq, hm₂⟩ := fat12Loop_last hr _ k s hat (Nat.sub_le _ _) (by omega) hodd (by omega)
      (.inr (hx ▸ hends)) hrun
    rw [finishFat_below hfin (by omega)]
    rw [← hlast, Nat.add_sub_cancel, hx] at hm₂
    exact hm₂

/-- Of a request that makes the same of a buffer of zeros and of one of ones, the entries leave
nothing of either. -/
theorem readSectorFat12_fresh (hr : Ranged d rs) (hbps : 3 ≤ d.bps) (hpos : 0 < scnt)
    (hlt : (sector + scnt) * d.bps < 2 ^ 31) {p : Nat} {m n : Buffer}
    (hm : readSectorFat12 d sector scnt (fun _ => 0) p = .ok m)
    (hn : readSectorFat12 d sector scnt (fun _ => 0xff) p = .ok n)
    (hsame : ∀ b < scnt * d.bps, m (p + b) = n (p + b)) : Fat12Fresh d rs sector scnt := by
  by_cases hend : d.dataClusterEnd ≤ firstEntry12 d.bps sector
  · exact .inl hend
  · refine .inr fun k hk hodd hb hstale => .inr ?_
    have hstale := hstale.imp_left fun h => h.2
    have h0 := readSectorFat12_shared hr hbps hpos hlt hm hend rfl rfl rfl hk hodd hb hstale
    have h1 := readSectorFat12_shared hr hbps hpos hlt hn hend rfl rfl rfl hk hodd hb hstale
    exact sharedByte_same (h0.symm.trans ((hsame _ hb).trans h1))

end Request

end Vdf
