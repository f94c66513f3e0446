import Vdf.Lib.BigEndian
import Vdf.Read

/-!
# `vdf_read_bytes`

A range of bytes is an unaligned head, whole sectors and a tail. Head and tail go through a buffer
of one sector on the stack, which holds anything at first; the whole sectors are read in place.

The reader of sectors is a parameter (`SectorReader`): `driveReader` is the one of a drive.
-/

namespace Vdf

open Word Buffer

/-- `vdf_read_sectors` for its callers: from the sector, the count, the memory and the pointer, to
the return value and the memory. -/
abbrev SectorReader := Nat → Nat → Buffer → Nat → Except Fault (Int × Buffer)

/-- The sectors of a drive. -/
def driveReader (env : Readers) (d : VdfDrive) : SectorReader := fun sector cnt m p =>
  (vdfReadSectors env d sector cnt m p).map fun (r, m, _) => (r, m)

/-- An `int` as a `size_t`. -/
def toSize (r : Int) : Nat := (r % 2 ^ 64).toNat

theorem toSize_natCast {n : Nat} (h : n < 2 ^ 32) : toSize n = n := by
  unfold toSize
  omega

/-- The locals of `vdf_read_bytes`. `sbuff` is memory of its own. -/
structure BytesState where
  soff : Nat
  buff : Nat
  rcnt : Nat
  cnt : Nat
  m : Buffer
  sbuff : Buffer

/-- The part in front of the first whole sector. The first component is what the function returns,
if it returns here. -/
def readHead (read : SectorReader) (bps off : Nat) (s : BytesState) :
    Except Fault (Option Int × BytesState) :=
  let doff := off &&& (bps - 1)
  if doff = 0 then .ok (none, s)
  else do
    let want := min (bps - doff) s.cnt
    let (r, sbuff) ← read s.soff 1 s.sbuff 0
    if r ≠ 1 then pure (some r, s)
    else pure (none,
      { soff := u32 (s.soff + 1), buff := s.buff + want, rcnt := s.rcnt + want, cnt := s.cnt - want
        m := s.m.copy s.buff (sbuff.slice doff want), sbuff })

/-- The whole sectors. -/
def readWhole (read : SectorReader) (bps : Nat) (s : BytesState) :
    Except Fault (Option Int × BytesState) :=
  let want := s.cnt / bps
  if want = 0 then .ok (none, s)
  else do
    let (r, m) ← read s.soff (u32 want) s.m s.buff
    if r = -1 then pure (some (-1), { s with m })
    else if toSize r < want then pure (some ((s.rcnt + toSize r * bps : Nat) : Int), { s with m })
    else pure (none,
      { s with soff := u32 (s.soff + want), buff := s.buff + want * bps, rcnt := s.rcnt + want * bps
               cnt := s.cnt - want * bps, m })

/-- What is left behind the last whole sector. -/
def readTail (read : SectorReader) (s : BytesState) : Except Fault (Int × Buffer) :=
  if s.cnt = 0 then .ok (s.rcnt, s.m)
  else do
    let (r, sbuff) ← read s.soff 1 s.sbuff 0
    if r = -1 then pure (-1, s.m)
    else if r = 0 then pure (s.rcnt, s.m)
    else pure ((s.rcnt + s.cnt : Nat), s.m.copy s.buff (sbuff.slice 0 s.cnt))

/-- `vdf_read_bytes`: `cnt` bytes from `off` on, to `p`. `sbuff` is what is on the stack. -/
def vdfReadBytes (read : SectorReader) (d : VdfDrive) (sbuff : Buffer) (off cnt : Nat) (m : Buffer)
    (p : Nat) : Except Fault (Int × Buffer) :=
  if !d.isValid then .ok (-1, m)
  else if cnt = 0 then .ok (0, m)
  else do
    let s : BytesState := { soff := u32 (off / d.bps), buff := p, rcnt := 0, cnt, m, sbuff }
    match ← readHead read d.bps off s with
    | (some r, s) => pure (r, s.m)
    | (none, s) =>
      match ← readWhole read d.bps s with
      | (some r, s) => pure (r, s.m)
      | (none, s) => readTail read s

/-! ## One request after the other -/

/-- The reader serves all of the request from the image. -/
def Fulfils (read : SectorReader) (image : Buffer) (bps sector cnt : Nat) (m : Buffer) (p : Nat) :
    Prop :=
  read sector cnt m p = .ok ((cnt : Int), m.copy p (image.slice (sector * bps) (cnt * bps)))

/-- The length of the head. -/
def headBytes (bps off n : Nat) : Nat := if off % bps = 0 then 0 else min (bps - off % bps) n

/-- `sbuff` behind the head. -/
def headBuffer (image sbuff : Buffer) (bps off : Nat) : Buffer :=
  if off % bps = 0 then sbuff else sbuff.copy 0 (image.slice (off / bps * bps) (1 * bps))

section Steps

variable {read : SectorReader} {image m₀ : Buffer} {bps p off n : Nat} {s : BytesState}

/-- The first `rcnt` bytes of the range are there, and what is left starts a sector. -/
structure Progress (image m₀ : Buffer) (bps p off n : Nat) (s : BytesState) : Prop where
  m : s.m = m₀.copy p (image.slice off s.rcnt)
  buff : s.buff = p + s.rcnt
  cnt : s.rcnt + s.cnt = n
  aligned : s.cnt ≠ 0 → off + s.rcnt = s.soff * bps
  soff : s.soff < 2 ^ 32

/-- Another `k` bytes. -/
theorem Progress.copy {k : Nat} (h : Progress image m₀ bps p off n s) :
    s.m.copy s.buff (image.slice (off + s.rcnt) k) = m₀.copy p (image.slice off (s.rcnt + k)) := by
  rw [h.m, h.buff, ← slice_append image off s.rcnt k, ← copy_append, length_slice]

theorem readHead_aligned (read : SectorReader) (m₀ : Buffer) (p n : Nat) (sbuff : Buffer) {k : Nat}
    (hbps : bps = 2 ^ k) (hoff : off / bps < 2 ^ 32) (hdoff : off % bps = 0) :
    ∃ s, readHead read bps off ⟨u32 (off / bps), p, 0, n, m₀, sbuff⟩ = .ok (none, s) ∧
      Progress image m₀ bps p off n s ∧ s.rcnt = headBytes bps off n ∧
      s.sbuff = headBuffer image sbuff bps off := by
  have hmask : off &&& (bps - 1) = off % bps := by rw [hbps, Nat.and_two_pow_sub_one_eq_mod]
  have hdiv := Nat.div_add_mod off bps
  rw [readHead, hmask, u32_of_lt hoff]
  dsimp only
  rw [if_pos hdoff]
  refine ⟨_, rfl, ⟨?_, rfl, Nat.zero_add n, fun _ => ?_, hoff⟩, ?_, (if_pos hdoff).symm⟩
  · simp [slice, copy_nil]
  · rw [Nat.mul_comm]
    dsimp only
    omega
  · rw [headBytes, if_pos hdoff]

/-- The sector of the head was served. -/
theorem readHead_fulfils {sbuff : Buffer} (m₀ : Buffer) (p n : Nat) {k : Nat} (hbps : bps = 2 ^ k)
    (hoff : off / bps < 2 ^ 32) (hdoff : off % bps ≠ 0)
    (hnext : min (bps - off % bps) n ≠ n → off / bps + 1 < 2 ^ 32)
    (hread : Fulfils read image bps (off / bps) 1 sbuff 0) :
    ∃ s, readHead read bps off ⟨u32 (off / bps), p, 0, n, m₀, sbuff⟩ = .ok (none, s) ∧
      Progress image m₀ bps p off n s ∧ s.rcnt = headBytes bps off n ∧
      s.sbuff = headBuffer image sbuff bps off := by
  have hmask : off &&& (bps - 1) = off % bps := by rw [hbps, Nat.and_two_pow_sub_one_eq_mod]
  have hdiv := Nat.div_add_mod off bps
  have hlt := Nat.mod_lt off (show 0 < bps by rw [hbps]; exact Nat.two_pow_pos k)
  rw [readHead, hmask, u32_of_lt hoff]
  dsimp only
  rw [if_neg hdoff, hread]
  refine ⟨_, rfl, ⟨?_, by simp, ?_, fun hcnt => ?_, u32_lt _⟩, ?_, (if_neg hdoff).symm⟩
  · dsimp only
    rw [Nat.zero_add]
    congr 1
    have := slice_copy (m := sbuff) (a := 0) (l := image.slice (off / bps * bps) (1 * bps))
      (i := off % bps) (n := min (bps - off % bps) n) (by rw [length_slice]; omega)
    rw [Nat.zero_add] at this
    rw [this, slice_drop _ _ _ _ (by omega), slice_take _ _ _ _ (by omega)]
    congr 1
    rw [Nat.mul_comm]
    exact hdiv
  · dsimp only
    omega
  · dsimp only at hcnt ⊢
    rw [u32_of_lt (hnext (by omega)), Nat.succ_mul, Nat.mul_comm (off / bps)]
    omega
  · dsimp only
    rw [Nat.zero_add, headBytes, if_neg hdoff]

/-- The whole sectors were served, if there are any. -/
theorem readWhole_fulfils (hpos : 0 < bps) (h : Progress image m₀ bps p off n s)
    (hwant : s.cnt / bps < 2 ^ 32)
    (hnext : s.cnt % bps ≠ 0 → s.soff + s.cnt / bps < 2 ^ 32)
    (hread : s.cnt / bps ≠ 0 → Fulfils read image bps s.soff (s.cnt / bps) s.m s.buff) :
    ∃ s', readWhole read bps s = .ok (none, s') ∧ Progress image m₀ bps p off n s' ∧
      s'.rcnt = s.rcnt + s.cnt / bps * bps ∧ s'.cnt < bps ∧ s'.sbuff = s.sbuff := by
  have hdiv := Nat.div_add_mod s.cnt bps
  have hlt := Nat.mod_lt s.cnt hpos
  rw [Nat.mul_comm] at hdiv
  rw [readWhole]
  dsimp only
  by_cases hzero : s.cnt / bps = 0
  · rw [if_pos hzero, hzero, Nat.zero_mul]
    rw [hzero, Nat.zero_mul, Nat.zero_add] at hdiv
    exact ⟨s, rfl, h, rfl, by omega, rfl⟩
  · have hcnt : s.cnt ≠ 0 := fun e => hzero (by rw [e, Nat.zero_div])
    have hal := h.aligned hcnt
    have hsum := h.cnt
    have hsize := toSize_natCast hwant
    have hne : ((s.cnt / bps : Nat) : Int) ≠ -1 := by omega
    rw [if_neg hzero, u32_of_lt hwant, hread hzero]
    refine ⟨{ s with
        soff := u32 (s.soff + s.cnt / bps), buff := s.buff + s.cnt / bps * bps
        rcnt := s.rcnt + s.cnt / bps * bps, cnt := s.cnt - s.cnt / bps * bps
        m := s.m.copy s.buff (image.slice (s.soff * bps) (s.cnt / bps * bps)) },
      by simp only [bind, Except.bind, if_neg hne, hsize, Nat.lt_irrefl, ↓reduceIte, pure,
        Except.pure], ⟨?_, ?_, ?_, fun hrest => ?_, u32_lt _⟩, rfl, ?_, rfl⟩
    · dsimp only
      rw [← hal, h.copy]
    · dsimp only
      rw [h.buff, Nat.add_assoc]
    · dsimp only
      omega
    · dsimp only at hrest ⊢
      rw [u32_of_lt (hnext (by omega)), Nat.add_mul]
      omega
    · dsimp only
      omega

/-- The sector of the tail was served, if there is one. -/
theorem readTail_fulfils (h : Progress image m₀ bps p off n s) (hlt : s.cnt < bps)
    (hread : s.cnt ≠ 0 → Fulfils read image bps s.soff 1 s.sbuff 0) :
    readTail read s = .ok ((n : Int), m₀.copy p (image.slice off n)) := by
  have hsum := h.cnt
  rw [readTail]
  by_cases hcnt : s.cnt = 0
  · have hn : s.rcnt = n := by omega
    rw [if_pos hcnt, h.m, hn]
  · have hal := h.aligned hcnt
    rw [if_neg hcnt, hread hcnt]
    have hslice := slice_copy (m := s.sbuff) (a := 0) (l := image.slice (s.soff * bps) (1 * bps))
      (i := 0) (n := s.cnt) (by rw [length_slice]; omega)
    rw [Nat.add_zero, List.drop_zero, slice_take _ _ _ _ (by omega), ← hal] at hslice
    simp only [bind, Except.bind, pure, Except.pure]
    rw [← hal, hslice, h.copy, hsum]
    rfl

end Steps

/-! ## A range inside the drive -/

/-- The reader serves the image over the first `sectors` sectors. -/
def Serves (read : SectorReader) (image : Buffer) (bps sectors : Nat) : Prop :=
  ∀ sector cnt m p, sector + cnt ≤ sectors →
    read sector cnt m p = .ok ((cnt : Int), m.copy p (image.slice (sector * bps) (cnt * bps)))

section Serves

variable {read : SectorReader} {image m₀ : Buffer} {bps sectors p off n : Nat} {s : BytesState}

/-- What is left lies in the image. -/
theorem Progress.fits (h : Progress image m₀ bps p off n s)
    (hend : off + n ≤ sectors * bps) (hcnt : s.cnt ≠ 0) :
    s.soff * bps + s.cnt ≤ sectors * bps ∧ s.soff < sectors := by
  have hal := h.aligned hcnt
  have hsum := h.cnt
  refine ⟨by omega, Nat.lt_of_mul_lt_mul_right (a := bps) ?_⟩
  omega

/-- `vdf_read_bytes` serves any range of the image. -/
theorem vdfReadBytes_serves {d : VdfDrive} {k : Nat} (hread : Serves read image bps sectors)
    (hsectors : sectors < 2 ^ 32) (hpos : 0 < bps) (hend : off + n ≤ sectors * bps)
    (hd : d.isValid = true) (hb : d.bps = bps) (hbps : bps = 2 ^ k) (sbuff : Buffer) :
    vdfReadBytes read d sbuff off n m₀ p = .ok ((n : Int), m₀.copy p (image.slice off n)) := by
  rw [vdfReadBytes, hd, hb]
  by_cases hn : n = 0
  · simp [hn, slice, copy_nil]
  · have hdiv := Nat.div_add_mod off bps
    have hlt := Nat.mod_lt off hpos
    rw [Nat.mul_comm] at hdiv
    have hsoff : off / bps < sectors := by
      rw [Nat.div_lt_iff_lt_mul hpos]
      omega
    have hhead : ∃ s, readHead read bps off ⟨u32 (off / bps), p, 0, n, m₀, sbuff⟩ = .ok (none, s) ∧
        Progress image m₀ bps p off n s ∧ s.rcnt = headBytes bps off n ∧
        s.sbuff = headBuffer image sbuff bps off := by
      by_cases hdoff : off % bps = 0
      · exact readHead_aligned read m₀ p n sbuff hbps (by omega) hdoff
      · refine readHead_fulfils m₀ p n hbps (by omega) hdoff (fun hmore => ?_)
          (hread _ _ _ _ (by omega))
        have : (off / bps + 1) * bps < sectors * bps := by
          rw [Nat.succ_mul]
          omega
        have := Nat.lt_of_mul_lt_mul_right this
        omega
    obtain ⟨s, hs, hprog, -⟩ := hhead
    have hcntdiv := Nat.div_add_mod s.cnt bps
    rw [Nat.mul_comm] at hcntdiv
    have hwhole : s.cnt / bps ≠ 0 → s.soff + s.cnt / bps ≤ sectors := by
      intro hzero
      have hcnt : s.cnt ≠ 0 := fun e => hzero (by rw [e, Nat.zero_div])
      refine Nat.le_of_mul_le_mul_right ?_ hpos
      rw [Nat.add_mul]
      have := (hprog.fits hend hcnt).1
      omega
    have hnext : s.cnt % bps ≠ 0 → s.soff + s.cnt / bps < sectors := by
      intro hmod
      have hcnt : s.cnt ≠ 0 := fun e => hmod (by rw [e, Nat.zero_mod])
      refine Nat.lt_of_mul_lt_mul_right (a := bps) ?_
      rw [Nat.add_mul]
      have := (hprog.fits hend hcnt).1
      omega
    have hwant : s.cnt / bps < 2 ^ 32 := by
      by_cases hzero : s.cnt / bps = 0
      · omega
      · have := hwhole hzero
        omega
    obtain ⟨s', hs', hprog', -, hlt', -⟩ := readWhole_fulfils hpos hprog hwant
      (fun hmod => by have := hnext hmod; omega) (fun hzero => hread _ _ _ _ (hwhole hzero))
    have htail : s'.cnt ≠ 0 → Fulfils read image bps s'.soff 1 s'.sbuff 0 := by
      intro hcnt
      have := (hprog'.fits hend hcnt).2
      exact hread _ _ _ _ (by omega)
    simp only [Bool.not_true, Bool.false_eq_true, ↓reduceIte, hn, hs, hs', bind, Except.bind,
      readTail_fulfils hprog' hlt' htail]

end Serves

/-! ## Any range -/

/-- The reader serves the image of `sectors` sectors as far as it goes, or fails. The return value
is an `int`. -/
def ServesUpTo (read : SectorReader) (image : Buffer) (bps sectors : Nat) : Prop :=
  ∀ sector cnt m p, sector < 2 ^ 32 → cnt < 2 ^ 31 →
    (∃ m', read sector cnt m p = .ok (-1, m')) ∨
      read sector cnt m p = .ok (((min cnt (sectors - sector) : Nat) : Int),
        m.copy p (image.slice (sector * bps) (min cnt (sectors - sector) * bps)))

/-- The sectors that a range asks for: the one of the head, the whole ones, the one of the tail. -/
def byteRequests (bps off n : Nat) : List (Nat × Nat) :=
  let head := headBytes bps off n
  let first := (off + head) / bps
  let whole := (n - head) / bps
  (if off % bps = 0 then [] else [(off / bps, 1)]) ++
    (if whole = 0 then [] else [(first, whole)]) ++
    (if (n - head) % bps = 0 then [] else [(first + whole, 1)])

/-- A call of the reader: the sector, the count, the memory and the pointer. -/
structure SectorCall where
  sector : Nat
  cnt : Nat
  m : Buffer
  p : Nat

def SectorCall.Served (c : SectorCall) (read : SectorReader) (image : Buffer) (bps : Nat) : Prop :=
  Fulfils read image bps c.sector c.cnt c.m c.p

def SectorCall.Fails (c : SectorCall) (read : SectorReader) : Prop :=
  ∃ m', read c.sector c.cnt c.m c.p = .ok (-1, m')

section Calls

variable (image m₀ sbuff : Buffer) (bps p off n : Nat)

/-- The call for the head. -/
def headCalls : List SectorCall :=
  if off % bps = 0 then [] else [⟨off / bps, 1, sbuff, 0⟩]

/-- The call for the whole sectors, behind a head that was served. -/
def wholeCalls : List SectorCall :=
  let head := headBytes bps off n
  if (n - head) / bps = 0 then []
  else [⟨(off + head) / bps, (n - head) / bps, m₀.copy p (image.slice off head), p + head⟩]

/-- The call for the tail, behind a head and whole sectors that were served. -/
def tailCalls : List SectorCall :=
  let head := headBytes bps off n
  if (n - head) % bps = 0 then []
  else [⟨(off + head) / bps + (n - head) / bps, 1, headBuffer image sbuff bps off, 0⟩]

/-- The calls of `vdf_read_bytes` in order, each as it is made when those in front were served. -/
def byteCalls : List SectorCall :=
  headCalls sbuff bps off ++ wholeCalls image m₀ bps p off n ++ tailCalls image sbuff bps off n

/-- They are for the sectors of the range. -/
theorem byteCalls_requests :
    (byteCalls image m₀ sbuff bps p off n).map (fun c => (c.sector, c.cnt)) =
      byteRequests bps off n := by
  unfold byteCalls headCalls wholeCalls tailCalls byteRequests
  simp only [List.map_append]
  split_ifs <;> rfl

end Calls

/-- The last call that was made failed. -/
def ReadFails (read : SectorReader) (image : Buffer) (bps : Nat) (calls : List SectorCall) : Prop :=
  ∃ before c after, calls = before ++ c :: after ∧ (∀ b ∈ before, b.Served read image bps) ∧
    c.Fails read

/-- The bytes from `off` on. -/
def bytesFrom (bps sectors off : Nat) : Nat := sectors * bps - off

/-- -1 because the call that was made last failed, or all bytes of the range that there are. -/
def BytesRead (read : SectorReader) (image : Buffer) (bps sectors off n : Nat)
    (m₀ sbuff : Buffer) (p : Nat) (r : Int × Buffer) : Prop :=
  (r.1 = -1 ∧ ReadFails read image bps (byteCalls image m₀ sbuff bps p off n)) ∨
    r = (((min n (bytesFrom bps sectors off) : Nat) : Int),
      m₀.copy p (image.slice off (min n (bytesFrom bps sectors off))))

section UpTo

variable {read : SectorReader} {image m₀ : Buffer} {bps sectors p off n : Nat} {s : BytesState}

theorem headBytes_le (bps off n : Nat) : headBytes bps off n ≤ n := by
  unfold headBytes
  split
  · exact Nat.zero_le n
  · exact Nat.min_le_right ..

/-- What a request of `cnt` sectors can come to. -/
theorem ServesUpTo.cases (h : ServesUpTo read image bps sectors) {sector : Nat}
    (hsector : sector < 2 ^ 32) (cnt : Nat) (hcnt : cnt < 2 ^ 31) (m : Buffer) (p : Nat) :
    (∃ m', read sector cnt m p = .ok (-1, m')) ∨
      (sectors < sector + cnt ∧ read sector cnt m p = .ok (((sectors - sector : Nat) : Int),
        m.copy p (image.slice (sector * bps) ((sectors - sector) * bps)))) ∨
      (sector + cnt ≤ sectors ∧ Fulfils read image bps sector cnt m p) := by
  rcases h sector cnt m p hsector hcnt with hfail | hok
  · exact .inl hfail
  · by_cases hshort : sectors < sector + cnt
    · rw [show min cnt (sectors - sector) = sectors - sector by omega] at hok
      exact .inr (.inl ⟨hshort, hok⟩)
    · rw [show min cnt (sectors - sector) = cnt by omega] at hok
      exact .inr (.inr ⟨by omega, hok⟩)

/-- The head is read, or the function returns. -/
theorem readHead_upTo (hread : ServesUpTo read image bps sectors) {k : Nat} (hbps : bps = 2 ^ k)
    (hsectors : sectors < 2 ^ 32) (hoff : off / bps < 2 ^ 32) (m₀ : Buffer) (p n : Nat)
    (sbuff : Buffer) :
    (∃ r s, readHead read bps off ⟨u32 (off / bps), p, 0, n, m₀, sbuff⟩ = .ok (some r, s) ∧
      BytesRead read image bps sectors off n m₀ sbuff p (r, s.m)) ∨
    ∃ s, readHead read bps off ⟨u32 (off / bps), p, 0, n, m₀, sbuff⟩ = .ok (none, s) ∧
      Progress image m₀ bps p off n s ∧ s.rcnt = headBytes bps off n ∧
      s.sbuff = headBuffer image sbuff bps off ∧ s.rcnt ≤ bytesFrom bps sectors off ∧
      ∀ c ∈ headCalls sbuff bps off, c.Served read image bps := by
  have hmask : off &&& (bps - 1) = off % bps := by rw [hbps, Nat.and_two_pow_sub_one_eq_mod]
  have hpos : 0 < bps := by rw [hbps]; exact Nat.two_pow_pos k
  by_cases hdoff : off % bps = 0
  · obtain ⟨s, hs, hprog, hrcnt, hsbuff⟩ := readHead_aligned read m₀ p n sbuff hbps hoff hdoff
    refine .inr ⟨s, hs, hprog, hrcnt, hsbuff, ?_, ?_⟩
    · rw [hrcnt, headBytes, if_pos hdoff]
      exact Nat.zero_le _
    · simp [headCalls, hdoff]
  · have hreturns : ∀ r m', read (off / bps) 1 sbuff 0 = .ok (r, m') → r ≠ 1 →
        readHead read bps off ⟨u32 (off / bps), p, 0, n, m₀, sbuff⟩ =
          .ok (some r, ⟨u32 (off / bps), p, 0, n, m₀, sbuff⟩) := by
      intro r m' hr hne
      rw [readHead, hmask]
      dsimp only
      rw [if_neg hdoff, u32_of_lt hoff, hr]
      simp only [bind, Except.bind, if_pos hne]
      rfl
    have hdiv := Nat.div_add_mod off bps
    have hlt := Nat.mod_lt off hpos
    rw [Nat.mul_comm] at hdiv
    rcases hread.cases hoff 1 (by omega) sbuff 0 with ⟨m', hfail⟩ | ⟨hshort, hok⟩ | ⟨hle, hok⟩
    · have hcalls : byteCalls image m₀ sbuff bps p off n = [] ++ ⟨off / bps, 1, sbuff, 0⟩ ::
          (wholeCalls image m₀ bps p off n ++ tailCalls image sbuff bps off n) := by
        rw [byteCalls, headCalls, if_neg hdoff, List.append_assoc]
        rfl
      exact .inl ⟨_, _, hreturns _ _ hfail (by omega),
        .inl ⟨rfl, _, _, _, hcalls, List.forall_mem_nil _, m', hfail⟩⟩
    · -- the range starts behind the image
      have hzero : sectors - off / bps = 0 := by omega
      rw [hzero] at hok
      have hnone : bytesFrom bps sectors off = 0 := by
        have := Nat.mul_le_mul_right bps (show sectors ≤ off / bps by omega)
        unfold bytesFrom
        omega
      refine .inl ⟨_, _, hreturns _ _ hok (by omega), .inr ?_⟩
      rw [hnone, Nat.min_zero]
      simp [slice, copy_nil]
    · obtain ⟨s, hs, hprog, hrcnt, hsbuff⟩ :=
        readHead_fulfils m₀ p n hbps hoff hdoff (fun _ => by omega) hok
      refine .inr ⟨s, hs, hprog, hrcnt, hsbuff, ?_, ?_⟩
      · have := Nat.mul_le_mul_right bps hle
        rw [Nat.succ_mul] at this
        rw [hrcnt, headBytes, if_neg hdoff, bytesFrom]
        omega
      · rw [headCalls, if_neg hdoff]
        exact List.forall_mem_singleton.2 hok

/-- The bytes of the sectors that there are from `soff` on. -/
theorem Progress.rest (h : Progress image m₀ bps p off n s) (hcnt : s.cnt ≠ 0)
    (hin : s.rcnt ≤ bytesFrom bps sectors off) :
    s.rcnt + (sectors - s.soff) * bps = bytesFrom bps sectors off := by
  have hal := h.aligned hcnt
  unfold bytesFrom at hin ⊢
  rw [Nat.sub_mul]
  omega

/-- The sector that is next. -/
theorem Progress.soff_eq (h : Progress image m₀ bps p off n s) (hpos : 0 < bps) (hcnt : s.cnt ≠ 0) :
    s.soff = (off + s.rcnt) / bps := by
  rw [h.aligned hcnt, Nat.mul_div_cancel _ hpos]

/-- The whole sectors are read, or the function returns. -/
theorem readWhole_upTo (hread : ServesUpTo read image bps sectors) (hpos : 0 < bps)
    (hsectors : sectors < 2 ^ 32) (hn : n / bps < 2 ^ 31) (h : Progress image m₀ bps p off n s)
    (hrcnt : s.rcnt = headBytes bps off n) (hin : s.rcnt ≤ bytesFrom bps sectors off)
    {sbuff : Buffer} (hhead : ∀ c ∈ headCalls sbuff bps off, c.Served read image bps) :
    (∃ r s', readWhole read bps s = .ok (some r, s') ∧
      BytesRead read image bps sectors off n m₀ sbuff p (r, s'.m)) ∨
    ∃ s', readWhole read bps s = .ok (none, s') ∧ Progress image m₀ bps p off n s' ∧
      s'.rcnt = s.rcnt + s.cnt / bps * bps ∧ s'.cnt < bps ∧ s'.sbuff = s.sbuff ∧
      s'.rcnt ≤ bytesFrom bps sectors off ∧
      ∀ c ∈ wholeCalls image m₀ bps p off n, c.Served read image bps := by
  have hsum := h.cnt
  have hleft : n - headBytes bps off n = s.cnt := by omega
  have hwant : s.cnt / bps < 2 ^ 31 := Nat.lt_of_le_of_lt (Nat.div_le_div_right (by omega)) hn
  by_cases hzero : s.cnt / bps = 0
  · have hwhole : readWhole read bps s = .ok (none, s) := by
      rw [readWhole]
      exact if_pos hzero
    have hlt : s.cnt < bps := (Nat.div_eq_zero_iff.1 hzero).resolve_left (by omega)
    refine .inr ⟨s, hwhole, h, by rw [hzero, Nat.zero_mul, Nat.add_zero], hlt, rfl, hin, ?_⟩
    simp [wholeCalls, hleft, hzero]
  · have hcnt : s.cnt ≠ 0 := fun e => hzero (by rw [e, Nat.zero_div])
    have hpos' := Nat.pos_of_ne_zero hzero
    have hal := h.aligned hcnt
    have hrest := h.rest hcnt hin
    have hcalls : wholeCalls image m₀ bps p off n = [⟨s.soff, s.cnt / bps, s.m, s.buff⟩] := by
      rw [wholeCalls, hleft, if_neg hzero, ← hrcnt, ← h.soff_eq hpos hcnt, ← h.m, ← h.buff]
    rcases hread.cases h.soff _ hwant s.m s.buff with ⟨m', hfail⟩ | ⟨hshort, hok⟩ | ⟨hle, hok⟩
    · refine .inl ⟨-1, { s with m := m' }, ?_,
        .inl ⟨rfl, _, ⟨s.soff, s.cnt / bps, s.m, s.buff⟩, tailCalls image sbuff bps off n, ?_,
          hhead, m', hfail⟩⟩
      swap
      · rw [byteCalls, hcalls, List.append_assoc]
        rfl
      rw [readWhole]
      dsimp only
      rw [if_neg hzero, u32_of_lt (by omega), hfail]
      simp only [bind, Except.bind, ↓reduceIte]
      rfl
    · -- the image ends in the range
      have hne : ((sectors - s.soff : Nat) : Int) ≠ -1 := by omega
      have hsize := toSize_natCast (n := sectors - s.soff) (by omega)
      have hlt : sectors - s.soff < s.cnt / bps := by omega
      have hwhole : ∃ s', readWhole read bps s =
          .ok (some ((s.rcnt + (sectors - s.soff) * bps : Nat) : Int), s') ∧
          s'.m = s.m.copy s.buff (image.slice (s.soff * bps) ((sectors - s.soff) * bps)) := by
        rw [readWhole]
        dsimp only
        rw [if_neg hzero, u32_of_lt (by omega), hok]
        simp only [bind, Except.bind, if_neg hne, hsize, if_pos hlt]
        exact ⟨_, rfl, rfl⟩
      obtain ⟨s', hs', hm⟩ := hwhole
      refine .inl ⟨_, s', hs', .inr ?_⟩
      have hdiv := Nat.div_mul_le_self s.cnt bps
      have hbytes := Nat.mul_le_mul_right bps (Nat.le_of_lt hlt)
      have hmin : min n (bytesFrom bps sectors off) = s.rcnt + (sectors - s.soff) * bps := by
        omega
      rw [hm, hmin, ← hal, h.copy]
    · obtain ⟨s', hs', hprog', hrcnt', hlt', hsbuff⟩ := readWhole_fulfils hpos h (by omega)
        (fun _ => by omega) (fun _ => hok)
      refine .inr ⟨s', hs', hprog', hrcnt', hlt', hsbuff, ?_, ?_⟩
      · have := Nat.mul_le_mul_right bps (show s.cnt / bps ≤ sectors - s.soff by omega)
        omega
      · rw [hcalls]
        exact List.forall_mem_singleton.2 hok

/-- The tail. -/
theorem readTail_upTo (hread : ServesUpTo read image bps sectors) (hpos : 0 < bps)
    (h : Progress image m₀ bps p off n s)
    (hrcnt : s.rcnt = headBytes bps off n + (n - headBytes bps off n) / bps * bps)
    (hlt : s.cnt < bps) (hin : s.rcnt ≤ bytesFrom bps sectors off) {sbuff : Buffer}
    (hsbuff : s.sbuff = headBuffer image sbuff bps off)
    (hfront : ∀ c ∈ headCalls sbuff bps off ++ wholeCalls image m₀ bps p off n,
      c.Served read image bps) :
    ∃ r, readTail read s = .ok r ∧ BytesRead read image bps sectors off n m₀ sbuff p r := by
  have hsum := h.cnt
  by_cases hcnt : s.cnt = 0
  · refine ⟨_, readTail_fulfils h hlt (fun hne => absurd hcnt hne), .inr ?_⟩
    rw [show min n (bytesFrom bps sectors off) = n by omega]
  · have hal := h.aligned hcnt
    have hrest := h.rest hcnt hin
    have hhead := headBytes_le bps off n
    have hmod : (n - headBytes bps off n) % bps = s.cnt := by
      have := Nat.div_add_mod (n - headBytes bps off n) bps
      rw [Nat.mul_comm] at this
      omega
    have hcalls : tailCalls image sbuff bps off n = [⟨s.soff, 1, s.sbuff, 0⟩] := by
      have hsoff := h.soff_eq hpos hcnt
      rw [hrcnt, ← Nat.add_assoc, Nat.add_mul_div_right _ _ hpos] at hsoff
      rw [tailCalls, hmod, if_neg hcnt, ← hsoff, ← hsbuff]
    rcases hread.cases h.soff 1 (by omega) s.sbuff 0 with
      ⟨m', hfail⟩ | ⟨hshort, hok⟩ | ⟨hle, hok⟩
    · refine ⟨(-1, s.m), ?_,
        .inl ⟨rfl, _, ⟨s.soff, 1, s.sbuff, 0⟩, [], by rw [byteCalls, hcalls], hfront, m', hfail⟩⟩
      rw [readTail, if_neg hcnt, hfail]
      simp only [bind, Except.bind, ↓reduceIte]
      rfl
    · have hzero : sectors - s.soff = 0 := by omega
      rw [hzero] at hok
      rw [hzero, Nat.zero_mul, Nat.add_zero] at hrest
      refine ⟨(s.rcnt, s.m), ?_, .inr ?_⟩
      · rw [readTail, if_neg hcnt, hok]
        simp only [bind, Except.bind]
        rfl
      · rw [show min n (bytesFrom bps sectors off) = s.rcnt by omega, h.m]
    · refine ⟨_, readTail_fulfils h hlt (fun _ => hok), .inr ?_⟩
      have := Nat.mul_le_mul_right bps (show 1 ≤ sectors - s.soff by omega)
      rw [show min n (bytesFrom bps sectors off) = n by omega]

/-- `vdf_read_bytes` returns all bytes of the range that there are, or -1 because its last call of
the reader failed. -/
theorem vdfReadBytes_upTo {d : VdfDrive} (hread : ServesUpTo read image d.bps sectors)
    (hsectors : sectors < 2 ^ 32) (hd : d.isValid = true) {k : Nat} (hk : 9 ≤ k)
    (hbps : d.bps = 2 ^ k) (hoff : off < 2 ^ 32 * d.bps) (hn : n < 2 ^ 32) (m₀ : Buffer) (p : Nat)
    (sbuff : Buffer) :
    ∃ r, vdfReadBytes read d sbuff off n m₀ p = .ok r ∧
      BytesRead read image d.bps sectors off n m₀ sbuff p r := by
  have hpos : 0 < d.bps := by rw [hbps]; exact Nat.two_pow_pos k
  have hsmall : 2 ^ 9 ≤ d.bps := by rw [hbps]; exact Nat.pow_le_pow_right (by omega) hk
  have hsoff : off / d.bps < 2 ^ 32 := (Nat.div_lt_iff_lt_mul hpos).2 hoff
  have hwant : n / d.bps < 2 ^ 31 := by
    rw [Nat.div_lt_iff_lt_mul hpos]
    exact Nat.lt_of_lt_of_le hn (Nat.le_trans (by omega) (Nat.mul_le_mul_left (2 ^ 31) hsmall))
  rw [vdfReadBytes, hd]
  by_cases hzero : n = 0
  · refine ⟨(0, m₀), by simp [hzero], .inr ?_⟩
    simp [hzero, slice, copy_nil]
  · simp only [Bool.not_true, Bool.false_eq_true, ↓reduceIte, hzero]
    rcases readHead_upTo hread hbps hsectors hsoff m₀ p n sbuff with
      ⟨r, s, hs, hdone⟩ | ⟨s, hs, hprog, hrcnt, hsbuff, hin, hhead⟩
    · exact ⟨_, by simp only [hs, bind, Except.bind]; rfl, hdone⟩
    · rcases readWhole_upTo hread hpos hsectors hwant hprog hrcnt hin hhead with
        ⟨r, s', hs', hdone⟩ | ⟨s', hs', hprog', hrcnt', hlt, hsbuff', hin', hwhole⟩
      · exact ⟨_, by simp only [hs, hs', bind, Except.bind]; rfl, hdone⟩
      · have hcnt := hprog.cnt
        have hleft : s.cnt = n - headBytes d.bps off n := by omega
        rw [hleft, hrcnt] at hrcnt'
        obtain ⟨r, hr, hdone⟩ := readTail_upTo hread hpos hprog' hrcnt' hlt hin'
          (hsbuff'.trans hsbuff) (List.forall_mem_append.2 ⟨hhead, hwhole⟩)
        exact ⟨r, by simp only [hs, hs', bind, Except.bind, hr], hdone⟩

end UpTo

/-- The reader that never fails. -/
def endedReader (image : Buffer) (bps sectors : Nat) : SectorReader := fun sector cnt m p =>
  .ok (((min cnt (sectors - sector) : Nat) : Int),
    m.copy p (image.slice (sector * bps) (min cnt (sectors - sector) * bps)))

/-- A drive of three sectors. -/
def threeSectors : VdfDrive :=
  { flags := 0, filesys := .fat12, bps := 512, spc := 1, bpc := 512, sectors := 3, clusters := 0
    bytes := 1536, rootDirCnt := 0, mbrSectors := 0, direntPerSector := 16, fatSectors := 1
    fat1Start := 1, fat2Start := 2, rootStart := 3, rootSectors := 0, dataStart := 3
    file := fun _ => {}, allFiles := [], fileCnt := 0, dataEnd := 3 }

/-- 2000 bytes from 700 on: a head, one whole sector, and the end of the drive. -/
theorem vdfReadBytes_three :
    ∃ r, vdfReadBytes (endedReader (fun x => UInt8.ofNat (x / 8)) 512 3) threeSectors (fun _ => 0)
      700 2000 (fun _ => 0) 0 = .ok r ∧
      BytesRead (endedReader (fun x => UInt8.ofNat (x / 8)) 512 3) (fun x => UInt8.ofNat (x / 8))
        512 3 700 2000 (fun _ => 0) (fun _ => 0) 0 r :=
  vdfReadBytes_upTo (d := threeSectors) (fun _ _ _ _ _ _ => .inr rfl) (by decide) rfl
    (Nat.le_refl 9) rfl (by decide) (by decide) (fun _ => 0) 0 (fun _ => 0)

end Vdf
