import Vdf.BootParse
import Vdf.Frame
import Vdf.NbdSpec

/-!
# The ranges that are read

The check of `NBD_CMD_READ` adds offset and length in 64 bits. Where the sum wraps, it can pass for a
range that starts close to `2^64`, and `vdf_read_bytes` is called for it.
-/

namespace Vdf

open Word Buffer

/-- The check tells the truth, or nothing is read. -/
def RangeChecked (d : VdfDrive) (off len : Nat) : Prop :=
  len = 0 ∨ off + len < 2 ^ 64 ∨ d.bytes < (off + len) % 2 ^ 64

/-- All calls of `vdf_read_bytes` are for ranges of the drive. -/
def CallsInRange (d : VdfDrive) (c : Conn) : Prop := ∀ q ∈ c.calls, q.1 + q.2 ≤ d.bytes

/-- A reader that fails. -/
def noReader : SectorReader := fun _ _ m _ => .ok (-1, m)

/-- A drive behind it, and a network that transfers everything. -/
def deafLink (drive : VdfDrive) : Link :=
  { net := Net.whole, drive, read := noReader, stack := fun _ => 0 }

/-- The same with a reader that serves an image. -/
def servingLink (drive : VdfDrive) : Link :=
  { deafLink drive with read := endedReader UInt8.ofNat drive.bps drive.sectors }

namespace Link

variable {l : Link} {c : Conn}

theorem readBytes_inRange {off n : Nat} (hc : CallsInRange l.drive c)
    (hoff : off + n ≤ l.drive.bytes) : Exits (l.readBytes off n) c
      (fun _ c' => CallsInRange l.drive c') (fun _ c' => CallsInRange l.drive c') := by
  have hcalls : ∀ q ∈ c.calls ++ [(off, n)], q.1 + q.2 ≤ l.drive.bytes := by
    intro q hq
    rcases List.mem_append.1 hq with hq | hq
    · exact hc q hq
    · rw [List.mem_singleton.1 hq]
      exact hoff
  unfold Exits Link.readBytes
  dsimp only
  cases vdfReadBytes l.read l.drive l.stack off n c.buff 0 with
  | error f => exact hcalls
  | ok q =>
    dsimp only
    split_ifs <;> exact hcalls

/-- One chunk after the other stays in the range. -/
theorem sendLoop_inRange {fuel off len : Nat} (hc : CallsInRange l.drive c)
    (hoff : off + len ≤ l.drive.bytes) (hbytes : l.drive.bytes < 2 ^ 64) :
    Exits (l.sendLoop fuel off len) c
      (fun _ c' => CallsInRange l.drive c') (fun _ c' => CallsInRange l.drive c') := by
  induction fuel generalizing off len c with
  | zero =>
    rw [sendLoop]
    split
    · exact Exits.pure hc
    · exact Exits.throw hc
  | succ fuel ih =>
    rw [sendLoop]
    split
    · exact Exits.pure hc
    · rename_i hlen
      have hmin := Nat.min_le_left len l.drive.bpc
      refine Exits.bind (readBytes_inRange hc (by omega)) fun _ c₁ hc₁ => ?_
      refine Exits.bind (Exits.get (Q := fun _ c' => CallsInRange l.drive c') hc₁) fun b c₂ hc₂ => ?_
      refine Exits.bind (Q := fun _ c' => CallsInRange l.drive c')
        (sockWrite_exits.mono ?_ ?_) fun _ c₃ hc₃ => ?_
      · rintro _ _ ⟨sock, rfl, -⟩
        exact hc₂
      · rintro _ _ ⟨⟨sock, rfl, -⟩, -⟩
        exact hc₂
      · rw [u64, Nat.mod_eq_of_lt (by omega)]
        exact ih hc₃ (by omega)

section Read

variable {r : NbdRequest} {fuel : Nat}

/-- What is done with a `NBD_CMD_READ`. -/
theorem nbdRequest_read (hr : c.Holds r) (hcmd : r.cmd = .read) : l.nbdRequest fuel c =
    if l.drive.bytes < u64 (r.off.toNat + r.len.toNat) then .ok () c
    else (l.reply >>= fun _ => l.sendRange r.off.toNat r.len.toNat) c := by
  rw [nbdRequest_eq hr, hcmd]
  dsimp only
  split <;> rfl

theorem act_inRange {k : Nat} (hr : c.Holds r) (hcmd : r.cmd = .read)
    (hok : RangeChecked l.drive r.off.toNat r.len.toNat) (hbytes : l.drive.bytes < 2 ^ 64)
    (hc : CallsInRange l.drive c) : Exits (l.act fuel k) c
      (fun _ c' => CallsInRange l.drive c') (fun _ c' => CallsInRange l.drive c') := by
  have hr' : Conn.Holds { c with acted := c.acted ++ [k] } r := hr
  have hrun := (act_eq (l := l) fuel k hr).trans (nbdRequest_read hr' hcmd)
  split_ifs at hrun with hcheck
  · exact Exits.of_ok hrun hc
  · refine Exits.of_eq hrun ?_
    refine Exits.bind (Q := fun _ c' => CallsInRange l.drive c') (reply_exits.mono ?_ ?_)
      fun _ c' hc' => ?_
    · rintro _ c' ⟨hcalls, -⟩ q hq
      rw [hcalls] at hq
      exact hc q hq
    · rintro _ c' ⟨hcalls, -⟩ q hq
      rw [hcalls] at hq
      exact hc q hq
    · rcases hok with hzero | hlt | hover
      · rw [hzero]
        exact Exits.pure hc'
      · rw [u64, Nat.mod_eq_of_lt hlt] at hcheck
        exact sendLoop_inRange hc' (by omega) hbytes
      · exact absurd hover hcheck

/-- So does a round of either driver, at its first call. -/
theorem round_inRange {d : NbdDriver} {n : Nat} {rest : List UInt8}
    (hin : c.sock.input = r.encode ++ rest) (hcmd : r.cmd = .read)
    (hok : RangeChecked l.drive r.off.toNat r.len.toNat) (hbytes : l.drive.bytes < 2 ^ 64)
    (hcalls : c.calls = []) : Exits (l.round fuel d n) c
      (fun _ c' => CallsInRange l.drive c') (fun _ c' => CallsInRange l.drive c') := by
  have hempty : ∀ c' : Conn, c'.calls = c.calls → CallsInRange l.drive c' := by
    intro c' h q hq
    rw [h, hcalls] at hq
    cases hq
  refine round_exits (fun k c' htook => ?_) fun e c' h => hempty c' h.calls
  exact act_inRange (round_holds hin htook) hcmd hok hbytes
    (hempty c' (htook.calls.trans (d.enter_calls n c)))

end Read

/-! ## A reader that fails -/

/-- So a range that is not empty is not read. -/
theorem vdfReadBytes_noReader (d : VdfDrive) (sbuff m : Buffer) {off n p : Nat} (hn : n ≠ 0) :
    vdfReadBytes noReader d sbuff off n m p = .ok (-1, m) := by
  have hone : (-1 : Int) ≠ 1 := by decide
  cases hd : d.isValid with
  | false => simp [vdfReadBytes, hd]
  | true =>
    by_cases hoff : off &&& (d.bps - 1) = 0
    · by_cases hwant : n / d.bps = 0 <;>
        simp only [vdfReadBytes, readHead, readWhole, readTail, noReader, hd, hn, hoff, hwant,
          ↓reduceIte, bind, Except.bind, pure, Except.pure, Bool.not_true, Bool.false_eq_true]
    · simp only [vdfReadBytes, readHead, noReader, hd, hn, hoff, hone, ↓reduceIte, bind,
        Except.bind, pure, Except.pure, Bool.not_true, Bool.false_eq_true, ne_eq, not_false_eq_true]

/-- With a reader that fails, the first chunk is asked for. -/
theorem sendRange_noReader {off len : Nat} (hlen : len ≠ 0) (hbpc : 0 < l.drive.bpc)
    (hread : l.read = noReader) : l.sendRange off len c =
      .error .fail { c with calls := c.calls ++ [(off, min len l.drive.bpc)] } := by
  have hn : min len l.drive.bpc ≠ 0 := by omega
  have hfirst : l.readBytes off (min len l.drive.bpc) c = .error .fail
      { c with calls := c.calls ++ [(off, min len l.drive.bpc)] } := by
    simp only [Link.readBytes, hread, vdfReadBytes_noReader _ _ _ hn, ↓reduceIte]
  cases len with
  | zero => exact absurd rfl hlen
  | succ k => rw [sendRange, sendLoop, if_neg hlen, Exits.bind_error hfirst]

theorem act_noReader {r : NbdRequest} (fuel n : Nat) (hr : c.Holds r) (hcmd : r.cmd = .read)
    (hcheck : ¬ l.drive.bytes < u64 (r.off.toNat + r.len.toNat)) (hlen : r.len.toNat ≠ 0)
    (hbpc : 0 < l.drive.bpc) (hnet : l.net = Net.whole) (hread : l.read = noReader) :
    ∃ c', l.act fuel n c = .error .fail c' ∧
      (r.off.toNat, min r.len.toNat l.drive.bpc) ∈ c'.calls := by
  have hr' : Conn.Holds { c with acted := c.acted ++ [n] } r := hr
  have hrun := (act_eq (l := l) fuel n hr).trans (nbdRequest_read hr' hcmd)
  have hreply := (reply_iff (l := l) (c := { c with acted := c.acted ++ [n] })).2
    ⟨1, by rw [hnet]; exact Net.takes_whole rfl (by decide) (by decide), rfl⟩
  rw [if_neg hcheck, Exits.bind_ok hreply, sendRange_noReader hlen hbpc hread] at hrun
  exact ⟨_, hrun, List.mem_append_right _ (List.mem_singleton.2 rfl)⟩

/-- So it is by either driver. -/
theorem round_deaf (d : NbdDriver) {drive : VdfDrive} {r : NbdRequest} (hcmd : r.cmd = .read)
    (hcheck : ¬ drive.bytes < u64 (r.off.toNat + r.len.toNat)) (hlen : r.len.toNat ≠ 0)
    (hbpc : 0 < drive.bpc) : ∃ c', (deafLink drive).round 0 d 0 (Conn.new (r.encode ++ [])) =
      .error .fail c' ∧ (r.off.toNat, min r.len.toNat drive.bpc) ∈ c'.calls := by
  have hgives : Gives (deafLink drive).net (Conn.new (r.encode ++ [])).sock :=
    gives_whole (by simp [Conn.new_input, r.length_encode])
  obtain ⟨k, c', htook, hround⟩ := round_gives d 0 0 hgives
  rw [hround]
  exact act_noReader 0 k (round_holds (Conn.new_input _) htook) hcmd hcheck hlen hbpc rfl rfl

end Link

/-! ## Main result -/

theorem Geometry.Created.bytes {g : Geometry} (h : g.Created) : g.bytes < 2 ^ 45 := by
  have hb := sectorSizes_le h.bps
  obtain ⟨size, flags, ext, junk, h⟩ := h
  obtain ⟨plan, -, -, -, e⟩ := createdriveGeometry_cases h
  have hbytes : g.bytes = u32 (g.sectors + g.mbrSectors) * g.bps := congrArg (·.bytes) e
  have := Nat.mul_le_mul (Nat.le_of_lt (u32_lt (g.sectors + g.mbrSectors))) hb.2
  omega

/-- For a `NBD_CMD_READ` the two drivers ask only for ranges of the drive, over any network, exactly where
the sum of the check does not wrap to a value that passes. -/
theorem readBytes_in_range_iff (d : VdfDrive) (hg : d.toGeometry.Created) (r : NbdRequest)
    (hcmd : r.cmd = .read) :
    (∀ (l : Link) (c : Conn) (rest : List UInt8) (fuel : Nat) (request : Buffer), l.drive = d →
      c.sock.input = r.encode ++ rest → c.calls = [] →
        Exits (l.serverRound fuel) c (fun _ => CallsInRange d) (fun _ => CallsInRange d) ∧
        Exits (l.nbdcliProcess fuel request) c (fun _ => CallsInRange d)
          (fun _ => CallsInRange d)) ↔
    RangeChecked d r.off.toNat r.len.toNat := by
  have hbytes := hg.bytes
  have hlen := r.len.toNat_lt
  constructor
  · intro h
    by_contra hbad
    simp only [RangeChecked, not_or] at hbad
    obtain ⟨hzero, hwrap, hpass⟩ := hbad
    have hbpc := hg.bpc.1
    obtain ⟨hrun, -⟩ := h (deafLink d) (Conn.new (r.encode ++ [])) [] 0 (fun _ => 0) rfl
      (Conn.new_input _) (Conn.new_calls _)
    obtain ⟨c', hround, hmem⟩ := Link.round_deaf .server hcmd
      (by rw [u64]; exact hpass) hzero hbpc
    rw [Exits, show (deafLink d).serverRound 0 _ = _ from hround] at hrun
    have := hrun _ hmem
    dsimp only at this
    omega
  · rintro hok l c rest fuel request rfl hin hcalls
    have hround : ∀ d : NbdDriver, Exits (l.round fuel d 0) c
        (fun _ c' => CallsInRange l.drive c') (fun _ c' => CallsInRange l.drive c') := fun d =>
      Link.round_inRange hin hcmd hok (by omega) hcalls
    exact ⟨hround .server, hround (.client fun _ => request)⟩

/-- 512 bytes from `2^64 - 512` on: the sum is 0. -/
def wrappingRead : NbdRequest := ⟨0, 1, 0xfffffffffffffe00, 512⟩

/-- Both drivers ask for the range, on a drive of 1 GiB. -/
theorem wrappingRead_out_of_range : wrappingRead.cmd = .read ∧ driveEmpty32.bytes = gib 1 ∧
    (∃ c', (deafLink driveEmpty32).serverRound 0 (Conn.new (wrappingRead.encode ++ [])) =
      .error .fail c' ∧ (0xfffffffffffffe00, 512) ∈ c'.calls) ∧
    ∃ c', (deafLink driveEmpty32).nbdcliProcess 0 (fun _ => 0)
      (Conn.new (wrappingRead.encode ++ [])) = .error .fail c' ∧
      (0xfffffffffffffe00, 512) ∈ c'.calls := by
  have hround : ∀ d : NbdDriver, ∃ c', (deafLink driveEmpty32).round 0 d 0
      (Conn.new (wrappingRead.encode ++ [])) = .error .fail c' ∧
        (0xfffffffffffffe00, 512) ∈ c'.calls := fun d =>
    Link.round_deaf d (by decide) (by decide) (by decide) (by decide)
  exact ⟨by decide, by decide, hround .server, hround (.client fun _ _ => 0)⟩

/-- 9000 bytes from 1000 on. -/
def chunkedRead : NbdRequest := ⟨0, 1, 1000, 9000⟩

/-- The driver goes on, and has asked for these ranges. -/
def asksFor (calls : List (Nat × Nat)) : EStateM.Result Exit Conn Unit → Bool
  | .ok _ c => c.calls = calls
  | .error _ _ => false

/-- They are read in three chunks. -/
theorem readBytes_in_range_sample :
    Exits ((servingLink driveEmpty32).serverRound 0) (Conn.new (chunkedRead.encode ++ []))
      (fun _ => CallsInRange driveEmpty32) (fun _ => CallsInRange driveEmpty32) ∧
    asksFor [(1000, 4096), (5096, 4096), (9192, 808)]
      ((servingLink driveEmpty32).serverRound 0 (Conn.new (chunkedRead.encode ++ []))) = true :=
  ⟨((readBytes_in_range_iff driveEmpty32 geometry32_created chunkedRead (by decide)).2
    (.inr (.inl (by decide))) (servingLink driveEmpty32) _ [] 0 (fun _ => 0) rfl (Conn.new_input _)
    (Conn.new_calls _)).1, by decide +kernel⟩

end Vdf
