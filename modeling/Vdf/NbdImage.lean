import Vdf.NbdRange

/-!
# The bytes of a `NBD_CMD_READ`

The reply header and the range of the image, chunk by chunk. `sock_write` offers a full `cnt` again
after a partial `send`, so the bytes are the right ones exactly where the counts that `send` returns
add up to the length of each write.
-/

namespace Vdf

open Word Buffer

/-- The lengths of the chunks of a range. -/
def chunkLengths (bpc len : Nat) : List Nat :=
  List.replicate (len / bpc) bpc ++ if len % bpc = 0 then [] else [len % bpc]

theorem chunkLengths_zero (bpc : Nat) : chunkLengths bpc 0 = [] := by simp [chunkLengths]

/-- The first chunk, and the others. -/
theorem chunkLengths_eq {bpc len : Nat} (hbpc : 0 < bpc) (hlen : len ≠ 0) :
    chunkLengths bpc len = min len bpc :: chunkLengths bpc (len - min len bpc) := by
  rcases Nat.lt_or_ge len bpc with hlt | hge
  · have hmin : min len bpc = len := by omega
    rw [hmin, Nat.sub_self, chunkLengths_zero, chunkLengths, Nat.div_eq_of_lt hlt,
      Nat.mod_eq_of_lt hlt, if_neg hlen]
    rfl
  · have hmin : min len bpc = bpc := by omega
    have hsub : len - bpc + bpc = len := by omega
    have hdiv : len / bpc = (len - bpc) / bpc + 1 := by
      rw [← Nat.add_div_right _ hbpc, hsub]
    have hmod : len % bpc = (len - bpc) % bpc := by
      rw [← Nat.add_mod_right (len - bpc), hsub]
    rw [hmin, chunkLengths, chunkLengths, hdiv, hmod, List.replicate_succ, List.cons_append]

namespace Link

variable {l : Link} {c c' : Conn} {image : Buffer}

/-- The reader of the drive serves an image. -/
structure Images (l : Link) (image : Buffer) : Prop where
  created : l.drive.toGeometry.Created
  valid : l.drive.isValid = true
  serves : Serves l.read image l.drive.bps (l.drive.bytes / l.drive.bps)

section Images

variable (h : l.Images image)
include h

theorem Images.bytes : l.drive.bytes / l.drive.bps * l.drive.bps = l.drive.bytes ∧
    l.drive.bytes / l.drive.bps < 2 ^ 32 := by
  obtain ⟨n, hn, e⟩ : ∃ n, n < 2 ^ 32 ∧ l.drive.bytes = n * l.drive.bps := by
    obtain ⟨size, flags, ext, junk, hg⟩ := h.created
    obtain ⟨plan, -, -, -, e⟩ := createdriveGeometry_cases hg
    exact ⟨_, u32_lt _, congrArg (·.bytes) e⟩
  have hpos : 0 < l.drive.bps := by
    have := sectorSizes_le h.created.bps
    omega
  rw [e, Nat.mul_div_cancel _ hpos]
  exact ⟨rfl, hn⟩

/-- A chunk of the drive arrives in the buffer. -/
theorem Images.readBytes {off n : Nat} (hrange : off + n ≤ l.drive.bytes) :
    l.readBytes off n c = .ok () { c with
      calls := c.calls ++ [(off, n)], buff := c.buff.copy 0 (image.slice off n) } := by
  obtain ⟨k, -, -, hk⟩ := sectorSizes_pow h.created.bps
  obtain ⟨hmul, hlt⟩ := h.bytes
  have hpos : 0 < l.drive.bps := by rw [hk]; exact Nat.two_pow_pos k
  have hrun : vdfReadBytes l.read l.drive l.stack off n c.buff 0 =
      .ok (n, c.buff.copy 0 (image.slice off n)) :=
    vdfReadBytes_serves h.serves hlt hpos (by rw [hmul]; exact hrange) h.valid rfl hk l.stack
  have hne : (n : Int) ≠ -1 := by omega
  simp only [Link.readBytes, hrun, hne, ↓reduceIte]

/-- The connection behind a chunk that was sent. -/
def sent (image : Buffer) (c : Conn) (off n k : Nat) : Conn :=
  { c with
    calls := c.calls ++ [(off, n)], buff := c.buff.copy 0 (image.slice off n)
    sock := c.sock.wrote (image.slice off n) k }

/-- One chunk, and the rest of the range. -/
theorem Images.sendLoop_succ {fuel off len n : Nat} (hlen : len ≠ 0) (hn : n = min len l.drive.bpc)
    (hrange : off + len ≤ l.drive.bytes) :
    l.sendLoop (fuel + 1) off len c = .ok () c' ↔ ∃ k, l.net.Takes n c.sock.sends k ∧
      l.sendLoop fuel (off + n) (len - n) (sent image c off n k) = .ok () c' := by
  have hbytes := h.created.bytes
  have hslice : (c.buff.copy 0 (image.slice off n)).slice 0 n = image.slice off n := by
    have := slice_copy (m := c.buff) (a := 0) (i := 0) (n := n) (l := image.slice off n) (by simp)
    rwa [Nat.add_zero, List.drop_zero, slice_take _ _ _ _ (Nat.le_refl _)] at this
  have hoff : u64 (off + n) = off + n := by rw [u64, Nat.mod_eq_of_lt (by omega)]
  rw [Link.sendLoop, if_neg hlen, ← hn, Exits.bind_ok (h.readBytes (by omega)), Exits.get_bind,
    hslice, hoff, Exits.bind_eq_ok]
  constructor
  · rintro ⟨_, c₁, hw, hloop⟩
    obtain ⟨k, hk, rfl⟩ := sockWrite_iff.1 hw
    rw [length_slice] at hk
    exact ⟨k, hk, hloop⟩
  · rintro ⟨k, hk, hloop⟩
    exact ⟨(), _, sockWrite_iff.2 ⟨k, by rwa [length_slice], rfl⟩, hloop⟩

omit h in
theorem sendLoop_zero (fuel off : Nat) (c : Conn) : l.sendLoop fuel off 0 c = .ok () c := by
  cases fuel <;> rfl

/-- The range is sent exactly where the counts add up, and then as it is in the image. -/
theorem Images.sendLoop (c : Conn) {fuel off len : Nat} (hfuel : len ≤ fuel)
    (hrange : off + len ≤ l.drive.bytes) :
    ((∃ c', l.sendLoop fuel off len c = .ok () c') ↔
      l.net.TakesAll (chunkLengths l.drive.bpc len) c.sock.sends) ∧
    ∀ c', l.sendLoop fuel off len c = .ok () c' →
      c'.sock.output = c.sock.output ++ image.slice off len := by
  have hbpc := h.created.bpc.1
  induction fuel generalizing off len c with
  | zero =>
    obtain rfl : len = 0 := by omega
    rw [sendLoop_zero, chunkLengths_zero]
    exact ⟨⟨fun _ => trivial, fun _ => ⟨c, rfl⟩⟩, fun c' e => by cases e; simp [slice]⟩
  | succ fuel ih =>
    by_cases hlen : len = 0
    · subst hlen
      rw [sendLoop_zero, chunkLengths_zero]
      exact ⟨⟨fun _ => trivial, fun _ => ⟨c, rfl⟩⟩, fun c' e => by cases e; simp [slice]⟩
    · obtain ⟨n, hn⟩ : ∃ n, n = min len l.drive.bpc := ⟨_, rfl⟩
      have hrest : n + (len - n) = len := by omega
      have hstep : ∀ c', l.sendLoop (fuel + 1) off len c = .ok () c' ↔
          ∃ k, l.net.Takes n c.sock.sends k ∧
            l.sendLoop fuel (off + n) (len - n) (sent image c off n k) = .ok () c' := fun _ =>
        h.sendLoop_succ hlen hn hrange
      have ih := fun k => @ih (sent image c off n k) (off + n) (len - n) (by omega) (by omega)
      rw [chunkLengths_eq hbpc hlen, ← hn]
      simp only [Net.TakesAll, hstep]
      constructor
      · constructor
        · rintro ⟨c', k, hk, hloop⟩
          exact ⟨k, hk, (ih k).1.1 ⟨c', hloop⟩⟩
        · rintro ⟨k, hk, hall⟩
          obtain ⟨c', hloop⟩ := (ih k).1.2 hall
          exact ⟨c', k, hk, hloop⟩
      · rintro c' ⟨k, -, hloop⟩
        rw [(ih k).2 c' hloop, sent, Sock.wrote, List.append_assoc, slice_append, hrest]

/-- The reply header and the range, for a request that was received. -/
theorem Images.act_iff {r : NbdRequest} (fuel n : Nat) (hr : c.Holds r) (hcmd : r.cmd = .read)
    (hrange : r.off.toNat + r.len.toNat ≤ l.drive.bytes) :
    (∃ c', l.act fuel n c = .ok () c' ∧ c'.sock.output = c.sock.output ++
      (replyHeader (be 8 r.handle.toNat) ++ image.slice r.off.toNat r.len.toNat)) ↔
    l.net.TakesAll (16 :: chunkLengths l.drive.bpc r.len.toNat) c.sock.sends := by
  have hbytes := h.created.bytes
  have hr' : Conn.Holds { c with acted := c.acted ++ [n] } r := hr
  have hcheck : ¬ l.drive.bytes < u64 (r.off.toNat + r.len.toNat) := by
    rw [u64, Nat.mod_eq_of_lt (by omega)]
    omega
  have hrun := (act_eq (l := l) fuel n hr).trans (nbdRequest_read hr' hcmd)
  rw [if_neg hcheck] at hrun
  have hloop := fun k => h.sendLoop (replied { c with acted := c.acted ++ [n] } k)
    (Nat.le_refl r.len.toNat) hrange
  rw [hrun]
  simp only [Exits.bind_eq_ok, Net.TakesAll]
  constructor
  · rintro ⟨c', ⟨_, c₁, hreply, hsend⟩, -⟩
    obtain ⟨k, hk, rfl⟩ := reply_iff.1 hreply
    exact ⟨k, hk, (hloop k).1.1 ⟨c', hsend⟩⟩
  · rintro ⟨k, hk, hall⟩
    obtain ⟨c', hsend⟩ := (hloop k).1.2 hall
    refine ⟨c', ⟨(), _, reply_iff.2 ⟨k, hk, rfl⟩, hsend⟩, ?_⟩
    rw [(hloop k).2 c' hsend, ← hr.handle, ← List.append_assoc]
    rfl

/-- Of either driver, the round in which it arrives. -/
theorem Images.round_iff (d : NbdDriver) (n fuel : Nat) {r : NbdRequest} (hcmd : r.cmd = .read)
    (hrange : r.off.toNat + r.len.toNat ≤ l.drive.bytes) {rest : List UInt8}
    (hin : c.sock.input = r.encode ++ rest) :
    (∃ c', l.round fuel d n c = .ok () c' ∧ c'.sock.output = c.sock.output ++
      (replyHeader (be 8 r.handle.toNat) ++ image.slice r.off.toNat r.len.toNat)) ↔
    Gives l.net c.sock ∧
      l.net.TakesAll (16 :: chunkLengths l.drive.bpc r.len.toNat) c.sock.sends := by
  by_cases hgives : Gives l.net c.sock
  · obtain ⟨k, c₁, htook, hround⟩ := round_gives d n fuel hgives
    have hsends : c₁.sock.sends = c.sock.sends := by rw [htook.sends, d.enter_sock]
    have houtput : c₁.sock.output = c.sock.output := by rw [htook.output, d.enter_sock]
    rw [hround, ← houtput, ← hsends, h.act_iff fuel k (round_holds hin htook) hcmd hrange]
    exact ⟨fun hall => ⟨hgives, hall⟩, And.right⟩
  · refine ⟨?_, fun hall => absurd hall.1 hgives⟩
    rintro ⟨c', hrun, -⟩
    exact absurd (round_ok_gives hrun) hgives

end Images

end Link

/-! ## Main result -/

/-- For a range of the drive, each driver answers with the reply header and the bytes of the image exactly
where the request arrives and the counts that `send` returns add up to the length of the header and
of each chunk. -/
theorem nbd_reads_image_iff (l : Link) (image : Buffer) (h : l.Images image) (r : NbdRequest)
    (hcmd : r.cmd = .read) (hrange : r.off.toNat + r.len.toNat ≤ l.drive.bytes) (c : Conn)
    (rest : List UInt8) (hin : c.sock.input = r.encode ++ rest) (fuel : Nat) (request : Buffer) :
    ((∃ c', l.serverRound fuel c = .ok () c' ∧ c'.sock.output = c.sock.output ++
        (replyHeader (be 8 r.handle.toNat) ++ image.slice r.off.toNat r.len.toNat)) ↔
      Link.Gives l.net c.sock ∧
        l.net.TakesAll (16 :: chunkLengths l.drive.bpc r.len.toNat) c.sock.sends) ∧
    ((∃ c', l.nbdcliProcess fuel request c = .ok () c' ∧ c'.sock.output = c.sock.output ++
        (replyHeader (be 8 r.handle.toNat) ++ image.slice r.off.toNat r.len.toNat)) ↔
      Link.Gives l.net c.sock ∧
        l.net.TakesAll (16 :: chunkLengths l.drive.bpc r.len.toNat) c.sock.sends) := by
  exact ⟨h.round_iff .server 0 fuel hcmd hrange hin,
    h.round_iff (.client fun _ => request) 0 fuel hcmd hrange hin⟩

/-! ## A drive with an image -/

/-- A reader that serves the image. -/
def imageReader (image : Buffer) (bps : Nat) : SectorReader := fun sector cnt m p =>
  .ok (cnt, m.copy p (image.slice (sector * bps) (cnt * bps)))

/-- A FAT32 drive of 1 GiB whose bytes count up. -/
def imageLink (net : Net) : Link :=
  { net, drive := driveEmpty32, read := imageReader UInt8.ofNat 512, stack := fun _ => 0 }

theorem imageLink_images (net : Net) : (imageLink net).Images UInt8.ofNat :=
  ⟨geometry32_created, rfl, fun _ _ _ _ _ => rfl⟩

/-- The first `send` takes ten bytes, and each other one all that it is offered. -/
def Net.partial10 : Net :=
  { recv := fun _ => .ok (2 ^ 32), send := fun i => .ok (if i = 0 then 10 else 2 ^ 32) }

/-- A reply header of which ten bytes are taken first: `send` is offered sixteen from there on. -/
theorem sockWrite_partial10 {bytes : List UInt8} {s : Sock} (hlen : bytes.length = 16)
    (hs : s.sends = 0) : sockWrite Net.partial10 bytes s = .error .overread := by
  rw [sockWrite, hlen, sockWriteLoop, hs, hlen]
  simp only [Net.partial10, ↓reduceIte]
  rw [sockWriteLoop, hlen]
  simp

/-- Bytes 1000 to 3000, of a sector that is not at its start and of another that is not at its end. -/
def middleRead : NbdRequest := ⟨0, 7, 1000, 2000⟩

theorem act_partial10 {c : Conn} (n : Nat) (hr : c.Holds middleRead) (hs : c.sock.sends = 0) :
    ∃ c', (imageLink Net.partial10).act 0 n c = .error (.fault (.sock .overread)) c' := by
  have hr' : Conn.Holds { c with acted := c.acted ++ [n] } middleRead := hr
  have hrun := (Link.act_eq (l := imageLink Net.partial10) 0 n hr).trans
    (Link.nbdRequest_read hr' (by decide))
  have hlen : (replyHeader c.handle).length = 16 := by
    rw [length_replyHeader, Conn.length_handle]
  have hwrite : (imageLink Net.partial10).sockWrite (replyHeader c.handle)
      { c with acted := c.acted ++ [n] } =
      .error (.fault (.sock .overread)) { c with acted := c.acted ++ [n] } := by
    rw [Link.sockWrite, show (imageLink Net.partial10).net = Net.partial10 from rfl,
      sockWrite_partial10 hlen hs]
  have hreply : (imageLink Net.partial10).reply { c with acted := c.acted ++ [n] } =
      .error (.fault (.sock .overread)) { c with acted := c.acted ++ [n] } := by
    rw [Link.reply, Exits.get_bind]
    exact Exits.bind_error hwrite
  rw [if_neg (by decide), Exits.bind_error hreply] at hrun
  exact ⟨_, hrun⟩

/-- After a partial `send` the reply header is read behind its end, by both drivers. -/
theorem partial_send_overreads : (imageLink Net.partial10).Images UInt8.ofNat ∧
    middleRead.cmd = .read ∧ middleRead.off.toNat + middleRead.len.toNat ≤ driveEmpty32.bytes ∧
    (∃ c', (imageLink Net.partial10).serverRound 0 (Conn.new (middleRead.encode ++ [])) =
      .error (.fault (.sock .overread)) c') ∧
    ∃ c', (imageLink Net.partial10).nbdcliProcess 0 (fun _ => 0)
      (Conn.new (middleRead.encode ++ [])) = .error (.fault (.sock .overread)) c' := by
  have hgives : Link.Gives (imageLink Net.partial10).net
      (Conn.new (middleRead.encode ++ [])).sock :=
    Link.gives_of_recv rfl (by decide) (by simp [Conn.new_input, NbdRequest.length_encode])
  have hround : ∀ d : NbdDriver, ∃ c', (imageLink Net.partial10).round 0 d 0
      (Conn.new (middleRead.encode ++ [])) = .error (.fault (.sock .overread)) c' := by
    intro d
    obtain ⟨n, c', htook, hround⟩ := Link.round_gives d 0 0 hgives
    have hsends : c'.sock.sends = 0 := by
      rw [htook.sends, d.enter_sock]
      rfl
    rw [hround]
    exact act_partial10 n (Link.round_holds (Conn.new_input _) htook) hsends
  exact ⟨imageLink_images _, by decide, by decide, hround .server, hround (.client fun _ _ => 0)⟩

/-- Over a network that transfers everything. -/
theorem nbd_reads_image_sample : ∃ c', (imageLink Net.whole).serverRound 0
    (Conn.new (middleRead.encode ++ [])) = .ok () c' ∧ c'.sock.output = [] ++
      (replyHeader (be 8 7) ++ Buffer.slice UInt8.ofNat 1000 2000) := by
  have htakes : Net.whole.TakesAll (16 :: chunkLengths 4096 2000) 0 :=
    ⟨1, Net.takes_whole rfl (by decide) (by decide), 1,
      Net.takes_whole rfl (by decide) (by decide), trivial⟩
  exact (nbd_reads_image_iff (imageLink Net.whole) UInt8.ofNat (imageLink_images _) middleRead
    (by decide) (by decide) (Conn.new (middleRead.encode ++ [])) [] (Conn.new_input _) 0
    fun _ => 0).1.2 ⟨Link.gives_whole (by simp [Conn.new_input, NbdRequest.length_encode]), htakes⟩

end Vdf
