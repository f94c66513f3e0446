import Vdf.NbdRange

/-!
# The stream of an NBD peer

How the drivers keep to the bytes of the peer. The payload loop of `NBD_CMD_WRITE` never lowers
`len`, so it does not end. And a request that was cut off is noticed only by its magic number:
`sock_read` returns a short count at the end of the stream, the callers test for -1, and what was
not received is what the structure held before. -/

namespace Vdf

open Word Buffer

namespace Link

variable {l : Link} {c c' : Conn}

/-! ## The payload of `NBD_CMD_WRITE` -/

/-- `recv` fails in one of the reads of `cnt` bytes that follow each other, before they took more
than `left` bytes and before one of them runs behind the end of its buffer. -/
inductive Breaks (net : Net) (cap cnt : Nat) : Nat → Sock → Prop where
  | now {left : Nat} {s : Sock} {q : Received} {e : SockError}
      (hq : Vdf.sockRead net cap cnt s = .ok q) (he : q.result = .error e)
      (hleft : q.bytes.length ≤ left) : Breaks net cap cnt left s
  | later {left : Nat} {s : Sock} {q : Received} {n : Nat}
      (hq : Vdf.sockRead net cap cnt s = .ok q) (hn : q.result = .ok n)
      (hleft : q.bytes.length ≤ left) (h : Breaks net cap cnt (left - q.bytes.length) q.sock) :
      Breaks net cap cnt left s

theorem payloadLoop_zero (fuel : Nat) (c : Conn) : l.payloadLoop fuel 0 c = .ok () c := by
  cases fuel <;> rfl

section Round

variable {fuel len : Nat} {q : Received} (hlen : len ≠ 0)
  (hq : Vdf.sockRead l.net l.drive.bpc (min len l.drive.bpc) c.sock = .ok q)
include hlen hq

theorem payloadLoop_read : l.payloadLoop (fuel + 1) len c =
    (match q.result with
      | .error _ => throw Exit.fail
      | .ok _ => l.payloadLoop fuel len : Driver Unit)
      { c with sock := q.sock, buff := c.buff.copy 0 q.bytes } := by
  have hread : l.sockRead l.drive.bpc (min len l.drive.bpc) c = .ok q { c with sock := q.sock } := by
    rw [Link.sockRead, hq]
  rewrite [payloadLoop, if_neg hlen, Exits.bind_ok hread, Exits.modify_bind]
  cases q.result <;> rfl

/-- A round of the loop in which `recv` does not fail. -/
theorem payloadLoop_succ {n : Nat} (hn : q.result = .ok n) : l.payloadLoop (fuel + 1) len c =
    l.payloadLoop fuel len { c with sock := q.sock, buff := c.buff.copy 0 q.bytes } := by
  rw [payloadLoop_read hlen hq, hn]

theorem payloadLoop_error {e : SockError} (he : q.result = .error e) :
    l.payloadLoop (fuel + 1) len c =
      .error .fail { c with sock := q.sock, buff := c.buff.copy 0 q.bytes } := by
  rw [payloadLoop_read hlen hq, he]
  rfl

end Round

/-- Where `recv` fails in time, the loop ends, and took no more than that. -/
theorem payloadLoop_breaks {len left : Nat} {s : Sock} (hlen : len ≠ 0)
    (h : Breaks l.net l.drive.bpc (min len l.drive.bpc) left s) (hs : c.sock = s) :
    ∃ fuel c', l.payloadLoop fuel len c = .error .fail c' ∧
      ∃ k ≤ left, c'.sock.input = c.sock.input.drop k := by
  induction h generalizing c with
  | @now left s q e hq he hleft =>
    subst hs
    refine ⟨1, _, payloadLoop_error hlen hq he, q.bytes.length, hleft, ?_⟩
    rw [← (sockRead_spec hq).1.bytes, List.drop_left]
  | @later left s q n hq hn hleft _ ih =>
    subst hs
    obtain ⟨fuel, c', h, k, hk, hinput⟩ :=
      ih (c := { c with sock := q.sock, buff := c.buff.copy 0 q.bytes }) rfl
    refine ⟨fuel + 1, c', by rw [payloadLoop_succ hlen hq hn, h], q.bytes.length + k, by omega, ?_⟩
    rw [hinput, ← (sockRead_spec hq).1.bytes, ← List.drop_drop, List.drop_left]

/-- A payload is never done with: the loop does not end, or `recv` fails, and in time for what it
has taken then. -/
theorem payloadLoop_stuck (c : Conn) (fuel : Nat) {len : Nat} (hlen : len ≠ 0) :
    ∃ e c', l.payloadLoop fuel len c = .error e c' ∧
      c'.sock.input.length ≤ c.sock.input.length ∧
      (e = .fault .endless ∨ e = .fault (.sock .overrun) ∨
        ∀ left, c.sock.input.length ≤ left + c'.sock.input.length →
          Breaks l.net l.drive.bpc (min len l.drive.bpc) left c.sock) := by
  induction fuel generalizing c with
  | zero =>
    rw [payloadLoop, if_neg hlen]
    exact ⟨_, c, rfl, Nat.le_refl _, .inl rfl⟩
  | succ fuel ih =>
    cases hs : Vdf.sockRead l.net l.drive.bpc (min len l.drive.bpc) c.sock with
    | error f =>
      have hread : l.sockRead l.drive.bpc (min len l.drive.bpc) c =
          .error (.fault (.sock f)) c := by
        rw [Link.sockRead, hs]
      rw [payloadLoop, if_neg hlen, Exits.bind_error hread]
      exact ⟨_, c, rfl, Nat.le_refl _, .inr (.inl (by rw [sockReadLoop_error hs]))⟩
    | ok q =>
      have htook := congrArg List.length (sockRead_spec hs).1.bytes
      rw [List.length_append] at htook
      cases hn : q.result with
      | error e =>
        rw [payloadLoop_error hlen hs hn]
        refine ⟨_, _, rfl, by dsimp only; omega, .inr (.inr fun left hleft => .now hs hn ?_)⟩
        dsimp only at hleft
        omega
      | ok n =>
        rw [payloadLoop_succ hlen hs hn]
        obtain ⟨e, c', hrun, hshrink, he⟩ :=
          ih { c with sock := q.sock, buff := c.buff.copy 0 q.bytes }
        dsimp only at hshrink
        refine ⟨e, c', hrun, by omega, he.imp_right (Or.imp_right fun h left hleft => ?_)⟩
        exact .later hs hn (by omega) (h (left - q.bytes.length) (by dsimp only; omega))

/-- Where what is left fits into the buffer and `recv` does not fail, it goes round without an end.
-/
theorem payloadLoop_endless (fuel : Nat) {len : Nat} (hnet : ∀ i, ∃ k, l.net.recv i = .ok k)
    (hlen : len ≠ 0) (hfit : c.sock.input.length ≤ l.drive.bpc) :
    ∃ c', l.payloadLoop fuel len c = .error (.fault .endless) c' := by
  induction fuel generalizing c with
  | zero =>
    rw [payloadLoop, if_neg hlen]
    exact ⟨c, rfl⟩
  | succ fuel ih =>
    obtain ⟨q, hq⟩ : ∃ q, Vdf.sockRead l.net l.drive.bpc (min len l.drive.bpc) c.sock = .ok q :=
      sockReadLoop_fits (by simpa using hfit)
    obtain ⟨n, hn⟩ := sockReadLoop_ok hnet hq
    rw [payloadLoop_succ hlen hq hn]
    refine ih ?_
    have hlen := congrArg List.length (sockRead_spec hq).1.bytes
    rw [List.length_append] at hlen
    dsimp only
    omega

section Write

variable {r : NbdRequest} {n : Nat}

/-- What is done with a `NBD_CMD_WRITE`. -/
theorem act_write (fuel n : Nat) (hr : c.Holds r) (hcmd : r.cmd = .write) : l.act fuel n c =
    (l.payloadLoop fuel r.len.toNat >>= fun _ => l.reply) { c with acted := c.acted ++ [n] } := by
  have hr' : Conn.Holds { c with acted := c.acted ++ [n] } r := hr
  rw [act_eq fuel n hr, nbdRequest_eq hr', hcmd]

/-- The request is done with after some rounds. Behind it the input goes on behind the payload;
where the connection breaks, nothing behind the payload was taken. -/
def TakesPayload (run : Nat → Driver Unit) (c : Conn) (stream : List UInt8) (len : Nat) : Prop :=
  ∃ fuel, Exits (run fuel) c
    (fun _ c' => len ≤ stream.length → c'.sock.input = stream.drop len)
    (fun e c' => e ≠ .fault .endless ∧ e ≠ .fault (.sock .overrun) ∧
      ∃ k ≤ len, c'.sock.input = stream.drop k)

theorem TakesPayload.congr {run run' : Nat → Driver Unit} {stream : List UInt8} {len : Nat}
    (h : ∀ fuel, run fuel c = run' fuel c') :
    TakesPayload run c stream len ↔ TakesPayload run' c' stream len := by
  constructor
  · rintro ⟨fuel, hrun⟩
    exact ⟨fuel, Exits.of_eq (h fuel).symm hrun⟩
  · rintro ⟨fuel, hrun⟩
    exact ⟨fuel, Exits.of_eq (h fuel) hrun⟩

/-- The request is done with exactly where there is no payload, or the connection breaks before
the loop takes what is behind it. -/
theorem act_takesPayload_iff {stream : List UInt8} (hr : c.Holds r) (hcmd : r.cmd = .write)
    (hin : c.sock.input = stream) :
    TakesPayload (fun fuel => l.act fuel n) c stream r.len.toNat ↔
      r.len.toNat = 0 ∨
        Breaks l.net l.drive.bpc (min r.len.toNat l.drive.bpc) r.len.toNat c.sock := by
  have hrun := fun fuel => act_write (l := l) fuel n hr hcmd
  by_cases hlen : r.len.toNat = 0
  · refine ⟨fun _ => .inl hlen, fun _ => ⟨0, Exits.of_eq (hrun 0) ?_⟩⟩
    rw [hlen]
    refine Exits.of_eq (Exits.bind_ok (payloadLoop_zero ..)) (reply_exits.mono ?_ ?_)
    · rintro _ c' ⟨-, -, hinput, -⟩ -
      exact hinput.trans hin
    · rintro e c' ⟨-, -, hinput, rfl | rfl⟩
      · exact ⟨nofun, nofun, 0, Nat.le_refl _, hinput.trans hin⟩
      · exact ⟨nofun, nofun, 0, Nat.le_refl _, hinput.trans hin⟩
  · constructor
    · rintro ⟨fuel, h⟩
      obtain ⟨e, c', hstuck, -, he⟩ := payloadLoop_stuck (l := l)
        { c with acted := c.acted ++ [n] } fuel hlen
      dsimp only at h he
      rw [Exits, hrun, Exits.bind_error hstuck] at h
      obtain ⟨hendless, hoverrun, k, hk, hinput⟩ := h
      refine .inr ((he.resolve_left hendless).resolve_left hoverrun _ ?_)
      rw [hinput, hin, List.length_drop]
      omega
    · intro hbreaks
      obtain ⟨fuel, c', hfail, k, hk, hinput⟩ := payloadLoop_breaks (l := l)
        (c := { c with acted := c.acted ++ [n] }) hlen (hbreaks.resolve_left hlen) rfl
      refine ⟨fuel, Exits.of_error ((hrun fuel).trans (Exits.bind_error hfail)) ?_⟩
      exact ⟨nofun, nofun, k, hk, by rw [hinput, hin]⟩

end Write

end Link

/-- A `NBD_CMD_WRITE` that was received is done with, by either driver, exactly where it has no
payload (then the next request is read from the byte behind it) or `recv` fails in the loop before
that has taken more than the payload (then the driver leaves). -/
theorem write_payload_iff (l : Link) (d : NbdDriver) (i : Nat) (r : NbdRequest)
    (hcmd : r.cmd = .write) (c : Conn) (stream : List UInt8)
    (hin : c.sock.input = r.encode ++ stream) (q : Received) (n : Nat)
    (hq : sockRead l.net requestSize requestSize c.sock = .ok q) (hn : q.result = .ok n) :
    Link.TakesPayload (fun fuel => l.round fuel d i) c stream r.len.toNat ↔
      r.len = 0 ∨
        Link.Breaks l.net l.drive.bpc (min r.len.toNat l.drive.bpc) r.len.toNat q.sock := by
  obtain ⟨c', hsock, htook, hround⟩ := Link.round_took d i hq hn
  have hrest : c'.sock.input = stream := by
    rw [htook.input, d.enter_sock, hin, List.drop_left' r.length_encode]
  rw [Link.TakesPayload.congr hround, ← UInt32.toNat_inj, ← hsock]
  exact Link.act_takesPayload_iff (Link.round_holds hin htook) hcmd hrest

/-- One byte is to be written. -/
def byteWrite : NbdRequest := ⟨1, 1, 0, 1⟩

/-- No number of rounds is enough for it, by either driver, though the payload is there. -/
theorem byteWrite_endless : byteWrite.cmd = .write ∧ ∀ (d : NbdDriver) (fuel : Nat), ∃ c',
    (deafLink driveEmpty32).round fuel d 0 (Conn.new (byteWrite.encode ++ [0x41])) =
      .error (.fault .endless) c' := by
  refine ⟨by decide, fun d fuel => ?_⟩
  have hgives : Link.Gives (deafLink driveEmpty32).net
      (Conn.new (byteWrite.encode ++ [0x41])).sock :=
    Link.gives_whole (by simp [Conn.new_input, NbdRequest.length_encode])
  obtain ⟨k, c', htook, hround⟩ := Link.round_gives d 0 fuel hgives
  have hrest : c'.sock.input = [0x41] := by
    rw [htook.input, d.enter_sock, Conn.new_input, List.drop_left' byteWrite.length_encode]
  obtain ⟨c'', hloop⟩ : ∃ c'', (deafLink driveEmpty32).payloadLoop fuel 1
      { c' with acted := c'.acted ++ [k] } = .error (.fault .endless) c'' :=
    Link.payloadLoop_endless fuel (fun _ => ⟨_, rfl⟩) (by decide)
      (by dsimp only; rw [hrest]; decide)
  refine ⟨c'', ?_⟩
  rw [hround, Link.act_write fuel k (Link.round_holds (Conn.new_input _) htook) (by decide)]
  exact Exits.bind_error hloop

/-- A peer of which two calls of `recv` get what they ask for, and all others fail. -/
def failingLink : Link :=
  { deafLink driveEmpty32 with
    net := { Net.whole with recv := fun i => if i < 2 then .ok (2 ^ 32) else .error .other } }

/-- `NBD_CMD_FLUSH`, the last thing that the peer sends. -/
def lastFlush : NbdRequest := ⟨3, 5, 0, 0⟩

/-- A write of one byte with a `NBD_CMD_FLUSH` behind it, by the server: the payload is read, and
the next round of the loop fails. -/
theorem write_payload_sample : Link.TakesPayload (fun fuel => failingLink.round fuel .server 0)
    (Conn.new (byteWrite.encode ++ 0x41 :: lastFlush.encode)) (0x41 :: lastFlush.encode) 1 := by
  refine (write_payload_iff failingLink .server 0 byteWrite (by decide) _ _ (Conn.new_input _) _
    requestSize rfl rfl).2 (.inr ?_)
  exact .later rfl rfl (by decide) (.now rfl rfl (by decide))

/-! ## Requests that were cut off -/

/-- Each request that was acted on was received whole. -/
def Conn.Whole (c : Conn) : Prop := ∀ n ∈ c.acted, n = requestSize

/-- The stream ends within the next request. -/
def CutOff (l : Link) (c : Conn) : Prop :=
  Link.Gives l.net c.sock ∧ c.sock.input.length < requestSize

/-- What is left of the stream, over what the structure holds, does not pass for a request. -/
def Unframed (c : Conn) : Prop :=
  beValue ((c.request.copy 0 c.sock.input).slice 0 4) ≠ nbdRequestMagic

namespace Link

variable {l : Link} {c c' : Conn}

/-- Within a request nothing else is acted on. -/
theorem nbdRequest_acted {fuel : Nat} {acted : List Nat} (h : c.acted = acted) :
    Exits (l.nbdRequest fuel) c
      (fun _ c' => c'.acted = acted) (fun _ c' => c'.acted = acted) := by
  have hframe : Framed fun c => c.acted = acted := fun _ _ _ _ h => h
  have hreply : ∀ {c : Conn}, c.acted = acted → Exits l.reply c
      (fun _ c' => c'.acted = acted) (fun _ c' => c'.acted = acted) := fun h =>
    reply_exits.mono (fun _ _ he => he.2.1.trans h) fun _ _ he => he.2.1.trans h
  refine Exits.bind (Exits.get (Q := fun _ c' => c'.acted = acted) h) fun c₀ c₁ h₁ => ?_
  cases NbdCmd.ofType c₀.type with
  | disc => exact Exits.throw h₁
  | read =>
    dsimp only
    split
    · exact Exits.pure h₁
    · exact Exits.bind (hreply h₁) fun _ c₂ h₂ => sendLoop_frame hframe.send _ _ _ h₂
  | write => exact Exits.bind (payloadLoop_frame hframe _ _ h₁) fun _ c₂ h₂ => hreply h₂
  | flush => exact hreply h₁
  | trim => exact hreply h₁
  | other => exact Exits.pure h₁

variable {fuel k : Nat}

theorem act_magic (h : c.magic = nbdRequestMagic) : Exits (l.act fuel k) c
    (fun _ c' => c'.acted = c.acted ++ [k]) (fun _ c' => c'.acted = c.acted ++ [k]) := by
  refine Exits.bind (Exits.get (Q := fun a c' => a = c ∧ c' = c) ⟨rfl, rfl⟩) fun a c' hc => ?_
  rw [hc.1, hc.2, if_neg (not_not.2 h)]
  exact Exits.bind (Exits.modifyGet (Q := fun _ c' => c'.acted = c.acted ++ [k]) rfl)
    fun _ _ h' => nbdRequest_acted h'

theorem act_junk (h : c.magic ≠ nbdRequestMagic) : l.act fuel k c = .error .fail c := by
  rw [act, Exits.get_bind, if_pos h]
  rfl

theorem Took.whole {c₀ : Conn} (h : Took c₀ k c) (hc : c₀.Whole) : c.Whole := by
  rw [Conn.Whole, h.acted]
  exact hc

theorem Idled.whole {c₀ : Conn} (h : Idled c₀ c) (hc : c₀.Whole) : c.Whole := by
  rw [Conn.Whole, h.acted]
  exact hc

theorem whole_append (hc : c.Whole) (hk : k = requestSize)
    (hacted : c'.acted = c.acted ++ [k]) : c'.Whole := by
  intro n hn
  rw [hacted] at hn
  rcases List.mem_append.1 hn with hn | hn
  · exact hc n hn
  · exact (List.mem_singleton.1 hn).trans hk

section Step

variable {d : NbdDriver} {n : Nat}

theorem whole_enter (hc : c.Whole) : (d.enter n c).Whole := by
  rw [Conn.Whole, d.enter_acted]
  exact hc

/-- The next request, in a state in which all before it were whole. -/
theorem round_whole_iff (hc : c.Whole) :
    (Exits (l.round fuel d n) c (fun _ => Conn.Whole) (fun _ => Conn.Whole) ∧
      (CutOff l c → ∃ c', l.round fuel d n c = .error .fail c')) ↔
    (CutOff l c → Unframed (d.enter n c)) := by
  by_cases hgives : Gives l.net c.sock
  · obtain ⟨k, c₁, htook, hround⟩ := round_gives d n fuel hgives
    have hk := htook.count
    have hc₁ := htook.whole (whole_enter hc)
    rw [d.enter_sock] at hk
    have hmagic : c.sock.input.length < requestSize → c₁.magic =
        beValue (((d.enter n c).request.copy 0 (d.enter n c).sock.input).slice 0 4) := by
      intro hcut
      rw [Conn.magic, htook.request, d.enter_sock, List.take_of_length_le (by omega)]
    constructor
    · rintro ⟨hexits, -⟩ ⟨-, hcut⟩ hpass
      have hacted := Exits.of_eq hround (act_magic ((hmagic hcut).trans hpass))
      refine Exits.both hexits hacted ?_ ?_
      · intro _ c' hwhole e
        have := hwhole k (by rw [e]; simp)
        omega
      · intro _ c' hwhole e
        have := hwhole k (by rw [e]; simp)
        omega
    · intro h
      by_cases hpass : c₁.magic = nbdRequestMagic
      · have hwhole : ¬ CutOff l c := fun hcut => h hcut ((hmagic hcut.2).symm.trans hpass)
        have hsize : k = requestSize := by
          rw [CutOff] at hwhole
          have := not_and.1 hwhole hgives
          omega
        refine ⟨Exits.of_eq hround ((act_magic hpass).mono ?_ ?_), fun hcut => absurd hcut hwhole⟩
        · exact fun _ c' => whole_append hc₁ hsize
        · exact fun _ c' => whole_append hc₁ hsize
      · rw [act_junk hpass] at hround
        exact ⟨Exits.of_error hround hc₁, fun _ => ⟨c₁, hround⟩⟩
  · obtain ⟨e, c', hround, hidle⟩ := round_left d n fuel hgives
    refine ⟨fun _ hcut => absurd hcut.1 hgives, fun _ => ?_⟩
    exact ⟨Exits.of_error hround (hidle.whole hc), fun hcut => absurd hcut.1 hgives⟩

/-- A run: where no request passes that was cut off, each that is acted on was whole. -/
theorem rounds_whole (h : ∀ n c', l.rounds fuel d n c = .ok () c' → CutOff l c' →
    Unframed (d.enter n c')) (hc : c.Whole) : ∀ n,
    Exits (l.rounds fuel d n) c (fun _ => Conn.Whole) (fun _ => Conn.Whole) := by
  intro n
  induction n with
  | zero => exact Exits.pure hc
  | succ n ih =>
    have hreach : Exits (l.rounds fuel d n) c
        (fun _ c' => l.rounds fuel d n c = .ok () c' ∧ c'.Whole) (fun _ => Conn.Whole) := by
      rw [Exits] at ih ⊢
      cases hrun : l.rounds fuel d n c with
      | ok a c' => rw [hrun] at ih; exact ⟨rfl, ih⟩
      | error e c' => rw [hrun] at ih; exact ih
    exact Exits.bind hreach fun _ c' hc' => ((round_whole_iff hc'.2).2 (h n c' hc'.1)).1

end Step

end Link

/-- Over all requests of a connection, the two drivers act on whole ones only and leave at the end
of the stream exactly where what is left of the stream never passes for a request. -/
theorem acts_on_whole_iff (l : Link) (d : NbdDriver) (fuel : Nat) (c : Conn) (hc : c.acted = []) :
    ((∀ n, Exits (l.rounds fuel d n) c (fun _ => Conn.Whole) (fun _ => Conn.Whole)) ∧
      ∀ n c', l.rounds fuel d n c = .ok () c' → CutOff l c' →
        ∃ c'', l.round fuel d n c' = .error .fail c'') ↔
    ∀ n c', l.rounds fuel d n c = .ok () c' → CutOff l c' → Unframed (d.enter n c') := by
  have hempty : c.Whole := by
    intro n hn
    rw [hc] at hn
    cases hn
  constructor
  · rintro ⟨hwhole, hend⟩ n c' hrun
    have hc' : c'.Whole := by
      have := hwhole n
      rwa [Exits, hrun] at this
    have hnext : Exits (l.round fuel d n) c' (fun _ => Conn.Whole) (fun _ => Conn.Whole) := by
      have := hwhole (n + 1)
      rw [Link.rounds, Exits, Exits.bind_ok hrun] at this
      rw [Exits]
      exact this
    exact (Link.round_whole_iff hc').1 ⟨hnext, hend n c' hrun⟩
  · intro h
    refine ⟨Link.rounds_whole h hempty, fun n c' hrun => ?_⟩
    have hc' : c'.Whole := by
      have := Link.rounds_whole h hempty n
      rwa [Exits, hrun] at this
    exact ((Link.round_whole_iff hc').2 (h n c' hrun)).2

/-- A structure that lies where the last one lay. -/
def leftover : Nat → Buffer
  | 0 => fun _ => 0
  | _ + 1 => Buffer.copy (fun _ => 0) 0 lastFlush.encode

/-- It is executed a second time, of which nothing was received, by both drivers. -/
theorem lastFlush_again :
    (∃ c', (deafLink driveEmpty32).rounds 0 .server 2 (Conn.new lastFlush.encode) = .ok () c' ∧
      c'.acted = [28, 0] ∧ c'.replies = [be 8 5, be 8 5]) ∧
    ∃ c', (deafLink driveEmpty32).rounds 0 (.client leftover) 2 (Conn.new lastFlush.encode) =
      .ok () c' ∧ c'.acted = [28, 0] ∧ c'.replies = [be 8 5, be 8 5] :=
  ⟨⟨_, rfl, by decide +kernel, by decide +kernel⟩, ⟨_, rfl, by decide +kernel, by decide +kernel⟩⟩

/-- Four bytes follow the `NBD_CMD_FLUSH` that are not the magic number. -/
def cutStream : List UInt8 := lastFlush.encode ++ [0, 0, 0, 0]

/-- The request is acted on once, and the connection ends behind it. -/
theorem acts_on_whole_sample : ∃ c', (deafLink driveEmpty32).rounds 0 .server 1
      (Conn.new cutStream) = .ok () c' ∧ c'.acted = [requestSize] ∧ c'.Whole ∧
      ∃ c'', (deafLink driveEmpty32).round 0 .server 1 c' = .error .fail c'' := by
  obtain ⟨c₁, hrun, hacted, hcut, hframe, c₂, hleft⟩ : ∃ c₁,
      (deafLink driveEmpty32).rounds 0 .server 1 (Conn.new cutStream) = .ok () c₁ ∧
      c₁.acted = [requestSize] ∧ CutOff (deafLink driveEmpty32) c₁ ∧ Unframed c₁ ∧
      ∃ c₂, (deafLink driveEmpty32).round 0 .server 1 c₁ = .error .fail c₂ :=
    ⟨_, rfl, by decide +kernel, ⟨⟨_, _, rfl, rfl⟩, by decide +kernel⟩,
      by unfold Unframed; decide +kernel, _, rfl⟩
  have hstop : ∀ n, ∃ c', (deafLink driveEmpty32).rounds 0 .server (n + 2) (Conn.new cutStream) =
      .error .fail c' := by
    intro n
    induction n with
    | zero => exact ⟨c₂, (Exits.bind_ok hrun).trans hleft⟩
    | succ n ih =>
      obtain ⟨c', h⟩ := ih
      exact ⟨c', Exits.bind_error h⟩
  have hall := (acts_on_whole_iff (deafLink driveEmpty32) .server 0 (Conn.new cutStream) rfl).2 ?_
  · have hwhole := hall.1 1
    rw [Exits, hrun] at hwhole
    exact ⟨c₁, hrun, hacted, hwhole, hall.2 1 c₁ hrun hcut⟩
  · intro n c' hrun' hcut'
    rcases n with _ | _ | n
    · cases hrun'
      exact absurd hcut'.2 (by decide +kernel)
    · rw [hrun] at hrun'
      cases hrun'
      exact hframe
    · obtain ⟨c'', h⟩ := hstop n
      rw [h] at hrun'
      cases hrun'

end Vdf
