import Vdf.NbdStream

/-!
# The replies to a sequence of NBD requests

A connection over which the requests of a sequence arrive, one after the other. Each is to be answered
with one reply header, but for `NBD_CMD_DISC`. A `NBD_CMD_READ` that fails the check of its range gets
none, nor does a command that the `switch` does not know, and a `NBD_CMD_WRITE` with a payload is never
done with.
-/

namespace Vdf

open Word Buffer

/-- A request, and the payload that follows it. -/
structure NbdMessage where
  request : NbdRequest
  payload : List UInt8
  sized : payload.length = if request.cmd = .write then request.len.toNat else 0

/-- What the peer sends. -/
def wire (ms : List NbdMessage) : List UInt8 := ms.flatMap fun m => m.request.encode ++ m.payload

/-- The handles that are to be answered, in order. -/
def handles (ms : List NbdMessage) : List (List UInt8) :=
  (ms.filter fun m => m.request.cmd ≠ .disc).map fun m => be 8 m.request.handle.toNat

theorem handles_append (ms ms' : List NbdMessage) :
    handles (ms ++ ms') = handles ms ++ handles ms' := by
  simp [handles]

theorem handles_singleton (m : NbdMessage) : handles [m] =
    if m.request.cmd = .disc then [] else [be 8 m.request.handle.toNat] := by
  by_cases h : m.request.cmd = .disc <;> simp [handles, h]

/-- The request arrives, it is one that is answered, and the counts of `send` for the reply header add up.
`NBD_CMD_DISC` is not to be answered. -/
def Answers (l : Link) (s : Sock) (r : NbdRequest) : Prop :=
  r.cmd = .disc ∨ Link.Gives l.net s ∧ (∃ k, l.net.Takes 16 s.sends k) ∧
    (r.cmd = .read → u64 (r.off.toNat + r.len.toNat) ≤ l.drive.bytes) ∧
    (r.cmd = .write → r.len = 0) ∧ r.cmd ≠ .other

namespace Link

variable {l : Link} {c c' : Conn} {r : NbdRequest} {fuel k : Nat}

/-- A request is left with the replies `a`. -/
def Leaves (x : Driver Unit) (c : Conn) (a : List (List UInt8)) : Prop :=
  Exits x c (fun _ c' => c'.replies = a) (fun _ c' => c'.replies = a)

theorem Leaves.unique {x : Driver Unit} {a b : List (List UInt8)} (ha : Leaves x c a)
    (hb : Leaves x c b) : a = b :=
  Exits.both ha hb (fun _ _ h h' => h.symm.trans h') fun _ _ h h' => h.symm.trans h'

theorem framed_replies (a : List (List UInt8)) : Framed fun c => c.replies = a :=
  fun _ _ _ _ h => h

/-- A reply header that is not sent is none. -/
theorem reply_fails (h : ¬ ∃ k, l.net.Takes 16 c.sock.sends k) :
    ∃ e c', l.reply c = .error e c' ∧ c'.replies = c.replies := by
  have hlen : (replyHeader c.handle).length = 16 := by
    rw [length_replyHeader, Conn.length_handle]
  have hframe : Exits (l.sockWrite (replyHeader c.handle)) c
      (fun _ c' => c'.replies = c.replies) (fun _ c' => c'.replies = c.replies) :=
    sockWrite_frame (framed_replies c.replies).send rfl
  cases hw : l.sockWrite (replyHeader c.handle) c with
  | ok u c' =>
    obtain ⟨k, hk, -⟩ := sockWrite_iff.1 hw
    rw [hlen] at hk
    exact absurd ⟨k, hk⟩ h
  | error e c' =>
    rw [Exits, hw] at hframe
    exact ⟨e, c', by rw [Link.reply, Exits.get_bind, Exits.bind_error hw], hframe⟩

theorem append_ne_self {a : List (List UInt8)} {handle : List UInt8} : a ≠ a ++ [handle] := by
  simp

/-- A reply, and what keeps the replies as they are behind it. -/
theorem reply_leaves_iff {f : Unit → Driver Unit}
    (hf : ∀ c₁ : Conn, Leaves (f ()) c₁ c₁.replies) :
    Leaves (l.reply >>= f) c (c.replies ++ [c.handle]) ↔
      ∃ k, l.net.Takes 16 c.sock.sends k := by
  constructor
  · intro h
    by_contra hnone
    obtain ⟨e, c', hfail, hreplies⟩ := reply_fails hnone
    exact append_ne_self (Leaves.unique (Exits.of_error (Exits.bind_error hfail) hreplies) h)
  · rintro ⟨k, hk⟩
    exact Exits.of_eq (Exits.bind_ok (reply_iff.2 ⟨k, hk, rfl⟩)) (hf (replied c k))

theorem reply_alone_iff :
    Leaves l.reply c (c.replies ++ [c.handle]) ↔ ∃ k, l.net.Takes 16 c.sock.sends k := by
  have h := reply_leaves_iff (l := l) (c := c) (f := pure) fun c₁ => Exits.pure rfl
  rwa [bind_pure] at h

/-- What goes wrong before the reply leaves none. -/
theorem payload_leaves {len : Nat} (hlen : len ≠ 0) :
    Leaves (l.payloadLoop fuel len >>= fun _ => l.reply) c c.replies := by
  have hframe := payloadLoop_frame (l := l) (c := c) (framed_replies c.replies) fuel len rfl
  obtain ⟨e, c', hfail, -⟩ := payloadLoop_stuck (l := l) c fuel hlen
  rw [Exits, hfail] at hframe
  exact Exits.of_error (Exits.bind_error hfail) hframe

theorem Leaves.of_eq_iff {x y : Driver Unit} {a : List (List UInt8)} (h : x c = y c') :
    Leaves x c a ↔ Leaves y c' a :=
  ⟨fun hx => Exits.of_eq h.symm hx, fun hy => Exits.of_eq h hy⟩

/-- What the drivers answer, by the command. -/
theorem act_leaves_iff (hr : c.Holds r) :
    Leaves (l.act fuel k) c (c.replies ++ [be 8 r.handle.toNat]) ↔
      r.cmd ≠ .disc ∧ (∃ k, l.net.Takes 16 c.sock.sends k) ∧
        (r.cmd = .read → u64 (r.off.toNat + r.len.toNat) ≤ l.drive.bytes) ∧
        (r.cmd = .write → r.len = 0) ∧ r.cmd ≠ .other := by
  obtain ⟨c₁, hc₁⟩ : ∃ c₁ : Conn, c₁ = { c with acted := c.acted ++ [k] } := ⟨_, rfl⟩
  have hr₁ : c₁.Holds r := by rw [hc₁]; exact hr
  have hreplies : c₁.replies = c.replies := by rw [hc₁]
  have hsock : c₁.sock = c.sock := by rw [hc₁]
  have hlen : r.len.toNat = 0 ↔ r.len = 0 := by
    rw [← UInt32.toNat_inj]
    rfl
  rw [Leaves.of_eq_iff (act_eq fuel k hr), ← hc₁, Leaves.of_eq_iff (nbdRequest_eq hr₁), ← hreplies,
    ← hsock, ← hr₁.handle]
  have hnone : ∀ {x : Driver Unit}, Leaves x c₁ c₁.replies →
      ¬ Leaves x c₁ (c₁.replies ++ [c₁.handle]) := fun h h' =>
    append_ne_self (h.unique h')
  cases r.cmd with
  | disc => simpa using hnone (Exits.throw rfl)
  | other => simpa using hnone (Exits.pure rfl)
  | read =>
    by_cases hcheck : l.drive.bytes < u64 (r.off.toNat + r.len.toNat)
    · simpa [hcheck, Nat.not_le.2 hcheck] using hnone (Exits.pure rfl)
    · have hsend := reply_leaves_iff (l := l) (c := c₁)
        (f := fun _ => l.sendRange r.off.toNat r.len.toNat)
        fun c₂ => sendLoop_frame (framed_replies c₂.replies).send _ _ _ rfl
      simpa [hcheck, Nat.not_lt.1 hcheck] using hsend
  | write =>
    by_cases hzero : r.len = 0
    · have hwrite : Leaves (l.payloadLoop fuel r.len.toNat >>= fun _ => l.reply) c₁
          (c₁.replies ++ [c₁.handle]) ↔ Leaves l.reply c₁ (c₁.replies ++ [c₁.handle]) := by
        rw [hlen.2 hzero]
        exact Leaves.of_eq_iff (Exits.bind_ok (payloadLoop_zero ..))
      simpa [hzero] using hwrite.trans reply_alone_iff
    · simpa [hzero] using hnone (payload_leaves fun h => hzero (hlen.1 h))
  | flush => simpa using reply_alone_iff
  | trim => simpa using reply_alone_iff

/-- `NBD_CMD_DISC` is not answered. -/
theorem act_disc (hr : c.Holds r) (hcmd : r.cmd = .disc) : Leaves (l.act fuel k) c c.replies := by
  have hr₁ : Conn.Holds { c with acted := c.acted ++ [k] } r := hr
  rw [Leaves.of_eq_iff (act_eq fuel k hr), Leaves.of_eq_iff (nbdRequest_eq hr₁), hcmd]
  exact Exits.throw rfl

section Step

variable {d : NbdDriver} {n : Nat}

/-- The next request is left with its reply exactly where it is one that is answered. -/
theorem round_leaves_iff {m : NbdMessage} {rest : List UInt8}
    (hin : c.sock.input = m.request.encode ++ rest) :
    Leaves (l.round fuel d n) c (c.replies ++ handles [m]) ↔ Answers l c.sock m.request := by
  rw [handles_singleton, Answers]
  by_cases hgives : Gives l.net c.sock
  · obtain ⟨k, c₁, htook, hround⟩ := round_gives d n fuel hgives
    have hr : c₁.Holds m.request := round_holds hin htook
    have hreplies : c₁.replies = c.replies := htook.replies.trans (d.enter_replies n c)
    have hsends : c₁.sock.sends = c.sock.sends := by rw [htook.sends, d.enter_sock]
    rw [Leaves.of_eq_iff hround, ← hreplies]
    by_cases hdisc : m.request.cmd = .disc
    · simpa [hdisc] using act_disc hr hdisc
    · rw [if_neg hdisc, act_leaves_iff hr, hsends]
      simp only [hdisc, hgives, ne_eq, not_false_eq_true, true_and, false_or]
  · obtain ⟨e, c₁, hround, hidle⟩ := round_left d n fuel hgives
    have hnone : Leaves (l.round fuel d n) c c.replies := Exits.of_error hround hidle.replies
    by_cases hdisc : m.request.cmd = .disc
    · simpa [hdisc] using hnone
    · simp only [hdisc, hgives, ↓reduceIte, false_or, false_and, iff_false]
      exact fun h => append_ne_self (hnone.unique h)

theorem reply_input (h : l.reply c = .ok () c') : c'.sock.input = c.sock.input := by
  have hexits := reply_exits (l := l) (c := c)
  rw [Exits, h] at hexits
  exact hexits.2.2.1

/-- A request that is done with leaves what comes behind it. -/
theorem act_input (hr : c.Holds r) (hrun : l.act fuel k c = .ok () c') :
    c'.sock.input = c.sock.input ∧ (r.cmd = .write → r.len.toNat = 0) := by
  have hr₁ : Conn.Holds { c with acted := c.acted ++ [k] } r := hr
  rw [act_eq fuel k hr, nbdRequest_eq hr₁] at hrun
  cases hcmd : r.cmd with
  | disc => rw [hcmd] at hrun; cases hrun
  | other =>
    rw [hcmd] at hrun
    cases hrun
    exact ⟨rfl, nofun⟩
  | flush =>
    rw [hcmd] at hrun
    have hinput := reply_input hrun
    exact ⟨hinput, nofun⟩
  | trim =>
    rw [hcmd] at hrun
    have hinput := reply_input hrun
    exact ⟨hinput, nofun⟩
  | read =>
    rw [hcmd] at hrun
    dsimp only at hrun
    split_ifs at hrun with hcheck
    · cases hrun
      exact ⟨rfl, nofun⟩
    · obtain ⟨_, c₁, h₁, h₂⟩ := Exits.bind_eq_ok.1 hrun
      have hsend : Exits (l.sendRange r.off.toNat r.len.toNat) c₁
          (fun _ c' => c'.sock.input = c₁.sock.input) (fun _ c' => c'.sock.input = c₁.sock.input) :=
        sendLoop_frame (fun _ _ _ _ hin h => hin.trans h) _ _ _ rfl
      rw [Exits, h₂] at hsend
      have hinput := reply_input h₁
      exact ⟨hsend.trans hinput, nofun⟩
  | write =>
    rw [hcmd] at hrun
    dsimp only at hrun
    by_cases hlen : r.len.toNat = 0
    · rw [hlen, Exits.bind_ok (payloadLoop_zero ..)] at hrun
      have hinput := reply_input hrun
      exact ⟨hinput, fun _ => hlen⟩
    · obtain ⟨e, c₁, hstuck, -⟩ := payloadLoop_stuck (l := l)
        { c with acted := c.acted ++ [k] } fuel hlen
      rw [Exits.bind_error hstuck] at hrun
      cases hrun

/-- So does a message. -/
theorem round_input {m : NbdMessage} {rest : List UInt8}
    (hin : c.sock.input = m.request.encode ++ (m.payload ++ rest))
    (hrun : l.round fuel d n c = .ok () c') : c'.sock.input = rest := by
  obtain ⟨k, c₁, htook, hround⟩ := round_gives d n fuel (round_ok_gives hrun)
  have hr : c₁.Holds m.request := round_holds hin htook
  have hinput : c₁.sock.input = m.payload ++ rest := by
    rw [htook.input, d.enter_sock, hin, List.drop_left' m.request.length_encode]
  rw [hround] at hrun
  obtain ⟨hkeep, hwrite⟩ := act_input hr hrun
  have hempty : m.payload = [] := by
    rw [← List.length_eq_zero_iff, m.sized]
    split
    · rename_i hcmd
      exact hwrite hcmd
    · rfl
  rw [hkeep, hinput, hempty, List.nil_append]

theorem wire_drop {ms : List NbdMessage} (hn : n < ms.length) : wire (ms.drop n) =
    ms[n].request.encode ++ (ms[n].payload ++ wire (ms.drop (n + 1))) := by
  rw [List.drop_eq_getElem_cons hn, wire, List.flatMap_cons, List.append_assoc]
  rfl

/-- A run has taken the messages up to its end. -/
theorem rounds_input {ms : List NbdMessage} {rest : List UInt8}
    (hin : c.sock.input = wire ms ++ rest) (hn : n ≤ ms.length)
    (hrun : l.rounds fuel d n c = .ok () c') : c'.sock.input = wire (ms.drop n) ++ rest := by
  induction n generalizing c' with
  | zero =>
    cases hrun
    exact hin
  | succ n ih =>
    obtain ⟨_, c₁, hprev, hround⟩ := Exits.bind_eq_ok.1 hrun
    refine round_input (m := ms[n]) ?_ hround
    rw [ih (by omega) hprev, wire_drop hn]
    simp only [List.append_assoc]

theorem handles_take {ms : List NbdMessage} (hn : n < ms.length) :
    handles (ms.take (n + 1)) = handles (ms.take n) ++ handles [ms[n]] := by
  rw [← handles_append, List.take_append_getElem hn]

end Step

end Link

/-- The requests of a sequence are answered one by one, by either driver: whether it goes on behind a
request or leaves, the replies are those to the requests up to it. -/
def AllAnswered (l : Link) (fuel : Nat) (d : NbdDriver) (c : Conn) (ms : List NbdMessage) : Prop :=
  ∀ n < ms.length, ∀ c', l.rounds fuel d n c = .ok () c' →
    Exits (l.round fuel d n) c' (fun _ c'' => c''.replies = handles (ms.take (n + 1)))
      (fun _ c'' => c''.replies = handles (ms.take (n + 1)))

/-- They are exactly where each request that is received is one that is answered. -/
theorem all_answered_iff (l : Link) (fuel : Nat) (d : NbdDriver) (c : Conn) (ms : List NbdMessage)
    (rest : List UInt8) (hin : c.sock.input = wire ms ++ rest) (hc : c.replies = []) :
    AllAnswered l fuel d c ms ↔ ∀ (n : Nat) (hn : n < ms.length) (c' : Conn),
      l.rounds fuel d n c = .ok () c' → Answers l c'.sock ms[n].request := by
  have hinput : ∀ (n : Nat) (hn : n < ms.length) (c' : Conn), l.rounds fuel d n c = .ok () c' →
      ∃ rest', c'.sock.input = ms[n].request.encode ++ rest' := by
    intro n hn c' hrun
    rw [Link.rounds_input hin (Nat.le_of_lt hn) hrun, Link.wire_drop hn, List.append_assoc]
    exact ⟨_, rfl⟩
  -- The replies so far, where all requests so far were answered.
  have hsofar : ∀ n, n ≤ ms.length → (∀ m < n, ∀ c', l.rounds fuel d m c = .ok () c' →
      Link.Leaves (l.round fuel d m) c' (handles (ms.take (m + 1)))) → ∀ c',
      l.rounds fuel d n c = .ok () c' → c'.replies = handles (ms.take n) := by
    intro n hn h c' hrun
    cases n with
    | zero =>
      cases hrun
      exact hc
    | succ n =>
      obtain ⟨_, c₁, hprev, hround⟩ := Exits.bind_eq_ok.1 hrun
      have := h n (Nat.lt_succ_self n) c₁ hprev
      rwa [Link.Leaves, Exits, hround] at this
  constructor
  · intro h n hn c' hrun
    obtain ⟨rest', hin'⟩ := hinput n hn c' hrun
    have hleaves := h n hn c' hrun
    rw [Link.handles_take hn, ← hsofar n (Nat.le_of_lt hn)
      (fun m hm => h m (Nat.lt_trans hm hn)) c' hrun] at hleaves
    exact (Link.round_leaves_iff hin').1 hleaves
  · intro h n
    induction n using Nat.strong_induction_on with
    | _ n ih =>
      intro hn c' hrun
      obtain ⟨rest', hin'⟩ := hinput n hn c' hrun
      rw [Link.handles_take hn, ← hsofar n (Nat.le_of_lt hn)
        (fun m hm => ih m hm (Nat.lt_trans hm hn)) c' hrun]
      exact (Link.round_leaves_iff hin').2 (h n hn c' hrun)

/-- 512 bytes behind the end of a drive of 1 GiB, and a flush. -/
def readBehindEnd : List NbdMessage :=
  [⟨⟨0, 1, 0x40000000, 512⟩, [], by decide⟩, ⟨⟨3, 2, 0, 0⟩, [], by decide⟩]

/-- Only the flush is answered, by both drivers. -/
theorem readBehindEnd_waits : handles readBehindEnd = [be 8 1, be 8 2] ∧
    driveEmpty32.bytes = gib 1 ∧
    (∃ c', (deafLink driveEmpty32).rounds 0 .server 2 (Conn.new (wire readBehindEnd)) = .ok () c' ∧
      c'.replies = [be 8 2] ∧ c'.sock.output = replyHeader (be 8 2)) ∧
    ∃ c', (deafLink driveEmpty32).rounds 0 (.client leftover) 2 (Conn.new (wire readBehindEnd)) =
      .ok () c' ∧ c'.replies = [be 8 2] ∧ c'.sock.output = replyHeader (be 8 2) :=
  ⟨rfl, by decide, ⟨_, rfl, by decide +kernel, by decide +kernel⟩,
    ⟨_, rfl, by decide +kernel, by decide +kernel⟩⟩

/-- A flush, 512 bytes from 4096 on, and the end of the connection. -/
def flushReadLeave : List NbdMessage :=
  [⟨⟨3, 1, 0, 0⟩, [], by decide⟩, ⟨⟨0, 2, 4096, 512⟩, [], by decide⟩, ⟨⟨2, 3, 0, 0⟩, [], by decide⟩]

theorem all_answered_sample : AllAnswered (servingLink driveEmpty32) 0 .server
    (Conn.new (wire flushReadLeave ++ [])) flushReadLeave := by
  refine (all_answered_iff (servingLink driveEmpty32) 0 .server _ flushReadLeave []
    (Conn.new_input _) rfl).2 fun n hn c' hrun => ?_
  have hin := Link.rounds_input (Conn.new_input _) (Nat.le_of_lt hn) hrun
  have hgives (hlen : requestSize ≤ (wire (flushReadLeave.drop n) ++ []).length) :
      Link.Gives (servingLink driveEmpty32).net c'.sock :=
    Link.gives_whole (by rw [hin]; exact hlen)
  have htakes : ∃ k, (servingLink driveEmpty32).net.Takes 16 c'.sock.sends k :=
    ⟨1, Net.takes_whole rfl (by decide) (by decide)⟩
  have hcases : n = 0 ∨ n = 1 ∨ n = 2 := by
    have hlt : n < 3 := hn
    omega
  rcases hcases with rfl | rfl | rfl
  · have hflush : NbdRequest.cmd ⟨3, 1, 0, 0⟩ = .flush := by decide
    rw [Answers, show flushReadLeave[0].request.cmd = .flush from hflush]
    exact .inr ⟨hgives (by decide), htakes, by simp, by simp, by simp⟩
  · have hread : NbdRequest.cmd ⟨0, 2, 4096, 512⟩ = .read := by decide
    rw [Answers, show flushReadLeave[1].request.cmd = .read from hread]
    exact .inr ⟨hgives (by decide), htakes, fun _ => (by decide : u64 (4096 + 512) ≤ driveEmpty32.bytes), by simp,
      by simp⟩
  · have hdisc : NbdRequest.cmd ⟨2, 3, 0, 0⟩ = .disc := by decide
    exact .inl hdisc
end Vdf
