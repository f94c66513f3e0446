import Vdf.NbdMount
import Vdf.TransportLocks

/-!
# The thread of a client

`client_threadfunc` from its first byte on: the handshake, whose 152 bytes tell the peer the size of
the drive (`readGreeting`), and the requests. The size that a peer takes from there is the one by
which it splits the answers, so that it mounts the drive without knowing anything else
(`client_thread_mounts`).
-/

namespace Vdf

open Word Buffer

/-! ## Specification -/

/-- What a peer finds in a stream. -/
structure Greeting where
  size : Nat
  flags : Nat
  answers : List UInt8

/-- The oldest handshake of the protocol: a password, a magic number, the size and the flags of the
export, and 124 bytes of no meaning. -/
def readGreeting (stream : List UInt8) : Option Greeting :=
  if stream.take 8 = [0x4e, 0x42, 0x44, 0x4d, 0x41, 0x47, 0x49, 0x43] ∧
      beValue ((stream.drop 8).take 8) = 0x00420281861253 ∧ 152 ≤ stream.length then
    some
      { size := beValue ((stream.drop 16).take 8), flags := beValue ((stream.drop 24).take 4)
        answers := stream.drop 152 }
  else none

/-- What `handshake` writes. -/
def greeting (size : Nat) : List UInt8 :=
  "NBDMAGIC".toUTF8.toList ++ be 8 0x00420281861253 ++ be 8 size ++ be 4 nbdFlags ++
    List.replicate 124 0

theorem length_password : ("NBDMAGIC".toUTF8.toList : List UInt8).length = 8 := by decide +kernel

/-- A peer reads the size from it, and that the export is read-only. -/
theorem readGreeting_greeting {size : Nat} (hsize : size < 2 ^ 64) (answers : List UInt8) :
    readGreeting (greeting size ++ answers) = some ⟨size, 3, answers⟩ := by
  obtain ⟨password, hpassword⟩ : ∃ l, l = ("NBDMAGIC".toUTF8.toList : List UInt8) := ⟨_, rfl⟩
  have hlen : password.length = 8 := hpassword ▸ length_password
  have hstream : greeting size ++ answers = password ++ (be 8 0x00420281861253 ++
      (be 8 size ++ (be 4 nbdFlags ++ (List.replicate 124 0 ++ answers)))) := by
    simp only [greeting, hpassword, List.append_assoc]
  have h8 : (greeting size ++ answers).drop 8 = be 8 0x00420281861253 ++
      (be 8 size ++ (be 4 nbdFlags ++ (List.replicate 124 0 ++ answers))) := by
    rw [hstream, List.drop_left' hlen]
  have h16 : (greeting size ++ answers).drop 16 =
      be 8 size ++ (be 4 nbdFlags ++ (List.replicate 124 0 ++ answers)) := by
    rw [show 16 = 8 + 8 from rfl, ← List.drop_drop, h8, List.drop_left' (length_be ..)]
  have h24 : (greeting size ++ answers).drop 24 =
      be 4 nbdFlags ++ (List.replicate 124 0 ++ answers) := by
    rw [show 24 = 16 + 8 from rfl, ← List.drop_drop, h16, List.drop_left' (length_be ..)]
  have h28 : (greeting size ++ answers).drop 28 = List.replicate 124 0 ++ answers := by
    rw [show 28 = 24 + 4 from rfl, ← List.drop_drop, h24, List.drop_left' (length_be ..)]
  have h152 : (greeting size ++ answers).drop 152 = answers := by
    rw [show 152 = 28 + 124 from rfl, ← List.drop_drop, h28,
      List.drop_left' (List.length_replicate ..)]
  have hlong : 152 ≤ (greeting size ++ answers).length := by
    rw [hstream]
    simp only [List.length_append, hlen, length_be, List.length_replicate]
    omega
  rw [readGreeting, h8, h16, h24, h152, List.take_left' (length_be ..),
    List.take_left' (length_be ..), List.take_left' (length_be ..), beValue_be, beValue_be,
    beValue_be, if_pos]
  · rw [Nat.mod_eq_of_lt (by omega), Nat.mod_eq_of_lt (by decide)]
    rfl
  · refine ⟨?_, by decide, hlong⟩
    rw [hstream, List.take_left' hlen, hpassword]
    decide +kernel

namespace Link

variable {l : Link} {c c' : Conn} {fuel n : Nat}

/-- A handshake that returns has sent the greeting. -/
theorem handshake_sends (hrun : l.handshake c = .ok () c') :
    c'.sock.input = c.sock.input ∧ c'.sock.output = c.sock.output ++ greeting l.drive.bytes := by
  rw [handshake] at hrun
  obtain ⟨_, c₁, h₁, hrun⟩ := Exits.bind_eq_ok.1 hrun
  obtain ⟨_, c₂, h₂, hrun⟩ := Exits.bind_eq_ok.1 hrun
  obtain ⟨_, c₃, h₃, hrun⟩ := Exits.bind_eq_ok.1 hrun
  obtain ⟨_, c₄, h₄, hrun⟩ := Exits.bind_eq_ok.1 hrun
  rw [Exits.modify_bind, Exits.get_bind] at hrun
  obtain ⟨k₁, -, rfl⟩ := sockWrite_iff.1 h₁
  obtain ⟨k₂, -, rfl⟩ := sockWrite_iff.1 h₂
  obtain ⟨k₃, -, rfl⟩ := sockWrite_iff.1 h₃
  obtain ⟨k₄, -, rfl⟩ := sockWrite_iff.1 h₄
  obtain ⟨k₅, -, rfl⟩ := sockWrite_iff.1 hrun
  refine ⟨rfl, ?_⟩
  simp only [Sock.wrote, slice_fill, greeting, List.append_assoc]

/-- The thread is the handshake and its rounds. -/
theorem clientThreadfunc_ok {alloc : Bool} :
    l.clientThreadfunc fuel n alloc c = .ok () c' ↔ alloc = true ∧
      ∃ c₁, l.handshake c = .ok () c₁ ∧ l.rounds fuel .server n c₁ = .ok () c' := by
  rw [rounds_server]
  cases alloc with
  | false =>
    refine ⟨fun hrun => ?_, fun h => absurd h.1 (by simp)⟩
    cases hrun
  | true =>
    rw [eq_self, true_and]
    constructor
    · intro hrun
      obtain ⟨_, c₁, hhand, hloop⟩ := Exits.bind_eq_ok.1 hrun
      exact ⟨c₁, hhand, hloop⟩
    · rintro ⟨c₁, hhand, hloop⟩
      exact Exits.bind_eq_ok.2 ⟨(), c₁, hhand, hloop⟩

/-- A `NBD_CMD_DISC` that arrives ends the thread without another byte. -/
theorem round_disc (fuel : Nat) (d : NbdDriver) (n : Nat) {r : NbdRequest} {rest : List UInt8}
    (hin : c.sock.input = r.encode ++ rest) (hcmd : r.cmd = .disc) (hgives : Gives l.net c.sock) :
    ∃ c', l.round fuel d n c = .error .disc c' ∧ c'.sock.output = c.sock.output := by
  obtain ⟨k, c₁, htook, hround⟩ := round_gives d n fuel hgives
  have hr : c₁.Holds r := round_holds hin htook
  have hr₁ : Conn.Holds { c₁ with acted := c₁.acted ++ [k] } r := hr
  refine ⟨{ c₁ with acted := c₁.acted ++ [k] }, ?_, ?_⟩
  · rw [hround, act_eq fuel k hr, nbdRequest_eq hr₁, hcmd]
    rfl
  · exact htook.output.trans (congrArg Sock.output (d.enter_sock n c))

end Link

/-- A peer of the thread reads the greeting, and behind it the answers to its requests and nothing
else; a `NBD_CMD_DISC` behind them ends the thread. -/
theorem Exports.thread {l : Link} {image : Nat → Option UInt8} {E : Fault → Prop}
    (h : Exports l image E) {c c' : Conn} {fuel : Nat} {alloc : Bool} {ms : List NbdMessage}
    {rest : List UInt8} (hin : c.sock.input = wire ms ++ rest) (hout : c.sock.output = [])
    (hms : ∀ m ∈ ms, m.request.cmd = .read → m.request.Fits)
    (hrun : l.clientThreadfunc fuel ms.length alloc c = .ok () c') :
    (∃ answers,
      readGreeting c'.sock.output = some ⟨l.drive.bytes, 3, answers.flatten⟩ ∧
      List.Forall₂ (fun m a => Answer l.drive.bytes image m.request a) ms answers) ∧
    ∀ r rest', rest = NbdRequest.encode r ++ rest' → r.cmd = .disc → Link.Gives l.net c'.sock →
      ∃ c'', l.clientThreadfunc fuel (ms.length + 1) alloc c = .error .disc c'' ∧
        c''.sock.output = c'.sock.output := by
  obtain ⟨rfl, c₁, hhand, hrounds⟩ := Link.clientThreadfunc_ok.1 hrun
  obtain ⟨hin₁, hout₁⟩ := Link.handshake_sends hhand
  rw [hout, List.nil_append] at hout₁
  rw [hin] at hin₁
  constructor
  · obtain ⟨answers, hanswers, hout'⟩ := h.rounds hin₁ hms (Nat.le_refl _) hrounds
    rw [List.take_length] at hanswers
    refine ⟨answers, ?_, hanswers⟩
    rw [hout', hout₁]
    exact readGreeting_greeting (Nat.lt_trans h.created.bytes (by decide)) _
  · intro r rest' hrest hcmd hgives
    have hin' : c'.sock.input = r.encode ++ rest' := by
      rw [Link.rounds_input hin₁ (Nat.le_refl _) hrounds, List.drop_length, hrest]
      rfl
    obtain ⟨c'', hround, hsame⟩ :=
      Link.round_disc fuel .server ms.length hin' hcmd hgives
    refine ⟨c'', ?_, hsame⟩
    have hlast : l.rounds fuel .server (ms.length + 1) c₁ = .error .disc c'' :=
      (Exits.bind_ok hrounds).trans hround
    rw [Link.rounds_server] at hlast
    exact (Exits.bind_ok hhand).trans hlast

end Vdf
