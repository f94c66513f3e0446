import Vdf.Nbd

/-!
# What the parts of the NBD drivers do

One lemma for each part: what a request that was received holds, what a read and a write do to the
connection, and when they return.
-/

namespace Vdf

open Word Buffer

/-- A new connection, with what the peer sends. -/
def Conn.new (input : List UInt8) : Conn :=
  { sock := { input }, request := fun _ => 0, buff := fun _ => 0 }

theorem Conn.new_input (input : List UInt8) : (Conn.new input).sock.input = input := rfl

theorem Conn.new_calls (input : List UInt8) : (Conn.new input).calls = [] := rfl

/-! ## The fields of a request -/

theorem NbdRequest.length_encode (r : NbdRequest) : r.encode.length = requestSize := by
  simp [NbdRequest.encode, requestSize]

/-- The structure has the bytes of the request. -/
def Conn.Holds (c : Conn) (r : NbdRequest) : Prop := c.request.slice 0 requestSize = r.encode

section Holds

variable {c : Conn} {r : NbdRequest}

/-- A part of the structure is that part of the request. -/
theorem Conn.Holds.slice (h : c.Holds r) {a n : Nat} (hn : a + n ≤ requestSize) :
    c.request.slice a n = (r.encode.drop a).take n := by
  rw [← h, slice_drop _ _ _ _ (by omega), slice_take _ _ _ _ (by omega), Nat.zero_add]

theorem slice_append_append {a b d : List UInt8} {i n : Nat} (ha : a.length = i)
    (hb : b.length = n) : ((a ++ (b ++ d)).drop i).take n = b := by
  rw [List.drop_left' ha, List.take_left' hb]

theorem Conn.Holds.magic (h : c.Holds r) : c.magic = nbdRequestMagic := by
  rw [Conn.magic, h.slice (by decide)]
  simp [NbdRequest.encode, beValue_be, nbdRequestMagic]

theorem Conn.Holds.type (h : c.Holds r) : c.type = r.type.toNat := by
  rw [Conn.type, h.slice (by decide)]
  simp [NbdRequest.encode, beValue_be]

theorem Conn.Holds.handle (h : c.Holds r) : c.handle = be 8 r.handle.toNat := by
  rw [Conn.handle, h.slice (by decide), NbdRequest.encode, List.append_assoc, List.append_assoc,
    slice_append_append (by simp) (by simp)]

theorem Conn.Holds.off (h : c.Holds r) : c.off = r.off.toNat := by
  rw [Conn.off, h.slice (by decide), NbdRequest.encode, List.append_assoc,
    slice_append_append (by simp) (by simp), beValue_be]
  exact Nat.mod_eq_of_lt r.off.toNat_lt

theorem Conn.Holds.len (h : c.Holds r) : c.len = r.len.toNat := by
  rw [Conn.len, h.slice (by decide), NbdRequest.encode, ← List.append_nil (be 4 r.len.toNat),
    slice_append_append (by simp) (by simp), beValue_be]
  exact Nat.mod_eq_of_lt r.len.toNat_lt

end Holds

theorem length_replyHeader (handle : List UInt8) :
    (replyHeader handle).length = 8 + handle.length := by
  simp [replyHeader]
  omega

theorem Conn.length_handle (c : Conn) : c.handle.length = 8 := by simp [Conn.handle]

/-! ## Writes -/

namespace Link

variable {l : Link} {c c' : Conn} {bytes : List UInt8}

/-- A write returns where the counts of `send` add up. -/
theorem sockWrite_iff : l.sockWrite bytes c = .ok () c' ↔
    ∃ k, l.net.Takes bytes.length c.sock.sends k ∧
      c' = { c with sock := c.sock.wrote bytes k } := by
  have h : ∀ s', Vdf.sockWrite l.net bytes c.sock = .ok (true, s') ↔
      ∃ k, l.net.Takes bytes.length c.sock.sends k ∧ s' = c.sock.wrote bytes k :=
    fun _ => Vdf.sockWrite_iff
  unfold Link.sockWrite
  constructor
  · intro hw
    cases hs : Vdf.sockWrite l.net bytes c.sock with
    | error f => rw [hs] at hw; cases hw
    | ok q =>
      obtain ⟨b, sock⟩ := q
      rw [hs] at hw
      cases b
      · cases hw
      · cases hw
        obtain ⟨k, hk, rfl⟩ := (h sock).1 hs
        exact ⟨k, hk, rfl⟩
  · rintro ⟨k, hk, rfl⟩
    rw [(h _).2 ⟨k, hk, rfl⟩]

/-- It changes the connection only. -/
theorem sockWrite_exits : Exits (l.sockWrite bytes) c
    (fun _ c' => ∃ sock, c' = { c with sock } ∧ sock.input = c.sock.input)
    (fun e c' => (∃ sock, c' = { c with sock } ∧ sock.input = c.sock.input) ∧
      (e = .fail ∨ e = .fault (.sock .overread))) := by
  unfold Exits Link.sockWrite
  cases hs : Vdf.sockWrite l.net bytes c.sock with
  | error f => exact ⟨⟨c.sock, rfl, rfl⟩, .inr (by rw [sockWriteLoop_error hs])⟩
  | ok q =>
    obtain ⟨b, sock⟩ := q
    cases b
    · exact ⟨⟨sock, rfl, (sockWriteLoop_input hs).1⟩, .inl rfl⟩
    · exact ⟨sock, rfl, (sockWriteLoop_input hs).1⟩

/-- The connection behind a reply header. -/
def replied (c : Conn) (k : Nat) : Conn :=
  { c with sock := c.sock.wrote (replyHeader c.handle) k, replies := c.replies ++ [c.handle] }

theorem reply_iff : l.reply c = .ok () c' ↔
    ∃ k, l.net.Takes 16 c.sock.sends k ∧ c' = replied c k := by
  have hlen : (replyHeader c.handle).length = 16 := by
    rw [length_replyHeader, Conn.length_handle]
  rw [Link.reply, Exits.get_bind, Exits.bind_eq_ok]
  constructor
  · rintro ⟨_, c₁, hw, hm⟩
    obtain ⟨k, hk, rfl⟩ := sockWrite_iff.1 hw
    rw [hlen] at hk
    cases hm
    exact ⟨k, hk, rfl⟩
  · rintro ⟨k, hk, rfl⟩
    rw [← hlen] at hk
    exact ⟨(), _, sockWrite_iff.2 ⟨k, hk, rfl⟩, rfl⟩

theorem reply_exits : Exits l.reply c
    (fun _ c' => c'.calls = c.calls ∧ c'.acted = c.acted ∧ c'.sock.input = c.sock.input ∧
      c'.replies = c.replies ++ [c.handle] ∧ c'.request = c.request)
    (fun e c' => c'.calls = c.calls ∧ c'.acted = c.acted ∧ c'.sock.input = c.sock.input ∧
      (e = .fail ∨ e = .fault (.sock .overread))) := by
  refine Exits.bind (Exits.get (Q := fun a c' => a = c ∧ c' = c) ⟨rfl, rfl⟩) ?_
  rintro a c' ⟨rfl, rfl⟩
  refine Exits.bind (Exits.mono sockWrite_exits (fun _ _ h => h) ?_) ?_
  · rintro e c' ⟨⟨sock, rfl, hin⟩, he⟩
    exact ⟨rfl, rfl, hin, he⟩
  · rintro u c' ⟨sock, rfl, hin⟩
    exact Exits.modifyGet ⟨rfl, rfl, hin, rfl, rfl⟩

/-! ## Reads -/

/-- A request was read into the structure: `n` bytes, as far as there are any. -/
structure Took (c : Conn) (n : Nat) (c' : Conn) : Prop where
  count : n = min requestSize c.sock.input.length
  request : c'.request = c.request.copy 0 (c.sock.input.take requestSize)
  input : c'.sock.input = c.sock.input.drop requestSize
  output : c'.sock.output = c.sock.output
  sends : c'.sock.sends = c.sock.sends
  buff : c'.buff = c.buff
  calls : c'.calls = c.calls
  acted : c'.acted = c.acted
  replies : c'.replies = c.replies

/-- Nothing was acted on. -/
structure Idled (c c' : Conn) : Prop where
  output : c'.sock.output = c.sock.output
  calls : c'.calls = c.calls
  acted : c'.acted = c.acted
  replies : c'.replies = c.replies

theorem readRequest_exits : Exits l.readRequest c
    (fun a c' => Idled c c' ∧ ∀ n, a = .ok n → Took c n c')
    (fun e c' => Idled c c' ∧ ∃ f, e = .fault (.sock f)) := by
  refine Exits.bind (Q := fun r c' => c' = { c with sock := r.sock } ∧
    Vdf.sockRead l.net requestSize requestSize c.sock = .ok r) ?_ ?_
  · unfold Exits Link.sockRead
    cases hs : Vdf.sockRead l.net requestSize requestSize c.sock with
    | error f => exact ⟨⟨rfl, rfl, rfl, rfl⟩, f, rfl⟩
    | ok r => exact ⟨rfl, rfl⟩
  · rintro r c' ⟨rfl, hs⟩
    have hspec := (sockRead_spec hs).1
    refine Exits.bind (Exits.modifyGet (Q := fun _ c' => c' = { c with
      sock := r.sock, request := c.request.copy 0 r.bytes }) rfl) ?_
    rintro u c' rfl
    refine Exits.pure ⟨⟨hspec.output, rfl, rfl, rfl⟩, fun n hn => ?_⟩
    obtain ⟨h1, h2, h3⟩ := sockRead_exact hs hn
    exact ⟨h1, by rw [h2], h3, hspec.output, hspec.sends, rfl, rfl, rfl, rfl⟩

/-- `recv` does not fail for a request, and no call returns more than what is missing of it. -/
def Gives (net : Net) (s : Sock) : Prop :=
  ∃ q n, Vdf.sockRead net requestSize requestSize s = .ok q ∧ q.result = .ok n

/-- A request that was read, whole or not. -/
theorem readRequest_eq {q : Received}
    (hq : Vdf.sockRead l.net requestSize requestSize c.sock = .ok q) : l.readRequest c =
      .ok q.result { c with sock := q.sock, request := c.request.copy 0 q.bytes } := by
  have hrun : l.sockRead requestSize requestSize c = .ok q { c with sock := q.sock } := by
    rw [Link.sockRead, hq]
  rw [readRequest, Exits.bind_ok hrun, Exits.modify_bind]
  rfl

/-- `sock_read` did not return -1 for it. -/
theorem readRequest_took {q : Received} {n : Nat}
    (hq : Vdf.sockRead l.net requestSize requestSize c.sock = .ok q) (hn : q.result = .ok n) :
    ∃ c', l.readRequest c = .ok (.ok n) c' ∧ c'.sock = q.sock ∧ Took c n c' := by
  have hread := readRequest_eq (l := l) (c := c) hq
  have htook := readRequest_exits (l := l) (c := c)
  rw [Exits, hread] at htook
  rw [hn] at hread
  exact ⟨_, hread, rfl, htook.2 n hn⟩

/-- One call of `recv` can be enough. -/
theorem gives_of_recv {net : Net} {s : Sock} {k : Nat} (hk : net.recv s.recvs = .ok k)
    (hle : requestSize ≤ k + 1) (h : requestSize ≤ s.input.length) : Gives net s := by
  obtain ⟨q, hq, hn⟩ : ∃ q, Vdf.sockRead net requestSize requestSize s = .ok q ∧
      q.result = .ok requestSize := sockRead_whole hk hle h (Nat.le_refl _)
  exact ⟨q, _, hq, hn⟩

theorem gives_whole {s : Sock} (h : requestSize ≤ s.input.length) : Gives Net.whole s :=
  gives_of_recv rfl (by decide) h

/-- Where the input starts with a request, it is in the structure. -/
theorem holds_of_input {r : NbdRequest} {rest : List UInt8}
    {n : Nat} (hin : c.sock.input = r.encode ++ rest) (htook : Took c n c') : c'.Holds r := by
  have hlen := r.length_encode
  have htake : c.sock.input.take requestSize = r.encode := by
    rw [hin, List.take_left' hlen]
  have := slice_copy (m := c.request) (a := 0) (l := r.encode) (i := 0) (n := requestSize)
    (by rw [hlen]; decide)
  rw [Conn.Holds, htook.request, htake]
  rw [Nat.add_zero, List.drop_zero, ← hlen, List.take_length] at this
  rw [← hlen]
  exact this

/-- A request with the right magic number is acted on. -/
theorem act_eq {r : NbdRequest} (fuel n : Nat) (hr : c.Holds r) :
    l.act fuel n c = l.nbdRequest fuel { c with acted := c.acted ++ [n] } := by
  rw [act, Exits.get_bind, if_neg (not_not.2 hr.magic)]
  rfl

/-- The `switch` on a request that was received. -/
theorem nbdRequest_eq {r : NbdRequest} {fuel : Nat} (hr : c.Holds r) : l.nbdRequest fuel c =
    (match r.cmd with
      | .disc => throw .disc
      | .read =>
        if l.drive.bytes < u64 (r.off.toNat + r.len.toNat) then pure ()
        else do
          l.reply
          l.sendRange r.off.toNat r.len.toNat
      | .write => do
        l.payloadLoop fuel r.len.toNat
        l.reply
      | .flush | .trim => l.reply
      | .other => pure () : Driver Unit) c := by
  have hcmd : NbdCmd.ofType c.type = r.cmd := by
    rw [hr.type]
    rfl
  rewrite [nbdRequest, Exits.get_bind, hcmd, hr.off, hr.len]
  cases r.cmd <;> rfl

/-! ## The loops -/

/-- A property of what the loops of a request leave as it is. -/
def Framed (P : Conn → Prop) : Prop :=
  ∀ (c : Conn) (sock : Sock) (buff : Buffer) (calls : List (Nat × Nat)),
    P c → P { c with sock, buff, calls }

section Send

variable {P : Conn → Prop} (hP : ∀ (c : Conn) (sock : Sock) (buff : Buffer)
  (calls : List (Nat × Nat)), sock.input = c.sock.input → P c → P { c with sock, buff, calls })
include hP

theorem sockWrite_frame (h : P c) :
    Exits (l.sockWrite bytes) c (fun _ => P) (fun _ => P) := by
  refine sockWrite_exits.mono ?_ ?_
  · rintro _ _ ⟨sock, rfl, hin⟩
    exact hP c sock c.buff c.calls hin h
  · rintro _ _ ⟨⟨sock, rfl, hin⟩, -⟩
    exact hP c sock c.buff c.calls hin h

theorem readBytes_frame {off n : Nat} (h : P c) :
    Exits (l.readBytes off n) c (fun _ => P) (fun _ => P) := by
  unfold Exits Link.readBytes
  dsimp only
  cases vdfReadBytes l.read l.drive l.stack off n c.buff 0 with
  | error f => exact hP c c.sock c.buff _ rfl h
  | ok q =>
    dsimp only
    split_ifs <;> exact hP c c.sock _ _ rfl h

/-- Sending a range leaves what was not received alone. -/
theorem sendLoop_frame (fuel off len : Nat) (h : P c) :
    Exits (l.sendLoop fuel off len) c (fun _ => P) (fun _ => P) := by
  induction fuel generalizing off len c with
  | zero =>
    rw [sendLoop]
    split
    · exact Exits.pure h
    · exact Exits.throw h
  | succ fuel ih =>
    rw [sendLoop]
    split
    · exact Exits.pure h
    · refine Exits.bind (readBytes_frame hP h) fun _ c₁ h₁ => ?_
      refine Exits.bind (Exits.get (Q := fun _ => P) h₁) fun _ c₂ h₂ => ?_
      exact Exits.bind (sockWrite_frame hP h₂) fun _ c₃ h₃ => ih _ _ h₃

end Send

section Frame

variable {P : Conn → Prop} (hP : Framed P)
include hP

theorem Framed.send (c : Conn) (sock : Sock) (buff : Buffer) (calls : List (Nat × Nat))
    (_ : sock.input = c.sock.input) (h : P c) : P { c with sock, buff, calls } :=
  hP c sock buff calls h

theorem payloadLoop_frame (fuel len : Nat) (h : P c) :
    Exits (l.payloadLoop fuel len) c (fun _ => P) (fun _ => P) := by
  induction fuel generalizing c with
  | zero =>
    rw [payloadLoop]
    split
    · exact Exits.pure h
    · exact Exits.throw h
  | succ fuel ih =>
    rw [payloadLoop]
    split
    · exact Exits.pure h
    · refine Exits.bind (Q := fun _ => P) ?_ fun q c₁ h₁ => ?_
      · unfold Exits Link.sockRead
        cases Vdf.sockRead l.net l.drive.bpc (min len l.drive.bpc) c.sock with
        | error f => exact h
        | ok q => exact hP c _ c.buff c.calls h
      · refine Exits.bind (Exits.modifyGet (Q := fun _ => P) (hP c₁ c₁.sock _ c₁.calls h₁))
          fun _ c₂ h₂ => ?_
        cases q.result with
        | error e => exact Exits.throw h₂
        | ok n => exact ih h₂

end Frame

end Link

/-! ## Either driver -/

/-- Who serves a connection: a thread of the server, or the calls of the client driver, each with what
its structure holds. -/
inductive NbdDriver where
  | server
  | client (junk : Nat → Buffer)

/-- The connection to which the `n`-th request is read. -/
def NbdDriver.enter : NbdDriver → Nat → Conn → Conn
  | .server, _, c => c
  | .client junk, n, c => { c with request := junk n }

section Enter

variable (d : NbdDriver) (n : Nat) (c : Conn)

@[simp] theorem NbdDriver.enter_sock : (d.enter n c).sock = c.sock := by cases d <;> rfl

@[simp] theorem NbdDriver.enter_calls : (d.enter n c).calls = c.calls := by cases d <;> rfl

@[simp] theorem NbdDriver.enter_acted : (d.enter n c).acted = c.acted := by cases d <;> rfl

@[simp] theorem NbdDriver.enter_replies : (d.enter n c).replies = c.replies := by cases d <;> rfl

end Enter

namespace Link

variable (l : Link)

/-- The `n`-th request. -/
def round (fuel : Nat) : NbdDriver → Nat → Driver Unit
  | .server, _ => l.serverRound fuel
  | .client junk, n => l.nbdcliProcess fuel (junk n)

/-- The first `n` requests. -/
def rounds (fuel : Nat) (d : NbdDriver) : Nat → Driver Unit
  | 0 => pure ()
  | n + 1 => do
    rounds fuel d n
    l.round fuel d n

variable {l : Link} {c c' : Conn} {d : NbdDriver} {fuel n : Nat}

theorem rounds_server : l.rounds fuel .server n = l.serverLoop fuel n := by
  have hlast : ∀ n, l.serverLoop fuel (n + 1) =
      (l.serverLoop fuel n >>= fun _ => l.serverRound fuel) := by
    intro n
    induction n with
    | zero => simp [serverLoop]
    | succ n ih =>
      have hfirst : l.serverLoop fuel (n + 1) =
          (l.serverRound fuel >>= fun _ => l.serverLoop fuel n) := rfl
      rw [hfirst, bind_assoc, ← ih]
      rfl
  induction n with
  | zero => rfl
  | succ n ih => rw [rounds, ih, hlast, round]

theorem clientLoop_append (requests more : List Buffer) : l.clientLoop fuel (requests ++ more) =
    (l.clientLoop fuel requests >>= fun _ => l.clientLoop fuel more) := by
  induction requests with
  | nil => simp [clientLoop]
  | cons request requests ih => rw [List.cons_append, clientLoop, clientLoop, ih, bind_assoc]

theorem rounds_client (junk : Nat → Buffer) : l.rounds fuel (.client junk) n =
    l.clientLoop fuel ((List.range n).map junk) := by
  induction n with
  | zero => rfl
  | succ n ih =>
    rw [rounds, ih, List.range_succ, List.map_append, clientLoop_append]
    simp [clientLoop, round]

/-- Where `sock_read` does not return -1, the request is acted on. -/
theorem round_took (d : NbdDriver) (n : Nat) {q : Received} {k : Nat}
    (hq : Vdf.sockRead l.net requestSize requestSize c.sock = .ok q) (hk : q.result = .ok k) :
    ∃ c', c'.sock = q.sock ∧ Took (d.enter n c) k c' ∧
      ∀ fuel, l.round fuel d n c = l.act fuel k c' := by
  have hq' : Vdf.sockRead l.net requestSize requestSize (d.enter n c).sock = .ok q := by
    rwa [d.enter_sock]
  obtain ⟨c', hread, hsock, htook⟩ := readRequest_took hq' hk
  refine ⟨c', hsock, htook, fun fuel => ?_⟩
  cases d with
  | server => exact Exits.bind_ok hread
  | client junk =>
    rw [round, nbdcliProcess, Exits.modify_bind]
    exact Exits.bind_ok hread

theorem round_gives (d : NbdDriver) (n fuel : Nat) (h : Gives l.net c.sock) :
    ∃ k c', Took (d.enter n c) k c' ∧ l.round fuel d n c = l.act fuel k c' := by
  obtain ⟨q, k, hq, hk⟩ := h
  obtain ⟨c', -, htook, hround⟩ := round_took d n hq hk
  exact ⟨k, c', htook, hround fuel⟩

/-- Elsewhere nothing is done. -/
theorem round_left (d : NbdDriver) (n fuel : Nat) (h : ¬ Gives l.net c.sock) :
    ∃ e c', l.round fuel d n c = .error e c' ∧ Idled c c' := by
  cases hs : Vdf.sockRead l.net requestSize requestSize c.sock with
  | error f =>
    have hread : ∀ request, l.readRequest { c with request } =
        .error (.fault (.sock f)) { c with request } := by
      intro request
      refine Exits.bind_error ?_
      rw [Link.sockRead, hs]
    cases d with
    | server => exact ⟨_, c, Exits.bind_error (hread c.request), ⟨rfl, rfl, rfl, rfl⟩⟩
    | client junk =>
      refine ⟨.fault (.sock f), { c with request := junk n }, ?_, ⟨rfl, rfl, rfl, rfl⟩⟩
      rw [round, nbdcliProcess, Exits.modify_bind]
      exact Exits.bind_error (hread (junk n))
  | ok q =>
    have hout := (sockRead_spec hs).1.output
    cases hres : q.result with
    | ok k => exact absurd ⟨q, k, hs, hres⟩ h
    | error e =>
      have hread := fun request => readRequest_eq (l := l) (c := { c with request }) hs
      rw [hres] at hread
      cases d with
      | server =>
        exact ⟨.fail, _, Exits.bind_ok (hread c.request), ⟨hout, rfl, rfl, rfl⟩⟩
      | client junk =>
        rw [round, nbdcliProcess, Exits.modify_bind, Exits.bind_ok (hread (junk n))]
        cases e with
        | eagain => exact ⟨.idle, _, rfl, ⟨hout, rfl, rfl, rfl⟩⟩
        | other => exact ⟨.fail, _, rfl, ⟨hout, rfl, rfl, rfl⟩⟩

/-- A round that returns has received its request. -/
theorem round_ok_gives (hrun : l.round fuel d n c = .ok () c') : Gives l.net c.sock := by
  by_contra h
  obtain ⟨e, c₁, hround, -⟩ := round_left d n fuel h
  rw [hround] at hrun
  cases hrun

/-- A round reads a request and acts, or leaves. -/
theorem round_exits {Q : Unit → Conn → Prop} {E : Exit → Conn → Prop}
    (hact : ∀ k c', Took (d.enter n c) k c' → Exits (l.act fuel k) c' Q E)
    (hleft : ∀ e c', Idled c c' → E e c') : Exits (l.round fuel d n) c Q E := by
  by_cases hgives : Gives l.net c.sock
  · obtain ⟨k, c', htook, hround⟩ := round_gives d n fuel hgives
    exact Exits.of_eq hround (hact k c' htook)
  · obtain ⟨e, c', hround, hidle⟩ := round_left d n fuel hgives
    exact Exits.of_error hround (hleft e c' hidle)

/-- Where the input starts with a request, it is the one that is acted on. -/
theorem round_holds {r : NbdRequest} {rest : List UInt8} {k : Nat}
    (hin : c.sock.input = r.encode ++ rest) (htook : Took (d.enter n c) k c') : c'.Holds r :=
  holds_of_input (by rwa [d.enter_sock]) htook

end Link

end Vdf
