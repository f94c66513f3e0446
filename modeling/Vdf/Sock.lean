import Vdf.Lib.BigEndian

/-!
# Sockets

`vdf_sock.c` over a connection: the bytes of the peer that were not received yet, behind which
`recv` returns 0, and the bytes that `send` accepted. How much one call transfers is up to the
environment (`Net`).

Both loops offer the full `cnt` to every call. A call that takes more than what is left runs behind
the end of the caller's buffer (`SockFault`); what lies there is no part of the model.
-/

namespace Vdf

inductive SockError where
  | eagain
  | other
  deriving DecidableEq, Repr

/-- What the calls of `recv` and `send` answer, by their number: -1 with `errno`, or a limit on the
bytes of the call. `recv` returns a byte at least while there is one. -/
structure Net where
  recv : Nat → Except SockError Nat
  send : Nat → Except SockError Nat

/-- Every call transfers all that it is offered. -/
def Net.whole : Net := { recv := fun _ => .ok (2 ^ 32), send := fun _ => .ok (2 ^ 32) }

/-- A connection, and the number of calls so far. -/
structure Sock where
  input : List UInt8
  output : List UInt8 := []
  recvs : Nat := 0
  sends : Nat := 0

/-- What C leaves undefined. -/
inductive SockFault where
  /-- `recv` writes behind the end of the buffer. -/
  | overrun
  /-- `send` reads behind the end of the buffer. -/
  | overread
  deriving DecidableEq, Repr

/-- `recv`. -/
def Sock.recv (net : Net) (cnt : Nat) (s : Sock) : Except SockError (List UInt8) × Sock :=
  match net.recv s.recvs with
  | .error e => (.error e, { s with recvs := s.recvs + 1 })
  | .ok k => (.ok (s.input.take (min cnt (k + 1))),
      { s with recvs := s.recvs + 1, input := s.input.drop (min cnt (k + 1)) })

/-- What `sock_read` returns, what it stored at `buff`, and the connection. -/
structure Received where
  result : Except SockError Nat
  bytes : List UInt8
  sock : Sock

/-- The loop of `sock_read`. The buffer has room for `cap` bytes, of which `bytes` are stored. -/
def sockReadLoop (net : Net) (cap cnt : Nat) : Nat → List UInt8 → Sock → Except SockFault Received
  | 0, bytes, s => .ok ⟨.ok bytes.length, bytes, s⟩
  | fuel + 1, bytes, s =>
    if cnt ≤ bytes.length then .ok ⟨.ok bytes.length, bytes, s⟩
    else
      match s.recv net cnt with
      | (.error e, s) => .ok ⟨.error e, bytes, s⟩
      | (.ok l, s) =>
        if l = [] then .ok ⟨.ok bytes.length, bytes, s⟩
        else if cap < bytes.length + l.length then .error .overrun
        else sockReadLoop net cap cnt fuel (bytes ++ l) s

/-- `sock_read`. Every round but the last stores a byte, so that `cnt` rounds are enough. -/
def sockRead (net : Net) (cap cnt : Nat) (s : Sock) : Except SockFault Received :=
  sockReadLoop net cap cnt cnt [] s

/-- The loop of `sock_write`, of which `total` bytes are sent. The result says whether -1 is not
returned. -/
def sockWriteLoop (net : Net) (bytes : List UInt8) :
    Nat → Nat → Sock → Except SockFault (Bool × Sock)
  | 0, _, s => .ok (true, s)
  | fuel + 1, total, s =>
    if bytes.length ≤ total then .ok (true, s)
    else
      match net.send s.sends with
      | .error _ => .ok (false, { s with sends := s.sends + 1 })
      | .ok k =>
        let wrote := min k bytes.length
        if wrote = 0 then .ok (false, { s with sends := s.sends + 1 })
        else if bytes.length < total + wrote then .error .overread
        else sockWriteLoop net bytes fuel (total + wrote)
          { s with sends := s.sends + 1, output := s.output ++ (bytes.drop total).take wrote }

/-- `sock_write`. -/
def sockWrite (net : Net) (bytes : List UInt8) (s : Sock) : Except SockFault (Bool × Sock) :=
  sockWriteLoop net bytes bytes.length 0 s

/-! ## `sock_read` -/

section Read

variable {net : Net} {cap cnt : Nat} {s : Sock} {r : Received}

/-- What was received is the front of what the peer sent. -/
structure Reads (s : Sock) (bytes : List UInt8) (s' : Sock) : Prop where
  bytes : bytes ++ s'.input = s.input
  output : s'.output = s.output
  sends : s'.sends = s.sends

theorem Reads.recv {bytes l : List UInt8} {s s' s'' : Sock} (h : Reads s bytes s')
    (hr : s'.recv net cnt = (.ok l, s'')) : Reads s (bytes ++ l) s'' := by
  unfold Sock.recv at hr
  split at hr
  · cases hr
  · cases hr
    exact ⟨by rw [List.append_assoc, List.take_append_drop, h.bytes], h.output, h.sends⟩

theorem Reads.recv_error {bytes : List UInt8} {e : SockError} {s s' s'' : Sock}
    (h : Reads s bytes s') (hr : s'.recv net cnt = (.error e, s'')) : Reads s bytes s'' := by
  unfold Sock.recv at hr
  split at hr
  · cases hr
    exact ⟨h.bytes, h.output, h.sends⟩
  · cases hr

/-- `recv` returns nothing at the end only. -/
theorem Sock.recv_nil {s' : Sock} (hcnt : cnt ≠ 0) (hr : s.recv net cnt = (.ok [], s')) :
    s.input = [] := by
  unfold Sock.recv at hr
  split at hr
  · cases hr
  · rename_i k hk
    have h := congrArg (fun q => q.1.toOption.map List.length) hr
    simp [Except.toOption] at h
    rcases h with h | h
    · omega
    · exact h

/-- What `sock_read` returns: the bytes that it stored, which are too few only at the end. -/
theorem sockReadLoop_spec {fuel : Nat} {bytes : List UInt8} {s₀ : Sock} (hs : Reads s₀ bytes s)
    (hfuel : cnt ≤ bytes.length + fuel) (hcap : bytes.length ≤ cap)
    (h : sockReadLoop net cap cnt fuel bytes s = .ok r) :
    Reads s₀ r.bytes r.sock ∧ r.bytes.length ≤ cap ∧
      ∀ n, r.result = .ok n → n = r.bytes.length ∧ (cnt ≤ n ∨ r.sock.input = []) := by
  induction fuel generalizing bytes s with
  | zero =>
    cases h
    refine ⟨hs, hcap, fun n hn => ?_⟩
    cases hn
    exact ⟨rfl, .inl hfuel⟩
  | succ fuel ih =>
    rw [sockReadLoop] at h
    split at h
    · rename_i hle
      cases h
      refine ⟨hs, hcap, fun n hn => ?_⟩
      cases hn
      exact ⟨rfl, .inl hle⟩
    · rename_i hle
      cases hr : s.recv net cnt with
      | mk a s' =>
        rw [hr] at h
        cases a with
        | error e =>
          cases h
          exact ⟨hs.recv_error hr, hcap, fun n hn => nomatch hn⟩
        | ok l =>
          dsimp only at h
          split at h
          · rename_i hl
            cases h
            have hs' := hs.recv hr
            rw [hl, List.append_nil] at hs'
            refine ⟨hs', hcap, fun n hn => ?_⟩
            cases hn
            subst hl
            have hin := Sock.recv_nil (by omega) hr
            have hout := hs.bytes.trans hs'.bytes.symm
            rw [hin] at hout
            exact ⟨rfl, .inr (List.append_cancel_left hout).symm⟩
          · rename_i hl
            split at h
            · cases h
            · have hpos := List.length_pos_iff.2 hl
              refine ih (hs.recv hr) ?_ ?_ h <;>
                simp only [List.length_append] <;> omega

theorem sockRead_spec (h : sockRead net cap cnt s = .ok r) :
    Reads s r.bytes r.sock ∧ r.bytes.length ≤ cap ∧
      ∀ n, r.result = .ok n → n = r.bytes.length ∧ (cnt ≤ n ∨ r.sock.input = []) :=
  sockReadLoop_spec ⟨rfl, rfl, rfl⟩ (by simp) (Nat.zero_le _) h

/-- A buffer of `cnt` bytes: it gets the front of the input, as far as there is input. -/
theorem sockRead_exact {n : Nat} (h : sockRead net cnt cnt s = .ok r) (hn : r.result = .ok n) :
    n = min cnt s.input.length ∧ r.bytes = s.input.take cnt ∧ r.sock.input = s.input.drop cnt := by
  obtain ⟨hr, hcap, hres⟩ := sockRead_spec h
  obtain ⟨rfl, hend⟩ := hres n hn
  have hlen : r.bytes.length + r.sock.input.length = s.input.length := by
    rw [← hr.bytes, List.length_append]
  rw [← hr.bytes]
  rcases hend with hle | hnil
  · have hcnt : r.bytes.length = cnt := by omega
    refine ⟨by rw [hr.bytes]; omega, ?_, ?_⟩
    · rw [← hcnt, List.take_left']
      rfl
    · rw [← hcnt, List.drop_left']
      rfl
  · rw [hnil, List.append_nil]
    refine ⟨by omega, (List.take_of_length_le hcap).symm, ?_⟩
    exact (List.drop_eq_nil_of_le hcap).symm

/-- Without an error of `recv` there is none of `sock_read`. -/
theorem sockReadLoop_ok {fuel : Nat} {bytes : List UInt8}
    (hnet : ∀ i, ∃ k, net.recv i = .ok k) (h : sockReadLoop net cap cnt fuel bytes s = .ok r) :
    ∃ n, r.result = .ok n := by
  induction fuel generalizing bytes s with
  | zero => cases h; exact ⟨_, rfl⟩
  | succ fuel ih =>
    rw [sockReadLoop] at h
    split at h
    · cases h; exact ⟨_, rfl⟩
    · obtain ⟨k, hk⟩ := hnet s.recvs
      simp only [Sock.recv, hk] at h
      split at h
      · cases h; exact ⟨_, rfl⟩
      · split at h
        · cases h
        · exact ih h

/-- The one thing that goes wrong. -/
theorem sockReadLoop_error {fuel : Nat} {bytes : List UInt8} {f : SockFault}
    (h : sockReadLoop net cap cnt fuel bytes s = .error f) : f = .overrun := by
  induction fuel generalizing bytes s with
  | zero => cases h
  | succ fuel ih =>
    rw [sockReadLoop] at h
    split at h
    · cases h
    · split at h
      · cases h
      · split at h
        · cases h
        · split at h
          · cases h; rfl
          · exact ih h

/-- Where there is room for all that is left, nothing does. -/
theorem sockReadLoop_fits {fuel : Nat} {bytes : List UInt8}
    (h : bytes.length + s.input.length ≤ cap) :
    ∃ r, sockReadLoop net cap cnt fuel bytes s = .ok r := by
  induction fuel generalizing bytes s with
  | zero => exact ⟨_, rfl⟩
  | succ fuel ih =>
    rw [sockReadLoop]
    split
    · exact ⟨_, rfl⟩
    · cases hr : s.recv net cnt with
      | mk a s' =>
        cases a with
        | error e => exact ⟨_, rfl⟩
        | ok l =>
          have hstart : Reads s [] s := ⟨rfl, rfl, rfl⟩
          have hl := (hstart.recv hr).bytes
          rw [List.nil_append] at hl
          have hlen := congrArg List.length hl
          rw [List.length_append] at hlen
          dsimp only
          split
          · exact ⟨_, rfl⟩
          · rw [if_neg (by omega)]
            refine ih ?_
            rw [List.length_append]
            omega

/-- A buffer that is full takes no further byte. -/
theorem sockReadLoop_full {bytes : List UInt8} {fuel : Nat} (h : cnt ≤ bytes.length) :
    sockReadLoop net cap cnt fuel bytes s = .ok ⟨.ok bytes.length, bytes, s⟩ := by
  cases fuel with
  | zero => rfl
  | succ fuel => rw [sockReadLoop, if_pos h]

/-- One call of `recv` can be enough. -/
theorem sockRead_whole {k : Nat} (hk : net.recv s.recvs = .ok k) (hle : cnt ≤ k + 1)
    (hlen : cnt ≤ s.input.length) (hcap : cnt ≤ cap) : ∃ r, sockRead net cap cnt s = .ok r ∧
      r.result = .ok cnt := by
  unfold sockRead
  cases cnt with
  | zero => exact ⟨_, rfl, rfl⟩
  | succ fuel =>
    have htake : (s.input.take (min (fuel + 1) (k + 1))).length = fuel + 1 := by
      rw [List.length_take]
      omega
    have hne : s.input.take (min (fuel + 1) (k + 1)) ≠ [] := by
      intro e
      rw [e] at htake
      cases htake
    rw [sockReadLoop, if_neg (by simp)]
    simp only [Sock.recv, hk, hne, ↓reduceIte, List.length_nil, htake, List.nil_append]
    rw [if_neg (by omega), sockReadLoop_full (by omega)]
    exact ⟨_, rfl, by rw [htake]⟩

end Read

/-! ## `sock_write` -/

/-- The bytes that call `t` of `send` takes of `len`. -/
def Net.wrote (net : Net) (len t : Nat) : Nat :=
  match net.send t with
  | .ok k => min k len
  | .error _ => 0

/-- The bytes that `k` calls from `t` on take. -/
def Net.taken (net : Net) (len : Nat) : Nat → Nat → Nat
  | _, 0 => 0
  | t, k + 1 => net.wrote len t + net.taken len (t + 1) k

/-- `k` calls of `send` from `t` on, each offered `len` bytes, take `len` bytes together. -/
def Net.Takes (net : Net) (len t k : Nat) : Prop :=
  (∀ i < k, 0 < net.wrote len (t + i)) ∧ net.taken len t k = len

/-- So it is for one write after the other. -/
def Net.TakesAll (net : Net) : List Nat → Nat → Prop
  | [], _ => True
  | len :: lens, t => ∃ k, net.Takes len t k ∧ net.TakesAll lens (t + k)

section Write

variable {net : Net} {bytes : List UInt8} {s s' : Sock}

/-- The connection behind a write that went well. -/
def Sock.wrote (s : Sock) (bytes : List UInt8) (k : Nat) : Sock :=
  { s with sends := s.sends + k, output := s.output ++ bytes }

theorem Net.taken_pos {len t k : Nat} (h : ∀ i < k, 0 < net.wrote len (t + i)) (hk : k ≠ 0) :
    0 < net.taken len t k := by
  cases k with
  | zero => exact absurd rfl hk
  | succ k =>
    have h0 := h 0 (by omega)
    rw [Net.taken]
    simp only [Nat.add_zero] at h0
    omega

/-- A write that is done takes no further call. -/
theorem taken_done_iff {total : Nat} (htotal : total = bytes.length) :
    (∃ k, (∀ i < k, 0 < net.wrote bytes.length (s.sends + i)) ∧
      total + net.taken bytes.length s.sends k = bytes.length ∧
      s' = s.wrote (bytes.drop total) k) ↔ s' = s := by
  have hdrop : bytes.drop total = [] := List.drop_eq_nil_of_le (by omega)
  constructor
  · rintro ⟨k, hpos, hsum, rfl⟩
    have hk : k = 0 := by
      by_contra hk
      have := Net.taken_pos hpos hk
      omega
    rw [hk, hdrop]
    simp [Sock.wrote]
  · rintro rfl
    exact ⟨0, fun i hi => absurd hi (Nat.not_lt_zero i), by simp [Net.taken, htotal],
      by simp [Sock.wrote, hdrop]⟩

/-- The first call, and the others. -/
theorem taken_succ_iff {total : Nat} (hlt : total < bytes.length) :
    (∃ k, (∀ i < k, 0 < net.wrote bytes.length (s.sends + i)) ∧
      total + net.taken bytes.length s.sends k = bytes.length ∧
      s' = s.wrote (bytes.drop total) k) ↔
    0 < net.wrote bytes.length s.sends ∧ ∃ k,
      (∀ i < k, 0 < net.wrote bytes.length (s.sends + 1 + i)) ∧
      total + net.wrote bytes.length s.sends + net.taken bytes.length (s.sends + 1) k =
        bytes.length ∧ s' = s.wrote (bytes.drop total) (k + 1) := by
  constructor
  · rintro ⟨k, hpos, hsum, rfl⟩
    cases k with
    | zero =>
      rw [Net.taken] at hsum
      omega
    | succ k =>
      refine ⟨by simpa using hpos 0 (by omega), k, fun i hi => ?_, ?_, rfl⟩
      · have := hpos (i + 1) (by omega)
        rwa [show s.sends + (i + 1) = s.sends + 1 + i by omega] at this
      · rw [Net.taken] at hsum
        omega
  · rintro ⟨h0, k, hpos, hsum, rfl⟩
    refine ⟨k + 1, fun i hi => ?_, ?_, rfl⟩
    · cases i with
      | zero => simpa using h0
      | succ i =>
        have := hpos i (by omega)
        rwa [show s.sends + 1 + i = s.sends + (i + 1) by omega] at this
    · rw [Net.taken]
      omega

/-- One call that takes `n` bytes, and the rest of the write. -/
theorem Sock.wrote_succ (s : Sock) (bytes : List UInt8) (total n j : Nat) :
    Sock.wrote { s with sends := s.sends + 1, output := s.output ++ (bytes.drop total).take n }
      (bytes.drop (total + n)) j = s.wrote (bytes.drop total) (j + 1) := by
  have hdrop : (bytes.drop total).take n ++ bytes.drop (total + n) = bytes.drop total := by
    rw [← List.drop_drop, List.take_append_drop]
  simp only [Sock.wrote, List.append_assoc, hdrop]
  congr 1
  omega

theorem sockWriteLoop_iff {fuel total : Nat} (hfuel : bytes.length ≤ total + fuel)
    (htotal : total ≤ bytes.length) :
    sockWriteLoop net bytes fuel total s = .ok (true, s') ↔
      ∃ k, (∀ i < k, 0 < net.wrote bytes.length (s.sends + i)) ∧
        total + net.taken bytes.length s.sends k = bytes.length ∧
        s' = s.wrote (bytes.drop total) k := by
  induction fuel generalizing total s with
  | zero =>
    rw [taken_done_iff (by omega), sockWriteLoop]
    simp [eq_comm]
  | succ fuel ih =>
    rw [sockWriteLoop]
    split
    · rw [taken_done_iff (by omega)]
      simp [eq_comm]
    · rename_i hlt
      rw [taken_succ_iff (by omega)]
      split
      · rename_i e he
        simp [Net.wrote, he]
      · rename_i k hk
        have hw : net.wrote bytes.length s.sends = min k bytes.length := by simp [Net.wrote, hk]
        rw [hw]
        dsimp only
        split_ifs with hzero hover
        · simp [hzero]
        · constructor
          · exact nofun
          · rintro ⟨-, j, -, hsum, -⟩
            omega
        · rw [ih (by omega) (by omega)]
          constructor
          · rintro ⟨j, hpos, hsum, rfl⟩
            exact ⟨by omega, j, hpos, hsum, s.wrote_succ bytes total _ j⟩
          · rintro ⟨-, j, hpos, hsum, rfl⟩
            exact ⟨j, hpos, hsum, (s.wrote_succ bytes total _ j).symm⟩

/-- `sock_write` goes well exactly where the counts that `send` returns add up. -/
theorem sockWrite_iff : sockWrite net bytes s = .ok (true, s') ↔
    ∃ k, net.Takes bytes.length s.sends k ∧ s' = s.wrote bytes k := by
  rw [sockWrite, sockWriteLoop_iff (by omega) (Nat.zero_le _)]
  simp only [Net.Takes, Nat.zero_add, List.drop_zero, and_assoc]

/-- One call of `send` can be enough. -/
theorem Net.takes_whole {len t k : Nat} (hk : net.send t = .ok k) (hle : len ≤ k) (hpos : 0 < len) :
    net.Takes len t 1 := by
  have hw : net.wrote len t = len := by
    simp only [Net.wrote, hk]
    omega
  refine ⟨fun i hi => ?_, by simp [Net.taken, hw]⟩
  obtain rfl : i = 0 := by omega
  rwa [Nat.add_zero, hw]

/-- The one thing that goes wrong. -/
theorem sockWriteLoop_error {fuel total : Nat} {f : SockFault}
    (h : sockWriteLoop net bytes fuel total s = .error f) : f = .overread := by
  induction fuel generalizing total s with
  | zero => cases h
  | succ fuel ih =>
    rw [sockWriteLoop] at h
    split at h
    · cases h
    · split at h
      · cases h
      · dsimp only at h
        split_ifs at h
        · cases h; rfl
        · exact ih h

/-- `sock_write` leaves what was received alone. -/
theorem sockWriteLoop_input {fuel total : Nat} {b : Bool}
    (h : sockWriteLoop net bytes fuel total s = .ok (b, s')) :
    s'.input = s.input ∧ s'.recvs = s.recvs := by
  induction fuel generalizing total s with
  | zero => cases h; exact ⟨rfl, rfl⟩
  | succ fuel ih =>
    rw [sockWriteLoop] at h
    split at h
    · cases h; exact ⟨rfl, rfl⟩
    · split at h
      · cases h; exact ⟨rfl, rfl⟩
      · dsimp only at h
        split_ifs at h
        · cases h; exact ⟨rfl, rfl⟩
        · have hrest := ih h
          exact hrest

end Write

/-! ## Partial transfers -/

/-- The bytes that call `t` of `recv` takes, offered `cnt`, of a stream of `avail` bytes. -/
def Net.got (net : Net) (cnt avail t : Nat) : Nat :=
  match net.recv t with
  | .ok k => min (min cnt (k + 1)) avail
  | .error _ => 0

/-- The bytes that `k` calls from `t` on take. -/
def Net.gotten (net : Net) (cnt : Nat) : Nat → Nat → Nat → Nat
  | _, _, 0 => 0
  | avail, t, k + 1 =>
    net.got cnt avail t + net.gotten cnt (avail - net.got cnt avail t) (t + 1) k

/-- `sock_write` hands over the bytes of the buffer in order, each once, and reads no other. -/
def WritesExactly (net : Net) (bytes : List UInt8) (s : Sock) : Prop :=
  ∃ s', sockWrite net bytes s = .ok (true, s') ∧ s'.output = s.output ++ bytes

/-- `sock_read` stores the next `cnt` bytes of the stream in a buffer of `cnt`, and leaves the rest
of the stream. -/
def ReadsExactly (net : Net) (cnt : Nat) (s : Sock) : Prop :=
  ∃ r, sockRead net cnt cnt s = .ok r ∧ r.result = .ok cnt ∧
    r.bytes = s.input.take cnt ∧ r.sock.input = s.input.drop cnt

section Partial

variable {net : Net} {bytes : List UInt8} {cnt : Nat} {s : Sock}

theorem writesExactly_iff (hsend : ∀ i, ∃ k, net.send i = .ok (k + 1)) :
    WritesExactly net bytes s ↔ ∃ k, net.taken bytes.length s.sends k = bytes.length := by
  constructor
  · rintro ⟨s', hs', -⟩
    obtain ⟨k, htakes, -⟩ := sockWrite_iff.1 hs'
    exact ⟨k, htakes.2⟩
  · rintro ⟨k, hk⟩
    -- with nothing to write no call is needed, and each call of another write takes a byte
    rcases Nat.eq_zero_or_pos bytes.length with hzero | hpos
    · refine ⟨s.wrote bytes 0,
        sockWrite_iff.2 ⟨0, ⟨fun i hi => absurd hi (by omega), ?_⟩, rfl⟩, rfl⟩
      rw [hzero]
      rfl
    · refine ⟨s.wrote bytes k, sockWrite_iff.2 ⟨k, ⟨fun i _ => ?_, hk⟩, rfl⟩, rfl⟩
      obtain ⟨n, hn⟩ := hsend (s.sends + i)
      simp only [Net.wrote, hn]
      omega

/-- The first call, and the others. -/
theorem gotten_succ_iff {n avail t : Nat} (hlt : n < cnt) :
    (∃ k, n + net.gotten cnt avail t k = cnt) ↔
      ∃ k, n + net.got cnt avail t +
        net.gotten cnt (avail - net.got cnt avail t) (t + 1) k = cnt := by
  constructor
  · rintro ⟨k, hk⟩
    cases k with
    | zero =>
      rw [Net.gotten] at hk
      omega
    | succ k =>
      rw [Net.gotten, ← Nat.add_assoc] at hk
      exact ⟨k, hk⟩
  · rintro ⟨k, hk⟩
    exact ⟨k + 1, by rwa [Net.gotten, ← Nat.add_assoc]⟩

/-- The loop of `sock_read` stays in its buffer exactly where the counts of `recv` add up. -/
theorem sockReadLoop_iff {fuel : Nat} (hrecv : ∀ i, ∃ k, net.recv i = .ok k)
    (hfuel : cnt ≤ bytes.length + fuel) (hle : bytes.length ≤ cnt)
    (hin : cnt ≤ bytes.length + s.input.length) :
    (∃ r, sockReadLoop net cnt cnt fuel bytes s = .ok r) ↔
      ∃ k, bytes.length + net.gotten cnt s.input.length s.recvs k = cnt := by
  induction fuel generalizing bytes s with
  | zero =>
    rw [sockReadLoop_full (by omega)]
    exact ⟨fun _ => ⟨0, by rw [Net.gotten]; omega⟩, fun _ => ⟨_, rfl⟩⟩
  | succ fuel ih =>
    by_cases hfull : cnt ≤ bytes.length
    · rw [sockReadLoop_full hfull]
      exact ⟨fun _ => ⟨0, by rw [Net.gotten]; omega⟩, fun _ => ⟨_, rfl⟩⟩
    · obtain ⟨n, hn⟩ := hrecv s.recvs
      have hgot : net.got cnt s.input.length s.recvs = min (min cnt (n + 1)) s.input.length := by
        simp only [Net.got, hn]
      have hlen : (s.input.take (min cnt (n + 1))).length =
          net.got cnt s.input.length s.recvs := by
        rw [List.length_take, hgot]
      have hne : s.input.take (min cnt (n + 1)) ≠ [] := by
        rw [← List.length_pos_iff, hlen, hgot]
        omega
      rw [sockReadLoop, if_neg hfull]
      simp only [Sock.recv, hn, hne, ↓reduceIte, hlen]
      rw [gotten_succ_iff (by omega)]
      by_cases hover : cnt < bytes.length + net.got cnt s.input.length s.recvs
      · rw [if_pos hover]
        constructor
        · rintro ⟨r, hr⟩
          cases hr
        · rintro ⟨k, hk⟩
          omega
      · rw [if_neg hover]
        have hrest : (s.input.drop (min cnt (n + 1))).length =
            s.input.length - net.got cnt s.input.length s.recvs := by
          rw [List.length_drop, hgot]
          omega
        rw [ih (by rw [List.length_append, hlen, hgot]; omega)
          (by rw [List.length_append, hlen]; omega)
          (by rw [List.length_append, hlen, hrest]; omega), List.length_append, hlen, hrest]

theorem readsExactly_iff (hrecv : ∀ i, ∃ k, net.recv i = .ok k) (hin : cnt ≤ s.input.length) :
    ReadsExactly net cnt s ↔ ∃ k, net.gotten cnt s.input.length s.recvs k = cnt := by
  have hiff : (∃ r, sockReadLoop net cnt cnt cnt [] s = .ok r) ↔
      ∃ k, net.gotten cnt s.input.length s.recvs k = cnt := by
    rw [sockReadLoop_iff hrecv (Nat.le_add_left ..) (Nat.zero_le _) (by simpa using hin)]
    simp only [List.length_nil, Nat.zero_add]
  rw [← hiff]
  constructor
  · rintro ⟨r, hr, -⟩
    exact ⟨r, hr⟩
  · rintro ⟨r, hr⟩
    obtain ⟨n, hn⟩ := sockReadLoop_ok hrecv hr
    obtain ⟨hmin, hbytes, hinput⟩ := sockRead_exact hr hn
    rw [Nat.min_eq_left hin] at hmin
    exact ⟨r, hr, hmin ▸ hn, hbytes, hinput⟩

/-- Whatever `send` and `recv` return, a transfer is exact exactly where the first few counts add up
to what was asked for. -/
theorem sock_exact_iff (hsend : ∀ i, ∃ k, net.send i = .ok (k + 1))
    (hrecv : ∀ i, ∃ k, net.recv i = .ok k) (hin : cnt ≤ s.input.length) :
    (WritesExactly net bytes s ↔ ∃ k, net.taken bytes.length s.sends k = bytes.length) ∧
      (ReadsExactly net cnt s ↔ ∃ k, net.gotten cnt s.input.length s.recvs k = cnt) :=
  ⟨writesExactly_iff hsend, readsExactly_iff hrecv hin⟩

end Partial

/-- Two bytes in every call. -/
def Net.pairs : Net := { recv := fun _ => .ok 1, send := fun _ => .ok 2 }

/-- Four bytes in two halves. -/
theorem sock_exact_pairs :
    WritesExactly Net.pairs [1, 2, 3, 4] { input := [5, 6, 7, 8, 9] } ∧
      ReadsExactly Net.pairs 4 { input := [5, 6, 7, 8, 9] } :=
  have h : (_ ↔ _) ∧ (ReadsExactly Net.pairs 4 { input := [5, 6, 7, 8, 9] } ↔ _) :=
    sock_exact_iff (fun _ => ⟨1, rfl⟩) (fun _ => ⟨1, rfl⟩) (by decide)
  ⟨h.1.2 ⟨2, by decide⟩, h.2.2 ⟨2, by decide⟩⟩

/-- Three bytes: the second call is offered three again, and takes one of the next message. -/
theorem sock_exact_short :
    sockWrite Net.pairs [1, 2, 3] { input := [] } = .error .overread ∧
      ¬ WritesExactly Net.pairs [1, 2, 3] { input := [] } ∧
      ¬ ReadsExactly Net.pairs 3 { input := [5, 6, 7, 8, 9] } := by
  refine ⟨rfl, ?_, ?_⟩
  · rintro ⟨s', hs', -⟩
    cases hs'
  · rintro ⟨r, hr, -⟩
    cases hr

end Vdf
