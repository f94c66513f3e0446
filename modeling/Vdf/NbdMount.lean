import Vdf.Mount
import Vdf.NbdReplies

/-!
# A drive over NBD

What a peer gets to its requests from either driver: to a `NBD_CMD_READ` in the drive a reply
header and the range of the image, to one behind the end nothing, to the other commands a header
(`Answer`). The answers to a sequence of requests are in the order of the requests and nothing else
is sent, so that the peer can tell them apart by their lengths (`splitAnswers`). The image that it
puts together from its reads can be mounted (`nbd_drive_mounts`).
-/

namespace Vdf

open Word Buffer

/-! ## Answers -/

/-- The bytes of a range, where the image has them. -/
structure Carries (image : Nat → Option UInt8) (off len : Nat) (bytes : List UInt8) : Prop where
  length : bytes.length = len
  byte : ∀ j < len, ∀ b, image (off + j) = some b → bytes.getD j 0 = b

/-- The range of a request is one of 64 bits. -/
def NbdRequest.Fits (r : NbdRequest) : Prop := r.off.toNat + r.len.toNat < 2 ^ 64

/-- The answer of a drive of `size` bytes. -/
def Answer (size : Nat) (image : Nat → Option UInt8) (r : NbdRequest) (answer : List UInt8) :
    Prop :=
  match r.cmd with
  | .read =>
    if size < r.off.toNat + r.len.toNat then answer = []
    else ∃ payload, Carries image r.off.toNat r.len.toNat payload ∧
      answer = replyHeader (be 8 r.handle.toNat) ++ payload
  | .write | .flush | .trim => answer = replyHeader (be 8 r.handle.toNat)
  | .disc | .other => answer = []

/-- The length of an answer. -/
def answerLength (size : Nat) (r : NbdRequest) : Nat :=
  match r.cmd with
  | .read => if size < r.off.toNat + r.len.toNat then 0 else 16 + r.len.toNat
  | .write | .flush | .trim => 16
  | .disc | .other => 0

/-- The answers in a stream. -/
def splitAnswers (size : Nat) : List NbdMessage → List UInt8 → List (List UInt8)
  | [], _ => []
  | m :: ms, stream =>
    stream.take (answerLength size m.request) ::
      splitAnswers size ms (stream.drop (answerLength size m.request))

section Answers

variable {size : Nat} {image : Nat → Option UInt8}

theorem Carries.nil (off : Nat) : Carries image off 0 [] :=
  ⟨rfl, fun j hj => absurd hj (Nat.not_lt_zero j)⟩

theorem Carries.append {off n k : Nat} {a b : List UInt8} (ha : Carries image off n a)
    (hb : Carries image (off + n) k b) : Carries image off (n + k) (a ++ b) where
  length := by rw [List.length_append, ha.length, hb.length]
  byte j hj v hv := by
    rw [List.getD_eq_getElem?_getD]
    by_cases hlt : j < n
    · rw [List.getElem?_append_left (by rwa [ha.length]), ← List.getD_eq_getElem?_getD]
      exact ha.byte j hlt v hv
    · rw [List.getElem?_append_right (by rw [ha.length]; omega), ha.length,
        ← List.getD_eq_getElem?_getD]
      exact hb.byte (j - n) (by omega) v (by rwa [Nat.add_assoc, Nat.add_sub_cancel' (by omega)])

/-- What a buffer shows is carried by its slice. -/
theorem Carries.slice {m : Buffer} {off n : Nat} (h : m.Shows 0 n fun j => image (off + j)) :
    Carries image off n (m.slice 0 n) where
  length := length_slice ..
  byte j hj b hb := by
    rw [List.getD_eq_getElem _ _ (by rwa [length_slice]), getElem_slice]
    exact h j hj b hb

theorem Answer.length {r : NbdRequest} {answer : List UInt8} (h : Answer size image r answer) :
    answer.length = answerLength size r := by
  have hheader : (replyHeader (be 8 r.handle.toNat)).length = 16 := by simp [length_replyHeader]
  rw [Answer] at h
  rw [answerLength]
  cases hcmd : r.cmd with
  | read =>
    rw [hcmd] at h
    dsimp only at h ⊢
    split
    · rename_i hlt
      rw [if_pos hlt] at h
      rw [h, List.length_nil]
    · rename_i hlt
      rw [if_neg hlt] at h
      obtain ⟨payload, hcarries, rfl⟩ := h
      rw [List.length_append, hheader, hcarries.length]
  | write | flush | trim =>
    rw [hcmd] at h
    dsimp only at h ⊢
    rw [h, hheader]
  | disc | other =>
    rw [hcmd] at h
    dsimp only at h ⊢
    rw [h, List.length_nil]

/-- A peer that knows the size of the drive tells the answers apart. -/
theorem splitAnswers_flatten {ms : List NbdMessage} {answers : List (List UInt8)}
    (h : List.Forall₂ (fun m a => Answer size image m.request a) ms answers) :
    splitAnswers size ms answers.flatten = answers := by
  induction h with
  | nil => rfl
  | cons h _ ih =>
    rw [splitAnswers, List.flatten_cons, ← h.length, List.take_left, List.drop_left, ih]

end Answers

/-! ## Runs -/

/-- The reader of the drive shows an image of its bytes. -/
structure Exports (l : Link) (image : Nat → Option UInt8) (E : Fault → Prop) : Prop where
  created : l.drive.toGeometry.Created
  valid : l.drive.isValid = true
  showing : Showing l.read image l.drive.bps (l.drive.bytes / l.drive.bps) E

/-- The bytes of a drive are whole sectors. -/
theorem Geometry.Created.whole {g : Geometry} (h : g.Created) :
    g.bytes / g.bps = u32 (g.sectors + g.mbrSectors) ∧ g.bytes / g.bps * g.bps = g.bytes := by
  have hbps := sectorSizes_le h.bps
  have hbytes : g.bytes = u32 (g.sectors + g.mbrSectors) * g.bps := by
    obtain ⟨size, flags, ext, junk, hc⟩ := h
    obtain ⟨plan, -, -, -, e⟩ := createdriveGeometry_cases hc
    exact congrArg Geometry.bytes e
  rw [hbytes, Nat.mul_div_cancel _ (by omega)]
  exact ⟨rfl, rfl⟩

/-- Where their number is one of 32 bits, all of them. -/
theorem Geometry.Created.bytes_allSectors {d : VdfDrive} (h : d.toGeometry.Created)
    (hall : d.sectors + d.mbrSectors < 2 ^ 32) : d.bytes = d.allSectors * d.bps := by
  rw [← h.whole.2, h.whole.1, u32_of_lt hall, VdfDrive.allSectors]

namespace Exports

variable {l : Link} {c c' : Conn} {image : Nat → Option UInt8} {E : Fault → Prop}
  (h : Exports l image E)

include h

/-- A chunk is shown in the buffer. -/
theorem readBytes (c : Conn) (off n : Nat) (hrange : off + n ≤ l.drive.bytes)
    (hn : n ≤ l.drive.bpc) :
    Ends (vdfReadBytes l.read l.drive l.stack off n c.buff 0)
      (fun r => r.1 = n ∧ r.2.Shows 0 n fun j => image (off + j)) E := by
  obtain ⟨k, -, -, hk⟩ := sectorSizes_pow h.created.bps
  obtain ⟨hsectors, hwhole⟩ := h.created.whole
  have hbpc := h.created.bpc.2
  have hlt : l.drive.bytes / l.drive.bps < 2 ^ 32 := by
    rw [hsectors]
    exact u32_lt _
  refine vdfReadBytes_showing h.showing hlt (by rwa [hwhole]) h.valid rfl hk ?_ l.stack c.buff
  exact Nat.lt_of_le_of_lt (Nat.div_le_self ..) (by omega)

/-- The range is sent as it is in the image. -/
theorem sendLoop {fuel off len : Nat} (hrange : off + len ≤ l.drive.bytes)
    (hrun : l.sendLoop fuel off len c = .ok () c') :
    ∃ payload, Carries image off len payload ∧ c'.sock.output = c.sock.output ++ payload := by
  have hbytes := h.created.bytes
  induction fuel generalizing off len c with
  | zero =>
    rw [Link.sendLoop] at hrun
    split at hrun
    · rename_i hlen
      cases hrun
      exact ⟨[], hlen ▸ Carries.nil off, (List.append_nil _).symm⟩
    · cases hrun
  | succ fuel ih =>
    by_cases hlen : len = 0
    · rw [Link.sendLoop, if_pos hlen] at hrun
      cases hrun
      exact ⟨[], hlen ▸ Carries.nil off, (List.append_nil _).symm⟩
    · obtain ⟨n, hn⟩ : ∃ n, n = min len l.drive.bpc := ⟨_, rfl⟩
      rw [Link.sendLoop, if_neg hlen, ← hn, Exits.bind_eq_ok] at hrun
      obtain ⟨_, c₁, hread, hrun⟩ := hrun
      rw [Exits.get_bind, Exits.bind_eq_ok] at hrun
      obtain ⟨_, c₂, hwrite, hrun⟩ := hrun
      obtain ⟨k, -, rfl⟩ := Link.sockWrite_iff.mp hwrite
      -- The chunk that was read is what is written.
      have hchunk : c₁.sock = c.sock ∧ c₁.buff.Shows 0 n fun j => image (off + j) := by
        have hshown := h.readBytes c off n (by omega) (by omega)
        unfold Link.readBytes at hread
        dsimp only at hread
        cases hres : vdfReadBytes l.read l.drive l.stack off n c.buff 0 with
        | error f =>
          rw [hres] at hread
          cases hread
        | ok r =>
          rw [hres] at hread hshown
          dsimp only at hread
          split at hread
          · cases hread
          · cases hread
            exact ⟨rfl, hshown.2⟩
      have hoff : u64 (off + n) = off + n := by rw [u64, Nat.mod_eq_of_lt (by omega)]
      rw [hoff] at hrun
      obtain ⟨payload, hcarries, hout⟩ := ih (by omega) hrun
      refine ⟨c₁.buff.slice 0 n ++ payload, ?_, ?_⟩
      · have happ := (Carries.slice hchunk.2).append hcarries
        rwa [(by omega : n + (len - n) = len)] at happ
      · rw [hout, ← List.append_assoc, ← hchunk.1]
        rfl

/-- A request that was received is answered. -/
theorem act {r : NbdRequest} {fuel k : Nat} (hr : c.Holds r) (hfits : r.cmd = .read → r.Fits)
    (hrun : l.act fuel k c = .ok () c') :
    ∃ answer, Answer l.drive.bytes image r answer ∧
      c'.sock.output = c.sock.output ++ answer := by
  obtain ⟨c₁, hc₁⟩ : ∃ c₁ : Conn, c₁ = { c with acted := c.acted ++ [k] } := ⟨_, rfl⟩
  have hr₁ : c₁.Holds r := by rw [hc₁]; exact hr
  have hsock : c₁.sock = c.sock := by rw [hc₁]
  have hreply {c₂ : Conn} (hrun : l.reply c₁ = .ok () c₂) :
      c₂.sock.output = c.sock.output ++ replyHeader (be 8 r.handle.toNat) := by
    obtain ⟨k, -, rfl⟩ := Link.reply_iff.mp hrun
    rw [← hr₁.handle, ← hsock]
    rfl
  rw [Link.act_eq fuel k hr, ← hc₁, Link.nbdRequest_eq hr₁] at hrun
  unfold Answer
  cases hcmd : r.cmd with
  | disc =>
    rw [hcmd] at hrun
    cases hrun
  | other =>
    rw [hcmd] at hrun
    cases hrun
    exact ⟨[], rfl, by rw [hsock, List.append_nil]⟩
  | flush | trim =>
    rw [hcmd] at hrun
    exact ⟨_, rfl, hreply hrun⟩
  | write =>
    rw [hcmd] at hrun
    dsimp only at hrun
    by_cases hlen : r.len.toNat = 0
    · rw [hlen, Exits.bind_ok (Link.payloadLoop_zero ..)] at hrun
      exact ⟨_, rfl, hreply hrun⟩
    · obtain ⟨e, c₂, hstuck, -⟩ := Link.payloadLoop_stuck (l := l) c₁ fuel hlen
      rw [Exits.bind_error hstuck] at hrun
      cases hrun
  | read =>
    have hsum : u64 (r.off.toNat + r.len.toNat) = r.off.toNat + r.len.toNat := by
      rw [u64, Nat.mod_eq_of_lt (hfits hcmd)]
    rw [hcmd] at hrun
    dsimp only at hrun ⊢
    rw [hsum] at hrun
    by_cases hlt : l.drive.bytes < r.off.toNat + r.len.toNat
    · simp only [hlt, ↓reduceIte] at hrun ⊢
      cases hrun
      exact ⟨[], rfl, by rw [hsock, List.append_nil]⟩
    · simp only [hlt, ↓reduceIte] at hrun ⊢
      obtain ⟨_, c₂, hhead, hsend⟩ := Exits.bind_eq_ok.mp hrun
      obtain ⟨payload, hcarries, hout⟩ := h.sendLoop (Nat.not_lt.mp hlt) hsend
      refine ⟨_, ⟨payload, hcarries, rfl⟩, ?_⟩
      rw [hout, hreply hhead, List.append_assoc]

/-- So is the next one of either driver. -/
theorem round {d : NbdDriver} {n fuel : Nat} {r : NbdRequest} {rest : List UInt8}
    (hin : c.sock.input = r.encode ++ rest) (hfits : r.cmd = .read → r.Fits)
    (hrun : l.round fuel d n c = .ok () c') :
    ∃ answer, Answer l.drive.bytes image r answer ∧
      c'.sock.output = c.sock.output ++ answer := by
  obtain ⟨k, c₁, htook, hround⟩ := Link.round_gives d n fuel (Link.round_ok_gives hrun)
  rw [hround] at hrun
  obtain ⟨answer, hanswer, hout⟩ := h.act (Link.round_holds hin htook) hfits hrun
  refine ⟨answer, hanswer, ?_⟩
  rw [hout, htook.output, d.enter_sock]

/-- The requests are answered one after the other, and nothing else is sent. -/
theorem rounds {d : NbdDriver} {n fuel : Nat} {ms : List NbdMessage} {rest : List UInt8}
    (hin : c.sock.input = wire ms ++ rest)
    (hfits : ∀ m ∈ ms, m.request.cmd = .read → m.request.Fits) (hn : n ≤ ms.length)
    (hrun : l.rounds fuel d n c = .ok () c') : ∃ answers,
      List.Forall₂ (fun m a => Answer l.drive.bytes image m.request a) (ms.take n) answers ∧
      c'.sock.output = c.sock.output ++ answers.flatten := by
  induction n generalizing c' with
  | zero =>
    cases hrun
    exact ⟨[], .nil, (List.append_nil _).symm⟩
  | succ n ih =>
    obtain ⟨_, c₁, hprev, hround⟩ := Exits.bind_eq_ok.mp hrun
    obtain ⟨answers, hanswers, hout⟩ := ih (by omega) hprev
    have hnext : c₁.sock.input = ms[n].request.encode ++
        (ms[n].payload ++ wire (ms.drop (n + 1)) ++ rest) := by
      rw [Link.rounds_input hin (by omega) hprev, Link.wire_drop hn]
      simp only [List.append_assoc]
    obtain ⟨answer, hanswer, hout'⟩ :=
      h.round hnext (hfits _ (List.getElem_mem hn)) hround
    refine ⟨answers ++ [answer], ?_, ?_⟩
    · rw [← List.take_append_getElem hn]
      exact List.rel_append hanswers (.cons hanswer .nil)
    · rw [hout', hout, List.flatten_append, List.append_assoc]
      simp

end Exports

/-! ## Reads that return -/

section Returns

variable {l : Link} {image : Nat → Option UInt8} (h : Exports l image fun _ => False)
  (hnet : ∀ n t, 0 < n → n < 2 ^ 32 → ∃ k, l.net.Takes n t k)

include h hnet

/-- A range is sent when no sector fails and the network takes every chunk. -/
theorem Exports.sendLoop_returns (c : Conn) {fuel off len : Nat} (hfuel : len ≤ fuel)
    (hrange : off + len ≤ l.drive.bytes) : ∃ c', l.sendLoop fuel off len c = .ok () c' := by
  have hbytes := h.created.bytes
  have hbpc := h.created.bpc
  induction fuel generalizing off len c with
  | zero =>
    obtain rfl : len = 0 := by omega
    exact ⟨c, rfl⟩
  | succ fuel ih =>
    by_cases hlen : len = 0
    · exact ⟨c, by rw [Link.sendLoop, if_pos hlen]; rfl⟩
    · obtain ⟨n, hn⟩ : ∃ n, n = min len l.drive.bpc := ⟨_, rfl⟩
      have hshown := h.readBytes c off n (by omega) (by omega)
      cases hres : vdfReadBytes l.read l.drive l.stack off n c.buff 0 with
      | error f =>
        rw [hres] at hshown
        exact hshown.elim
      | ok r =>
        rw [hres] at hshown
        have hne : r.1 ≠ -1 := by
          rw [hshown.1]
          exact ne_of_gt (Int.lt_of_lt_of_le (by decide) (Int.natCast_nonneg _))
        have hread : l.readBytes off n c =
            .ok () { c with calls := c.calls ++ [(off, n)], buff := r.2 } := by
          unfold Link.readBytes
          dsimp only
          rw [hres]
          exact if_neg hne
        have hoff : u64 (off + n) = off + n := by rw [u64, Nat.mod_eq_of_lt (by omega)]
        obtain ⟨k, hk⟩ := hnet n c.sock.sends (by omega) (by omega)
        rw [Link.sendLoop, if_neg hlen, ← hn, Exits.bind_ok hread, Exits.get_bind, hoff,
          Exits.bind_ok (Link.sockWrite_iff.mpr ⟨k, by rwa [length_slice], rfl⟩)]
        exact ih _ (by omega) (by omega)

/-- So a `NBD_CMD_READ` of the drive returns. -/
theorem Exports.round_returns (d : NbdDriver) (n fuel : Nat) {c : Conn} {r : NbdRequest}
    {rest : List UInt8} (hin : c.sock.input = r.encode ++ rest) (hgives : Link.Gives l.net c.sock)
    (hcmd : r.cmd = .read) (hrange : r.off.toNat + r.len.toNat ≤ l.drive.bytes) :
    ∃ c', l.round fuel d n c = .ok () c' := by
  have hbytes := h.created.bytes
  obtain ⟨k, c₁, htook, hround⟩ := Link.round_gives d n fuel hgives
  have hr := Link.round_holds hin htook
  have hr₁ : Conn.Holds { c₁ with acted := c₁.acted ++ [k] } r := hr
  have hsum : u64 (r.off.toNat + r.len.toNat) = r.off.toNat + r.len.toNat := by
    rw [u64, Nat.mod_eq_of_lt (by omega)]
  obtain ⟨k', hk'⟩ := hnet 16 c₁.sock.sends (by decide) (by decide)
  obtain ⟨c', hsend⟩ := h.sendLoop_returns hnet
    (Link.replied { c₁ with acted := c₁.acted ++ [k] } k') (Nat.le_refl _) hrange
  refine ⟨c', ?_⟩
  rw [hround, Link.act_eq fuel k hr, Link.nbdRequest_read hr₁ hcmd, hsum, if_neg (by omega)]
  exact Exits.bind_eq_ok.mpr ⟨(), _, Link.reply_iff.mpr ⟨k', hk', rfl⟩, hsend⟩

end Returns

/-! ## Results -/

/-- The link of a drive with its own sectors. -/
def driveLink (net : Net) (env : Readers) (d : VdfDrive) (stack : Buffer) : Link :=
  { net, drive := d, read := driveReader env d, stack }

/-- A drive with an image exports it. -/
theorem Imaged.exports {d : VdfDrive} {rs : List FileRange} (h : Imaged d rs) {env : Readers}
    {content : FileId → List UInt8} (hE : env.Steady content) {E : Fault → Prop}
    (hleave : ∀ s n, s + n ≤ d.allSectors → ¬ FatsStay d rs s n → ∀ f, E f) (net : Net)
    (stack : Buffer) : Exports (driveLink net env d stack) (driveImage d content) E where
  created := h.created
  valid := h.valid
  showing sector cnt m p hs hn hin := by
    refine h.showing hE hleave sector cnt m p hs hn (Nat.le_trans hin ?_)
    rw [show (driveLink net env d stack).drive = d from rfl, h.created.whole.1]
    exact u32_le _

/-- The image that a peer puts together from the answers to its reads. -/
def PutTogether (size : Nat) (ms : List NbdMessage) (stream : List UInt8) (img : Buffer) : Prop :=
  ∀ x < size, ∃ q ∈ ms.zip (splitAnswers size ms stream), q.1.request.cmd = .read ∧
    q.1.request.off.toNat + q.1.request.len.toNat ≤ size ∧ q.1.request.off.toNat ≤ x ∧
    x < q.1.request.off.toNat + q.1.request.len.toNat ∧
    img x = q.2.getD (16 + (x - q.1.request.off.toNat)) 0

/-- It shows what the answers carry. -/
theorem PutTogether.shows {size : Nat} {ms : List NbdMessage} {answers : List (List UInt8)}
    {image : Nat → Option UInt8} {img : Buffer}
    (hanswers : List.Forall₂ (fun m a => Answer size image m.request a) ms answers)
    (h : PutTogether size ms answers.flatten img) : img.Shows 0 size image := by
  intro x hx b hb
  obtain ⟨q, hq, hcmd, hin, hle, hlt, hbyte⟩ := h x hx
  rw [splitAnswers_flatten hanswers] at hq
  have hanswer : Answer size image q.1.request q.2 := List.forall₂_zip hanswers hq
  rw [Answer, hcmd] at hanswer
  dsimp only at hanswer
  rw [if_neg (by omega)] at hanswer
  obtain ⟨payload, hcarries, he⟩ := hanswer
  have hheader : (replyHeader (be 8 q.1.request.handle.toNat)).length = 16 := by
    simp [length_replyHeader]
  rw [Nat.zero_add, hbyte, he, List.getD_eq_getElem?_getD,
    List.getElem?_append_right (by rw [hheader]; exact Nat.le_add_right ..), hheader,
    Nat.add_sub_cancel_left, ← List.getD_eq_getElem?_getD]
  exact hcarries.byte _ (by omega) b (by rwa [Nat.add_sub_cancel' hle])

/-- The image that is put together from the answers of a recalculated drive shows its files. -/
theorem PutTogether.mounts {d d' : VdfDrive} (hg : d.toGeometry.Created) (hf : d.filesys ≠ .unset)
    (ht : d.IsTree) (hr : d.InRange) (hcnt : d.allFiles.length ≤ d.fileCnt) (hfits : MountFits d)
    (hall : d.sectors + d.mbrSectors < 2 ^ 32) (h : Recalc d d') {content : FileId → List UInt8}
    {ms : List NbdMessage} {answers : List (List UInt8)}
    (hanswers : List.Forall₂
      (fun m a => Answer d'.bytes (driveImage d' content) m.request a) ms answers)
    {img : Buffer} (himg : PutTogether d'.bytes ms answers.flatten img) :
    ∃ levels, ∀ depth, levels ≤ depth → ∃ ts,
      mountTree img (d'.mbrSectors * d'.bps) depth = some ts ∧
        List.Forall₂ (driveHierarchy d content).Denotes (d.file d.rootDir).entries ts := by
  obtain ⟨rs, hmounted, hrel⟩ := hfits.recalculated hg hf ht hr hcnt h
  have hshows : img.Shows 0 d'.bytes (driveImage d' content) := himg.shows hanswers
  have hsize : d'.bytes = d'.allSectors * d'.bps :=
    hmounted.created.bytes_allSectors (by rwa [hrel.geometry])
  rw [hsize] at hshows
  have htree := hmounted.tree_found hshows
  rw [hrel.driveHierarchy ht, hrel.rootDir, hrel.entries] at htree
  exact htree

/-- Either driver answers a sequence of requests on a recalculated drive in order, the reads in it
with the bytes of the image of the drive. -/
theorem nbd_answers_image (d d' : VdfDrive) (hg : d.toGeometry.Created) (hf : d.filesys ≠ .unset)
    (ht : d.IsTree) (hr : d.InRange) (hcnt : d.allFiles.length ≤ d.fileCnt) (hfits : ImageFits d)
    (h : Recalc d d') {env : Readers} {content : FileId → List UInt8} (hE : env.Steady content)
    (net : Net) (stack : Buffer) (k : NbdDriver) (ms : List NbdMessage)
    (hms : ∀ m ∈ ms, m.request.cmd = .read → m.request.Fits) (c c' : Conn) (rest : List UInt8)
    (hin : c.sock.input = wire ms ++ rest) (fuel : Nat)
    (hrun : (driveLink net env d' stack).rounds fuel k ms.length c = .ok () c') :
    ∃ answers, c'.sock.output = c.sock.output ++ answers.flatten ∧
      List.Forall₂ (fun m a => Answer d'.bytes (driveImage d' content) m.request a) ms answers := by
  obtain ⟨hcan, rs, hq, rfl⟩ := (recalc_iff ht hr.dataStart).mp h
  have himaged := hfits.imaged hg hf ht hr hcnt hq hcan
  have hexports := himaged.exports hE (E := fun _ => True) (fun _ _ _ _ _ => trivial) net stack
  obtain ⟨answers, hanswers, hout⟩ := hexports.rounds hin hms (Nat.le_refl _) hrun
  rw [List.take_length] at hanswers
  exact ⟨answers, hout, hanswers⟩

/-- A peer that has read all of a recalculated drive over one connection mounts the files of the
drive. -/
theorem nbd_drive_mounts (d d' : VdfDrive) (hg : d.toGeometry.Created) (hf : d.filesys ≠ .unset)
    (ht : d.IsTree) (hr : d.InRange) (hcnt : d.allFiles.length ≤ d.fileCnt) (hfits : MountFits d)
    (hall : d.sectors + d.mbrSectors < 2 ^ 32) (h : Recalc d d') {env : Readers}
    {content : FileId → List UInt8} (hE : env.Steady content) (net : Net) (stack : Buffer)
    (k : NbdDriver) (ms : List NbdMessage)
    (hms : ∀ m ∈ ms, m.request.cmd = .read → m.request.Fits) (c c' : Conn) (rest : List UInt8)
    (hin : c.sock.input = wire ms ++ rest) (fuel : Nat)
    (hrun : (driveLink net env d' stack).rounds fuel k ms.length c = .ok () c') (img : Buffer)
    (himg : PutTogether d'.bytes ms (c'.sock.output.drop c.sock.output.length) img) :
    ∃ levels, ∀ depth, levels ≤ depth → ∃ ts,
      mountTree img (d'.mbrSectors * d'.bps) depth = some ts ∧
        List.Forall₂ (driveHierarchy d content).Denotes (d.file d.rootDir).entries ts := by
  obtain ⟨rs, hmounted, -⟩ := hfits.recalculated hg hf ht hr hcnt h
  have hexports := hmounted.exports hE (E := fun _ => True) (fun _ _ _ _ _ => trivial) net stack
  obtain ⟨answers, hanswers, hout⟩ := hexports.rounds hin hms (Nat.le_refl _) hrun
  rw [List.take_length] at hanswers
  rw [hout, List.drop_left] at himg
  exact himg.mounts hg hf ht hr hcnt hfits hall h hanswers

/-- A read of all of a drive of 128 MiB. -/
def readAll : NbdMessage := ⟨⟨0, 1, 0, 134255104⟩, [], by decide⟩

/-- Over a network that transfers everything it returns. -/
theorem Exports.readAll_returns {l : Link} {image : Nat → Option UInt8}
    (h : Exports l image fun _ => False) (hnet : l.net = Net.whole)
    (hbytes : l.drive.bytes = 134255104) {c : Conn} (hc : c.sock.input = wire [readAll] ++ []) :
    ∃ c', l.rounds 0 .server 1 c = .ok () c' := by
  have hin : c.sock.input = readAll.request.encode ++ [] := by
    rw [hc, wire, List.flatMap_singleton, readAll, List.append_nil]
  have hgives : Link.Gives l.net c.sock := by
    rw [hnet]
    exact Link.gives_whole (by rw [hin, List.append_nil, NbdRequest.length_encode])
  have htakes : ∀ n t, 0 < n → n < 2 ^ 32 → ∃ k, l.net.Takes n t k := by
    intro n t hpos hlt
    rw [hnet]
    exact ⟨1, Net.takes_whole rfl (Nat.le_of_lt hlt) hpos⟩
  obtain ⟨c', hrun⟩ := h.round_returns htakes .server 0 0 hin hgives (by decide)
    (by rw [hbytes]; decide)
  exact ⟨c', Exits.bind_eq_ok.mpr ⟨(), _, rfl, hrun⟩⟩

/-- The drive with a long name and a directory is exported, and no request fails. -/
theorem driveTree_exports : ∃ rs, Recalc driveTree (recalcDrive driveTree rs) ∧
    Exports (driveLink Net.whole (contentReaders fun _ => [0x48, 0x69]) (recalcDrive driveTree rs)
      fun _ => 0) (driveImage (recalcDrive driveTree rs) fun _ => [0x48, 0x69])
      fun _ => False := by
  obtain ⟨rs, h, hmounted, hfats⟩ := driveTree_recalc
  exact ⟨rs, h, hmounted.exports (contentReaders_steady fun _ => [0x48, 0x69])
    (fun s n _ hn => absurd (hfats s n) hn) Net.whole fun _ => 0⟩

/-- All of it is read over a connection. -/
theorem driveTree_read : ∃ rs c', Recalc driveTree (recalcDrive driveTree rs) ∧
    (driveLink Net.whole (contentReaders fun _ => [0x48, 0x69]) (recalcDrive driveTree rs)
      fun _ => 0).rounds 0 .server 1 (Conn.new (wire [readAll] ++ [])) = .ok () c' := by
  obtain ⟨rs, h, hexports⟩ := driveTree_exports
  obtain ⟨c', hrun⟩ := hexports.readAll_returns rfl (show driveTree.bytes = _ by decide)
    (Conn.new_input _)
  exact ⟨rs, c', h, hrun⟩

theorem readAll_fits : ∀ m ∈ [readAll], m.request.cmd = .read → m.request.Fits := by
  intro m hm _
  obtain rfl := List.mem_singleton.mp hm
  unfold NbdRequest.Fits
  decide

theorem nbd_answers_image_two : ∃ (d' : VdfDrive) (c' : Conn) (answers : List (List UInt8)),
    Recalc driveTree d' ∧ c'.sock.output = [] ++ answers.flatten ∧
      List.Forall₂ (fun m a => Answer d'.bytes
        (driveImage d' fun _ => [0x48, 0x69]) m.request a) [readAll] answers := by
  obtain ⟨rs, c', h, hrun⟩ := driveTree_read
  obtain ⟨answers, hout, hanswers⟩ := nbd_answers_image driveTree _ geometryVfat_created (by decide)
    driveTree_isTree driveTree_inRange (by decide) driveTree_fits.toImageFits h
    (contentReaders_steady _) Net.whole (fun _ => 0) .server [readAll] readAll_fits _ c' []
    (Conn.new_input _) 0 hrun
  exact ⟨_, c', answers, h, hout, hanswers⟩

theorem nbd_drive_mounts_two : ∃ d' img depth ts, Recalc driveTree d' ∧
    mountTree img (d'.mbrSectors * d'.bps) depth = some ts ∧
      List.Forall₂ (driveHierarchy driveTree fun _ => [0x48, 0x69]).Denotes
        (driveTree.file driveTree.rootDir).entries ts := by
  obtain ⟨rs, c', h, hrun⟩ := driveTree_read
  have hrange : readAll.request.off.toNat + readAll.request.len.toNat = driveTree.bytes := by decide
  have himg : PutTogether driveTree.bytes [readAll] (c'.sock.output.drop 0) fun x =>
      ((c'.sock.output.drop 0).take (answerLength driveTree.bytes readAll.request)).getD
        (16 + (x - readAll.request.off.toNat)) 0 := by
    intro x hx
    refine ⟨_, List.mem_singleton.mpr rfl, show readAll.request.cmd = .read by decide,
      Nat.le_of_eq hrange, Nat.zero_le x, ?_, rfl⟩
    rw [← hrange] at hx
    exact hx
  obtain ⟨levels, htree⟩ := nbd_drive_mounts driveTree _ geometryVfat_created (by decide)
    driveTree_isTree driveTree_inRange (by decide) driveTree_fits (by decide) h
    (contentReaders_steady _) Net.whole (fun _ => 0) .server [readAll] readAll_fits _ c' []
    (Conn.new_input _) 0 hrun _ himg
  obtain ⟨ts, hts⟩ := htree levels (Nat.le_refl _)
  exact ⟨_, _, levels, ts, h, hts⟩

end Vdf
