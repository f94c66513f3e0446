import Vdf.Lib.Exits
import Vdf.ReadBytes
import Vdf.Sock

/-!
# The NBD drivers

One request of `client_threadfunc` and of `nbdcli_process`. The server thread reads one request after
the other into the same structure, until something makes it leave; the client driver reads one request
a call, into a structure that is not initialized. Their `switch` is the same (`nbdRequest`).

The callbacks of the transport are left out: what they return is not looked at. `acted` and `replies`
of a connection only record what was done.
-/

namespace Vdf

open Word Buffer

/-! ## Requests and replies -/

def nbdRequestMagic : Nat := 0x25609513
def nbdReplyMagic : Nat := 0x67446698

/-- `NBD_FLAG_HAS_FLAGS | NBD_FLAG_READ_ONLY`. -/
def nbdFlags : Nat := 0x1 ||| 0x2

/-- The cases of `switch(cmd)`. -/
inductive NbdCmd where
  | read
  | write
  | disc
  | flush
  | trim
  | other
  deriving DecidableEq, Repr

/-- `cmd` of a `type`, of which `NBD_CMD_MASK_COMMAND` keeps 16 bits. -/
def NbdCmd.ofType (type : Nat) : NbdCmd :=
  match type &&& 0xffff with
  | 0 => .read
  | 1 => .write
  | 2 => .disc
  | 3 => .flush
  | 4 => .trim
  | _ => .other

/-- `struct nbd_request`, as the peer means it. -/
structure NbdRequest where
  type : UInt32
  handle : UInt64
  off : UInt64
  len : UInt32
  deriving DecidableEq, Repr

namespace NbdRequest

def cmd (r : NbdRequest) : NbdCmd := NbdCmd.ofType r.type.toNat

/-- The bytes of a request. -/
def encode (r : NbdRequest) : List UInt8 :=
  be 4 nbdRequestMagic ++ be 4 r.type.toNat ++ be 8 r.handle.toNat ++ be 8 r.off.toNat ++
    be 4 r.len.toNat

end NbdRequest

/-- `sizeof(struct nbd_request)`. -/
def requestSize : Nat := 28

/-- `struct nbd_reply` without an error. The handle is copied as it is. -/
def replyHeader (handle : List UInt8) : List UInt8 := be 4 nbdReplyMagic ++ be 4 0 ++ handle

/-! ## A connection -/

/-- What C leaves undefined, or a loop that does not end. -/
inductive NetFault where
  | sock (f : SockFault)
  | drive (f : Fault)
  | endless
  deriving DecidableEq, Repr

/-- Why a driver leaves a request. -/
inductive Exit where
  /-- The client driver returns 0 on `EAGAIN`. -/
  | idle
  /-- The peer disconnects. -/
  | disc
  /-- `goto finish`, `goto fail`. -/
  | fail
  | fault (f : NetFault)
  deriving DecidableEq, Repr

/-- A connection with the locals of its driver. `calls` are the ranges that `vdf_read_bytes` was called
for, `acted` how many bytes were received of each request that was acted on, and `replies` the handles
of the reply headers that were sent. -/
structure Conn where
  sock : Sock
  request : Buffer
  buff : Buffer
  calls : List (Nat × Nat) := []
  acted : List Nat := []
  replies : List (List UInt8) := []

namespace Conn

/-- `request.magic` in host order. -/
def magic (c : Conn) : Nat := beValue (c.request.slice 0 4)

def type (c : Conn) : Nat := beValue (c.request.slice 4 4)

def handle (c : Conn) : List UInt8 := c.request.slice 8 8

def off (c : Conn) : Nat := beValue (c.request.slice 16 8)

def len (c : Conn) : Nat := beValue (c.request.slice 24 4)

end Conn

/-- What a driver works with: the network, the drive, the reader of its sectors, and what lies on the
stack. -/
structure Link where
  net : Net
  drive : VdfDrive
  read : SectorReader
  stack : Buffer

/-- A part of a driver. -/
abbrev Driver := EStateM Exit Conn

namespace Link

variable (l : Link)

/-- `sock_read` of `cnt` bytes, where there is room for `cap`. -/
def sockRead (cap cnt : Nat) : Driver Received := fun c =>
  match Vdf.sockRead l.net cap cnt c.sock with
  | .error f => .error (.fault (.sock f)) c
  | .ok r => .ok r { c with sock := r.sock }

/-- `sock_write`, and the jump that follows a -1. -/
def sockWrite (bytes : List UInt8) : Driver Unit := fun c =>
  match Vdf.sockWrite l.net bytes c.sock with
  | .error f => .error (.fault (.sock f)) c
  | .ok (false, sock) => .error .fail { c with sock }
  | .ok (true, sock) => .ok () { c with sock }

/-- The reply header. -/
def reply : Driver Unit := do
  let c ← get
  l.sockWrite (replyHeader c.handle)
  modify fun c => { c with replies := c.replies ++ [c.handle] }

/-- `vdf_read_bytes` to `buff`, and the jump that follows a -1. -/
def readBytes (off n : Nat) : Driver Unit := fun c =>
  let c := { c with calls := c.calls ++ [(off, n)] }
  match vdfReadBytes l.read l.drive l.stack off n c.buff 0 with
  | .error f => .error (.fault (.drive f)) c
  | .ok (r, buff) => if r = -1 then .error .fail { c with buff } else .ok () { c with buff }

/-- The loop of `NBD_CMD_READ`. -/
def sendLoop : Nat → Nat → Nat → Driver Unit
  | 0, _, len => if len = 0 then pure () else throw (.fault .endless)
  | fuel + 1, off, len =>
    if len = 0 then pure ()
    else do
      let n := min len l.drive.bpc
      l.readBytes off n
      let c ← get
      l.sockWrite (c.buff.slice 0 n)
      sendLoop fuel (u64 (off + n)) (len - n)

/-- The range of a `NBD_CMD_READ`. Every round sends a byte, so that `len` rounds are enough. -/
def sendRange (off len : Nat) : Driver Unit := l.sendLoop len off len

/-- The loop of `NBD_CMD_WRITE`. It leaves `len` as it is. -/
def payloadLoop : Nat → Nat → Driver Unit
  | 0, len => if len = 0 then pure () else throw (.fault .endless)
  | fuel + 1, len =>
    if len = 0 then pure ()
    else do
      let r ← l.sockRead l.drive.bpc (min len l.drive.bpc)
      modify fun c => { c with buff := c.buff.copy 0 r.bytes }
      match r.result with
      | .error _ => throw .fail
      | .ok _ => payloadLoop fuel len

/-- `switch(cmd)`. The sum of the check is one of 64 bits. -/
def nbdRequest (fuel : Nat) : Driver Unit := do
  let c ← get
  match NbdCmd.ofType c.type with
  | .disc => throw .disc
  | .read =>
    if l.drive.bytes < u64 (c.off + c.len) then pure ()
    else do
      l.reply
      l.sendRange c.off c.len
  | .write => do
    l.payloadLoop fuel c.len
    l.reply
  | .flush | .trim => l.reply
  | .other => pure ()

/-- A request that was read: the check of the magic number, and the `switch`. -/
def act (fuel n : Nat) : Driver Unit := do
  let c ← get
  if c.magic ≠ nbdRequestMagic then throw .fail
  else do
    modify fun c => { c with acted := c.acted ++ [n] }
    l.nbdRequest fuel

/-- `sock_read` of a request. -/
def readRequest : Driver (Except SockError Nat) := do
  let r ← l.sockRead requestSize requestSize
  modify fun c => { c with request := c.request.copy 0 r.bytes }
  pure r.result

/-- One round of `client_threadfunc`. -/
def serverRound (fuel : Nat) : Driver Unit := do
  match ← l.readRequest with
  | .error _ => throw .fail
  | .ok n => l.act fuel n

/-- `n` rounds of `client_threadfunc`. -/
def serverLoop (fuel : Nat) : Nat → Driver Unit
  | 0 => pure ()
  | n + 1 => do
    l.serverRound fuel
    serverLoop fuel n

/-- `nbdcli_process`, where `request` is what the structure holds before it is read. -/
def nbdcliProcess (fuel : Nat) (request : Buffer) : Driver Unit := do
  modify fun c => { c with request }
  match ← l.readRequest with
  | .error .eagain => throw .idle
  | .error .other => throw .fail
  | .ok n => l.act fuel n

/-- One call of `nbdcli_process` for each structure. -/
def clientLoop (fuel : Nat) : List Buffer → Driver Unit
  | [] => pure ()
  | request :: requests => do
    l.nbdcliProcess fuel request
    clientLoop fuel requests

/-- What both drivers send first. -/
def handshake : Driver Unit := do
  l.sockWrite "NBDMAGIC".toUTF8.toList
  l.sockWrite (be 8 0x00420281861253)
  l.sockWrite (be 8 l.drive.bytes)
  l.sockWrite (be 4 nbdFlags)
  modify fun c => { c with buff := c.buff.fill 0 124 0 }
  let c ← get
  l.sockWrite (c.buff.slice 0 124)

/-- `client_threadfunc`, up to its `n`-th request. `alloc` says whether `malloc` succeeds. -/
def clientThreadfunc (fuel n : Nat) (alloc : Bool) : Driver Unit :=
  if !alloc then throw .fail
  else do
    l.handshake
    l.serverLoop fuel n

end Link

end Vdf
