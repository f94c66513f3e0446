import Vdf.Api
import Vdf.Clients
import Vdf.Nbd

/-!
# Transports

The transports of a drive, which lock it while they run, with the drivers of the NBD server and of the
NBD client. What the system calls return is up to the caller of each function (`StartEnv`, `DumpEnv`).
A result `none` is what C leaves undefined, or a loop that does not end.

`nbdserv_process` and the threads of its clients are in `Clients`, one request of a client in `Nbd`.
-/

namespace Vdf

open Word Buffer

/-- The address of a `vdf_transport`. -/
abbrev TransId := Nat

/-- `nbds_data`, or what `nbdc_data` has of a connection. -/
inductive DriverData where
  | server (dat : NbdServer)
  | client (conn : Option (Net × Conn))

/-- `struct _vdf_transport`, with one field for each flag that the calls here use. -/
structure VdfTransport where
  running : Bool := false
  error : Bool := false
  active : Bool := false
  err : Int := 0
  data : DriverData

/-- A drive with its transports. `held` counts the locks of the caller. -/
structure Hub where
  drive : VdfDrive
  transports : List TransId := []
  trans : TransId → VdfTransport := fun _ => { data := .client none }
  held : Nat := 0

/-- What the library runs on: the `qsort` of the C library, the return values of the thread call for which
there is a thread, the contents of the files, and what lies on the stack. -/
structure Host where
  qsort : List FileRange → List FileRange
  created : Int → Bool
  readers : Readers
  stack : Buffer

/-- What the start of a driver meets: which calls succeed, and the connection. -/
structure StartEnv where
  malloc : Bool
  socket : Bool
  bind : Bool
  listen : Bool
  connect : Bool
  net : Net
  input : List UInt8
  junk : Buffer

/-- What `vdf_dump_drive` meets: which calls succeed, `write` by its sector, and the new buffer. -/
structure DumpEnv where
  malloc : Bool
  opens : Bool
  writes : Nat → Bool
  junk : Buffer

/-- A call. For one of `process`, `accept` is what the server meets and `junk` what the structure of the
client holds. -/
inductive TransCall where
  | openTransport (t : TransId) (server malloc opens : Bool)
  | start (t : TransId) (e : StartEnv)
  | process (t : TransId) (accept : Accept) (junk : Buffer)
  | leave (t : TransId) (cli : Nat)
  | stop (t : TransId)
  | close (t : TransId)
  | dump (e : DumpEnv)
  | dumpInfo
  | lock
  | unlock

def eio : Int := 5

/-! ## The drivers -/

/-- `nbdserv_start`. -/
def nbdservStart (e : StartEnv) (dat : NbdServer) : Int × NbdServer :=
  if !e.socket then (-1, dat)
  else if !e.bind then (-1, { dat with numClients := 0 })
  else if !e.listen then (-1, { dat with numClients := 0 })
  else (0, { dat with numClients := 0 })

/-- `stop_client`, which waits for the thread. -/
def stopClient (dat : NbdServer) (cli : Nat) : Option NbdServer :=
  if cli ∈ dat.threads then (dat.freeClient cli).toOption else none

/-- `nbdserv_stop`. -/
def nbdservStop (dat : NbdServer) : Option NbdServer := dat.clients.foldlM stopClient dat

namespace VdfTransport

/-- The driver of the server works on the flags of its transport. -/
def enter (x : VdfTransport) (dat : NbdServer) : NbdServer :=
  { dat with active := x.active, error := x.error, err := x.err }

def leave (x : VdfTransport) (dat : NbdServer) : VdfTransport :=
  { x with active := dat.active, error := dat.error, err := dat.err, data := .server dat }

end VdfTransport

namespace Hub

def setTrans (s : Hub) (t : TransId) (x : VdfTransport) : Hub :=
  { s with trans := fun y => if y = t then x else s.trans y }

def setDrive (s : Hub) (drive : VdfDrive) : Hub := { s with drive }

def setHeld (s : Hub) (held : Nat) : Hub := { s with held }

section Fields

variable (s : Hub) (t : TransId) (x : VdfTransport) (drive : VdfDrive) (held : Nat)

@[simp] theorem setTrans_self : (s.setTrans t x).trans t = x := if_pos rfl
@[simp] theorem setTrans_drive : (s.setTrans t x).drive = s.drive := rfl
@[simp] theorem setTrans_transports : (s.setTrans t x).transports = s.transports := rfl
@[simp] theorem setTrans_held : (s.setTrans t x).held = s.held := rfl
@[simp] theorem setDrive_drive : (s.setDrive drive).drive = drive := rfl
@[simp] theorem setDrive_transports : (s.setDrive drive).transports = s.transports := rfl
@[simp] theorem setDrive_trans : (s.setDrive drive).trans = s.trans := rfl
@[simp] theorem setDrive_held : (s.setDrive drive).held = s.held := rfl
@[simp] theorem setHeld_drive : (s.setHeld held).drive = s.drive := rfl
@[simp] theorem setHeld_held : (s.setHeld held).held = held := rfl

end Fields

variable (h : Host)

/-- A connection of the client driver. -/
def link (s : Hub) (net : Net) : Link :=
  { net, drive := s.drive, read := driveReader h.readers s.drive, stack := h.stack }

/-- `nbdcli_start`: what it returns, and the connection. -/
def nbdcliStart (s : Hub) (e : StartEnv) : Option (Int × Option (Net × Conn)) :=
  if !e.malloc then some (-1, none)
  else if !e.socket then some (-1, none)
  else if !e.connect then some (-1, none)
  else
    match (s.link h e.net).handshake { sock := { input := e.input }, request := e.junk, buff := e.junk } with
    | .ok _ c => some (0, some (e.net, c))
    | .error .fail _ => some (-1, none)
    | .error _ _ => none

/-- `td->start`. -/
def tdStart (s : Hub) (e : StartEnv) (x : VdfTransport) : Option (Int × VdfTransport) :=
  match x.data with
  | .server dat =>
    let (r, dat) := nbdservStart e dat
    some (r, { x with data := .server dat })
  | .client _ => (s.nbdcliStart h e).map fun (r, conn) =>
    (r, { x with data := .client conn, active := if r = -1 then x.active else true })

/-- `td->stop`, which returns 0. -/
def tdStop (x : VdfTransport) : Option VdfTransport :=
  match x.data with
  | .server dat => (nbdservStop (x.enter dat)).map x.leave
  | .client _ => some { x with data := .client none, active := false }

/-! ## The calls -/

/-- `vdf_transport_open`. -/
def vdfTransportOpen (s : Hub) (t : TransId) (server malloc opens : Bool) : Int × Hub :=
  if !s.drive.isValid then (-1, s)
  else if !malloc then (-1, s)
  else if !server && !opens then (-1, s)
  else (0, { s.setTrans t { data := if server then .server {} else .client none } with
    transports := t :: s.transports })

/-- `vdf_transport_start`. -/
def vdfTransportStart (fuel : Nat) (s : Hub) (t : TransId) (e : StartEnv) : Option (Int × Hub) :=
  let x := s.trans t
  if x.running then some (-1, s)
  else
    match vdfDriveLock h.qsort fuel s.drive with
    | none => none
    | some (.error _, drive) => some (-1, s.setDrive drive)
    | some (.ok _, drive) =>
      let s := s.setDrive drive
      match s.tdStart h e { x with error := false, err := 0 } with
      | none => none
      | some (r, x) =>
        if r = -1 then some (-1, s.setTrans t x) else some (0, s.setTrans t { x with running := true })

/-- `vdf_transport_stop`. -/
def vdfTransportStop (s : Hub) (t : TransId) : Option (Int × Hub) :=
  let x := s.trans t
  if !x.running then some (-1, s)
  else
    match tdStop x with
    | none => none
    | some x =>
      match vdfDriveUnlock s.drive with
      | (.error _, drive) => some (-1, (s.setTrans t x).setDrive drive)
      | (.ok _, drive) =>
        some (0, (s.setTrans t { x with running := false, active := false }).setDrive drive)

/-- The loop of `vdf_drive_stop`. -/
def stopLoop (s : Hub) : List TransId → Option (Int × Hub)
  | [] => some (0, s)
  | t :: ts =>
    match s.vdfTransportStop t with
    | none => none
    | some (r, s) => if r ≠ 0 then some (-1, s) else s.stopLoop ts

/-- `vdf_drive_stop`. -/
def vdfDriveStop (s : Hub) : Option (Int × Hub) :=
  if !s.drive.isValid then some (-1, s) else s.stopLoop s.transports

/-- `td->process` of the client, which stops its transport when the peer leaves or something fails. -/
def tdProcess (fuel : Nat) (s : Hub) (t : TransId) (junk : Buffer) (net : Net) (c : Conn) :
    Option (Int × Hub) :=
  let x := s.trans t
  match (s.link h net).nbdcliProcess fuel junk c with
  | .ok _ c => some (0, s.setTrans t { x with data := .client (some (net, c)) })
  | .error .idle c => some (0, s.setTrans t { x with data := .client (some (net, c)) })
  | .error .disc c =>
    ((s.setTrans t { x with data := .client (some (net, c)) }).vdfTransportStop t).map
      fun (_, s) => (-1, s)
  | .error .fail c =>
    ((s.setTrans t { x with error := true, err := eio, data := .client (some (net, c)) }).vdfTransportStop
      t).map fun (_, s) => (-1, s)
  | .error (.fault _) _ => none

/-- `vdf_transport_process`. -/
def vdfTransportProcess (fuel : Nat) (s : Hub) (t : TransId) (accept : Accept) (junk : Buffer) :
    Option (Int × Hub) :=
  let x := s.trans t
  if !x.running then some (-1, s)
  else if x.error then some (-1, s)
  else
    match x.data with
    | .server dat =>
      let (r, dat) := (x.enter dat).nbdservProcess h.created accept
      some (r, s.setTrans t (x.leave dat))
    | .client none => none
    | .client (some (net, c)) => s.tdProcess h fuel t junk net c

/-- A thread of the server ends. -/
def clientLeaves (s : Hub) (t : TransId) (cli : Nat) : Option (Int × Hub) :=
  let x := s.trans t
  match x.data with
  | .client _ => none
  | .server dat => (stopClient (x.enter dat) cli).map fun dat => (0, s.setTrans t (x.leave dat))

/-- `vdf_transport_close`. -/
def vdfTransportClose (s : Hub) (t : TransId) : Option (Int × Hub) :=
  if (s.trans t).running then
    (s.vdfTransportStop t).map fun (_, s) => (0, { s with transports := s.transports.erase t })
  else some (0, { s with transports := s.transports.erase t })

/-- `vdf_drive_sectors`, an `ssectcnt_t`. -/
def vdfDriveSectors (d : VdfDrive) : Int :=
  if !d.isValid then -1 else toI32 (u32 (d.sectors + d.mbrSectors))

/-- The loop of `vdf_dump_drive`: what the function is to return, and what it wrote to `file`. What a
`write` that fails has written is left out. -/
def dumpLoop (d : VdfDrive) (read : SectorReader) (e : DumpEnv) (cnt : Nat) :
    Nat → Nat → Buffer → List UInt8 → Option (Int × List UInt8)
  | 0, _, _, _ => none
  | fuel + 1, sect, buff, file =>
    if cnt ≤ sect then some (0, file)
    else
      match read sect d.spc buff 0 with
      | .error _ => none
      | .ok (r, buff) =>
        if r = -1 then some (-1, file)
        else if !e.writes sect then some (-1, file)
        else dumpLoop d read e cnt fuel (ofInt (sect + r)) buff (file ++ buff.slice 0 (r.toNat * d.bps))

/-- `vdf_dump_drive`: what it returns, and the file. -/
def vdfDumpDrive (fuel : Nat) (s : Hub) (e : DumpEnv) : Option (Int × List UInt8 × Hub) :=
  match vdfDriveLock h.qsort fuel s.drive with
  | none => none
  | some (.error _, drive) => some (-1, [], s.setDrive drive)
  | some (.ok _, drive) =>
    let s := s.setDrive drive
    if !e.malloc then some (-1, [], s)
    else if !e.opens then some (-1, [], s.setDrive (vdfDriveUnlock drive).2)
    else
      (dumpLoop drive (driveReader h.readers drive) e (toSize (vdfDriveSectors drive)) fuel 0
        e.junk []).map fun (r, file) => (r, file, s.setDrive (vdfDriveUnlock drive).2)

/-- `vdf_dump_drive_info`. What it prints is left out. -/
def vdfDumpDriveInfo (fuel : Nat) (s : Hub) : Option (Int × Hub) :=
  (vdfDriveLock h.qsort fuel s.drive).map fun (r, drive) =>
    match r with
    | .error _ => (-1, s.setDrive drive)
    | .ok _ => (0, s.setDrive (vdfDriveUnlock drive).2)

/-- A call of the library on transports that were opened, where each lock of the caller goes before its
`vdf_drive_unlock`. `malloc` returns what is not in use. -/
def apply (fuel : Nat) (s : Hub) : TransCall → Option (Int × Hub)
  | .openTransport t server malloc opens =>
    if t ∈ s.transports then none else some (s.vdfTransportOpen t server malloc opens)
  | .start t e => if t ∈ s.transports then s.vdfTransportStart h fuel t e else none
  | .process t accept junk =>
    if t ∈ s.transports then s.vdfTransportProcess h fuel t accept junk else none
  | .leave t cli => if t ∈ s.transports then s.clientLeaves t cli else none
  | .stop t => if t ∈ s.transports then s.vdfTransportStop t else none
  | .close t => if t ∈ s.transports then s.vdfTransportClose t else none
  | .dump e => (s.vdfDumpDrive h fuel e).map fun (r, _, s) => (r, s)
  | .dumpInfo => s.vdfDumpDriveInfo h fuel
  | .lock => (vdfDriveLock h.qsort fuel s.drive).map fun (r, drive) =>
    match r with
    | .error _ => (-1, s.setDrive drive)
    | .ok _ => (0, (s.setDrive drive).setHeld (s.held + 1))
  | .unlock =>
    if s.held = 0 then none
    else
      match vdfDriveUnlock s.drive with
      | (.error _, drive) => some (-1, s.setDrive drive)
      | (.ok _, drive) => some (0, (s.setDrive drive).setHeld (s.held - 1))

end Hub

end Vdf
