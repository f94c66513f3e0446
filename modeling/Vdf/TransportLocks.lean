import Vdf.Effect
import Vdf.NbdRange
import Vdf.Transport

/-!
# The lock of a drive that is served

`lockcnt` is to count the transports that run and the locks of the caller. A transport whose driver does
not start, and a dump for which there is no memory, leave the drive with a lock that nothing gives
back: those that were lost are what `lockcnt` is too high by.
-/

namespace Vdf

open Word Buffer

/-! ## Locking and unlocking -/

section Lock

variable {qsort : List FileRange → List FileRange} {fuel : Nat} {d d' : VdfDrive}

theorem vdfDriveLock_spec {r : Except Errno Unit} (h : vdfDriveLock qsort fuel d = some (r, d')) :
    d'.deleted = d.deleted ∧ d'.lockcnt = d.lockcnt + (if r.isOk then 1 else 0) := by
  unfold vdfDriveLock at h
  split_ifs at h with hv hl
  · cases h
    exact ⟨rfl, rfl⟩
  · obtain ⟨⟨r₁, d₁⟩, hrec, hlock⟩ := Option.map_eq_some_iff.1 h
    have hkeep : d₁.deleted = d.deleted ∧ d₁.lockcnt = d.lockcnt := by
      rcases vdfRecalc_cases hrec with ⟨-, rfl⟩ | ⟨-, -, -, -, rfl⟩ | ⟨-, -, -, ⟨-, h⟩ | ⟨-, h⟩⟩
      · exact ⟨rfl, rfl⟩
      · exact ⟨rfl, rfl⟩
      · exact ⟨(vdfDriveRecalc_relaid h).deleted, (vdfDriveRecalc_relaid h).lockcnt⟩
      · exact ⟨(vdfDriveRecalc_relaid h).deleted, (vdfDriveRecalc_relaid h).lockcnt⟩
    cases r₁ with
    | error e =>
      cases hlock
      exact hkeep
    | ok u =>
      cases hlock
      exact ⟨hkeep.1, congrArg (· + 1) hkeep.2⟩
  · cases h
    exact ⟨rfl, rfl⟩

theorem vdfDriveUnlock_locked (hv : d.isValid = true) (hl : d.lockcnt ≠ 0) :
    vdfDriveUnlock d = (.ok (), { d with lockcnt := d.lockcnt - 1 }) := by
  simp [vdfDriveUnlock, hv, hl]

end Lock

/-! ## The start of a driver -/

/-- What makes the start of a driver fail. -/
def StartEnv.Fails (e : StartEnv) : DriverData → Prop
  | .server _ => ¬ (e.socket = true ∧ e.bind = true ∧ e.listen = true)
  | .client _ => ¬ (e.malloc = true ∧ e.socket = true ∧ e.connect = true ∧
      e.net.TakesAll [8, 8, 8, 4, 124] 0)

namespace Link

variable {l : Link} {c c' : Conn}

theorem sockWrite_bind {bytes : List UInt8} {f : Unit → Driver Unit} :
    (∃ c', (l.sockWrite bytes >>= f) c = .ok () c') ↔ ∃ k, l.net.Takes bytes.length c.sock.sends k ∧
      ∃ c', f () { c with sock := c.sock.wrote bytes k } = .ok () c' := by
  constructor
  · rintro ⟨c', hrun⟩
    obtain ⟨_, c₁, hw, hf⟩ := Exits.bind_eq_ok.1 hrun
    obtain ⟨k, hk, rfl⟩ := sockWrite_iff.1 hw
    exact ⟨k, hk, c', hf⟩
  · rintro ⟨k, hk, c', hf⟩
    exact ⟨c', Exits.bind_eq_ok.2 ⟨(), _, sockWrite_iff.2 ⟨k, hk, rfl⟩, hf⟩⟩

/-- What both drivers send first arrives exactly where the counts of `send` add up. -/
theorem handshake_iff : (∃ c', l.handshake c = .ok () c') ↔
    l.net.TakesAll [8, 8, 8, 4, 124] c.sock.sends := by
  have hmagic : ("NBDMAGIC".toUTF8.toList : List UInt8).length = 8 := by decide +kernel
  have hlast : ∀ {bytes : List UInt8} {c : Conn}, (∃ c', l.sockWrite bytes c = .ok () c') ↔
      ∃ k, l.net.Takes bytes.length c.sock.sends k := by
    intro bytes c
    constructor
    · rintro ⟨c', hw⟩
      obtain ⟨k, hk, -⟩ := sockWrite_iff.1 hw
      exact ⟨k, hk⟩
    · rintro ⟨k, hk⟩
      exact ⟨_, sockWrite_iff.2 ⟨k, hk, rfl⟩⟩
  rw [handshake]
  simp only [sockWrite_bind, Exits.modify_bind, Exits.get_bind, hlast, hmagic, length_be,
    length_slice, Net.TakesAll, Sock.wrote, and_true]

end Link

namespace Hub

variable {h : Host} {fuel : Nat} {s s' : Hub} {t : TransId} {e : StartEnv} {r : Int}

/-- The number of transports that run. -/
def running (s : Hub) : Nat := s.transports.countP fun t => (s.trans t).running

/-- The lock counts what it is to count. -/
def Balanced (s : Hub) : Prop := s.drive.lockcnt = s.running + s.held

/-- It counts `n` more. -/
structure Counts (s : Hub) (n : Nat) : Prop where
  valid : s.drive.isValid = true
  nodup : s.transports.Nodup
  lock : s.drive.lockcnt = s.running + s.held + n

theorem running_setDrive (s : Hub) (drive : VdfDrive) :
    (s.setDrive drive).running = s.running := rfl

theorem running_setHeld (s : Hub) (held : Nat) : (s.setHeld held).running = s.running := rfl

theorem running_setTrans (hn : s.transports.Nodup) (ht : t ∈ s.transports) (x : VdfTransport) :
    (s.setTrans t x).running + (if (s.trans t).running then 1 else 0) =
      s.running + if x.running then 1 else 0 := by
  have hperm := List.perm_cons_erase ht
  have hrest : (s.transports.erase t).countP (fun y => ((s.setTrans t x).trans y).running) =
      (s.transports.erase t).countP fun y => (s.trans y).running := by
    refine List.countP_congr fun y hy => ?_
    have hne : y ≠ t := fun he => hn.not_mem_erase (he ▸ hy)
    simp only [setTrans, if_neg hne]
  rw [running, running, show (s.setTrans t x).transports = s.transports from rfl,
    hperm.countP_eq, hperm.countP_eq, List.countP_cons, List.countP_cons, hrest, setTrans_self]
  omega

theorem nbdservStart_spec (e : StartEnv) (dat : NbdServer) : (nbdservStart e dat).1 =
    if e.socket = true ∧ e.bind = true ∧ e.listen = true then 0 else -1 := by
  unfold nbdservStart
  split_ifs <;> simp_all

theorem nbdcliStart_spec {conn : Option (Net × Conn)} (hs : s.nbdcliStart h e = some (r, conn)) :
    (r = -1 ∨ r = 0) ∧ (r = 0 ↔ e.malloc = true ∧ e.socket = true ∧ e.connect = true ∧
      e.net.TakesAll [8, 8, 8, 4, 124] 0) := by
  unfold nbdcliStart at hs
  split_ifs at hs with hm hso hc <;>
    simp only [Bool.not_eq_true', Bool.not_eq_false] at hm
  · cases hs
    simp [hm]
  · rw [Bool.not_eq_true'] at hso
    cases hs
    simp [hso]
  · rw [Bool.not_eq_true'] at hc
    cases hs
    simp [hc]
  · have hsends := Link.handshake_iff (l := s.link h e.net)
      (c := { sock := { input := e.input }, request := e.junk, buff := e.junk })
    simp only [Bool.not_eq_true', Bool.not_eq_false] at hso hc
    split at hs
    · rename_i u c hrun
      cases hs
      exact ⟨.inr rfl, fun _ => ⟨hm, hso, hc, hsends.1 ⟨c, hrun⟩⟩, fun _ => rfl⟩
    · rename_i c hrun
      cases hs
      refine ⟨.inl rfl, nofun, fun hall => ?_⟩
      obtain ⟨c', hrun'⟩ := hsends.2 hall.2.2.2
      rw [hrun] at hrun'
      cases hrun'
    · cases hs

/-- The start of a driver leaves the flag of the transport to its caller, and fails where it meets what
makes it fail. -/
theorem tdStart_spec {x x' : VdfTransport} (hs : s.tdStart h e x = some (r, x')) :
    x'.running = x.running ∧ (r = -1 ∨ r = 0) ∧ (r = 0 ↔ ¬ e.Fails x.data) := by
  unfold tdStart at hs
  cases hdata : x.data with
  | server dat =>
    rw [hdata] at hs
    have hs : some ((nbdservStart e dat).1, { x with data := .server (nbdservStart e dat).2 }) =
        some (r, x') := hs
    obtain ⟨hr, hx⟩ := Prod.mk.inj (Option.some.inj hs)
    rw [nbdservStart_spec] at hr
    rw [← hr, ← hx, StartEnv.Fails, not_not]
    split_ifs with hok <;> simp [hok]
  | client conn =>
    rw [hdata] at hs
    obtain ⟨⟨r₁, conn₁⟩, hrun, hs⟩ := Option.map_eq_some_iff.1 hs
    obtain ⟨hr, hx⟩ := Prod.mk.inj hs
    rw [← hr, ← hx, StartEnv.Fails, not_not]
    exact ⟨rfl, nbdcliStart_spec hrun⟩

/-! ## What a call does to the lock -/

section Steps

variable {n : Nat} {x : VdfTransport}

/-- A change of a transport that runs as before. -/
theorem Counts.keep (hc : s.Counts n) (ht : t ∈ s.transports)
    (hx : x.running = (s.trans t).running) : (s.setTrans t x).Counts n := by
  have hrun := running_setTrans hc.nodup ht x
  rw [hx] at hrun
  refine ⟨hc.valid, hc.nodup, ?_⟩
  rw [show (s.setTrans t x).running = s.running by omega]
  exact hc.lock

/-- The lock is taken for a call that fails, or it was lost. -/
theorem Counts.relock (hc : s.Counts n) {drive : VdfDrive} {r : Except Errno Unit}
    (hl : vdfDriveLock h.qsort fuel s.drive = some (r, drive)) :
    (s.setDrive drive).Counts (n + if r.isOk then 1 else 0) := by
  obtain ⟨hd, hcnt⟩ := vdfDriveLock_spec hl
  refine ⟨?_, hc.nodup, ?_⟩
  · rw [setDrive_drive, VdfDrive.isValid, hd]
    exact hc.valid
  · have := hc.lock
    simp only [running_setDrive, setDrive_drive, setDrive_held]
    omega

/-- The lock is given back. -/
theorem Counts.unlock (hc : s.Counts (n + 1)) :
    (s.setDrive (vdfDriveUnlock s.drive).2).Counts n := by
  have hlock := hc.lock
  rw [vdfDriveUnlock_locked hc.valid (by omega)]
  refine ⟨hc.valid, hc.nodup, ?_⟩
  simp only [running_setDrive, setDrive_drive, setDrive_held]
  omega

/-- A transport that stops gives its lock back. -/
theorem Counts.stop (hc : s.Counts n) (ht : t ∈ s.transports)
    (hs : s.vdfTransportStop t = some (r, s')) :
    s'.Counts n ∧ s'.transports = s.transports ∧ (s'.trans t).running = false := by
  unfold vdfTransportStop at hs
  dsimp only at hs
  split at hs
  · rename_i hrun
    cases hs
    exact ⟨hc, rfl, by simpa using hrun⟩
  · rename_i hrun
    have hrun : (s.trans t).running = true := by simpa using hrun
    have hlock := hc.lock
    have hpos : 0 < s.running := List.countP_pos_iff.2 ⟨t, ht, hrun⟩
    rw [vdfDriveUnlock_locked hc.valid (by omega)] at hs
    split at hs
    · cases hs
    · rename_i x hstop
      cases hs
      have hcount := running_setTrans hc.nodup ht { x with running := false, active := false }
      rw [hrun] at hcount
      refine ⟨⟨hc.valid, hc.nodup, ?_⟩, rfl, by simp⟩
      simp only [↓reduceIte, Bool.false_eq_true] at hcount
      simp only [running_setDrive, setDrive_drive, setDrive_held, setTrans_held]
      omega

/-- The lock can be taken. -/
def Locks (h : Host) (fuel : Nat) (s : Hub) : Prop :=
  ∃ drive, vdfDriveLock h.qsort fuel s.drive = some (.ok (), drive)

/-- A call that takes a lock and loses it. -/
def Leaks (h : Host) (fuel : Nat) (s : Hub) : TransCall → Prop
  | .start t e => (s.trans t).running = false ∧ s.Locks h fuel ∧ e.Fails (s.trans t).data
  | .dump e => s.Locks h fuel ∧ e.malloc = false
  | _ => False

/-- The count behind a call: one more is lost where it leaks. -/
def Follows (h : Host) (fuel : Nat) (s : Hub) (n : Nat) (c : TransCall) (s' : Hub) : Prop :=
  (s.Leaks h fuel c → s'.Counts (n + 1)) ∧ (¬ s.Leaks h fuel c → s'.Counts n)

theorem Follows.of_not {c : TransCall} (hn : ¬ s.Leaks h fuel c) (hc : s'.Counts n) :
    s.Follows h fuel n c s' := ⟨fun hl => absurd hl hn, fun _ => hc⟩

theorem not_locks {e : Errno} {drive : VdfDrive}
    (hl : vdfDriveLock h.qsort fuel s.drive = some (.error e, drive)) : ¬ s.Locks h fuel := by
  rintro ⟨drive', hok⟩
  rw [hl] at hok
  cases hok

/-- A transport that was opened. -/
theorem Counts.cons (hc : s.Counts n) (ht : t ∉ s.transports) (hx : x.running = false) :
    ({ s.setTrans t x with transports := t :: s.transports } : Hub).Counts n := by
  refine ⟨hc.valid, List.nodup_cons.2 ⟨ht, hc.nodup⟩, ?_⟩
  have hcount : s.transports.countP (fun y => ((s.setTrans t x).trans y).running) = s.running := by
    refine List.countP_congr fun y hy => ?_
    have hne : y ≠ t := fun he => ht (he ▸ hy)
    simp only [setTrans, if_neg hne]
  rw [running, List.countP_cons]
  simp only [hcount, setTrans_self, hx, Bool.false_eq_true, ↓reduceIte]
  exact hc.lock

theorem open_counts (server malloc opens : Bool) (hc : s.Counts n) (ht : t ∉ s.transports) :
    (s.vdfTransportOpen t server malloc opens).2.Counts n := by
  unfold vdfTransportOpen
  split
  · exact hc
  · split
    · exact hc
    · split
      · exact hc
      · exact hc.cons ht rfl

theorem start_counts (hc : s.Counts n) (ht : t ∈ s.transports)
    (hs : s.vdfTransportStart h fuel t e = some (r, s')) :
    s.Follows h fuel n (.start t e) s' := by
  unfold vdfTransportStart at hs
  dsimp only at hs
  split at hs
  · rename_i hrun
    cases hs
    exact .of_not (fun hleak => Bool.false_ne_true (hleak.1.symm.trans hrun)) hc
  · rename_i hrun
    have hrun : (s.trans t).running = false := by simpa using hrun
    split at hs
    · cases hs
    · rename_i err drive hl
      cases hs
      exact .of_not (fun hleak => not_locks hl hleak.2.1) (hc.relock hl)
    · rename_i u drive hl
      have hc₁ : (s.setDrive drive).Counts (n + 1) := hc.relock hl
      split at hs
      · cases hs
      · rename_i r₁ x hstart
        obtain ⟨hx, hr, hfails⟩ := tdStart_spec hstart
        have hx : x.running = (s.trans t).running := hx
        split at hs
        · rename_i hr₁
          cases hs
          have hfail : e.Fails (s.trans t).data := by
            by_contra hok
            have := hfails.2 hok
            omega
          exact ⟨fun _ => hc₁.keep ht hx, fun hn => absurd ⟨hrun, ⟨drive, hl⟩, hfail⟩ hn⟩
        · rename_i hr₁
          cases hs
          have hok : ¬ e.Fails (s.trans t).data := hfails.1 (by omega)
          refine .of_not (fun hleak => hok hleak.2.2) ⟨hc₁.valid, hc₁.nodup, ?_⟩
          have hcount := running_setTrans hc₁.nodup ht { x with running := true }
          have hlock := hc₁.lock
          simp only [running_setDrive, setDrive_trans, hrun, Bool.false_eq_true, ↓reduceIte] at hcount
          simp only [running_setDrive, setDrive_drive, setDrive_held] at hlock
          simp only [setTrans_drive, setTrans_held, setDrive_drive, setDrive_held]
          omega

theorem dump_counts {e : DumpEnv} {file : List UInt8} (hc : s.Counts n)
    (hs : s.vdfDumpDrive h fuel e = some (r, file, s')) : s.Follows h fuel n (.dump e) s' := by
  unfold vdfDumpDrive at hs
  split at hs
  · cases hs
  · rename_i err drive hl
    cases hs
    exact .of_not (fun hleak => not_locks hl hleak.1) (hc.relock hl)
  · rename_i u drive hl
    have hc₁ : (s.setDrive drive).Counts (n + 1) := hc.relock hl
    dsimp only at hs
    split_ifs at hs with hm ho
    · cases hs
      exact ⟨fun _ => hc₁, fun hn => absurd ⟨⟨drive, hl⟩, by simpa using hm⟩ hn⟩
    · cases hs
      exact .of_not (fun hleak => hm (by simp [hleak.2])) hc₁.unlock
    · obtain ⟨⟨r₁, file₁⟩, -, hs⟩ := Option.map_eq_some_iff.1 hs
      cases hs
      exact .of_not (fun hleak => hm (by simp [hleak.2])) hc₁.unlock

theorem dumpInfo_counts (hc : s.Counts n) (hs : s.vdfDumpDriveInfo h fuel = some (r, s')) :
    s'.Counts n := by
  obtain ⟨⟨r₁, drive⟩, hl, hs⟩ := Option.map_eq_some_iff.1 hs
  cases r₁ with
  | error err =>
    cases hs
    exact hc.relock hl
  | ok u =>
    cases hs
    have hc₁ : (s.setDrive drive).Counts (n + 1) := hc.relock hl
    exact hc₁.unlock

theorem process_counts {accept : Accept} {junk : Buffer} (hc : s.Counts n)
    (ht : t ∈ s.transports) (hs : s.vdfTransportProcess h fuel t accept junk = some (r, s')) :
    s'.Counts n := by
  unfold vdfTransportProcess at hs
  dsimp only at hs
  split_ifs at hs
  · cases hs
    exact hc
  · cases hs
    exact hc
  · split at hs
    · cases hs
      exact hc.keep ht rfl
    · cases hs
    · unfold tdProcess at hs
      dsimp only at hs
      split at hs
      · cases hs
        exact hc.keep ht rfl
      · cases hs
        exact hc.keep ht rfl
      · obtain ⟨⟨r₁, s₁⟩, hstop, hs⟩ := Option.map_eq_some_iff.1 hs
        cases hs
        exact (Counts.stop (hc.keep ht (by rfl)) ht hstop).1
      · obtain ⟨⟨r₁, s₁⟩, hstop, hs⟩ := Option.map_eq_some_iff.1 hs
        cases hs
        exact (Counts.stop (hc.keep ht (by rfl)) ht hstop).1
      · cases hs

theorem leave_counts {cli : Nat} (hc : s.Counts n) (ht : t ∈ s.transports)
    (hs : s.clientLeaves t cli = some (r, s')) : s'.Counts n := by
  unfold clientLeaves at hs
  dsimp only at hs
  split at hs
  · cases hs
  · obtain ⟨dat, -, hs⟩ := Option.map_eq_some_iff.1 hs
    cases hs
    exact hc.keep ht rfl

/-- A transport that does not run is taken off the list. -/
theorem Counts.erase (hc : s.Counts n) (hrun : (s.trans t).running = false) :
    ({ s with transports := s.transports.erase t } : Hub).Counts n := by
  refine ⟨hc.valid, hc.nodup.erase t, ?_⟩
  have hcount : (s.transports.erase t).countP (fun y => (s.trans y).running) = s.running := by
    by_cases ht : t ∈ s.transports
    · rw [running, (List.perm_cons_erase ht).countP_eq, List.countP_cons, hrun]
      simp
    · rw [List.erase_of_not_mem ht, running]
  rw [running]
  dsimp only
  rw [hcount]
  exact hc.lock

theorem close_counts (hc : s.Counts n) (ht : t ∈ s.transports)
    (hs : s.vdfTransportClose t = some (r, s')) : s'.Counts n := by
  unfold vdfTransportClose at hs
  split at hs
  · obtain ⟨⟨r₁, s₁⟩, hstop, hs⟩ := Option.map_eq_some_iff.1 hs
    cases hs
    obtain ⟨hc₁, -, hrun⟩ := hc.stop ht hstop
    exact hc₁.erase hrun
  · rename_i hrun
    cases hs
    exact hc.erase (by simpa using hrun)

/-- One call. -/
theorem apply_counts {c : TransCall} (hc : s.Counts n)
    (hs : s.apply h fuel c = some (r, s')) : s.Follows h fuel n c s' := by
  unfold apply at hs
  cases c with
  | openTransport t server malloc opens =>
    dsimp only at hs
    split_ifs at hs with ht
    have hopen := open_counts server malloc opens hc ht
    rw [Option.some.inj hs] at hopen
    exact .of_not id hopen
  | start t e =>
    dsimp only at hs
    split_ifs at hs with ht
    exact start_counts hc ht hs
  | process t accept junk =>
    dsimp only at hs
    split_ifs at hs with ht
    exact .of_not id (process_counts hc ht hs)
  | leave t cli =>
    dsimp only at hs
    split_ifs at hs with ht
    exact .of_not id (leave_counts hc ht hs)
  | stop t =>
    dsimp only at hs
    split_ifs at hs with ht
    exact .of_not id (hc.stop ht hs).1
  | close t =>
    dsimp only at hs
    split_ifs at hs with ht
    exact .of_not id (close_counts hc ht hs)
  | dump e =>
    obtain ⟨⟨r₁, file, s₁⟩, hdump, hs⟩ := Option.map_eq_some_iff.1 hs
    cases hs
    exact dump_counts hc hdump
  | dumpInfo => exact .of_not id (dumpInfo_counts hc hs)
  | lock =>
    refine .of_not id ?_
    obtain ⟨⟨r₁, drive⟩, hl, hs⟩ := Option.map_eq_some_iff.1 hs
    cases r₁ with
    | error err =>
      cases hs
      exact hc.relock hl
    | ok u =>
      cases hs
      have hc₁ : (s.setDrive drive).Counts (n + 1) := hc.relock hl
      have hlock := hc₁.lock
      refine ⟨hc₁.valid, hc₁.nodup, ?_⟩
      simp only [running_setHeld, setHeld_drive, setHeld_held, setDrive_held] at hlock ⊢
      omega
  | unlock =>
    refine .of_not id ?_
    dsimp only at hs
    split_ifs at hs with hheld
    have hlock := hc.lock
    rw [vdfDriveUnlock_locked hc.valid (by omega)] at hs
    cases hs
    refine ⟨hc.valid, hc.nodup, ?_⟩
    simp only [running_setHeld, running_setDrive, setHeld_drive, setHeld_held, setDrive_drive]
    omega

end Steps

end Hub

/-- A run of a drive on which no transport was opened, with the number of its calls that lost a lock. -/
inductive HubRun (h : Host) : Hub → Nat → Prop where
  | start {drive : VdfDrive} (hv : drive.isValid = true) (hl : drive.lockcnt = 0) :
      HubRun h { drive } 0
  | kept {s s' : Hub} {n : Nat} {fuel : Nat} {c : TransCall} {r : Int} (run : HubRun h s n)
      (hs : s.apply h fuel c = some (r, s')) (hn : ¬ s.Leaks h fuel c) : HubRun h s' n
  | lost {s s' : Hub} {n : Nat} {fuel : Nat} {c : TransCall} {r : Int} (run : HubRun h s n)
      (hs : s.apply h fuel c = some (r, s')) (hleak : s.Leaks h fuel c) : HubRun h s' (n + 1)

/-- The lock counts what it is to count, and what was lost. -/
theorem HubRun.counts {h : Host} {s : Hub} {n : Nat} (run : HubRun h s n) : s.Counts n := by
  induction run with
  | start hv hl => exact ⟨hv, List.nodup_nil, hl⟩
  | kept _ hs hn ih => exact (Hub.apply_counts ih hs).2 hn
  | lost _ hs hleak ih => exact (Hub.apply_counts ih hs).1 hleak

/-- In every state of a run, the lock counts the transports that run and the locks of the caller exactly
where no call so far has lost a lock. -/
theorem lockcnt_balanced_iff {h : Host} {s : Hub} {n : Nat} (run : HubRun h s n) :
    s.Balanced ↔ n = 0 := by
  have hlock := run.counts.lock
  rw [Hub.Balanced]
  omega

/-- A host on which each thread is created, with files that cannot be read. -/
def sampleHost : Host :=
  { qsort := id, created := pthreadCreated, readers := ⟨fun _ _ _ => none, fun _ _ _ => none⟩
    stack := fun _ => 0 }

/-- Everything succeeds. -/
def startsWell : StartEnv :=
  { malloc := true, socket := true, bind := true, listen := true, connect := true
    net := Net.whole, input := [], junk := fun _ => 0 }

/-- A client whose peer is not there, and a dump without memory: nothing serves the drive or holds it, and
it stays locked. -/
theorem failed_start_and_dump_leak :
    (∃ s, HubRun sampleHost s 1 ∧ s.drive.lockcnt = 1 ∧ s.running = 0 ∧ s.held = 0 ∧
      s.drive.isLocked = true) ∧
    ∃ s, HubRun sampleHost s 1 ∧ s.drive.lockcnt = 1 ∧ s.running = 0 ∧ s.held = 0 ∧
      s.drive.isLocked = true := by
  have run : HubRun sampleHost { drive := driveEmpty32 } 0 := HubRun.start rfl rfl
  constructor
  · have opened := @HubRun.kept _ _ _ _ 1 (.openTransport 1 false true true) 0 run rfl id
    have failed := @HubRun.lost _ _ _ _ 1 (.start 1 { startsWell with connect := false }) (-1) opened
      rfl ⟨rfl, ⟨_, rfl⟩, nofun⟩
    exact ⟨_, failed, rfl, rfl, rfl, rfl⟩
  · have failed := @HubRun.lost _ _ _ _ 1 (.dump ⟨false, true, fun _ => true, fun _ => 0⟩) (-1) run
      rfl ⟨⟨_, rfl⟩, rfl⟩
    exact ⟨_, failed, rfl, rfl, rfl, rfl⟩

/-- A server that starts and stops again. -/
theorem lockcnt_balanced_sample : ∃ s, HubRun sampleHost s 0 ∧ s.transports = [1] ∧
    (s.trans 1).running = false ∧ s.Balanced := by
  have run : HubRun sampleHost { drive := driveEmpty32 } 0 := HubRun.start rfl rfl
  have opened := @HubRun.kept _ _ _ _ 1 (.openTransport 1 true true true) 0 run rfl id
  have started := @HubRun.kept _ _ _ _ 1 (.start 1 startsWell) 0 opened rfl
    fun hleak => hleak.2.2 ⟨rfl, rfl, rfl⟩
  have stopped := @HubRun.kept _ _ _ _ 1 (.stop 1) 0 started rfl id
  exact ⟨_, stopped, rfl, rfl, (lockcnt_balanced_iff stopped).2 rfl⟩

end Vdf
