import Mathlib.Data.List.TakeWhile
import Vdf.TransportLocks

/-!
# Stopping all transports of a drive

`vdf_drive_stop` goes through the transports and returns at the first that cannot be stopped, and one that
does not run is an error to `vdf_transport_stop`. So the transports in front of it are stopped, and those
behind it go on and keep their locks.
-/

namespace Vdf

/-! ## Lists that start with what runs -/

section Prefix

variable {α : Type*} {p : α → Bool} {l : List α}

/-- All that satisfies `p` stands in front iff nothing that does not is followed by something that does. -/
theorem countP_eq_takeWhile_iff :
    l.countP p = (l.takeWhile p).length ↔ l.Pairwise fun x y => p y = true → p x = true := by
  induction l with
  | nil => simp
  | cons x l ih =>
    rw [List.pairwise_cons]
    by_cases hx : p x = true
    · rw [List.countP_cons_of_pos hx, List.takeWhile_cons_of_pos hx, List.length_cons, add_left_inj, ih]
      simp [hx]
    · have hpair : l.countP p = 0 → l.Pairwise fun x y => p y = true → p x = true := fun h =>
        List.pairwise_of_forall_mem_list fun _ _ y hy hpy =>
          absurd hpy (List.countP_eq_zero.1 h y hy)
      rw [List.countP_cons_of_neg hx, List.takeWhile_cons_of_neg hx, List.length_nil]
      simp only [hx, Bool.false_eq_true, imp_false]
      exact ⟨fun h => ⟨List.countP_eq_zero.1 h, hpair h⟩, fun h => List.countP_eq_zero.2 h.1⟩

theorem takeWhile_congr {q : α → Bool} (h : ∀ x ∈ l, p x = q x) : l.takeWhile p = l.takeWhile q := by
  induction l with
  | nil => rfl
  | cons x l ih =>
    rw [List.takeWhile_cons, List.takeWhile_cons, h x List.mem_cons_self,
      ih fun y hy => h y (List.mem_cons_of_mem _ hy)]

theorem length_takeWhile_le_countP : (l.takeWhile p).length ≤ l.countP p := by
  rw [← List.countP_eq_length.2 fun x hx => (List.mem_takeWhile_imp hx : p x = true)]
  exact (List.takeWhile_sublist p).countP_le

theorem mem_takeWhile_of_pairwise (h : l.Pairwise fun x y => p y = true → p x = true) {x : α}
    (hx : x ∈ l) (hpx : p x = true) : x ∈ l.takeWhile p := by
  induction l with
  | nil => cases hx
  | cons y l ih =>
    obtain ⟨hy, hl⟩ := List.pairwise_cons.1 h
    rcases List.mem_cons.1 hx with rfl | hx
    · rw [List.takeWhile_cons_of_pos hpx]
      exact List.mem_cons_self
    · rw [List.takeWhile_cons_of_pos (hy x hx hpx)]
      exact List.mem_cons_of_mem _ (ih hl hx)

end Prefix

namespace Hub

variable {s : Hub} {t : TransId}

/-! ## The loop -/

/-- The stop of each driver succeeds. -/
def DriversStop (s : Hub) : Prop :=
  ∀ t ∈ s.transports, (s.trans t).running = true → ∃ x, tdStop (s.trans t) = some x

/-- No transport that runs stands behind one that does not. -/
def RunningFirst (s : Hub) : Prop :=
  s.transports.Pairwise fun t u => (s.trans u).running = true → (s.trans t).running = true

/-- What `vdf_drive_stop` is to do: nothing runs any more, and each lock was given back. -/
structure Stopped (s s' : Hub) : Prop where
  transports : s'.transports = s.transports
  running : ∀ t ∈ s'.transports, (s'.trans t).running = false
  lock : s'.drive.lockcnt + s.running = s.drive.lockcnt

/-- What runs in front of the first transport that does not. -/
def runningFront (s : Hub) (l : List TransId) : List TransId :=
  l.takeWhile fun t => (s.trans t).running

theorem runningFront_cons {l : List TransId} (h : (s.trans t).running = true) :
    s.runningFront (t :: l) = t :: s.runningFront l :=
  List.takeWhile_cons_of_pos (p := fun t => (s.trans t).running) h

theorem runningFront_cons_stopped {l : List TransId} (h : ¬ (s.trans t).running = true) :
    s.runningFront (t :: l) = [] :=
  List.takeWhile_cons_of_neg (p := fun t => (s.trans t).running) h

theorem running_of_mem_front {l : List TransId} (h : t ∈ s.runningFront l) :
    (s.trans t).running = true :=
  List.mem_takeWhile_imp (p := fun t => (s.trans t).running) h

theorem vdfTransportStop_running (hv : s.drive.isValid = true) (hl : s.drive.lockcnt ≠ 0)
    (hrun : (s.trans t).running = true) {x : VdfTransport} (hx : tdStop (s.trans t) = some x) :
    s.vdfTransportStop t = some (0, (s.setTrans t { x with running := false, active := false }).setDrive
      { s.drive with lockcnt := s.drive.lockcnt - 1 }) := by
  simp [vdfTransportStop, hrun, hx, vdfDriveUnlock_locked hv hl]

/-- The loop stops what runs in front of the first transport that does not, and nothing else. -/
theorem stopLoop_spec {l : List TransId} (hv : s.drive.isValid = true) (hn : l.Nodup)
    (hstop : ∀ t ∈ l, (s.trans t).running = true → ∃ x, tdStop (s.trans t) = some x)
    (hl : (s.runningFront l).length ≤ s.drive.lockcnt) :
    ∃ r s', s.stopLoop l = some (r, s') ∧ s'.transports = s.transports ∧
      s'.drive.lockcnt + (s.runningFront l).length = s.drive.lockcnt ∧
      (∀ t ∈ s.runningFront l, (s'.trans t).running = false) ∧
      ∀ t ∉ s.runningFront l, s'.trans t = s.trans t := by
  induction l generalizing s with
  | nil => exact ⟨0, s, rfl, rfl, rfl, nofun, fun _ _ => rfl⟩
  | cons t l ih =>
    obtain ⟨ht, hn⟩ := List.nodup_cons.1 hn
    by_cases hrun : (s.trans t).running = true
    · obtain ⟨x, hx⟩ := hstop t List.mem_cons_self hrun
      rw [runningFront_cons hrun, List.length_cons] at hl
      have hstep := vdfTransportStop_running hv (by omega) hrun hx
      obtain ⟨s₁, hs₁⟩ : ∃ s₁, s₁ = (s.setTrans t { x with running := false, active := false }).setDrive
        { s.drive with lockcnt := s.drive.lockcnt - 1 } := ⟨_, rfl⟩
      -- The other transports are as they were.
      have hkeep : ∀ u, u ≠ t → s₁.trans u = s.trans u := fun u hu => by
        rw [hs₁, setDrive_trans]
        exact if_neg hu
      have hself : (s₁.trans t).running = false := by rw [hs₁, setDrive_trans, setTrans_self]
      have hrest : s₁.runningFront l = s.runningFront l :=
        takeWhile_congr fun u hu => by rw [hkeep u fun he => ht (he ▸ hu)]
      have hlock : s₁.drive.lockcnt + 1 = s.drive.lockcnt := by
        rw [hs₁, setDrive_drive]
        dsimp only
        omega
      obtain ⟨r, s', hloop, htrans, hcnt, hoff, hout⟩ := ih (s := s₁) (by rw [hs₁]; exact hv) hn
        (fun u hu hu' => by
          rw [hkeep u fun he => ht (he ▸ hu)] at hu' ⊢
          exact hstop u (List.mem_cons_of_mem _ hu) hu')
        (by rw [hrest]; omega)
      rw [hrest] at hcnt hoff hout
      have hnot : t ∉ s.runningFront l :=
        fun hmem => ht (List.takeWhile_subset _ hmem)
      rw [runningFront_cons hrun]
      refine ⟨r, s', ?_, by rw [htrans, hs₁]; rfl, ?_, fun u hu => ?_, fun u hu => ?_⟩
      · rw [stopLoop, hstep, ← hs₁]
        exact hloop
      · rw [List.length_cons]
        omega
      · rcases List.mem_cons.1 hu with rfl | hu
        · rw [hout u hnot, hself]
        · exact hoff u hu
      · rw [List.mem_cons, not_or] at hu
        rw [hout u hu.2, hkeep u hu.1]
    · rw [runningFront_cons_stopped hrun]
      refine ⟨-1, s, ?_, rfl, rfl, nofun, fun _ _ => rfl⟩
      have hfalse : (s.trans t).running = false := by simpa using hrun
      simp [stopLoop, vdfTransportStop, hfalse]

end Hub

/-- In every state of a run in which the drivers stop, `vdf_drive_stop` stops all transports and gives their
locks back exactly where none that runs stands behind one that does not. -/
theorem driveStop_iff {h : Host} {s : Hub} {n : Nat} (run : HubRun h s n) (hd : s.DriversStop) :
    ∃ r s', s.vdfDriveStop = some (r, s') ∧ (s.Stopped s' ↔ s.RunningFirst) := by
  have hc := run.counts
  have hfirst : s.running = (s.runningFront s.transports).length ↔
      s.RunningFirst := countP_eq_takeWhile_iff
  have hle : (s.runningFront s.transports).length ≤ s.running := length_takeWhile_le_countP
  have hlock := hc.lock
  obtain ⟨r, s', hloop, htrans, hcnt, hoff, hout⟩ := Hub.stopLoop_spec hc.valid hc.nodup hd
    (hle.trans (by omega))
  refine ⟨r, s', ?_, fun h => ?_, fun h => ?_⟩
  · rw [Hub.vdfDriveStop, hc.valid]
    exact hloop
  · have := h.lock
    exact hfirst.1 (by omega)
  · refine ⟨htrans, fun t ht => ?_, by rw [hfirst.2 h]; exact hcnt⟩
    rw [htrans] at ht
    by_cases hrun : (s.trans t).running = true
    · exact hoff t (mem_takeWhile_of_pairwise h ht hrun)
    · rw [hout t fun hmem => hrun (Hub.running_of_mem_front hmem)]
      simpa using hrun

/-- A server that runs, in front of one that was opened and not started. -/
theorem driveStop_front : ∃ s, HubRun sampleHost s 0 ∧ s.transports = [1, 2] ∧
    (s.trans 1).running = true ∧ (s.trans 2).running = false ∧
    ∃ r s', s.vdfDriveStop = some (r, s') ∧ s.Stopped s' := by
  have run : HubRun sampleHost { drive := driveEmpty32 } 0 := HubRun.start rfl rfl
  have second := @HubRun.kept _ _ _ _ 1 (.openTransport 2 true true true) 0 run rfl id
  have opened := @HubRun.kept _ _ _ _ 1 (.openTransport 1 true true true) 0 second rfl id
  have started := @HubRun.kept _ _ _ _ 1 (.start 1 startsWell) 0 opened rfl
    fun hleak => hleak.2.2 ⟨rfl, rfl, rfl⟩
  obtain ⟨r, s', hrun, hiff⟩ := driveStop_iff started fun t ht hrun => by
    rcases List.mem_cons.1 ht with rfl | ht
    · exact ⟨_, rfl⟩
    · obtain rfl := List.mem_singleton.1 ht
      cases hrun
  refine ⟨_, started, rfl, rfl, rfl, r, s', hrun, hiff.2 ?_⟩
  exact List.pairwise_pair.2 fun h => absurd h (by decide)

/-- A second transport that was opened and not started stands in front of a server that runs: it goes on
and the drive stays locked. -/
theorem driveStop_behind : ¬ ∀ (h : Host) (s : Hub) (n : Nat), HubRun h s n → s.DriversStop →
    ∃ r s', s.vdfDriveStop = some (r, s') ∧ s.Stopped s' := by
  intro hall
  have run : HubRun sampleHost { drive := driveEmpty32 } 0 := HubRun.start rfl rfl
  have opened := @HubRun.kept _ _ _ _ 1 (.openTransport 1 true true true) 0 run rfl id
  have started := @HubRun.kept _ _ _ _ 1 (.start 1 startsWell) 0 opened rfl
    fun hleak => hleak.2.2 ⟨rfl, rfl, rfl⟩
  have second := @HubRun.kept _ _ _ _ 1 (.openTransport 2 true true true) 0 started rfl id
  obtain ⟨r, s', hrun, hstop⟩ := hall _ _ _ second fun t ht hrun => by
    rcases List.mem_cons.1 ht with rfl | ht
    · cases hrun
    · obtain rfl := List.mem_singleton.1 ht
      exact ⟨_, rfl⟩
  cases hrun
  exact Bool.noConfusion (hstop.running 1 (List.mem_cons_of_mem _ List.mem_cons_self))

end Vdf
