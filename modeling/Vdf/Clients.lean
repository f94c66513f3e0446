import Vdf.Lib.Word
import Mathlib.Data.List.Basic

/-!
# The clients of the NBD server

`nbdserv_process` accepts a client and starts its thread, which ends in `free_client`. Both change the
list of the clients, their number and the flags of the transport, each in one step.

The list is meant to have the clients whose threads run. But the test of what `pthread_create` returns
is the one for `CreateThread`, which returns a handle: 0 is taken for a failure.
-/

namespace Vdf

open Word

/-- `nbd_client`, without its address and its socket. -/
structure NbdClient where
  id : Nat
  deleted : Bool := false
  deriving DecidableEq, Repr

/-- `nbds_data` with the flags of its transport and what is allocated. `threads` and `failed` record what
really happened: the clients whose threads were created and did not end, and whether an accept failed. -/
structure NbdServer where
  clients : List Nat := []
  numClients : Int := 0
  active : Bool := false
  error : Bool := false
  err : Int := 0
  nextId : Nat := 0
  client : Nat → Option NbdClient := fun _ => none
  fresh : Nat := 0
  threads : List Nat := []
  failed : Bool := false

/-- What an accept meets: no client, no memory, or what the thread call returns. -/
inductive Accept where
  | invalid
  | noMemory
  | thread (ret : Int)
  deriving DecidableEq, Repr

/-- `free_client` of a client that is no more. -/
inductive ClientFault where
  | freed
  deriving DecidableEq, Repr

def enomem : Int := 12

namespace NbdServer

def setClient (s : NbdServer) (cli : Nat) (c : Option NbdClient) : NbdServer :=
  { s with client := fun x => if x = cli then c else s.client x }

/-- `trans_set_error`. -/
def transSetError (s : NbdServer) (err : Int) : NbdServer := { s with error := true, err }

/-- `trans_set_active`. -/
def transSetActive (s : NbdServer) (active : Bool) : NbdServer := { s with active }

/-- The client that is allocated, and the thread, if there is one. -/
def allocated (s : NbdServer) (made : Bool) : NbdServer :=
  { s.setClient s.fresh (some { id := u32 (s.nextId + 1) }) with
    nextId := u32 (s.nextId + 1), fresh := s.fresh + 1
    threads := if made then s.threads ++ [s.fresh] else s.threads
    failed := s.failed || !made }

/-- `nbdserv_process`, where `created` says for which return values there is a thread. -/
def nbdservProcess (created : Int → Bool) (s : NbdServer) : Accept → Int × NbdServer
  | .invalid => (0, s)
  | .noMemory => (-1, { s.transSetError enomem with failed := true })
  | .thread ret =>
    let cli := s.fresh
    let s := s.allocated (created ret)
    if ret = 0 then (-1, (s.transSetError (-ret)).setClient cli none)
    else (0, { s with clients := s.clients ++ [cli], numClients := s.numClients + 1 }.transSetActive
      true)

/-- `free_client`, with which a thread ends. -/
def freeClient (s : NbdServer) (cli : Nat) : Except ClientFault NbdServer :=
  match s.client cli with
  | none => .error .freed
  | some c =>
    if c.deleted then .ok s
    else
      let num := s.numClients - 1
      let s := { s with clients := s.clients.erase cli, numClients := num }
      let s := if num = 0 then s.transSetActive false else s
      .ok { s.setClient cli none with threads := s.threads.erase cli }

end NbdServer

/-- A step of the server. -/
inductive NbdEvent where
  | accept (a : Accept)
  | leave (cli : Nat)
  deriving DecidableEq, Repr

/-- The steps of a server that was opened, in any order. -/
inductive ServerRun (created : Int → Bool) : List NbdEvent → NbdServer → Prop where
  | start : ServerRun created [] {}
  | accept {es : List NbdEvent} {s : NbdServer} (run : ServerRun created es s) (a : Accept) :
      ServerRun created (es ++ [.accept a]) (s.nbdservProcess created a).2
  | leave {es : List NbdEvent} {s s' : NbdServer} (run : ServerRun created es s) {cli : Nat}
      (hcli : cli ∈ s.threads) (hfree : s.freeClient cli = .ok s') :
      ServerRun created (es ++ [.leave cli]) s'

/-- What the server keeps tells which threads run, and an error tells that an accept failed. -/
structure ClientsAgree (s : NbdServer) : Prop where
  clients : s.clients = s.threads
  num : s.numClients = s.threads.length
  active : s.active = true ↔ 0 < s.threads.length
  error : s.error = true → s.failed = true

/-- The clients of the list are allocated, and each is there once. -/
structure ClientsHeld (s : NbdServer) : Prop where
  nodup : s.clients.Nodup
  lt : ∀ cli ∈ s.clients, cli < s.fresh
  held : ∀ cli ∈ s.clients, ∃ c, s.client cli = some c ∧ c.deleted = false

/-! ## Steps -/

section Steps

variable {created : Int → Bool} {s s' : NbdServer} {ret : Int} {cli : Nat}

theorem ClientsHeld.accept (h : ClientsHeld s) (a : Accept) :
    ClientsHeld (s.nbdservProcess created a).2 := by
  have hne : ∀ cli ∈ s.clients, cli ≠ s.fresh := fun cli hcli => Nat.ne_of_lt (h.lt cli hcli)
  cases a with
  | invalid => exact h
  | noMemory => exact ⟨h.nodup, h.lt, h.held⟩
  | thread ret =>
    simp only [NbdServer.nbdservProcess]
    split
    · refine ⟨h.nodup, fun cli hcli => Nat.lt_succ_of_lt (h.lt cli hcli), fun cli hcli => ?_⟩
      obtain ⟨c, hc, hd⟩ := h.held cli hcli
      refine ⟨c, ?_, hd⟩
      simp [NbdServer.setClient, NbdServer.allocated, NbdServer.transSetError, hne cli hcli, hc]
    · refine ⟨?_, fun cli hcli => ?_, fun cli hcli => ?_⟩
      · refine List.nodup_append.2 ⟨h.nodup, by simp, fun a ha b hb => ?_⟩
        rw [List.mem_singleton.1 hb]
        exact hne a ha
      · rcases List.mem_append.1 hcli with hcli | hcli
        · exact Nat.lt_succ_of_lt (h.lt cli hcli)
        · rw [List.mem_singleton.1 hcli]
          exact Nat.lt_succ_self _
      · rcases List.mem_append.1 hcli with hcli | hcli
        · obtain ⟨c, hc, hd⟩ := h.held cli hcli
          refine ⟨c, ?_, hd⟩
          simp [NbdServer.setClient, NbdServer.allocated, NbdServer.transSetActive, hne cli hcli, hc]
        · refine ⟨{ id := u32 (s.nextId + 1) }, ?_, rfl⟩
          simp [NbdServer.setClient, NbdServer.allocated, NbdServer.transSetActive,
            List.mem_singleton.1 hcli]

/-- What an accept changes of what is to agree: 0 is an error, everything else a client. -/
theorem nbdservProcess_thread (created : Int → Bool) (s : NbdServer) (ret : Int) :
    let s' := (s.nbdservProcess created (.thread ret)).2
    s'.threads = (if created ret then s.threads ++ [s.fresh] else s.threads) ∧
      s'.failed = (s.failed || !created ret) ∧
      s'.clients = (if ret = 0 then s.clients else s.clients ++ [s.fresh]) ∧
      s'.numClients = (if ret = 0 then s.numClients else s.numClients + 1) ∧
      s'.active = (if ret = 0 then s.active else true) ∧
      s'.error = (if ret = 0 then true else s.error) := by
  by_cases hret : ret = 0 <;>
    simp [NbdServer.nbdservProcess, hret, NbdServer.setClient, NbdServer.transSetError,
      NbdServer.allocated, NbdServer.transSetActive]

/-- An accept keeps the agreement exactly where a thread is there for every return value but 0. -/
theorem accept_agree_iff (h : ClientsAgree s) :
    ClientsAgree (s.nbdservProcess created (.thread ret)).2 ↔ (created ret = true ↔ ret ≠ 0) := by
  obtain ⟨hthreads, hfailed, hclients, hnum, hactive, herror⟩ :=
    nbdservProcess_thread created s ret
  generalize (s.nbdservProcess created (.thread ret)).2 = s' at *
  generalize created ret = made at *
  have hlen : s.threads ≠ s.threads ++ [s.fresh] := by simp
  by_cases hret : ret = 0 <;> cases made <;>
    simp only [hret, ↓reduceIte, Bool.false_eq_true, Bool.not_true, Bool.not_false,
      Bool.or_false, Bool.or_true] at hthreads hfailed hclients hnum hactive herror
  · simp only [Bool.false_eq_true, hret, ne_eq, not_true_eq_false, iff_true]
    exact ⟨by rw [hclients, hthreads, h.clients], by rw [hnum, hthreads, h.num],
      by rw [hactive, hthreads, h.active], fun _ => hfailed⟩
  · simp only [hret, ne_eq, not_true_eq_false, iff_false]
    intro h'
    have := h'.clients
    rw [hclients, hthreads, h.clients] at this
    exact hlen this
  · simp only [Bool.false_eq_true, hret, ne_eq, not_false_eq_true, iff_true, iff_false]
    intro h'
    have := h'.clients
    rw [hclients, hthreads, h.clients] at this
    exact hlen this.symm
  · simp only [hret, ne_eq, not_false_eq_true, iff_true]
    refine ⟨by rw [hclients, hthreads, h.clients], ?_, ?_, fun he => ?_⟩
    · rw [hnum, hthreads, h.num, List.length_append]
      rfl
    · rw [hactive, hthreads, List.length_append]
      simp
    · rw [hfailed]
      exact h.error (by rwa [← herror])

/-- A thread that ends keeps it, and finds its client. -/
theorem leave_agree (h : ClientsAgree s) (hh : ClientsHeld s) (hcli : cli ∈ s.threads) :
    ∃ s', s.freeClient cli = .ok s' ∧ ClientsAgree s' ∧ ClientsHeld s' := by
  have hmem : cli ∈ s.clients := by rwa [h.clients]
  obtain ⟨c, hc, hd⟩ := hh.held cli hmem
  have hpos : 0 < s.threads.length := List.length_pos_of_mem hcli
  have hlen := List.length_erase_of_mem hcli
  have hactive := h.active.2 hpos
  have hnum := h.num
  have herase : ∀ x ∈ s.clients.erase cli, x ∈ s.clients ∧ x ≠ cli := fun x hx =>
    ⟨List.mem_of_mem_erase hx, fun e => (hh.nodup.not_mem_erase (e ▸ hx))⟩
  refine ⟨_, by simp [NbdServer.freeClient, hc, hd]; rfl, ?_, ?_⟩
  · by_cases hlast : s.numClients - 1 = 0
    · simp only [hlast, ↓reduceIte, NbdServer.setClient, NbdServer.transSetActive]
      refine ⟨by rw [h.clients], ?_, ?_, h.error⟩
      · dsimp only
        omega
      · simp only [Bool.false_eq_true, false_iff]
        omega
    · simp only [hlast, ↓reduceIte, NbdServer.setClient]
      refine ⟨by rw [h.clients], ?_, ?_, h.error⟩
      · dsimp only
        omega
      · simp only [hactive, true_iff]
        omega
  · have hheld : ∀ x ∈ s.clients.erase cli, ∃ c, (if x = cli then none else s.client x) = some c ∧
        c.deleted = false := by
      intro x hx
      obtain ⟨hxm, hne⟩ := herase x hx
      rw [if_neg hne]
      exact hh.held x hxm
    split <;> exact ⟨hh.nodup.erase cli, fun x hx => hh.lt x (herase x hx).1, hheld⟩

end Steps

/-! ## Runs -/

section Runs

variable {created : Int → Bool} {es : List NbdEvent} {s : NbdServer}

/-- The return values that the accepts of a run meet are 0 where there is no thread. -/
def HandleReturned (created : Int → Bool) (es : List NbdEvent) : Prop :=
  ∀ ret, .accept (.thread ret) ∈ es → (created ret = true ↔ ret ≠ 0)

theorem HandleReturned.mono {es' : List NbdEvent} (h : HandleReturned created es)
    (hsub : es' ⊆ es) : HandleReturned created es' := fun ret hret => h ret (hsub hret)

/-- What the server keeps agrees where all return values are of that kind. -/
theorem ServerRun.agree (run : ServerRun created es s) (hok : HandleReturned created es) :
    ClientsAgree s ∧ ClientsHeld s := by
  induction run with
  | start => exact ⟨⟨rfl, rfl, by decide, nofun⟩, ⟨List.nodup_nil, nofun, nofun⟩⟩
  | accept run a ih =>
    obtain ⟨h, hh⟩ := ih (hok.mono (List.subset_append_left _ _))
    refine ⟨?_, hh.accept a⟩
    cases a with
    | invalid => exact h
    | noMemory => exact ⟨h.clients, h.num, h.active, fun _ => rfl⟩
    | thread ret => exact (accept_agree_iff h).2 (hok ret (by simp))
  | leave run hcli hfree ih =>
    obtain ⟨h, hh⟩ := ih (hok.mono (List.subset_append_left _ _))
    obtain ⟨s', hs', hagree⟩ := leave_agree h hh hcli
    rw [hfree] at hs'
    cases hs'
    exact hagree

/-- What the server keeps agrees in every state of a run exactly where the thread call of each accept
returned 0 for a failure only. -/
theorem clients_agree_iff (run : ServerRun created es s) :
    (∀ es' s', es' <+: es → ServerRun created es' s' → ClientsAgree s') ↔
      HandleReturned created es := by
  constructor
  · intro h
    induction run with
    | start => exact nofun
    | accept run a ih =>
      rename_i es s
      have hprefix := List.prefix_append es [.accept a]
      have hbefore := ih fun es' s' hes => h es' s' (hes.trans hprefix)
      intro ret hret
      rcases List.mem_append.1 hret with hret | hret
      · exact hbefore ret hret
      · cases List.mem_singleton.1 hret
        exact (accept_agree_iff (h es s hprefix run)).1 (h _ _ (List.prefix_refl _) (run.accept _))
    | leave run hcli hfree ih =>
      rename_i es s s' cli
      have hbefore := ih fun es' s' hes => h es' s' (hes.trans (List.prefix_append es [.leave cli]))
      intro ret hret
      rcases List.mem_append.1 hret with hret | hret
      · exact hbefore ret hret
      · cases List.mem_singleton.1 hret
  · exact fun hok es' s' hes run' => (run'.agree (hok.mono hes.subset)).1

/-- `pthread_create` returns 0 where there is a thread. -/
def pthreadCreated (ret : Int) : Bool := ret = 0

/-- On the POSIX build it agrees in every state of a run exactly where no accept comes as far as
`pthread_create`. -/
theorem posix_clients_agree_iff (run : ServerRun pthreadCreated es s) :
    (∀ es' s', es' <+: es → ServerRun pthreadCreated es' s' → ClientsAgree s') ↔
      ∀ ret, NbdEvent.accept (.thread ret) ∉ es := by
  rw [clients_agree_iff run]
  refine forall_congr' fun ret => ?_
  simp [pthreadCreated]

/-- The first client that is accepted: its thread runs, but it is no client, and the transport has an error
that is none. -/
theorem pthread_success_refused : ∃ s, ServerRun pthreadCreated [.accept (.thread 0)] s ∧
    s.threads = [0] ∧ s.clients = [] ∧ s.numClients = 0 ∧ s.active = false ∧ s.error = true ∧
    s.failed = false ∧ s.freeClient 0 = .error .freed :=
  ⟨_, ServerRun.start.accept _, rfl, rfl, rfl, rfl, rfl, rfl, rfl⟩

/-- No client, and no memory for one. -/
theorem posix_clients_agree_sample : ∃ s,
    ServerRun pthreadCreated [.accept .invalid, .accept .noMemory] s ∧ ClientsAgree s := by
  have started : ServerRun pthreadCreated [] {} := ServerRun.start
  have run := (started.accept .invalid).accept .noMemory
  exact ⟨_, run, (posix_clients_agree_iff run).2 (by simp) _ _ (List.prefix_refl _) run⟩

end Runs

end Vdf
