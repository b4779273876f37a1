import Mathlib.Algebra.BigOperators.Group.Finset.Piecewise
import Mathlib.Algebra.Group.Action.Defs
import RdmaIht.Concurrency.Termination
import RdmaIht.Tcp.Shutdown

/-! Every run of an experiment ends.

Each step takes a thread, a process or the loop of the server one point further, so
the steps that are left are bounded from any state. No step retries: where a
thread has to wait its step is not enabled.
-/

set_option autoImplicit false

namespace RdmaIht.Tcp

open Concurrency

def ClientPc.remaining (total : Nat) : ClientPc → Nat
  | .start => total + 9
  | .sendRoot _ i => total - i + 8
  | .recvRoot => 8
  | .populating _ => 7
  | .atBarrier _ k => if k = 1 then 6 else if k = 2 then 5 else 3
  | .working _ => 4
  | .stopping _ => 2
  | .recvAck _ => 1
  | .stopped _ => 0

def ServerPc.remaining (total : Nat) : ServerPc → Nat
  | .accepting => total + total + 4
  | .waiting => total + total + 3
  | .recvAcks i => total - i + total + 2
  | .sendAcks i => total - i + 1
  | .finished => 0

namespace Setup

variable (setup : Setup)

def connectsLeft (endpoints : Nat → Nat) : Nat :=
  ∑ n ∈ Finset.range setup.nodeCount, (setup.threadCount - endpoints n)

def clientsLeft (clients : ClientId → ClientPc) : Nat :=
  ∑ c ∈ setup.clients.toFinset, (clients c).remaining setup.total

def joinsLeft (joined : Nat → Nat) : Nat :=
  ∑ n ∈ Finset.range setup.nodeCount, ((setup.threads n).length - joined n)

def stepsLeft (s : State) : Nat :=
  setup.connectsLeft s.endpoints + (setup.total - s.clientSockets.length) + s.server.remaining setup.total +
    setup.clientsLeft s.clients

def movesLeft (e : Experiment) : Nat := setup.stepsLeft e.state + setup.joinsLeft e.joined

/-- A bound on the moves of an experiment with `total` clients. -/
def moveBound : Nat := setup.total * (setup.total + 14) + 5

end Setup

variable {setup : Setup} {s s' : State}

theorem Setup.connectsLeft_lt {endpoints : Nat → Nat} {node : Nat} (node_lt : node < setup.nodeCount)
    (room : endpoints node < setup.threadCount) :
    setup.connectsLeft (Function.update endpoints node (endpoints node + 1)) < setup.connectsLeft endpoints :=
  sum_update_lt (fun _ count => setup.threadCount - count) (Finset.mem_range.mpr node_lt) (by omega)

theorem Setup.clientsLeft_lt {clients : ClientId → ClientPc} {c : ClientId} {pc' : ClientPc}
    (isClient : setup.IsClient c) (less : pc'.remaining setup.total < (clients c).remaining setup.total) :
    setup.clientsLeft (Function.update clients c pc') < setup.clientsLeft clients :=
  sum_update_lt (fun _ pc => ClientPc.remaining setup.total pc)
    (List.mem_toFinset.mpr ((setup.mem_clients c).mpr isClient)) less

theorem Setup.joinsLeft_lt {joined : Nat → Nat} {node : Nat} (node_lt : node < setup.nodeCount)
    (room : joined node < (setup.threads node).length) :
    setup.joinsLeft (Function.update joined node (joined node + 1)) < setup.joinsLeft joined :=
  sum_update_lt (fun n count => (setup.threads n).length - count) (Finset.mem_range.mpr node_lt) (by omega)

def Room (setup : Setup) (s : State) : Prop := s.clientSockets.length ≤ setup.total

theorem ServerBranch.stepsLeft_lt (branch : ServerBranch setup s s') (room : Room setup s) :
    Room setup s' ∧ setup.stepsLeft s' < setup.stepsLeft s := by
  unfold Room at room
  have socket_lt : ∀ {i : Nat} {c : ClientId}, s.clientSockets[i]? = some c → i < setup.total := by
    intro i c socket
    obtain ⟨inside, _⟩ := List.getElem?_eq_some_iff.mp socket
    omega
  cases branch with
  | accepted server | waited server | received server | sent server =>
    refine ⟨room, ?_⟩
    simp only [Setup.stepsLeft, server, ServerPc.remaining]
    omega
  | readAck server socket | writeAck server socket =>
    refine ⟨room, ?_⟩
    have inside := socket_lt socket
    simp only [Setup.stepsLeft, State.write, server, ServerPc.remaining]
    omega

/-- A step of a client changes, of what is left, only its own share. -/
theorem Setup.stepsLeft_client {c : ClientId} {pc' : ClientPc} (isClient : setup.IsClient c)
    (clients : s'.clients = Function.update s.clients c pc') (server : s'.server = s.server)
    (sockets : s'.clientSockets = s.clientSockets) (endpoints : s'.endpoints = s.endpoints)
    (less : pc'.remaining setup.total < (s.clients c).remaining setup.total) :
    setup.stepsLeft s' < setup.stepsLeft s := by
  have share := setup.clientsLeft_lt isClient less
  simp only [Setup.stepsLeft, clients, server, sockets, endpoints]
  omega

theorem ClientBranch.stepsLeft_lt {c : ClientId} (isClient : setup.IsClient c) (branch : ClientBranch setup s c s')
    (room : Room setup s) : Room setup s' ∧ setup.stepsLeft s' < setup.stepsLeft s := by
  cases branch with
  | host point | guest point | sent point | readRoot point | populated point | worked point | sendAck point
  | readLast point =>
    refine ⟨room, setup.stepsLeft_client isClient rfl rfl rfl rfl ?_⟩
    rw [point]
    simp only [ClientPc.remaining]
    first | omega | simp
  | writeRoot sending socket =>
    refine ⟨room, setup.stepsLeft_client isClient rfl rfl rfl rfl ?_⟩
    obtain ⟨inside, _⟩ := List.getElem?_eq_some_iff.mp socket
    unfold Room at room
    rw [sending]
    simp only [ClientPc.remaining]
    omega
  | @barrier root k point =>
    unfold afterBarrier
    split
    · refine ⟨room, setup.stepsLeft_client isClient rfl rfl rfl rfl ?_⟩
      rw [point]
      simp [ClientPc.remaining]
    · refine ⟨room, setup.stepsLeft_client isClient rfl rfl rfl rfl ?_⟩
      rw [point]
      simp [ClientPc.remaining]
    · refine ⟨room, setup.stepsLeft_client isClient rfl rfl rfl rfl ?_⟩
      rw [point]
      simp only [ClientPc.remaining]
      split <;> omega

theorem exec_stepsLeft_lt {action : Action} (room : Room setup s) (enabled : exec setup s action = some s') :
    Room setup s' ∧ setup.stepsLeft s' < setup.stepsLeft s := by
  cases action with
  | connect node =>
    simp only [exec] at enabled
    split at enabled
    · next allowed =>
      cases enabled
      have less := setup.connectsLeft_lt allowed.1 allowed.2
      refine ⟨room, ?_⟩
      simp only [Setup.stepsLeft]
      omega
    · cases enabled
  | accept c =>
    simp only [exec] at enabled
    split at enabled
    · next allowed =>
      cases enabled
      have free := allowed.2.1
      constructor
      · simp only [Room, List.length_append, List.length_singleton]
        omega
      · simp only [Setup.stepsLeft, List.length_append, List.length_singleton]
        omega
    · cases enabled
  | server => exact (serverStep_branch enabled).stepsLeft_lt room
  | client c =>
    simp only [exec] at enabled
    split at enabled
    · next isClient => exact (clientStep_branch enabled).stepsLeft_lt isClient room
    · cases enabled

theorem mainExec_lowers (setup : Setup) :
    Lowers (mainExec setup) (fun e => Room setup e.state) setup.movesLeft := by
  have step : ∀ e move e', Room setup e.state → mainExec setup e move = some e' →
      Room setup e'.state ∧ setup.movesLeft e' < setup.movesLeft e := by
    intro e move e' room enabled
    cases move with
    | run action =>
      obtain ⟨s', stepped, rfl⟩ := Option.map_eq_some_iff.mp enabled
      obtain ⟨room', less⟩ := exec_stepsLeft_lt room stepped
      refine ⟨room', ?_⟩
      simp only [Setup.movesLeft]
      omega
    | join node =>
      simp only [mainExec] at enabled
      split at enabled
      · next allowed =>
        split at enabled
        · cases enabled
        · next thread at_ =>
          split at enabled
          · cases enabled
            obtain ⟨inside, _⟩ := List.getElem?_eq_some_iff.mp at_
            have less := setup.joinsLeft_lt allowed.1 inside
            refine ⟨room, ?_⟩
            simp only [Setup.movesLeft]
            omega
          · cases enabled
      · cases enabled
  exact ⟨fun e move e' room enabled => (step e move e' room enabled).1,
    fun e move e' room enabled => (step e move e' room enabled).2⟩

theorem room_initial (setup : Setup) : Room setup mainInitial.state := Nat.zero_le _

theorem Setup.length_threads (setup : Setup) (node : Nat) :
    (setup.threads node).length = setup.threadCount + if node = 0 then 1 else 0 := by
  unfold Setup.threads
  split <;> simp

/-- A process has a client thread, which is joined before the process leaves. -/
theorem Left.began {setup : Setup} {e : Experiment} {node : Nat} (left : Left setup e node) {c : ClientId}
    (isClient : setup.IsClient c) : 0 < e.joined node := by
  have threads := isClient.2
  rw [left.2, setup.length_threads]
  omega

theorem Setup.movesLeft_initial (setup : Setup) : setup.movesLeft mainInitial ≤ setup.moveBound := by
  have connects : setup.connectsLeft initial.endpoints = setup.total := by
    simp [Setup.connectsLeft, initial, Setup.total, Nat.mul_comm]
  have clients : setup.clientsLeft initial.clients ≤ setup.total * (setup.total + 9) := by
    simp only [Setup.clientsLeft, initial, ClientPc.remaining, Finset.sum_const, smul_eq_mul]
    have card := List.toFinset_card_le setup.clients
    rw [setup.length_clients] at card
    exact Nat.mul_le_mul_right _ card
  have joins : setup.joinsLeft mainInitial.joined ≤ setup.total + 1 := by
    simp only [Setup.joinsLeft, mainInitial, Nat.sub_zero, setup.length_threads, Finset.sum_add_distrib,
      Finset.sum_const, Finset.card_range, smul_eq_mul, Finset.sum_ite_eq', Setup.total, Nat.mul_comm]
    split <;> omega
  have sockets : initial.clientSockets.length = 0 := rfl
  simp only [Setup.movesLeft, Setup.stepsLeft, show mainInitial.state = initial from rfl, connects, sockets,
    show initial.server = .accepting from rfl, ServerPc.remaining, Setup.moveBound, Nat.mul_add] at clients ⊢
  omega

/-- An experiment makes at most `total * (total + 14) + 5` moves, whatever their order. -/
theorem run_bounded (setup : Setup) {e : Experiment} (schedule : List Move)
    (ran : runAll (mainExec setup) mainInitial schedule = some e) : schedule.length ≤ setup.moveBound := by
  have bounded := (mainExec_lowers setup).length_le schedule (room_initial setup) ran
  have start := setup.movesLeft_initial
  omega

theorem run_bounded_joinAll : joinAll.length ≤ pair.moveBound := by
  have ran : (runAll (mainExec pair) mainInitial joinAll).isSome = true := by decide +kernel
  obtain ⟨e, final⟩ := Option.isSome_iff_exists.mp ran
  exact run_bounded pair joinAll final

end RdmaIht.Tcp
