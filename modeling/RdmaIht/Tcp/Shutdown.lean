import RdmaIht.Tcp.Broadcast
import RdmaIht.Tcp.Experiment

/-! The end of an experiment.

`main` joins its threads and exits, and the memory pools of the node go with it. On
node 0 it joins the server thread first, on every other node a client that is not
the host. Either of them has ended only after an ack of every client was read.
-/

set_option autoImplicit false

namespace RdmaIht.Tcp

open Concurrency

/-- An element of `threads`. -/
inductive ThreadId where
  | server
  | client (c : ClientId)
  deriving DecidableEq, Repr

/-- The `threads` of a process, in the order in which `main` joins them. -/
def Setup.threads (setup : Setup) (node : Nat) : List ThreadId :=
  (if node = 0 then [.server] else []) ++ (List.range setup.threadCount).map fun t => .client ⟨node, t⟩

def ClientPc.ended : ClientPc → Bool
  | .stopped _ => true
  | _ => false

/-- The function of the thread has returned. -/
def State.ended (s : State) : ThreadId → Bool
  | .server => decide (s.server = .finished)
  | .client c => (s.clients c).ended

/-- The threads, and how many of its threads each `main` has joined. -/
structure Experiment where
  state : State
  joined : Nat → Nat

inductive Move where
  | run (action : Action)
  /-- `t->join()` of the next thread of a process -/
  | join (node : Nat)
  deriving DecidableEq, Repr

def mainExec (setup : Setup) (e : Experiment) : Move → Option Experiment
  | .run action => (exec setup e.state action).map fun s => { e with state := s }
  | .join node =>
    if node < setup.nodeCount ∧ e.state.endpoints node = setup.threadCount then
      match (setup.threads node)[e.joined node]? with
      | none => none
      | some thread =>
        if e.state.ended thread then some { e with joined := Function.update e.joined node (e.joined node + 1) } else none
    else none

def mainInitial : Experiment := ⟨initial, fun _ => 0⟩

/-- `main` has joined all its threads. -/
def Left (setup : Setup) (e : Experiment) (node : Nat) : Prop :=
  node < setup.nodeCount ∧ e.joined node = (setup.threads node).length

/-- The thread applies operations to the `IHT`, in `populate` or for the driver. -/
def ClientPc.applies : ClientPc → Bool
  | .populating _ | .working _ => true
  | _ => false

theorem ClientPc.applies_of_acked {pc : ClientPc} (acked : pc.acked = true) : pc.applies = false := by
  cases pc <;> first | rfl | cases acked

variable {setup : Setup} {h : ClientId}

structure Joined (setup : Setup) (h : ClientId) (e : Experiment) : Prop where
  inv : Inv setup h e.state
  acks : ∀ node, 0 < e.joined node → ∀ c, setup.IsClient c → c ∈ e.state.acks

theorem Inv.all_acks_of_ended {s : State} (inv : Inv setup h s) (first : h.node = 0) {node : Nat} {thread : ThreadId}
    (head : (setup.threads node)[0]? = some thread) (ended : s.ended thread = true) :
    ∀ c, setup.IsClient c → c ∈ s.acks := by
  intro c isClient
  unfold Setup.threads at head
  by_cases server : node = 0
  · rw [if_pos server] at head
    cases head
    have finished : s.server = .finished := of_decide_eq_true ended
    have read := inv.sockets.read
    rw [finished] at read
    rw [read]
    exact inv.sockets.all (inv.sockets.full (by rw [finished]; simp)) isClient
  · rw [if_neg server, List.nil_append, List.getElem?_map] at head
    obtain ⟨t, _, rfl⟩ := Option.map_eq_some_iff.mp head
    have other : (⟨node, t⟩ : ClientId) ≠ h := by
      rintro rfl
      exact server first
    cases at_ : s.clients ⟨node, t⟩ with
    | stopped root => exact inv.clients.barrier _ root other at_ c isClient
    | _ =>
      simp only [State.ended, at_] at ended
      cases ended

theorem Joined.next {e e' : Experiment} {move : Move} (joined : Joined setup h e) (one : setup.OneHost h)
    (first : h.node = 0) (enabled : mainExec setup e move = some e') : Joined setup h e' := by
  cases move with
  | run action =>
    obtain ⟨s, stepped, rfl⟩ := Option.map_eq_some_iff.mp enabled
    refine ⟨joined.inv.next one stepped, fun node some c isClient => ?_⟩
    exact (exec_effect stepped).acks (joined.acks node some c isClient)
  | join node =>
    simp only [mainExec] at enabled
    split at enabled
    · split at enabled
      · cases enabled
      · next thread at_ =>
        split at enabled
        · next ended =>
          cases enabled
          refine ⟨joined.inv, fun node' some c isClient => ?_⟩
          by_cases before : 0 < e.joined node
          · exact joined.acks node before c isClient
          · dsimp only at some
            rw [Function.update_apply] at some
            split at some
            · rw [Nat.eq_zero_of_not_pos before] at at_
              exact joined.inv.all_acks_of_ended first at_ ended c isClient
            · exact joined.acks node' some c isClient
        · cases enabled
    · cases enabled

theorem Joined.reachable {e : Experiment} (one : setup.OneHost h) (first : h.node = 0)
    (reachable : Reachable (mainExec setup) mainInitial e) : Joined setup h e := by
  refine Steps.invariant reachable ⟨.start setup h, fun _ some => absurd some (Nat.lt_irrefl 0)⟩ ?_
  exact fun _ _ _ joined _ enabled => joined.next one first enabled

theorem joined_mono {e e' : Experiment} (run : Reachable (mainExec setup) e e') (node : Nat) :
    e.joined node ≤ e'.joined node := by
  refine Steps.invariant (P := fun e' => e.joined node ≤ e'.joined node) run (Nat.le_refl _) ?_
  intro u move v before _ enabled
  refine Nat.le_trans before ?_
  cases move with
  | run action =>
    obtain ⟨s, _, rfl⟩ := Option.map_eq_some_iff.mp enabled
    exact Nat.le_refl _
  | join node' =>
    simp only [mainExec] at enabled
    split at enabled
    · split at enabled
      · cases enabled
      · split at enabled
        · cases enabled
          dsimp only
          rw [Function.update_apply]
          split
          · next same =>
            rw [same]
            exact Nat.le_succ _
          · exact Nat.le_refl _
        · cases enabled
    · cases enabled

/-- With one pool for each thread, when the `main` of any node has joined all its
threads every client has sent the ack of its `Stop`, and from then on no client
applies an operation. -/
theorem left_after_all_stopped (params : Params) (accepted : params.Accepted) (pools : params.mp = params.threadCount)
    {e e' : Experiment} (reachable : Reachable (mainExec params.setup) mainInitial e) {node : Nat}
    (left : Left params.setup e node) (later : Reachable (mainExec params.setup) e e') {c : ClientId}
    (isClient : params.setup.IsClient c) :
    (e.state.clients c).acked = true ∧ (e'.state.clients c).acked = true ∧ (e'.state.clients c).applies = false := by
  obtain ⟨nodes, threads, positive, _⟩ := id accepted
  have setup_pools : 0 < params.setup.mp := by simp only [Params.setup]; omega
  have setup_threads : 0 < params.setup.threadCount := by simp only [Params.setup]; omega
  have all : params.setup.mp = params.setup.threadCount := by simp only [Params.setup, pools]
  obtain ⟨h, one⟩ := (params.setup.oneHost_iff (by simp only [Params.setup]; omega) setup_pools
    (Nat.le_of_eq all)).mpr all
  have first : h.node = 0 := ((params.setup.isHost_iff setup_pools h).mp one.2.1).1
  have some : 0 < e.joined node := by
    rw [left.2, Setup.threads, List.length_append, List.length_map, List.length_range]
    omega
  have joined := Joined.reachable one first reachable
  have joined' := Joined.reachable one first (Steps.trans reachable later)
  have acked := joined.inv.clients.acked c (joined.acks node some c isClient)
  have acked' := joined'.inv.clients.acked c
    (joined'.acks node (Nat.lt_of_lt_of_le some (joined_mono later node)) c isClient)
  exact ⟨acked, acked', ClientPc.applies_of_acked acked'⟩

/-- The server and the two clients of one node end, and `main` joins them. -/
def joinAll : List Move := (lateHost ++ [Action.server]).map .run ++ List.replicate 3 (.join 0)

theorem left_after_all_stopped_joinAll : ∃ e : Experiment, Reachable (mainExec pair) mainInitial e ∧ Left pair e 0 ∧
    (e.state.clients ⟨0, 1⟩).acked = true ∧ (e.state.clients ⟨0, 1⟩).applies = false := by
  have ran : (runAll (mainExec pair) mainInitial joinAll).map (fun e => e.joined 0) = some 3 := by decide +kernel
  obtain ⟨e, final, count⟩ := Option.map_eq_some_iff.mp ran
  have reachable : Reachable (mainExec pair) mainInitial e := reachable_of_runAll joinAll final
  have left : Left pair e 0 := ⟨by decide, count⟩
  have stopped := left_after_all_stopped ⟨2, 1, 10⟩ (by decide) (by decide) reachable left (.refl e)
    (show pair.IsClient ⟨0, 1⟩ by decide)
  exact ⟨e, reachable, left, stopped.1, stopped.2.2⟩

end RdmaIht.Tcp
