import RdmaIht.Tcp.Invariant

/-! The parameters of an experiment decide which client threads are hosts.

`main` gives the threads of a node its memory pools in turn and takes the id of the
pool for the identity of the thread. With one host, all clients that leave
`ExchangePointer` have its root pointer.
-/

set_option autoImplicit false

namespace RdmaIht.Tcp

open Concurrency

/-- `ExperimentParams`, as far as `main` places the clients by them. -/
structure Params where
  threadCount : Int
  nodeCount : Int
  qpMax : Int
  deriving DecidableEq, Repr

namespace Params

variable (params : Params)

/-- `std::min(params.thread_count(), (int) std::floor(params.qp_max() / params.node_count()))`, and 1 for 0. -/
def mp : Int :=
  let pools := min params.threadCount (params.qpMax.tdiv params.nodeCount)
  if pools = 0 then 1 else pools

/-- `main` gets to the client threads: the counts are positive, the `uint16_t` loops over
the peers and the endpoints end, and there is a pool. -/
def Accepted : Prop :=
  0 < params.nodeCount ∧ 0 < params.threadCount ∧ 0 < params.mp ∧ params.mp * params.nodeCount < 2 ^ 16 ∧
    params.threadCount < 2 ^ 16

instance : Decidable params.Accepted := inferInstanceAs (Decidable (_ ∧ _))

def setup : Setup := ⟨params.nodeCount.toNat, params.threadCount.toNat, params.mp.toNat⟩

theorem mp_le (threads : 0 < params.threadCount) : params.mp ≤ params.threadCount := by
  simp only [mp]
  split <;> omega

theorem mp_eq_iff (accepted : params.Accepted) : params.mp = params.threadCount ↔
    params.threadCount = 1 ∨ params.threadCount * params.nodeCount ≤ params.qpMax := by
  obtain ⟨nodes, threads, pools, _⟩ := accepted
  rcases Int.le_total 0 params.qpMax with positive | negative
  · have share : params.threadCount ≤ params.qpMax.tdiv params.nodeCount ↔
        params.threadCount * params.nodeCount ≤ params.qpMax := by
      rw [Int.tdiv_eq_ediv_of_nonneg positive]
      exact Int.le_ediv_iff_mul_le nodes
    rw [← share]
    have nonneg : 0 ≤ params.qpMax.tdiv params.nodeCount := Int.tdiv_nonneg positive (Int.le_of_lt nodes)
    simp only [mp]
    split <;> omega
  · have share : params.qpMax.tdiv params.nodeCount ≤ 0 := by
      have opposite : 0 ≤ (-params.qpMax).tdiv params.nodeCount := Int.tdiv_nonneg (by omega) (Int.le_of_lt nodes)
      rw [Int.neg_tdiv] at opposite
      omega
    have product : 0 < params.threadCount * params.nodeCount := Int.mul_pos threads nodes
    simp only [mp] at pools ⊢
    split at pools <;> omega

end Params

namespace Setup

variable (setup : Setup)

/-- The host is thread 0 of node 0, or a thread of node 0 that shares its pool. -/
theorem isHost_iff (pools : 0 < setup.mp) (c : ClientId) :
    setup.IsHost c ↔ c.node = 0 ∧ c.thread % setup.mp = 0 := by
  simp only [IsHost, selfId, hostId, Nat.add_eq_zero_iff, Nat.mul_eq_zero]
  omega

theorem oneHost_iff (nodes : 0 < setup.nodeCount) (pools : 0 < setup.mp) (le : setup.mp ≤ setup.threadCount) :
    (∃ h, setup.OneHost h) ↔ setup.mp = setup.threadCount := by
  have first : setup.IsHost ⟨0, 0⟩ := by simp [setup.isHost_iff pools]
  have isClient : setup.IsClient ⟨0, 0⟩ := ⟨nodes, by dsimp only; omega⟩
  constructor
  · rintro ⟨h, _, _, only⟩
    by_contra fewer
    -- thread `mp` has the same pool as thread 0
    have second : setup.IsHost ⟨0, setup.mp⟩ := by simp [setup.isHost_iff pools]
    have isClient' : setup.IsClient ⟨0, setup.mp⟩ := ⟨nodes, by dsimp only; omega⟩
    have same := (only _ isClient first).trans (only _ isClient' second).symm
    injection same with _ thread
    omega
  · intro all
    refine ⟨⟨0, 0⟩, isClient, first, fun c member isHost => ?_⟩
    obtain ⟨node, thread⟩ := (setup.isHost_iff pools c).mp isHost
    rw [Nat.mod_eq_of_lt (by rw [all]; exact member.2)] at thread
    cases c
    cases node
    cases thread
    rfl

/-- One thread is the host, and in every run the threads that have a root pointer have the same. -/
def OneTable : Prop :=
  (∃ h, setup.OneHost h) ∧ ∀ s, Reachable (exec setup) initial s → ∀ c c' root root',
    (s.clients c).root = some root → (s.clients c').root = some root' → root = root'

end Setup

/-- All clients work on one table exactly when each thread has a pool of its own. -/
theorem oneTable_iff (params : Params) (accepted : params.Accepted) : params.setup.OneTable ↔
    params.threadCount = 1 ∨ params.threadCount * params.nodeCount ≤ params.qpMax := by
  obtain ⟨nodes, threads, pools, _⟩ := id accepted
  have le := params.mp_le threads
  have hosts := params.setup.oneHost_iff (by simp only [Params.setup]; omega) (by simp only [Params.setup]; omega)
    (by simp only [Params.setup]; omega)
  rw [← params.mp_eq_iff accepted]
  constructor
  · intro one
    have all := hosts.mp one.1
    simp only [Params.setup] at all
    omega
  · intro all
    obtain ⟨h, one⟩ := hosts.mpr (by simp only [Params.setup, all])
    refine ⟨⟨h, one⟩, fun s reachable c c' root root' has has' => ?_⟩
    have inv := Inv.reachable one reachable
    have shared := inv.clients.shared c root has
    rw [inv.clients.shared c' root' has'] at shared
    exact (Option.some.inj shared).symm

theorem oneTable_iff_tenThreads : (Params.mk 10 1 30).setup.OneTable :=
  (oneTable_iff ⟨10, 1, 30⟩ (by decide)).mpr (by decide)

/-- 16 threads a node share 15 pools: threads 0 and 15 of node 0 both make a table. -/
def twoTables : List Action :=
  List.replicate 16 (.connect 0) ++ List.replicate 2 (.client ⟨0, 0⟩) ++ List.replicate 2 (.client ⟨0, 15⟩)

theorem not_oneTable_twoTables : ¬ ∀ params : Params, params.Accepted → params.setup.OneTable := by
  intro claimed
  have ran : (runAll (exec (Params.mk 16 2 30).setup) initial twoTables).map
      (fun s => ((s.clients ⟨0, 0⟩).root, (s.clients ⟨0, 15⟩).root)) = some (some ⟨0, 1⟩, some ⟨0, 2⟩) := by
    decide +kernel
  obtain ⟨s, final, roots⟩ := Option.map_eq_some_iff.mp ran
  injection roots with root root'
  have same := (claimed ⟨16, 2, 30⟩ (by decide)).2 s (reachable_of_runAll twoTables final) _ _ _ _ root root'
  cases same

end RdmaIht.Tcp
