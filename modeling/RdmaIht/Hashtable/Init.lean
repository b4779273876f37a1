import RdmaIht.Hashtable.Run
import RdmaIht.RootExchange

/-! `Hashtable` from `Init` on.

The host's `Init` makes the table and sends the address of its root to the other
nodes. The threads of a node call the table with the root pointer of that node,
from the return of its `Init` on, while other nodes may still be in theirs.
-/

set_option autoImplicit false

namespace RdmaIht.Hashtable

open Concurrency

variable {K V : Type} [DecidableEq K]

def Action.thread : Action K V → Nat
  | .invoke client _ | .tryRehash client | .step client => client

/-- The nodes with what they share, the table. -/
abbrev Session (K V : Type) := RootExchange.State (State K V)

inductive SessionAction (K V : Type) where
  /-- a step of a node in `Init` -/
  | init (action : RootExchange.Action)
  /-- a step of a thread on the table -/
  | call (action : Action K V)

section Exec

variable (T : Template K V) (host : Nat) (peers : List Nat) (peer : Nat → Nat)

/-- `Hashtable::Init` on all nodes. -/
def initExec : Session K V → RootExchange.Action → Option (Session K V) :=
  RootExchange.exec host peers (initial T host).root.address (initial T host)

def onTable (s : Session K V) (root : RemotePtr) (action : Action K V) : Option (Session K V) :=
  s.shared.bind fun table => (exec T peer { table with root := root } action).map fun table' =>
    { s with shared := some { table' with root := table.root } }

def sessionExec (s : Session K V) : SessionAction K V → Option (Session K V)
  | .init action => initExec T host peers s action
  | .call action =>
    if s.pcs (peer action.thread) = .returned true then
      (s.roots (peer action.thread)).bind fun root => onTable T peer s root action
    else none

end Exec

variable {T : Template K V} {host : Nat} {peers : List Nat} {peer : Nat → Nat} {s s' : Session K V}

theorem exec_root {table table' : State K V} {action : Action K V} (enabled : exec T peer table action = some table') :
    table'.root = table.root := by
  rcases exec_cases enabled with ⟨_, _, _, _, rfl⟩ | ⟨_, _, _, _, rfl⟩ | ⟨_, _, _, rfl⟩ | ⟨_, _, _, _, _, _, _, _, _, rfl⟩ |
    ⟨_, _, _, _, _, _, _, rfl⟩ <;> rfl

theorem root_of_reachable {table : State K V} (run : Reachable (exec T peer) (initial T host) table) :
    table.root = (initial T host).root :=
  run.invariant (P := fun table => table.root = (initial T host).root) rfl
    fun _ _ _ same _ enabled => (exec_root enabled).trans same

theorem threads_frame {table table' : State K V} {action : Action K V} (enabled : exec T peer table action = some table')
    {c : Nat} (other : c ≠ action.thread) : table'.threads c = table.threads c := by
  rcases exec_cases enabled with ⟨_, _, rfl, _, rfl⟩ | ⟨_, rfl, _, _, rfl⟩ | ⟨_, _, _, rfl⟩ |
    ⟨_, _, _, _, _, _, rfl, _, _, rfl⟩ | ⟨_, _, _, _, rfl, _, _, rfl⟩ <;>
  first | exact Function.update_of_ne other .. | rfl

def InitRun (T : Template K V) (host : Nat) (peers : List Nat) (s : Session K V) : Prop :=
  Reachable (RootExchange.exec host peers (initial T host).root.address ()) RootExchange.initial (s.map fun _ => ())

structure Consistent (T : Template K V) (host : Nat) (peers : List Nat) (peer : Nat → Nat) (s : Session K V) : Prop where
  init : InitRun T host peers s
  table : ∀ {table}, s.shared = some table → Reachable (exec T peer) (initial T host) table
  calls : ∀ {table c}, s.shared = some table → table.threads c ≠ .idle → s.pcs (peer c) = .returned true

namespace Consistent

theorem root (consistent : Consistent T host peers peer s) {q : Nat} (returned : s.pcs q = .returned true) :
    ∃ table, s.shared = some table ∧ s.roots q = some table.root := by
  have inv := RootExchange.Inv.reachable consistent.init
  obtain ⟨root, made⟩ := inv.root_of_returned (q := q) returned
  obtain ⟨table, here⟩ : ∃ table, s.shared = some table := by
    cases here : s.shared with
    | none => simp [RootExchange.State.map, here] at made
    | some table => exact ⟨table, rfl⟩
  exact ⟨table, here, root.trans (congrArg some (root_of_reachable (consistent.table here)).symm)⟩

theorem init_next (consistent : Consistent T host peers peer s) {action : RootExchange.Action}
    (enabled : initExec T host peers s action = some s') : Consistent T host peers peer s' := by
  have seen : RootExchange.exec host peers (initial T host).root.address () (s.map fun _ => ()) action =
      some (s'.map fun _ => ()) := by
    rw [RootExchange.exec_map (fun _ => ()) (initial T host)]
    exact congrArg (Option.map (RootExchange.State.map fun _ => ())) enabled
  refine ⟨.step action consistent.init trivial seen, fun made => ?_, fun made busy => ?_⟩
  · rcases RootExchange.exec_shared enabled with ⟨_, new⟩ | same
    · cases new.symm.trans made
      exact .refl _
    · exact consistent.table (same ▸ made)
  · rcases RootExchange.exec_shared enabled with ⟨_, new⟩ | same
    · cases new.symm.trans made
      exact absurd rfl busy
    · exact RootExchange.returned_stays (Steps.one enabled) (consistent.calls (same ▸ made) busy)

/-- A call of a node with the root of the table is one of the table's own machine. -/
theorem call_iff (consistent : Consistent T host peers peer s) {table : State K V} (made : s.shared = some table)
    {action : Action K V} (returned : s.pcs (peer action.thread) = .returned true) :
    sessionExec T host peers peer s (.call action) = some s' ↔
      ∃ table', exec T peer table action = some table' ∧ s' = { s with shared := some table' } := by
  obtain ⟨table₀, made₀, has⟩ := consistent.root returned
  cases made.symm.trans made₀
  simp only [sessionExec, returned, if_true, has, Option.bind_some, onTable, made, Option.map_eq_some_iff]
  refine exists_congr fun table' => and_congr_right fun enabled => ?_
  rw [← exec_root enabled]
  exact eq_comm

theorem call_next (consistent : Consistent T host peers peer s) {action : Action K V}
    (enabled : sessionExec T host peers peer s (.call action) = some s') : Consistent T host peers peer s' := by
  have returned := (Option.ite_none_right_eq_some.mp enabled).1
  obtain ⟨table, made, _⟩ := consistent.root returned
  obtain ⟨table', stepped, rfl⟩ := (consistent.call_iff made returned).mp enabled
  refine ⟨?_, fun now => ?_, fun {_ c} now busy => ?_⟩
  · have same : RootExchange.State.map (fun _ => ()) { s with shared := some table' } = s.map fun _ => () := by
      simp only [RootExchange.State.map, made, Option.map_some]
    unfold InitRun
    rw [same]
    exact consistent.init
  · cases now
    exact .step action (consistent.table made) trivial stepped
  · cases now
    by_cases mine : c = action.thread
    · rw [mine]
      exact returned
    · rw [threads_frame stepped mine] at busy
      exact consistent.calls made busy

theorem reachable (run : Reachable (sessionExec T host peers peer) RootExchange.initial s) :
    Consistent T host peers peer s := by
  have start : Consistent T host peers peer RootExchange.initial := by
    refine ⟨.refl _, ?_, ?_⟩
    · intro table made
      cases made
    · intro table c made
      cases made
  refine run.invariant start ?_
  intro t action u consistent _ enabled
  cases action with
  | init action => exact consistent.init_next enabled
  | call action => exact consistent.call_next enabled

end Consistent

/-- `Init` is not disturbed by the calls of nodes that have left it, all of these call the
one table that the host has made, and where a node calls, its `Init` has returned OK. Where
all have, what the threads can do is what they can do from then on with the table alone. -/
theorem calls_after_init (run : Reachable (sessionExec T host peers peer) RootExchange.initial s) :
    InitRun T host peers s ∧
    (∀ q, s.pcs q = .returned true → ∃ table, s.shared = some table ∧ s.roots q = some table.root) ∧
    (∀ table, s.shared = some table → Reachable (exec T peer) (initial T host) table ∧
      ∀ c, table.threads c ≠ .idle → s.pcs (peer c) = .returned true) ∧
    ((∀ c, s.pcs (peer c) = .returned true) → ∀ table table', s.shared = some table → Reachable (exec T peer) table table' →
      Reachable (sessionExec T host peers peer) s { s with shared := some table' }) := by
  have consistent := Consistent.reachable run
  refine ⟨consistent.init, fun q returned => consistent.root returned, fun table made => ⟨consistent.table made, fun c =>
    consistent.calls made⟩, fun all table table' made further => ?_⟩
  refine further.invariant (P := fun table' => Reachable (sessionExec T host peers peer) s { s with shared := some table' })
    (made ▸ .refl s) ?_
  intro table₁ action table₂ before _ stepped
  have now := Consistent.reachable (run.trans before)
  exact .step (.call action) before trivial ((now.call_iff rfl (all action.thread)).mpr ⟨table₂, stepped, rfl⟩)

/-- Node 0 inserts a key while node 1 has not yet got the root. -/
def earlyInsert : List (SessionAction (BitVec 32) (BitVec 32)) :=
  ([⟨0, .ok⟩, ⟨1, .ok⟩, ⟨0, .ok⟩, ⟨0, .ok⟩, ⟨0, .ok⟩, ⟨0, .ok⟩] : List RootExchange.Action).map .init ++
    .call (.invoke 0 (.insert 1 10)) :: List.replicate 8 (.call (.step 0)) ++ [.init ⟨1, .unavailable⟩]

theorem calls_after_init_earlyInsert : ∃ (s : Session (BitVec 32) (BitVec 32)) (table : State (BitVec 32) (BitVec 32)),
    s.pcs 1 = .deliver ∧ s.shared = some table ∧ table.history = [.inv 0 (.insert 1 10), .res 0 ⟨.trueState, 0⟩] ∧
    Reachable (exec (intTemplate 1) id) (initial (intTemplate 1) 0) table := by
  have ran : (runAll (sessionExec (intTemplate 1) 0 [0, 1] id) RootExchange.initial earlyInsert).any (fun s =>
      s.pcs 1 = .deliver ∧ s.shared.any fun table =>
        table.history = [.inv 0 (.insert 1 10), .res 0 ⟨.trueState, 0⟩]) = true := by decide +kernel
  obtain ⟨s, final, shown⟩ := (Option.any_eq_true _ _).mp ran
  obtain ⟨waits, logged⟩ := of_decide_eq_true shown
  obtain ⟨table, made, history⟩ := (Option.any_eq_true _ _).mp logged
  exact ⟨s, table, waits, made, of_decide_eq_true history,
    ((calls_after_init (reachable_of_runAll earlyInsert final)).2.2.1 table made).1⟩

end RdmaIht.Hashtable
