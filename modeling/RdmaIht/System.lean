import RdmaIht.Iht.Liveness
import RdmaIht.Tcp.Completion

/-! The experiment as a whole: the processes with their connections, and the table.

A client calls the operations of its `IHT` in `populate` and for the driver, each on
the root pointer it has itself. The host's `IHT` makes the table just before the
broadcast. While a call runs, its thread does nothing else. `Apply` divides by
`progression` before it calls, which a short workload makes 0. Any operation may be
called; the `ROME_ASSERT`s of `Apply`, which hold for those that the clients draw, are
left out.
-/

set_option autoImplicit false

namespace RdmaIht.System

open Concurrency Tcp

variable {K V : Type}

def index (setup : Setup) (c : ClientId) : Nat := c.node * setup.threadCount + c.thread

def clientAt (setup : Setup) (i : Nat) : ClientId := ⟨i / setup.threadCount, i % setup.threadCount⟩

/-- The pool a client allocates on. -/
def peer (setup : Setup) (i : Nat) : Nat := setup.selfId (clientAt setup i)

/-- The parameters of the stream of operations that a driver gives to `Apply`. -/
structure Workload where
  opCount : Int
  unlimitedStream : Bool
  deriving Repr

namespace Workload

/-- `progression`. The `double` product `op_count * 0.001` is cut to an `int`, which for every `int` is
the quotient by 1000. -/
def progression (workload : Workload) : Int :=
  if workload.unlimitedStream then 10000 else workload.opCount.tdiv 1000

/-- The stream has an operation after the first `count`. -/
def more (workload : Workload) (count : Nat) : Bool :=
  workload.unlimitedStream || decide ((count : Int) < workload.opCount)

/-- The stream has an operation, and its `Apply` divides by 0. -/
def Traps (workload : Workload) : Prop :=
  workload.unlimitedStream = false ∧ 1 ≤ workload.opCount ∧ workload.opCount ≤ 999

instance (workload : Workload) : Decidable workload.Traps := inferInstanceAs (Decidable (_ ∧ _))

theorem traps_iff (workload : Workload) :
    workload.Traps ↔ workload.progression = 0 ∧ ∃ count, workload.more count = true := by
  unfold Traps progression more
  cases workload.unlimitedStream with
  | true => simp
  | false =>
    simp only [true_and, Bool.false_eq_true, if_false, Bool.false_or, decide_eq_true_eq]
    constructor
    · rintro ⟨some, few⟩
      exact ⟨Int.tdiv_eq_zero_of_lt (by omega) (by omega), 0, by omega⟩
    · rintro ⟨zero, count, more⟩
      refine ⟨by omega, ?_⟩
      rw [Int.tdiv_eq_ediv_of_nonneg (by omega)] at zero
      omega

end Workload

structure State (K V : Type) where
  main : Experiment
  /-- `none` until the host's `InitAsFirst` -/
  table : Option (Iht.State K V)
  /-- `count` of each `Client`, the calls of its `Apply` -/
  count : ClientId → Nat
  /-- the process that a division by 0 has ended -/
  died : Option Nat

inductive Action (K V : Type) where
  | main (move : Move)
  | invoke (c : ClientId) (op : IhtOp K V)
  | step (c : ClientId)

def isIdle : Iht.Thread K V → Bool
  | .idle => true
  | .running _ _ _ => false

/-- The thread is inside a call of its `IHT`. -/
def busy (setup : Setup) (s : State K V) (c : ClientId) : Bool :=
  s.table.any fun table => !isIdle (table.threads (index setup c))

/-- The thread is about to call `InitAsFirst`. -/
def makesTable (setup : Setup) (s : State K V) (c : ClientId) : Bool :=
  decide (setup.IsHost c) && decide (s.main.state.clients c = .start)

section Exec

variable [DecidableEq K] (setup : Setup) (T : Iht.Template K V) (workload : Workload)

/-- An action on the blocks of the table by a client that takes `root` for the root pointer. -/
def onTable (s : State K V) (root : RemotePtr) (action : Iht.Action K V) : Option (State K V) :=
  s.table.bind fun table => (Iht.exec T (peer setup) { table with root := root } action).map fun table' =>
    { s with table := some { table' with root := table.root } }

/-- A move of `main` or of a thread that is not in a call. -/
def mainStep (s : State K V) : Move → Option (State K V)
  | .run (.client c) =>
    if busy setup s c then none
    else (mainExec setup s.main (.run (.client c))).map fun main =>
      { s with main := main, table := if makesTable setup s c then some (Iht.initial T (setup.selfId c)) else s.table }
  | move => (mainExec setup s.main move).map fun main => { s with main := main }

/-- `Apply`. Only a log line uses `count % progression`, but a division by 0 ends the process. -/
def apply (s : State K V) (c : ClientId) (root : RemotePtr) (op : IhtOp K V) : Option (State K V) :=
  if busy setup s c || !workload.more (s.count c) then none
  else
    let counted := { s with count := Function.update s.count c (s.count c + 1) }
    if workload.progression = 0 then some { counted with died := some c.node }
    else onTable setup T counted root (.invoke (index setup c) op)

/-- A run is followed until a process dies. Its connections then close, and a `read` that returns 0 for
that is taken for a message. -/
def exec (s : State K V) (action : Action K V) : Option (State K V) :=
  if s.died.isSome then none
  else
    match action with
    | .main move => mainStep setup T s move
    | .invoke c op =>
      if setup.IsClient c then
        match s.main.state.clients c with
        | .populating root => onTable setup T s root (.invoke (index setup c) op)
        | .working root => apply setup T workload s c root op
        | _ => none
      else none
    | .step c =>
      if setup.IsClient c then
        (s.main.state.clients c).root.bind fun root => onTable setup T s root (.step (index setup c))
      else none

def initial : State K V where
  main := mainInitial
  table := none
  count := fun _ => 0
  died := none

end Exec

section Index

variable {setup : Setup} {c : ClientId}

theorem clientAt_index (isClient : setup.IsClient c) : clientAt setup (index setup c) = c := by
  have thread := isClient.2
  have pos : 0 < setup.threadCount := Nat.zero_lt_of_lt thread
  unfold clientAt index
  rw [Nat.mul_comm, Nat.mul_add_div pos, Nat.mul_add_mod, Nat.div_eq_of_lt thread, Nat.mod_eq_of_lt thread, Nat.add_zero]

theorem index_injective {c' : ClientId} (isClient : setup.IsClient c) (isClient' : setup.IsClient c')
    (same : index setup c = index setup c') : c = c' := by
  rw [← clientAt_index isClient, same, clientAt_index isClient']

end Index

/-! ## What holds in every run -/

/-- The table is one that its own machine reaches, and every client that has a root pointer has its root. -/
structure Consistent [DecidableEq K] (setup : Setup) (T : Iht.Template K V) (h : ClientId) (s : State K V) : Prop where
  orderly : Orderly setup h s.main
  reachable : ∀ {table}, s.table = some table → Reachable (Iht.exec T (peer setup)) (Iht.initial T 0) table
  made : ∀ root, (s.main.state.clients h).table = some root → ∃ table, s.table = some table ∧ table.root = root
  unmade : s.main.state.clients h = .start → s.main.state.nextAddress = 1 ∧ s.table = none
  applies : ∀ {table i}, s.table = some table → table.threads i ≠ .idle →
    ∃ c, setup.IsClient c ∧ index setup c = i ∧ (s.main.state.clients c).applies = true

section Runs

variable [DecidableEq K] {setup : Setup} {T : Iht.Template K V} {workload : Workload} {h : ClientId} {s s' : State K V}

theorem Consistent.start (setup : Setup) (T : Iht.Template K V) (h : ClientId) :
    Consistent setup T h (initial : State K V) where
  orderly := ⟨⟨.start setup h, fun _ some => absurd some (Nat.lt_irrefl 0)⟩, .start h, fun _ => Nat.zero_le _⟩
  reachable none := by cases none
  made := by simp [initial, mainInitial, Tcp.initial, ClientPc.table, ClientPc.root]
  unmade _ := ⟨rfl, rfl⟩
  applies none := by cases none

theorem Consistent.congr (consistent : Consistent setup T h s) (main : s'.main = s.main) (table : s'.table = s.table) :
    Consistent setup T h s' := by
  obtain ⟨orderly, reachable, made, unmade, applies⟩ := consistent
  rw [← main] at orderly made unmade applies
  rw [← table] at reachable made unmade applies
  exact ⟨orderly, reachable, made, unmade, applies⟩

theorem Consistent.root (consistent : Consistent setup T h s) {c : ClientId} {root : RemotePtr}
    (has : (s.main.state.clients c).root = some root) : ∃ table, s.table = some table ∧ table.root = root :=
  consistent.made root (consistent.orderly.joined.inv.clients.shared c root has)

theorem exec_root {peer : Nat → Nat} {table table' : Iht.State K V} {action : Iht.Action K V}
    (enabled : Iht.exec T peer table action = some table') : table'.root = table.root := by
  rcases Iht.exec_cases enabled with ⟨_, _, _, _, rfl⟩ | ⟨_, _, _, _, _, _, _, _, _, ⟨_, _, rfl⟩ | ⟨_, _, rfl⟩⟩ <;> rfl

/-- An action on the table with the pointer of a client is one of the table's own machine. -/
theorem onTable_eq_some {root : RemotePtr} {action : Iht.Action K V}
    (same : ∀ table, s.table = some table → table.root = root) :
    onTable setup T s root action = some s' ↔ ∃ table table', s.table = some table ∧
      Iht.exec T (peer setup) table action = some table' ∧ s' = { s with table := some table' } := by
  cases made : s.table with
  | none => simp [onTable, made]
  | some table =>
    obtain rfl := same table made
    simp only [onTable, made, Option.bind_some, Option.map_eq_some_iff, Option.some.injEq, exists_and_left, exists_eq_left']
    constructor
    · rintro ⟨table', enabled, rfl⟩
      exact ⟨table', enabled, by rw [← exec_root enabled]⟩
    · rintro ⟨table', enabled, rfl⟩
      exact ⟨table', enabled, by rw [← exec_root enabled]⟩

theorem onTable_frame {root : RemotePtr} {action : Iht.Action K V} (enabled : onTable setup T s root action = some s') :
    s'.main = s.main ∧ s'.count = s.count ∧ s'.died = s.died := by
  obtain ⟨table, _, enabled⟩ := Option.bind_eq_some_iff.mp enabled
  obtain ⟨table', _, rfl⟩ := Option.map_eq_some_iff.mp enabled
  exact ⟨rfl, rfl, rfl⟩

omit [DecidableEq K] in
theorem mainStep_frame {move : Move} (moved : mainStep setup T s move = some s') :
    s'.count = s.count ∧ s'.died = s.died := by
  unfold mainStep at moved
  split at moved
  · split at moved
    · cases moved
    · obtain ⟨main, _, rfl⟩ := Option.map_eq_some_iff.mp moved
      exact ⟨rfl, rfl⟩
  · obtain ⟨main, _, rfl⟩ := Option.map_eq_some_iff.mp moved
    exact ⟨rfl, rfl⟩

inductive Does (setup : Setup) (T : Iht.Template K V) (workload : Workload) (s : State K V) :
    Action K V → State K V → Prop where
  | main {move : Move} {s' : State K V} (moved : mainStep setup T s move = some s') : Does setup T workload s (.main move) s'
  | invoke {c : ClientId} {op : IhtOp K V} {root : RemotePtr} {count : ClientId → Nat} {s' : State K V}
      (isClient : setup.IsClient c) (applies : (s.main.state.clients c).applies = true)
      (has : (s.main.state.clients c).root = some root) (counted : count = s.count ∨ workload.progression ≠ 0)
      (called : onTable setup T { s with count := count } root (.invoke (index setup c) op) = some s') :
      Does setup T workload s (.invoke c op) s'
  | trap {c : ClientId} {op : IhtOp K V} {root : RemotePtr} {count : ClientId → Nat} (isClient : setup.IsClient c)
      (works : s.main.state.clients c = .working root) (zero : workload.progression = 0)
      (more : workload.more (s.count c) = true) :
      Does setup T workload s (.invoke c op) { s with count := count, died := some c.node }
  | step {c : ClientId} {root : RemotePtr} {s' : State K V} (isClient : setup.IsClient c)
      (has : (s.main.state.clients c).root = some root)
      (stepped : onTable setup T s root (.step (index setup c)) = some s') :
      Does setup T workload s (.step c) s'

theorem exec_does {action : Action K V} (enabled : exec setup T workload s action = some s') :
    s.died = none ∧ Does setup T workload s action s' := by
  unfold exec at enabled
  split at enabled
  · cases enabled
  · next alive =>
    refine ⟨Option.not_isSome_iff_eq_none.mp alive, ?_⟩
    cases action with
    | main move => exact .main enabled
    | invoke c op =>
      dsimp only at enabled
      split at enabled
      · next isClient =>
        split at enabled
        · next root populates =>
          exact .invoke isClient (by rw [populates]; rfl) (by rw [populates]; rfl) (.inl rfl) enabled
        · next root works =>
          unfold apply at enabled
          split at enabled
          · cases enabled
          · next free =>
            split at enabled
            · next zero =>
              cases enabled
              exact .trap isClient works zero (by simp at free; exact free.2)
            · next divides =>
              exact .invoke isClient (by rw [works]; rfl) (by rw [works]; rfl) (.inr divides) enabled
        · cases enabled
      · cases enabled
    | step c =>
      dsimp only at enabled
      split at enabled
      · next isClient =>
        obtain ⟨root, has, stepped⟩ := Option.bind_eq_some_iff.mp enabled
        exact .step isClient has stepped
      · cases enabled

section Host

variable {state state' : Tcp.State} {action : Tcp.Action}

theorem clients_frame {c : ClientId} (enabled : Tcp.exec setup state action = some state') (other : action ≠ .client c) :
    state'.clients c = state.clients c := by
  cases exec_branch enabled with
  | connect | accept => rfl
  | server branch => cases branch <;> rfl
  | @client d _ _ branch =>
    have apart : c ≠ d := by
      rintro rfl
      exact other rfl
    cases branch with
    | barrier =>
      unfold afterBarrier
      split <;> exact Function.update_of_ne apart _ _
    | _ => exact Function.update_of_ne apart _ _

/-- The host takes the address of the table when it starts, and keeps it. -/
theorem host_next (inv : Inv setup h state) (one : setup.OneHost h) (enabled : Tcp.exec setup state action = some state') :
    (action = .client h ∧ state.clients h = .start ∧ state'.clients h ≠ .start ∧
      (state'.clients h).table = some ⟨setup.selfId h, state.nextAddress⟩) ∨
    ((state'.clients h).table = (state.clients h).table ∧ (state.clients h = .start ∨ state'.clients h ≠ .start) ∧
      (state.clients h = .start → state'.nextAddress = state.nextAddress ∧ action ≠ .client h)) := by
  by_cases acts : action = .client h
  · subst acts
    cases exec_branch enabled with
    | client _ branch =>
      cases branch with
      | host start => exact .inl ⟨rfl, start, by simp [State.setClient], by simp [State.setClient, ClientPc.table]⟩
      | guest _ isHost => exact absurd one.2.1 isHost
      | readRoot receiving => exact absurd receiving inv.clients.notHost
      | sent point | writeRoot point | populated point | worked point | sendAck point | readLast point =>
        right
        simp [State.setClient, State.write, point, ClientPc.table, ClientPc.root]
      | barrier point =>
        right
        unfold afterBarrier
        split <;> simp [State.setClient, point, ClientPc.table, ClientPc.root]
  · right
    rw [clients_frame enabled acts]
    refine ⟨rfl, ?_, fun _ => ⟨?_, acts⟩⟩
    · exact Classical.em _
    · cases exec_branch enabled with
      | connect | accept => rfl
      | server branch => cases branch <;> rfl
      | client isClient branch =>
        cases branch with
        | host _ isHost => exact absurd (by rw [one.2.2 _ isClient isHost]) acts
        | barrier =>
          unfold afterBarrier
          split <;> rfl
        | _ => rfl

end Host

theorem mainExec_cases {e e' : Experiment} {move : Move} (enabled : mainExec setup e move = some e') :
    (∃ action, move = .run action ∧ Tcp.exec setup e.state action = some e'.state) ∨
      ((∀ action, move ≠ .run action) ∧ e'.state = e.state) := by
  cases move with
  | run action =>
    obtain ⟨state', stepped, rfl⟩ := Option.map_eq_some_iff.mp enabled
    exact .inl ⟨action, rfl, stepped⟩
  | join node =>
    right
    refine ⟨by simp, ?_⟩
    simp only [mainExec] at enabled
    split at enabled
    · split at enabled
      · cases enabled
      · split at enabled <;> cases enabled
        rfl
    · cases enabled

omit [DecidableEq K] in
theorem mainStep_cases {move : Move} (enabled : mainStep setup T s move = some s') :
    mainExec setup s.main move = some s'.main ∧
      ((∃ c, move = .run (.client c) ∧ busy setup s c = false ∧
          s'.table = if makesTable setup s c then some (Iht.initial T (setup.selfId c)) else s.table) ∨
        ((∀ c, move ≠ .run (.client c)) ∧ s'.table = s.table)) := by
  have quiet : ∀ {move : Move}, (∀ c, move ≠ .run (.client c)) →
      (mainExec setup s.main move).map (fun main => { s with main := main }) = some s' →
      mainExec setup s.main move = some s'.main ∧ s'.table = s.table := by
    intro move _ enabled
    obtain ⟨main, moved, rfl⟩ := Option.map_eq_some_iff.mp enabled
    exact ⟨moved, rfl⟩
  cases move with
  | join node =>
    obtain ⟨moved, same⟩ := quiet (by simp) enabled
    exact ⟨moved, .inr ⟨by simp, same⟩⟩
  | run action =>
    cases action with
    | client c =>
      simp only [mainStep] at enabled
      split at enabled
      · cases enabled
      · next free =>
        obtain ⟨main, moved, rfl⟩ := Option.map_eq_some_iff.mp enabled
        exact ⟨moved, .inl ⟨c, rfl, Bool.eq_false_iff.mpr free, rfl⟩⟩
    | connect node | accept c | server =>
      obtain ⟨moved, same⟩ := quiet (by simp) enabled
      exact ⟨moved, .inr ⟨by simp, same⟩⟩

omit [DecidableEq K] in
theorem busy_eq_true {c : ClientId} : busy setup s c = true ↔
    ∃ table, s.table = some table ∧ table.threads (index setup c) ≠ .idle := by
  unfold busy
  rw [Option.any_eq_true]
  refine exists_congr fun table => and_congr_right fun _ => ?_
  cases table.threads (index setup c) <;> simp [isIdle]

theorem Consistent.applies_next (consistent : Consistent setup T h s) {move : Move} {main : Experiment}
    (moved : mainExec setup s.main move = some main) (free : ∀ c, move = .run (.client c) → busy setup s c = false)
    {table : Iht.State K V} (made : s.table = some table) {i : Nat} (runs : table.threads i ≠ .idle) :
    ∃ c, setup.IsClient c ∧ index setup c = i ∧ (main.state.clients c).applies = true := by
  obtain ⟨c, isClient, rfl, applies⟩ := consistent.applies made runs
  refine ⟨c, isClient, rfl, ?_⟩
  rcases mainExec_cases moved with ⟨action, rfl, stepped⟩ | ⟨_, same⟩
  · have other : action ≠ .client c := by
      rintro rfl
      have idle := free c rfl
      rw [busy_eq_true.mpr ⟨table, made, runs⟩] at idle
      cases idle
    rw [clients_frame stepped other]
    exact applies
  · rw [same]
    exact applies

theorem Consistent.makes (consistent : Consistent setup T h s) (one : setup.OneHost h) (first : h.node = 0) {c : ClientId}
    (makes : makesTable setup s c = true) (enabled : mainStep setup T s (.run (.client c)) = some s') :
    Consistent setup T h s' := by
  obtain ⟨moved, effect⟩ := mainStep_cases enabled
  have orderly := consistent.orderly.next one first moved
  simp only [makesTable, Bool.and_eq_true, decide_eq_true_eq] at makes
  rcases mainExec_cases moved with ⟨action, same, stepped⟩ | ⟨other, _⟩
  · cases same
    have isClient : setup.IsClient c := by
      cases exec_branch stepped with
      | client isClient => exact isClient
    obtain rfl := one.2.2 c isClient makes.1
    have table : s'.table = some (Iht.initial T (setup.selfId c)) := by
      rcases effect with ⟨c', same, _, table⟩ | ⟨other, _⟩
      · cases same
        simpa [makesTable, makes] using table
      · exact absurd rfl (other c)
    have host : setup.selfId c = 0 := one.2.1
    rcases host_next consistent.orderly.joined.inv one stepped with ⟨_, start, started, address⟩ | ⟨_, _, quiet⟩
    · refine ⟨orderly, ?_, ?_, fun back => absurd back started, ?_⟩
      · intro table' made
        rw [table] at made
        cases made
        rw [host]
        exact .refl _
      · intro root has
        rw [address] at has
        cases has
        refine ⟨_, table, ?_⟩
        rw [(consistent.unmade start).1]
        rfl
      · intro table' i made runs
        rw [table] at made
        cases made
        exact absurd rfl runs
    · exact absurd rfl (quiet makes.2).2
  · exact absurd rfl (other _)

theorem Consistent.keeps (consistent : Consistent setup T h s) (one : setup.OneHost h) (first : h.node = 0) {move : Move}
    (makes : ¬ ∃ c, move = .run (.client c) ∧ makesTable setup s c = true) (enabled : mainStep setup T s move = some s') :
    Consistent setup T h s' := by
  obtain ⟨moved, effect⟩ := mainStep_cases enabled
  have orderly := consistent.orderly.next one first moved
  have inv := consistent.orderly.joined.inv
  have same : s'.table = s.table := by
    rcases effect with ⟨c, rfl, _, table⟩ | ⟨_, table⟩
    · rw [table, if_neg]
      intro makes'
      exact makes ⟨c, rfl, makes'⟩
    · exact table
  refine ⟨orderly, ?_, ?_, ?_, ?_⟩
  · rw [same]
    exact consistent.reachable
  · intro root has
    rw [same]
    rcases mainExec_cases moved with ⟨action, rfl, stepped⟩ | ⟨_, state⟩
    · rcases host_next inv one stepped with ⟨rfl, start, _, _⟩ | ⟨table, _⟩
      · exact absurd ⟨h, rfl, by simp [makesTable, one.2.1, start]⟩ makes
      · exact consistent.made root (table ▸ has)
    · exact consistent.made root (state ▸ has)
  · intro start
    rw [same]
    rcases mainExec_cases moved with ⟨action, rfl, stepped⟩ | ⟨_, state⟩
    · rcases host_next inv one stepped with ⟨_, _, started, _⟩ | ⟨_, before, quiet⟩
      · exact absurd start started
      · have start' := before.resolve_right fun started => started start
        rw [(quiet start').1]
        exact consistent.unmade start'
    · rw [state] at start ⊢
      exact consistent.unmade start
  · rw [same]
    intro table i made runs
    refine consistent.applies_next moved ?_ made runs
    rintro c rfl
    rcases effect with ⟨c', sameClient, free, _⟩ | ⟨other, _⟩
    · cases sameClient
      exact free
    · exact absurd rfl (other c)

theorem Consistent.main (consistent : Consistent setup T h s) (one : setup.OneHost h) (first : h.node = 0) {move : Move}
    (enabled : mainStep setup T s move = some s') : Consistent setup T h s' := by
  by_cases makes : ∃ c, move = .run (.client c) ∧ makesTable setup s c = true
  · obtain ⟨c, rfl, makes⟩ := makes
    exact consistent.makes one first makes enabled
  · exact consistent.keeps one first makes enabled

theorem Consistent.onTable (consistent : Consistent setup T h s) {c : ClientId} (isClient : setup.IsClient c)
    (applies : (s.main.state.clients c).applies = true) {table table' : Iht.State K V} (made : s.table = some table)
    {action : Iht.Action K V} (enabled : Iht.exec T (peer setup) table action = some table')
    (mine : ∀ i, i ≠ index setup c → table'.threads i = table.threads i) :
    Consistent setup T h { s with table := some table' } where
  orderly := consistent.orderly
  reachable now := by
    cases now
    exact .step action (consistent.reachable made) trivial enabled
  made root has := by
    obtain ⟨table₀, made₀, root₀⟩ := consistent.made root has
    cases made.symm.trans made₀
    exact ⟨table', rfl, (exec_root enabled).trans root₀⟩
  unmade start := by
    have none := (consistent.unmade start).2
    rw [made] at none
    cases none
  applies := by
    intro table₀ i now runs
    cases now
    by_cases same : i = index setup c
    · exact ⟨c, isClient, same.symm, applies⟩
    · rw [mine i same] at runs
      exact consistent.applies made runs

theorem Consistent.next (consistent : Consistent setup T h s) (one : setup.OneHost h) (first : h.node = 0)
    {action : Action K V} (enabled : exec setup T workload s action = some s') : Consistent setup T h s' := by
  have roots : ∀ {c root}, (s.main.state.clients c).root = some root →
      ∀ table, s.table = some table → table.root = root := by
    intro c root has table made
    obtain ⟨table₀, made₀, root₀⟩ := consistent.root has
    cases made.symm.trans made₀
    exact root₀
  cases (exec_does enabled).2 with
  | main moved => exact consistent.main one first moved
  | trap => exact consistent.congr rfl rfl
  | @invoke c op root count _ isClient applies has _ called =>
    obtain ⟨table, table', made, stepped, rfl⟩ := (onTable_eq_some (s := { s with count := count }) (roots has)).mp called
    refine Consistent.congr (consistent.onTable isClient applies made stepped fun i other => ?_) rfl rfl
    rcases Iht.exec_cases stepped with ⟨_, _, same, _, rfl⟩ | ⟨_, _, _, _, _, _, same, _⟩
    · cases same
      exact Function.update_of_ne other _ _
    · cases same
  | @step c root _ isClient has called =>
    obtain ⟨table, table', made, stepped, rfl⟩ := (onTable_eq_some (roots has)).mp called
    obtain ⟨id, op, pc, next, runs, _, _, threads⟩ := Iht.exec_step stepped
    have applies : (s.main.state.clients c).applies = true := by
      obtain ⟨c', isClient', same, applies⟩ := consistent.applies made (by rw [runs]; simp)
      rw [index_injective isClient isClient' same.symm]
      exact applies
    refine consistent.onTable isClient applies made stepped fun i other => ?_
    rw [threads, Function.update_of_ne other]

theorem Consistent.reachable_of (one : setup.OneHost h) (first : h.node = 0)
    (reachable : Reachable (exec setup T workload) initial s) : Consistent setup T h s :=
  reachable.invariant (.start setup T h) fun _ _ _ consistent _ enabled => consistent.next one first enabled

/-- A process dies only of a division by 0, and no call of `Apply` survives one. -/
structure Undivided (workload : Workload) (s : State K V) : Prop where
  died : s.died ≠ none → workload.Traps
  count : workload.Traps → s.died = none → ∀ c, s.count c = 0

theorem Undivided.next (undivided : Undivided workload s) {action : Action K V}
    (enabled : exec setup T workload s action = some s') : Undivided workload s' := by
  obtain ⟨alive, does⟩ := exec_does enabled
  have same : s'.count = s.count → s'.died = s.died → Undivided workload s' := by
    intro count died
    obtain ⟨onlyTraps, zero⟩ := undivided
    rw [← died] at onlyTraps zero
    rw [← count] at zero
    exact ⟨onlyTraps, zero⟩
  cases does with
  | main moved => exact same (mainStep_frame moved).1 (mainStep_frame moved).2
  | invoke _ _ _ counted called =>
    obtain ⟨_, count, died⟩ := onTable_frame called
    rcases counted with rfl | divides
    · exact same count died
    · refine ⟨fun dead => absurd (died.trans alive) dead, fun traps => ?_⟩
      exact absurd (workload.traps_iff.mp traps).1 divides
  | trap _ _ zero more => exact ⟨fun _ => workload.traps_iff.mpr ⟨zero, _, more⟩, fun _ none => by cases none⟩
  | step _ _ stepped =>
    obtain ⟨_, count, died⟩ := onTable_frame stepped
    exact same count died

theorem Undivided.reachable (reachable : Reachable (exec setup T workload) initial s) : Undivided workload s :=
  reachable.invariant ⟨fun died => absurd rfl died, fun _ _ _ => rfl⟩ fun _ _ _ undivided _ enabled => undivided.next enabled

/-! ## The runs of the parts -/

theorem exec_main_run {action : Action K V} (enabled : exec setup T workload s action = some s') :
    Reachable (mainExec setup) s.main s'.main := by
  cases (exec_does enabled).2 with
  | main moved => exact .one (mainStep_cases moved).1
  | trap => exact .refl _
  | invoke _ _ _ _ called =>
    rw [(onTable_frame called).1]
    exact .refl _
  | step _ _ stepped =>
    rw [(onTable_frame stepped).1]
    exact .refl _

theorem main_run (run : Reachable (exec setup T workload) s s') : Reachable (mainExec setup) s.main s'.main :=
  run.simulate State.main fun _ _ _ _ enabled => exec_main_run enabled

theorem Consistent.still (consistent : Consistent setup T h s) {node : Nat} (began : 0 < s.main.joined node) :
    ∀ c, setup.IsClient c → (s.main.state.clients c).acked = true :=
  fun c isClient => consistent.orderly.joined.inv.clients.acked c (consistent.orderly.joined.acks node began c isClient)

/-- Once a process has joined a thread, no call runs and nothing is done to the table. -/
theorem Consistent.table_next (consistent : Consistent setup T h s) {node : Nat} (began : 0 < s.main.joined node)
    {action : Action K V} (enabled : exec setup T workload s action = some s') : s'.table = s.table := by
  have acked := consistent.still began
  have idle : ∀ table i, s.table = some table → table.threads i = .idle := by
    intro table i made
    by_contra runs
    obtain ⟨c, isClient, _, applies⟩ := consistent.applies made runs
    rw [ClientPc.applies_of_acked (acked c isClient)] at applies
    cases applies
  cases (exec_does enabled).2 with
  | trap => rfl
  | @main move _ enabled =>
    obtain ⟨moved, ⟨c, rfl, _, table⟩ | ⟨_, table⟩⟩ := mainStep_cases enabled
    · rw [table, if_neg]
      intro makes
      simp only [makesTable, Bool.and_eq_true, decide_eq_true_eq] at makes
      rcases mainExec_cases moved with ⟨action, same, stepped⟩ | ⟨other, _⟩
      · cases same
        cases exec_branch stepped with
        | client isClient =>
          have past := acked c isClient
          rw [makes.2] at past
          cases past
      · exact absurd rfl (other _)
    · exact table
  | @invoke c _ _ _ _ isClient applies =>
    rw [ClientPc.applies_of_acked (acked c isClient)] at applies
    cases applies
  | @step c root _ isClient has stepped =>
    obtain ⟨table, made, stepped⟩ := Option.bind_eq_some_iff.mp stepped
    have none := idle table (index setup c) made
    simp [Iht.exec, none] at stepped

theorem exec_of_alive (alive : s.died = none) {move : Move} :
    exec setup T workload s (.main move) = mainStep setup T s move := by
  simp [exec, alive]

omit [DecidableEq K] in
theorem mainStep_of {move : Move} {main : Experiment} (moved : mainExec setup s.main move = some main)
    (free : ∀ c, busy setup s c = false) : ∃ s', mainStep setup T s move = some s' ∧ s'.main = main ∧
      (s'.table = s.table ∨ ∃ host, s'.table = some (Iht.initial T host)) := by
  cases move with
  | join node => exact ⟨{ s with main := main }, by simp [mainStep, moved], rfl, .inl rfl⟩
  | run action =>
    cases action with
    | client c =>
      refine ⟨_, by simp only [mainStep, free c, moved, Option.map_some]; rfl, rfl, ?_⟩
      dsimp only
      split
      · exact .inr ⟨_, rfl⟩
      · exact .inl rfl
    | connect node | accept c | server => exact ⟨{ s with main := main }, by simp [mainStep, moved], rfl, .inl rfl⟩

theorem lift_main {e e' : Experiment} (run : Reachable (mainExec setup) e e') (same : s.main = e) (alive : s.died = none)
    (free : ∀ c, busy setup s c = false) : ∃ s', Reachable (exec setup T workload) s s' ∧ s'.main = e' := by
  have lifted : ∃ s', Reachable (exec setup T workload) s s' ∧ s'.main = e' ∧ s'.died = none ∧
      ∀ c, busy setup s' c = false := by
    refine run.invariant (P := fun e' => ∃ s', Reachable (exec setup T workload) s s' ∧ s'.main = e' ∧ s'.died = none ∧
      ∀ c, busy setup s' c = false) ⟨s, .refl s, same, alive, free⟩ ?_
    rintro _ move main ⟨u, run, rfl, alive, free⟩ _ moved
    obtain ⟨u', enabled, rfl, table⟩ := mainStep_of (T := T) moved free
    have step : exec setup T workload u (.main move) = some u' := by rw [exec_of_alive alive, enabled]
    refine ⟨u', .step (.main move) run trivial step, rfl, (mainStep_frame enabled).2.trans alive, fun c => ?_⟩
    rcases table with table | ⟨host, table⟩
    · have before := free c
      simpa only [busy, table] using before
    · simp [busy, table, Iht.initial, isIdle]
  obtain ⟨s', run, same, _⟩ := lifted
  exact ⟨s', run, same⟩

/-- The calls that run can go on as they do on the table alone. -/
theorem lift_table (one : setup.OneHost h) (first : h.node = 0) (reachable : Reachable (exec setup T workload) initial s)
    (alive : s.died = none) {table table' : Iht.State K V} (made : s.table = some table)
    (run : Steps (Iht.exec T (peer setup)) (fun _ action => ∃ i, action = .step i) table table') :
    Reachable (exec setup T workload) s { s with table := some table' } := by
  refine run.invariant (P := fun table' => Reachable (exec setup T workload) s { s with table := some table' }) ?_ ?_
  · rw [← made]
    exact .refl s
  · rintro table₁ _ table₂ before ⟨i, rfl⟩ stepped
    have consistent := Consistent.reachable_of one first (reachable.trans before)
    obtain ⟨id, op, pc, next, runs, _⟩ := Iht.exec_step stepped
    obtain ⟨c, isClient, rfl, applies⟩ := consistent.applies rfl (by rw [runs]; simp)
    obtain ⟨root, has⟩ : ∃ root, (s.main.state.clients c).root = some root := by
      revert applies
      cases s.main.state.clients c <;> simp [ClientPc.applies, ClientPc.root]
    have same : ∀ table, some table₁ = some table → table.root = root := by
      intro table now
      obtain ⟨table₀, made₀, root₀⟩ := consistent.root has
      cases made₀
      cases now
      exact root₀
    refine .step (.step c) before trivial ?_
    simp only [exec, alive, Option.isSome_none, Bool.false_eq_true, if_false, isClient, if_true, has, Option.bind_some]
    exact (onTable_eq_some (s := { s with table := some table₁, died := none }) same).mpr ⟨table₁, table₂, rfl, stepped, rfl⟩

end Runs

/-! ## The system -/

section System

variable [DecidableEq K] {T : Iht.Template K V} {params : Params} {workload : Workload} {h : ClientId} {s : State K V}

/-- One pool for each thread: every run of the system is a run of the protocol and, on the table the host
has made, a run of the table's machine; and whoever has a root pointer has the pointer to that table. -/
theorem calls_on_one_table (params : Params) (accepted : params.Accepted) (one : params.setup.OneHost h)
    (reachable : Reachable (exec params.setup T workload) initial s) :
    Reachable (mainExec params.setup) mainInitial s.main ∧
    (∀ table, s.table = some table → Reachable (Iht.exec T (peer params.setup)) (Iht.initial T 0) table) ∧
    ∀ c root, (s.main.state.clients c).root = some root → ∃ table, s.table = some table ∧ table.root = root := by
  have first := accepted.host_node one
  have consistent := Consistent.reachable_of one first reachable
  exact ⟨main_run reachable, fun table made => consistent.reachable made, fun c root has => consistent.root has⟩

def moves (actions : List Tcp.Action) : List (Action (BitVec 32) (BitVec 32)) :=
  actions.map fun action => .main (.run action)

/-- The host has made the table, and the other client has locked a bucket of it. -/
def calling : List (Action (BitVec 32) (BitVec 32)) :=
  moves (allAccepted ++ List.replicate 2 (.client ⟨0, 1⟩)) ++ .invoke ⟨0, 1⟩ (.insert 1 1) :: List.replicate 2 (.step ⟨0, 1⟩)

/-- Both clients have populated, and their drivers have started. -/
def started : List (Action (BitVec 32) (BitVec 32)) :=
  calling ++ List.replicate 5 (.step ⟨0, 1⟩) ++ moves (List.replicate 3 both).flatten

/-- The host calls `Apply`, and all threads end. -/
def session : List (Action (BitVec 32) (BitVec 32)) :=
  started ++ .invoke ⟨0, 0⟩ (.contains 1) :: List.replicate 7 (.step ⟨0, 0⟩) ++
    moves ((List.replicate 3 both).flatten ++ List.replicate 7 .server ++ both ++ [.server]) ++
    List.replicate 3 (.main (.join 0))

/-- The default parameters. -/
def defaults : Workload := ⟨10000, false⟩

theorem calls_on_one_table_session : ∃ s table, runAll (exec pair (Iht.intTemplate 1 2) defaults) initial session = some s ∧
    s.table = some table ∧ table.history.length = 4 ∧
    Reachable (Iht.exec (Iht.intTemplate 1 2) (peer pair)) (Iht.initial (Iht.intTemplate 1 2) 0) table := by
  have ran : (runAll (exec pair (Iht.intTemplate 1 2) defaults) initial session).any
      (fun s => s.table.any fun table => table.history.length = 4) = true := by decide +kernel
  obtain ⟨s, final, logged⟩ := (Option.any_eq_true _ _).mp ran
  obtain ⟨table, made, length⟩ := (Option.any_eq_true _ _).mp logged
  exact ⟨s, table, final, made, by simpa using length,
    (calls_on_one_table ⟨2, 1, 10⟩ (by decide) pair_oneHost (reachable_of_runAll session final)).2.1 table made⟩

/-- When the `main` of a node has joined its threads, no call runs on any node, and the table is never accessed again. -/
theorem quiet_after_left (params : Params) (accepted : params.Accepted) (one : params.setup.OneHost h)
    (reachable : Reachable (exec params.setup T workload) initial s) {node : Nat} (left : Left params.setup s.main node) :
    ∃ table, s.table = some table ∧ (∀ i, table.threads i = .idle) ∧
      ∀ s', Reachable (exec params.setup T workload) s s' → s'.table = some table := by
  have first := accepted.host_node one
  have consistent := Consistent.reachable_of one first reachable
  have began := left.began one.1
  have acked := consistent.still began
  obtain ⟨root, has⟩ := ClientPc.root_of_acked (acked h one.1)
  obtain ⟨table, made, _⟩ := consistent.root has
  refine ⟨table, made, fun i => ?_, fun s' run => ?_⟩
  · by_contra runs
    obtain ⟨c, isClient, _, applies⟩ := consistent.applies made runs
    rw [ClientPc.applies_of_acked (acked c isClient)] at applies
    cases applies
  · have kept : Reachable (exec params.setup T workload) initial s' ∧ 0 < s'.main.joined node ∧ s'.table = some table := by
      refine run.invariant (P := fun s' => Reachable (exec params.setup T workload) initial s' ∧ 0 < s'.main.joined node ∧
        s'.table = some table) ⟨reachable, began, made⟩ ?_
      rintro u action u' ⟨reached, began', made'⟩ _ enabled
      refine ⟨.step action reached trivial enabled, Nat.lt_of_lt_of_le began' (joined_mono (exec_main_run enabled) node), ?_⟩
      rw [(Consistent.reachable_of one first reached).table_next began' enabled, made']
    exact kept.2.2

theorem quiet_after_left_session : ∃ s table, runAll (exec pair (Iht.intTemplate 1 2) defaults) initial session = some s ∧
    Left pair s.main 0 ∧ s.table = some table ∧ ∀ i, table.threads i = .idle := by
  have ran : (runAll (exec pair (Iht.intTemplate 1 2) defaults) initial session).any
      (fun s => s.main.joined 0 = 3) = true := by
    decide +kernel
  obtain ⟨s, final, count⟩ := (Option.any_eq_true _ _).mp ran
  have left : Left pair s.main 0 := ⟨by decide, of_decide_eq_true count⟩
  obtain ⟨table, made, idle, _⟩ :=
    quiet_after_left ⟨2, 1, 10⟩ (by decide) pair_oneHost (reachable_of_runAll session final) left
  exact ⟨s, table, final, left, made, idle⟩

/-- An experiment all whose processes are alive can be brought to its end. -/
theorem can_end (plist : 2 ≤ T.plistSize) (elist : 1 ≤ T.elistSize) (accepted : params.Accepted)
    (one : params.setup.OneHost h) (reachable : Reachable (exec params.setup T workload) initial s) (alive : s.died = none)
    {root : RemotePtr} (returned : (s.main.state.clients h).root = some root)
    (reached : ∀ c, params.setup.IsClient c → c ≠ h → { first := root.address } ∈ s.main.state.written c) :
    ∃ s', Reachable (exec params.setup T workload) s s' ∧
      ((∀ node < params.setup.nodeCount, Left params.setup s'.main node) ∨
        ∃ table, s'.table = some table ∧ Iht.Overflowing T table) := by
  have first := accepted.host_node one
  have consistent := Consistent.reachable_of one first reachable
  obtain ⟨table, made, _⟩ := consistent.root returned
  obtain ⟨home, moving⟩ := Iht.Moving.reachable plist elist (consistent.reachable made)
  obtain ⟨n, few⟩ := Iht.Few.reachable (consistent.reachable made)
  -- the calls that run return first, and the threads then go on without the table
  obtain ⟨table', steps, ends⟩ := moving.drains plist elist few
  have run := lift_table one first reachable alive made steps
  rcases ends with idle | overflowing
  · have free : ∀ c, busy params.setup { s with table := some table' } c = false := by
      intro c
      simp [busy, idle, isIdle]
    obtain ⟨e', mainRun, stuck⟩ := (mainExec_lowers params.setup).exists_stuck
      ((mainExec_lowers params.setup).reachable (room_initial _) (main_run reachable))
    obtain ⟨s', run', rfl⟩ : ∃ s', Reachable (exec params.setup T workload) { s with table := some table' } s' ∧
        s'.main = e' :=
      lift_main mainRun rfl alive free
    refine ⟨s', run.trans run', .inl fun node inside => ?_⟩
    obtain ⟨returned', same⟩ := consistent.orderly.persists one first returned mainRun
    have orderly' := Orderly.reachable one first ((main_run reachable).trans mainRun)
    refine orderly'.all_left one stuck ⟨root, returned', fun c isClient other => ?_⟩ inside
    exact (same c).mpr (reached c isClient other)
  · exact ⟨_, run, .inr ⟨table', rfl, overflowing⟩⟩

theorem Consistent.not_left {setup : Setup} (consistent : Consistent setup T h s) {c : ClientId} {root : RemotePtr}
    (isClient : setup.IsClient c) (works : s.main.state.clients c = .working root) : ¬ Left setup s.main c.node := by
  intro left
  have acked := consistent.still (left.began isClient) c isClient
  rw [works] at acked
  cases acked

theorem still_of_died {setup : Setup} {s' : State K V} (died : s.died ≠ none)
    (run : Reachable (exec setup T workload) s s') : s' = s := by
  refine run.invariant (P := (· = s)) rfl ?_
  rintro _ action s' rfl _ enabled
  exact absurd (exec_does enabled).1 died

/-- Unless `op_count` makes `progression` 0, the experiment can be brought to its end from wherever it is once the
broadcast has reached all connections but the host's own, with all calls returned and all processes left, or with the
length of a P-List about to leave `int`. Otherwise any call of `Apply` ends its process, which never leaves. -/
theorem finishes (plist : 2 ≤ T.plistSize) (elist : 1 ≤ T.elistSize) (params : Params) (accepted : params.Accepted)
    (one : params.setup.OneHost h) (workload : Workload) (reachable : Reachable (exec params.setup T workload) initial s) :
    (¬ workload.Traps → ∀ root, (s.main.state.clients h).root = some root →
      (∀ c, params.setup.IsClient c → c ≠ h → { first := root.address } ∈ s.main.state.written c) →
      ∃ s', Reachable (exec params.setup T workload) s s' ∧
        ((∀ node < params.setup.nodeCount, Left params.setup s'.main node) ∨
          ∃ table, s'.table = some table ∧ Iht.Overflowing T table)) ∧
    (workload.Traps → s.died = none → ∀ c root op, params.setup.IsClient c → s.main.state.clients c = .working root →
      busy params.setup s c = false →
      ∃ s', exec params.setup T workload s (.invoke c op) = some s' ∧ s'.died = some c.node ∧
        ∀ s'', Reachable (exec params.setup T workload) s' s'' → ¬ Left params.setup s''.main c.node) := by
  have undivided := Undivided.reachable reachable
  constructor
  · intro divides root returned reached
    have alive : s.died = none := by
      by_contra died
      exact divides (undivided.died died)
    exact can_end plist elist accepted one reachable alive returned reached
  · intro traps alive c root op isClient works free
    obtain ⟨zero, _⟩ := workload.traps_iff.mp traps
    have more : workload.more (s.count c) = true := by
      rw [undivided.count traps alive c]
      simp only [Workload.more, Bool.or_eq_true, decide_eq_true_eq]
      exact .inr (Int.lt_of_lt_of_le Int.zero_lt_one traps.2.1)
    refine ⟨_, by simp only [exec, apply, alive, Option.isSome_none, Bool.false_eq_true, if_false, isClient, if_true, works,
      free, more, Bool.not_true, Bool.or_self, zero]; rfl, rfl, fun s'' run => ?_⟩
    rw [still_of_died (by simp) run]
    exact (Consistent.reachable_of one (accepted.host_node one) reachable).not_left isClient works

theorem finishes_calling : ∃ s s', runAll (exec pair (Iht.intTemplate 1 2) defaults) initial calling = some s ∧
    busy pair s ⟨0, 1⟩ = true ∧ Reachable (exec pair (Iht.intTemplate 1 2) defaults) s s' ∧
      ((∀ node < 1, Left pair s'.main node) ∨
        ∃ table, s'.table = some table ∧ Iht.Overflowing (Iht.intTemplate 1 2) table) := by
  have ran : (runAll (exec pair (Iht.intTemplate 1 2) defaults) initial calling).any
      (fun s => busy pair s ⟨0, 1⟩ && decide ((s.main.state.clients ⟨0, 0⟩).root = some ⟨0, 1⟩ ∧
        s.main.state.written ⟨0, 1⟩ = [{ first := 1 }])) = true := by decide +kernel
  obtain ⟨s, final, view⟩ := (Option.any_eq_true _ _).mp ran
  rw [Bool.and_eq_true, decide_eq_true_eq] at view
  obtain ⟨calls, returned, written⟩ := view
  obtain ⟨s', run, ends⟩ := (finishes (by decide) (by decide) ⟨2, 1, 10⟩ (by decide) pair_oneHost defaults
    (reachable_of_runAll calling final)).1 (by decide) ⟨0, 1⟩ returned (fun c isClient other => by
      obtain rfl := pair_other isClient other
      rw [written]
      exact List.mem_singleton_self _)
  exact ⟨s, s', final, calls, run, ends⟩

/-- Five hundred operations: the first one is never made. -/
example : (runAll (exec pair (Iht.intTemplate 1 2) ⟨500, false⟩) initial (started ++ [.invoke ⟨0, 0⟩ (.contains 1)])).map
    (·.died) = some (some 0) := by decide +kernel

end System

end RdmaIht.System
