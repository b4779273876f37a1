import RdmaIht.Tcp.Invariant

/-! The broadcast of the root pointer and the barrier at the end of an experiment.

The broadcast reaches the connections that are accepted when the host gets to them,
its own connection among these. The host does not read from it in `ExchangePointer`,
so that it takes the pointer for the ack that ends `Stop`.
-/

set_option autoImplicit false

namespace RdmaIht.Tcp

open Concurrency

variable {setup : Setup} {h : ClientId} {s s' : State} {action : Action}

def ClientPc.target (sockets : List ClientId) : ClientPc → Option ClientId
  | .sendRoot _ i => sockets[i]?
  | _ => none

/-- What a step leaves of the acks and messages, and what it can add to them. -/
structure Effect (s : State) (action : Action) (s' : State) : Prop where
  acks : s.acks ⊆ s'.acks
  written : ∀ c, s.written c ⊆ s'.written c
  wrote : ∀ c msg, msg ∈ s'.written c → msg ∈ s.written c ∨ msg = .ack ∨
    ∃ d, action = .client d ∧ (s.clients d).target s.clientSockets = some c
  /-- A thread returns from `ExchangePointer`. -/
  exchanged : ∀ c root, (s'.clients c).root = some root → (s.clients c).root = some root ∨
    s.clients c = .recvRoot ∨ action = .client c ∧ ∃ i, s.clients c = .sendRoot root i ∧ s.clientSockets[i]? = none
  /-- A thread returns from `Stop`. -/
  stopped : ∀ c root, s'.clients c = .stopped root → s.clients c = .stopped root ∨
    ∃ msg rest, s.clients c = .recvAck root ∧ s.toClient c = msg :: rest

theorem Effect.quiet (clients : s'.clients = s.clients) (written : s'.written = s.written) (acks : s.acks ⊆ s'.acks) :
    Effect s action s' where
  acks := acks
  written c := by rw [written]; exact List.Subset.refl _
  wrote c msg member := .inl (by rw [← written]; exact member)
  exchanged c root has := .inl (by rw [← clients]; exact has)
  stopped c root has := .inl (by rw [← clients]; exact has)

theorem Effect.move {c : ClientId} {pc' : ClientPc} (clients : s'.clients = Function.update s.clients c pc')
    (written : s'.written = s.written) (acks : s'.acks = s.acks)
    (exchanged : ∀ root, pc'.root = some root → (s.clients c).root = some root ∨
      s.clients c = .recvRoot ∨ ∃ i, s.clients c = .sendRoot root i ∧ s.clientSockets[i]? = none)
    (stopped : ∀ root, pc' = .stopped root →
      ∃ msg rest, s.clients c = .recvAck root ∧ s.toClient c = msg :: rest) :
    Effect s (.client c) s' where
  acks := by rw [acks]; exact List.Subset.refl _
  written d := by rw [written]; exact List.Subset.refl _
  wrote d msg member := .inl (by rw [← written]; exact member)
  exchanged d root has := by
    by_cases same : d = c
    · subst same
      rw [clients, Function.update_self] at has
      exact (exchanged root has).imp_right (Or.imp_right fun left => ⟨rfl, left⟩)
    · rw [clients, Function.update_of_ne same] at has
      exact .inl has
  stopped d root has := by
    by_cases same : d = c
    · subst same
      rw [clients, Function.update_self] at has
      exact .inr (stopped root has)
    · rw [clients, Function.update_of_ne same] at has
      exact .inl has

theorem State.written_write (s : State) (c d : ClientId) (msg : Message) :
    s.written d ⊆ (s.write c msg).written d ∧ ∀ msg' ∈ (s.write c msg).written d,
      msg' ∈ s.written d ∨ msg' = msg ∧ d = c := by
  simp only [State.write]
  by_cases same : d = c
  · subst same
    rw [Function.update_self]
    exact ⟨List.subset_append_left _ _, fun msg' member => by simpa using member⟩
  · rw [Function.update_of_ne same]
    exact ⟨List.Subset.refl _, fun msg' member => .inl member⟩

theorem ServerBranch.effect (branch : ServerBranch setup s s') : Effect s .server s' := by
  cases branch with
  | accepted | waited | received | sent => exact .quiet rfl rfl (List.Subset.refl _)
  | readAck => exact .quiet rfl rfl (List.subset_append_left _ _)
  | @writeAck i c =>
    exact
      { acks := List.Subset.refl _
        written := fun d => (s.written_write c d .ack).1
        wrote := fun d msg member => ((s.written_write c d .ack).2 msg member).imp_right fun new => .inl new.1
        exchanged := fun d root has => .inl has
        stopped := fun d root has => .inl has }

theorem ClientBranch.effect {c : ClientId} (branch : ClientBranch setup s c s') : Effect s (.client c) s' := by
  cases branch with
  | host | guest => exact .move rfl rfl rfl (by simp [ClientPc.root]) (by simp)
  | sent sending past =>
    exact .move rfl rfl rfl (fun root' same => by cases same; exact .inr (.inr ⟨_, sending, past⟩)) (by simp)
  | @writeRoot root i d sending socket =>
    have rest : Effect s (.client c) (s.setClient c (.sendRoot root (i + 1))) :=
      .move rfl rfl rfl (by simp [ClientPc.root]) (by simp)
    exact
      { rest with
        written := fun e => (s.written_write d e _).1
        wrote := fun e msg member => ((s.written_write d e _).2 msg member).imp_right fun new =>
          .inr ⟨c, rfl, by rw [sending, new.2]; exact socket⟩ }
  | readRoot receiving => exact .move rfl rfl rfl (fun root' _ => .inr (.inl receiving)) (by simp)
  | populated point | worked point | sendAck point =>
    exact .move rfl rfl rfl (fun root' same => .inl (by rw [point]; exact same)) (by simp)
  | barrier point =>
    unfold afterBarrier
    split
    all_goals exact .move rfl rfl rfl (fun root' same => .inl (by rw [point]; exact same)) (by simp)
  | readLast waiting queue =>
    exact .move rfl rfl rfl (fun root' same => .inl (by rw [waiting]; exact same))
      (fun root' same => by cases same; exact ⟨_, _, waiting, queue⟩)

theorem exec_effect (enabled : exec setup s action = some s') : Effect s action s' := by
  cases exec_branch enabled with
  | connect | accept => exact .quiet rfl rfl (List.Subset.refl _)
  | server branch => exact branch.effect
  | client _ branch => exact branch.effect

/-! ## The barrier -/

/-- The broadcast does not write the root pointer to the connection of the host. -/
def SkipsHost (h : ClientId) (s : State) (action : Action) : Prop :=
  action = .client h → (s.clients h).target s.clientSockets ≠ some h

instance (h : ClientId) (s : State) (action : Action) : Decidable (SkipsHost h s action) :=
  inferInstanceAs (Decidable (_ → _))

/-- The ack of the server is the only message on the connection of the host. -/
structure HostWaits (setup : Setup) (h : ClientId) (s : State) : Prop where
  inv : Inv setup h s
  onlyAcks : ∀ msg ∈ s.written h, msg = .ack
  barrier : ∀ root, s.clients h = .stopped root → ∀ c, setup.IsClient c → c ∈ s.acks

/-- An ack on the connection of the host was written after all acks were read. -/
theorem Inv.released_of_ack (inv : Inv setup h s) (written : .ack ∈ s.written h) :
    Released s.server s.clientSockets h := by
  by_contra idle
  rcases inv.written.pending h idle with none | ⟨root, table, only⟩
  · rw [none] at written
    cases written
  · -- a root pointer is not null
    rw [only, List.mem_singleton] at written
    obtain ⟨_, positive⟩ := inv.clients.address root table
    injection written with first
    omega

theorem HostWaits.next (waits : HostWaits setup h s) (one : setup.OneHost h) (skips : SkipsHost h s action)
    (enabled : exec setup s action = some s') : HostWaits setup h s' where
  inv := waits.inv.next one enabled
  onlyAcks msg member := by
    rcases (exec_effect enabled).wrote h msg member with old | ack | ⟨d, rfl, target⟩
    · exact waits.onlyAcks msg old
    · exact ack
    · have sends : d = h := by
        cases at_ : s.clients d with
        | sendRoot root i => exact waits.inv.clients.onlyHost d root i at_
        | _ =>
          rw [at_] at target
          cases target
      exact absurd target (sends ▸ skips (by rw [sends]))
  barrier root stopped c isClient := by
    have effect := exec_effect enabled
    refine effect.acks ?_
    rcases effect.stopped h root stopped with before | ⟨msg, rest, _, queue⟩
    · exact waits.barrier root before c isClient
    · obtain ⟨read, wrote, _⟩ := waits.inv.reads queue
      have member : msg ∈ s.written h := by simp [wrote]
      have released := waits.inv.released_of_ack (waits.onlyAcks msg member ▸ member)
      exact waits.inv.sockets.all_acks released c isClient

theorem HostWaits.start (setup : Setup) (h : ClientId) : HostWaits setup h initial :=
  ⟨.start setup h, by simp [initial], by simp [initial]⟩

/-- No client but the host returns from `Stop` before all acks were read, and the host does
not either if the broadcast was over before its own connection was accepted. -/
theorem stop_barrier (setup : Setup) (h : ClientId) (one : setup.OneHost h) :
    (∀ s, Reachable (exec setup) initial s → ∀ c root, c ≠ h → s.clients c = .stopped root →
      ∀ c', setup.IsClient c' → c' ∈ s.acks) ∧
    ∀ s, Steps (exec setup) (SkipsHost h) initial s → ∀ c root, s.clients c = .stopped root →
      ∀ c', setup.IsClient c' → c' ∈ s.acks := by
  have others : ∀ s, Reachable (exec setup) initial s → ∀ c root, c ≠ h → s.clients c = .stopped root →
      ∀ c', setup.IsClient c' → c' ∈ s.acks :=
    fun s reachable => (Inv.reachable one reachable).clients.barrier
  refine ⟨others, fun s run c root stopped => ?_⟩
  by_cases same : c = h
  · subst same
    have waits : HostWaits setup c s :=
      run.invariant (.start setup c) fun _ _ _ waits skips enabled => waits.next one skips enabled
    exact waits.barrier root stopped
  · exact others s run.reachable c root same stopped

def pair : Setup := ⟨1, 2, 2⟩

theorem pair_oneHost : pair.OneHost ⟨0, 0⟩ := by
  refine ⟨by decide, by decide, ?_⟩
  rintro ⟨node, thread⟩ ⟨isNode, isThread⟩ isHost
  simp only [pair, Setup.IsHost, Setup.selfId, Setup.hostId] at isNode isThread isHost
  obtain rfl : node = 0 := by omega
  obtain rfl : thread = 0 := by omega
  rfl

/-- Both threads of the node take the step in turn. -/
def both : List Action := [.client ⟨0, 0⟩, .client ⟨0, 1⟩]

/-- The two threads meet at the barriers of the node and send their acks. -/
def workload : List Action := (List.replicate 6 both).flatten

/-- The host's connection is accepted after the broadcast. -/
def lateHost : List Action :=
  List.replicate 2 (.connect 0) ++ .accept ⟨0, 1⟩ :: List.replicate 3 (.client ⟨0, 0⟩) ++
    .accept ⟨0, 0⟩ :: List.replicate 2 (.client ⟨0, 1⟩) ++ workload ++ List.replicate 7 .server ++ both

theorem stop_barrier_lateHost : ∃ s : State, (s.clients ⟨0, 0⟩, s.acks) = (.stopped ⟨0, 1⟩, [⟨0, 1⟩, ⟨0, 0⟩]) ∧
    ∀ c, pair.IsClient c → c ∈ s.acks := by
  have ran : (runAll (fun s action => if SkipsHost ⟨0, 0⟩ s action then exec pair s action else none) initial
      lateHost).map (fun s => (s.clients ⟨0, 0⟩, s.acks)) = some (.stopped ⟨0, 1⟩, [⟨0, 1⟩, ⟨0, 0⟩]) := by
    decide +kernel
  obtain ⟨s, final, view⟩ := Option.map_eq_some_iff.mp ran
  injection id view with stopped
  exact ⟨s, view, (stop_barrier pair ⟨0, 0⟩ pair_oneHost).2 s (steps_of_runAll lateHost final) _ _ stopped⟩

/-- The host's connection is accepted before the broadcast. -/
def leftover : List Action :=
  List.replicate 2 (.connect 0) ++ [.accept ⟨0, 0⟩, .accept ⟨0, 1⟩] ++ List.replicate 4 (.client ⟨0, 0⟩) ++
    List.replicate 2 (.client ⟨0, 1⟩) ++ workload ++ [.client ⟨0, 0⟩]

theorem not_stop_barrier_leftover : ¬ ∀ (setup : Setup) (h : ClientId), setup.OneHost h →
    ∀ s, Reachable (exec setup) initial s → ∀ c root, s.clients c = .stopped root →
      ∀ c', setup.IsClient c' → c' ∈ s.acks := by
  intro claimed
  have ran : (runAll (exec pair) initial leftover).map (fun s => (s.clients ⟨0, 0⟩, s.acks)) =
      some (.stopped ⟨0, 1⟩, []) := by decide +kernel
  obtain ⟨s, final, view⟩ := Option.map_eq_some_iff.mp ran
  injection view with stopped acks
  have heard := claimed pair ⟨0, 0⟩ pair_oneHost s (reachable_of_runAll leftover final) _ _ stopped ⟨0, 0⟩ (by decide)
  rw [acks] at heard
  cases heard

/-! ## The root pointer -/

def ClientPc.atEnd (sockets : List ClientId) : ClientPc → Bool
  | .sendRoot _ i => decide (sockets.length ≤ i)
  | _ => false

/-- When the loop of the broadcast ends, the server thread has accepted all connections. -/
def AllAccepted (setup : Setup) (h : ClientId) (s : State) (action : Action) : Prop :=
  action = .client h → (s.clients h).atEnd s.clientSockets = true → s.clientSockets.length = setup.total

instance (setup : Setup) (h : ClientId) (s : State) (action : Action) : Decidable (AllAccepted setup h s action) :=
  inferInstanceAs (Decidable (_ → _))

def Delivered (setup : Setup) (h : ClientId) (s : State) : Prop :=
  ∀ root, (s.clients h).root = some root → ∀ c, setup.IsClient c → { first := root.address } ∈ s.written c

theorem Delivered.next (delivered : Delivered setup h s) (inv : Inv setup h s) (all : AllAccepted setup h s action)
    (enabled : exec setup s action = some s') : Delivered setup h s' := by
  intro root has c isClient
  have effect := exec_effect enabled
  refine effect.written c ?_
  rcases effect.exchanged h root has with before | receiving | ⟨acts, i, sending, past⟩
  · exact delivered root before c isClient
  · exact absurd receiving inv.clients.notHost
  · -- the loop has written to the first `i` connections, which are all
    obtain ⟨_, wrote⟩ := inv.written.sending root i sending
    have ended : s.clientSockets.length ≤ i := List.getElem?_eq_none_iff.mp past
    have socket := inv.sockets.all (all acts (by rw [sending]; exact decide_eq_true ended)) isClient
    rw [wrote c, List.take_of_length_le ended, if_pos socket]
    exact List.mem_singleton_self _

/-- The messages on a connection that carry `root`. -/
def State.carriers (s : State) (c : ClientId) (root : RemotePtr) : Nat :=
  (s.written c).countP fun msg => msg.first = root.address

theorem Broadcast.countP {host : ClientPc} {msgs : List Message} {root : RemotePtr} (broadcast : Broadcast host msgs)
    (table : host.table = some root) : msgs.countP (fun msg => msg.first = root.address) = msgs.length := by
  rcases broadcast with rfl | ⟨root', table', rfl⟩
  · rfl
  · rw [table] at table'
    cases table'
    simp

/-- The broadcast is the only source of messages with the root pointer. -/
theorem Inv.carriers (inv : Inv setup h s) {root : RemotePtr} (table : (s.clients h).table = some root) {c : ClientId}
    (written : { first := root.address } ∈ s.written c) : s.carriers c root = 1 := by
  have positive := (inv.clients.address root table).2
  have once : ∀ msgs, Broadcast (s.clients h) msgs → { first := root.address } ∈ msgs →
      msgs.countP (fun msg => msg.first = root.address) = 1 := by
    intro msgs broadcast member
    rw [broadcast.countP table]
    rcases broadcast with rfl | ⟨_, _, rfl⟩
    · cases member
    · rfl
  unfold State.carriers
  by_cases released : Released s.server s.clientSockets c
  · obtain ⟨msgs, broadcast, wrote⟩ := inv.written.released c released
    rw [wrote, List.mem_append, List.mem_singleton] at written
    have apart : ({ first := root.address } : Message) ≠ .ack := by
      intro same
      injection same with first
      omega
    have ack : ¬ Message.ack.first = root.address := by
      simp only [Message.ack]
      omega
    rw [wrote, List.countP_append, once msgs broadcast (written.resolve_right apart)]
    simp [ack]
  · exact once _ (inv.written.pending c released) written

/-- When the host's `ExchangePointer` has returned, every connection carries the root pointer
once, provided that all connections were accepted when its loop ended. -/
theorem root_reaches_all (setup : Setup) (h : ClientId) (one : setup.OneHost h) {s : State}
    (run : Steps (exec setup) (AllAccepted setup h) initial s) {root : RemotePtr}
    (returned : (s.clients h).root = some root) {c : ClientId} (isClient : setup.IsClient c) :
    s.carriers c root = 1 := by
  have inv := Inv.reachable one run.reachable
  have delivered : Delivered setup h s := by
    have start : Inv setup h initial ∧ Delivered setup h initial :=
      ⟨.start setup h, by simp [Delivered, initial, ClientPc.root]⟩
    have both : Inv setup h s ∧ Delivered setup h s := by
      refine run.invariant (P := fun s => Inv setup h s ∧ Delivered setup h s) start ?_
      intro s s' action before all enabled
      exact ⟨before.1.next one enabled, before.2.next before.1 all enabled⟩
    exact both.2
  have table := inv.clients.shared h root returned
  exact inv.carriers table (delivered root returned c isClient)

/-- Both connections are accepted before the host writes to them. -/
def allAccepted : List Action :=
  List.replicate 2 (.connect 0) ++ [.accept ⟨0, 1⟩, .accept ⟨0, 0⟩] ++ List.replicate 4 (.client ⟨0, 0⟩)

theorem root_reaches_all_allAccepted : ∃ s : State, (s.clients ⟨0, 0⟩).root = some ⟨0, 1⟩ ∧
    s.carriers ⟨0, 1⟩ ⟨0, 1⟩ = 1 := by
  have ran : (runAll (fun s action => if AllAccepted pair ⟨0, 0⟩ s action then exec pair s action else none) initial
      allAccepted).map (fun s => (s.clients ⟨0, 0⟩).root) = some (some ⟨0, 1⟩) := by decide +kernel
  obtain ⟨s, final, returned⟩ := Option.map_eq_some_iff.mp ran
  exact ⟨s, returned, root_reaches_all pair ⟨0, 0⟩ pair_oneHost (steps_of_runAll allAccepted final) returned
    (by decide)⟩

/-- The host writes the pointer before the server thread has accepted a connection. -/
def earlyHost : List Action := List.replicate 2 (.connect 0) ++ List.replicate 2 (.client ⟨0, 0⟩)

theorem not_root_reaches_all_earlyHost : ¬ ∀ (setup : Setup) (h : ClientId), setup.OneHost h →
    ∀ s, Reachable (exec setup) initial s → ∀ root, (s.clients h).root = some root →
      ∀ c, setup.IsClient c → s.carriers c root = 1 := by
  intro claimed
  have ran : (runAll (exec pair) initial earlyHost).map
      (fun s => ((s.clients ⟨0, 0⟩).root, s.carriers ⟨0, 1⟩ ⟨0, 1⟩)) = some (some ⟨0, 1⟩, 0) := by decide +kernel
  obtain ⟨s, final, view⟩ := Option.map_eq_some_iff.mp ran
  injection view with returned none
  have sent := claimed pair ⟨0, 0⟩ pair_oneHost s (reachable_of_runAll earlyHost final) _ returned ⟨0, 1⟩ (by decide)
  omega

end RdmaIht.Tcp
