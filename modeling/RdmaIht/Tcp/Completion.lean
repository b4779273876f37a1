import RdmaIht.Tcp.Termination

/-! When an experiment ends as it should.

A run can only stop with all threads joined, or with clients that wait for a root
pointer the broadcast has not written to their connections. The connection of the
host is no exception to the accepts: its own client does not read the pointer.
-/

set_option autoImplicit false

namespace RdmaIht.Tcp

open Concurrency

variable {setup : Setup} {h : ClientId} {s s' : State}

def ClientPc.leaving : ClientPc → Bool
  | .stopping _ | .recvAck _ | .stopped _ => true
  | _ => false

structure Coordinated (h : ClientId) (s : State) : Prop where
  barriers : ∀ c root k, s.clients c = .atBarrier root k → k ≤ 3
  done : ∀ c, c.thread = 0 → (s.clients c).leaving = true → s.done c.node = true
  sent : ∀ c, (s.clients c).acked = true → c ∈ s.acks ∨ s.toServer c ≠ []
  received : ∀ c root, c ≠ h → (s.clients c).root = some root → { first := root.address } ∈ s.written c

theorem Coordinated.start (h : ClientId) : Coordinated h initial := by
  constructor <;> simp [initial, ClientPc.leaving, ClientPc.acked, ClientPc.root]

theorem Coordinated.quiet (coordinated : Coordinated h s) (clients : s'.clients = s.clients) (done : s'.done = s.done)
    (sent : ∀ c, c ∈ s.acks ∨ s.toServer c ≠ [] → c ∈ s'.acks ∨ s'.toServer c ≠ [])
    (written : ∀ c, s.written c ⊆ s'.written c) : Coordinated h s' where
  barriers := by rw [clients]; exact coordinated.barriers
  done := by rw [clients, done]; exact coordinated.done
  sent c acked := sent c (coordinated.sent c (by rw [← clients]; exact acked))
  received c root other has := written c (coordinated.received c root other (by rw [← clients]; exact has))

theorem Coordinated.move (coordinated : Coordinated h s) {c : ClientId} {pc' : ClientPc}
    (clients : s'.clients = Function.update s.clients c pc') (acks : s'.acks = s.acks)
    (toServer : ∀ d, s.toServer d ≠ [] → s'.toServer d ≠ []) (written : ∀ d, s.written d ⊆ s'.written d)
    (done : ∀ node, s.done node = true → s'.done node = true)
    (barrier : ∀ root k, pc' = .atBarrier root k → k ≤ 3)
    (leaving : c.thread = 0 → pc'.leaving = true → s'.done c.node = true)
    (acked : pc'.acked = true → (s.clients c).acked = true ∨ s'.toServer c ≠ [])
    (has : ∀ root, c ≠ h → pc'.root = some root → { first := root.address } ∈ s'.written c) : Coordinated h s' := by
  constructor
  · intro d root k at_
    rw [clients, Function.update_apply] at at_
    split at at_
    · exact barrier root k at_
    · exact coordinated.barriers d root k at_
  · intro d first past
    rw [clients, Function.update_apply] at past
    split at past
    · next same => exact same ▸ leaving (same ▸ first) past
    · exact done _ (coordinated.done d first past)
  · intro d sends
    have before : (s.clients d).acked = true → d ∈ s'.acks ∨ s'.toServer d ≠ [] := by
      intro old
      rw [acks]
      exact (coordinated.sent d old).imp_right (toServer d)
    rw [clients, Function.update_apply] at sends
    split at sends
    · next same =>
      subst same
      rcases acked sends with old | new
      · exact before old
      · exact .inr new
    · exact before sends
  · intro d root other holds
    rw [clients, Function.update_apply] at holds
    split at holds
    · next same => exact same ▸ has root (same ▸ other) holds
    · exact written d (coordinated.received d root other holds)

/-- The first message on a connection that is not yet released is the root pointer. -/
theorem Inv.root_read (inv : Inv setup h s) {c : ClientId} (isClient : setup.IsClient c)
    (receiving : s.clients c = .recvRoot) {msg : Message} {rest : List Message} (queue : s.toClient c = msg :: rest) :
    { first := msg.first } ∈ s.written c := by
  have idle : ¬ Released s.server s.clientSockets c := by
    intro released
    have acked := inv.clients.acked c (inv.sockets.all_acks released c isClient)
    rw [receiving] at acked
    cases acked
  obtain ⟨read, wrote, _⟩ := inv.reads queue
  have member : msg ∈ s.written c := by simp [wrote]
  rcases inv.written.pending c idle with none | ⟨root, _, only⟩
  · rw [none] at member
    cases member
  · rw [only] at member ⊢
    rw [List.mem_singleton.mp member]
    exact List.mem_singleton_self _

theorem Coordinated.server (coordinated : Coordinated h s) (branch : ServerBranch setup s s') : Coordinated h s' := by
  cases branch with
  | accepted | waited | received | sent =>
    exact coordinated.quiet rfl rfl (fun c sent => sent) (fun c => List.Subset.refl _)
  | @readAck i c msg rest =>
    refine coordinated.quiet rfl rfl (fun d sent => ?_) (fun d => List.Subset.refl _)
    by_cases same : d = c
    · exact .inl (by simp [same])
    · dsimp only
      rw [Function.update_of_ne same]
      exact sent.imp_left fun member => List.mem_append_left _ member
  | @writeAck i c =>
    exact coordinated.quiet rfl rfl (fun d sent => sent) (fun d => (s.written_write c d .ack).1)

theorem Coordinated.client (coordinated : Coordinated h s) (inv : Inv setup h s) {c : ClientId}
    (isClient : setup.IsClient c) (branch : ClientBranch setup s c s') : Coordinated h s' := by
  have same : ∀ d, s.written d ⊆ s.written d := fun d => List.Subset.refl _
  cases branch with
  | host start | guest start =>
    exact coordinated.move rfl rfl (fun d some => some) same (fun _ set => set) (by simp) (by simp [ClientPc.leaving])
      (by simp [ClientPc.acked]) (by simp [ClientPc.root])
  | sent sending =>
    refine coordinated.move rfl rfl (fun d some => some) same (fun _ set => set) (by simp) (by simp [ClientPc.leaving])
      (by simp [ClientPc.acked]) (fun root other _ => ?_)
    exact absurd (inv.clients.onlyHost c _ _ sending) other
  | @writeRoot root i d sending =>
    exact coordinated.move rfl rfl (fun d some => some) (fun e => (s.written_write d e _).1) (fun _ set => set)
      (by simp) (by simp [ClientPc.leaving]) (by simp [ClientPc.acked]) (by simp [ClientPc.root])
  | readRoot receiving queue =>
    refine coordinated.move rfl rfl (fun d some => some) same (fun _ set => set) (by simp) (by simp [ClientPc.leaving])
      (by simp [ClientPc.acked]) (fun root _ has => ?_)
    cases has
    exact inv.root_read isClient receiving queue
  | populated point | worked point =>
    refine coordinated.move rfl rfl (fun d some => some) same (fun _ set => set) ?_ (by simp [ClientPc.leaving])
      (by simp [ClientPc.acked]) (fun root other has => ?_)
    · rintro root k same
      cases same
      decide
    · exact coordinated.received c root other (by rw [point]; exact has)
  | @barrier root k point =>
    have holds : ∀ root', c ≠ h → some root = some root' → { first := root'.address } ∈ s.written c :=
      fun root' other has => coordinated.received c root' other (by rw [point]; exact has)
    unfold afterBarrier
    split
    · refine coordinated.move rfl rfl (fun d some => some) same (fun _ set => set) ?_ (by simp [ClientPc.leaving])
        (by simp [ClientPc.acked]) holds
      rintro root' k same
      cases same
      decide
    · exact coordinated.move rfl rfl (fun d some => some) same (fun _ set => set) (by simp) (by simp [ClientPc.leaving])
        (by simp [ClientPc.acked]) holds
    · refine coordinated.move rfl rfl (fun d some => some) same (fun node set => ?_) (by simp) (fun first _ => ?_)
        (by simp [ClientPc.acked]) holds
      · dsimp only
        split
        · rw [Function.update_apply]
          split
          · rfl
          · exact set
        · exact set
      · dsimp only
        rw [if_pos first, Function.update_self]
  | @sendAck root point =>
    refine coordinated.move rfl rfl (fun d some => ?_) same (fun _ set => set) (by simp) (fun first _ => ?_)
      (fun _ => .inr ?_) (fun root' other has => ?_)
    · dsimp only
      rw [Function.update_apply]
      split
      · simp
      · exact some
    · exact coordinated.done c first (by rw [point]; rfl)
    · simp
    · exact coordinated.received c root' other (by rw [point]; exact has)
  | readLast point =>
    refine coordinated.move rfl rfl (fun d some => some) same (fun _ set => set) (by simp) (fun first _ => ?_)
      (fun _ => .inl (by rw [point]; rfl)) (fun root' other has => ?_)
    · exact coordinated.done c first (by rw [point]; rfl)
    · exact coordinated.received c root' other (by rw [point]; exact has)

theorem Coordinated.next (coordinated : Coordinated h s) (inv : Inv setup h s) {action : Action}
    (enabled : exec setup s action = some s') : Coordinated h s' := by
  cases exec_branch enabled with
  | connect | accept => exact coordinated.quiet rfl rfl (fun c sent => sent) (fun c => List.Subset.refl _)
  | server branch => exact coordinated.server branch
  | client isClient branch => exact coordinated.client inv isClient branch

/-! ## Where threads can be stuck -/

/-- The host's `ExchangePointer` has returned, and its pointer is on every other connection. -/
def Reached (setup : Setup) (h : ClientId) (s : State) : Prop :=
  ∃ root, (s.clients h).root = some root ∧
    ∀ c, setup.IsClient c → c ≠ h → { first := root.address } ∈ s.written c

theorem Setup.nodup_clients (setup : Setup) : setup.clients.Nodup := by
  refine List.nodup_flatMap.mpr ⟨fun n _ => ?_, ?_⟩
  · exact List.nodup_range.map fun t t' same => by injection same
  · refine List.nodup_range.imp ?_
    intro n n' apart c member member'
    obtain ⟨t, _, rfl⟩ := List.mem_map.mp member
    obtain ⟨t', _, same⟩ := List.mem_map.mp member'
    injection same with node
    exact apart node.symm

theorem Sockets.length_le {server : ServerPc} {sockets acks : List ClientId} {endpoints : Nat → Nat}
    (inv : Sockets setup server sockets acks endpoints) : sockets.length ≤ setup.total := by
  have inside : sockets ⊆ setup.clients := fun c member => (setup.mem_clients c).mpr (inv.isClient c member)
  rw [← setup.length_clients]
  exact (List.subperm_of_subset inv.nodup inside).length_le

section Stuck

variable (inv : Inv setup h s) (stuck : Stuck (exec setup) s)

include inv stuck

theorem Inv.connected {node : Nat} (inside : node < setup.nodeCount) : s.endpoints node = setup.threadCount := by
  by_contra fewer
  have room : s.endpoints node < setup.threadCount := Nat.lt_of_le_of_ne (inv.sockets.bounded node) fewer
  have step := stuck (.connect node)
  simp [exec, inside, room] at step

theorem Inv.not_accepting : s.server ≠ .accepting := by
  intro accepting
  by_cases full : s.clientSockets.length = setup.total
  · have step := stuck .server
    simp [exec, serverStep, accepting, full] at step
  · have room : s.clientSockets.length < setup.total := Nat.lt_of_le_of_ne inv.sockets.length_le full
    obtain ⟨c, member, fresh⟩ : ∃ c ∈ setup.clients, c ∉ s.clientSockets := by
      by_contra none
      have inside : setup.clients ⊆ s.clientSockets := by
        intro c member
        by_contra fresh
        exact none ⟨c, member, fresh⟩
      have fits := (List.subperm_of_subset setup.nodup_clients inside).length_le
      rw [setup.length_clients] at fits
      omega
    have isClient := (setup.mem_clients c).mp member
    have step := stuck (.accept c)
    simp [exec, accepting, room, isClient.1, inv.connected stuck isClient.1, isClient.2, fresh] at step

omit inv in
theorem stuck_client {c : ClientId} (isClient : setup.IsClient c) : clientStep setup s c = none := by
  have step := stuck (.client c)
  simpa only [exec, if_pos isClient] using step

/-- A thread that has its root pointer is only ever stuck at a barrier or in `Stop`. -/
theorem Inv.stuck_point (reached : Reached setup h s) {c : ClientId} (isClient : setup.IsClient c) :
    (∃ root k, s.clients c = .atBarrier root k) ∨ (s.clients c).acked = true := by
  have step := stuck_client stuck isClient
  have connected := inv.connected stuck isClient.1
  cases at_ : s.clients c with
  | start =>
    simp only [clientStep, at_, connected, if_true] at step
    split at step <;> cases step
  | sendRoot root i =>
    simp only [clientStep, at_] at step
    split at step <;> cases step
  | recvRoot =>
    have other : c ≠ h := by
      rintro rfl
      exact inv.clients.notHost at_
    obtain ⟨root, _, all⟩ := reached
    obtain ⟨read, wrote, length⟩ := inv.clients.consumed c
    rw [at_] at length
    obtain rfl : read = [] := List.length_eq_zero_iff.mp length
    cases queue : s.toClient c with
    | nil =>
      have written := all c isClient other
      rw [wrote, queue] at written
      cases written
    | cons msg rest => simp [clientStep, at_, queue] at step
  | atBarrier root k => exact .inl ⟨root, k, rfl⟩
  | populating | working | stopping => simp [clientStep, at_] at step
  | recvAck | stopped => exact .inr rfl

/-- The threads of a process that have arrived least often can go on. -/
theorem Inv.not_atBarrier (coordinated : Coordinated h s) (reached : Reached setup h s) (k : Nat) :
    ∀ c root, setup.IsClient c → s.clients c ≠ .atBarrier root k := by
  induction k using Nat.strongRecOn with
  | ind k ih =>
    intro c root isClient at_
    have step := stuck_client stuck isClient
    simp only [clientStep, at_] at step
    split at step
    · cases step
    · next waits =>
      obtain ⟨t, waits⟩ := Classical.not_forall.mp waits
      obtain ⟨inside, waits⟩ := Classical.not_imp.mp waits
      have isClient' : setup.IsClient ⟨c.node, t⟩ := ⟨isClient.1, inside⟩
      rcases inv.stuck_point stuck reached isClient' with ⟨root', k', there⟩ | acked
      · rw [there] at waits
        exact ih k' (by simpa [ClientPc.arrivals] using waits) ⟨c.node, t⟩ root' isClient' there
      · have bound := coordinated.barriers c root k at_
        cases past : s.clients ⟨c.node, t⟩ with
        | recvAck | stopped =>
          rw [past] at waits
          exact waits bound
        | _ =>
          rw [past] at acked
          cases acked

theorem Inv.all_acked (coordinated : Coordinated h s) (reached : Reached setup h s) {c : ClientId}
    (isClient : setup.IsClient c) : (s.clients c).acked = true := by
  rcases inv.stuck_point stuck reached isClient with ⟨root, k, at_⟩ | acked
  · exact absurd at_ (inv.not_atBarrier stuck coordinated reached k c root isClient)
  · exact acked

theorem Inv.server_finished (coordinated : Coordinated h s) (reached : Reached setup h s) (one : setup.IsClient h) :
    s.server = .finished := by
  have step := stuck .server
  have read := inv.sockets.read
  cases server : s.server with
  | accepting => exact absurd server (inv.not_accepting stuck)
  | waiting =>
    have first : setup.IsClient ⟨0, 0⟩ := ⟨Nat.zero_lt_of_lt one.1, Nat.zero_lt_of_lt one.2⟩
    have acked := inv.all_acked stuck coordinated reached first
    have leaving : (s.clients ⟨0, 0⟩).leaving = true := by
      revert acked
      cases s.clients ⟨0, 0⟩ <;> simp [ClientPc.acked, ClientPc.leaving]
    have done := coordinated.done ⟨0, 0⟩ rfl leaving
    simp only [exec, serverStep, server, done, if_true] at step
    cases step
  | recvAcks i =>
    rw [server] at read
    cases socket : s.clientSockets[i]? with
    | none => simp [exec, serverStep, server, socket] at step
    | some c =>
      -- the ack of a client whose turn has not come is still on its connection
      have unread : c ∉ s.acks := by
        rw [read, ServerPc.heard]
        intro member
        obtain ⟨j, inside, at_⟩ := List.mem_take_iff_getElem.mp member
        obtain ⟨bound, there⟩ := List.getElem?_eq_some_iff.mp socket
        have same := (List.Nodup.getElem_inj_iff inv.sockets.nodup).mp (at_.trans there.symm)
        omega
      have isClient := inv.sockets.isClient c (List.mem_of_getElem? socket)
      have sent := (coordinated.sent c (inv.all_acked stuck coordinated reached isClient)).resolve_left unread
      obtain ⟨msg, rest, queue⟩ := List.exists_cons_of_ne_nil sent
      simp [exec, serverStep, server, socket, queue] at step
  | sendAcks i =>
    cases socket : s.clientSockets[i]? <;> simp [exec, serverStep, server, socket] at step
  | finished => rfl

/-- With the ack of the server, each connection has carried one message more than its client has read before it
waits for that ack. -/
theorem Inv.all_stopped (coordinated : Coordinated h s) (reached : Reached setup h s) (one : setup.OneHost h)
    {c : ClientId} (isClient : setup.IsClient c) : (s.clients c).ended = true := by
  have finished := inv.server_finished stuck coordinated reached one.1
  have acked := inv.all_acked stuck coordinated reached isClient
  have step := stuck_client stuck isClient
  have released : Released s.server s.clientSockets c := by
    rw [finished]
    exact inv.sockets.all (inv.sockets.full (by rw [finished]; simp)) isClient
  obtain ⟨msgs, _, wrote⟩ := inv.written.released c released
  obtain ⟨read, wrote', length⟩ := inv.clients.consumed c
  cases at_ : s.clients c with
  | recvAck root =>
    have some : s.toClient c ≠ [] := by
      intro none
      rw [none, List.append_nil, wrote] at wrote'
      rw [at_, ← wrote', List.length_append, List.length_singleton] at length
      by_cases same : c = h
      · simp [same, ClientPc.consumed] at length
      · obtain ⟨root', has, all⟩ := reached
        have written := all c isClient same
        have positive := (inv.clients.address root' (inv.clients.shared h root' has)).2
        rw [wrote, List.mem_append, List.mem_singleton] at written
        rcases written with broadcast | ack
        · have none : msgs = [] := by simpa [same, ClientPc.consumed] using length
          rw [none] at broadcast
          cases broadcast
        · injection ack with first
          omega
    obtain ⟨msg, rest, queue⟩ := List.exists_cons_of_ne_nil some
    simp [clientStep, at_, queue] at step
  | stopped => rfl
  | _ =>
    rw [at_] at acked
    cases acked

end Stuck

/-! ## Runs of `main` -/

structure Orderly (setup : Setup) (h : ClientId) (e : Experiment) : Prop where
  joined : Joined setup h e
  coordinated : Coordinated h e.state
  bounded : ∀ node, e.joined node ≤ (setup.threads node).length

theorem Orderly.next {e e' : Experiment} {move : Move} (orderly : Orderly setup h e) (one : setup.OneHost h)
    (first : h.node = 0) (enabled : mainExec setup e move = some e') : Orderly setup h e' := by
  have joined := orderly.joined.next one first enabled
  cases move with
  | run action =>
    obtain ⟨s', stepped, rfl⟩ := Option.map_eq_some_iff.mp enabled
    exact ⟨joined, orderly.coordinated.next orderly.joined.inv stepped, orderly.bounded⟩
  | join node =>
    simp only [mainExec] at enabled
    split at enabled
    · split at enabled
      · cases enabled
      · next thread at_ =>
        split at enabled
        · cases enabled
          refine ⟨joined, orderly.coordinated, fun n => ?_⟩
          obtain ⟨inside, _⟩ := List.getElem?_eq_some_iff.mp at_
          dsimp only
          rw [Function.update_apply]
          split
          · next same => exact same ▸ inside
          · exact orderly.bounded n
        · cases enabled
    · cases enabled

theorem Orderly.reachable {e : Experiment} (one : setup.OneHost h) (first : h.node = 0)
    (reachable : Reachable (mainExec setup) mainInitial e) : Orderly setup h e := by
  refine Steps.invariant reachable ?_ fun _ _ _ orderly _ enabled => orderly.next one first enabled
  exact ⟨.reachable one first (.refl _), .start h, fun _ => Nat.zero_le _⟩

theorem root_next {action : Action} {c : ClientId} {root : RemotePtr} (enabled : exec setup s action = some s')
    (has : (s.clients c).root = some root) : (s'.clients c).root = some root := by
  cases exec_branch enabled with
  | connect | accept => exact has
  | server branch =>
    cases branch <;> exact has
  | @client d _ _ branch =>
    by_cases same : c = d
    · subst same
      cases branch with
      | host point | guest point | sent point | writeRoot point | readRoot point =>
        rw [point] at has
        cases has
      | populated point | worked point | sendAck point | readLast point =>
        rw [point] at has
        simpa [State.setClient, ClientPc.root] using has
      | barrier point =>
        rw [point] at has
        unfold afterBarrier
        split <;> simpa [State.setClient, ClientPc.root] using has
    · cases branch with
      | barrier =>
        unfold afterBarrier
        split <;> simpa [State.setClient, same] using has
      | _ => simpa [State.setClient, State.write, same] using has

theorem Inv.unwritten_next (inv : Inv setup h s) {action : Action} {c : ClientId} {root : RemotePtr}
    (enabled : exec setup s action = some s') (has : (s.clients h).root = some root)
    (missing : { first := root.address } ∉ s.written c) : { first := root.address } ∉ s'.written c := by
  intro written
  rcases (exec_effect enabled).wrote c _ written with old | ack | ⟨d, _, target⟩
  · exact missing old
  · have positive := (inv.clients.address root (inv.clients.shared h root has)).2
    injection ack with first
    omega
  · cases at_ : s.clients d with
    | sendRoot root' i =>
      have sender := inv.clients.onlyHost d root' i at_
      rw [← sender, at_] at has
      cases has
    | _ =>
      rw [at_] at target
      cases target

theorem Orderly.persists {e e' : Experiment} {root : RemotePtr} (one : setup.OneHost h) (first : h.node = 0)
    (orderly : Orderly setup h e) (returned : (e.state.clients h).root = some root)
    (run : Reachable (mainExec setup) e e') :
    (e'.state.clients h).root = some root ∧ ∀ c, { first := root.address } ∈ e'.state.written c ↔
      { first := root.address } ∈ e.state.written c := by
  have kept : Orderly setup h e' ∧ (e'.state.clients h).root = some root ∧ ∀ c,
      { first := root.address } ∈ e'.state.written c ↔ { first := root.address } ∈ e.state.written c := by
    refine Steps.invariant (P := fun e' => Orderly setup h e' ∧ (e'.state.clients h).root = some root ∧ ∀ c,
      { first := root.address } ∈ e'.state.written c ↔ { first := root.address } ∈ e.state.written c) run
      ⟨orderly, returned, fun _ => Iff.rfl⟩ ?_
    intro u move v before _ enabled
    obtain ⟨orderly, returned, same⟩ := before
    refine ⟨orderly.next one first enabled, ?_⟩
    cases move with
    | run action =>
      obtain ⟨s', stepped, rfl⟩ := Option.map_eq_some_iff.mp enabled
      refine ⟨root_next stepped returned, fun c => ⟨fun written => ?_, fun written => ?_⟩⟩
      · rw [← same c]
        by_contra missing
        exact orderly.joined.inv.unwritten_next stepped returned missing written
      · exact (exec_effect stepped).written c ((same c).mpr written)
    | join node =>
      have state : v.state = u.state := by
        simp only [mainExec] at enabled
        split at enabled
        · split at enabled
          · cases enabled
          · split at enabled <;> cases enabled
            rfl
        · cases enabled
      rw [state]
      exact ⟨returned, same⟩
  exact kept.2

theorem Orderly.all_left {e : Experiment} (one : setup.OneHost h) (orderly : Orderly setup h e)
    (stuck : Stuck (mainExec setup) e) (reached : Reached setup h e.state) {node : Nat} (inside : node < setup.nodeCount) :
    Left setup e node := by
  have inv := orderly.joined.inv
  have halted : Stuck (exec setup) e.state := fun action => Option.map_eq_none_iff.mp (stuck (.run action))
  refine ⟨inside, Nat.le_antisymm (orderly.bounded node) ?_⟩
  have step := stuck (.join node)
  simp only [mainExec, inside, inv.connected halted inside, and_self, if_true] at step
  split at step
  · next past => exact List.getElem?_eq_none_iff.mp past
  · next thread at_ =>
    have ended : e.state.ended thread = true := by
      have member := List.mem_of_getElem? at_
      rw [Setup.threads, List.mem_append] at member
      rcases member with server | client
      · split at server
        · rw [List.mem_singleton.mp server]
          exact decide_eq_true (inv.server_finished halted orderly.coordinated reached one.1)
        · cases server
      · obtain ⟨t, member, rfl⟩ := List.mem_map.mp client
        exact inv.all_stopped halted orderly.coordinated reached one ⟨inside, List.mem_range.mp member⟩
    rw [if_pos ended] at step
    cases step

theorem ClientPc.root_of_acked {pc : ClientPc} (acked : pc.acked = true) : ∃ root, pc.root = some root := by
  cases pc <;> first | exact ⟨_, rfl⟩ | cases acked

/-- Of a client without the root pointer no process can wait for the ack. -/
theorem Orderly.none_left {e : Experiment} {root : RemotePtr} {c : ClientId} (orderly : Orderly setup h e)
    (returned : (e.state.clients h).root = some root) (isClient : setup.IsClient c) (other : c ≠ h)
    (missing : { first := root.address } ∉ e.state.written c) (node : Nat) : ¬ Left setup e node := by
  intro left
  have acked := orderly.joined.inv.clients.acked c (orderly.joined.acks node (left.began isClient) c isClient)
  obtain ⟨root', has⟩ := ClientPc.root_of_acked acked
  have same := orderly.joined.inv.clients.shared c root' has
  rw [orderly.joined.inv.clients.shared h root returned] at same
  cases same
  exact missing (orderly.coordinated.received c root other has)

theorem Params.Accepted.host_node {params : Params} (accepted : params.Accepted) (one : params.setup.OneHost h) :
    h.node = 0 := by
  obtain ⟨_, _, positive, _⟩ := accepted
  have pools : 0 < params.setup.mp := by simp only [Params.setup]; omega
  exact ((params.setup.isHost_iff pools h).mp one.2.1).1

/-- From the return of the host's `ExchangePointer` on, all runs come to an end in which every `main`
has joined its threads exactly if the broadcast has written to every connection but the
host's own; otherwise no `main` ever does. -/
theorem completes_iff (params : Params) (accepted : params.Accepted) {h : ClientId} (one : params.setup.OneHost h)
    {e : Experiment} (reachable : Reachable (mainExec params.setup) mainInitial e) {root : RemotePtr}
    (returned : (e.state.clients h).root = some root) :
    ((∀ e', Reachable (mainExec params.setup) e e' → Stuck (mainExec params.setup) e' →
        ∀ node < params.setup.nodeCount, Left params.setup e' node) ↔
      ∀ c, params.setup.IsClient c → c ≠ h → { first := root.address } ∈ e.state.written c) ∧
    ((∃ c, params.setup.IsClient c ∧ c ≠ h ∧ { first := root.address } ∉ e.state.written c) →
      ∀ e', Reachable (mainExec params.setup) e e' → ∀ node, ¬ Left params.setup e' node) := by
  have first := accepted.host_node one
  have orderly := Orderly.reachable one first reachable
  have never : (∃ c, params.setup.IsClient c ∧ c ≠ h ∧ { first := root.address } ∉ e.state.written c) →
      ∀ e', Reachable (mainExec params.setup) e e' → ∀ node, ¬ Left params.setup e' node := by
    rintro ⟨c, isClient, other, missing⟩ e' run node
    obtain ⟨returned', same⟩ := orderly.persists one first returned run
    have orderly' := Orderly.reachable one first (Steps.trans reachable run)
    exact orderly'.none_left returned' isClient other (mt (same c).mp missing) node
  refine ⟨⟨fun ends c isClient other => ?_, fun reached e' run stuck node inside => ?_⟩, never⟩
  · by_contra missing
    have room : Room params.setup e.state := (mainExec_lowers params.setup).reachable (room_initial _) reachable
    obtain ⟨e', run, stuck⟩ := (mainExec_lowers params.setup).exists_stuck room
    have left := ends e' run stuck 0 (Nat.zero_lt_of_lt one.1.1)
    exact never ⟨c, isClient, other, missing⟩ e' run 0 left
  · obtain ⟨returned', same⟩ := orderly.persists one first returned run
    have orderly' := Orderly.reachable one first (Steps.trans reachable run)
    refine orderly'.all_left one stuck ⟨root, returned', fun c isClient other => ?_⟩ inside
    exact (same c).mpr (reached c isClient other)

theorem pair_other {c : ClientId} (isClient : pair.IsClient c) (other : c ≠ ⟨0, 0⟩) : c = ⟨0, 1⟩ := by
  obtain ⟨node, thread⟩ := c
  obtain rfl : node = 0 := Nat.lt_one_iff.mp isClient.1
  have inside : thread < 2 := isClient.2
  have second : thread ≠ 0 := fun same => other (by rw [same])
  obtain rfl : thread = 1 := by omega
  rfl

theorem completes_iff_allAccepted : ∃ e : Experiment, (e.state.clients ⟨0, 0⟩).root = some ⟨0, 1⟩ ∧
    ∀ e', Reachable (mainExec pair) e e' → Stuck (mainExec pair) e' → Left pair e' 0 := by
  have ran : (runAll (mainExec pair) mainInitial (allAccepted.map .run)).map
      (fun e => ((e.state.clients ⟨0, 0⟩).root, e.state.written ⟨0, 1⟩)) =
      some (some ⟨0, 1⟩, [{ first := 1 }]) := by decide +kernel
  obtain ⟨e, final, view⟩ := Option.map_eq_some_iff.mp ran
  injection view with returned written
  have reachable : Reachable (mainExec pair) mainInitial e := reachable_of_runAll _ final
  have ends := (completes_iff ⟨2, 1, 10⟩ (by decide) pair_oneHost reachable returned).1.mpr (fun c isClient other => by
    obtain rfl := pair_other isClient other
    rw [written]
    exact List.mem_singleton_self _)
  exact ⟨e, returned, fun e' run stuck => ends e' run stuck 0 Nat.one_pos⟩

end RdmaIht.Tcp
