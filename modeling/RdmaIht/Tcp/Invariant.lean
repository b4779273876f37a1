import Mathlib.Data.List.Perm.Subperm
import RdmaIht.Tcp.Branches

/-! What holds in every run with one host thread.

Each connection carries to its client the root pointer, if the host's broadcast
reached it, and then at most the ack of the server, which is written only after an
ack of every client was read. A client that has read two messages therefore knows
that all clients have stopped.
-/

set_option autoImplicit false

namespace RdmaIht.Tcp

def Setup.clients (setup : Setup) : List ClientId :=
  (List.range setup.nodeCount).flatMap fun n => (List.range setup.threadCount).map fun t => ⟨n, t⟩

namespace Setup

variable (setup : Setup)

theorem mem_clients (c : ClientId) : c ∈ setup.clients ↔ setup.IsClient c := by
  simp only [clients, List.mem_flatMap, List.mem_map, List.mem_range, IsClient]
  constructor
  · rintro ⟨n, node, t, thread, rfl⟩
    exact ⟨node, thread⟩
  · rintro ⟨node, thread⟩
    exact ⟨c.node, node, c.thread, thread, rfl⟩

theorem length_clients : setup.clients.length = setup.total := by
  simp [clients, total, List.length_flatMap, Nat.mul_comm]

/-- `h` is the one client thread that takes the branch of the host. -/
def OneHost (h : ClientId) : Prop :=
  setup.IsClient h ∧ setup.IsHost h ∧ ∀ c, setup.IsClient c → setup.IsHost c → c = h

end Setup

def ClientPc.table : ClientPc → Option RemotePtr
  | .sendRoot root _ => some root
  | pc => pc.root

/-- The thread has sent the ack of its `Stop`. -/
def ClientPc.acked : ClientPc → Bool
  | .recvAck _ | .stopped _ => true
  | _ => false

/-- The messages a thread has read from its connection; the host's `ExchangePointer` reads none. -/
def ClientPc.consumed (isHost : Bool) : ClientPc → Nat
  | .start | .sendRoot _ _ | .recvRoot => 0
  | .stopped _ => if isHost then 1 else 2
  | _ => if isHost then 0 else 1

def ServerPc.heard (sockets : List ClientId) : ServerPc → List ClientId
  | .accepting | .waiting => []
  | .recvAcks i => sockets.take i
  | .sendAcks _ | .finished => sockets

section Parts

variable (setup : Setup) (h : ClientId)

structure Sockets (server : ServerPc) (sockets acks : List ClientId) (endpoints : Nat → Nat) : Prop where
  bounded : ∀ n, endpoints n ≤ setup.threadCount
  nodup : sockets.Nodup
  isClient : ∀ c ∈ sockets, setup.IsClient c
  full : server ≠ .accepting → sockets.length = setup.total
  read : acks = server.heard sockets

/-- The server has written its ack to `c`. -/
def Released (server : ServerPc) (sockets : List ClientId) (c : ClientId) : Prop :=
  match server with
  | .sendAcks j => c ∈ sockets.take j
  | .finished => c ∈ sockets
  | _ => False

def Broadcast (host : ClientPc) (msgs : List Message) : Prop :=
  msgs = [] ∨ ∃ root, host.table = some root ∧ msgs = [{ first := root.address }]

structure Written (server : ServerPc) (sockets : List ClientId) (host : ClientPc)
    (written : ClientId → List Message) : Prop where
  pending : ∀ c, ¬ Released server sockets c → Broadcast host (written c)
  released : ∀ c, Released server sockets c → ∃ msgs, Broadcast host msgs ∧ written c = msgs ++ [.ack]
  sending : ∀ root i, host = .sendRoot root i → i ≤ sockets.length ∧ ∀ c,
    written c = if c ∈ sockets.take i then [{ first := root.address }] else []

structure Clients (acks : List ClientId) (clients : ClientId → ClientPc)
    (written toClient toServer : ClientId → List Message) : Prop where
  acked : ∀ c ∈ acks, (clients c).acked = true
  sent : ∀ c, toServer c ≠ [] → (clients c).acked = true
  consumed : ∀ c, ∃ read, written c = read ++ toClient c ∧ read.length = (clients c).consumed (decide (c = h))
  onlyHost : ∀ c root i, clients c = .sendRoot root i → c = h
  notHost : clients h ≠ .recvRoot
  address : ∀ root, (clients h).table = some root → root.id = Setup.hostId ∧ 1 ≤ root.address
  shared : ∀ c root, (clients c).root = some root → (clients h).table = some root
  /-- A client other than the host returns from `Stop` after all acks were read. -/
  barrier : ∀ c root, c ≠ h → clients c = .stopped root → ∀ c', setup.IsClient c' → c' ∈ acks

end Parts

structure Inv (setup : Setup) (h : ClientId) (s : State) : Prop where
  nextAddress : 1 ≤ s.nextAddress
  sockets : Sockets setup s.server s.clientSockets s.acks s.endpoints
  written : Written s.server s.clientSockets (s.clients h) s.written
  clients : Clients setup h s.acks s.clients s.written s.toClient s.toServer

variable {setup : Setup} {h : ClientId} {s : State}

theorem Inv.start (setup : Setup) (h : ClientId) : Inv setup h initial where
  nextAddress := Nat.le_refl 1
  sockets := ⟨fun _ => Nat.zero_le _, List.nodup_nil, by simp [initial], by simp [initial], rfl⟩
  written := ⟨fun _ _ => .inl rfl, fun _ released => released.elim, by simp [initial]⟩
  clients :=
    { acked := by simp [initial]
      sent := fun _ some => absurd rfl some
      consumed := fun _ => ⟨[], rfl, rfl⟩
      onlyHost := by simp [initial]
      notHost := by simp [initial]
      address := by simp [initial, ClientPc.table, ClientPc.root]
      shared := by simp [initial, ClientPc.root]
      barrier := by simp [initial] }

theorem Sockets.all {server : ServerPc} {sockets acks : List ClientId} {endpoints : Nat → Nat}
    (inv : Sockets setup server sockets acks endpoints) (full : sockets.length = setup.total) {c : ClientId}
    (isClient : setup.IsClient c) : c ∈ sockets := by
  have inside : sockets ⊆ setup.clients := fun c' member => (setup.mem_clients c').mpr (inv.isClient c' member)
  have perm := (List.Nodup.subperm inv.nodup inside).perm_of_length_le
    (Nat.le_of_eq (setup.length_clients.trans full.symm))
  exact perm.mem_iff.mpr ((setup.mem_clients c).mpr isClient)

/-- The server writes its first ack after it has read all acks. -/
theorem Sockets.all_acks {server : ServerPc} {sockets acks : List ClientId} {endpoints : Nat → Nat}
    (inv : Sockets setup server sockets acks endpoints) {c : ClientId} (released : Released server sockets c) :
    ∀ c', setup.IsClient c' → c' ∈ acks := by
  intro c' isClient
  have read := inv.read
  cases server with
  | sendAcks j | finished =>
    rw [read]
    exact inv.all (inv.full (by simp)) isClient
  | accepting | waiting | recvAcks => exact released.elim

/-! ## Steps of the processes and the server -/

section Server

theorem Inv.connect (inv : Inv setup h s) {node : Nat} (room : s.endpoints node < setup.threadCount) :
    Inv setup h { s with endpoints := Function.update s.endpoints node (s.endpoints node + 1) } := by
  refine ⟨inv.nextAddress, { inv.sockets with bounded := ?_ }, inv.written, inv.clients⟩
  intro n
  dsimp only
  rw [Function.update_apply]
  split
  · exact room
  · exact inv.sockets.bounded n

theorem Inv.accept (inv : Inv setup h s) {c : ClientId} (accepting : s.server = .accepting)
    (node : c.node < setup.nodeCount) (thread : c.thread < s.endpoints c.node) (fresh : c ∉ s.clientSockets) :
    Inv setup h { s with clientSockets := s.clientSockets ++ [c] } := by
  have isClient : setup.IsClient c := ⟨node, Nat.lt_of_lt_of_le thread (inv.sockets.bounded _)⟩
  refine ⟨inv.nextAddress, ⟨inv.sockets.bounded, ?_, ?_, ?_, ?_⟩, ⟨?_, ?_, ?_⟩, inv.clients⟩
  · exact List.nodup_append.mpr ⟨inv.sockets.nodup, by simp, by
      intro a member b last same
      cases List.mem_singleton.mp last
      exact fresh (same ▸ member)⟩
  · intro d member
    rcases List.mem_append.mp member with old | new
    · exact inv.sockets.isClient d old
    · cases List.mem_singleton.mp new
      exact isClient
  · exact fun past => absurd accepting past
  · have read := inv.sockets.read
    rw [accepting] at read ⊢
    exact read
  · intro d _
    refine inv.written.pending d ?_
    rw [accepting]
    exact id
  · intro d released
    dsimp only at released
    rw [accepting] at released
    exact released.elim
  · -- the host sends to the sockets accepted before: the new one comes after them
    intro root i sending
    obtain ⟨bound, wrote⟩ := inv.written.sending root i sending
    refine ⟨by simp; omega, fun d => ?_⟩
    rw [List.take_append_of_le_length bound]
    exact wrote d

theorem Inv.proceed (inv : Inv setup h s) {server : ServerPc}
    (sockets : Sockets setup server s.clientSockets s.acks s.endpoints)
    (same : ∀ c, Released server s.clientSockets c ↔ Released s.server s.clientSockets c) :
    Inv setup h { s with server := server } where
  nextAddress := inv.nextAddress
  sockets := sockets
  written :=
    { pending := fun c waits => inv.written.pending c (mt (same c).mpr waits)
      released := fun c released => inv.written.released c ((same c).mp released)
      sending := inv.written.sending }
  clients := inv.clients

theorem Inv.readAck (inv : Inv setup h s) {i : Nat} (server : s.server = .recvAcks i) {c : ClientId}
    (socket : s.clientSockets[i]? = some c) {msg : Message} {rest : List Message} (queue : s.toServer c = msg :: rest) :
    Inv setup h { s with
      toServer := Function.update s.toServer c rest, acks := s.acks ++ [c], server := .recvAcks (i + 1) } := by
  have read := inv.sockets.read
  have full := inv.sockets.full
  rw [server] at read full
  -- what lies in a queue to the server is an ack its client has sent
  have sent := inv.clients.sent c (by simp [queue])
  refine ⟨inv.nextAddress, ⟨inv.sockets.bounded, inv.sockets.nodup, inv.sockets.isClient, fun _ => full (by simp), ?_⟩,
    ⟨?_, ?_, inv.written.sending⟩, { inv.clients with acked := ?_, sent := ?_, barrier := ?_ }⟩
  · rw [read, ServerPc.heard, ServerPc.heard, List.take_add_one, socket]
    rfl
  · intro d _
    refine inv.written.pending d ?_
    rw [server]
    exact id
  · intro d released
    exact released.elim
  · intro d member
    rcases List.mem_append.mp member with old | new
    · exact inv.clients.acked d old
    · cases List.mem_singleton.mp new
      exact sent
  · intro d more
    dsimp only at more
    rw [Function.update_apply] at more
    split at more
    · next same => exact same ▸ sent
    · exact inv.clients.sent d more
  · intro d root other stopped d' isClient
    exact List.mem_append_left _ (inv.clients.barrier d root other stopped d' isClient)

theorem Inv.not_sending (inv : Inv setup h s) (isClient : setup.IsClient h) {j : Nat} (server : s.server = .sendAcks j)
    (root : RemotePtr) (i : Nat) : s.clients h ≠ .sendRoot root i := by
  intro sending
  have read := inv.sockets.read
  rw [server] at read
  have member : h ∈ s.acks := by
    rw [show s.acks = s.clientSockets from read]
    exact inv.sockets.all (inv.sockets.full (by rw [server]; simp)) isClient
  have acked := inv.clients.acked h member
  rw [sending] at acked
  cases acked

theorem Inv.writeAck (inv : Inv setup h s) (isClient : setup.IsClient h) {j : Nat} (server : s.server = .sendAcks j)
    {c : ClientId} (socket : s.clientSockets[j]? = some c) :
    Inv setup h { s.write c .ack with server := .sendAcks (j + 1) } := by
  have read := inv.sockets.read
  have full := inv.sockets.full
  rw [server] at read full
  have grown : s.clientSockets.take (j + 1) = s.clientSockets.take j ++ [c] := by
    rw [List.take_add_one, socket]
    rfl
  -- each socket is written to once, so `c` has no ack yet
  have fresh : c ∉ s.clientSockets.take j := by
    have prefix_ : (s.clientSockets.take j ++ [c]).Nodup :=
      grown ▸ inv.sockets.nodup.sublist (List.take_sublist _ _)
    intro member
    exact (List.nodup_append.mp prefix_).2.2 c member c (by simp) rfl
  refine ⟨inv.nextAddress, ⟨inv.sockets.bounded, inv.sockets.nodup, inv.sockets.isClient, fun _ => full (by simp), read⟩,
    ⟨?_, ?_, ?_⟩, { inv.clients with consumed := ?_ }⟩
  · intro d waits
    replace waits : d ∉ s.clientSockets.take (j + 1) := waits
    rw [grown, List.mem_append, List.mem_singleton, not_or] at waits
    dsimp only [State.write]
    rw [Function.update_of_ne waits.2]
    exact inv.written.pending d (by rw [server]; exact waits.1)
  · intro d released
    replace released : d ∈ s.clientSockets.take (j + 1) := released
    rw [grown, List.mem_append, List.mem_singleton] at released
    dsimp only [State.write]
    by_cases same : d = c
    · subst same
      rw [Function.update_self]
      exact ⟨_, inv.written.pending d (by rw [server]; exact fresh), rfl⟩
    · rw [Function.update_of_ne same]
      exact inv.written.released d (by rw [server]; exact released.resolve_right same)
  · intro root i sending
    exact absurd sending (inv.not_sending isClient server root i)
  · intro d
    obtain ⟨taken, wrote, length⟩ := inv.clients.consumed d
    refine ⟨taken, ?_, length⟩
    dsimp only [State.write]
    by_cases same : d = c
    · subst same
      rw [Function.update_self, Function.update_self, wrote, List.append_assoc]
    · rw [Function.update_of_ne same, Function.update_of_ne same, wrote]

theorem Inv.server (inv : Inv setup h s) (isClient : setup.IsClient h) {s' : State}
    (branch : ServerBranch setup s s') : Inv setup h s' := by
  have read := inv.sockets.read
  have full := inv.sockets.full
  cases branch with
  | accepted server all =>
    rw [server] at read
    exact inv.proceed { inv.sockets with full := fun _ => all, read := read } (by simp [Released, server])
  | waited server =>
    rw [server] at read full
    exact inv.proceed { inv.sockets with full := fun _ => full (by simp), read := read } (by simp [Released, server])
  | received server past =>
    rw [server] at read full
    have everything : s.acks = s.clientSockets :=
      Eq.trans read (List.take_of_length_le (List.getElem?_eq_none_iff.mp past))
    exact inv.proceed { inv.sockets with full := fun _ => full (by simp), read := everything }
      (by simp [Released, server])
  | readAck server socket queue => exact inv.readAck server socket queue
  | sent server past =>
    rw [server] at read full
    exact inv.proceed { inv.sockets with full := fun _ => full (by simp), read := read } (by
      simp [Released, server, List.take_of_length_le (List.getElem?_eq_none_iff.mp past)])
  | writeAck server socket => exact inv.writeAck isClient server socket

end Server

/-! ## Steps of the clients -/

section Client

variable {c : ClientId}

theorem Written.leave {server : ServerPc} {sockets : List ClientId} {host host' : ClientPc}
    {written : ClientId → List Message} (inv : Written server sockets host written)
    (same : ∀ root, host.table = some root → host'.table = some root) (past : ∀ root i, host' ≠ .sendRoot root i) :
    Written server sockets host' written where
  pending c waits := (inv.pending c waits).imp_right fun ⟨root, table, wrote⟩ => ⟨root, same root table, wrote⟩
  released c released := by
    obtain ⟨msgs, broadcast, wrote⟩ := inv.released c released
    exact ⟨msgs, broadcast.imp_right fun ⟨root, table, only⟩ => ⟨root, same root table, only⟩, wrote⟩
  sending root i sending := absurd sending (past root i)

/-- A client moves to `pc'`; the queues are given as they are afterwards. -/
theorem Clients.move {acks : List ClientId} {clients : ClientId → ClientPc}
    {written toClient toServer written' toClient' toServer' : ClientId → List Message}
    (inv : Clients setup h acks clients written toClient toServer) {pc' : ClientPc}
    (acked : (clients c).acked = true → pc'.acked = true)
    (table : ∀ root, (clients c).table = some root → pc'.table = some root)
    (address : c = h → ∀ root, pc'.table = some root → root.id = Setup.hostId ∧ 1 ≤ root.address)
    (shared : ∀ root, pc'.root = some root → (if c = h then pc' else clients h).table = some root)
    (sends : ∀ root i, pc' = .sendRoot root i → c = h) (receives : pc' = .recvRoot → c ≠ h)
    (barrier : ∀ root, c ≠ h → pc' = .stopped root → ∀ c', setup.IsClient c' → c' ∈ acks)
    (sent : ∀ d, toServer' d ≠ [] → toServer d ≠ [] ∨ (d = c ∧ pc'.acked = true))
    (others : ∀ d, d ≠ c → ∃ read, written' d = read ++ toClient' d ∧ read.length = (clients d).consumed (decide (d = h)))
    (mine : ∃ read, written' c = read ++ toClient' c ∧ read.length = pc'.consumed (decide (c = h))) :
    Clients setup h acks (Function.update clients c pc') written' toClient' toServer' := by
  have kept : ∀ d, (clients d).acked = true → (Function.update clients c pc' d).acked = true := by
    intro d before
    rw [Function.update_apply]
    split
    · next same => exact acked (same ▸ before)
    · exact before
  -- what a client knows of the root is compared with what the host holds
  have host : Function.update clients c pc' h = if c = h then pc' else clients h := by
    rw [Function.update_apply]
    simp only [eq_comm]
  refine ⟨fun d member => kept d (inv.acked d member), ?_, ?_, ?_, ?_, ?_, ?_, ?_⟩
  · intro d more
    rcases sent d more with old | ⟨rfl, now⟩
    · exact kept d (inv.sent d old)
    · rw [Function.update_self]
      exact now
  · intro d
    by_cases same : d = c
    · subst same
      rw [Function.update_self]
      exact mine
    · rw [Function.update_of_ne same]
      exact others d same
  · intro d root i sending
    rw [Function.update_apply] at sending
    split at sending
    · next same => exact same.trans (sends root i sending)
    · exact inv.onlyHost d root i sending
  · rw [host]
    split
    · next same => exact fun receiving => receives receiving same
    · exact inv.notHost
  · intro root
    rw [host]
    split
    · next same => exact address same root
    · exact inv.address root
  · intro d root has
    rw [host]
    rw [Function.update_apply] at has
    split at has
    · exact shared root has
    · have before := inv.shared d root has
      split
      · next same => exact table root (same ▸ before)
      · exact before
  · intro d root other stopped
    rw [Function.update_apply] at stopped
    split at stopped
    · next same => exact barrier root (same ▸ other) stopped
    · exact inv.barrier d root other stopped

theorem Inv.advance (inv : Inv setup h s) {pc' : ClientPc} (acked : pc'.acked = (s.clients c).acked)
    (consumed : ∀ isHost, pc'.consumed isHost = (s.clients c).consumed isHost)
    (root : pc'.root = (s.clients c).root) (table : pc'.table = (s.clients c).table)
    (past : ∀ root i, pc' ≠ .sendRoot root i) (waits : pc' = .recvRoot → c ≠ h) (runs : ∀ root, pc' ≠ .stopped root) :
    Inv setup h (s.setClient c pc') := by
  refine ⟨inv.nextAddress, inv.sockets, ?_, ?_⟩
  · dsimp only [State.setClient]
    rw [Function.update_apply]
    split
    · next same =>
      refine Written.leave (same ▸ inv.written) (fun root before => ?_) past
      rw [table]
      exact before
    · exact inv.written
  · refine inv.clients.move (by rw [acked]; exact id) (fun r => by rw [table]; exact id) ?_ ?_
      (fun r i sending => absurd sending (past r i)) waits (fun r _ stopped => absurd stopped (runs r))
      (fun d more => .inl more) (fun d _ => inv.clients.consumed d) ?_
    · rintro rfl r
      rw [table]
      exact inv.clients.address r
    · intro r has
      rw [root] at has
      have before := inv.clients.shared c r has
      split
      · next same => rw [table, same]; exact before
      · exact before
    · obtain ⟨read, wrote, length⟩ := inv.clients.consumed c
      exact ⟨read, wrote, by rw [consumed]; exact length⟩

theorem Inv.unreleased (inv : Inv setup h s) (isClient : setup.IsClient h) (runs : (s.clients h).acked = false)
    (d : ClientId) : ¬ Released s.server s.clientSockets d := by
  intro released
  have acked := inv.clients.acked h (inv.sockets.all_acks released h isClient)
  rw [runs] at acked
  cases acked

theorem Inv.initAsFirst (inv : Inv setup h s) (one : setup.OneHost h) (start : s.clients h = .start) :
    Inv setup h { s.setClient h (.sendRoot ⟨setup.selfId h, s.nextAddress⟩ 0) with
      nextAddress := s.nextAddress + 1 } := by
  have blank : ∀ d, s.written d = [] := by
    intro d
    rcases inv.written.pending d (inv.unreleased one.1 (by rw [start]; rfl) d) with none | ⟨root, table, _⟩
    · exact none
    · rw [start] at table
      cases table
  have idle := inv.unreleased one.1 (by rw [start]; rfl)
  refine ⟨Nat.le_succ_of_le inv.nextAddress, inv.sockets, ?_, ?_⟩
  · dsimp only [State.setClient]
    rw [Function.update_self]
    refine ⟨fun d _ => .inl (blank d), fun d released => absurd released (idle d), ?_⟩
    rintro root i sending
    cases sending
    exact ⟨Nat.zero_le _, fun d => by simp [blank d]⟩
  · refine inv.clients.move (by rw [start]; simp [ClientPc.acked]) (by rw [start]; simp [ClientPc.table, ClientPc.root])
      ?_ (by simp [ClientPc.root]) (fun _ _ _ => rfl) (by simp) (by simp) (fun d more => .inl more)
      (fun d _ => inv.clients.consumed d) ?_
    · rintro _ root same
      cases same
      exact ⟨one.2.1, inv.nextAddress⟩
    · obtain ⟨read, wrote, length⟩ := inv.clients.consumed h
      rw [start] at length
      exact ⟨read, wrote, length⟩

theorem Inv.writeRoot (inv : Inv setup h s) (one : setup.OneHost h) {root : RemotePtr} {i : Nat}
    (sending : s.clients h = .sendRoot root i) {d : ClientId} (socket : s.clientSockets[i]? = some d) :
    Inv setup h ((s.write d { first := root.address }).setClient h (.sendRoot root (i + 1))) := by
  have idle := inv.unreleased one.1 (by rw [sending]; rfl)
  obtain ⟨_, wrote⟩ := inv.written.sending root i sending
  have grown : s.clientSockets.take (i + 1) = s.clientSockets.take i ++ [d] := by
    rw [List.take_add_one, socket]
    rfl
  -- each client has one socket, so it gets the root once
  have fresh : d ∉ s.clientSockets.take i := by
    have prefix_ : (s.clientSockets.take i ++ [d]).Nodup :=
      grown ▸ inv.sockets.nodup.sublist (List.take_sublist _ _)
    intro member
    exact (List.nodup_append.mp prefix_).2.2 d member d (by simp) rfl
  have wrote' : ∀ c, Function.update s.written d (s.written d ++ [{ first := root.address }]) c =
      if c ∈ s.clientSockets.take (i + 1) then [{ first := root.address }] else [] := by
    intro c
    rw [grown, Function.update_apply, wrote d, if_neg fresh, wrote c]
    by_cases same : c = d
    · simp [same]
    · simp [same]
  refine ⟨inv.nextAddress, inv.sockets, ?_, ?_⟩
  · dsimp only [State.setClient, State.write]
    rw [Function.update_self]
    refine ⟨?_, fun c released => absurd released (idle c), ?_⟩
    · intro c _
      rw [wrote' c]
      split
      · exact .inr ⟨root, rfl, rfl⟩
      · exact .inl rfl
    · rintro root' i' same
      cases same
      exact ⟨(List.getElem?_eq_some_iff.mp socket).1, wrote'⟩
  · have grows : ∀ c, (∃ read, s.written c = read ++ s.toClient c ∧ read.length = (s.clients c).consumed (decide (c = h))) →
        ∃ read, Function.update s.written d (s.written d ++ [{ first := root.address }]) c =
          read ++ Function.update s.toClient d (s.toClient d ++ [{ first := root.address }]) c ∧
          read.length = (s.clients c).consumed (decide (c = h)) := by
      rintro c ⟨read, split_, length⟩
      refine ⟨read, ?_, length⟩
      by_cases same : c = d
      · subst same
        rw [Function.update_self, Function.update_self, split_, List.append_assoc]
      · rw [Function.update_of_ne same, Function.update_of_ne same, split_]
    refine inv.clients.move (by rw [sending]; simp [ClientPc.acked]) (by rw [sending]; exact fun _ same => same) ?_
      (by simp [ClientPc.root]) (fun _ _ _ => rfl) (by simp) (by simp) (fun c more => .inl more)
      (fun c _ => grows c (inv.clients.consumed c)) ?_
    · intro _ root' same
      exact inv.clients.address root' (by rw [sending]; exact same)
    · have mine := grows h (inv.clients.consumed h)
      rw [sending] at mine
      exact mine

/-- What a client reads next was written to it after what it has read. -/
theorem Inv.reads (inv : Inv setup h s) {msg : Message} {rest : List Message} (queue : s.toClient c = msg :: rest) :
    ∃ read, s.written c = read ++ msg :: rest ∧ read.length = (s.clients c).consumed (decide (c = h)) := by
  obtain ⟨read, wrote, length⟩ := inv.clients.consumed c
  exact ⟨read, by rw [wrote, queue], length⟩

theorem Inv.readRoot (inv : Inv setup h s) (isClient : setup.IsClient c) (receiving : s.clients c = .recvRoot)
    {msg : Message} {rest : List Message} (queue : s.toClient c = msg :: rest) :
    Inv setup h { s.setClient c (.populating ⟨Setup.hostId, msg.first⟩) with
      toClient := Function.update s.toClient c rest } := by
  have other : c ≠ h := by
    rintro rfl
    exact inv.clients.notHost receiving
  -- an ack in its place would have been written after the client's own ack
  have idle : ¬ Released s.server s.clientSockets c := by
    intro released
    have acked := inv.clients.acked c (inv.sockets.all_acks released c isClient)
    rw [receiving] at acked
    cases acked
  obtain ⟨read, wrote, length⟩ := inv.reads queue
  have first : read = [] := by
    rw [receiving] at length
    exact List.length_eq_zero_iff.mp length
  subst first
  obtain ⟨root, table, only⟩ : ∃ root, (s.clients h).table = some root ∧
      msg :: rest = [{ first := root.address }] := by
    rcases inv.written.pending c idle with none | sent
    · rw [wrote] at none
      cases none
    · rw [wrote] at sent
      exact sent
  obtain ⟨rfl, rfl⟩ := List.cons.inj only
  refine ⟨inv.nextAddress, inv.sockets, ?_, ?_⟩
  · dsimp only [State.setClient]
    rw [Function.update_of_ne (Ne.symm other)]
    exact inv.written
  · refine inv.clients.move (by rw [receiving]; simp [ClientPc.acked])
      (by rw [receiving]; simp [ClientPc.table, ClientPc.root]) (fun same => absurd same other) ?_ (by simp) (by simp)
      (by simp) (fun d more => .inl more) ?_ ?_
    · rintro root' same
      cases same
      rw [if_neg other, table]
      obtain ⟨id, _⟩ := inv.clients.address root table
      cases root
      cases id
      rfl
    · intro d apart
      dsimp only [State.setClient]
      rw [Function.update_of_ne apart]
      exact inv.clients.consumed d
    · dsimp only [State.setClient]
      rw [Function.update_self, decide_eq_false other]
      exact ⟨[{ first := root.address }], wrote, rfl⟩

theorem Inv.sendAck (inv : Inv setup h s) {root : RemotePtr} (stopping : s.clients c = .stopping root) :
    Inv setup h { s.setClient c (.recvAck root) with
      toServer := Function.update s.toServer c (s.toServer c ++ [.ack]) } := by
  refine ⟨inv.nextAddress, inv.sockets, ?_, ?_⟩
  · dsimp only [State.setClient]
    rw [Function.update_apply]
    split
    · next same =>
      subst same
      exact inv.written.leave (by rw [stopping]; exact fun _ same => same) (by simp)
    · exact inv.written
  · refine inv.clients.move (by simp [ClientPc.acked]) (by rw [stopping]; exact fun _ same => same) ?_ ?_ (by simp)
      (by simp) (by simp) ?_ (fun d _ => inv.clients.consumed d) ?_
    · rintro rfl root' same
      exact inv.clients.address root' (by rw [stopping]; exact same)
    · rintro root' same
      have before := inv.clients.shared c root' (by rw [stopping]; exact same)
      split
      · exact same
      · exact before
    · intro d more
      by_cases same : d = c
      · exact .inr ⟨same, rfl⟩
      · dsimp only [State.setClient] at more
        rw [Function.update_of_ne same] at more
        exact .inl more
    · have mine := inv.clients.consumed c
      rw [stopping] at mine
      exact mine

theorem Inv.readLast (inv : Inv setup h s) {root : RemotePtr} (waiting : s.clients c = .recvAck root)
    {msg : Message} {rest : List Message} (queue : s.toClient c = msg :: rest) :
    Inv setup h { s.setClient c (.stopped root) with toClient := Function.update s.toClient c rest } := by
  obtain ⟨read, wrote, length⟩ := inv.reads queue
  refine ⟨inv.nextAddress, inv.sockets, ?_, ?_⟩
  · dsimp only [State.setClient]
    rw [Function.update_apply]
    split
    · next same =>
      subst same
      exact inv.written.leave (by rw [waiting]; exact fun _ same => same) (by simp)
    · exact inv.written
  · refine inv.clients.move (by simp [ClientPc.acked]) (by rw [waiting]; exact fun _ same => same) ?_ ?_ (by simp)
      (by simp) ?_ (fun d more => .inl more) ?_ ?_
    · rintro rfl root' same
      exact inv.clients.address root' (by rw [waiting]; exact same)
    · rintro root' same
      have before := inv.clients.shared c root' (by rw [waiting]; exact same)
      split
      · exact same
      · exact before
    · -- the second message on a connection is the server's ack
      intro root' other _
      have written : Released s.server s.clientSockets c := by
        by_contra idle
        rw [waiting, decide_eq_false other] at length
        rcases inv.written.pending c idle with none | ⟨root₀, _, only⟩
        · rw [wrote] at none
          simp at none
        · rw [wrote] at only
          have short := congrArg List.length only
          simp [length, ClientPc.consumed] at short
      exact inv.sockets.all_acks written
    · intro d apart
      dsimp only [State.setClient]
      rw [Function.update_of_ne apart]
      exact inv.clients.consumed d
    · dsimp only [State.setClient]
      rw [Function.update_self]
      refine ⟨read ++ [msg], by rw [wrote, List.append_assoc]; rfl, ?_⟩
      rw [List.length_append, length, waiting]
      by_cases same : c = h
      · simp [same, ClientPc.consumed]
      · simp [same, ClientPc.consumed]

theorem Inv.leaveBroadcast (inv : Inv setup h s) {root : RemotePtr} {i : Nat} (sending : s.clients h = .sendRoot root i) :
    Inv setup h (s.setClient h (.populating root)) := by
  refine ⟨inv.nextAddress, inv.sockets, ?_, ?_⟩
  · dsimp only [State.setClient]
    rw [Function.update_self]
    exact inv.written.leave (by rw [sending]; exact fun _ same => same) (by simp)
  · refine inv.clients.move (by rw [sending]; simp [ClientPc.acked]) (by rw [sending]; exact fun _ same => same) ?_ ?_
      (by simp) (by simp) (by simp) (fun d more => .inl more) (fun d _ => inv.clients.consumed d) ?_
    · intro _ root' same
      exact inv.clients.address root' (by rw [sending]; exact same)
    · intro root' same
      rw [if_pos rfl]
      exact same
    · obtain ⟨read, wrote, length⟩ := inv.clients.consumed h
      rw [sending] at length
      exact ⟨read, wrote, by simpa [ClientPc.consumed] using length⟩

def ClientPc.inner : ClientPc → Option RemotePtr
  | .populating root | .atBarrier root _ | .working root | .stopping root => some root
  | _ => none

theorem Inv.onward (inv : Inv setup h s) {pc' : ClientPc} {root : RemotePtr} (from_ : (s.clients c).inner = some root)
    (target : pc'.inner = some root) : Inv setup h (s.setClient c pc') := by
  have views : ∀ pc : ClientPc, pc.inner = some root → pc.acked = false ∧
      (∀ isHost, pc.consumed isHost = if isHost then 0 else 1) ∧ pc.root = some root ∧ pc.table = some root := by
    intro pc inner
    cases pc <;> cases inner <;> exact ⟨rfl, fun _ => rfl, rfl, rfl⟩
  obtain ⟨acked, consumed, has, table⟩ := views _ from_
  obtain ⟨acked', consumed', has', table'⟩ := views _ target
  refine inv.advance (acked'.trans acked.symm) (fun b => (consumed' b).trans (consumed b).symm) (has'.trans has.symm)
    (table'.trans table.symm) ?_ ?_ ?_
  · rintro r i rfl
    cases target
  · rintro rfl
    cases target
  · rintro r rfl
    cases target

theorem Inv.afterBarrier (inv : Inv setup h s) {root : RemotePtr} {k : Nat} (barrier : s.clients c = .atBarrier root k) :
    Inv setup h (afterBarrier s c root k) := by
  have from_ : (s.clients c).inner = some root := by rw [barrier]; rfl
  unfold Tcp.afterBarrier
  split
  · exact inv.onward from_ rfl
  · exact inv.onward from_ rfl
  · have after : Inv setup h (s.setClient c (.stopping root)) := inv.onward from_ rfl
    exact ⟨after.nextAddress, after.sockets, after.written, after.clients⟩

theorem Inv.client (inv : Inv setup h s) (one : setup.OneHost h) (isClient : setup.IsClient c) {s' : State}
    (branch : ClientBranch setup s c s') : Inv setup h s' := by
  cases branch with
  | host start isHost =>
    obtain rfl := one.2.2 c isClient isHost
    exact inv.initAsFirst one start
  | guest start isHost =>
    refine inv.advance ?_ ?_ ?_ ?_ (by simp) (fun _ same => isHost (same ▸ one.2.1)) (by simp)
    all_goals
      rw [start]
      intros
      rfl
  | sent sending =>
    obtain rfl := inv.clients.onlyHost c _ _ sending
    exact inv.leaveBroadcast sending
  | writeRoot sending socket =>
    obtain rfl := inv.clients.onlyHost c _ _ sending
    exact inv.writeRoot one sending socket
  | readRoot receiving queue => exact inv.readRoot isClient receiving queue
  | populated populating => exact inv.onward (by rw [populating]; rfl) rfl
  | barrier barrier => exact inv.afterBarrier barrier
  | worked working => exact inv.onward (by rw [working]; rfl) rfl
  | sendAck stopping => exact inv.sendAck stopping
  | readLast waiting queue => exact inv.readLast waiting queue

end Client

theorem Inv.next (inv : Inv setup h s) (one : setup.OneHost h) {action : Action} {s' : State}
    (enabled : exec setup s action = some s') : Inv setup h s' := by
  cases exec_branch enabled with
  | connect room => exact inv.connect room
  | accept accepting node thread fresh => exact inv.accept accepting node thread fresh
  | server branch => exact inv.server one.1 branch
  | client isClient branch => exact inv.client one isClient branch

theorem Inv.reachable (one : setup.OneHost h) (reachable : Concurrency.Reachable (exec setup) initial s) :
    Inv setup h s :=
  reachable.invariant (.start setup h) fun _ _ _ inv _ enabled => inv.next one enabled

end RdmaIht.Tcp
