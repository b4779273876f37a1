import RdmaIht.Tcp.Machine

/-! The branches of the steps of the server and the clients, and of the connections.

As for the hash tables, there is one constructor for each way a step can end, and
case analyses of a step go through these branches.
-/

set_option autoImplicit false

namespace RdmaIht.Tcp

inductive ServerBranch (setup : Setup) (s : State) : State → Prop where
  | accepted : s.server = .accepting → s.clientSockets.length = setup.total →
      ServerBranch setup s { s with server := .waiting }
  | waited : s.server = .waiting → s.done 0 = true → ServerBranch setup s { s with server := .recvAcks 0 }
  | received {i : Nat} : s.server = .recvAcks i → s.clientSockets[i]? = none →
      ServerBranch setup s { s with server := .sendAcks 0 }
  | readAck {i : Nat} {c : ClientId} {msg : Message} {rest : List Message} : s.server = .recvAcks i →
      s.clientSockets[i]? = some c → s.toServer c = msg :: rest →
      ServerBranch setup s { s with
        toServer := Function.update s.toServer c rest
        acks := s.acks ++ [c]
        server := .recvAcks (i + 1) }
  | sent {i : Nat} : s.server = .sendAcks i → s.clientSockets[i]? = none →
      ServerBranch setup s { s with server := .finished }
  | writeAck {i : Nat} {c : ClientId} : s.server = .sendAcks i → s.clientSockets[i]? = some c →
      ServerBranch setup s { s.write c .ack with server := .sendAcks (i + 1) }

inductive ClientBranch (setup : Setup) (s : State) (c : ClientId) : State → Prop where
  | host : s.clients c = .start → setup.IsHost c →
      ClientBranch setup s c { s.setClient c (.sendRoot ⟨setup.selfId c, s.nextAddress⟩ 0) with
        nextAddress := s.nextAddress + 1 }
  | guest : s.clients c = .start → ¬ setup.IsHost c → ClientBranch setup s c (s.setClient c .recvRoot)
  | sent {root : RemotePtr} {i : Nat} : s.clients c = .sendRoot root i → s.clientSockets[i]? = none →
      ClientBranch setup s c (s.setClient c (.populating root))
  | writeRoot {root : RemotePtr} {i : Nat} {d : ClientId} : s.clients c = .sendRoot root i →
      s.clientSockets[i]? = some d →
      ClientBranch setup s c ((s.write d { first := root.address }).setClient c (.sendRoot root (i + 1)))
  | readRoot {msg : Message} {rest : List Message} : s.clients c = .recvRoot → s.toClient c = msg :: rest →
      ClientBranch setup s c { s.setClient c (.populating ⟨Setup.hostId, msg.first⟩) with
        toClient := Function.update s.toClient c rest }
  | populated {root : RemotePtr} : s.clients c = .populating root →
      ClientBranch setup s c (s.setClient c (.atBarrier root 1))
  | barrier {root : RemotePtr} {k : Nat} : s.clients c = .atBarrier root k →
      ClientBranch setup s c (afterBarrier s c root k)
  | worked {root : RemotePtr} : s.clients c = .working root →
      ClientBranch setup s c (s.setClient c (.atBarrier root 3))
  | sendAck {root : RemotePtr} : s.clients c = .stopping root →
      ClientBranch setup s c { s.setClient c (.recvAck root) with
        toServer := Function.update s.toServer c (s.toServer c ++ [.ack]) }
  | readLast {root : RemotePtr} {msg : Message} {rest : List Message} : s.clients c = .recvAck root →
      s.toClient c = msg :: rest →
      ClientBranch setup s c { s.setClient c (.stopped root) with toClient := Function.update s.toClient c rest }

inductive Branch (setup : Setup) (s : State) : Action → State → Prop where
  | connect {node : Nat} : s.endpoints node < setup.threadCount →
      Branch setup s (.connect node) { s with endpoints := Function.update s.endpoints node (s.endpoints node + 1) }
  | accept {c : ClientId} : s.server = .accepting → c.node < setup.nodeCount → c.thread < s.endpoints c.node →
      c ∉ s.clientSockets → Branch setup s (.accept c) { s with clientSockets := s.clientSockets ++ [c] }
  | server {s' : State} : ServerBranch setup s s' → Branch setup s .server s'
  | client {c : ClientId} {s' : State} : setup.IsClient c → ClientBranch setup s c s' → Branch setup s (.client c) s'

variable {setup : Setup} {s s' : State}

theorem serverStep_branch (enabled : serverStep setup s = some s') : ServerBranch setup s s' := by
  simp only [serverStep] at enabled
  split at enabled
  · next server =>
    split at enabled <;> cases enabled
    next all => exact .accepted server all
  · next server =>
    split at enabled <;> cases enabled
    next done => exact .waited server done
  · next i server =>
    split at enabled
    · next past =>
      cases enabled
      exact .received server past
    · next c socket =>
      split at enabled <;> cases enabled
      next queue => exact .readAck server socket queue
  · next i server =>
    split at enabled <;> cases enabled
    · next past => exact .sent server past
    · next c socket => exact .writeAck server socket
  · cases enabled

theorem clientStep_branch {c : ClientId} (enabled : clientStep setup s c = some s') : ClientBranch setup s c s' := by
  simp only [clientStep] at enabled
  split at enabled
  · next start =>
    split at enabled
    · split at enabled <;> cases enabled
      · next isHost => exact .host start isHost
      · next isHost => exact .guest start isHost
    · cases enabled
  · next root i sending =>
    split at enabled <;> cases enabled
    · next past => exact .sent sending past
    · next d socket => exact .writeRoot sending socket
  · next receiving =>
    split at enabled <;> cases enabled
    next queue => exact .readRoot receiving queue
  · next root populating =>
    cases enabled
    exact .populated populating
  · next root k barrier =>
    split at enabled <;> cases enabled
    exact .barrier barrier
  · next root working =>
    cases enabled
    exact .worked working
  · next root stopping =>
    cases enabled
    exact .sendAck stopping
  · next root waiting =>
    split at enabled <;> cases enabled
    next queue => exact .readLast waiting queue
  · cases enabled

theorem exec_branch {action : Action} (enabled : exec setup s action = some s') : Branch setup s action s' := by
  cases action with
  | connect node =>
    simp only [exec] at enabled
    split at enabled <;> cases enabled
    next room => exact .connect room.2
  | accept c =>
    simp only [exec] at enabled
    split at enabled <;> cases enabled
    next allowed =>
    obtain ⟨accepting, _, node, thread, fresh⟩ := allowed
    exact .accept accepting node thread fresh
  | server => exact .server (serverStep_branch enabled)
  | client c =>
    simp only [exec] at enabled
    split at enabled
    · next isClient => exact .client isClient (clientStep_branch enabled)
    · cases enabled

end RdmaIht.Tcp
