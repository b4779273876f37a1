import Mathlib.Logic.Function.Basic
import RdmaIht.Common
import RdmaIht.Concurrency.Runs

/-! The processes of an experiment and the TCP connections between them.

The process on each node connects one endpoint for each of its client threads and
then starts the threads. The process on node 0 also runs the server thread, which
accepts all connections and then waits for the clients to stop. The connections
carry whole messages in order, the root pointer first and the acks afterwards. Every
`connect` and every `accept` succeeds, and the server process has one `SocketManager`.
-/

set_option autoImplicit false

namespace RdmaIht.Tcp

/-- `tcp::message`; values that are not given are 0. -/
structure Message where
  first : Nat := 0
  second : Nat := 0
  third : Nat := 0
  fourth : Nat := 0
  deriving DecidableEq, Repr

/-- The `tcp::message send_buffer` of `Stop` and `Launch`. -/
def Message.ack : Message := {}

/-- A client thread and its connection to the server. -/
structure ClientId where
  node : Nat
  thread : Nat
  deriving DecidableEq, Repr

/-- What `main` computes before it starts threads. -/
structure Setup where
  nodeCount : Nat
  threadCount : Nat
  mp : Nat
  deriving Repr

namespace Setup

variable (setup : Setup)

def IsClient (c : ClientId) : Prop := c.node < setup.nodeCount ∧ c.thread < setup.threadCount

instance (c : ClientId) : Decidable (setup.IsClient c) := inferInstanceAs (Decidable (_ ∧ _))

/-- The number of connections, `params.thread_count() * params.node_count()`. -/
def total : Nat := setup.threadCount * setup.nodeCount

/-- `peers.at((params.node_id() * mp) + mempool_index)` has its index as its id. -/
def selfId (c : ClientId) : Nat := c.node * setup.mp + c.thread % setup.mp

/-- `peers.at(0).id` -/
def hostId : Nat := 0

/-- `self.id == host.id` -/
def IsHost (c : ClientId) : Prop := setup.selfId c = hostId

instance (c : ClientId) : Decidable (setup.IsHost c) := inferInstanceAs (Decidable (_ = _))

end Setup

/-- The point a client thread has reached, with the root pointer of its `IHT`. -/
inductive ClientPc where
  | start
  /-- the host in `send_to_all` of `ExchangePointer`, about to write to socket `i` -/
  | sendRoot (root : RemotePtr) (i : Nat)
  /-- another client in `recv_server` of `ExchangePointer` -/
  | recvRoot
  | populating (root : RemotePtr)
  /-- `barr->arrive_and_wait()` for the `k`-th time -/
  | atBarrier (root : RemotePtr) (k : Nat)
  /-- the driver applies operations -/
  | working (root : RemotePtr)
  /-- `send_server` of `Stop` -/
  | stopping (root : RemotePtr)
  /-- `recv_server` of `Stop` -/
  | recvAck (root : RemotePtr)
  | stopped (root : RemotePtr)
  deriving DecidableEq, Repr

/-- How often the thread has arrived at the barrier of its process. -/
def ClientPc.arrivals : ClientPc → Nat
  | .start | .sendRoot _ _ | .recvRoot | .populating _ => 0
  | .atBarrier _ k => k
  | .working _ => 2
  | .stopping _ | .recvAck _ | .stopped _ => 3

/-- The root pointer of a thread whose `ExchangePointer` has returned. -/
def ClientPc.root : ClientPc → Option RemotePtr
  | .start | .sendRoot _ _ | .recvRoot => none
  | .populating root | .atBarrier root _ | .working root | .stopping root | .recvAck root | .stopped root => some root

inductive ServerPc where
  /-- the loop around `accept_conn` -/
  | accepting
  /-- `while(!(*done))` -/
  | waiting
  /-- `recv_from_all` of `Launch`, about to read from socket `i` -/
  | recvAcks (i : Nat)
  /-- `send_to_all` of `Launch`, about to write to socket `i` -/
  | sendAcks (i : Nat)
  | finished
  deriving DecidableEq, Repr

structure State where
  server : ServerPc
  /-- `client_sockets`, in the order of the accepts -/
  clientSockets : List ClientId
  /-- the endpoints each process has connected -/
  endpoints : Nat → Nat
  clients : ClientId → ClientPc
  /-- the messages in flight to a client, and to the server from it -/
  toClient : ClientId → List Message
  toServer : ClientId → List Message
  /-- all messages ever written to the connection of a client -/
  written : ClientId → List Message
  /-- the clients whose ack `recv_from_all` has read -/
  acks : List ClientId
  /-- `done` of each process -/
  done : Nat → Bool
  /-- the next address `Allocate` returns on the host's pool -/
  nextAddress : Nat

def State.write (s : State) (c : ClientId) (msg : Message) : State :=
  { s with
    toClient := Function.update s.toClient c (s.toClient c ++ [msg])
    written := Function.update s.written c (s.written c ++ [msg]) }

def State.setClient (s : State) (c : ClientId) (pc : ClientPc) : State :=
  { s with clients := Function.update s.clients c pc }

inductive Action where
  /-- `EndpointManager::getInstance` of the next endpoint of a process -/
  | connect (node : Nat)
  /-- `accept_conn` takes the connection of `c` -/
  | accept (c : ClientId)
  | server
  | client (c : ClientId)
  deriving DecidableEq, Repr

section Exec

variable (setup : Setup)

def serverStep (s : State) : Option State :=
  match s.server with
  | .accepting => if s.clientSockets.length = setup.total then some { s with server := .waiting } else none
  | .waiting => if s.done 0 then some { s with server := .recvAcks 0 } else none
  | .recvAcks i =>
    match s.clientSockets[i]? with
    | none => some { s with server := .sendAcks 0 }
    | some c =>
      match s.toServer c with
      | [] => none
      | _ :: rest => some { s with
          toServer := Function.update s.toServer c rest
          acks := s.acks ++ [c]
          server := .recvAcks (i + 1) }
  | .sendAcks i =>
    match s.clientSockets[i]? with
    | none => some { s with server := .finished }
    | some c => some { s.write c .ack with server := .sendAcks (i + 1) }
  | .finished => none

/-- Past its barrier for the third time, the master client of a process sets `done`. -/
def afterBarrier (s : State) (c : ClientId) (root : RemotePtr) : Nat → State
  | 1 => s.setClient c (.atBarrier root 2)
  | 2 => s.setClient c (.working root)
  | _ => { s.setClient c (.stopping root) with
      done := if c.thread = 0 then Function.update s.done c.node true else s.done }

/-- The master of a process arrives at the last barrier from `Run` and not from `Stop`, so that its driver may go on
until `driver->Stop()`, or may have sent its ack already. Here it applies, arrives and sends its ack in this order. -/
def clientStep (s : State) (c : ClientId) : Option State :=
  match s.clients c with
  | .start =>
    if s.endpoints c.node = setup.threadCount then
      if setup.IsHost c then
        some { s.setClient c (.sendRoot ⟨setup.selfId c, s.nextAddress⟩ 0) with nextAddress := s.nextAddress + 1 }
      else some (s.setClient c .recvRoot)
    else none
  | .sendRoot root i =>
    match s.clientSockets[i]? with
    | none => some (s.setClient c (.populating root))
    | some d => some ((s.write d { first := root.address }).setClient c (.sendRoot root (i + 1)))
  | .recvRoot =>
    match s.toClient c with
    | [] => none
    | msg :: rest => some { s.setClient c (.populating ⟨Setup.hostId, msg.first⟩) with
        toClient := Function.update s.toClient c rest }
  | .populating root => some (s.setClient c (.atBarrier root 1))
  | .atBarrier root k =>
    if ∀ t < setup.threadCount, k ≤ (s.clients ⟨c.node, t⟩).arrivals then some (afterBarrier s c root k) else none
  | .working root => some (s.setClient c (.atBarrier root 3))
  | .stopping root => some { s.setClient c (.recvAck root) with
      toServer := Function.update s.toServer c (s.toServer c ++ [.ack]) }
  | .recvAck root =>
    match s.toClient c with
    | [] => none
    | _ :: rest => some { s.setClient c (.stopped root) with toClient := Function.update s.toClient c rest }
  | .stopped _ => none

def exec (s : State) : Action → Option State
  | .connect node =>
    if node < setup.nodeCount ∧ s.endpoints node < setup.threadCount then
      some { s with endpoints := Function.update s.endpoints node (s.endpoints node + 1) }
    else none
  | .accept c =>
    if s.server = .accepting ∧ s.clientSockets.length < setup.total ∧ c.node < setup.nodeCount ∧
        c.thread < s.endpoints c.node ∧ c ∉ s.clientSockets then
      some { s with clientSockets := s.clientSockets ++ [c] }
    else none
  | .server => serverStep setup s
  | .client c => if setup.IsClient c then clientStep setup s c else none

end Exec

def initial : State where
  server := .accepting
  clientSockets := []
  endpoints := fun _ => 0
  clients := fun _ => .start
  toClient := fun _ => []
  toServer := fun _ => []
  written := fun _ => []
  acks := []
  done := fun _ => false
  nextAddress := 1

end RdmaIht.Tcp
