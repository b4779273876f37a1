import RdmaIht.FixedWidth
import RdmaIht.Tcp.Experiment

/-! `main` up to its client threads.

`main` checks the parameters, lists the peers, makes the pools of its node and connects
an endpoint for each thread. Both lists are filled by loops with a `uint16_t` counter,
against bounds that are `int`. `Init` of the pools and the system calls of the endpoints
succeed, and `1 << region_size` is a number.
-/

set_option autoImplicit false

namespace RdmaIht.Tcp

open FixedWidth

/-- `int` -/
def int : IntType := ⟨true, 32, Nat.zero_lt_succ 31⟩

/-! ## Endpoints -/

/-- The static members of `EndpointManager`: the connection of each context, and the
hosts connected to so far. -/
structure Endpoints where
  self : BitVec 16 → Option Nat
  hosts : List String

namespace Endpoints

def empty : Endpoints := ⟨fun _ => none, []⟩

/-- `EndpointManager::getInstance`; connections are numbered in the order they are made. The constructor does not
exit: the socket opens, the host's name is resolved and the server listens. -/
def getInstance (endpoints : Endpoints) (ctx : BitVec 16) (ip : Option String) : Option Nat × Endpoints :=
  if ctx = 0xFFFF then (none, endpoints)
  else
    match endpoints.self ctx with
    | some connection => (some connection, endpoints)
    | none =>
      match ip with
      | none => (none, endpoints)
      | some ip =>
        (some endpoints.hosts.length,
          ⟨Function.update endpoints.self ctx (some endpoints.hosts.length), endpoints.hosts ++ [ip]⟩)

def isInit (endpoints : Endpoints) (ctx : BitVec 16) : Bool := (endpoints.self ctx).isSome

end Endpoints

/-! ## Startup -/

/-- `MemoryPool::Peer` -/
structure Peer where
  id : BitVec 16
  address : String
  port : BitVec 16
  deriving DecidableEq, Repr

def portNum : Nat := 18000

/-- What the client threads are started with. -/
structure Ready where
  peers : List Peer
  /-- the `self` of each pool -/
  pools : List Peer
  endpointContexts : List (BitVec 16)
  endpoints : Endpoints

inductive Startup where
  | exits (code : Nat)
  /-- `std::out_of_range` of `peers.at` -/
  | throws
  /-- a failed `assert` -/
  | aborts
  | overflows
  | ready (threads : Ready)

/-- The body of the loop over the peers; it does not fail. -/
def addPeer (mp : Int) (n : BitVec 16) (peers : List Peer) : Except Unit (List Peer) :=
  .ok (peers ++ [⟨n, "node" ++ toString ((n.toNat : Int).tdiv mp), .ofNat 16 (portNum + n.toNat)⟩])

/-- The body of the loop over the endpoints; it fails at its `assert`. -/
def addEndpoint (host : String) (i : BitVec 16) (made : List (BitVec 16) × Endpoints) :
    Except Unit (List (BitVec 16) × Endpoints) :=
  let endpoints := (made.2.getInstance i (some host)).2
  if endpoints.isInit i then .ok (made.1 ++ [i], endpoints) else .error ()

/-- `peers.at(i)` -/
def peerAt (peers : List Peer) (i : Int) : Option Peer := if i < 0 then none else peers[i.toNat]?

/-- The peers of the pools of a node. -/
def selfPeers (peers : List Peer) (mp nodeId : Int) : Option (List Peer) :=
  (List.range mp.toNat).mapM fun (i : Nat) => peerAt peers (nodeId * mp + i)

/-- `main` on node `nodeId`; `none` while a loop has not ended after `fuel` passes. -/
def startup (params : Params) (nodeId : Int) (fuel : Nat) : Option Startup :=
  if params.nodeCount ≤ 0 ∨ params.threadCount ≤ 0 then some (.exits 1)
  else if params.nodeCount ≤ nodeId then some (.exits 0)
  else if ¬ int.Range (params.mp * params.nodeCount) then some .overflows
  else
    match countLoop (params.mp * params.nodeCount) (addPeer params.mp) fuel 0 [] with
    | none => none
    | some (.error ()) => some .aborts
    | some (.ok peers) =>
      match peerAt peers 0 with
      | none => some .throws
      | some host =>
        if ¬ int.Range (nodeId * params.mp) then some .overflows
        else
          match selfPeers peers params.mp nodeId with
          | none => some .throws
          | some pools =>
            match countLoop params.threadCount (addEndpoint host.address) fuel 0 ([], .empty) with
            | none => none
            | some (.error ()) => some .aborts
            | some (.ok (contexts, endpoints)) => some (.ready ⟨peers, pools, contexts, endpoints⟩)

/-! ## The loops -/

section Loops

variable {params : Params}

def peerOf (mp : Int) (n : Nat) : Peer := ⟨.ofNat 16 n, "node" ++ toString ((n : Int).tdiv mp), .ofNat 16 (portNum + n)⟩

theorem peers_made (mp : Int) {bound : Int} (small : bound < 2 ^ 16) :
    ∃ fuel, countLoop bound (addPeer mp) fuel 0 [] = some (.ok ((List.range bound.toNat).map (peerOf mp))) := by
  have pass : ∀ k peers, k < bound.toNat → peers = (List.range k).map (peerOf mp) →
      ∃ peers', addPeer mp (.ofNat 16 k) peers = .ok peers' ∧ peers' = (List.range (k + 1)).map (peerOf mp) := by
    rintro k _ less rfl
    refine ⟨_, rfl, ?_⟩
    have low : (BitVec.ofNat 16 k).toNat = k := by
      rw [BitVec.toNat_ofNat, Nat.mod_eq_of_lt]
      omega
    rw [List.range_succ, List.map_append, List.map_singleton, peerOf, low]
  obtain ⟨fuel, peers, ended, rfl⟩ := countLoop_inv small pass rfl
  exact ⟨fuel, ended⟩

structure Connected (host : String) (k : Nat) (made : List (BitVec 16) × Endpoints) : Prop where
  contexts : made.1 = (List.range k).map (BitVec.ofNat 16)
  hosts : made.2.hosts = List.replicate k host
  self : ∀ ctx, made.2.self ctx = if ctx.toNat < k then some ctx.toNat else none

theorem addEndpoint_connected {host : String} {k : Nat} {made : List (BitVec 16) × Endpoints} (small : k < 2 ^ 16 - 1)
    (connected : Connected host k made) :
    ∃ made', addEndpoint host (.ofNat 16 k) made = .ok made' ∧ Connected host (k + 1) made' := by
  have low : (BitVec.ofNat 16 k).toNat = k := by
    rw [BitVec.toNat_ofNat, Nat.mod_eq_of_lt]
    omega
  have real : BitVec.ofNat 16 k ≠ 0xFFFF := by
    intro same
    have value := congrArg BitVec.toNat same
    rw [low] at value
    simp at value
    omega
  have fresh : made.2.self (.ofNat 16 k) = none := by
    rw [connected.self, low, if_neg (Nat.lt_irrefl k)]
  have got : (made.2.getInstance (.ofNat 16 k) (some host)).2 =
      ⟨Function.update made.2.self (.ofNat 16 k) (some k), made.2.hosts ++ [host]⟩ := by
    simp only [Endpoints.getInstance, if_neg real, fresh, connected.hosts, List.length_replicate]
  refine ⟨(made.1 ++ [.ofNat 16 k], ⟨Function.update made.2.self (.ofNat 16 k) (some k), made.2.hosts ++ [host]⟩), ?_, ?_⟩
  · simp [addEndpoint, got, Endpoints.isInit]
  · refine ⟨?_, ?_, fun ctx => ?_⟩
    · rw [connected.contexts, List.range_succ, List.map_append, List.map_singleton]
    · rw [connected.hosts, List.replicate_succ']
    · dsimp only
      rw [Function.update_apply]
      split
      · next same => rw [same, low, if_pos (Nat.lt_succ_self k)]
      · next other =>
        rw [connected.self]
        have different : ctx.toNat ≠ k := by
          rintro rfl
          exact other (BitVec.eq_of_toNat_eq low.symm)
        by_cases less : ctx.toNat < k
        · rw [if_pos less, if_pos (by omega)]
        · rw [if_neg less, if_neg (by omega)]

theorem endpoints_made (host : String) {threadCount : Int} (small : threadCount < 2 ^ 16) :
    ∃ fuel made, countLoop threadCount (addEndpoint host) fuel 0 ([], .empty) = some (.ok made) ∧
      Connected host threadCount.toNat made := by
  refine countLoop_inv (I := Connected host) small ?_ ⟨rfl, rfl, fun ctx => ?_⟩
  · intro k made less connected
    exact addEndpoint_connected (by omega) connected
  · rw [if_neg (Nat.not_lt_zero _)]
    rfl

end Loops

/-! ## Parameters that `main` starts threads for -/

section Startup

variable {params : Params} {nodeId : Int} {fuel : Nat} {threads : Ready}

theorem range_peers (nodes : 0 < params.nodeCount) (clients : 0 < params.threadCount) (count : int.Range params.nodeCount)
    (queues : int.Range params.qpMax) : int.Range (params.mp * params.nodeCount) := by
  simp only [IntType.Range, int, if_true] at count queues ⊢
  have share : -2 ^ 31 ≤ params.qpMax.tdiv params.nodeCount * params.nodeCount ∧
      params.qpMax.tdiv params.nodeCount * params.nodeCount < 2 ^ 31 := by
    rcases Int.le_total 0 params.qpMax with positive | negative
    · rw [Int.tdiv_eq_ediv_of_nonneg positive]
      have most := Int.ediv_mul_le params.qpMax (Int.ne_of_gt nodes)
      have least := Int.mul_nonneg (Int.ediv_nonneg positive (Int.le_of_lt nodes)) (Int.le_of_lt nodes)
      omega
    · have opposite := Int.neg_tdiv params.qpMax params.nodeCount
      rw [Int.tdiv_eq_ediv_of_nonneg (by omega)] at opposite
      have most := Int.ediv_mul_le (-params.qpMax) (Int.ne_of_gt nodes)
      have least := Int.mul_nonneg (Int.ediv_nonneg (a := -params.qpMax) (by omega) (Int.le_of_lt nodes)) (Int.le_of_lt nodes)
      rw [opposite, Int.neg_mul] at most least
      omega
  unfold Params.mp
  dsimp only
  split
  · omega
  · rcases Int.le_total params.threadCount (params.qpMax.tdiv params.nodeCount) with fewer | more
    · -- a pool for each thread
      rw [Int.min_eq_left fewer]
      have most := Int.mul_le_mul_of_nonneg_right fewer (Int.le_of_lt nodes)
      have least := Int.mul_pos clients nodes
      omega
    · rw [Int.min_eq_right more]
      exact share

theorem ready_cases (ready : startup params nodeId fuel = some (.ready threads)) :
    0 < params.nodeCount ∧ 0 < params.threadCount ∧ nodeId < params.nodeCount ∧ ∃ host,
      countLoop (params.mp * params.nodeCount) (addPeer params.mp) fuel 0 [] = some (.ok threads.peers) ∧
      peerAt threads.peers 0 = some host ∧ selfPeers threads.peers params.mp nodeId = some threads.pools ∧
      countLoop params.threadCount (addEndpoint host.address) fuel 0 ([], .empty) =
        some (.ok (threads.endpointContexts, threads.endpoints)) := by
  unfold startup at ready
  split at ready
  · cases ready
  · next counts =>
    split at ready
    · cases ready
    · next member =>
      split at ready
      · cases ready
      · split at ready
        · cases ready
        · cases ready
        · next peers listed =>
          split at ready
          · cases ready
          · next host first =>
            split at ready
            · cases ready
            · split at ready
              · cases ready
              · next pools own =>
                split at ready
                · cases ready
                · cases ready
                · next contexts endpoints connected =>
                  cases ready
                  exact ⟨by omega, by omega, by omega, host, listed, first, own, connected⟩

theorem mapM_of_some {α β : Type} {f : α → Option β} {g : α → β} {l : List α} (all : ∀ x ∈ l, f x = some (g x)) :
    l.mapM f = some (l.map g) := by
  induction l with
  | nil => rfl
  | cons x l ih =>
    rw [List.mapM_cons, all x List.mem_cons_self, ih fun y member => all y (List.mem_cons_of_mem x member)]
    rfl

theorem peerAt_zero (mp : Int) {n : Nat} (listed : 0 < n) :
    peerAt ((List.range n).map (peerOf mp)) 0 = some ⟨0, "node0", .ofNat 16 portNum⟩ := by
  unfold peerAt
  rw [if_neg (by decide), List.getElem?_map, Int.toNat_zero, List.getElem?_range listed, Option.map_some, peerOf,
    Nat.cast_zero, Int.zero_tdiv]
  rfl

theorem selfPeers_eq {mp node nodeCount : Nat} (member : node < nodeCount) :
    selfPeers ((List.range (mp * nodeCount)).map (peerOf mp)) mp node =
      some ((List.range mp).map fun i => peerOf mp (node * mp + i)) := by
  refine mapM_of_some fun i inside => ?_
  have less : i < mp := List.mem_range.mp inside
  have bound : node * mp + i < mp * nodeCount := by
    calc node * mp + i < node * mp + mp := by omega
      _ = (node + 1) * mp := (Nat.succ_mul node mp).symm
      _ ≤ nodeCount * mp := Nat.mul_le_mul_right mp member
      _ = mp * nodeCount := Nat.mul_comm ..
  have place : ((node : Int) * mp + i).toNat = node * mp + i := by exact_mod_cast Int.toNat_natCast _
  unfold peerAt
  rw [if_neg (by omega), place, List.getElem?_map, List.getElem?_range bound]
  rfl

theorem selfPeers_negative {peers : List Peer} {mp : Int} (pools : 0 < mp) (negative : nodeId < 0) :
    selfPeers peers mp nodeId = none := by
  have first : nodeId * mp < 0 := Int.mul_neg_of_neg_of_pos negative pools
  obtain ⟨n, succ⟩ : ∃ n, mp.toNat = n + 1 := ⟨mp.toNat - 1, by omega⟩
  unfold selfPeers
  rw [succ, List.range_succ_eq_map, List.mapM_cons, peerAt, if_pos (by simpa using first)]
  rfl

structure Made (mp nodeCount threadCount node : Nat) (threads : Ready) : Prop where
  peers : threads.peers = (List.range (mp * nodeCount)).map (peerOf mp)
  pools : threads.pools = (List.range mp).map fun i => peerOf mp (node * mp + i)
  endpoints : Connected "node0" threadCount (threads.endpointContexts, threads.endpoints)

theorem ready_made (ready : startup params nodeId fuel = some (.ready threads)) : params.Accepted ∧ 0 ≤ nodeId ∧
    nodeId < params.nodeCount ∧ Made params.mp.toNat params.nodeCount.toNat params.threadCount.toNat nodeId.toNat threads := by
  obtain ⟨nodes, clients, member, host, listed, first, own, connected⟩ := ready_cases ready
  have small : params.mp * params.nodeCount < 2 ^ 16 := by
    by_contra large
    exact countLoop_wraps (Int.not_lt.mp large) _ _ _ _ listed
  have few : params.threadCount < 2 ^ 16 := by
    by_contra many
    exact countLoop_wraps (Int.not_lt.mp many) _ _ _ _ connected
  obtain ⟨_, listed'⟩ := peers_made params.mp small
  have peers := Except.ok.inj (countLoop_unique listed listed')
  have pools : 0 < params.mp := by
    by_contra none
    have empty : (params.mp * params.nodeCount).toNat = 0 :=
      Int.toNat_eq_zero.mpr (Int.mul_nonpos_of_nonpos_of_nonneg (by omega) (by omega))
    rw [peers, empty] at first
    cases first
  have nonneg : 0 ≤ nodeId := by
    by_contra negative
    rw [selfPeers_negative pools (by omega)] at own
    cases own
  refine ⟨⟨nodes, clients, pools, small, few⟩, nonneg, member, ?_⟩
  obtain ⟨mp, pools'⟩ := Int.eq_ofNat_of_zero_le (Int.le_of_lt pools)
  obtain ⟨nodeCount, nodes'⟩ := Int.eq_ofNat_of_zero_le (Int.le_of_lt nodes)
  obtain ⟨node, rfl⟩ := Int.eq_ofNat_of_zero_le nonneg
  have bound : (params.mp * params.nodeCount).toNat = mp * nodeCount := by
    rw [pools', nodes']
    exact_mod_cast Int.toNat_natCast _
  rw [bound, pools'] at peers
  rw [peers, pools', selfPeers_eq (by omega)] at own
  have address : host.address = "node0" := by
    rw [peers, peerAt_zero _ (Nat.mul_pos (by omega) (by omega))] at first
    cases first
    rfl
  obtain ⟨_, made, connected', right⟩ := endpoints_made host.address few
  cases Except.ok.inj (countLoop_unique connected connected')
  rw [pools', nodes']
  exact ⟨peers, (Option.some.inj own).symm, address ▸ right⟩

theorem starts (count : int.Range params.nodeCount) (queues : int.Range params.qpMax) (accepted : params.Accepted)
    (nonneg : 0 ≤ nodeId) (member : nodeId < params.nodeCount) :
    ∃ fuel threads, startup params nodeId fuel = some (.ready threads) := by
  obtain ⟨nodes, clients, pools, small, few⟩ := accepted
  have inside := range_peers nodes clients count queues
  obtain ⟨fuel, listed⟩ := peers_made params.mp small
  obtain ⟨fuel', made, connected, _⟩ := endpoints_made "node0" few
  obtain ⟨mp, pools'⟩ := Int.eq_ofNat_of_zero_le (Int.le_of_lt pools)
  obtain ⟨nodeCount, nodes'⟩ := Int.eq_ofNat_of_zero_le (Int.le_of_lt nodes)
  obtain ⟨node, rfl⟩ := Int.eq_ofNat_of_zero_le nonneg
  have bound : (params.mp * params.nodeCount).toNat = mp * nodeCount := by
    rw [pools', nodes']
    exact_mod_cast Int.toNat_natCast _
  have own : int.Range ((node : Int) * params.mp) := by
    have most := Int.mul_le_mul_of_nonneg_right (Int.le_of_lt member) (Int.le_of_lt pools)
    have least := Int.mul_nonneg nonneg (Int.le_of_lt pools)
    rw [Int.mul_comm params.nodeCount] at most
    simp only [IntType.Range, int, if_true]
    omega
  refine ⟨fuel + fuel', ⟨(List.range (mp * nodeCount)).map (peerOf mp),
    (List.range mp).map fun i => peerOf mp (node * mp + i), made.1, made.2⟩, ?_⟩
  unfold startup
  rw [if_neg (by omega), if_neg (by omega), if_neg (not_not.mpr inside), countLoop_fuel listed fuel']
  dsimp only
  rw [bound, peerAt_zero _ (Nat.mul_pos (by omega) (by omega))]
  dsimp only
  rw [if_neg (not_not.mpr own), pools', selfPeers_eq (by omega)]
  dsimp only
  rw [Nat.add_comm, countLoop_fuel connected fuel]

/-- What client `c` takes from the lists of its node. -/
structure Assigned (setup : Setup) (c : ClientId) (threads : Ready) : Prop where
  /-- its own identity is that of its pool, a peer on its node -/
  self : ∃ p, threads.peers[setup.selfId c]? = some p ∧ threads.pools[c.thread % setup.mp]? = some p ∧
    p.id.toNat = setup.selfId c ∧ p.address = "node" ++ toString c.node
  /-- its context has a connection of its own, and is never connected again -/
  endpoint : ∃ ctx, threads.endpointContexts[c.thread]? = some ctx ∧
    ∀ ip, threads.endpoints.getInstance ctx ip = (some c.thread, threads.endpoints)

/-- The peers are told apart by their ids and by their ports, and all connections go to the host's node. -/
structure Distinct (setup : Setup) (threads : Ready) : Prop where
  peers : ∀ (n n' : Nat) (p p' : Peer), threads.peers[n]? = some p → threads.peers[n']? = some p' →
    p.id = p'.id ∨ p.port = p'.port → n = n'
  host : ∃ p, threads.peers[Setup.hostId]? = some p ∧ p.id.toNat = Setup.hostId ∧
    threads.endpoints.hosts = List.replicate setup.threadCount p.address

theorem Made.assigned {setup : Setup} {c : ClientId} (made : Made setup.mp setup.nodeCount setup.threadCount c.node threads)
    (pools : 0 < setup.mp) (small : setup.mp * setup.nodeCount < 2 ^ 16) (few : setup.threadCount < 2 ^ 16)
    (isClient : setup.IsClient c) : Assigned setup c threads := by
  have place : c.thread % setup.mp < setup.mp := Nat.mod_lt _ pools
  have bound : setup.selfId c < setup.mp * setup.nodeCount := by
    unfold Setup.selfId
    calc c.node * setup.mp + c.thread % setup.mp < c.node * setup.mp + setup.mp := by omega
      _ = (c.node + 1) * setup.mp := (Nat.succ_mul ..).symm
      _ ≤ setup.nodeCount * setup.mp := Nat.mul_le_mul_right _ isClient.1
      _ = setup.mp * setup.nodeCount := Nat.mul_comm ..
  refine ⟨⟨peerOf setup.mp (setup.selfId c), ?_, ?_, ?_, ?_⟩, ?_⟩
  · rw [made.peers, List.getElem?_map, List.getElem?_range bound]
    rfl
  · rw [made.pools, List.getElem?_map, List.getElem?_range place]
    rfl
  · rw [peerOf, BitVec.toNat_ofNat, Nat.mod_eq_of_lt (Nat.lt_trans bound small)]
  · have node : ((setup.selfId c : Nat) : Int).tdiv setup.mp = (c.node : Int) := by
      rw [Int.tdiv_eq_ediv_of_nonneg (Int.natCast_nonneg _), ← Int.natCast_ediv, Setup.selfId, Nat.add_comm,
        Nat.add_mul_div_right _ _ pools, Nat.div_eq_of_lt place, Nat.zero_add]
    rw [peerOf, node]
    rfl
  · have thread := isClient.2
    refine ⟨.ofNat 16 c.thread, ?_, fun ip => ?_⟩
    · have contexts : threads.endpointContexts = (List.range setup.threadCount).map (BitVec.ofNat 16) := made.endpoints.contexts
      rw [contexts, List.getElem?_map, List.getElem?_range thread]
      rfl
    · have low : (BitVec.ofNat 16 c.thread).toNat = c.thread := by
        rw [BitVec.toNat_ofNat, Nat.mod_eq_of_lt (by omega)]
      have real : BitVec.ofNat 16 c.thread ≠ 0xFFFF := by
        intro same
        have value := congrArg BitVec.toNat same
        rw [low] at value
        simp at value
        omega
      have own : threads.endpoints.self (.ofNat 16 c.thread) = some c.thread := by
        have self := made.endpoints.self (.ofNat 16 c.thread)
        rw [low, if_pos thread] at self
        exact self
      simp only [Endpoints.getInstance, if_neg real, own]

theorem Made.distinct {setup : Setup} {node : Nat} (made : Made setup.mp setup.nodeCount setup.threadCount node threads)
    (listed : 0 < setup.mp * setup.nodeCount) (small : setup.mp * setup.nodeCount < 2 ^ 16) : Distinct setup threads := by
  refine ⟨fun n n' p p' at_ at_' same => ?_, ⟨0, "node0", .ofNat 16 portNum⟩, ?_, rfl, made.endpoints.hosts⟩
  · rw [made.peers, List.getElem?_map] at at_ at_'
    obtain ⟨k, inside, rfl⟩ := Option.map_eq_some_iff.mp at_
    obtain ⟨k', inside', rfl⟩ := Option.map_eq_some_iff.mp at_'
    obtain ⟨less, rfl⟩ := List.getElem?_eq_some_iff.mp inside
    obtain ⟨less', rfl⟩ := List.getElem?_eq_some_iff.mp inside'
    rw [List.length_range] at less less'
    simp only [List.getElem_range, peerOf, ← BitVec.toNat_inj, BitVec.toNat_ofNat] at same
    omega
  · rw [made.peers]
    exact peerAt_zero _ listed

/-- `main` gets to the client threads of a node just when the parameters are accepted and the
number of the node is one below the count. Then each client thread has the pool it takes its
identity from and a connection of its own, and the peers have ids and ports of their own. -/
theorem startup_iff (params : Params) (nodeId : Int) (count : int.Range params.nodeCount) (queues : int.Range params.qpMax) :
    ((∃ fuel threads, startup params nodeId fuel = some (.ready threads)) ↔
      params.Accepted ∧ 0 ≤ nodeId ∧ nodeId < params.nodeCount) ∧
    ∀ fuel threads, startup params nodeId fuel = some (.ready threads) → Distinct params.setup threads ∧
      ∀ c, params.setup.IsClient c → c.node = nodeId.toNat → Assigned params.setup c threads := by
  refine ⟨⟨?_, fun ⟨accepted, nonneg, member⟩ => starts count queues accepted nonneg member⟩, ?_⟩
  · rintro ⟨fuel, threads, ready⟩
    obtain ⟨accepted, nonneg, member, _⟩ := ready_made ready
    exact ⟨accepted, nonneg, member⟩
  · intro fuel threads ready
    obtain ⟨⟨nodes, _, pools, small, few⟩, _, _, made⟩ := ready_made ready
    have product : (params.setup.mp * params.setup.nodeCount : Nat) < 2 ^ 16 := by
      have exact_ : ((params.setup.mp * params.setup.nodeCount : Nat) : Int) = params.mp * params.nodeCount := by
        rw [Nat.cast_mul]
        exact congrArg₂ _ (Int.toNat_of_nonneg (Int.le_of_lt pools)) (Int.toNat_of_nonneg (Int.le_of_lt nodes))
      omega
    have positive : 0 < params.setup.mp := by
      simp only [Params.setup]
      omega
    have positive' : 0 < params.setup.nodeCount := by
      simp only [Params.setup]
      omega
    refine ⟨made.distinct (Nat.mul_pos positive positive') product, fun c isClient node => ?_⟩
    refine Made.assigned (node ▸ made) positive product ?_ isClient
    simp only [Params.setup]
    omega

/-- Two nodes with three threads each and two pools on each node. -/
theorem startup_iff_twoPools : ∃ fuel threads, startup ⟨3, 2, 5⟩ 1 fuel = some (.ready threads) ∧
    Assigned (Params.mk 3 2 5).setup ⟨1, 2⟩ threads := by
  have both := startup_iff ⟨3, 2, 5⟩ 1 (by decide) (by decide)
  obtain ⟨fuel, threads, ready⟩ := both.1.mpr (by decide)
  exact ⟨fuel, threads, ready, (both.2 fuel threads ready).2 ⟨1, 2⟩ (by decide) rfl⟩

end Startup

end RdmaIht.Tcp
