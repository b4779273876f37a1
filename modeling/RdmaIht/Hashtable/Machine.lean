import RdmaIht.Concurrency.Linearizability
import RdmaIht.Concurrency.Runs
import RdmaIht.Hashtable.Memory

/-! The operations of `Hashtable` and `LinkedSet` as threads of a machine.

One step of a thread is one `Read`, `Write` or `CompareAndSwap` of the pool or one
local store that others can see, with the computation on local data that follows.
What a thread builds in memory nobody else knows of is part of the step that
makes it known. The copies a thread reads are values of its program point.
-/

set_option autoImplicit false

namespace RdmaIht.Hashtable

variable {K V : Type}

/-! ## The loops over the nodes of a `LinkedSet` -/

inductive Visit (K V : Type) where
  /-- go on to the next node -/
  | next
  /-- unlock and return -/
  | unlock (res : HtRes V)
  /-- write the node back with these pairs, change the count, unlock and return -/
  | write (pairs : List (Pair K V)) (isIncrement : Bool) (res : HtRes V)
  /-- the same for the node with a new node after it -/
  | append (pair : Pair K V) (res : HtRes V)
  deriving DecidableEq, Repr

section Visit

variable [DecidableEq K] (T : Template K V)

/-- `node_data.key[i] == key`, for the first such `i`. -/
def findPair (key : K) (pairs : List (Pair K V)) : Option (Pair K V) := pairs.find? fun pair => decide (pair.key = key)

/-- The pair of `key` is overwritten by the last one. -/
def removePair (key : K) (pairs : List (Pair K V)) : List (Pair K V) :=
  match pairs.getLast? with
  | none => pairs
  | some last => (pairs.set (pairs.findIdx fun pair => decide (pair.key = key)) last).dropLast

def containsVisit (key : K) (pairs : List (Pair K V)) : Visit K V :=
  match findPair key pairs with
  | some pair => .unlock ⟨.trueState, pair.val⟩
  | none => .next

def insertVisit (key : K) (value : V) (pairs : List (Pair K V)) (isLast : Bool) : Visit K V :=
  match findPair key pairs with
  | some pair => .unlock ⟨.falseState, pair.val⟩
  | none =>
    if pairs.length = nodeBundleSize then
      if isLast then .append ⟨key, value⟩ ⟨.trueState, T.zero⟩ else .next
    else .write (pairs ++ [⟨key, value⟩]) true ⟨.trueState, T.zero⟩

def removeVisit (key : K) (pairs : List (Pair K V)) : Visit K V :=
  match findPair key pairs with
  | some pair => .write (removePair key pairs) false ⟨.trueState, pair.val⟩
  | none => .next

def visit (op : IhtOp K V) (pairs : List (Pair K V)) (isLast : Bool) : Visit K V :=
  match op with
  | .contains key => containsVisit key pairs
  | .insert key value => insertVisit T key value pairs isLast
  | .remove key => removeVisit key pairs

end Visit

/-! ## Program points -/

/-- A point of `LinkedSet::contains`, `insert` or `remove`. -/
inductive SetPc (K V : Type) where
  | acquire
  /-- `Read<Node>(node)` -/
  | walk (node : RemotePtr)
  /-- `Write<Node>(node, node_data)` -/
  | writeNode (node : RemotePtr) (data : Node K V) (isIncrement : Bool) (res : HtRes V)
  /-- `Read<Node>(first)` of `changeCount` -/
  | readFirst (isIncrement : Bool) (res : HtRes V)
  /-- `Write<Node>(first, node_pulled)` of `changeCount` -/
  | writeFirst (data : Node K V) (res : HtRes V)
  | unlock (res : HtRes V)
  deriving DecidableEq, Repr

/-- A point of `Hashtable::contains`, `insert` or `remove`. -/
inductive Pc (K V : Type) where
  | readRoot
  | readBucket (arr : HashArray)
  | inSet (set : LinkedSet) (pc : SetPc K V)
  deriving DecidableEq, Repr

/-- A point of `try_rehash`, with its copies of the root and of the buckets. -/
inductive RehashPc (K V : Type) where
  | readRoot
  | readBuckets (hashtable : HashArray)
  | listLength (hashtable : HashArray) (buckets : List LinkedSet) (i : Nat) (totalElements : Int)
  | freeze (hashtable : HashArray) (buckets : List LinkedSet) (i : Nat)
  /-- the store into `root` -/
  | publish (hashtable : HashArray) (buckets : List LinkedSet)
  /-- the head of the loop that adds the data of the buckets to the new array -/
  | bucket (buckets : List LinkedSet) (new : HashArray) (i : Nat)
  /-- the head of the loop of `foreach` on bucket `i` -/
  | foreach (buckets : List LinkedSet) (new : HashArray) (i : Nat) (node : RemotePtr)
  /-- the loop over the pairs of a node, with the pairs to come -/
  | pairs (buckets : List LinkedSet) (new : HashArray) (i : Nat) (next : RemotePtr) (rest : List (Pair K V))
  /-- `ll.insert` of a pair -/
  | insert (buckets : List LinkedSet) (new : HashArray) (i : Nat) (next : RemotePtr) (pair : Pair K V)
      (rest : List (Pair K V)) (set : LinkedSet) (pc : SetPc K V)
  | melt (buckets : List LinkedSet) (i : Nat)
  deriving DecidableEq, Repr

/-! ## Steps -/

/-- `node_pulled.total_length += isIncrement ? 1 : -1` -/
def Node.changeTotal (data : Node K V) (isIncrement : Bool) : Node K V :=
  { data with totalLength := data.totalLength + if isIncrement then 1 else -1 }

/-- What the loops of `Hashtable` make of the result of the `LinkedSet`. -/
def report (res : HtRes V) : Pc K V ⊕ HtRes V :=
  match res.status with
  | .rehashDeleted => .inl .readRoot
  | .trueState => .inr ⟨.trueState, res.result⟩
  | .falseState => .inr ⟨.falseState, res.result⟩

section Step

variable [DecidableEq K] (T : Template K V) (self : Nat)

/-- The result of an operation that finds its `LinkedSet` deleted. -/
def deletedResult : IhtOp K V → HtRes V
  | .contains _ | .remove _ => ⟨.rehashDeleted, T.zero⟩
  | .insert _ value => ⟨.rehashDeleted, value⟩

def setStep (set : LinkedSet) (op : IhtOp K V) (m : Mem K V) :
    SetPc K V → Except Fault (Mem K V × (SetPc K V ⊕ HtRes V))
  | .acquire =>
    match m.compareAndSwap set.lock with
    | none => .error .badAccess
    | some (.unlocked, m) => .ok (m, .inl (.walk set.first))
    | some (.locked, m) => .ok (m, .inl .acquire)
    | some (.deleted, m) => .ok (m, .inr (deletedResult T op))
  | .walk node =>
    match m.nodes node with
    | none => .error .badAccess
    | some data =>
      match visit T op data.pairs (decide (data.next = .null)) with
      | .next => .ok (m, .inl (if data.next = .null then .unlock ⟨.falseState, T.zero⟩ else .walk data.next))
      | .unlock res => .ok (m, .inl (.unlock res))
      | .write pairs isIncrement res => .ok (m, .inl (.writeNode node { data with pairs := pairs } isIncrement res))
      | .append pair res =>
        -- `new_node_data.total_length` is not set; only that of `first` is ever read
        .ok (m.newNode self { pairs := [pair] }, .inl (.writeNode node { data with next := m.fresh self } true res))
  | .writeNode node data isIncrement res =>
    match m.nodes node with
    | none => .error .badAccess
    | some _ => .ok (m.setNode node data, .inl (.readFirst isIncrement res))
  | .readFirst isIncrement res =>
    match m.nodes set.first with
    | none => .error .badAccess
    | some data => .ok (m, .inl (.writeFirst (data.changeTotal isIncrement) res))
  | .writeFirst data res =>
    match m.nodes set.first with
    | none => .error .badAccess
    | some _ => .ok (m.setNode set.first data, .inl (.unlock res))
  | .unlock res =>
    match m.locks set.lock with
    | none => .error .badAccess
    | some _ => .ok (m.setLock set.lock .unlocked, .inr res)

def clientStep (op : IhtOp K V) (m : Mem K V) : Pc K V → Except Fault (Mem K V × (Pc K V ⊕ HtRes V))
  | .readRoot => .ok (m, .inl (.readBucket m.root))
  | .readBucket arr =>
    match m.bucketAt arr.bucketStart (T.keyhash op.key arr.count) with
    | none => .error .badAccess
    | some set => .ok (m, .inl (.inSet set .acquire))
  | .inSet set pc =>
    match setStep T self set op m pc with
    | .error fault => .error fault
    | .ok (m, .inl pc) => .ok (m, .inl (.inSet set pc))
    | .ok (m, .inr res) => .ok (m, report res)

def rehashStep (m : Mem K V) : RehashPc K V → Except Fault (Mem K V × Option (RehashPc K V))
  | .readRoot => .ok (m, some (.readBuckets m.root))
  | .readBuckets hashtable =>
    match m.arrays hashtable.bucketStart with
    | none => .error .badAccess
    | some sets =>
      if hashtable.count ≤ sets.length then .ok (m, some (.listLength hashtable (sets.take hashtable.count) 0 0))
      else .error .badAccess
  | .listLength hashtable buckets i totalElements =>
    match buckets[i]? with
    | none =>
      if totalElements < hashtable.count * 10 then .ok (m, none) else .ok (m, some (.freeze hashtable buckets 0))
    | some set =>
      match m.nodes set.first with
      | none => .error .badAccess
      | some data => .ok (m, some (.listLength hashtable buckets (i + 1) (totalElements + data.totalLength.toInt)))
  | .freeze hashtable buckets i =>
    match buckets[i]? with
    | none => .ok (m, some (.publish hashtable buckets))
    | some set =>
      match m.compareAndSwap set.lock with
      | none => .error .badAccess
      | some (.unlocked, m) => .ok (m, some (.freeze hashtable buckets (i + 1)))
      | some (_, m) => .ok (m, some (.freeze hashtable buckets i))
  | .publish hashtable buckets =>
    -- the loop that builds the buckets counts them with an `int`
    if hashtable.count * 2 < 2 ^ 31 then
      let (new, m) := m.newArray self (hashtable.count * 2)
      .ok ({ m with root := new }, some (.bucket buckets new 0))
    else .error .intOverflow
  | .bucket buckets new i =>
    match buckets[i]? with
    | none => .ok (m, some (.melt buckets 0))
    | some set => .ok (m, some (.foreach buckets new i set.first))
  | .foreach buckets new i node =>
    if node = .null then .ok (m, some (.bucket buckets new (i + 1)))
    else
      match m.nodes node with
      | none => .error .badAccess
      | some data => .ok (m, some (.pairs buckets new i data.next data.pairs))
  | .pairs buckets new i next rest =>
    match rest with
    | [] => .ok (m, some (.foreach buckets new i next))
    | pair :: rest =>
      match m.bucketAt new.bucketStart (T.keyhash pair.key new.count) with
      | none => .error .badAccess
      | some set => .ok (m, some (.insert buckets new i next pair rest set .acquire))
  | .insert buckets new i next pair rest set pc =>
    match setStep T self set (.insert pair.key pair.val) m pc with
    | .error fault => .error fault
    | .ok (m, .inl pc) => .ok (m, some (.insert buckets new i next pair rest set pc))
    | .ok (m, .inr _) => .ok (m, some (.pairs buckets new i next rest))
  | .melt buckets i =>
    match buckets[i]? with
    | none => .ok (m, none)
    | some set =>
      match m.locks set.lock with
      | none => .error .badAccess
      | some _ => .ok (m.setLock set.lock .deleted, some (.melt buckets (i + 1)))

end Step

/-! ## The machine -/

inductive Thread (K V : Type) where
  | idle
  | running (id : Nat) (op : IhtOp K V) (pc : Pc K V)
  | resizing (pc : RehashPc K V)
  deriving DecidableEq, Repr

/-- The history numbers the operations in the order of their invocations; it has
no events for `try_rehash`, which returns nothing. -/
structure State (K V : Type) where
  mem : Mem K V
  root : RemotePtr
  threads : Nat → Thread K V
  history : List (Concurrency.Event Nat (IhtOp K V) (HtRes V))
  ops : Nat

inductive Action (K V : Type) where
  | invoke (client : Nat) (op : IhtOp K V)
  | tryRehash (client : Nat)
  | step (client : Nat)
  deriving DecidableEq, Repr

variable [DecidableEq K] (T : Template K V)

/-- `peer` gives the pool of each thread. A step is not enabled where the source
would access memory that is not there or would overflow an `int`. -/
def exec (peer : Nat → Nat) (s : State K V) : Action K V → Option (State K V)
  | .invoke client op =>
    match s.threads client with
    | .idle => some { s with
        threads := Function.update s.threads client (.running s.ops op .readRoot)
        history := s.history ++ [.inv s.ops op]
        ops := s.ops + 1 }
    | _ => none
  | .tryRehash client =>
    match s.threads client with
    | .idle =>
      if s.root.isLocal (peer client) then
        some { s with threads := Function.update s.threads client (.resizing .readRoot) }
      else some s
    | _ => none
  | .step client =>
    match s.threads client with
    | .idle => none
    | .running id op pc =>
      match clientStep T (peer client) op s.mem pc with
      | .error _ => none
      | .ok (m, .inl pc) => some { s with
          mem := m
          threads := Function.update s.threads client (.running id op pc) }
      | .ok (m, .inr res) => some { s with
          mem := m
          threads := Function.update s.threads client .idle
          history := s.history ++ [.res id res] }
    | .resizing pc =>
      match rehashStep T (peer client) s.mem pc with
      | .error _ => none
      | .ok (m, some pc) => some { s with
          mem := m
          threads := Function.update s.threads client (.resizing pc) }
      | .ok (m, none) => some { s with
          mem := m
          threads := Function.update s.threads client .idle }

/-- The memory before anything is allocated. -/
def Mem.empty : Mem K V where
  root := ⟨0, .null⟩
  arrays := fun _ => none
  locks := fun _ => none
  nodes := fun _ => none
  next := 1

/-- `InitArray` on the pool `host`, after the root was allocated. -/
def initArray (host : Nat) : RemotePtr × Mem K V :=
  let root := (Mem.empty : Mem K V).fresh host
  let (arr, m) := (Mem.empty : Mem K V).bump.newArray host T.initialSize
  (root, { m with root := arr })

/-- Every thread holds the root of the host and none has started. -/
def initial (host : Nat) : State K V where
  mem := (initArray T host).2
  root := (initArray T host).1
  threads := fun _ => .idle
  history := []
  ops := 0

end RdmaIht.Hashtable
