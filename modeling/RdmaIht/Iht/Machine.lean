import RdmaIht.Concurrency.Linearizability
import RdmaIht.Concurrency.Runs
import RdmaIht.Iht.Memory

/-! `RdmaIHT` as a machine of threads that interleave on one memory.

A thread runs `contains`, `insert` or `remove`; the three share the descent from
the root and differ at the E-List. One step makes at most one pool operation or
local store that other threads can see, or one local load they can influence.
Folded into that step are the loads of a thread's own copies, of a lock pointer,
which never changes, and of an E-List whose bucket the thread has locked, and the
stores to blocks that are not published yet.
-/

set_option autoImplicit false

namespace RdmaIht.Iht

variable {K V : Type}

/-- A P-List used in place, or a copy that `Read` or `ExtendedRead` made of one. -/
inductive PlistRef where
  | inPlace (p : RemotePtr)
  | copied (block : RemotePtr) (buckets : List PlistPair)
  deriving DecidableEq, Repr

inductive ElistRef (K V : Type) where
  | inPlace (e : RemotePtr)
  | copied (block : RemotePtr) (el : EList K V)
  deriving DecidableEq, Repr

def PlistRef.bucket (m : Mem K V) : PlistRef → Nat → Option PlistPair
  | .inPlace p, b => m.bucket p b
  | .copied _ buckets, b => buckets[b]?

/-- `curr->buckets[b].base = base`. -/
def PlistRef.setBase (m : Mem K V) (b : Nat) (base : RemotePtr) : PlistRef → Mem K V × PlistRef
  | .inPlace p => (m.setBase p b base, .inPlace p)
  | .copied block buckets => (m, .copied block (buckets.modify b fun pr => { pr with base := base }))

/-- The effect of `Deallocate<PList>` on the shared blocks. -/
def PlistRef.free (m : Mem K V) : PlistRef → Mem K V
  | .inPlace p => m.freePlist p
  | .copied _ _ => m

def ElistRef.get (m : Mem K V) : ElistRef K V → Option (EList K V)
  | .inPlace e => m.elists e
  | .copied _ el => some el

def ElistRef.set (m : Mem K V) (el : EList K V) : ElistRef K V → Mem K V × ElistRef K V
  | .inPlace e => (m.setElist e el, .inPlace e)
  | .copied block _ => (m, .copied block el)

/-- The effect of `Deallocate<EList>` on the shared blocks. -/
def ElistRef.free (m : Mem K V) : ElistRef K V → Mem K V
  | .inPlace e => m.freeElist e
  | .copied _ _ => m

/-- The locals of the descent. -/
structure Traversal where
  curr : PlistRef
  beforeLocalizedCurr : RemotePtr
  depth : Nat
  count : Nat
  oldBucketBase : Bool
  deriving Repr

/-- `ExtendedRead<PList>(ptr, n)`: a fresh local block with the first `n` P-Lists' worth of buckets. -/
def extendedRead (T : Template K V) (self : Nat) (m : Mem K V) (ptr : RemotePtr) (n : Nat) :
    Except Fault (PlistRef × Mem K V) :=
  match m.plists ptr with
  | none => .error .badAccess
  | some buckets =>
    if T.plistSize * n ≤ buckets.length then
      .ok (.copied (m.fresh self) (buckets.take (T.plistSize * n)), m.bump)
    else .error .badAccess

/-- `Read<EList>(ptr)`. -/
def readElist (self : Nat) (m : Mem K V) (ptr : RemotePtr) : Except Fault (ElistRef K V × Mem K V) :=
  match m.elists ptr with
  | none => .error .badAccess
  | some el => .ok (.copied (m.fresh self) el, m.bump)

/-- One turn of the loop of `rehash`: the pair goes to its bucket of the new
P-List, in an E-List that is allocated for the first pair of the bucket. -/
def moveInto (T : Template K V) (self : Nat) (m : Mem K V) (newP : RemotePtr) (depth count : Nat)
    (pair : Pair K V) : Except Fault (Mem K V) :=
  let b := T.levelHash pair.key depth count
  match m.bucket newP b with
  | none => .error .badAccess
  | some pr =>
    let e := m.fresh self
    let (dest, m) := if pr.base = .null then (e, (m.newElist self {}).setBase newP b e) else (pr.base, m)
    match m.elists dest with
    | none => .error .badAccess
    | some el =>
      match T.elistInsert el pair with
      | none => .error .badAccess
      | some el => .ok (m.setElist dest el)

/-- The point an operation has reached, with the locals it still uses. -/
inductive Pc (K V : Type) where
  /-- `curr = Read<PList>(root)` -/
  | readRoot
  /-- `acquire(curr->buckets[bucket].lock)` -/
  | acquire (t : Traversal)
  /-- `curr_temp = ExtendedRead<PList>(before_localized_curr, 1 << (depth - 1))` -/
  | refetch (t : Traversal) (bucket : Nat)
  /-- `base_ptr`, in place or `ExtendedRead<PList>(bucket_base, 1 << depth)` -/
  | descend (t : Traversal) (bucketBase : RemotePtr)
  /-- `bucket_base = curr->buckets[bucket].base` -/
  | loadBase (t : Traversal) (bucket : Nat)
  /-- `e = Read<EList>(bucket_base)` -/
  | readElist (t : Traversal) (bucket : Nat) (bucketBase : RemotePtr)
  /-- one turn of the linear search -/
  | search (t : Traversal) (bucket : Nat) (bucketBase : RemotePtr) (e : ElistRef K V) (i : Nat)
  /-- `e_new = Allocate<EList>()` with its first pair -/
  | newElist (t : Traversal) (bucket : Nat) (pair : Pair K V)
  /-- `change_bucket_pointer(before_localized_curr, bucket, e_base)` -/
  | publishElist (t : Traversal) (bucket : Nat) (eBase : RemotePtr)
  /-- `pairs[count] = {key, val}` of `e->elist_insert` -/
  | storePair (t : Traversal) (bucket : Nat) (bucketBase : RemotePtr) (e : ElistRef K V) (pair : Pair K V)
  /-- `count++` of `e->elist_insert` -/
  | storeCount (t : Traversal) (bucket : Nat) (bucketBase : RemotePtr) (e : ElistRef K V)
  /-- `e->pairs[i] = e->pairs[e->count - 1]` -/
  | swapLast (t : Traversal) (bucket : Nat) (bucketBase : RemotePtr) (e : ElistRef K V) (i : Nat) (result : K)
  /-- `e->count -= 1` -/
  | dropCount (t : Traversal) (bucket : Nat) (bucketBase : RemotePtr) (e : ElistRef K V) (result : K)
  /-- `Write<EList>(bucket_base, *e)` -/
  | writeBack (t : Traversal) (bucket : Nat) (bucketBase : RemotePtr) (e : ElistRef K V) (res : HtRes V)
  /-- `new_p = Allocate<PList>(plist_size_factor)` and `InitPList` -/
  | newPlist (t : Traversal) (bucket : Nat) (bucketBase : RemotePtr) (e : ElistRef K V)
  /-- `source`, in place or `Read<EList>(parent_bucket)` -/
  | rehashSource (t : Traversal) (bucket : Nat) (bucketBase : RemotePtr) (e : ElistRef K V) (newP : RemotePtr)
  /-- one turn of the loop of `rehash` -/
  | rehashMove (t : Traversal) (bucket : Nat) (bucketBase : RemotePtr) (e : ElistRef K V)
      (newP : RemotePtr) (source : ElistRef K V) (i : Nat)
  /-- `Deallocate<EList>(source)` -/
  | rehashFree (t : Traversal) (bucket : Nat) (bucketBase : RemotePtr) (e : ElistRef K V)
      (newP : RemotePtr) (source : ElistRef K V)
  /-- `change_bucket_pointer(before_localized_curr, bucket, p)` -/
  | publishPlist (t : Traversal) (bucket : Nat) (bucketBase : RemotePtr) (e : ElistRef K V) (newP : RemotePtr)
  /-- `curr->buckets[bucket].base = p` -/
  | updateCurr (t : Traversal) (bucket : Nat) (bucketBase : RemotePtr) (e : ElistRef K V) (newP : RemotePtr)
  /-- `unlock(curr->buckets[bucket].lock, P_UNLOCKED)` -/
  | unlockPlist (t : Traversal) (bucket : Nat) (bucketBase : RemotePtr) (e : ElistRef K V) (newP : RemotePtr)
  /-- `Deallocate<EList>(e)` of a copy, then `oldBucketBase = false` -/
  | afterRehash (t : Traversal) (bucketBase : RemotePtr) (e : ElistRef K V)
  /-- `unlock(curr->buckets[bucket].lock, E_UNLOCKED)` -/
  | unlock (t : Traversal) (bucket : Nat) (held : Option (RemotePtr × ElistRef K V)) (res : HtRes V)
  /-- the deallocations before a `return` -/
  | leave (t : Traversal) (held : Option (RemotePtr × ElistRef K V)) (res : HtRes V)

section Step

variable [DecidableEq K] (T : Template K V) (self : Nat) (root : RemotePtr) (op : IhtOp K V)

/-- The search stopped at a slot that holds the key. -/
def onFound (t : Traversal) (bucket : Nat) (bucketBase : RemotePtr) (e : ElistRef K V) (el : EList K V)
    (i : Nat) (pair : Pair K V) : Pc K V :=
  let result := T.toKey pair.val
  match op with
  | .contains _ => .unlock t bucket (some (bucketBase, e)) ⟨.trueState, T.toValue result⟩
  | .insert _ _ => .unlock t bucket (some (bucketBase, e)) ⟨.falseState, T.toValue result⟩
  | .remove _ =>
    if 1 < el.count then .swapLast t bucket bucketBase e i result
    else .dropCount t bucket bucketBase e result

/-- The search went through all live slots. -/
def onMissing (t : Traversal) (bucket : Nat) (bucketBase : RemotePtr) (e : ElistRef K V) (el : EList K V) :
    Pc K V :=
  match op with
  | .insert key value =>
    if el.count < T.elistSize then .storePair t bucket bucketBase e ⟨key, value⟩
    else .newPlist t bucket bucketBase e
  | .contains _ | .remove _ => .unlock t bucket (some (bucketBase, e)) ⟨.falseState, T.zero⟩

/-- The bucket holds no E-List. -/
def onEmpty (t : Traversal) (bucket : Nat) : Pc K V :=
  match op with
  | .insert key value => .newElist t bucket ⟨key, value⟩
  | .contains _ | .remove _ => .unlock t bucket none ⟨.falseState, T.zero⟩

/-- A copy of an E-List is written back; an E-List in place is already up to date. -/
def afterStore (t : Traversal) (bucket : Nat) (bucketBase : RemotePtr) (e : ElistRef K V) (res : HtRes V) :
    Pc K V :=
  if bucketBase.isLocal self then .unlock t bucket (some (bucketBase, e)) res
  else .writeBack t bucket bucketBase e res

/-- `unlock`: a plain write of the lock word named by the bucket of `curr`. -/
def unlockBucket (t : Traversal) (bucket : Nat) (status : LockType) (m : Mem K V) :
    Except Fault (Mem K V) :=
  match t.curr.bucket m bucket with
  | none => .error .badAccess
  | some pr => if (m.locks pr.lock).isSome then .ok (m.setLock pr.lock status) else .error .badAccess

/-- `change_bucket_pointer`: a local store or a pool `Write`, with the same effect. -/
def changeBucketPointer (t : Traversal) (bucket : Nat) (base : RemotePtr) (m : Mem K V) :
    Except Fault (Mem K V) :=
  match m.bucket t.beforeLocalizedCurr bucket with
  | none => .error .badAccess
  | some _ => .ok (m.setBase t.beforeLocalizedCurr bucket base)

/-- One step of an operation: the new memory with the next point, or the result it returns. -/
def step (m : Mem K V) : Pc K V → Except Fault (Mem K V × (Pc K V ⊕ HtRes V))
  | .readRoot => do
    let (curr, m) ← extendedRead T self m root 1
    return (m, .inl (.acquire ⟨curr, root, 1, T.plistSize, true⟩))
  | .acquire t =>
    let bucket := T.levelHash op.key t.depth t.count
    match t.curr.bucket m bucket with
    | none => .error .badAccess
    | some pr =>
      match m.compareAndSwap pr.lock .eUnlocked .eLocked with
      | none => .error .badAccess
      | some (.pUnlocked, m) => .ok (m, .inl (.refetch t bucket))
      | some (.eUnlocked, m) => .ok (m, .inl (.loadBase t bucket))
      | some (.eLocked, m) => .ok (m, .inl (.acquire t))
  | .refetch t bucket => do
    let (currTemp, m) ← extendedRead T self m t.beforeLocalizedCurr (2 ^ (t.depth - 1))
    match currTemp.bucket m bucket with
    | none => .error .badAccess
    | some pr => return (m, .inl (.descend t pr.base))
  | .descend t bucketBase => do
    let (curr, m) ←
      if bucketBase.isLocal self ∨ bucketBase = .null then pure (PlistRef.inPlace bucketBase, m)
      else extendedRead T self m bucketBase (2 ^ t.depth)
    let m := if t.oldBucketBase then t.curr.free m else m
    return (m, .inl (.acquire ⟨curr, bucketBase, t.depth + 1, t.count * 2, !bucketBase.isLocal self⟩))
  | .loadBase t bucket =>
    match t.curr.bucket m bucket with
    | none => .error .badAccess
    | some pr =>
      if pr.base = .null then .ok (m, .inl (onEmpty T op t bucket))
      else if pr.base.isLocal self then .ok (m, .inl (.search t bucket pr.base (.inPlace pr.base) 0))
      else .ok (m, .inl (.readElist t bucket pr.base))
  | .readElist t bucket bucketBase => do
    let (e, m) ← readElist self m bucketBase
    return (m, .inl (.search t bucket bucketBase e 0))
  | .search t bucket bucketBase e i =>
    match e.get m with
    | none => .error .badAccess
    | some el =>
      if i < el.count then
        match el.pairs[i]? with
        | none => .error .badAccess
        | some pair =>
          if pair.key = op.key then .ok (m, .inl (onFound T op t bucket bucketBase e el i pair))
          else .ok (m, .inl (.search t bucket bucketBase e (i + 1)))
      else .ok (m, .inl (onMissing T op t bucket bucketBase e el))
  | .newElist t bucket pair =>
    match T.elistInsert {} pair with
    | none => .error .badAccess
    | some el => .ok (m.newElist self el, .inl (.publishElist t bucket (m.fresh self)))
  | .publishElist t bucket eBase => do
    let m ← changeBucketPointer t bucket eBase m
    return (m, .inl (.unlock t bucket none ⟨.trueState, T.zero⟩))
  | .storePair t bucket bucketBase e pair =>
    match e.get m with
    | none => .error .badAccess
    | some el =>
      if el.count < T.elistSize then
        let (m, e) := e.set m (el.store el.count pair)
        .ok (m, .inl (.storeCount t bucket bucketBase e))
      else .error .badAccess
  | .storeCount t bucket bucketBase e =>
    match e.get m with
    | none => .error .badAccess
    | some el =>
      let (m, e) := e.set m (el.withCount (el.count + 1))
      .ok (m, .inl (afterStore self t bucket bucketBase e ⟨.trueState, T.zero⟩))
  | .swapLast t bucket bucketBase e i result =>
    match e.get m with
    | none => .error .badAccess
    | some el =>
      match el.pairs[el.count - 1]? with
      | none => .error .badAccess
      | some last =>
        let (m, e) := e.set m (el.store i last)
        .ok (m, .inl (.dropCount t bucket bucketBase e result))
  | .dropCount t bucket bucketBase e result =>
    match e.get m with
    | none => .error .badAccess
    | some el =>
      let (m, e) := e.set m (el.withCount (el.count - 1))
      .ok (m, .inl (afterStore self t bucket bucketBase e ⟨.trueState, T.toValue result⟩))
  | .writeBack t bucket bucketBase e res =>
    match e.get m, m.elists bucketBase with
    | some el, some _ =>
      .ok (m.setElist bucketBase el, .inl (.unlock t bucket (some (bucketBase, e)) res))
    | _, _ => .error .badAccess
  | .newPlist t bucket bucketBase e =>
    match T.buckets (t.count * 2 / T.plistSize) with
    | none => .error .intOverflow
    | some n => .ok (m.newPlist self n, .inl (.rehashSource t bucket bucketBase e (m.fresh self)))
  | .rehashSource t bucket bucketBase e newP =>
    match t.curr.bucket m bucket with
    | none => .error .badAccess
    | some pr =>
      if pr.base.isLocal self then
        .ok (m, .inl (.rehashMove t bucket bucketBase e newP (.inPlace pr.base) 0))
      else do
        let (source, m) ← readElist self m pr.base
        return (m, .inl (.rehashMove t bucket bucketBase e newP source 0))
  | .rehashMove t bucket bucketBase e newP source i =>
    match source.get m with
    | none => .error .badAccess
    | some el =>
      if i < el.count then
        match el.pairs[i]? with
        | none => .error .badAccess
        | some pair => do
          let m ← moveInto T self m newP (t.depth + 1) (t.count * 2) pair
          return (m, .inl (.rehashMove t bucket bucketBase e newP source (i + 1)))
      else .ok (m, .inl (.rehashFree t bucket bucketBase e newP source))
  | .rehashFree t bucket bucketBase e newP source =>
    .ok (source.free m, .inl (.publishPlist t bucket bucketBase e newP))
  | .publishPlist t bucket bucketBase e newP => do
    let m ← changeBucketPointer t bucket newP m
    return (m, .inl (.updateCurr t bucket bucketBase e newP))
  | .updateCurr t bucket bucketBase e newP =>
    let (m, curr) := t.curr.setBase m bucket newP
    .ok (m, .inl (.unlockPlist { t with curr := curr } bucket bucketBase e newP))
  | .unlockPlist t bucket bucketBase e _ => do
    let m ← unlockBucket t bucket .pUnlocked m
    return (m, .inl (.afterRehash t bucketBase e))
  | .afterRehash t bucketBase e =>
    let m := if bucketBase.isLocal self then m else e.free m
    .ok (m, .inl (.acquire { t with oldBucketBase := false }))
  | .unlock t bucket held res => do
    let m ← unlockBucket t bucket .eUnlocked m
    return (m, .inl (.leave t held res))
  | .leave t held res =>
    let m := match held with
      | some (bucketBase, e) => if bucketBase.isLocal self then m else e.free m
      | none => m
    .ok (if t.oldBucketBase then t.curr.free m else m, .inr res)

end Step

/-! ## The machine -/

inductive Thread (K V : Type) where
  | idle
  | running (id : Nat) (op : IhtOp K V) (pc : Pc K V)

/-- The history numbers the operations in the order of their invocations. -/
structure State (K V : Type) where
  mem : Mem K V
  root : RemotePtr
  threads : Nat → Thread K V
  history : List (Concurrency.Event Nat (IhtOp K V) (HtRes V))
  ops : Nat

inductive Action (K V : Type) where
  | invoke (client : Nat) (op : IhtOp K V)
  | step (client : Nat)
  deriving Repr

variable [DecidableEq K] (T : Template K V)

/-- `peer` gives the pool of each client. A step is not enabled where the source
would access memory that is not there or would overflow an `int`. -/
def exec (peer : Nat → Nat) (s : State K V) : Action K V → Option (State K V)
  | .invoke client op =>
    match s.threads client with
    | .running _ _ _ => none
    | .idle => some { s with
        threads := Function.update s.threads client (.running s.ops op .readRoot)
        history := s.history ++ [.inv s.ops op]
        ops := s.ops + 1 }
  | .step client =>
    match s.threads client with
    | .idle => none
    | .running id op pc =>
      match step T (peer client) s.root op s.mem pc with
      | .error _ => none
      | .ok (m, .inl pc) => some { s with
          mem := m
          threads := Function.update s.threads client (.running id op pc) }
      | .ok (m, .inr res) => some { s with
          mem := m
          threads := Function.update s.threads client .idle
          history := s.history ++ [.res id res] }

/-- `InitAsFirst` on the pool `host`: the memory with an empty root P-List. -/
def initAsFirst (host : Nat) : RemotePtr × Mem K V :=
  ((Mem.empty : Mem K V).fresh host, Mem.empty.newPlist host T.plistSize)

/-- Every client holds the root that `InitAsFirst` returned and none has started. -/
def initial (host : Nat) : State K V where
  mem := (initAsFirst T host).2
  root := (initAsFirst T host).1
  threads := fun _ => .idle
  history := []
  ops := 0

end RdmaIht.Iht
