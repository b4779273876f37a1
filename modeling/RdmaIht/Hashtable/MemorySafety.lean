import RdmaIht.Hashtable.Liveness
import RdmaIht.Hashtable.Overlap

/-! `Hashtable` never leaves the memory it has allocated, in runs of any kind.

Resizes that overlap can give a lock to two threads, or bring back a node as it was
before. Blocks are never freed, and a node is only ever written with a later node
behind it, so that the pointers of the table and of the threads still lead to blocks
that are there, and no loop over nodes comes back to one.
-/

set_option autoImplicit false

namespace RdmaIht.Hashtable

open Concurrency

variable {K V : Type}

/-! ## What is allocated -/

def Mem.HasSet (m : Mem K V) (set : LinkedSet) : Prop := m.locks set.lock ≠ none ∧ m.nodes set.first ≠ none

def Mem.HasArray (m : Mem K V) (arr : HashArray) : Prop :=
  0 < arr.count ∧ ∃ sets, m.arrays arr.bucketStart = some sets ∧ sets.length = arr.count

def Mem.HasNext (m : Mem K V) (node : RemotePtr) : Prop := node = .null ∨ m.nodes node ≠ none

/-- `data` can stand at `node`: it is not longer than a bundle, and what follows is a later node. -/
def Mem.Fits (m : Mem K V) (node : RemotePtr) (data : Node K V) : Prop :=
  data.pairs.length ≤ nodeBundleSize ∧ (data.next = .null ∨ node.address < data.next.address ∧ m.nodes data.next ≠ none)

structure Mem.Closed (m : Mem K V) : Prop where
  root : m.HasArray m.root
  sets : ∀ a sets, m.arrays a = some sets → ∀ set ∈ sets, m.HasSet set
  nodes : ∀ node data, m.nodes node = some data → m.Fits node data
  nodes_lt : ∀ node, m.nodes node ≠ none → node.address < m.next
  arrays_lt : ∀ a, m.arrays a ≠ none → a.address < m.next

/-- Nothing that was allocated is given back. -/
structure Mem.Grows (m m' : Mem K V) : Prop where
  locks : ∀ p, m.locks p ≠ none → m'.locks p ≠ none
  nodes : ∀ p, m.nodes p ≠ none → m'.nodes p ≠ none
  arrays : ∀ a sets, m.arrays a = some sets → m'.arrays a = some sets

def SetPc.Safe (m : Mem K V) (set : LinkedSet) : SetPc K V → Prop
  | .acquire | .readFirst _ _ | .unlock _ => True
  | .walk node => m.nodes node ≠ none
  | .writeNode node data _ _ => m.nodes node ≠ none ∧ m.Fits node data
  | .writeFirst data _ => m.Fits set.first data

def Pc.Safe (m : Mem K V) : Pc K V → Prop
  | .readRoot => True
  | .readBucket arr => m.HasArray arr
  | .inSet set pc => m.HasSet set ∧ pc.Safe m set

def RehashPc.Safe (m : Mem K V) : RehashPc K V → Prop
  | .readRoot => True
  | .readBuckets hashtable => m.HasArray hashtable
  | .listLength hashtable buckets _ _ | .freeze hashtable buckets _ | .publish hashtable buckets =>
    m.HasArray hashtable ∧ ∀ set ∈ buckets, m.HasSet set
  | .bucket buckets new _ => m.HasArray new ∧ ∀ set ∈ buckets, m.HasSet set
  | .foreach buckets new _ node => m.HasArray new ∧ (∀ set ∈ buckets, m.HasSet set) ∧ m.HasNext node
  | .pairs buckets new _ next _ => m.HasArray new ∧ (∀ set ∈ buckets, m.HasSet set) ∧ m.HasNext next
  | .insert buckets new _ next _ _ set pc =>
    m.HasArray new ∧ (∀ set ∈ buckets, m.HasSet set) ∧ m.HasNext next ∧ m.HasSet set ∧ pc.Safe m set
  | .melt buckets _ => ∀ set ∈ buckets, m.HasSet set

def Thread.Safe (m : Mem K V) : Thread K V → Prop
  | .idle => True
  | .running _ _ pc => pc.Safe m
  | .resizing pc => pc.Safe m

section Grows

variable {m m' : Mem K V}

theorem Mem.Grows.of_same (locks : ∀ p, m.locks p ≠ none → m'.locks p ≠ none) (nodes : m'.nodes = m.nodes)
    (arrays : m'.arrays = m.arrays) : m.Grows m' where
  locks := locks
  nodes p := by rw [nodes]; exact id
  arrays a sets := by rw [arrays]; exact id

theorem Mem.Grows.refl (m : Mem K V) : m.Grows m := .of_same (fun _ => id) rfl rfl

theorem Mem.Grows.setLock (m : Mem K V) (lock : RemotePtr) (w : LockType) : m.Grows (m.setLock lock w) := by
  refine .of_same (fun p some => ?_) rfl rfl
  rw [Mem.locks_setLock]
  split
  · simp
  · exact some

theorem Mem.Grows.setNode (m : Mem K V) (node : RemotePtr) (data : Node K V) : m.Grows (m.setNode node data) where
  locks _ := id
  nodes p some := by
    rw [Mem.nodes_setNode]
    split
    · simp
    · exact some
  arrays _ _ := id

theorem Mem.HasSet.grows {set : LinkedSet} (grows : m.Grows m') (has : m.HasSet set) : m'.HasSet set :=
  ⟨grows.locks _ has.1, grows.nodes _ has.2⟩

theorem Mem.HasArray.grows {arr : HashArray} (grows : m.Grows m') (has : m.HasArray arr) : m'.HasArray arr := by
  obtain ⟨positive, sets, stored, length⟩ := has
  exact ⟨positive, sets, grows.arrays _ _ stored, length⟩

theorem Mem.HasNext.grows {node : RemotePtr} (grows : m.Grows m') (has : m.HasNext node) : m'.HasNext node :=
  has.imp_right (grows.nodes node)

theorem Mem.Fits.grows {node : RemotePtr} {data : Node K V} (grows : m.Grows m') (fits : m.Fits node data) :
    m'.Fits node data :=
  ⟨fits.1, fits.2.imp_right fun later => ⟨later.1, grows.nodes _ later.2⟩⟩

theorem SetPc.Safe.grows {set : LinkedSet} {pc : SetPc K V} (grows : m.Grows m') (safe : pc.Safe m set) :
    pc.Safe m' set := by
  cases pc with
  | acquire | readFirst | unlock => trivial
  | walk node => exact grows.nodes node safe
  | writeNode node => exact ⟨grows.nodes node safe.1, safe.2.grows grows⟩
  | writeFirst => exact Mem.Fits.grows grows safe

theorem Thread.Safe.grows {thread : Thread K V} (grows : m.Grows m') (safe : thread.Safe m) : thread.Safe m' := by
  have sets : ∀ {buckets : List LinkedSet}, (∀ set ∈ buckets, m.HasSet set) → ∀ set ∈ buckets, m'.HasSet set :=
    fun has set member => (has set member).grows grows
  cases thread with
  | idle => trivial
  | running id op pc =>
    cases pc with
    | readRoot => trivial
    | readBucket => exact Mem.HasArray.grows grows safe
    | inSet => exact ⟨safe.1.grows grows, safe.2.grows grows⟩
  | resizing pc =>
    cases pc with
    | readRoot => trivial
    | readBuckets => exact Mem.HasArray.grows grows safe
    | listLength | freeze | publish | bucket => exact ⟨safe.1.grows grows, sets safe.2⟩
    | foreach | pairs => exact ⟨safe.1.grows grows, sets safe.2.1, safe.2.2.grows grows⟩
    | insert =>
      exact ⟨safe.1.grows grows, sets safe.2.1, safe.2.2.1.grows grows, safe.2.2.2.1.grows grows, safe.2.2.2.2.grows grows⟩
    | melt => exact sets safe

end Grows

/-! ## Stores -/

section Stores

variable {m : Mem K V}

theorem Mem.Closed.setLock (closed : m.Closed) (lock : RemotePtr) (w : LockType) : (m.setLock lock w).Closed := by
  have grows := Mem.Grows.setLock m lock w
  exact ⟨closed.root.grows grows, fun a sets stored set member => (closed.sets a sets stored set member).grows grows,
    fun node data stored => (closed.nodes node data stored).grows grows, closed.nodes_lt, closed.arrays_lt⟩

theorem Mem.Closed.setNode (closed : m.Closed) {node : RemotePtr} {data : Node K V} (there : m.nodes node ≠ none)
    (fits : m.Fits node data) : (m.setNode node data).Closed := by
  have grows := Mem.Grows.setNode m node data
  refine ⟨closed.root.grows grows, fun a sets stored set member => (closed.sets a sets stored set member).grows grows, ?_, ?_,
    closed.arrays_lt⟩
  · intro q data' stored
    rw [Mem.nodes_setNode] at stored
    split at stored
    · next here =>
      cases stored
      subst here
      exact fits.grows grows
    · exact (closed.nodes q data' stored).grows grows
  · intro q some
    rw [Mem.nodes_setNode] at some
    split at some
    · next here => exact here ▸ closed.nodes_lt node there
    · exact closed.nodes_lt q some

theorem Mem.Grows.newNode (m : Mem K V) (self : Nat) (data : Node K V) : m.Grows (m.newNode self data) where
  locks _ := id
  nodes := (Mem.Grows.setNode m (m.fresh self) data).nodes
  arrays _ _ := id

theorem Mem.Closed.newNode (closed : m.Closed) (self : Nat) {data : Node K V} (short : data.pairs.length ≤ nodeBundleSize)
    (last : data.next = .null) : (m.newNode self data).Closed := by
  have grows := Mem.Grows.newNode m self data
  refine ⟨closed.root.grows grows, fun a sets stored set member => (closed.sets a sets stored set member).grows grows,
    ?_, ?_, ?_⟩
  · intro q data' stored
    rw [Mem.nodes_newNode] at stored
    split at stored
    · cases stored
      exact ⟨short, .inl last⟩
    · exact (closed.nodes q data' stored).grows grows
  · intro q some
    rw [Mem.nodes_newNode] at some
    rw [Mem.next_newNode]
    split at some
    · next here => rw [here]; exact Nat.lt_succ_self _
    · exact Nat.lt_succ_of_lt (closed.nodes_lt q some)
  · intro a some
    exact Nat.lt_succ_of_lt (closed.arrays_lt a some)

theorem Mem.nodes_newSets (m : Mem K V) (self n : Nat) {q : RemotePtr} {data : Node K V}
    (stored : (Mem.newSets self n m).2.nodes q = some data) : m.nodes q = some data ∨ data = {} := by
  induction n with
  | zero => exact .inl stored
  | succ n ih =>
    simp only [Mem.newSets, Mem.newSet, Mem.nodes_newNode] at stored
    split at stored
    · cases stored
      exact .inr rfl
    · exact ih stored

theorem Mem.Grows.newSets (m : Mem K V) (self n : Nat) : m.Grows (Mem.newSets self n m).2 := by
  induction n with
  | zero => exact .refl m
  | succ n ih =>
    have lock := Mem.Grows.setLock (Mem.newSets self n m).2.bump ((Mem.newSets self n m).2.fresh self) .unlocked
    simp only [Mem.newSets, Mem.newSet]
    have node := Mem.Grows.newNode ((Mem.newSets self n m).2.bump.setLock ((Mem.newSets self n m).2.fresh self) .unlocked)
      self {}
    exact ⟨fun p some => node.locks p (lock.locks p (ih.locks p some)), fun p some => node.nodes p (ih.nodes p some),
      fun a sets stored => ih.arrays a sets stored⟩

theorem Mem.Grows.publish (arrays_lt : ∀ a, m.arrays a ≠ none → a.address < m.next) (self n : Nat) :
    m.Grows (m.publish self n) where
  locks := (Mem.Grows.newSets m.bump self n).locks
  nodes := (Mem.Grows.newSets m.bump self n).nodes
  arrays a sets stored := by
    rw [Mem.arrays_publish, if_neg]
    · exact stored
    · rintro rfl
      exact Nat.lt_irrefl _ (arrays_lt (m.fresh self) (by simp [stored]))

theorem Mem.closed_publish (self : Nat) {n : Nat} (positive : 0 < n)
    (sets : ∀ a sets, m.arrays a = some sets → ∀ set ∈ sets, m.HasSet set)
    (nodes : ∀ node data, m.nodes node = some data → m.Fits node data)
    (nodes_lt : ∀ node, m.nodes node ≠ none → node.address < m.next)
    (arrays_lt : ∀ a, m.arrays a ≠ none → a.address < m.next) : (m.publish self n).Closed := by
  have grows := Mem.Grows.publish arrays_lt self n
  refine ⟨⟨positive, (Mem.newSets self n m.bump).1, ?_, m.bump.length_newSets self n⟩, ?_, ?_, ?_, ?_⟩
  · rw [show (m.publish self n).root.bucketStart = m.fresh self from rfl, Mem.arrays_publish, if_pos rfl]
  · intro a sets' stored set member
    rw [Mem.arrays_publish] at stored
    split at stored
    · cases stored
      obtain ⟨i, at_⟩ := List.mem_iff_getElem?.mp member
      rw [Mem.getElem?_newSets] at at_
      split at at_
      · next bound =>
        cases at_
        obtain ⟨lock, first⟩ := m.set_publish self n bound
        exact ⟨by rw [show m.bump.next = m.next + 1 from rfl, lock]; simp,
          by rw [show m.bump.next = m.next + 1 from rfl, first]; simp⟩
      · cases at_
    · exact (sets a sets' stored set member).grows grows
  · intro node data stored
    rcases m.bump.nodes_newSets self n stored with old | rfl
    · exact (nodes node data old).grows grows
    · exact ⟨Nat.zero_le _, .inl rfl⟩
  · intro node some
    rw [Mem.next_publish]
    rcases (m.only_publish self n node).2 some with old | new
    · have low := nodes_lt node old
      omega
    · exact new
  · intro a some
    rw [Mem.next_publish]
    rw [Mem.arrays_publish] at some
    split at some
    · next here =>
      rw [here]
      change m.next < _
      omega
    · have low := arrays_lt a some
      omega

end Stores

/-! ## Steps -/

section Step

variable [DecidableEq K] {T : Template K V} {self : Nat} {set : LinkedSet} {op : IhtOp K V} {m m' : Mem K V}

theorem visit_short {pairs pairs' : List (Pair K V)} {isLast isIncrement : Bool} {res : HtRes V}
    (short : pairs.length ≤ nodeBundleSize) (writes : visit T op pairs isLast = .write pairs' isIncrement res) :
    pairs'.length ≤ nodeBundleSize := by
  cases op with
  | contains key =>
    simp only [visit, containsVisit] at writes
    split at writes <;> cases writes
  | insert key value =>
    simp only [visit, insertVisit] at writes
    split at writes
    · cases writes
    · split at writes
      · split at writes <;> cases writes
      · cases writes
        rw [List.length_append, List.length_singleton]
        omega
  | remove key =>
    simp only [visit, removeVisit] at writes
    split at writes
    · next pair found =>
      cases writes
      have length := (removePair_perm found).length_eq
      rw [List.length_cons] at length
      omega
    · cases writes

def SetSafe (m : Mem K V) (set : LinkedSet) : SetPc K V ⊕ HtRes V → Prop
  | .inl pc => pc.Safe m set
  | .inr _ => True

theorem SetBranch.safe {pc : SetPc K V} {next : SetPc K V ⊕ HtRes V} (branch : SetBranch T self set op m pc m' next)
    (closed : m.Closed) (has : m.HasSet set) (safe : pc.Safe m set) : m'.Closed ∧ m.Grows m' ∧ SetSafe m' set next := by
  cases branch with
  | locks => exact ⟨closed.setLock _ _, .setLock m _ _, has.2⟩
  | spins | deleted | last | found => exact ⟨closed, .refl m, trivial⟩
  | further stored _ more => exact ⟨closed, .refl m, ((closed.nodes _ _ stored).2.resolve_left more).2⟩
  | write stored writes =>
    have fits := closed.nodes _ _ stored
    exact ⟨closed, .refl m, by simp [stored], visit_short fits.1 writes, fits.2⟩
  | @append node data pair res stored =>
    have grows := Mem.Grows.newNode m self { pairs := [pair] }
    have there : m.nodes node ≠ none := by simp [stored]
    refine ⟨closed.newNode self (show 1 ≤ 7 by decide) rfl, grows, grows.nodes node there, (closed.nodes _ _ stored).1,
      .inr ⟨closed.nodes_lt node there, ?_⟩⟩
    rw [Mem.nodes_newNode, if_pos rfl]
    simp
  | writeNode => exact ⟨closed.setNode safe.1 safe.2, .setNode m _ _, trivial⟩
  | readFirst stored =>
    have fits := closed.nodes _ _ stored
    exact ⟨closed, .refl m, fits⟩
  | writeFirst => exact ⟨closed.setNode has.2 safe, .setNode m _ _, trivial⟩
  | unlock => exact ⟨closed.setLock _ _, .setLock m _ _, trivial⟩

theorem SetPc.Safe.goes (T : Template K V) (self : Nat) (op : IhtOp K V) {pc : SetPc K V} (has : m.HasSet set)
    (safe : pc.Safe m set) : ∃ done, setStep T self set op m pc = .ok done := by
  obtain ⟨w, word⟩ := Option.ne_none_iff_exists'.mp has.1
  obtain ⟨first, stored⟩ := Option.ne_none_iff_exists'.mp has.2
  cases pc with
  | acquire =>
    simp only [setStep, Mem.compareAndSwap, word, Option.map_some]
    cases w <;> exact ⟨_, rfl⟩
  | walk node =>
    obtain ⟨data, there⟩ := Option.ne_none_iff_exists'.mp safe
    simp only [setStep, there]
    split <;> exact ⟨_, rfl⟩
  | writeNode node =>
    obtain ⟨data, there⟩ := Option.ne_none_iff_exists'.mp safe.1
    simp only [setStep, there]
    exact ⟨_, rfl⟩
  | readFirst | writeFirst =>
    simp only [setStep, stored]
    exact ⟨_, rfl⟩
  | unlock =>
    simp only [setStep, word]
    exact ⟨_, rfl⟩

omit [DecidableEq K] in
theorem Mem.Closed.bucket (closed : m.Closed) {arr : HashArray} (has : m.HasArray arr) (key : K) :
    ∃ set, m.bucketAt arr.bucketStart (T.keyhash key arr.count) = some set ∧ m.HasSet set := by
  obtain ⟨positive, sets, stored, length⟩ := has
  have bound : T.keyhash key arr.count < sets.length := by
    rw [length]
    exact T.keyhash_lt key positive
  refine ⟨sets[T.keyhash key arr.count], m.bucketAt_eq_some.mpr ⟨sets, stored, List.getElem?_eq_getElem bound⟩, ?_⟩
  exact closed.sets _ _ stored _ (List.getElem_mem bound)

omit [DecidableEq K] in
theorem Mem.Closed.bucketAt (closed : m.Closed) {a : RemotePtr} {i : Nat} (at_ : m.bucketAt a i = some set) :
    m.HasSet set := by
  obtain ⟨sets, stored, inside⟩ := m.bucketAt_eq_some.mp at_
  exact closed.sets a sets stored set (List.mem_of_getElem? inside)

def NextSafe (m : Mem K V) : Pc K V ⊕ HtRes V → Prop
  | .inl pc => pc.Safe m
  | .inr _ => True

theorem ClientBranch.safe {pc : Pc K V} {next : Pc K V ⊕ HtRes V} (branch : ClientBranch T self op m pc m' next)
    (closed : m.Closed) (safe : pc.Safe m) : m'.Closed ∧ m.Grows m' ∧ NextSafe m' next := by
  cases branch with
  | readRoot => exact ⟨closed, .refl m, closed.root⟩
  | readBucket at_ => exact ⟨closed, .refl m, closed.bucketAt at_, trivial⟩
  | goesOn went =>
    obtain ⟨closed', grows, safe'⟩ := (setStep_branch went).safe closed safe.1 safe.2
    exact ⟨closed', grows, safe.1.grows grows, safe'⟩
  | @returns set pc _ res went =>
    obtain ⟨closed', grows, _⟩ := (setStep_branch went).safe closed safe.1 safe.2
    refine ⟨closed', grows, ?_⟩
    unfold report
    split <;> trivial

theorem Pc.Safe.goes (T : Template K V) (self : Nat) (op : IhtOp K V) {pc : Pc K V} (closed : m.Closed) (safe : pc.Safe m) :
    ∃ done, clientStep T self op m pc = .ok done := by
  cases pc with
  | readRoot => exact ⟨_, rfl⟩
  | readBucket arr =>
    obtain ⟨set, at_, _⟩ := closed.bucket (T := T) safe op.key
    simp only [clientStep, at_]
    exact ⟨_, rfl⟩
  | inSet set pc =>
    obtain ⟨⟨m', next⟩, went⟩ := safe.2.goes T self op safe.1
    simp only [clientStep, went]
    cases next <;> exact ⟨_, rfl⟩

def RestSafe (m : Mem K V) : Option (RehashPc K V) → Prop
  | some pc => pc.Safe m
  | none => True

theorem RehashBranch.safe {pc : RehashPc K V} {next : Option (RehashPc K V)} (branch : RehashBranch T self m pc m' next)
    (closed : m.Closed) (safe : pc.Safe m) : m'.Closed ∧ m.Grows m' ∧ RestSafe m' next := by
  have sets : ∀ {m' : Mem K V} {buckets : List LinkedSet}, m.Grows m' → (∀ set ∈ buckets, m.HasSet set) →
      ∀ set ∈ buckets, m'.HasSet set := fun grows has set member => (has set member).grows grows
  cases branch with
  | readRoot => exact ⟨closed, .refl m, closed.root⟩
  | readBuckets stored =>
    exact ⟨closed, .refl m, safe, fun set member => closed.sets _ _ stored set (List.mem_of_mem_take member)⟩
  | few | melted => exact ⟨closed, .refl m, trivial⟩
  | full | listLength | frozen | waits => exact ⟨closed, .refl m, safe⟩
  | @freezes hashtable buckets i set =>
    have grows := Mem.Grows.setLock m set.lock .locked
    exact ⟨closed.setLock _ _, grows, safe.1.grows grows, sets grows safe.2⟩
  | @publish hashtable buckets small =>
    have grows := Mem.Grows.publish closed.arrays_lt self (hashtable.count * 2)
    have closed' := Mem.closed_publish self (Nat.mul_pos safe.1.1 Nat.two_pos) closed.sets closed.nodes closed.nodes_lt
      closed.arrays_lt
    exact ⟨closed', grows, closed'.root, sets grows safe.2⟩
  | added => exact ⟨closed, .refl m, safe.2⟩
  | bucket at_ => exact ⟨closed, .refl m, safe.1, safe.2, .inr (safe.2 _ (List.mem_of_getElem? at_)).2⟩
  | chainEnd => exact ⟨closed, .refl m, safe.1, safe.2.1⟩
  | node _ stored => exact ⟨closed, .refl m, safe.1, safe.2.1, (closed.nodes _ _ stored).2.imp_right And.right⟩
  | nodeEnd => exact ⟨closed, .refl m, safe⟩
  | pair at_ => exact ⟨closed, .refl m, safe.1, safe.2.1, safe.2.2, closed.bucketAt at_, trivial⟩
  | inserts went =>
    obtain ⟨array, has, node, set, inner⟩ := safe
    obtain ⟨closed', grows, safe'⟩ := (setStep_branch went).safe closed set inner
    exact ⟨closed', grows, array.grows grows, sets grows has, node.grows grows, set.grows grows, safe'⟩
  | inserted went =>
    obtain ⟨array, has, node, set, inner⟩ := safe
    obtain ⟨closed', grows, _⟩ := (setStep_branch went).safe closed set inner
    exact ⟨closed', grows, array.grows grows, sets grows has, node.grows grows⟩
  | @melts buckets i set =>
    have grows := Mem.Grows.setLock m set.lock .deleted
    exact ⟨closed.setLock _ _, grows, sets grows safe⟩

/-- A step of `try_rehash` goes through, except where it would count to more than an `int` holds. -/
theorem RehashPc.Safe.goes (T : Template K V) (self : Nat) {pc : RehashPc K V} (closed : m.Closed) (safe : pc.Safe m)
    (fits : ∀ hashtable buckets, pc = .publish hashtable buckets → hashtable.count * 2 < 2 ^ 31) :
    ∃ done, rehashStep T self m pc = .ok done := by
  have lock : ∀ {buckets : List LinkedSet} {i set}, (∀ set ∈ buckets, m.HasSet set) → buckets[i]? = some set →
      m.HasSet set := fun has at_ => has _ (List.mem_of_getElem? at_)
  cases pc with
  | readRoot => exact ⟨_, rfl⟩
  | readBuckets hashtable =>
    obtain ⟨_, sets, stored, length⟩ := safe
    simp only [rehashStep, stored, if_pos length.ge]
    exact ⟨_, rfl⟩
  | listLength hashtable buckets i totalElements =>
    cases at_ : buckets[i]? with
    | none =>
      simp only [rehashStep, at_]
      split <;> exact ⟨_, rfl⟩
    | some set =>
      obtain ⟨data, stored⟩ := Option.ne_none_iff_exists'.mp (lock safe.2 at_).2
      simp only [rehashStep, at_, stored]
      exact ⟨_, rfl⟩
  | freeze hashtable buckets i =>
    cases at_ : buckets[i]? with
    | none =>
      simp only [rehashStep, at_]
      exact ⟨_, rfl⟩
    | some set =>
      obtain ⟨w, word⟩ := Option.ne_none_iff_exists'.mp (lock safe.2 at_).1
      simp only [rehashStep, at_, Mem.compareAndSwap, word, Option.map_some]
      cases w <;> exact ⟨_, rfl⟩
  | publish hashtable buckets =>
    simp only [rehashStep, if_pos (fits hashtable buckets rfl)]
    exact ⟨_, rfl⟩
  | bucket buckets new i =>
    cases at_ : buckets[i]? <;> (simp only [rehashStep, at_]; exact ⟨_, rfl⟩)
  | foreach buckets new i node =>
    by_cases last : node = .null
    · simp only [rehashStep, if_pos last]
      exact ⟨_, rfl⟩
    · obtain ⟨data, stored⟩ := Option.ne_none_iff_exists'.mp (safe.2.2.resolve_left last)
      simp only [rehashStep, if_neg last, stored]
      exact ⟨_, rfl⟩
  | pairs buckets new i next rest =>
    cases rest with
    | nil => exact ⟨_, rfl⟩
    | cons pair rest =>
      obtain ⟨set, at_, _⟩ := closed.bucket (T := T) safe.1 pair.key
      simp only [rehashStep, at_]
      exact ⟨_, rfl⟩
  | insert buckets new i next pair rest set pc =>
    obtain ⟨_, _, _, has, inner⟩ := safe
    obtain ⟨⟨m', next⟩, went⟩ := inner.goes T self (.insert pair.key pair.val) has
    simp only [rehashStep, went]
    cases next <;> exact ⟨_, rfl⟩
  | melt buckets i =>
    cases at_ : buckets[i]? with
    | none =>
      simp only [rehashStep, at_]
      exact ⟨_, rfl⟩
    | some set =>
      obtain ⟨w, word⟩ := Option.ne_none_iff_exists'.mp (lock safe at_).1
      simp only [rehashStep, at_, word]
      exact ⟨_, rfl⟩

end Step

/-! ## Runs -/

section Runs

variable [DecidableEq K] {T : Template K V} {peer : Nat → Nat} {s s' : State K V} {action : Action K V}

structure State.Safe (s : State K V) : Prop where
  mem : s.mem.Closed
  threads : ∀ c, (s.threads c).Safe s.mem

namespace State.Safe

omit [DecidableEq K] in
theorem start (positive : 1 ≤ T.initialSize) (host : Nat) : (initial T host).Safe where
  mem := by
    refine Mem.closed_publish (m := Mem.empty.bump) host positive ?_ ?_ (fun _ some => absurd rfl some)
      (fun _ some => absurd rfl some)
    · intro a sets stored
      cases stored
    · intro node data stored
      cases stored
  threads _ := trivial

omit [DecidableEq K] in
theorem of_step {m : Mem K V} {c : Nat} (thread : Thread K V) (safe : s.Safe) (closed : m.Closed) (grows : s.mem.Grows m)
    (own : thread.Safe m) (mem : s'.mem = m) (threads : s'.threads = Function.update s.threads c thread) : s'.Safe where
  mem := mem ▸ closed
  threads c' := by
    rw [threads, mem, Function.update_apply]
    split
    · exact own
    · exact (safe.threads c').grows grows

theorem next (safe : s.Safe) (enabled : exec T peer s action = some s') : s'.Safe := by
  rcases exec_cases enabled with ⟨c, op, rfl, idle, rfl⟩ | ⟨c, rfl, idle, _, rfl⟩ | ⟨c, rfl, _, rfl⟩ |
    ⟨c, id, op, pc, m, next, rfl, runs, stepped, rfl⟩ | ⟨c, pc, m, next, rfl, runs, stepped, rfl⟩
  · exact safe.of_step (.running s.ops op .readRoot) safe.mem (.refl _) trivial rfl rfl
  · exact safe.of_step (.resizing .readRoot) safe.mem (.refl _) trivial rfl rfl
  · exact safe
  · have own := safe.threads c
    rw [runs] at own
    obtain ⟨closed, grows, rest⟩ := (clientStep_branch stepped).safe safe.mem own
    refine safe.of_step (.after id op next) closed grows ?_ rfl rfl
    cases next with
    | inl pc => exact rest
    | inr res => trivial
  · have own := safe.threads c
    rw [runs] at own
    obtain ⟨closed, grows, rest⟩ := (rehashStep_branch stepped).safe safe.mem own
    refine safe.of_step (.resume next) closed grows ?_ rfl rfl
    cases next with
    | some pc => exact rest
    | none => trivial

theorem goes (safe : s.Safe) {c : Nat} (busy : s.threads c ≠ .idle)
    (fits : ∀ hashtable buckets, s.threads c = .resizing (.publish hashtable buckets) → hashtable.count * 2 < 2 ^ 31) :
    (exec T peer s (.step c)).isSome := by
  have own := safe.threads c
  cases runs : s.threads c with
  | idle => exact absurd runs busy
  | running id op pc =>
    rw [runs] at own
    obtain ⟨⟨m, next⟩, stepped⟩ := own.goes T (peer c) op safe.mem
    rw [exec_client runs stepped]
    rfl
  | resizing pc =>
    rw [runs] at own
    obtain ⟨⟨m, next⟩, stepped⟩ := own.goes T (peer c) safe.mem fun hashtable buckets at_ =>
      fits hashtable buckets (at_ ▸ runs)
    rw [exec_rehash runs stepped]
    rfl

end State.Safe

/-- However resizes overlap, no thread accesses memory that is not there, a step of a
thread fails only in a resize whose new count leaves `int`, no node has more pairs than
a bundle, and what follows a node is a later one that is there. -/
theorem memory_safe (positive : 1 ≤ T.initialSize) (host : Nat) (reachable : Reachable (exec T peer) (initial T host) s) :
    (∀ c, s.threads c ≠ .idle → (exec T peer s (.step c)).isSome ∨
      ∃ hashtable buckets, s.threads c = .resizing (.publish hashtable buckets) ∧ 2 ^ 31 ≤ hashtable.count * 2) ∧
    ∀ node data, s.mem.nodes node = some data → data.pairs.length ≤ nodeBundleSize ∧
      (data.next = .null ∨ node.address < data.next.address ∧ s.mem.nodes data.next ≠ none) := by
  have safe : s.Safe := reachable.invariant (State.Safe.start positive host) fun _ _ _ safe _ enabled => safe.next enabled
  refine ⟨fun c busy => ?_, safe.mem.nodes⟩
  by_cases large : ∃ hashtable buckets, s.threads c = .resizing (.publish hashtable buckets) ∧ 2 ^ 31 ≤ hashtable.count * 2
  · exact .inr large
  · refine .inl (safe.goes busy fun hashtable buckets at_ => ?_)
    by_contra few
    exact large ⟨hashtable, buckets, at_, Nat.le_of_not_lt few⟩

/-- Thread 1 has a copy of the buckets that thread 0 deleted, and waits for ever; its
steps still go through. -/
theorem memory_safe_stranded : ∃ s : State (BitVec 32) (BitVec 32),
    s.threads 1 = .resizing (.freeze ⟨1, ⟨0, 2⟩⟩ [⟨⟨0, 3⟩, ⟨0, 4⟩⟩] 0) ∧ s.mem.locks ⟨0, 3⟩ = some .deleted ∧
    (exec (intTemplate 1) (fun _ => 0) s (.step 1)).isSome := by
  have ran : (runAll (exec (intTemplate 1) fun _ => 0) (initial (intTemplate 1) 0) (twoResizes 4 1)).map
      (fun s => (s.threads 1, s.mem.locks ⟨0, 3⟩)) =
      some (.resizing (.freeze ⟨1, ⟨0, 2⟩⟩ [⟨⟨0, 3⟩, ⟨0, 4⟩⟩] 0), some .deleted) := by decide +kernel
  obtain ⟨s, final, shown⟩ := Option.map_eq_some_iff.mp ran
  simp only [Prod.mk.injEq] at shown
  have safe := memory_safe (T := intTemplate 1) (Nat.le_refl 1) 0 (reachable_of_runAll (twoResizes 4 1) final)
  refine ⟨s, shown.1, shown.2, (safe.1 1 (by simp [shown.1])).resolve_right ?_⟩
  rintro ⟨hashtable, buckets, publishes, _⟩
  rw [shown.1] at publishes
  cases publishes

end Runs

end RdmaIht.Hashtable
