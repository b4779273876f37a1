import Mathlib.Logic.Function.Basic
import RdmaIht.Common

/-! The blocks of a `Hashtable` and the memory they live in.

The root is a `HashArray`, the count and the start of an array of `LinkedSet`s. A
`LinkedSet` is a lock word and a chain of nodes with up to seven pairs each. Both
pointers of a `LinkedSet` are set when it is built and never change.
-/

set_option autoImplicit false

namespace RdmaIht.Hashtable

variable {K V : Type}

/-- The parameters of `Hashtable<K, V, INITIAL_SIZE>`: the size, `std::hash<K>` and the literal 0 as a `V`. -/
structure Template (K V : Type) where
  initialSize : Nat
  preHash : K → BitVec 64
  zero : V

/-- `Hashtable<int, int, INITIAL_SIZE>`, where `std::hash<int>` converts to `size_t`. -/
def intTemplate (initialSize : Nat) : Template (BitVec 32) (BitVec 32) where
  initialSize := initialSize
  preHash key := key.signExtend 64
  zero := 0

def Template.keyhash (T : Template K V) (key : K) (count : Nat) : Nat := (T.preHash key).toNat % count

/-- `LOCKED`, `UNLOCKED` and `DELETED`. -/
inductive LockType where
  | locked
  | unlocked
  | deleted
  deriving DecidableEq, Repr

/-- `NODE_BUNDLE_SIZE` -/
def nodeBundleSize : Nat := 7

/-- `pairs` lists the first `length` slots of the arrays `key` and `value`. -/
structure Node (K V : Type) where
  next : RemotePtr := .null
  totalLength : BitVec 32 := 0
  pairs : List (Pair K V) := []
  deriving DecidableEq, Repr

structure LinkedSet where
  lock : RemotePtr
  first : RemotePtr
  deriving DecidableEq, Repr

structure HashArray where
  count : Nat
  bucketStart : RemotePtr
  deriving DecidableEq, Repr

/-- `root` is what the root pointer of the table points to. -/
structure Mem (K V : Type) where
  root : HashArray
  arrays : RemotePtr → Option (List LinkedSet)
  locks : RemotePtr → Option LockType
  nodes : RemotePtr → Option (Node K V)
  next : Nat

namespace Mem

/-- The address of the next block `self` allocates. -/
def fresh (m : Mem K V) (self : Nat) : RemotePtr := ⟨self, m.next⟩

def bump (m : Mem K V) : Mem K V := { m with next := m.next + 1 }

def setLock (m : Mem K V) (lock : RemotePtr) (w : LockType) : Mem K V :=
  { m with locks := Function.update m.locks lock (some w) }

def setNode (m : Mem K V) (node : RemotePtr) (data : Node K V) : Mem K V :=
  { m with nodes := Function.update m.nodes node (some data) }

/-- `Allocate<Node>` with the contents then stored in the new block. -/
def newNode (m : Mem K V) (self : Nat) (data : Node K V) : Mem K V := (m.setNode (m.fresh self) data).bump

/-- The bucket at `indexAt(start, index)`. -/
def bucketAt (m : Mem K V) (start : RemotePtr) (index : Nat) : Option LinkedSet :=
  (m.arrays start).bind (·[index]?)

/-- `LinkedSet(pool)` -/
def newSet (m : Mem K V) (self : Nat) : LinkedSet × Mem K V :=
  let lock := m.fresh self
  let m := m.bump.setLock lock .unlocked
  (⟨lock, m.fresh self⟩, m.newNode self {})

/-- The loop that builds the buckets of a new array, up to bucket `n`. -/
def newSets (self : Nat) : Nat → Mem K V → List LinkedSet × Mem K V
  | 0, m => ([], m)
  | n + 1, m =>
    let (sets, m) := newSets self n m
    let (set, m) := m.newSet self
    (sets ++ [set], m)

/-- `Allocate<LinkedKV>` of `n` buckets, and their construction. -/
def newArray (m : Mem K V) (self n : Nat) : HashArray × Mem K V :=
  let (sets, m') := newSets self n m.bump
  (⟨n, m.fresh self⟩, { m' with arrays := Function.update m'.arrays (m.fresh self) (some sets) })

/-- `CompareAndSwap(lock, UNLOCKED, LOCKED)`: the old word, and the memory after it. -/
def compareAndSwap (m : Mem K V) (lock : RemotePtr) : Option (LockType × Mem K V) :=
  (m.locks lock).map fun old => (old, if old = .unlocked then m.setLock lock .locked else m)

section Lemmas

variable (m : Mem K V)

@[simp] theorem root_bump : m.bump.root = m.root := rfl
@[simp] theorem arrays_bump : m.bump.arrays = m.arrays := rfl
@[simp] theorem locks_bump : m.bump.locks = m.locks := rfl
@[simp] theorem nodes_bump : m.bump.nodes = m.nodes := rfl
@[simp] theorem next_bump : m.bump.next = m.next + 1 := rfl
@[simp] theorem root_setLock (l : RemotePtr) (w : LockType) : (m.setLock l w).root = m.root := rfl
@[simp] theorem arrays_setLock (l : RemotePtr) (w : LockType) : (m.setLock l w).arrays = m.arrays := rfl
@[simp] theorem nodes_setLock (l : RemotePtr) (w : LockType) : (m.setLock l w).nodes = m.nodes := rfl
@[simp] theorem next_setLock (l : RemotePtr) (w : LockType) : (m.setLock l w).next = m.next := rfl
@[simp] theorem root_setNode (p : RemotePtr) (n : Node K V) : (m.setNode p n).root = m.root := rfl
@[simp] theorem arrays_setNode (p : RemotePtr) (n : Node K V) : (m.setNode p n).arrays = m.arrays := rfl
@[simp] theorem locks_setNode (p : RemotePtr) (n : Node K V) : (m.setNode p n).locks = m.locks := rfl
@[simp] theorem next_setNode (p : RemotePtr) (n : Node K V) : (m.setNode p n).next = m.next := rfl
@[simp] theorem root_newNode (self : Nat) (n : Node K V) : (m.newNode self n).root = m.root := rfl
@[simp] theorem arrays_newNode (self : Nat) (n : Node K V) : (m.newNode self n).arrays = m.arrays := rfl
@[simp] theorem locks_newNode (self : Nat) (n : Node K V) : (m.newNode self n).locks = m.locks := rfl
@[simp] theorem next_newNode (self : Nat) (n : Node K V) : (m.newNode self n).next = m.next + 1 := rfl

theorem locks_setLock (l : RemotePtr) (w : LockType) (q : RemotePtr) :
    (m.setLock l w).locks q = if q = l then some w else m.locks q := by
  simp [setLock, Function.update_apply]

theorem nodes_setNode (p : RemotePtr) (n : Node K V) (q : RemotePtr) :
    (m.setNode p n).nodes q = if q = p then some n else m.nodes q := by
  simp [setNode, Function.update_apply]

theorem nodes_newNode (self : Nat) (n : Node K V) (q : RemotePtr) :
    (m.newNode self n).nodes q = if q = m.fresh self then some n else m.nodes q :=
  m.nodes_setNode (m.fresh self) n q

theorem bucketAt_eq_some {start : RemotePtr} {i : Nat} {set : LinkedSet} :
    m.bucketAt start i = some set ↔ ∃ sets, m.arrays start = some sets ∧ sets[i]? = some set := by
  simp [bucketAt, Option.bind_eq_some_iff]

theorem length_newSets (self n : Nat) : (newSets self n m).1.length = n := by
  induction n with
  | zero => rfl
  | succ n ih => simp [newSets, ih]

theorem next_newSets (self n : Nat) : (newSets self n m).2.next = m.next + 2 * n := by
  induction n with
  | zero => rfl
  | succ n ih => simp [newSets, newSet, ih]; omega

theorem arrays_newSets (self n : Nat) : (newSets self n m).2.arrays = m.arrays := by
  induction n with
  | zero => rfl
  | succ n ih => simp [newSets, newSet, ih]

theorem getElem?_newSets (self n i : Nat) : (newSets self n m).1[i]? =
    if i < n then some ⟨⟨self, m.next + 2 * i⟩, ⟨self, m.next + 2 * i + 1⟩⟩ else none := by
  induction n with
  | zero => simp [newSets]
  | succ n ih =>
    simp only [newSets, newSet, List.getElem?_append, length_newSets, ih, fresh, next_newSets]
    by_cases old : i < n
    · simp [old, Nat.lt_succ_of_lt old]
    · by_cases last : i = n
      · subst i; simp [next_newSets]
      · have : ¬ i < n + 1 := by omega
        simp [old, this, show i - n ≠ 0 by omega]

theorem newSets_blocks (self n : Nat) :
    (∀ q, q.address < m.next → (newSets self n m).2.locks q = m.locks q ∧ (newSets self n m).2.nodes q = m.nodes q) ∧
    ∀ i < n, (newSets self n m).2.locks ⟨self, m.next + 2 * i⟩ = some .unlocked ∧
      (newSets self n m).2.nodes ⟨self, m.next + 2 * i + 1⟩ = some {} := by
  induction n with
  | zero => exact ⟨fun _ _ => ⟨rfl, rfl⟩, fun _ none => absurd none (Nat.not_lt_zero _)⟩
  | succ n ih =>
    obtain ⟨old, built⟩ := ih
    -- the last set takes the two addresses that follow those of the sets before
    have last : ∀ q : RemotePtr, ((newSets self (n + 1) m).2.locks q =
          if q = ⟨self, m.next + 2 * n⟩ then some .unlocked else (newSets self n m).2.locks q) ∧
        (newSets self (n + 1) m).2.nodes q =
          if q = ⟨self, m.next + 2 * n + 1⟩ then some {} else (newSets self n m).2.nodes q := by
      intro q
      simp only [newSets, newSet, locks_newNode, nodes_newNode, locks_setLock, nodes_setLock, locks_bump, nodes_bump,
        fresh, next_setLock, next_bump, next_newSets, and_self]
    constructor
    · intro q low
      rw [(last q).1, (last q).2, if_neg, if_neg]
      · exact old q low
      · rintro rfl
        dsimp only at low
        omega
      · rintro rfl
        dsimp only at low
        omega
    · intro i bound
      rw [(last _).1, (last _).2]
      by_cases here : i = n
      · subst i
        simp
      · have inner := built i (by omega)
        simp [inner.1, inner.2]

theorem newSets_only (self n : Nat) (q : RemotePtr) :
    ((newSets self n m).2.locks q ≠ none → m.locks q ≠ none ∨ q.address < m.next + 2 * n) ∧
      ((newSets self n m).2.nodes q ≠ none → m.nodes q ≠ none ∨ q.address < m.next + 2 * n) := by
  induction n with
  | zero => exact ⟨fun some => .inl some, fun some => .inl some⟩
  | succ n ih =>
    simp only [newSets, newSet, locks_newNode, nodes_newNode, locks_setLock, nodes_setLock, locks_bump, nodes_bump,
      fresh, next_setLock, next_bump, next_newSets]
    constructor
    · split
      · next here =>
        subst here
        exact fun _ => .inr (by dsimp only; omega)
      · exact fun some => (ih.1 some).imp_right fun low => by omega
    · split
      · next here =>
        subst here
        exact fun _ => .inr (by dsimp only; omega)
      · exact fun some => (ih.2 some).imp_right fun low => by omega

end Lemmas

end Mem

end RdmaIht.Hashtable
