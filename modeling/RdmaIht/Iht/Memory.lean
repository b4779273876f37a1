import Mathlib.Logic.Function.Basic
import RdmaIht.Common

/-! The blocks of an `RdmaIHT` and the memory they live in.

A P-List is a block of buckets, each a base pointer with a pointer to its lock
word; an E-List is a count and an array of pairs. One memory holds the blocks of
every pool, so that local access, `Read`, `Write` and `CompareAndSwap` are all
accesses to it.
-/

set_option autoImplicit false

namespace RdmaIht.Iht

variable {K V : Type}

/-- The parameters of `RdmaIHT<K, V, ELIST_SIZE, PLIST_SIZE>`: the two sizes,
`std::hash<K>`, the conversions made by `K result = e->pairs[i].val` and by
`HT_Res<V>(.., result)`, and the literal 0 as a `V`. -/
structure Template (K V : Type) where
  elistSize : Nat
  plistSize : Nat
  preHash : K → BitVec 64
  toKey : V → K
  toValue : K → V
  zero : V

/-- `RdmaIHT<int, int, ELIST_SIZE, PLIST_SIZE>`, where `std::hash<int>` converts to `size_t`. -/
def intTemplate (elistSize plistSize : Nat) : Template (BitVec 32) (BitVec 32) where
  elistSize := elistSize
  plistSize := plistSize
  preHash key := key.signExtend 64
  toKey value := value
  toValue key := key
  zero := 0

/-- `E_LOCKED`, `E_UNLOCKED` and `P_UNLOCKED`. -/
inductive LockType where
  | eLocked
  | eUnlocked
  | pUnlocked
  deriving DecidableEq, Repr

/-- `pairs` lists the slots of the array written so far, live ones first. -/
structure EList (K V : Type) where
  count : Nat := 0
  pairs : List (Pair K V) := []
  deriving DecidableEq, Repr

structure PlistPair where
  base : RemotePtr
  lock : RemotePtr
  deriving DecidableEq, Repr

def Template.levelHash (T : Template K V) (key : K) (level count : Nat) : Nat :=
  (BitVec.ofNat 64 level ^^^ T.preHash key).toNat % (count - 1)

/-- The buckets of a P-List at `depth`, the root being at depth 1. -/
def Template.size (T : Template K V) (depth : Nat) : Nat := T.plistSize * 2 ^ (depth - 1)

/-- The bucket of `key` in a P-List at `depth`. -/
def Template.index (T : Template K V) (key : K) (depth : Nat) : Nat :=
  T.levelHash key depth (T.size depth)

/-- `PLIST_SIZE * mult_modder`, a product of `int`s. -/
def Template.buckets (T : Template K V) (multModder : Nat) : Option Nat :=
  if T.plistSize * multModder < 2 ^ 31 then some (T.plistSize * multModder) else none

/-! ## E-Lists -/

def EList.live (e : EList K V) : List (Pair K V) := e.pairs.take e.count

/-- `e->pairs[i] = pair`. -/
def EList.store (e : EList K V) (i : Nat) (pair : Pair K V) : EList K V :=
  { e with pairs := e.pairs.take i ++ pair :: e.pairs.drop (i + 1) }

def EList.withCount (e : EList K V) (count : Nat) : EList K V := { e with count := count }

/-- `elist_insert`: the array is indexed with no check, so the call is only
defined while there is room. -/
def Template.elistInsert (T : Template K V) (e : EList K V) (pair : Pair K V) : Option (EList K V) :=
  if e.count < T.elistSize then some ((e.store e.count pair).withCount (e.count + 1)) else none

/-- The live slots are written and lie in the array. -/
def Template.Fits (T : Template K V) (e : EList K V) : Prop :=
  e.count ≤ e.pairs.length ∧ e.pairs.length ≤ T.elistSize

@[simp] theorem EList.count_store (e : EList K V) (i : Nat) (pair : Pair K V) :
    (e.store i pair).count = e.count := rfl

@[simp] theorem EList.pairs_withCount (e : EList K V) (n : Nat) : (e.withCount n).pairs = e.pairs := rfl

@[simp] theorem EList.count_withCount (e : EList K V) (n : Nat) : (e.withCount n).count = n := rfl

theorem EList.length_store (e : EList K V) {i : Nat} (pair : Pair K V) (bound : i ≤ e.pairs.length) :
    (e.store i pair).pairs.length = max e.pairs.length (i + 1) := by
  simp only [store, List.length_append, List.length_take, List.length_cons, List.length_drop]
  omega

theorem Template.Fits.store {T : Template K V} {e : EList K V} (fits : T.Fits e) {i : Nat}
    (pair : Pair K V) (written : i ≤ e.pairs.length) (room : i < T.elistSize) :
    T.Fits (e.store i pair) := by
  have length := e.length_store pair written
  simp only [Fits, EList.count_store, length] at fits ⊢
  omega

theorem EList.getElem?_live {e : EList K V} {i : Nat} {pair : Pair K V} (live : i < e.count)
    (slot : e.pairs[i]? = some pair) : e.live[i]? = some pair := by
  rw [EList.live, List.getElem?_take, if_pos live]
  exact slot

theorem Template.fits_empty (T : Template K V) : T.Fits {} := ⟨Nat.le_refl 0, Nat.zero_le T.elistSize⟩

theorem EList.live_insert (e : EList K V) (pair : Pair K V) (bound : e.count ≤ e.pairs.length) :
    ((e.store e.count pair).withCount (e.count + 1)).live = e.live ++ [pair] := by
  have long : (e.pairs.take e.count).length = e.count := by simp; omega
  simp only [live, store, withCount]
  rw [List.take_append, long, List.take_of_length_le (by omega), Nat.add_sub_cancel_left]
  rfl

theorem Template.elistInsert_ok (T : Template K V) {e : EList K V} (fits : T.Fits e) (room : e.count < T.elistSize)
    (pair : Pair K V) : ∃ e', T.elistInsert e pair = some e' ∧ T.Fits e' ∧ e'.count = e.count + 1 ∧
      e'.live = e.live ++ [pair] := by
  refine ⟨_, if_pos room, ⟨?_, (fits.store pair fits.1 room).2⟩, rfl, e.live_insert pair fits.1⟩
  rw [EList.pairs_withCount, EList.length_store _ _ fits.1, EList.count_withCount]
  omega

/-! ## Memory -/

structure Mem (K V : Type) where
  plists : RemotePtr → Option (List PlistPair)
  elists : RemotePtr → Option (EList K V)
  locks : RemotePtr → Option LockType
  next : Nat

namespace Mem

def empty : Mem K V := ⟨fun _ => none, fun _ => none, fun _ => none, 1⟩

def bucket (m : Mem K V) (p : RemotePtr) (b : Nat) : Option PlistPair := (m.plists p).bind (·[b]?)

/-- The address of the next block `self` allocates. -/
def fresh (m : Mem K V) (self : Nat) : RemotePtr := ⟨self, m.next⟩

def bump (m : Mem K V) : Mem K V := { m with next := m.next + 1 }

def setLock (m : Mem K V) (lock : RemotePtr) (w : LockType) : Mem K V :=
  { m with locks := Function.update m.locks lock (some w) }

def setElist (m : Mem K V) (e : RemotePtr) (el : EList K V) : Mem K V :=
  { m with elists := Function.update m.elists e (some el) }

/-- `Deallocate<EList>` of a block of the memory. -/
def freeElist (m : Mem K V) (e : RemotePtr) : Mem K V :=
  { m with elists := Function.update m.elists e none }

/-- `Deallocate<PList>` of a block of the memory. -/
def freePlist (m : Mem K V) (p : RemotePtr) : Mem K V :=
  { m with plists := Function.update m.plists p none }

/-- `p->buckets[b].base = base`. -/
def setBase (m : Mem K V) (p : RemotePtr) (b : Nat) (base : RemotePtr) : Mem K V :=
  let stored := (m.plists p).map fun bs => bs.modify b fun pr => { pr with base := base }
  { m with plists := Function.update m.plists p stored }

/-- `Allocate<EList>` with the contents then stored in the new block. -/
def newElist (m : Mem K V) (self : Nat) (el : EList K V) : Mem K V := (m.setElist (m.fresh self) el).bump

/-- The loop of `InitPList`, up to bucket `n`. -/
def initBuckets (self : Nat) : Nat → Mem K V → List PlistPair × Mem K V
  | 0, m => ([], m)
  | n + 1, m =>
    let (buckets, m) := initBuckets self n m
    let lock := m.fresh self
    (buckets ++ [⟨.null, lock⟩], m.bump.setLock lock .eUnlocked)

/-- `Allocate<PList>` and `InitPList` for a P-List of `n` buckets. -/
def newPlist (m : Mem K V) (self n : Nat) : Mem K V :=
  let (buckets, m') := initBuckets self n m.bump
  { m' with plists := Function.update m'.plists (m.fresh self) (some buckets) }

/-- `CompareAndSwap`: the old word, and the memory after it. -/
def compareAndSwap (m : Mem K V) (lock : RemotePtr) (expected swap : LockType) :
    Option (LockType × Mem K V) :=
  (m.locks lock).map fun old => (old, if old = expected then m.setLock lock swap else m)

section Lemmas

variable (m : Mem K V)

@[simp] theorem plists_bump : m.bump.plists = m.plists := rfl
@[simp] theorem elists_bump : m.bump.elists = m.elists := rfl
@[simp] theorem locks_bump : m.bump.locks = m.locks := rfl
@[simp] theorem next_bump : m.bump.next = m.next + 1 := rfl
@[simp] theorem plists_setLock (l : RemotePtr) (w : LockType) : (m.setLock l w).plists = m.plists := rfl
@[simp] theorem elists_setLock (l : RemotePtr) (w : LockType) : (m.setLock l w).elists = m.elists := rfl
@[simp] theorem next_setLock (l : RemotePtr) (w : LockType) : (m.setLock l w).next = m.next := rfl
@[simp] theorem plists_setElist (e : RemotePtr) (el : EList K V) : (m.setElist e el).plists = m.plists := rfl
@[simp] theorem locks_setElist (e : RemotePtr) (el : EList K V) : (m.setElist e el).locks = m.locks := rfl
@[simp] theorem next_setElist (e : RemotePtr) (el : EList K V) : (m.setElist e el).next = m.next := rfl
@[simp] theorem plists_freeElist (e : RemotePtr) : (m.freeElist e).plists = m.plists := rfl
@[simp] theorem locks_freeElist (e : RemotePtr) : (m.freeElist e).locks = m.locks := rfl
@[simp] theorem next_freeElist (e : RemotePtr) : (m.freeElist e).next = m.next := rfl
@[simp] theorem elists_setBase (p : RemotePtr) (b : Nat) (base : RemotePtr) :
    (m.setBase p b base).elists = m.elists := rfl
@[simp] theorem locks_setBase (p : RemotePtr) (b : Nat) (base : RemotePtr) :
    (m.setBase p b base).locks = m.locks := rfl
@[simp] theorem next_setBase (p : RemotePtr) (b : Nat) (base : RemotePtr) :
    (m.setBase p b base).next = m.next := rfl
@[simp] theorem bucket_bump (p : RemotePtr) (b : Nat) : m.bump.bucket p b = m.bucket p b := rfl
@[simp] theorem bucket_setLock (l : RemotePtr) (w : LockType) (p : RemotePtr) (b : Nat) :
    (m.setLock l w).bucket p b = m.bucket p b := rfl
@[simp] theorem bucket_setElist (e : RemotePtr) (el : EList K V) (p : RemotePtr) (b : Nat) :
    (m.setElist e el).bucket p b = m.bucket p b := rfl
@[simp] theorem bucket_freeElist (e : RemotePtr) (p : RemotePtr) (b : Nat) :
    (m.freeElist e).bucket p b = m.bucket p b := rfl

theorem locks_setLock (l : RemotePtr) (w : LockType) (q : RemotePtr) :
    (m.setLock l w).locks q = if q = l then some w else m.locks q := by
  simp [setLock, Function.update_apply]

theorem elists_setElist (e : RemotePtr) (el : EList K V) (q : RemotePtr) :
    (m.setElist e el).elists q = if q = e then some el else m.elists q := by
  simp [setElist, Function.update_apply]

theorem elists_newElist (self : Nat) (el : EList K V) (q : RemotePtr) :
    (m.newElist self el).elists q = if q = m.fresh self then some el else m.elists q :=
  elists_setElist m (m.fresh self) el q

theorem elists_freeElist (e q : RemotePtr) :
    (m.freeElist e).elists q = if q = e then none else m.elists q := by
  simp [freeElist, Function.update_apply]

theorem bucket_setBase (p : RemotePtr) (b : Nat) (base q : RemotePtr) (j : Nat) :
    (m.setBase p b base).bucket q j =
      if q = p ∧ j = b then (m.bucket q j).map fun pr => { pr with base := base } else m.bucket q j := by
  by_cases here : q = p
  · subst q
    by_cases same : j = b
    · subst j
      cases found : m.plists p <;> simp [bucket, setBase, found]
    · cases found : m.plists p <;> simp [bucket, setBase, found, same, Ne.symm same]
  · simp [bucket, setBase, here]

theorem plists_setBase (p : RemotePtr) (b : Nat) (base q : RemotePtr) :
    (m.setBase p b base).plists q = if q = p then
      (m.plists q).map fun bs => bs.modify b fun pr => { pr with base := base } else m.plists q := by
  by_cases here : q = p
  · subst q; simp [setBase]
  · simp [setBase, here]

variable {m} {p base q : RemotePtr} {b j : Nat}

theorem plists_setBase_of_some {bs : List PlistPair} (was : m.plists q = some bs) :
    ∃ bs', (m.setBase p b base).plists q = some bs' ∧ bs'.length = bs.length := by
  rw [plists_setBase]
  split
  · exact ⟨_, by rw [was]; rfl, by simp⟩
  · exact ⟨bs, was, rfl⟩

theorem plists_of_setBase {bs : List PlistPair} (now : (m.setBase p b base).plists q = some bs) :
    ∃ old, m.plists q = some old := by
  rw [plists_setBase] at now
  split at now
  · obtain ⟨old, was, _⟩ := Option.map_eq_some_iff.mp now
    exact ⟨old, was⟩
  · exact ⟨bs, now⟩

theorem bucket_of_setBase {pr : PlistPair} (now : (m.setBase p b base).bucket q j = some pr) :
    ∃ old, m.bucket q j = some old ∧ old.lock = pr.lock ∧
      ((q = p ∧ j = b ∧ pr.base = base) ∨ (¬ (q = p ∧ j = b) ∧ old = pr)) := by
  rw [bucket_setBase] at now
  split at now
  · next here =>
    obtain ⟨old, was, rfl⟩ := Option.map_eq_some_iff.mp now
    exact ⟨old, was, rfl, .inl ⟨here.1, here.2, rfl⟩⟩
  · next away => exact ⟨pr, now, rfl, .inr ⟨away, rfl⟩⟩

end Lemmas

theorem bucket_eq_some {m : Mem K V} {p : RemotePtr} {b : Nat} {pr : PlistPair} :
    m.bucket p b = some pr ↔ ∃ bs, m.plists p = some bs ∧ bs[b]? = some pr := by
  simp [bucket, Option.bind_eq_some_iff]

theorem bucket_of_copy {m : Mem K V} {p : RemotePtr} {bs : List PlistPair} {n b : Nat} {pr : PlistPair}
    (stored : m.plists p = some bs) (copied : (bs.take n)[b]? = some pr) : m.bucket p b = some pr := by
  rw [List.getElem?_take] at copied
  split at copied
  · exact bucket_eq_some.mpr ⟨bs, stored, copied⟩
  · cases copied

section NewPlist

theorem initBuckets_fst (self n : Nat) (m : Mem K V) (b : Nat) :
    (initBuckets self n m).1[b]? = if b < n then some ⟨.null, ⟨self, m.next + b⟩⟩ else none := by
  suffices h : (initBuckets self n m).2.next = m.next + n ∧ (initBuckets self n m).1.length = n ∧
      (initBuckets self n m).1[b]? = if b < n then some ⟨.null, ⟨self, m.next + b⟩⟩ else none from h.2.2
  induction n with
  | zero => simp [initBuckets]
  | succ n ih =>
    obtain ⟨next, length, lookup⟩ := ih
    refine ⟨by simp [initBuckets, next]; omega, by simp [initBuckets, length], ?_⟩
    simp only [initBuckets, List.getElem?_append, length, lookup, fresh, next]
    by_cases old : b < n
    · simp [old, Nat.lt_succ_of_lt old]
    · by_cases last : b = n
      · subst b; simp
      · have : ¬ b < n + 1 := by omega
        simp [old, this, show b - n ≠ 0 by omega]

theorem length_initBuckets (self n : Nat) (m : Mem K V) : (initBuckets self n m).1.length = n := by
  induction n with
  | zero => rfl
  | succ n ih => simp [initBuckets, ih]

theorem next_initBuckets (self n : Nat) (m : Mem K V) : (initBuckets self n m).2.next = m.next + n := by
  induction n with
  | zero => rfl
  | succ n ih => simp [initBuckets, ih]; omega

theorem plists_initBuckets (self n : Nat) (m : Mem K V) : (initBuckets self n m).2.plists = m.plists := by
  induction n with
  | zero => rfl
  | succ n ih => simp [initBuckets, ih]

theorem elists_initBuckets (self n : Nat) (m : Mem K V) : (initBuckets self n m).2.elists = m.elists := by
  induction n with
  | zero => rfl
  | succ n ih => simp [initBuckets, ih]

theorem locks_initBuckets (self n : Nat) (m : Mem K V) (q : RemotePtr) :
    (initBuckets self n m).2.locks q =
      if q.id = self ∧ m.next ≤ q.address ∧ q.address < m.next + n then some .eUnlocked else m.locks q := by
  induction n with
  | zero =>
    have : ¬ (q.id = self ∧ m.next ≤ q.address ∧ q.address < m.next + 0) := by omega
    rw [if_neg this]; rfl
  | succ n ih =>
    simp only [initBuckets, locks_setLock, locks_bump, ih, fresh, next_initBuckets]
    by_cases last : q = ⟨self, m.next + n⟩
    · subst q; simp
    · rw [if_neg last]
      have : (q.id = self ∧ m.next ≤ q.address ∧ q.address < m.next + n) ↔
          (q.id = self ∧ m.next ≤ q.address ∧ q.address < m.next + (n + 1)) := by
        constructor
        · omega
        · rintro ⟨owner, low, high⟩
          refine ⟨owner, low, ?_⟩
          by_contra above
          have top : q.address = m.next + n := by omega
          exact last (by rw [← owner, ← top])
      simp only [this]

variable (m : Mem K V) (self n : Nat)

theorem plists_newPlist (q : RemotePtr) : (m.newPlist self n).plists q =
    if q = m.fresh self then some (initBuckets self n m.bump).1 else m.plists q := by
  simp [newPlist, Function.update_apply, plists_initBuckets]

theorem bucket_newPlist (q : RemotePtr) (b : Nat) : (m.newPlist self n).bucket q b =
    if q = m.fresh self then if b < n then some ⟨.null, ⟨self, m.next + 1 + b⟩⟩ else none
    else m.bucket q b := by
  by_cases here : q = m.fresh self <;>
    simp [bucket, plists_newPlist, here, initBuckets_fst]

theorem locks_newPlist (q : RemotePtr) : (m.newPlist self n).locks q =
    if q.id = self ∧ m.next < q.address ∧ q.address < m.next + 1 + n then some .eUnlocked else m.locks q :=
  locks_initBuckets self n m.bump q

theorem locks_newPlist_fresh {j : Nat} (bound : j < n) :
    (m.newPlist self n).locks ⟨self, m.next + 1 + j⟩ = some .eUnlocked := by
  rw [locks_newPlist, if_pos ⟨rfl, by simp; omega, by simp; omega⟩]

variable {m self n} in
theorem bucket_of_newPlist {q : RemotePtr} {j : Nat} {pr : PlistPair} (now : (m.newPlist self n).bucket q j = some pr) :
    (q = m.fresh self ∧ j < n ∧ pr = ⟨.null, ⟨self, m.next + 1 + j⟩⟩) ∨ m.bucket q j = some pr := by
  rw [bucket_newPlist] at now
  split at now
  · next here =>
    split at now
    · next bound => exact .inl ⟨here, bound, (Option.some.inj now).symm⟩
    · cases now
  · exact .inr now

@[simp] theorem elists_newPlist : (m.newPlist self n).elists = m.elists := by
  simp [newPlist, elists_initBuckets]

@[simp] theorem next_newPlist : (m.newPlist self n).next = m.next + 1 + n := by
  simp [newPlist, next_initBuckets]

end NewPlist

end Mem

end RdmaIht.Iht
