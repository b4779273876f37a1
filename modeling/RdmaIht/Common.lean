import Mathlib.Algebra.Order.Ring.Int

/-! Types shared by the data structures: `common.h` and the remote pointers of the memory pool.

A remote pointer names the pool that owns a block and the address of the block
in it. Addresses number the allocations: `Allocate` hands out an address that
was never used before, so a block that was freed is never mistaken for a later
one.
-/

set_option autoImplicit false

namespace RdmaIht

structure RemotePtr where
  id : Nat
  address : Nat
  deriving DecidableEq, Repr

/-- `remote_nullptr`; allocation starts at address 1. -/
def RemotePtr.null : RemotePtr := ⟨0, 0⟩

/-- `is_local`, for the pool `self`. -/
def RemotePtr.isLocal (self : Nat) (ptr : RemotePtr) : Bool := ptr.id == self

/-- `state_value`: `FALSE_STATE`, `TRUE_STATE` and `REHASH_DELETED`. -/
inductive StateValue where
  | falseState
  | trueState
  | rehashDeleted
  deriving DecidableEq, Repr

structure HtRes (T : Type) where
  status : StateValue
  result : T
  deriving DecidableEq, Repr

/-- `IHT_Op`; the value of a `CONTAINS` or `REMOVE` is never read and is left out. -/
inductive IhtOp (K V : Type) where
  | contains (key : K)
  | insert (key : K) (value : V)
  | remove (key : K)
  deriving DecidableEq, Repr

def IhtOp.key {K V : Type} : IhtOp K V → K
  | .contains key => key
  | .insert key _ => key
  | .remove key => key

def IhtOp.isInsert {K V : Type} : IhtOp K V → Bool
  | .insert _ _ => true
  | .contains _ | .remove _ => false

/-- `pair_t`, a slot of the arrays of both tables. -/
structure Pair (K V : Type) where
  key : K
  val : V
  deriving DecidableEq, Repr

/-- What stops a call from completing: an access to memory that is not there or
is of another type, `int` arithmetic that leaves `int`, a local block handed back
to the pool that was not obtained from it with that size, or a loop that goes on. -/
inductive Fault where
  | badAccess
  | intOverflow
  | badFree
  | outOfFuel
  deriving DecidableEq, Repr

theorem bind_eq_ok {ε A B : Type} {first : Except ε A} {rest : A → Except ε B} {b : B} :
    (first >>= rest) = .ok b ↔ ∃ a, first = .ok a ∧ rest a = .ok b := by
  cases first with
  | error fault => simp [bind, Except.bind]
  | ok a => simp [bind, Except.bind]

end RdmaIht
