import Mathlib.Data.Finset.Card
import Mathlib.Data.Finset.Filter

/-! The trie of a set of keys.

A key goes to slot `index key d` of the node at depth `d`, which has `size d` slots.
A slot holds the keys that go to it, up to `capacity` of them, and a node if there
are more. The root is a node whatever the keys are. Nothing here depends on an order
of the keys.
-/

set_option autoImplicit false

namespace Trie

variable {K : Type}

inductive Slot (K : Type) where
  | empty
  | leaf (keys : Finset K)
  | node
  deriving DecidableEq

/-- A key takes the way along `path`, from a node at depth `d`. -/
def Along (index : K → Nat → Nat) (key : K) : Nat → List Nat → Prop
  | _, [] => True
  | d, b :: path => index key d = b ∧ Along index key (d + 1) path

instance Along.decidable (index : K → Nat → Nat) (key : K) : (d : Nat) → (path : List Nat) → Decidable (Along index key d path)
  | _, [] => inferInstanceAs (Decidable True)
  | d, _ :: path => @instDecidableAnd _ _ _ (Along.decidable index key (d + 1) path)

variable (index : K → Nat → Nat) (size : Nat → Nat) (capacity : Nat)

def slot (keys : Finset K) : Slot K :=
  if keys.card = 0 then .empty else if keys.card ≤ capacity then .leaf keys else .node

def branch (keys : Finset K) (d b : Nat) : Finset K := keys.filter fun k => index k d = b

/-- The slot at a path that starts in a slot with these keys; a node in it has depth `d`. -/
def slotAt (keys : Finset K) (d : Nat) : List Nat → Option (Slot K)
  | [] => some (slot capacity keys)
  | b :: path => if capacity < keys.card ∧ b < size d then slotAt (branch index keys d b) (d + 1) path else none

def rootAt (keys : Finset K) : List Nat → Option (Slot K)
  | [] => some .node
  | b :: path => if b < size 1 then slotAt index size capacity (branch index keys 1 b) 2 path else none

variable {index size capacity} {keys : Finset K} {d b : Nat}

theorem slot_eq_node : slot capacity keys = .node ↔ capacity < keys.card := by
  unfold slot
  split
  · simp; omega
  · split <;> simp <;> omega

theorem filter_branch (path : List Nat) : (branch index keys d b).filter (fun k => Along index k (d + 1) path) =
    keys.filter fun k => Along index k d (b :: path) := by
  rw [branch, Finset.filter_filter]
  rfl

variable [DecidableEq K]

/-- A slot is there if and only if it lies in a node, and the keys that take the way to it say what it holds. -/
theorem slotAt_concat (path : List Nat) : slotAt index size capacity keys d (path ++ [b]) =
    if slotAt index size capacity keys d path = some .node ∧ b < size (d + path.length) then
      some (slot capacity (keys.filter fun k => Along index k d (path ++ [b])))
    else none := by
  induction path generalizing keys d with
  | nil => simp [slotAt, slot_eq_node, branch, Along]
  | cons c path ih =>
    simp only [List.cons_append, slotAt]
    split
    · rw [ih, filter_branch, List.length_cons, Nat.add_right_comm, Nat.add_assoc]
    · simp

theorem rootAt_concat (path : List Nat) : rootAt index size capacity keys (path ++ [b]) =
    if rootAt index size capacity keys path = some .node ∧ b < size (path.length + 1) then
      some (slot capacity (keys.filter fun k => Along index k 1 (path ++ [b])))
    else none := by
  cases path with
  | nil => simp [rootAt, slotAt, branch, Along]
  | cons c path =>
    simp only [List.cons_append, rootAt]
    split
    · rw [slotAt_concat, filter_branch, List.length_cons, Nat.add_comm 2, Nat.add_assoc]
    · simp

end Trie
