import Mathlib.Logic.Function.Basic
import RdmaIht.Common
import RdmaIht.Concurrency.Linearizability

/-! The finite map that the data structures stand for.

`mapSpec` is the sequential object a client sees: every operation answers with a
status and a value, `zero` where the source returns the literal 0.
-/

set_option autoImplicit false

namespace RdmaIht

variable {K V : Type} [DecidableEq K]

abbrev FiniteMap (K V : Type) := K → Option V

def FiniteMap.empty : FiniteMap K V := fun _ => none

def FiniteMap.apply (zero : V) (m : FiniteMap K V) : IhtOp K V → FiniteMap K V × HtRes V
  | .contains key =>
    match m key with
    | some value => (m, ⟨.trueState, value⟩)
    | none => (m, ⟨.falseState, zero⟩)
  | .insert key value =>
    match m key with
    | some old => (m, ⟨.falseState, old⟩)
    | none => (Function.update m key (some value), ⟨.trueState, zero⟩)
  | .remove key =>
    match m key with
    | some old => (Function.update m key none, ⟨.trueState, old⟩)
    | none => (m, ⟨.falseState, zero⟩)

def mapSpec (K : Type) {V : Type} [DecidableEq K] (zero : V) :
    Concurrency.SeqSpec (FiniteMap K V) (IhtOp K V) (HtRes V) where
  init := FiniteMap.empty
  apply := FiniteMap.apply zero

theorem FiniteMap.apply_of_ne (zero : V) (m : FiniteMap K V) (op : IhtOp K V) {key : K}
    (other : key ≠ op.key) : (m.apply zero op).1 key = m key := by
  cases op with
  | contains k => cases found : m k <;> simp [apply, found]
  | insert k v => cases found : m k <;> simp_all [apply, IhtOp.key]
  | remove k => cases found : m k <;> simp_all [apply, IhtOp.key]

theorem FiniteMap.apply_congr (zero : V) {m n : FiniteMap K V} {op : IhtOp K V}
    (same : m op.key = n op.key) :
    (m.apply zero op).2 = (n.apply zero op).2 ∧ (m.apply zero op).1 op.key = (n.apply zero op).1 op.key := by
  cases op with
  | contains k => cases found : n k <;> simp_all [apply, IhtOp.key]
  | insert k v => cases found : n k <;> simp_all [apply, IhtOp.key]
  | remove k => cases found : n k <;> simp_all [apply, IhtOp.key]

theorem FiniteMap.apply_absent (zero : V) {m : FiniteMap K V} {op : IhtOp K V}
    (absent : m op.key = none) (reads : ∀ k v, op ≠ .insert k v) :
    m.apply zero op = (m, ⟨.falseState, zero⟩) := by
  cases op with
  | contains k => simp_all [apply, IhtOp.key]
  | insert k v => exact absurd rfl (reads k v)
  | remove k => simp_all [apply, IhtOp.key]

theorem FiniteMap.apply_bound (zero : V) {m : FiniteMap K V} {op : IhtOp K V} {key : K} {value : V}
    (bound : m key = some value) (keeps : op ≠ .remove key) : (m.apply zero op).1 key = some value := by
  by_cases same : key = op.key
  · subst same
    cases op with
    | contains k => simp_all [apply, IhtOp.key]
    | insert k v => simp_all [apply, IhtOp.key]
    | remove k => exact absurd rfl keeps
  · rw [m.apply_of_ne zero op same, bound]

section Histories

open Concurrency

variable {ι : Type} {zero : V}

variable (zero) in
theorem mapSpec_final_bound {key : K} {value : V} (order : List (Entry ι (IhtOp K V) (HtRes V)))
    {m : FiniteMap K V} (bound : m key = some value) (keeps : ∀ entry ∈ order, entry.op ≠ .remove key) :
    (mapSpec K zero).final m order key = some value := by
  induction order generalizing m with
  | nil => exact bound
  | cons entry order ih =>
    exact ih (FiniteMap.apply_bound zero bound (keeps entry (by simp))) fun other member =>
      keeps other (List.mem_cons_of_mem _ member)

/-- No insert that reported success is lost: an operation that starts afterwards finds
the key with its value, unless a remove of the key comes in between. -/
def InsertsKept (history : List (Event ι (IhtOp K V) (HtRes V))) : Prop :=
  ∀ i j key value op zero res, .inv i (.insert key value) ∈ history → .res i ⟨.trueState, zero⟩ ∈ history →
    .inv j op ∈ history → .res j res ∈ history → Precedes history i j →
    (∀ r, .inv r (.remove key) ∈ history → Precedes history r i ∨ Precedes history j r) →
    (op = .contains key → res = ⟨.trueState, value⟩) ∧
      ∀ other, op = .insert key other → res = ⟨.falseState, value⟩

theorem insertsKept_of_linearizable {history : List (Event ι (IhtOp K V) (HtRes V))}
    (once : ∀ i op op', .inv i op ∈ history → .inv i op' ∈ history → op = op')
    (linearizable : Linearizable (mapSpec K zero) history) : InsertsKept history := by
  obtain ⟨order, lin⟩ := linearizable
  intro i j key value op zero' res started done started' done' before apart
  obtain ⟨first, inFirst, rfl, answer⟩ := lin.completed i _ done
  obtain ⟨second, inSecond, rfl, answer'⟩ := lin.completed j _ done'
  have isInsert := once _ _ _ (lin.invoked first inFirst) started
  have isOp := once _ _ _ (lin.invoked second inSecond) started'
  obtain ⟨earlier, middle, later, rfl, quiet⟩ := lin.between inFirst inSecond before
  have legal := (mapSpec K zero).legal_append _ _ _ |>.mp lin.legal
  obtain ⟨inserted, rest⟩ := legal.2
  obtain ⟨found, _⟩ := ((mapSpec K zero).legal_append _ _ _ |>.mp rest).2
  rw [isInsert, answer] at inserted
  rw [isOp, answer'] at found
  rw [isInsert] at found
  -- the insert answered TRUE, so it bound the key, and nothing between the two unbinds it
  have bound : ((mapSpec K zero).apply ((mapSpec K zero).final (mapSpec K zero).init earlier)
      (.insert key value)).1 key = some value := by
    simp only [mapSpec, FiniteMap.apply] at inserted ⊢
    split at inserted
    · cases inserted
    · simp
  have still := mapSpec_final_bound zero middle bound fun entry member isRemove => by
    have placed : Event.inv entry.id (.remove key) ∈ history :=
      isRemove ▸ lin.invoked entry (by simp [member])
    rcases apart _ placed with ahead | behind
    · exact (quiet entry member).1 ahead
    · exact (quiet entry member).2 behind
  constructor
  · rintro rfl
    rw [← found]
    simp [mapSpec, FiniteMap.apply] at still ⊢
    simp [still]
  · rintro other rfl
    rw [← found]
    simp [mapSpec, FiniteMap.apply] at still ⊢
    simp [still]

end Histories

end RdmaIht
