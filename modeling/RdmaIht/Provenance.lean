import RdmaIht.Common
import RdmaIht.Concurrency.Calls

/-! Where the values come from that the operations of a map tell.

`contains` and `remove` tell a value when they succeed and `insert` when it fails. The
map is not supposed to be linearizable: what is told comes from an insert that was
not refused, even where updates are lost.
-/

set_option autoImplicit false

namespace RdmaIht

open Concurrency

variable {K V : Type}

/-- The operation answers with a value it has found at its key. -/
def Tells : IhtOp K V → HtRes V → Prop
  | .contains _, res | .remove _, res => res.status = .trueState
  | .insert _ _, res => res.status = .falseState

/-- Every value that is told is one of an earlier insert of the key, and this insert is
never told that there is a value already. -/
def Sourced (convert : V → V) (history : List (Event Nat (IhtOp K V) (HtRes V))) : Prop :=
  ∀ earlier i op res later, history = earlier ++ .res i res :: later → .inv i op ∈ history → Tells op res →
    ∃ j value, Event.inv j (.insert op.key value) ∈ earlier ∧ res.result = convert value ∧
      ∀ answer, Event.res j answer ∈ history → answer.status = .trueState

def Succeeded (res : HtRes V) : Prop := res.status = .trueState

theorem concat_eq_append_cons {A : Type} {l earlier later : List A} {last a : A}
    (split : l ++ [last] = earlier ++ a :: later) :
    (l = earlier ∧ last = a) ∨ ∃ later', l = earlier ++ a :: later' := by
  rcases List.eq_nil_or_concat' later with rfl | ⟨later', b, rfl⟩
  · obtain ⟨rfl, same⟩ := List.append_inj' split rfl
    cases same
    exact .inl ⟨rfl, rfl⟩
  · rw [← List.cons_append, ← List.append_assoc] at split
    exact .inr ⟨later', (List.append_inj' split rfl).1⟩

section Sources

variable {convert : V → V} {history : List (Event Nat (IhtOp K V) (HtRes V))} {ops : Nat}
  {view : Nat → Option (Nat × IhtOp K V × Bool)} {c id : Nat} {op : IhtOp K V} {effective : Bool}

def Stored (history : List (Event Nat (IhtOp K V) (HtRes V))) (view : Nat → Option (Nat × IhtOp K V × Bool))
    (pair : Pair K V) : Prop :=
  ∃ j, Event.inv j (.insert pair.key pair.val) ∈ history ∧ Effective Succeeded history view j

/-- What an answer tells is the value of a stored pair of the key. -/
def ToldFrom (convert : V → V) (stored : Pair K V → Prop) (op : IhtOp K V) (res : HtRes V) : Prop :=
  Tells op res → ∃ pair, stored pair ∧ pair.key = op.key ∧ res.result = convert pair.val

theorem ToldFrom.mono {ok ok' : Pair K V → Prop} (imp : ∀ pair, ok pair → ok' pair) {res : HtRes V}
    (told : ToldFrom convert ok op res) : ToldFrom convert ok' op res :=
  fun tells => (told tells).imp fun pair from_ => ⟨imp pair from_.1, from_.2⟩

structure Sources (convert : V → V) (history : List (Event Nat (IhtOp K V) (HtRes V))) (ops : Nat)
    (view : Nat → Option (Nat × IhtOp K V × Bool)) : Prop where
  calls : Calls history ops view
  told : ∀ earlier i op res later, history = earlier ++ .res i res :: later → .inv i op ∈ history → Tells op res →
    ∃ j value, Event.inv j (.insert op.key value) ∈ earlier ∧ res.result = convert value ∧
      Effective Succeeded history view j

theorem Sources.start : Sources (K := K) convert [] 0 fun _ => none where
  calls := .start
  told earlier i op res later split := by simp at split

theorem Sources.invoke (sources : Sources convert history ops view) (idle : view c = none) (op : IhtOp K V) :
    Sources convert (history ++ [.inv ops op]) (ops + 1) (Function.update view c (some (ops, op, false))) where
  calls := sources.calls.invoke c op
  told earlier i op' res later split invoked tells := by
    rcases concat_eq_append_cons split with ⟨_, ends⟩ | ⟨later', before⟩
    · cases ends
    · have made : Event.inv i op' ∈ history := by
        rcases List.mem_append.mp invoked with old | new
        · exact old
        · cases List.mem_singleton.mp new
          exact absurd (sources.calls.answered ⟨res, by simp [before]⟩) sources.calls.fresh
      obtain ⟨j, value, inserted, same, took⟩ := sources.told earlier i op' res later' before made tells
      exact ⟨j, value, inserted, same, took.invoke idle ops op⟩

theorem Sources.proceed (sources : Sources convert history ops view) (shown : view c = some (id, op, effective))
    {effective' : Bool} (stays : effective = true → effective' = true) :
    Sources convert history ops (Function.update view c (some (id, op, effective'))) where
  calls := sources.calls.proceed shown effective'
  told earlier i op' res later split invoked tells := by
    obtain ⟨j, value, inserted, same, took⟩ := sources.told earlier i op' res later split invoked tells
    exact ⟨j, value, inserted, same, took.proceed shown stays⟩

theorem Sources.respond (sources : Sources convert history ops view) (shown : view c = some (id, op, effective))
    {res : HtRes V} (keeps : effective = true → Succeeded res)
    (answer : ToldFrom convert (Stored history view) op res) :
    Sources convert (history ++ [.res id res]) ops (Function.update view c none) where
  calls := sources.calls.respond shown res
  told earlier i op' res' later split invoked tells := by
    have made : Event.inv i op' ∈ history := by simpa using invoked
    rcases concat_eq_append_cons split with ⟨rfl, same⟩ | ⟨later', before⟩
    · cases same
      -- the new answer is that of the call of the thread
      cases sources.calls.once made (sources.calls.started shown)
      obtain ⟨pair, ⟨j, inserted, took⟩, key, result⟩ := answer tells
      exact ⟨j, pair.val, key ▸ inserted, result, took.respond shown keeps⟩
    · obtain ⟨j, value, inserted, same, took⟩ := sources.told earlier i op' res' later' before made tells
      exact ⟨j, value, inserted, same, took.respond shown keeps⟩

theorem Sources.sourced (sources : Sources convert history ops view) : Sourced convert history := by
  intro earlier i op res later split invoked tells
  obtain ⟨j, value, inserted, same, took⟩ := sources.told earlier i op res later split invoked tells
  exact ⟨j, value, inserted, same, fun answer answered => sources.calls.answer_kept took answered⟩

theorem Stored.invoke {pair : Pair K V} (stored : Stored history view pair) (idle : view c = none) (n : Nat)
    (op : IhtOp K V) : Stored (history ++ [.inv n op]) (Function.update view c (some (n, op, false))) pair := by
  obtain ⟨j, inserted, took⟩ := stored
  exact ⟨j, List.mem_append_left _ inserted, took.invoke idle n op⟩

theorem Stored.proceed {pair : Pair K V} (stored : Stored history view pair) (shown : view c = some (id, op, effective))
    {effective' : Bool} (stays : effective = true → effective' = true) :
    Stored history (Function.update view c (some (id, op, effective'))) pair := by
  obtain ⟨j, inserted, took⟩ := stored
  exact ⟨j, inserted, took.proceed shown stays⟩

theorem Stored.respond {pair : Pair K V} (stored : Stored history view pair) (shown : view c = some (id, op, effective))
    {res : HtRes V} (keeps : effective = true → Succeeded res) :
    Stored (history ++ [.res id res]) (Function.update view c none) pair := by
  obtain ⟨j, inserted, took⟩ := stored
  exact ⟨j, List.mem_append_left _ inserted, took.respond shown keeps⟩

theorem Sources.stores (sources : Sources convert history ops view) {key : K} {value : V}
    (shown : view c = some (id, .insert key value, effective)) :
    Stored history (Function.update view c (some (id, .insert key value, true))) ⟨key, value⟩ :=
  ⟨id, sources.calls.started shown, .inl ⟨c, _, update_eq_some.mpr (.inl ⟨rfl, rfl⟩)⟩⟩

end Sources

end RdmaIht
