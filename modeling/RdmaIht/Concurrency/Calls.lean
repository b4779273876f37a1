import Mathlib.Logic.Function.Basic
import RdmaIht.Concurrency.Linearizability

/-! The calls of a history, and those of them that have taken effect.

A thread that carries out call `id` shows `(id, op, effective)`. Once a call is
effective it can only return an answer that says so. No order of the effects and no
specification is supposed: the rules hold of systems that lose updates, too.
-/

set_option autoImplicit false

namespace Concurrency

variable {Op Ret : Type}

/-- The threads show calls of the history that wait for their answers. -/
structure Calls (history : List (Event Nat Op Ret)) (ops : Nat) (view : Nat → Option (Nat × Op × Bool)) : Prop where
  started : ∀ {c id op effective}, view c = some (id, op, effective) → Event.inv id op ∈ history
  waiting : ∀ {c id op effective}, view c = some (id, op, effective) → ¬ Responded history id
  distinct : ∀ {c c' id op op' effective effective'}, view c = some (id, op, effective) →
    view c' = some (id, op', effective') → c = c'
  numbered : ∀ {id}, Invoked history id → id < ops
  once : ∀ {id op op'}, Event.inv id op ∈ history → Event.inv id op' ∈ history → op = op'
  answered : ∀ {id}, Responded history id → Invoked history id
  single : ∀ {id ret ret'}, Event.res id ret ∈ history → Event.res id ret' ∈ history → ret = ret'

def Effective (kept : Ret → Prop) (history : List (Event Nat Op Ret)) (view : Nat → Option (Nat × Op × Bool))
    (id : Nat) : Prop :=
  (∃ c op, view c = some (id, op, true)) ∨ ∃ ret, Event.res id ret ∈ history ∧ kept ret

theorem update_eq_some {View : Type} {view : Nat → Option View} {c c' : Nat} {new : Option View} {shown : View} :
    Function.update view c new c' = some shown ↔ (c' = c ∧ new = some shown) ∨ (c' ≠ c ∧ view c' = some shown) := by
  rw [Function.update_apply]
  split
  · next same => simp [same]
  · next other => simp [other]

section Rules

variable {history : List (Event Nat Op Ret)} {ops : Nat} {view : Nat → Option (Nat × Op × Bool)}
  {kept : Ret → Prop} {c id : Nat} {op : Op} {effective : Bool}

theorem Calls.start : Calls ([] : List (Event Nat Op Ret)) 0 fun _ => none where
  started shown := by cases shown
  waiting shown := by cases shown
  distinct shown := by cases shown
  numbered invoked := by
    obtain ⟨_, member⟩ := invoked
    cases member
  once member := by cases member
  answered responded := by
    obtain ⟨_, member⟩ := responded
    cases member
  single member := by cases member

theorem Calls.fresh (calls : Calls history ops view) : ¬ Invoked history ops :=
  fun invoked => Nat.lt_irrefl _ (calls.numbered invoked)

theorem Calls.invoke (calls : Calls history ops view) (c : Nat) (op : Op) :
    Calls (history ++ [.inv ops op]) (ops + 1) (Function.update view c (some (ops, op, false))) where
  started shown := by
    rcases update_eq_some.mp shown with ⟨_, same⟩ | ⟨_, old⟩
    · cases same
      simp
    · exact List.mem_append_left _ (calls.started old)
  waiting shown := by
    rintro ⟨ret, responded⟩
    have before : Responded history _ := ⟨ret, by simpa using responded⟩
    rcases update_eq_some.mp shown with ⟨_, same⟩ | ⟨_, old⟩
    · cases same
      exact calls.fresh (calls.answered before)
    · exact calls.waiting old before
  distinct shown shown' := by
    rcases update_eq_some.mp shown with ⟨here, same⟩ | ⟨_, old⟩ <;>
      rcases update_eq_some.mp shown' with ⟨here', same'⟩ | ⟨_, old'⟩
    · rw [here, here']
    · cases same
      exact absurd ⟨_, calls.started old'⟩ calls.fresh
    · cases same'
      exact absurd ⟨_, calls.started old⟩ calls.fresh
    · exact calls.distinct old old'
  numbered invoked := by
    obtain ⟨op', member⟩ := invoked
    rcases List.mem_append.mp member with old | new
    · exact Nat.lt_succ_of_lt (calls.numbered ⟨op', old⟩)
    · cases List.mem_singleton.mp new
      exact Nat.lt_succ_self _
  once first second := by
    rcases List.mem_append.mp first with old | new <;> rcases List.mem_append.mp second with old' | new'
    · exact calls.once old old'
    · cases List.mem_singleton.mp new'
      exact absurd ⟨_, old⟩ calls.fresh
    · cases List.mem_singleton.mp new
      exact absurd ⟨_, old'⟩ calls.fresh
    · cases List.mem_singleton.mp new
      cases List.mem_singleton.mp new'
      rfl
  answered responded := by
    obtain ⟨ret, member⟩ := responded
    obtain ⟨op', invoked⟩ := calls.answered ⟨ret, by simpa using member⟩
    exact ⟨op', List.mem_append_left _ invoked⟩
  single first second := calls.single (by simpa using first) (by simpa using second)

theorem Calls.proceed (calls : Calls history ops view) (shown : view c = some (id, op, effective)) (effective' : Bool) :
    Calls history ops (Function.update view c (some (id, op, effective'))) := by
  have old : ∀ {c' id' op' eff}, Function.update view c (some (id, op, effective')) c' = some (id', op', eff) →
      ∃ eff', view c' = some (id', op', eff') := by
    intro c' id' op' eff now
    rcases update_eq_some.mp now with ⟨rfl, same⟩ | ⟨_, before⟩
    · cases same
      exact ⟨_, shown⟩
    · exact ⟨_, before⟩
  refine { calls with
    started := fun now => ?_
    waiting := fun now => ?_
    distinct := fun now now' => ?_ }
  · obtain ⟨_, before⟩ := old now
    exact calls.started before
  · obtain ⟨_, before⟩ := old now
    exact calls.waiting before
  · obtain ⟨_, before⟩ := old now
    obtain ⟨_, before'⟩ := old now'
    exact calls.distinct before before'

theorem Calls.respond (calls : Calls history ops view) (shown : view c = some (id, op, effective)) (ret : Ret) :
    Calls (history ++ [.res id ret]) ops (Function.update view c none) := by
  have old : ∀ {c' shown'}, Function.update view c none c' = some shown' → c' ≠ c ∧ view c' = some shown' := by
    intro c' shown' now
    rcases update_eq_some.mp now with ⟨_, none⟩ | before
    · cases none
    · exact before
  refine {
    started := fun now => List.mem_append_left _ (calls.started (old now).2)
    waiting := fun now => ?_
    distinct := fun now now' => calls.distinct (old now).2 (old now').2
    numbered := fun invoked => calls.numbered (invoked.imp fun _ member => by simpa using member)
    once := fun first second => calls.once (by simpa using first) (by simpa using second)
    answered := ?_
    single := ?_ }
  · rintro ⟨ret', member⟩
    rcases List.mem_append.mp member with before | new
    · exact calls.waiting (old now).2 ⟨ret', before⟩
    · cases List.mem_singleton.mp new
      exact (old now).1 (calls.distinct (old now).2 shown)
  · rintro id' ⟨ret', member⟩
    rcases List.mem_append.mp member with before | new
    · exact (calls.answered ⟨ret', before⟩).imp fun _ => List.mem_append_left _
    · cases List.mem_singleton.mp new
      exact ⟨op, List.mem_append_left _ (calls.started shown)⟩
  · intro id' first second one two
    rcases List.mem_append.mp one with before | new <;> rcases List.mem_append.mp two with before' | new'
    · exact calls.single before before'
    · cases List.mem_singleton.mp new'
      exact absurd ⟨_, before⟩ (calls.waiting shown)
    · cases List.mem_singleton.mp new
      exact absurd ⟨_, before'⟩ (calls.waiting shown)
    · cases List.mem_singleton.mp new
      cases List.mem_singleton.mp new'
      rfl

theorem Calls.answer_kept (calls : Calls history ops view) (took : Effective kept history view id) {ret : Ret}
    (answered : Event.res id ret ∈ history) : kept ret := by
  rcases took with ⟨c, op, shown⟩ | ⟨ret', member, keeps⟩
  · exact absurd ⟨ret, answered⟩ (calls.waiting shown)
  · exact calls.single member answered ▸ keeps

theorem Effective.invoke {id' : Nat} (took : Effective kept history view id') (idle : view c = none) (n : Nat) (op : Op) :
    Effective kept (history ++ [.inv n op]) (Function.update view c (some (n, op, false))) id' := by
  rcases took with ⟨c', op', shown⟩ | ⟨ret, member, keeps⟩
  · refine .inl ⟨c', op', update_eq_some.mpr (.inr ⟨?_, shown⟩)⟩
    rintro rfl
    rw [idle] at shown
    cases shown
  · exact .inr ⟨ret, List.mem_append_left _ member, keeps⟩

theorem Effective.proceed {id' : Nat} (took : Effective kept history view id')
    (shown : view c = some (id, op, effective)) {effective' : Bool} (stays : effective = true → effective' = true) :
    Effective kept history (Function.update view c (some (id, op, effective'))) id' := by
  refine took.imp_left ?_
  rintro ⟨c', op', shown'⟩
  by_cases same : c' = c
  · subst same
    cases shown.symm.trans shown'
    exact ⟨c', op, update_eq_some.mpr (.inl ⟨rfl, by rw [stays rfl]⟩)⟩
  · exact ⟨c', op', update_eq_some.mpr (.inr ⟨same, shown'⟩)⟩

theorem Effective.respond {id' : Nat} (took : Effective kept history view id')
    (shown : view c = some (id, op, effective)) {ret : Ret} (keeps : effective = true → kept ret) :
    Effective kept (history ++ [.res id ret]) (Function.update view c none) id' := by
  rcases took with ⟨c', op', shown'⟩ | ⟨ret', member, keeps'⟩
  · by_cases same : c' = c
    · subst same
      cases shown.symm.trans shown'
      exact .inr ⟨ret, by simp, keeps rfl⟩
    · exact .inl ⟨c', op', update_eq_some.mpr (.inr ⟨same, shown'⟩)⟩
  · exact .inr ⟨ret', List.mem_append_left _ member, keeps'⟩

end Rules

end Concurrency
