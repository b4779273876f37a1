import Mathlib.Logic.Function.Basic
import RdmaIht.Concurrency.Linearizability

/-! The record of a system whose threads carry out operations.

A thread that carries out operation `id` shows `(id, op, answer)`, where `answer` is
what it will return once the operation has taken effect. The rules below follow an
operation from its invocation through the point where it takes effect to its return.
-/

set_option autoImplicit false

namespace Concurrency

variable {σ Op Ret : Type}

structure Record (spec : SeqSpec σ Op Ret) (history : List (Event Nat Op Ret)) (ops : Nat)
    (order : List (Entry Nat Op Ret)) (view : Nat → Option (Nat × Op × Option Ret)) : Prop where
  lin : Linearization spec history order
  started : ∀ {c id op answer}, view c = some (id, op, answer) → Event.inv id op ∈ history
  pending : ∀ {c id op}, view c = some (id, op, none) → id ∉ order.map (·.id)
  answered : ∀ {c id op ret}, view c = some (id, op, some ret) → ⟨id, op, ret⟩ ∈ order
  distinct : ∀ {c c' id op op' answer answer'}, view c = some (id, op, answer) → view c' = some (id, op', answer') → c = c'
  numbered : ∀ {id op}, Event.inv id op ∈ history → id < ops
  once : ∀ {id op op'}, Event.inv id op ∈ history → Event.inv id op' ∈ history → op = op'

namespace Record

variable {spec : SeqSpec σ Op Ret} {history : List (Event Nat Op Ret)} {ops : Nat} {order : List (Entry Nat Op Ret)}
  {view : Nat → Option (Nat × Op × Option Ret)}

theorem start (spec : SeqSpec σ Op Ret) : Record spec [] 0 [] fun _ => none where
  lin := .nil
  started shown := by cases shown
  pending shown := by cases shown
  answered shown := by cases shown
  distinct shown := by cases shown
  numbered member := by cases member
  once member := by cases member

theorem invoke (record : Record spec history ops order view) (c : Nat) (op : Op) :
    Record spec (history ++ [.inv ops op]) (ops + 1) order (Function.update view c (some (ops, op, none))) := by
  have fresh : ¬ Invoked history ops := by
    rintro ⟨op', started⟩
    exact Nat.lt_irrefl _ (record.numbered started)
  -- a thread now shows the new operation or one with another number
  have cases_ : ∀ {c' id' op' answer'}, Function.update view c (some (ops, op, none)) c' = some (id', op', answer') →
      (c' = c ∧ id' = ops ∧ op' = op ∧ answer' = none) ∨ (id' ≠ ops ∧ view c' = some (id', op', answer')) := by
    intro c' id' op' answer' shown
    rw [Function.update_apply] at shown
    split at shown
    · next same => cases shown; exact .inl ⟨same, rfl, rfl, rfl⟩
    · exact .inr ⟨Nat.ne_of_lt (record.numbered (record.started shown)), shown⟩
  refine ⟨record.lin.invoke op fresh, ?_, ?_, ?_, ?_, ?_, ?_⟩
  · intro c' id' op' answer' shown
    rcases cases_ shown with ⟨_, rfl, rfl, _⟩ | ⟨_, shown'⟩
    · simp
    · exact List.mem_append_left _ (record.started shown')
  · intro c' id' op' shown
    rcases cases_ shown with ⟨_, rfl, _, _⟩ | ⟨_, shown'⟩
    · intro member
      obtain ⟨entry, inOrder, same⟩ := List.mem_map.mp member
      exact fresh ⟨entry.op, same ▸ record.lin.invoked entry inOrder⟩
    · exact record.pending shown'
  · intro c' id' op' ret shown
    rcases cases_ shown with ⟨_, _, _, none⟩ | ⟨_, shown'⟩
    · cases none
    · exact record.answered shown'
  · intro c₁ c₂ id' op₁ op₂ answer₁ answer₂ shown₁ shown₂
    rcases cases_ shown₁ with ⟨same₁, id₁, _⟩ | ⟨id₁, shown₁'⟩ <;>
      rcases cases_ shown₂ with ⟨same₂, id₂, _⟩ | ⟨id₂, shown₂'⟩
    · rw [same₁, same₂]
    · exact absurd id₁ id₂
    · exact absurd id₂ id₁
    · exact record.distinct shown₁' shown₂'
  · intro id' op' started
    rcases List.mem_append.mp started with old | new
    · exact Nat.lt_succ_of_lt (record.numbered old)
    · cases List.mem_singleton.mp new
      exact Nat.lt_succ_self _
  · intro id' op₁ op₂ started₁ started₂
    rcases List.mem_append.mp started₁ with old₁ | new₁ <;> rcases List.mem_append.mp started₂ with old₂ | new₂
    · exact record.once old₁ old₂
    · cases List.mem_singleton.mp new₂
      exact absurd ⟨op₁, old₁⟩ fresh
    · cases List.mem_singleton.mp new₁
      exact absurd ⟨op₂, old₂⟩ fresh
    · cases List.mem_singleton.mp new₁
      cases List.mem_singleton.mp new₂
      rfl

theorem settle (record : Record spec history ops order view) {c id : Nat} {op : Op}
    (shown : view c = some (id, op, none)) {answer : Option Ret} {order' : List (Entry Nat Op Ret)}
    (lin : Linearization spec history order')
    (entries : ∀ entry, entry ∈ order' ↔ entry ∈ order ∨ ∃ ret, answer = some ret ∧ entry = ⟨id, op, ret⟩) :
    Record spec history ops order' (Function.update view c (some (id, op, answer))) := by
  -- the operation is shown with its answer; all others are shown as before
  have cases_ : ∀ {c' id' op' answer'}, Function.update view c (some (id, op, answer)) c' = some (id', op', answer') →
      (c' = c ∧ id' = id ∧ op' = op ∧ answer' = answer) ∨ (id' ≠ id ∧ view c' = some (id', op', answer')) := by
    intro c' id' op' answer' shown'
    rw [Function.update_apply] at shown'
    split at shown'
    · next same => cases shown'; exact .inl ⟨same, rfl, rfl, rfl⟩
    · next other =>
      refine .inr ⟨?_, shown'⟩
      rintro rfl
      exact other (record.distinct shown' shown)
  refine ⟨lin, ?_, ?_, ?_, ?_, record.numbered, record.once⟩
  · intro c' id' op' answer' shown'
    rcases cases_ shown' with ⟨_, rfl, rfl, _⟩ | ⟨_, old⟩
    · exact record.started shown
    · exact record.started old
  · intro c' id' op' shown' member
    obtain ⟨entry, inOrder, same⟩ := List.mem_map.mp member
    rcases cases_ shown' with ⟨_, rfl, _, waits⟩ | ⟨other, old⟩
    · rcases (entries entry).mp inOrder with before | ⟨ret, done, _⟩
      · exact record.pending shown (same ▸ List.mem_map_of_mem before)
      · rw [← waits] at done
        cases done
    · rcases (entries entry).mp inOrder with before | ⟨ret, _, rfl⟩
      · exact record.pending old (same ▸ List.mem_map_of_mem before)
      · exact other same.symm
  · intro c' id' op' ret shown'
    rcases cases_ shown' with ⟨_, rfl, rfl, done⟩ | ⟨_, old⟩
    · exact (entries _).mpr (.inr ⟨ret, done.symm, rfl⟩)
    · exact (entries _).mpr (.inl (record.answered old))
  · intro c₁ c₂ id' op₁ op₂ answer₁ answer₂ shown₁ shown₂
    rcases cases_ shown₁ with ⟨same₁, id₁, _⟩ | ⟨id₁, old₁⟩ <;>
      rcases cases_ shown₂ with ⟨same₂, id₂, _⟩ | ⟨id₂, old₂⟩
    · rw [same₁, same₂]
    · exact absurd id₁ id₂
    · exact absurd id₂ id₁
    · exact record.distinct old₁ old₂

theorem commit (record : Record spec history ops order view) {c id : Nat} {op : Op}
    (shown : view c = some (id, op, none)) :
    Record spec history ops (order ++ [⟨id, op, (spec.apply (spec.final spec.init order) op).2⟩])
      (Function.update view c (some (id, op, some (spec.apply (spec.final spec.init order) op).2))) := by
  refine record.settle shown (record.lin.commit (record.started shown) (record.pending shown)) fun entry => ?_
  simp [eq_comm]

theorem respond (record : Record spec history ops order view) {c id : Nat} {op : Op} {ret : Ret}
    (shown : view c = some (id, op, some ret)) :
    Record spec (history ++ [.res id ret]) ops order (Function.update view c none) := by
  have old : ∀ {c' id' op' answer'}, Function.update view c none c' = some (id', op', answer') →
      view c' = some (id', op', answer') := by
    intro c' id' op' answer' shown'
    rw [Function.update_apply] at shown'
    split at shown'
    · cases shown'
    · exact shown'
  refine ⟨record.lin.respond (record.answered shown), ?_, ?_, ?_, ?_, ?_, ?_⟩
  · intro c' id' op' answer' shown'
    exact List.mem_append_left _ (record.started (old shown'))
  · exact fun shown' => record.pending (old shown')
  · exact fun shown' => record.answered (old shown')
  · exact fun shown₁ shown₂ => record.distinct (old shown₁) (old shown₂)
  · exact fun started => record.numbered (by simpa using started)
  · exact fun started₁ started₂ => record.once (by simpa using started₁) (by simpa using started₂)

end Record

end Concurrency
