import Mathlib.Algebra.BigOperators.Group.Finset.Basic
import Mathlib.Algebra.Order.BigOperators.Group.Finset
import RdmaIht.Concurrency.Runs

/-! Transition functions whose runs are all finite.

A measure that each step lowers bounds the length of a run. From every state a run
then leads to one in which no step is enabled, so that what holds of all such ends
is what every run comes to.
-/

set_option autoImplicit false

namespace Concurrency

variable {State Action : Type} {exec : State → Action → Option State}

def Stuck (exec : State → Action → Option State) (s : State) : Prop := ∀ action, exec s action = none

/-- From a state with `P`, each step keeps `P` and lowers the measure. -/
structure Lowers (exec : State → Action → Option State) (P : State → Prop) (measure : State → Nat) : Prop where
  keep : ∀ s action t, P s → exec s action = some t → P t
  lower : ∀ s action t, P s → exec s action = some t → measure t < measure s

namespace Lowers

variable {P : State → Prop} {measure : State → Nat}

theorem reachable (lowers : Lowers exec P measure) {s t : State} (start : P s) (run : Reachable exec s t) : P t :=
  run.invariant start fun u action v before _ enabled => lowers.keep u action v before enabled

/-- A run has at most as many steps as the measure of its start. -/
theorem length_le (lowers : Lowers exec P measure) {s t : State} (schedule : List Action) (start : P s)
    (ran : runAll exec s schedule = some t) : schedule.length + measure t ≤ measure s := by
  induction schedule generalizing s with
  | nil =>
    cases ran
    exact Nat.le_of_eq (Nat.zero_add _)
  | cons action rest ih =>
    obtain ⟨next, enabled, tail⟩ := Option.bind_eq_some_iff.mp ran
    have after := ih (lowers.keep s action next start enabled) tail
    have less := lowers.lower s action next start enabled
    rw [List.length_cons]
    omega

theorem exists_stuck (lowers : Lowers exec P measure) {s : State} (start : P s) :
    ∃ t, Reachable exec s t ∧ Stuck exec t := by
  induction bound : measure s using Nat.strongRecOn generalizing s with
  | ind n ih =>
    by_cases stuck : Stuck exec s
    · exact ⟨s, .refl s, stuck⟩
    · obtain ⟨action, enabled⟩ := Classical.not_forall.mp stuck
      obtain ⟨next, enabled⟩ := Option.ne_none_iff_exists'.mp enabled
      obtain ⟨t, run, stuck⟩ := ih (measure next) (bound ▸ lowers.lower s action next start enabled)
        (lowers.keep s action next start enabled) rfl
      exact ⟨t, (Steps.one enabled).trans run, stuck⟩

end Lowers

/-- What each party can be brought to without undoing what the others have come to, all can be brought to. -/
theorem Steps.each {ok : State → Action → Prop} {P : State → Prop} {Q : Nat → State → Prop}
    (turn : ∀ s c, P s → ∃ s', Steps exec ok s s' ∧ P s' ∧ Q c s' ∧ ∀ c', Q c' s → Q c' s') (n : Nat) {s : State}
    (start : P s) : ∃ s', Steps exec ok s s' ∧ P s' ∧ ∀ c < n, Q c s' := by
  induction n with
  | zero => exact ⟨s, .refl s, start, fun c none => absurd none (Nat.not_lt_zero c)⟩
  | succ n ih =>
    obtain ⟨u, run, there, before⟩ := ih
    obtain ⟨s', further, here, last, keeps⟩ := turn u n there
    refine ⟨s', run.trans further, here, fun c bound => ?_⟩
    rcases Nat.lt_succ_iff_lt_or_eq.mp bound with less | rfl
    · exact keeps c (before c less)
    · exact last

theorem sum_update_lt {ι β : Type} [DecidableEq ι] (weight : ι → β → Nat) {parties : Finset ι} {f : ι → β} {i : ι}
    {value : β} (member : i ∈ parties) (less : weight i value < weight i (f i)) :
    ∑ j ∈ parties, weight j (Function.update f i value j) < ∑ j ∈ parties, weight j (f j) := by
  refine Finset.sum_lt_sum (fun j _ => ?_) ⟨i, member, ?_⟩
  · by_cases same : j = i
    · subst same
      rw [Function.update_self]
      exact Nat.le_of_lt less
    · rw [Function.update_of_ne same]
  · rw [Function.update_self]
    exact less

end Concurrency
