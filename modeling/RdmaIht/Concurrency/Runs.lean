import Mathlib.Logic.Relation

/-! Runs of a transition function given as `exec state action`.

A step is enabled when `exec` returns a state. Runs carry a side condition on
each step, so that a property can be stated of the runs all of whose steps meet
it; `Reachable` is the case with no condition.
-/

set_option autoImplicit false

namespace Concurrency

variable {State Action : Type}

/-- `t` is reached from `s` by enabled steps that each meet `ok` in their own pre-state. -/
inductive Steps (exec : State → Action → Option State) (ok : State → Action → Prop) :
    State → State → Prop where
  | refl (s : State) : Steps exec ok s s
  | step {s t u : State} (action : Action) :
      Steps exec ok s t → ok t action → exec t action = some u → Steps exec ok s u

abbrev Reachable (exec : State → Action → Option State) : State → State → Prop :=
  Steps exec fun _ _ => True

variable {exec : State → Action → Option State} {ok : State → Action → Prop}

theorem Steps.invariant {P : State → Prop} {s t : State} (steps : Steps exec ok s t) (start : P s)
    (keep : ∀ t action u, P t → ok t action → exec t action = some u → P u) : P t := by
  induction steps with
  | refl => exact start
  | step action _ allowed enabled ih => exact keep _ action _ ih allowed enabled

theorem Steps.trans {s t u : State} (first : Steps exec ok s t) (rest : Steps exec ok t u) :
    Steps exec ok s u := by
  induction rest with
  | refl => exact first
  | step action _ allowed enabled ih => exact .step action ih allowed enabled

theorem Steps.one {s t : State} {action : Action} (enabled : exec s action = some t) : Reachable exec s t :=
  .step action (.refl s) trivial enabled

theorem Steps.weaken {other : State → Action → Prop} {s t : State} (steps : Steps exec ok s t)
    (imp : ∀ t action, ok t action → other t action) : Steps exec other s t := by
  induction steps with
  | refl => exact .refl _
  | step action _ allowed enabled ih => exact .step action ih (imp _ _ allowed) enabled

theorem Steps.imp {P : State → Prop} {other : State → Action → Prop} {s t : State} (steps : Steps exec ok s t) (start : P s)
    (keep : ∀ t action u, P t → ok t action → exec t action = some u → P u ∧ other t action) : Steps exec other s t := by
  have both : P t ∧ Steps exec other s t := by
    induction steps with
    | refl => exact ⟨start, .refl _⟩
    | step action _ allowed enabled ih =>
      obtain ⟨kept, allowed'⟩ := keep _ action _ ih.1 allowed enabled
      exact ⟨kept, .step action ih.2 allowed' enabled⟩
  exact both.2

theorem Steps.reachable {s t : State} (steps : Steps exec ok s t) : Reachable exec s t :=
  steps.weaken fun _ _ _ => trivial

/-- A run is one of another system if each of its steps is a run there. -/
theorem Steps.simulate {State' Action' : Type} {exec' : State' → Action' → Option State'}
    {ok' : State' → Action' → Prop} (view : State → State') {s t : State} (steps : Steps exec ok s t)
    (simulates : ∀ t action u, ok t action → exec t action = some u → Steps exec' ok' (view t) (view u)) :
    Steps exec' ok' (view s) (view t) := by
  induction steps with
  | refl => exact .refl _
  | step action _ allowed enabled ih => exact ih.trans (simulates _ action _ allowed enabled)

section Logged

variable {Log : Type} {note : State → Action → Log → Log}

/-- `exec` with a log beside the state, to which `note` adds what each step does. -/
def logged (exec : State → Action → Option State) (note : State → Action → Log → Log) (at_ : State × Log)
    (action : Action) : Option (State × Log) :=
  (exec at_.1 action).map fun t => (t, note at_.1 action at_.2)

theorem Steps.logged {s t : State} (steps : Steps exec ok s t) (log : Log) :
    ∃ log', Steps (logged exec note) (fun at_ => ok at_.1) (s, log) (t, log') := by
  induction steps with
  | refl => exact ⟨log, .refl _⟩
  | step action _ allowed enabled ih =>
    obtain ⟨log', steps⟩ := ih
    exact ⟨_, .step action steps allowed (by rw [Concurrency.logged, enabled]; rfl)⟩

end Logged

/-- Carry out a schedule; `none` as soon as a step is not enabled. -/
def runAll (exec : State → Action → Option State) : State → List Action → Option State
  | s, [] => some s
  | s, action :: rest => (exec s action).bind fun t => runAll exec t rest

theorem reachable_of_runAll {s t : State} (schedule : List Action)
    (ran : runAll exec s schedule = some t) : Reachable exec s t := by
  induction schedule generalizing s with
  | nil => cases ran; exact .refl _
  | cons action rest ih =>
    obtain ⟨next, enabled, tail⟩ := Option.bind_eq_some_iff.mp ran
    exact (Steps.one enabled).trans (ih tail)

theorem steps_of_runAll [∀ s action, Decidable (ok s action)] {s t : State} (schedule : List Action)
    (ran : runAll (fun s action => if ok s action then exec s action else none) s schedule = some t) :
    Steps exec ok s t := by
  induction schedule generalizing s with
  | nil => cases ran; exact .refl _
  | cons action rest ih =>
    obtain ⟨next, enabled, tail⟩ := Option.bind_eq_some_iff.mp ran
    dsimp only at enabled
    split at enabled
    · next allowed => exact (Steps.step action (.refl _) allowed enabled).trans (ih tail)
    · cases enabled

end Concurrency
