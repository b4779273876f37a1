import RdmaIht.Concurrency.Record
import RdmaIht.Hashtable.Run

/-! The order in which the operations of a run win their locks.

An operation takes effect when it wins the lock of its bucket, and returns what the
table answered then.
-/

set_option autoImplicit false

namespace RdmaIht.Hashtable

open Concurrency

variable {K V : Type}

def Thread.view (answer : HtRes V) : Thread K V → Option (Nat × IhtOp K V × Option (HtRes V))
  | .running id op pc => some (id, op, if pc.inside then some answer else none)
  | .idle | .resizing _ => none

def State.view (s : State K V) (answer : Nat → HtRes V) (c : Nat) : Option (Nat × IhtOp K V × Option (HtRes V)) :=
  (s.threads c).view (answer c)

theorem view_of_not_running {thread : Thread K V} (idle : thread.isRunning = false) (answer : HtRes V) :
    thread.view answer = none := by
  cases thread with
  | running => cases idle
  | idle | resizing => rfl

theorem view_update (s s' : State K V) (answer : Nat → HtRes V) (c : Nat) (thread : Thread K V) (res : HtRes V)
    (threads : s'.threads = Function.update s.threads c thread) :
    s'.view (Function.update answer c res) = Function.update (s.view answer) c (thread.view res) := by
  funext c'
  simp only [State.view, threads, Function.update_apply]
  split <;> rfl

theorem view_update_same (s : State K V) (answer : Nat → HtRes V) (c : Nat) (thread : Thread K V) (res : HtRes V)
    {s' : State K V} (threads : s'.threads = Function.update s.threads c thread)
    (same : thread.view res = (s.threads c).view (answer c)) :
    s'.view (Function.update answer c res) = s.view answer := by
  rw [view_update s s' answer c thread res threads, same]
  exact Function.update_eq_self c (s.view answer)

variable [DecidableEq K] {T : Template K V} {t t' : Table K V} {answer answer' : Nat → HtRes V} {s s' : State K V}
  {action : Action K V}

/-- The operation whose `CompareAndSwap` locks its bucket with this action. -/
def State.winner (s : State K V) : Action K V → Option Nat
  | .invoke _ _ | .tryRehash _ => none
  | .step client =>
    match s.threads client with
    | .running id _ (.inSet set .acquire) => if s.mem.locks set.lock = some .unlocked then some id else none
    | _ => none

theorem exec_winner {peer : Nat → Nat} (enabled : exec T peer s action = some s') {id : Nat}
    (wins : s.winner action = some id) : ∃ c op set, action = .step c ∧
      s.threads c = .running id op (.inSet set .acquire) ∧ s'.threads c = .running id op (.inSet set (.walk set.first)) := by
  cases action with
  | invoke | tryRehash => cases wins
  | step c =>
    simp only [State.winner] at wins
    split at wins
    · next id' op set runs =>
      split at wins
      · next open_ =>
        cases wins
        simp only [exec, runs, clientStep, setStep, Mem.compareAndSwap, open_, Option.map_some, if_true] at enabled
        cases enabled
        exact ⟨c, op, set, rfl, runs, by simp⟩
      · cases wins
    · cases wins

structure Win (T : Template K V) (t : Table K V) (s : State K V) (c id : Nat) (op : IhtOp K V) (set : LinkedSet) : Prop where
  runs : s.threads c = .running id op (.inSet set .acquire)
  here : s.mem.bucketAt s.mem.root.bucketStart (T.keyhash op.key t.count) = some set
  open_ : s.mem.locks set.lock = some .unlocked

omit [DecidableEq K] in
theorem Win.winner {c id : Nat} {op : IhtOp K V} {set : LinkedSet} (win : Win T t s c id op set) :
    s.winner (.step c) = some id := by
  simp [State.winner, win.runs, win.open_]

/-- An action in which no operation takes effect, or the one in which the operation of `c` does. -/
theorem Move.record {σ : Type} {spec : SeqSpec σ (IhtOp K V) (HtRes V)} {order : List (Entry Nat (IhtOp K V) (HtRes V))}
    {peer : Nat → Nat} (record : Record spec s.history s.ops order (s.view answer)) (enabled : exec T peer s action = some s')
    (move : Move T t answer s action t' answer' s') :
    (s.winner action = none ∧ Resized T t t' ∧ Record spec s'.history s'.ops order (s'.view answer')) ∨
    ∃ c id op set, action = .step c ∧ Win T t s c id op set ∧ t' = (t.apply T op).1 ∧
      ((spec.apply (spec.final spec.init order) op).2 = (t.apply T op).2 →
        Record spec s'.history s'.ops (order ++ [⟨id, op, (t.apply T op).2⟩]) (s'.view answer')) := by
  -- the winner is outside its section before the action and inside after it
  have loses : (∀ c id op set, s.threads c = .running id op (.inSet set .acquire) →
      s'.threads c ≠ .running id op (.inSet set (.walk set.first))) → s.winner action = none := by
    intro never
    by_contra wins
    obtain ⟨id, wins⟩ := Option.ne_none_iff_exists'.mp wins
    obtain ⟨c, op, set, _, before, after⟩ := exec_winner enabled wins
    exact never c id op set before after
  have same : ∀ {c : Nat} {thread : Thread K V}, s'.threads = Function.update s.threads c thread →
      (∀ id op set, s.threads c = .running id op (.inSet set .acquire) → thread ≠ .running id op (.inSet set (.walk set.first))) →
      s.winner action = none := by
    intro c thread threads here
    refine loses fun c' id op set before after => ?_
    rw [threads, Function.update_apply] at after
    split at after
    · next at_ => exact here id op set (at_ ▸ before) after
    · rw [before] at after
      cases after
  cases move with
  | @invoke c op idle =>
    refine .inl ⟨rfl, .keep, ?_⟩
    have after := record.invoke c op
    have shown := view_update s { s with
      threads := Function.update s.threads c (.running s.ops op .readRoot)
      history := s.history ++ [.inv s.ops op]
      ops := s.ops + 1 } answer c (.running s.ops op .readRoot) (answer c) rfl
    rw [Function.update_eq_self] at shown
    rw [shown]
    exact after
  | @client c id op pc t' res' m next runs effect =>
    have view : ∀ inside, pc.inside = inside → s.view answer c = some (id, op, if inside then some (answer c) else none) := by
      rintro _ rfl
      simp only [State.view, runs, Thread.view]
    cases effect with
    | outside before after =>
      refine .inl ⟨same rfl ?_, .keep, ?_⟩
      · rintro id' op' set _ walks
        cases walks
        cases after
      · rw [view_update_same s answer c _ _ rfl (by simp [Thread.after, Thread.view, runs, before, after])]
        simpa [responses] using record
    | @win set here open_ =>
      refine .inr ⟨c, id, op, set, rfl, ⟨runs, here, open_⟩, rfl, fun agrees => ?_⟩
      have after := record.commit (view false rfl)
      rw [agrees] at after
      rw [view_update s _ answer c _ _ rfl]
      simpa [responses, Thread.after, Thread.view, Pc.inside, SetPc.inside] using after
    | inner before after =>
      refine .inl ⟨same rfl ?_, .keep, ?_⟩
      · rintro id' op' set acquires _
        rw [runs] at acquires
        cases acquires
        cases before
      · rw [view_update_same s answer c _ _ rfl (by simp [Thread.after, Thread.view, runs, before, after])]
        simpa [responses] using record
    | done before =>
      refine .inl ⟨same rfl ?_, .keep, ?_⟩
      · rintro id' op' set _ walks
        cases walks
      · have after := record.respond (view true before)
        rw [view_update s _ answer c _ _ rfl]
        simpa [responses, Thread.after, Thread.view] using after
  | @resize c action thread' t' res' m before after effect =>
    refine .inl ⟨same rfl ?_, effect, ?_⟩
    · rintro id' op' set acquires _
      have running := before.isRunning_eq
      rw [acquires] at running
      cases running
    · rw [view_update_same s answer c thread' res' rfl
        (by rw [view_of_not_running before.isRunning_eq, view_of_not_running after])]
      exact record
  | stay =>
    refine .inl ⟨loses fun c id op set before after => ?_, .keep, record⟩
    rw [before] at after
    cases after

end RdmaIht.Hashtable
