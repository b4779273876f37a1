import RdmaIht.Hashtable.Publish

/-! Runs of `Hashtable` whose resizes do not overlap.

In such a run no step of a thread fails, except that of a resize whose new count
leaves `int`. `Move` says what each action means for the table: a client changes
it when it wins a lock, a resize when it adds a pair or publishes the new root.
-/

set_option autoImplicit false

namespace RdmaIht.Hashtable

open Concurrency

variable {K V : Type} [DecidableEq K]

/-- No `try_rehash` starts while another one runs. -/
def Alone (peer : Nat → Nat) (s : State K V) : Action K V → Prop
  | .tryRehash client => s.root.isLocal (peer client) = true → ∀ c pc, s.threads c ≠ .resizing pc
  | .invoke _ _ | .step _ => True

def CalledBy (callers : List Nat) : Action K V → Prop
  | .tryRehash client => client ∈ callers
  | .invoke _ _ | .step _ => True

instance (callers : List Nat) : DecidablePred (CalledBy (K := K) (V := V) callers)
  | .tryRehash client => inferInstanceAs (Decidable (client ∈ callers))
  | .invoke _ _ | .step _ => .isTrue trivial

def responses (id : Nat) : Pc K V ⊕ HtRes V → List (Event Nat (IhtOp K V) (HtRes V))
  | .inl _ => []
  | .inr res => [.res id res]

variable {T : Template K V} {peer : Nat → Nat} {s s' : State K V} {action : Action K V}

theorem exec_cases (enabled : exec T peer s action = some s') :
    (∃ c op, action = .invoke c op ∧ s.threads c = .idle ∧ s' = { s with
      threads := Function.update s.threads c (.running s.ops op .readRoot)
      history := s.history ++ [.inv s.ops op]
      ops := s.ops + 1 }) ∨
    (∃ c, action = .tryRehash c ∧ s.threads c = .idle ∧ s.root.isLocal (peer c) = true ∧
      s' = { s with threads := Function.update s.threads c (.resizing .readRoot) }) ∨
    (∃ c, action = .tryRehash c ∧ s.root.isLocal (peer c) = false ∧ s' = s) ∨
    (∃ c id op pc m next, action = .step c ∧ s.threads c = .running id op pc ∧
      clientStep T (peer c) op s.mem pc = .ok (m, next) ∧ s' = { s with
        mem := m
        threads := Function.update s.threads c (.after id op next)
        history := s.history ++ responses id next }) ∨
    ∃ c pc m next, action = .step c ∧ s.threads c = .resizing pc ∧
      rehashStep T (peer c) s.mem pc = .ok (m, next) ∧
      s' = { s with mem := m, threads := Function.update s.threads c (.resume next) } := by
  cases action with
  | invoke c op =>
    simp only [exec] at enabled
    split at enabled
    · next idle => exact .inl ⟨c, op, rfl, idle, (Option.some.inj enabled).symm⟩
    · cases enabled
  -- `try_rehash` does nothing on a peer that does not own the root
  | tryRehash c =>
    simp only [exec] at enabled
    split at enabled
    · next idle =>
      split at enabled
      · next here => exact .inr (.inl ⟨c, rfl, idle, here, (Option.some.inj enabled).symm⟩)
      · next other => exact .inr (.inr (.inl ⟨c, rfl, by simpa using other, (Option.some.inj enabled).symm⟩))
    · cases enabled
  | step c =>
    simp only [exec] at enabled
    split at enabled
    · cases enabled
    · next id op pc runs =>
      refine .inr (.inr (.inr (.inl ?_)))
      split at enabled
      · cases enabled
      · next m pc' stepped =>
        cases enabled
        exact ⟨c, id, op, pc, m, .inl pc', rfl, runs, stepped, by simp [Thread.after, responses]⟩
      · next m res stepped =>
        cases enabled
        exact ⟨c, id, op, pc, m, .inr res, rfl, runs, stepped, by simp [Thread.after, responses]⟩
    · next pc runs =>
      refine .inr (.inr (.inr (.inr ?_)))
      split at enabled
      · cases enabled
      · next m pc' stepped =>
        cases enabled
        exact ⟨c, pc, m, some pc', rfl, runs, stepped, rfl⟩
      · next m stepped =>
        cases enabled
        exact ⟨c, pc, m, none, rfl, runs, stepped, rfl⟩

def Thread.isRunning : Thread K V → Bool
  | .running _ _ _ => true
  | .idle | .resizing _ => false

inductive Resized (T : Template K V) (t : Table K V) : Table K V → Prop where
  | keep : Resized T t t
  | readd {pair : Pair K V} {rest : List (Pair K V)} (next : t.pending = pair :: rest) : Resized T t (t.readd T pair rest)
  | double (settled : t.pending = []) : Resized T t t.doubled

def State.Resizes (s : State K V) (c : Nat) (action : Action K V) : Prop :=
  (∃ pc, s.threads c = .resizing pc) ∨ action = .tryRehash c ∧ s.threads c = .idle

omit [DecidableEq K] in
theorem State.Resizes.isRunning_eq {c : Nat} (resizes : s.Resizes c action) : (s.threads c).isRunning = false := by
  rcases resizes with ⟨pc, runs⟩ | ⟨_, idle⟩
  · rw [runs]
    rfl
  · rw [idle]
    rfl

/-- What an action means for the table and for the answers of the threads in possession of a lock. -/
inductive Move (T : Template K V) (t : Table K V) (answer : Nat → HtRes V) (s : State K V) :
    Action K V → Table K V → (Nat → HtRes V) → State K V → Prop where
  | invoke {c : Nat} {op : IhtOp K V} (idle : s.threads c = .idle) : Move T t answer s (.invoke c op) t answer { s with
      threads := Function.update s.threads c (.running s.ops op .readRoot)
      history := s.history ++ [.inv s.ops op]
      ops := s.ops + 1 }
  | client {c id : Nat} {op : IhtOp K V} {pc : Pc K V} {t' : Table K V} {res' : HtRes V} {m : Mem K V}
      {next : Pc K V ⊕ HtRes V} (runs : s.threads c = .running id op pc)
      (effect : ClientEffect T t s.mem op (answer c) pc t' res' next) :
      Move T t answer s (.step c) t' (Function.update answer c res') { s with
        mem := m
        threads := Function.update s.threads c (.after id op next)
        history := s.history ++ responses id next }
  | resize {c : Nat} {action : Action K V} {thread' : Thread K V} {t' : Table K V} {res' : HtRes V} {m : Mem K V}
      (before : s.Resizes c action) (after : thread'.isRunning = false)
      (effect : Resized T t t') :
      Move T t answer s action t' (Function.update answer c res')
        { s with mem := m, threads := Function.update s.threads c thread' }
  | stay {action : Action K V} : Move T t answer s action t answer s

theorem resizing_calledBy {callers : List Nat} (only : ∀ c pc, s.threads c = .resizing pc → c ∈ callers)
    (called : CalledBy callers action) (enabled : exec T peer s action = some s') :
    ∀ c pc, s'.threads c = .resizing pc → c ∈ callers := by
  have moved : ∀ (c : Nat) (thread' : Thread K V), s'.threads = Function.update s.threads c thread' →
      (∀ pc, thread' = .resizing pc → c ∈ callers) → ∀ c' pc, s'.threads c' = .resizing pc → c' ∈ callers := by
    intro c thread' threads mine c' pc resizes
    rw [threads, Function.update_apply] at resizes
    split at resizes
    · next same => exact same ▸ mine pc resizes
    · exact only c' pc resizes
  rcases exec_cases enabled with ⟨c, op, rfl, _, rfl⟩ | ⟨c, rfl, rest, _, rfl⟩ | ⟨c, rfl, remote, rfl⟩ |
    ⟨c, id, op, pc, m, next, rfl, _, _, rfl⟩ | ⟨c, pc, m, next, rfl, resizing, _, rfl⟩
  · exact moved c _ rfl fun pc resizes => by cases resizes
  · exact moved c _ rfl fun _ _ => called
  · exact only
  · refine moved c _ rfl fun pc' resizes => ?_
    cases next <;> cases resizes
  · exact moved c _ rfl fun _ _ => only c pc resizing

theorem steps_of_calledBy {ok ok' : State K V → Action K V → Prop} {callers : List Nat}
    (imp : ∀ s action s', (∀ c pc, s.threads c = .resizing pc → c ∈ callers) → exec T peer s action = some s' →
      CalledBy callers action → ok s action → ok' s action) (idle : ∀ c, s.threads c = .idle)
    (run : Steps (exec T peer) (fun s action => CalledBy callers action ∧ ok s action) s s') :
    Steps (exec T peer) ok' s s' := by
  refine run.imp (P := fun s => ∀ c pc, s.threads c = .resizing pc → c ∈ callers)
    (fun c pc resizes => by rw [idle] at resizes; cases resizes) ?_
  rintro u action v only ⟨called, allowed⟩ enabled
  exact ⟨resizing_calledBy only called enabled, imp u action v only enabled called allowed⟩

/-- Resizes of one thread do not overlap. -/
theorem alone_of_calledBy {host : Nat} (only : ∀ c pc, s.threads c = .resizing pc → c ∈ [host])
    (enabled : exec T peer s action = some s') (called : CalledBy [host] action) : Alone peer s action := by
  cases action with
  | tryRehash c =>
    intro near c' pc resizes
    obtain rfl := List.mem_singleton.mp (only c' pc resizes)
    obtain rfl : c = c' := List.mem_singleton.mp called
    simp [exec, resizes] at enabled
  | invoke | step => trivial

namespace Inv

variable {t : Table K V} {home : Home} {answer : Nat → HtRes V}

theorem start (T : Template K V) (positive : 1 ≤ T.initialSize) (host : Nat) : ∃ home, Inv T
    ⟨T.initialSize, fun _ => .empty, []⟩ home (fun _ => ⟨.falseState, T.zero⟩) (initial T host) := by
  have nothing : ∀ a i, (Mem.empty.bump : Mem K V).bucketAt a i = none := fun _ _ => rfl
  have laid : Laid (fun _ => (.null, 0)) (Mem.empty.bump : Mem K V) := by
    refine ⟨Nat.succ_pos _, fun p some => absurd rfl some, fun p some => absurd rfl some, fun p some => absurd rfl some, ?_, ?_⟩
    · intro a i set at_
      rw [nothing] at at_
      cases at_
    · intro a i set at_
      rw [nothing] at at_
      cases at_
  have ground := laid.ground_publish host positive
    (fun {a i set} at_ => by rw [nothing] at at_; cases at_) []
  refine ⟨_, ground, fun _ => trivial, ?_, ?_, ?_, fun _ => rfl⟩
  · intro c c' p holds
    exact absurd holds not_holds_idle
  · intro a i set at_ locked
    rcases Mem.cases_publish _ host T.initialSize at_ with ⟨_, old⟩ | ⟨_, bound, rfl⟩
    · rw [nothing] at old
      cases old
    · have word := (Mem.empty.bump.set_publish (K := K) (V := V) host T.initialSize bound).1
      rw [show (initial T host).mem = Mem.empty.bump.publish host T.initialSize from rfl, word] at locked
      cases locked
  · intro c c' pc pc' resizes
    cases resizes

theorem next (inv : Inv T t home answer s) (alone : Alone peer s action) (enabled : exec T peer s action = some s') :
    ∃ t' home' answer', Inv T t' home' answer' s' ∧ Move T t answer s action t' answer' s' := by
  have shape := inv.ground.shape
  rcases exec_cases enabled with ⟨c, op, rfl, idle, rfl⟩ | ⟨c, rfl, idle, here, rfl⟩ | ⟨c, rfl, _, rfl⟩ |
    ⟨c, id, op, pc, m, next, rfl, runs, stepped, rfl⟩ | ⟨c, pc, m, next, rfl, runs, stepped, rfl⟩
  · -- a call is entered: nothing is locked and the memory is as it was
    have quiet : Sound T (nowhere s.mem) t home s.mem (s.threads c) t home s.mem (answer c) (.running s.ops op .readRoot) := by
      rw [idle]
      refine .quiet shape trivial (fun p => ?_) ?_
      · exact iff_of_false not_holds_readRoot not_holds_idle
      · rintro _ ⟨pc, resizes⟩
        cases resizes
    have after := inv.sound { s with
      threads := Function.update s.threads c (.running s.ops op .readRoot)
      history := s.history ++ [.inv s.ops op]
      ops := s.ops + 1 } quiet (by rintro pc resizes; cases resizes) rfl rfl
    rw [Function.update_eq_self] at after
    exact ⟨t, home, answer, after, .invoke idle⟩
  · -- a resize begins, and no other one is running
    have free := alone here
    have quiet : Sound T (nowhere s.mem) t home s.mem (s.threads c) t home s.mem (answer c) (.resizing .readRoot) := by
      rw [idle]
      refine .quiet shape ⟨by simp [RehashPc.frozen], inv.settled free⟩ (fun p => ?_) fun never => absurd rfl (never _)
      exact iff_of_false (by simp [Thread.Holds, Thread.frozen, RehashPc.frozen, Thread.set]) not_holds_idle
    exact ⟨t, home, _, inv.sound _ quiet (fun _ _ c' _ pc' => free c' pc') rfl rfl,
      .resize (.inr ⟨rfl, idle⟩) rfl .keep⟩
  · exact ⟨t, home, answer, inv, .stay⟩
  · have own := inv.threads c
    rw [runs] at own
    obtain ⟨q, t', home', m', res', next', went, sound, effect⟩ := client_sound (peer c) id inv.ground own
    rw [stepped] at went
    cases went
    rw [← runs] at sound
    refine ⟨t', home', _, inv.sound _ sound ?_ rfl rfl, .client runs effect⟩
    intro pc' resizes
    cases next <;> cases resizes
  · have alone' : ∀ c', c' ≠ c → ∀ pc', s.threads c' ≠ .resizing pc' := fun c' other pc' there =>
      other (inv.single there runs)
    by_cases inner : ∀ hashtable buckets, pc ≠ .publish hashtable buckets
    · have own := inv.threads c
      rw [runs] at own
      obtain ⟨q, t', home', m', res', next', went, sound, effect⟩ := rehash_sound (peer c) inv.ground own inner
      rw [stepped] at went
      cases went
      rw [← runs] at sound
      refine ⟨t', home', _, inv.sound _ sound (fun _ _ => alone') rfl rfl, .resize (.inl ⟨_, runs⟩) ?_ ?_⟩
      · cases next <;> rfl
      · cases effect with
        | keep _ => exact .keep
        | readd first => exact .readd first
    · -- the root is replaced: every set is frozen, so the new table is empty for all threads
      push Not at inner
      obtain ⟨hashtable, buckets, rfl⟩ := inner
      cases rehashStep_branch stepped
      obtain ⟨settled, after⟩ := inv.publish (peer c) { s with
        mem := s.mem.publish (peer c) (hashtable.count * 2)
        threads := Function.update s.threads c (.resizing (.bucket buckets (s.mem.newArray (peer c) (hashtable.count * 2)).1 0)) }
        runs rfl rfl
      have moved : Move T t answer s (.step c) t.doubled (Function.update answer c (answer c)) { s with
          mem := s.mem.publish (peer c) (hashtable.count * 2)
          threads := Function.update s.threads c
            (.resizing (.bucket buckets (s.mem.newArray (peer c) (hashtable.count * 2)).1 0)) } :=
        .resize (.inl ⟨_, runs⟩) rfl (.double settled)
      rw [Function.update_eq_self] at moved
      exact ⟨_, _, _, after, moved⟩

/-- The invariant of every run whose resizes do not overlap. -/
theorem reachable (positive : 1 ≤ T.initialSize) {host : Nat} (run : Steps (exec T peer) (Alone peer) (initial T host) s) :
    ∃ t home answer, Inv T t home answer s := by
  refine run.invariant (P := fun s => ∃ t home answer, Inv T t home answer s) ?_ ?_
  · obtain ⟨home, inv⟩ := start T positive host
    exact ⟨_, home, _, inv⟩
  · rintro s action s' ⟨t, home, answer, inv⟩ alone enabled
    obtain ⟨t', home', answer', after, _⟩ := inv.next alone enabled
    exact ⟨t', home', answer', after⟩

end Inv

end RdmaIht.Hashtable
