import RdmaIht.Concurrency.Record
import RdmaIht.Iht.ContentRehash
import RdmaIht.Iht.Safety

/-! When a run of `RdmaIHT` is linearizable, and a run that is not.

An insert reads the base of its bucket from a copy of the P-List it made before it
won the lock. If the copy shows an empty bucket that has an E-List by now, the
insert replaces that E-List by a new one and the pairs in it are lost. A run in
which this never happens is linearizable: each operation takes effect when it
unlocks its bucket, or, if it found nothing in an old copy, when the copy was made.
-/

set_option autoImplicit false

namespace RdmaIht.Iht

open Concurrency

variable {K V : Type}

def Thread.view : Thread K V → Option (Nat × IhtOp K V × Option (HtRes V))
  | .idle => none
  | .running id op pc => some (id, op, pc.answer)

def State.view (s : State K V) (c : Nat) : Option (Nat × IhtOp K V × Option (HtRes V)) := (s.threads c).view

theorem State.view_of_running {s : State K V} {c id : Nat} {op : IhtOp K V} {pc : Pc K V}
    (runs : s.threads c = .running id op pc) : s.view c = some (id, op, pc.answer) := by
  unfold State.view
  rw [runs]
  rfl

theorem State.view_eq_some {s : State K V} {c id : Nat} {op : IhtOp K V} {answer : Option (HtRes V)}
    (shown : s.view c = some (id, op, answer)) : ∃ pc, s.threads c = .running id op pc ∧ pc.answer = answer := by
  unfold State.view at shown
  cases at_ : s.threads c with
  | idle =>
    rw [at_] at shown
    cases shown
  | running id' op' pc =>
    rw [at_] at shown
    cases shown
    exact ⟨pc, rfl, rfl⟩

theorem State.view_update {s s' : State K V} {c : Nat} {thread : Thread K V}
    (threads : s'.threads = Function.update s.threads c thread) : s'.view = Function.update s.view c thread.view := by
  funext c'
  simp only [State.view, threads, Function.update_apply]
  split <;> rfl

variable [DecidableEq K]

abbrev Template.mapAfter (T : Template K V) (order : List (Entry Nat (IhtOp K V) (HtRes V))) : FiniteMap K V :=
  T.spec.final T.spec.init order

structure Simulation (T : Template K V) (peer : Nat → Nat) (home : Home)
    (order : List (Entry Nat (IhtOp K V) (HtRes V))) (s : State K V) : Prop where
  safe : Invariant T peer home s
  lin : Linearization T.spec s.history order
  content : Content T s.root home s.mem (T.mapAfter order)
  points : ∀ {c id op pc}, s.threads c = .running id op pc →
    PcContent T s.root home s.mem (T.mapAfter order) (Seen T.spec s.history order id) op pc
  started : ∀ {c id op pc}, s.threads c = .running id op pc → Event.inv id op ∈ s.history
  pending : ∀ {c id op pc}, s.threads c = .running id op pc → pc.answer = none → id ∉ order.map (·.id)
  answered : ∀ {c id op pc res}, s.threads c = .running id op pc → pc.answer = some res → ⟨id, op, res⟩ ∈ order
  distinct : ∀ {c c' id op op' pc pc'}, s.threads c = .running id op pc →
    s.threads c' = .running id op' pc' → c = c'
  numbered : ∀ {id op}, Event.inv id op ∈ s.history → id < s.ops
  once : ∀ {id op op'}, Event.inv id op ∈ s.history → Event.inv id op' ∈ s.history → op = op'

variable {T : Template K V} {peer : Nat → Nat} {home : Home} {s : State K V}
  {order : List (Entry Nat (IhtOp K V) (HtRes V))}

namespace Simulation

theorem record (sim : Simulation T peer home order s) : Record T.spec s.history s.ops order s.view where
  lin := sim.lin
  started shown := by
    obtain ⟨pc, runs, _⟩ := State.view_eq_some shown
    exact sim.started runs
  pending shown := by
    obtain ⟨pc, runs, waiting⟩ := State.view_eq_some shown
    exact sim.pending runs waiting
  answered shown := by
    obtain ⟨pc, runs, done⟩ := State.view_eq_some shown
    exact sim.answered runs done
  distinct shown shown' := by
    obtain ⟨pc, runs, _⟩ := State.view_eq_some shown
    obtain ⟨pc', runs', _⟩ := State.view_eq_some shown'
    exact sim.distinct runs runs'
  numbered := sim.numbered
  once := sim.once

theorem of_record (safe : Invariant T peer home s) (record : Record T.spec s.history s.ops order s.view)
    (content : Content T s.root home s.mem (T.mapAfter order))
    (points : ∀ {c id op pc}, s.threads c = .running id op pc →
      PcContent T s.root home s.mem (T.mapAfter order) (Seen T.spec s.history order id) op pc) :
    Simulation T peer home order s where
  safe := safe
  lin := record.lin
  content := content
  points := points
  started runs := record.started (State.view_of_running runs)
  pending runs waiting := record.pending (waiting ▸ State.view_of_running runs)
  answered runs done := record.answered (done ▸ State.view_of_running runs)
  distinct runs runs' := record.distinct (State.view_of_running runs) (State.view_of_running runs')
  numbered := record.numbered
  once := record.once

theorem invoked (sim : Simulation T peer home order s) {c : Nat} (op : IhtOp K V) (idle : s.threads c = .idle) :
    Simulation T peer home order { s with
      threads := Function.update s.threads c (.running s.ops op .readRoot)
      history := s.history ++ [.inv s.ops op]
      ops := s.ops + 1 } := by
  refine .of_record (sim.safe.invoked op idle) ?_ sim.content ?_
  · rw [State.view_update rfl]
    exact sim.record.invoke c op
  · intro c' id' op' pc' runs
    dsimp only at runs
    rw [Function.update_apply] at runs
    split at runs
    · cases runs
      trivial
    · have change := Change.refl (fun _ _ => False) home s.mem
      exact (sim.points runs).stable change (by simp) sim.safe.shape sim.safe.shape (sim.safe.points runs)
        (by simp) (by simp) (fun _ _ _ _ _ _ => rfl) fun _ seen => seen.concat (by
          intro op'' same
          cases same
          exact Nat.lt_irrefl _ (sim.numbered (sim.started runs)))

section Step

variable {c id : Nat} {op : IhtOp K V} {pc : Pc K V} {home' : Home} {touch : RemotePtr → Nat → Prop}
  {m' : Mem K V} {next : Pc K V ⊕ HtRes V}

theorem others (sim : Simulation T peer home order s) (runs : s.threads c = .running id op pc)
    (sound : Sound T s.root (peer c) home s.mem pc home' touch m' next) {seen : FiniteMap K V → Prop}
    {σ' : FiniteMap K V} (effect : Effect T (T.mapAfter order) seen op pc σ') {c' id' : Nat} {op' : IhtOp K V}
    {pc' : Pc K V} (other : c' ≠ c) (runs' : s.threads c' = .running id' op' pc') {seen' : FiniteMap K V → Prop}
    (more : ∀ σ, Seen T.spec s.history order id' σ → seen' σ) :
    PcContent T s.root home' m' σ' seen' op' pc' := by
  refine (sim.points runs').stable sound.change (sound.open_ (sim.safe.points runs)) sound.shape sim.safe.shape
    (sim.safe.points runs') (sim.safe.away runs sound other runs') (sim.safe.apart runs sound other runs') ?_ more
  intro p b holds d key leads
  rcases effect.same_or_unlock with same | ⟨t, b', held, res, rfl⟩
  · rw [same]
  · -- the key that is bound anew leads to the bucket of `c`, which nobody else holds
    refine effect.of_ne ?_
    rintro rfl
    have mine := (sim.safe.points runs).held rfl
    have theirs := (sim.safe.points runs').held holds
    have content := sim.points runs
    obtain ⟨rfl, _, rfl⟩ := content.1.unique leads (fun closed => by cases closed.functional mine.1)
      (fun closed => by cases closed.functional theirs.1)
    exact other (sim.safe.exclusive runs' runs holds rfl)

theorem continued (sim : Simulation T peer home order s) (runs : s.threads c = .running id op pc) {pc' : Pc K V}
    (sound : Sound T s.root (peer c) home s.mem pc home' touch m' (.inl pc')) {seen : FiniteMap K V → Prop}
    {order' : List (Entry Nat (IhtOp K V) (HtRes V))}
    (effect : Effect T (T.mapAfter order) seen op pc (T.mapAfter order'))
    (lin : Linearization T.spec s.history order') (content : Content T s.root home' m' (T.mapAfter order'))
    (mine : PcContent T s.root home' m' (T.mapAfter order') (Seen T.spec s.history order' id) op pc')
    (entries : ∀ entry, entry ∈ order' ↔ entry ∈ order ∨ ∃ res, pc'.answer = some res ∧ entry = ⟨id, op, res⟩)
    (waiting : pc.answer = none)
    (more : ∀ i σ, Seen T.spec s.history order i σ → Seen T.spec s.history order' i σ) :
    Simulation T peer home' order' { s with
      mem := m', threads := Function.update s.threads c (.running id op pc') } := by
  have shown : s.view c = some (id, op, none) := waiting ▸ State.view_of_running runs
  refine .of_record (sim.safe.continued runs sound) ?_ content ?_
  · rw [State.view_update rfl]
    exact sim.record.settle shown lin entries
  · intro c₁ id₁ op₁ pc₁ runs₁
    dsimp only at runs₁
    rw [Function.update_apply] at runs₁
    split at runs₁
    · cases runs₁
      exact mine
    · next other => exact sim.others runs sound effect other runs₁ (more id₁)

theorem returned (sim : Simulation T peer home order s) (runs : s.threads c = .running id op pc) {res : HtRes V}
    (sound : Sound T s.root (peer c) home s.mem pc home' touch m' (.inr res)) {seen : FiniteMap K V → Prop}
    (effect : Effect T (T.mapAfter order) seen op pc (T.mapAfter order)) (done : pc.answer = some res)
    (content : Content T s.root home' m' (T.mapAfter order)) : Simulation T peer home' order { s with
      mem := m', threads := Function.update s.threads c .idle, history := s.history ++ [.res id res] } := by
  have shown : s.view c = some (id, op, some res) := done ▸ State.view_of_running runs
  refine .of_record (sim.safe.returned runs sound) ?_ content ?_
  · rw [State.view_update rfl]
    exact sim.record.respond shown
  · intro c₁ id₁ op₁ pc₁ runs₁
    dsimp only at runs₁
    rw [Function.update_apply] at runs₁
    split at runs₁
    · cases runs₁
    · next other => exact sim.others runs sound effect other runs₁ fun _ seen => seen.concat (by simp)

end Step

end Simulation

def State.moving (s : State K V) : Action K V → Option (IhtOp K V × Pc K V)
  | .invoke _ _ => none
  | .step client =>
    match s.threads client with
    | .idle => none
    | .running _ op pc => some (op, pc)

/-- The action is not that of an insert that wins the lock of a bucket which is
empty in its copy of the P-List but not in the P-List. -/
def WinsFresh (T : Template K V) (s : State K V) (action : Action K V) : Prop :=
  ∀ moving ∈ s.moving action, FreshWin T s.mem moving.1 moving.2

instance (T : Template K V) (s : State K V) (action : Action K V) : Decidable (WinsFresh T s action) :=
  inferInstanceAs (Decidable (∀ moving ∈ s.moving action, FreshWin T s.mem moving.1 moving.2))

theorem Content.start (T : Template K V) (host : Nat) :
    Content T (initial T host).root (fun _ => none) (initial T host).mem .empty := by
  refine ⟨?_, fun _ _ _ _ _ => rfl⟩
  intro p d b pr descent found _
  rw [((Shape.start T host).base_ok found).resolve_right (by simp)]
  exact ⟨⟨pr, found, ((Shape.start T host).base_ok found).resolve_right (by simp)⟩, by simp, .nil fun _ _ => rfl⟩

namespace Simulation

theorem start (T : Template K V) (peer : Nat → Nat) (host : Nat) :
    Simulation T peer (fun _ => none) [] (initial T host) := by
  refine ⟨.start T peer host, .nil, .start T host, ?_, ?_, ?_, ?_, ?_, ?_, ?_⟩
  all_goals
    intros
    contradiction

theorem next (plist : 2 ≤ T.plistSize) (elist : 1 ≤ T.elistSize) (sim : Simulation T peer home order s)
    {s' : State K V} {action : Action K V} (fresh : WinsFresh T s action)
    (enabled : exec T peer s action = some s') : ∃ home' order', Simulation T peer home' order' s' := by
  rcases exec_cases enabled with ⟨c, op, rfl, idle, rfl⟩ | ⟨c, id, op, pc, m, next, rfl, runs, stepped, ends⟩
  · exact ⟨home, order, sim.invoked op idle⟩
  · obtain ⟨home', touch, sound⟩ := sim.safe.sound plist elist runs stepped
    obtain ⟨σ', effect, content, mine⟩ := step_content sim.safe.shape sim.content (Concurrency.Seen.now _ _ _ _)
      (sim.safe.points runs) (sim.points runs) 
      (fresh (op, pc) (by simp [State.moving, runs])) stepped sound
    rcases (step_branch stepped).answers with ⟨res, done, rfl⟩ | ⟨t, b, held, res, rfl, rfl⟩ |
        ⟨waiting, inner, pc', rfl, undone⟩
    · rcases ends with ⟨_, same, _⟩ | ⟨_, same, rfl⟩
      · cases same
      · cases same
        rcases effect.same_or_unlock with rfl | ⟨_, _, _, _, rfl⟩
        · exact ⟨home', order, sim.returned runs sound effect done content⟩
        · cases done
    · obtain ⟨_, same, rfl⟩ := ends.resolve_right (by simp)
      cases same
      have absent := sim.pending runs rfl
      cases effect with
      | keep inner => exact absurd rfl (inner t b held res)
      | now =>
        -- the operation takes effect now
        have final : T.mapAfter (order ++ [⟨id, op, (T.spec.apply (T.mapAfter order) op).2⟩]) =
            (T.spec.apply (T.mapAfter order) op).1 := by
          rw [Template.mapAfter, SeqSpec.final_append]
          rfl
        have taken : Effect T (T.mapAfter order) (Seen T.spec s.history order id) op
            (.unlock t b held (T.spec.apply (T.mapAfter order) op).2) (T.spec.apply (T.mapAfter order) op).1 :=
          .now t b held
        refine ⟨home', _, sim.continued runs sound (final ▸ taken)
          (sim.lin.commit (sim.started runs) absent) (by rw [final]; exact content) trivial ?_ rfl
          fun i σ seen => seen.commit (sim.lin.not_responded absent)⟩
        intro entry
        simp [Pc.answer, eq_comm]
      | past _ _ _ seen quiet =>
        obtain ⟨longer, lin, final, entries, more⟩ := sim.lin.commitPast (sim.started runs) absent seen quiet
        have after : T.mapAfter longer = T.mapAfter order := final
        have taken : Effect T (T.mapAfter order) (Seen T.spec s.history order id) op (.unlock t b held res)
            (T.mapAfter order) := .past t b held seen quiet
        refine ⟨home', longer, sim.continued runs sound (by rw [after]; exact taken) lin (by rw [after]; exact content) trivial ?_ rfl more⟩
        intro entry
        rw [entries entry]
        simp [Pc.answer, or_comm]
    · obtain ⟨_, same, rfl⟩ := ends.resolve_right (by simp)
      cases same
      rcases effect.same_or_unlock with rfl | ⟨t, b, held, res, rfl⟩
      · refine ⟨home', order, sim.continued runs sound effect sim.lin content (mine pc' rfl) ?_ waiting
          fun _ _ seen => seen⟩
        simp [undone]
      · exact absurd rfl (inner t b held res)

theorem reachable (plist : 2 ≤ T.plistSize) (elist : 1 ≤ T.elistSize) {host : Nat}
    (run : Steps (exec T peer) (WinsFresh T) (initial T host) s) : ∃ home order, Simulation T peer home order s := by
  refine run.invariant (P := fun s => ∃ home order, Simulation T peer home order s) ⟨_, _, .start T peer host⟩ ?_
  rintro t action u ⟨home, order, sim⟩ fresh enabled
  exact sim.next plist elist fresh enabled

end Simulation

/-- A run in which no insert wins a lock with an outdated empty bucket in its hands
is linearizable, and no insert that reported success is lost in it. -/
theorem linearizable_of_fresh {elistSize plistSize : Nat} (plist : 2 ≤ plistSize) (elist : 1 ≤ elistSize)
    (peer : Nat → Nat) (host : Nat) {s : State (BitVec 32) (BitVec 32)}
    (run : Steps (exec (intTemplate elistSize plistSize) peer) (WinsFresh (intTemplate elistSize plistSize))
      (initial (intTemplate elistSize plistSize) host) s) :
    Linearizable (mapSpec (BitVec 32) (0 : BitVec 32)) s.history ∧ InsertsKept s.history := by
  obtain ⟨home, order, sim⟩ := Simulation.reachable plist elist run
  have linearizable : Linearizable (mapSpec (BitVec 32) (0 : BitVec 32)) s.history := by
    have lin := sim.lin
    rw [(intTemplate elistSize plistSize).spec_eq fun _ => rfl] at lin
    exact ⟨order, lin⟩
  exact ⟨linearizable, insertsKept_of_linearizable (fun _ _ _ => sim.once) linearizable⟩

/-- Client 1 looks for the key that client 0 inserts, waits for the lock, and answers
from a copy that is older than the insert. -/
def outdatedRead : List (Action (BitVec 32) (BitVec 32)) :=
  .invoke 0 (.insert 1 10) :: List.replicate 2 (.step 0) ++ .invoke 1 (.contains 1) :: List.replicate 2 (.step 1) ++
    List.replicate 5 (.step 0) ++ List.replicate 4 (.step 1) ++ .invoke 0 (.insert 1 30) :: List.replicate 6 (.step 0)

theorem linearizable_of_fresh_outdatedRead : ∃ s : State (BitVec 32) (BitVec 32), s.history =
    [.inv 0 (.insert 1 10), .inv 1 (.contains 1), .res 0 ⟨.trueState, 0⟩, .res 1 ⟨.falseState, 0⟩,
      .inv 2 (.insert 1 30), .res 2 ⟨.falseState, 10⟩] ∧
    Linearizable (mapSpec (BitVec 32) (0 : BitVec 32)) s.history ∧ InsertsKept s.history := by
  have ran : (runAll (fun s action => if WinsFresh (intTemplate 7 128) s action then
      exec (intTemplate 7 128) (fun c => c) s action else none) (initial (intTemplate 7 128) 0) outdatedRead).map
      (·.history) = some [.inv 0 (.insert 1 10), .inv 1 (.contains 1), .res 0 ⟨.trueState, 0⟩,
        .res 1 ⟨.falseState, 0⟩, .inv 2 (.insert 1 30), .res 2 ⟨.falseState, 10⟩] := by decide +kernel
  obtain ⟨s, final, history⟩ := Option.map_eq_some_iff.mp ran
  exact ⟨s, history, linearizable_of_fresh (by decide) (by decide) (fun c => c) 0
    (steps_of_runAll outdatedRead final)⟩

/-- Clients 0 and 1 insert keys of one bucket; client 0 copies the root before client 1
fills the bucket and locks the bucket after that. Then client 1 looks for its key. -/
def lostInsert : List (Action (BitVec 32) (BitVec 32)) :=
  [.invoke 0 (.insert 1 10), .step 0] ++ .invoke 1 (.insert 126 20) :: List.replicate 7 (.step 1) ++
    List.replicate 6 (.step 0) ++ .invoke 1 (.contains 126) :: List.replicate 8 (.step 1)

theorem not_linearizable_lostInsert : ¬ ∀ s,
    Reachable (exec (intTemplate 7 128) fun c => c) (initial (intTemplate 7 128) 0) s →
      Linearizable (mapSpec (BitVec 32) (0 : BitVec 32)) s.history := by
  intro claimed
  have ran : (runAll (exec (intTemplate 7 128) fun c => c) (initial (intTemplate 7 128) 0) lostInsert).map
      (·.history) = some [.inv 0 (.insert 1 10), .inv 1 (.insert 126 20), .res 1 ⟨.trueState, 0⟩,
        .res 0 ⟨.trueState, 0⟩, .inv 2 (.contains 126), .res 2 ⟨.falseState, 0⟩] := by decide +kernel
  obtain ⟨s, final, history⟩ := Option.map_eq_some_iff.mp ran
  have linearizable := claimed s (reachable_of_runAll lostInsert final)
  rw [history] at linearizable
  have kept := insertsKept_of_linearizable (by
    intro i op op' first second
    simp only [List.mem_cons, Event.inv.injEq, reduceCtorEq, false_or, List.not_mem_nil, or_false] at first second
    rcases first with ⟨rfl, rfl⟩ | ⟨rfl, rfl⟩ | ⟨rfl, rfl⟩ <;> simpa [eq_comm] using second) linearizable
  -- operation 1 inserted 126 before operation 2 looked for it, and nothing was removed
  have found := (kept 1 2 126 20 (.contains 126) 0 ⟨.falseState, 0⟩ (by simp) (by simp) (by simp) (by simp)
    ⟨⟨.trueState, 0⟩, .contains 126, by decide⟩ (by simp)).1 rfl
  cases found

end RdmaIht.Iht
