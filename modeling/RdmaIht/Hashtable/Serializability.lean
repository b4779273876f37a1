import RdmaIht.Hashtable.Lookups

/-! Without resizes the operations of `Hashtable` are serializable.

The serial order is the order in which the operations win the locks of their
buckets. Done one at a time in this order they return the same results, and leave
the same nodes in the buckets.
-/

set_option autoImplicit false

namespace RdmaIht.Hashtable

open Concurrency

variable {K V : Type} [DecidableEq K] {T : Template K V}

/-- The machine with a log of the operations that have won a lock. -/
def execLogged (T : Template K V) (peer : Nat → Nat) (at_ : State K V × List Nat) (action : Action K V) :
    Option (State K V × List Nat) :=
  (exec T peer at_.1 action).map fun s => (s, at_.2 ++ (at_.1.winner action).toList)

def tableSpec (T : Template K V) : SeqSpec (Table K V) (IhtOp K V) (HtRes V) := ⟨Table.init T, Table.apply T⟩

variable {peer : Nat → Nat} {s s' : State K V} {t t' : Table K V} {answer answer' : Nat → HtRes V} {action : Action K V}

theorem Move.same_table (move : Move T t answer s action t' answer' s') (quiet : ∀ c pc, s.threads c ≠ .resizing pc)
    (called : CalledBy [] action) (loses : s.winner action = none) : t' = t := by
  cases move with
  | invoke | stay => rfl
  | @client c id op pc t' res' m next runs effect =>
    cases effect with
    | outside | inner | done => rfl
    | win here open_ => simp [State.winner, runs, open_] at loses
  | resize before =>
    rcases before with ⟨pc, resizes⟩ | ⟨rfl, _⟩
    · exact absurd resizes (quiet _ pc)
    · cases called

/-- The log is the order in which the operations take effect. -/
structure Serial (T : Template K V) (s : State K V) (log : List Nat) (home : Home) (answer : Nat → HtRes V)
    (order : List (Entry Nat (IhtOp K V) (HtRes V))) : Prop where
  inv : Inv T ((tableSpec T).final (tableSpec T).init order) home answer s
  record : Record (tableSpec T) s.history s.ops order (s.view answer)
  log : order.map (·.id) = log
  quiet : ∀ c pc, s.threads c ≠ .resizing pc

theorem Serial.reachable (positive : 1 ≤ T.initialSize) {host : Nat} {log : List Nat}
    (run : Steps (execLogged T peer) (fun _ action => CalledBy [] action) (initial T host, []) (s, log)) :
    ∃ home answer order, Serial T s log home answer order := by
  refine run.invariant (P := fun at_ => ∃ home answer order, Serial T at_.1 at_.2 home answer order) ?_ ?_
  · obtain ⟨home, inv⟩ := Inv.start T positive host
    exact ⟨home, _, [], inv, .start _, rfl, fun c pc resizes => by cases resizes⟩
  · rintro ⟨s, log⟩ action at_ ⟨home, answer, order, serial⟩ called enabled
    obtain ⟨s', stepped, rfl⟩ := Option.map_eq_some_iff.mp enabled
    have alone : Alone peer s action := by
      cases action with
      | tryRehash => cases called
      | invoke | step => trivial
    obtain ⟨t', home', answer', inv', move⟩ := serial.inv.next alone stepped
    have quiet' : ∀ c pc, s'.threads c ≠ .resizing pc := fun c pc resizes => by
      cases resizing_calledBy (fun c pc there => absurd there (serial.quiet c pc)) called stepped c pc resizes
    rcases move.record serial.record stepped with ⟨loses, _, record'⟩ | ⟨c, id, op, set, rfl, win, rfl, record'⟩
    · obtain rfl := move.same_table serial.quiet called loses
      refine ⟨home', answer', order, inv', record', ?_, quiet'⟩
      simpa [loses] using serial.log
    · refine ⟨home', answer', _, ?_, record' rfl, ?_, quiet'⟩
      · rw [SeqSpec.final_append]
        exact inv'
      · simp [win.winner, serial.log]

/-! ## The serial run -/

/-- The operations of the order as calls on some pools. -/
def serialCalls (pools : Nat → Nat) (order : List (Entry Nat (IhtOp K V) (HtRes V))) : List (Nat × Call K V) :=
  order.map fun entry => (pools entry.id, .operation entry.op)

theorem Between.serial {root : RemotePtr} {m : Mem K V} (pools : Nat → Nat)
    (order : List (Entry Nat (IhtOp K V) (HtRes V))) (between : Between T root t m) (legal : (tableSpec T).Legal t order) :
    ∃ fuel m', Hashtable.calls T root fuel m (serialCalls pools order) = .ok (m', order.map (·.ret)) ∧
      Between T root ((tableSpec T).final t order) m' := by
  induction order generalizing t m with
  | nil => exact ⟨0, m, rfl, between⟩
  | cons entry rest ih =>
    obtain ⟨answers, later⟩ := legal
    obtain ⟨fuel, m₁, first, between₁⟩ := between.operation (pools entry.id) entry.op
    obtain ⟨fuel', m₂, others, between₂⟩ := ih between₁ later
    rw [show (t.apply T entry.op).2 = entry.ret from answers] at first
    have head : Hashtable.perform T root (max fuel fuel') m (pools entry.id) (.operation entry.op) =
        .ok (m₁, some entry.ret) := bind_eq_ok.mpr ⟨_, finish_mono (Nat.le_max_left _ _) first, rfl⟩
    exact ⟨max fuel fuel', m₂, bind_eq_ok.mpr ⟨_, head, bind_eq_ok.mpr
      ⟨_, calls_mono (Nat.le_max_right _ _) others, rfl⟩⟩, between₂⟩

/-- Two buckets hold the same nodes with the same total length. -/
def SameBucket (m m' : Mem K V) (set set' : LinkedSet) : Prop :=
  (m.chain m.next set.first).map (·.pairs) = (m'.chain m'.next set'.first).map (·.pairs) ∧
    m.listLength set = m'.listLength set'

/-- In every run without resizes the order in which the operations win their locks
respects real time. Done one at a time in this order, on any pools, they return the
same results and leave the same nodes in every bucket that is not locked; when all
clients are idle no bucket is. -/
theorem serializable (positive : 1 ≤ T.initialSize) (host : Nat) {log : List Nat}
    (run : Steps (execLogged T peer) (fun _ action => CalledBy [] action) (initial T host, []) (s, log)) :
    ∃ order, order.map (·.id) = log ∧ Linearization (tableSpec T) s.history order ∧
      ∀ pools, ∃ fuel m, calls T (initial T host).root fuel (initial T host).mem (serialCalls pools order) =
          .ok (m, order.map (·.ret)) ∧
        s.mem.root.count = m.root.count ∧
        ∀ i set, s.mem.bucketAt s.mem.root.bucketStart i = some set →
          ((∀ c, s.threads c = .idle) → s.mem.locks set.lock = some .unlocked) ∧
          (s.mem.locks set.lock = some .unlocked →
            ∃ set', m.bucketAt m.root.bucketStart i = some set' ∧ SameBucket s.mem m set set') := by
  obtain ⟨home, answer, order, serial⟩ := Serial.reachable positive run
  refine ⟨order, serial.log, serial.record.lin, fun pools => ?_⟩
  have ground : Ground _ home s.mem := serial.inv.ground
  obtain ⟨fuel, m, done, between⟩ := (Between.start T positive host).serial pools order serial.record.lin.legal
  obtain ⟨sets, stored, length, count⟩ := between.root_sets
  refine ⟨fuel, m, done, ground.count.symm.trans count.symm, fun i set at_ => ⟨fun idle => ?_, fun open_ => ?_⟩⟩
  · -- a locked set has a holder, which is not idle, and without a resize none is deleted
    obtain ⟨w, word⟩ := Option.ne_none_iff_exists'.mp (ground.shape.lock at_).2
    cases w with
    | unlocked => exact word
    | locked =>
      obtain ⟨c, holds⟩ := serial.inv.holder at_ word
      rw [idle c] at holds
      exact absurd holds not_holds_idle
    | deleted => exact absurd word (ground.live at_)
  · have bound : i < ((tableSpec T).final (tableSpec T).init order).count := by
      obtain ⟨sets', stored', slot⟩ := s.mem.bucketAt_eq_some.mp at_
      obtain ⟨sets'', stored'', length', _⟩ := ground.shape.root
      cases stored'.symm.trans stored''
      rw [ground.count, ← length']
      exact (List.getElem?_eq_some_iff.mp slot).1
    obtain ⟨set', mine, at', _⟩ := between.bucket bound
    have rep := ground.opened at_ open_
    refine ⟨set', at', ?_, ?_⟩
    · rw [ground.shape.bundles_eq rep, (between.contents at').1]
      rfl
    · rw [(between.contents at').2]
      exact rep.listLength_eq (ground.shape.first at_).2.2

/-- Client 0 waits at the lock of the only bucket while client 1 inserts its key there. -/
def overtakenInsert : List (Action (BitVec 32) (BitVec 32)) :=
  [.invoke 0 (.insert 1 10), .step 0, .step 0, .invoke 1 (.insert 1 20)] ++ List.replicate 3 (.step 1) ++ [.step 0] ++
    List.replicate 5 (.step 1) ++ List.replicate 3 (.step 0)

theorem serializable_overtakenInsert : ∃ (s : State (BitVec 32) (BitVec 32)) (order : List (Entry Nat _ _)),
    s.history = [.inv 0 (.insert 1 10), .inv 1 (.insert 1 20), .res 1 ⟨.trueState, 0⟩, .res 0 ⟨.falseState, 20⟩] ∧
    order.map (·.id) = [1, 0] ∧ Linearization (tableSpec (intTemplate 1)) s.history order ∧
    ∃ fuel m, calls (intTemplate 1) (initial (intTemplate 1) 0).root fuel (initial (intTemplate 1) 0).mem
      (serialCalls (fun id => id) order) = .ok (m, order.map (·.ret)) := by
  have ran : (runAll (fun at_ action => if CalledBy [] action then execLogged (intTemplate 1) (fun c => c) at_ action
      else none) (initial (intTemplate 1) 0, []) overtakenInsert).map (fun at_ => (at_.1.history, at_.2)) =
      some ([.inv 0 (.insert 1 10), .inv 1 (.insert 1 20), .res 1 ⟨.trueState, 0⟩, .res 0 ⟨.falseState, 20⟩],
        [1, 0]) := by decide +kernel
  obtain ⟨⟨s, log⟩, final, shown⟩ := Option.map_eq_some_iff.mp ran
  obtain ⟨history, rfl⟩ := Prod.mk.inj shown
  have run : Steps (execLogged (intTemplate 1) fun c => c) (fun _ action => CalledBy [] action)
      (initial (intTemplate 1) 0, []) (s, [1, 0]) := steps_of_runAll overtakenInsert final
  obtain ⟨order, log, lin, serial⟩ := serializable (Nat.le_refl 1) 0 run
  obtain ⟨fuel, m, done, _⟩ := serial fun id => id
  exact ⟨s, order, history, log, lin, fuel, m, done⟩

end RdmaIht.Hashtable
