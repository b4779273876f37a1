import RdmaIht.Iht.Linearizability
import RdmaIht.Iht.Workload
import RdmaIht.Provenance

/-! The values that `RdmaIHT` tells, in runs of any kind.

`RdmaIHT` can lose an insert. What an operation finds at its key is still the value
of an insert that has succeeded or is about to. An insert has taken effect once it
has decided to store its pair: it cannot fail any more.
-/

set_option autoImplicit false

namespace RdmaIht.Iht

open Concurrency

variable {K V : Type}

/-- The insert has decided to store its pair, or has stored it. -/
def Pc.effective (op : IhtOp K V) : Pc K V → Bool
  | .newElist _ _ _ | .publishElist _ _ _ | .storePair _ _ _ _ _ | .storeCount _ _ _ _ => true
  | .writeBack _ _ _ _ res | .unlock _ _ _ res | .leave _ _ res => op.isInsert && decide (res.status = .trueState)
  | _ => false

def Thread.shows : Thread K V → Option (Nat × IhtOp K V × Bool)
  | .idle => none
  | .running id op pc => some (id, op, pc.effective op)

/-- What becomes of a value on its way from the slot to the answer. -/
def Template.told (T : Template K V) (value : V) : V := T.toValue (T.toKey value)

def Pc.Told (T : Template K V) (ok : Pair K V → Prop) (op : IhtOp K V) : Pc K V → Prop
  | .swapLast _ _ _ _ _ _ | .dropCount _ _ _ _ _ => op.isInsert = false
  | .writeBack _ _ _ _ res | .unlock _ _ _ res | .leave _ _ res => ToldFrom T.told ok op res
  | _ => True

def NextTold (T : Template K V) (ok : Pair K V → Prop) (op : IhtOp K V) : Pc K V ⊕ HtRes V → Prop
  | .inl pc => pc.Told T ok op
  | .inr res => ToldFrom T.told ok op res

def NextEffective (op : IhtOp K V) : Pc K V ⊕ HtRes V → Prop
  | .inl pc => pc.effective op = true
  | .inr res => Succeeded res

section Mono

variable {T : Template K V} {op : IhtOp K V} {ok ok' : Pair K V → Prop} {m : Mem K V} {e : ElistRef K V} {pc : Pc K V}

theorem Mem.All.mono (imp : ∀ pair, ok pair → ok' pair) (all : m.All ok) : m.All ok' :=
  fun e el stored pair member => imp pair (all e el stored pair member)

theorem ElistRef.All.mono (imp : ∀ pair, ok pair → ok' pair) (all : e.All ok) : e.All ok' := by
  cases e with
  | inPlace ptr => trivial
  | copied block el => exact fun pair member => imp pair (all pair member)

theorem ReadFrom.mono (imp : ∀ pair, ok pair → ok' pair) {result : K} (read : ReadFrom T ok op result) :
    ReadFrom T ok' op result :=
  read.imp fun pair from_ => ⟨imp pair from_.1, from_.2⟩

theorem AnswerFrom.mono (imp : ∀ pair, ok pair → ok' pair) {res : HtRes V} (answer : AnswerFrom T ok op res) :
    AnswerFrom T ok' op res :=
  fun reads success => (answer reads success).imp fun _ from_ => ⟨from_.1.mono imp, from_.2⟩

theorem Pc.All.mono (imp : ∀ pair, ok pair → ok' pair) (point : pc.All T ok op) : pc.All T ok' op := by
  cases pc with
  | readRoot | acquire | refetch | descend | loadBase | readElist => trivial
  | search | newPlist | rehashSource | publishPlist | updateCurr | unlockPlist | afterRehash =>
    exact ElistRef.All.mono imp point
  | newElist => exact ⟨point.1, imp _ point.2⟩
  | publishElist => exact point
  | storePair => exact ⟨point.1, point.2.1.mono imp, imp _ point.2.2⟩
  | storeCount => exact ⟨point.1, point.2.mono imp⟩
  | swapLast | dropCount => exact ⟨point.1.mono imp, point.2.mono imp⟩
  | writeBack => exact ⟨point.1.mono imp, point.2.mono imp⟩
  | rehashMove | rehashFree => exact ⟨point.1.mono imp, point.2.mono imp⟩
  | unlock | leave => exact AnswerFrom.mono imp point

theorem Pc.Told.mono (imp : ∀ pair, ok pair → ok' pair) (point : pc.Told T ok op) : pc.Told T ok' op := by
  cases pc with
  | swapLast | dropCount => exact point
  | writeBack | unlock | leave => exact ToldFrom.mono imp point
  | _ => trivial

end Mono

section Step

variable {T : Template K V} {pool : Nat} {root : RemotePtr} {op : IhtOp K V} {m m' : Mem K V}
  {pc : Pc K V} {next : Pc K V ⊕ HtRes V} {ok : Pair K V → Prop}

theorem not_tells_stored (inserts : op.isInsert = true) (zero : V) : ¬ Tells op ⟨.trueState, zero⟩ := by
  intro tells
  cases op <;> cases inserts
  cases tells

theorem told_afterStore {t : Traversal} {b : Nat} {bb : RemotePtr} {e : ElistRef K V} {res : HtRes V}
    (told : ToldFrom T.told ok op res) : (afterStore pool t b bb e res).Told T ok op := by
  unfold afterStore
  split <;> exact told

/-- The answer is decided where the pair is found, from the pair, or without telling a value. -/
theorem Branch.told [DecidableEq K] (branch : Branch T pool root op m pc m' next) (memory : m.All ok) (point : pc.All T ok op)
    (told : pc.Told T ok op) : NextTold T ok op next := by
  cases branch with
  | loadNull => cases op <;> first | trivial | exact fun tells => by cases tells
  | found stored live at_ same =>
    have good := point.get memory stored _ (List.mem_of_getElem? at_)
    cases op with
    | contains key | insert key value => exact fun _ => ⟨_, good, same, rfl⟩
    | remove key =>
      simp only [onFound]
      split <;> rfl
  | missing =>
    cases op with
    | contains key | remove key => exact fun tells => by cases tells
    | insert key value =>
      simp only [onMissing]
      split <;> trivial
  | publishElist => exact fun tells => absurd tells (not_tells_stored point _)
  | storeCount => exact told_afterStore fun tells => absurd tells (not_tells_stored point.1 _)
  | dropCount =>
    obtain ⟨pair, good, same, rfl⟩ := point.2
    exact told_afterStore fun _ => ⟨pair, good, same, rfl⟩
  | swapLast | writeBack | unlock | leave => exact told
  | _ => trivial

theorem effective_afterStore {t : Traversal} {b : Nat} {bb : RemotePtr} {e : ElistRef K V} {value : V}
    (inserts : op.isInsert = true) : (afterStore pool t b bb e ⟨.trueState, value⟩).effective op = true := by
  unfold afterStore
  split <;> simp [Pc.effective, inserts]

theorem Branch.stays_effective [DecidableEq K] (branch : Branch T pool root op m pc m' next) (point : pc.All T ok op)
    (effective : pc.effective op = true) : NextEffective op next := by
  cases branch with
  | newElist | storePair => rfl
  | publishElist =>
    have inserts : op.isInsert = true := point
    simp [NextEffective, Pc.effective, inserts]
  | storeCount => exact effective_afterStore point.1
  | writeBack | unlock => exact effective
  | leave =>
    have success := of_decide_eq_true (Bool.and_eq_true_iff.mp effective).2
    exact success
  | _ => cases effective

theorem Pc.effective_of_toStore {pair : Pair K V} (stores : pc.toStore = some pair) : pc.effective op = true := by
  cases pc <;> first | rfl | cases stores

end Step

/-! ## Runs -/

structure Traced (T : Template K V) (s : State K V) : Prop where
  sources : Sources T.told s.history s.ops (Thread.shows ∘ s.threads)
  memory : s.mem.All (Stored s.history (Thread.shows ∘ s.threads))
  points : ∀ {c id op pc}, s.threads c = .running id op pc →
    pc.All T (Stored s.history (Thread.shows ∘ s.threads)) op ∧ pc.Told T (Stored s.history (Thread.shows ∘ s.threads)) op

section Runs

variable {T : Template K V} {peer : Nat → Nat} {s s' : State K V}

theorem shows_running {c id : Nat} {op : IhtOp K V} {pc : Pc K V} (runs : s.threads c = .running id op pc) :
    (Thread.shows ∘ s.threads) c = some (id, op, pc.effective op) := by
  rw [Function.comp_apply, runs]
  rfl

theorem Traced.start (T : Template K V) (host : Nat) : Traced T (initial T host) where
  sources := .start
  memory := Mem.All.of_elists (m := Mem.empty) (fun _ _ stored => by cases stored) (Mem.elists_newPlist _ _ _)
  points runs := by cases runs

theorem Traced.invoked (traced : Traced T s) {c : Nat} (idle : s.threads c = .idle) (op : IhtOp K V) :
    Traced T { s with
      threads := Function.update s.threads c (.running s.ops op .readRoot)
      history := s.history ++ [.inv s.ops op]
      ops := s.ops + 1 } := by
  have none : (Thread.shows ∘ s.threads) c = none := by rw [Function.comp_apply, idle]; rfl
  have grows : ∀ pair, _ → Stored (s.history ++ [.inv s.ops op]) _ pair := fun pair stored =>
    Stored.invoke stored none s.ops op
  refine ⟨?_, ?_, ?_⟩ <;> dsimp only <;> rw [Function.comp_update]
  · exact traced.sources.invoke none op
  · exact traced.memory.mono grows
  · intro c' id' op' pc' runs
    rw [Function.update_apply] at runs
    split at runs
    · cases runs
      exact ⟨trivial, trivial⟩
    · exact ⟨(traced.points runs).1.mono grows, (traced.points runs).2.mono grows⟩

variable [DecidableEq K]

theorem Traced.continued (traced : Traced T s) {c id : Nat} {op : IhtOp K V} {pc pc' : Pc K V} {m : Mem K V}
    (runs : s.threads c = .running id op pc) (branch : Branch T (peer c) s.root op s.mem pc m (.inl pc')) :
    Traced T { s with mem := m, threads := Function.update s.threads c (.running id op pc') } := by
  obtain ⟨point, told⟩ := traced.points runs
  have shown := shows_running runs
  have stays : pc.effective op = true → pc'.effective op = true := branch.stays_effective point
  have grows : ∀ pair, _ → Stored s.history _ pair := fun pair stored => Stored.proceed stored shown stays
  have stores : ∀ pc₁ pair, (Sum.inl pc' : Pc K V ⊕ HtRes V) = .inl pc₁ → pc₁.toStore = some pair →
      Stored s.history (Function.update (Thread.shows ∘ s.threads) c (some (id, op, pc'.effective op))) pair := by
    rintro pc₁ pair same toStore
    cases same
    rw [Pc.effective_of_toStore toStore]
    cases branch.stores_own toStore
    exact traced.sources.stores shown
  obtain ⟨memory, all⟩ := branch.all_of_stores (traced.memory.mono grows) (point.mono grows) stores
  have answer := branch.told (traced.memory.mono grows) (point.mono grows) (told.mono grows)
  refine ⟨?_, ?_, ?_⟩ <;> dsimp only <;> rw [Function.comp_update]
  · exact traced.sources.proceed shown stays
  · exact memory
  · intro c' id' op' pc₁ runs'
    rw [Function.update_apply] at runs'
    split at runs'
    · cases runs'
      exact ⟨all, answer⟩
    · exact ⟨(traced.points runs').1.mono grows, (traced.points runs').2.mono grows⟩

theorem Traced.returned (traced : Traced T s) {c id : Nat} {op : IhtOp K V} {pc : Pc K V} {m : Mem K V} {res : HtRes V}
    (runs : s.threads c = .running id op pc) (branch : Branch T (peer c) s.root op s.mem pc m (.inr res)) :
    Traced T { s with
      mem := m
      threads := Function.update s.threads c .idle
      history := s.history ++ [.res id res] } := by
  obtain ⟨point, told⟩ := traced.points runs
  have shown := shows_running runs
  have keeps : pc.effective op = true → Succeeded res := branch.stays_effective point
  have grows : ∀ pair, _ → Stored (s.history ++ [.res id res]) _ pair := fun pair stored =>
    Stored.respond stored shown keeps
  obtain ⟨memory, _⟩ := branch.all_of_stores traced.memory point fun _ _ none => by cases none
  refine ⟨?_, ?_, ?_⟩ <;> dsimp only <;> rw [Function.comp_update]
  · exact traced.sources.respond shown keeps (branch.told traced.memory point told)
  · exact memory.mono grows
  · intro c' id' op' pc' runs'
    rw [Function.update_apply] at runs'
    split at runs'
    · cases runs'
    · exact ⟨(traced.points runs').1.mono grows, (traced.points runs').2.mono grows⟩

theorem Traced.next (traced : Traced T s) {action : Action K V} (enabled : exec T peer s action = some s') :
    Traced T s' := by
  rcases exec_cases enabled with ⟨c, op, rfl, idle, rfl⟩ | ⟨c, id, op, pc, m, next, rfl, runs, stepped, ends⟩
  · exact traced.invoked idle op
  · rcases ends with ⟨pc', rfl, rfl⟩ | ⟨res, rfl, rfl⟩
    · exact traced.continued runs (step_branch stepped)
    · exact traced.returned runs (step_branch stepped)

/-- In every run, with lost inserts or without: a value that an operation tells was inserted at its key
by an earlier call that does not fail. -/
theorem lossy_tells_inserted (T : Template K V) (peer : Nat → Nat) (host : Nat) {s : State K V}
    (reachable : Reachable (exec T peer) (initial T host) s) : Sourced T.told s.history := by
  have traced : Traced T s :=
    reachable.invariant (P := Traced T) (.start T host) fun _ _ _ traced _ enabled => traced.next enabled
  exact traced.sources.sourced

/-- After an insert was lost, the key of the insert that displaced it is found with its value. -/
theorem lossy_tells_inserted_lostInsert : ∃ s, runAll (exec (intTemplate 7 128) fun c => c) (initial (intTemplate 7 128) 0)
      (lostInsert ++ .invoke 1 (.contains 1) :: List.replicate 7 (.step 1)) = some s ∧
    .res 3 ⟨.trueState, 10⟩ ∈ s.history ∧ Sourced (intTemplate 7 128).told s.history := by
  have ran : (runAll (exec (intTemplate 7 128) fun c => c) (initial (intTemplate 7 128) 0)
      (lostInsert ++ .invoke 1 (.contains 1) :: List.replicate 7 (.step 1))).any
        (fun s => decide (.res 3 ⟨.trueState, 10⟩ ∈ s.history)) = true := by decide +kernel
  obtain ⟨s, final, answered⟩ := (Option.any_eq_true _ _).mp ran
  exact ⟨s, final, of_decide_eq_true answered, lossy_tells_inserted _ _ 0 (reachable_of_runAll _ final)⟩

end Runs

end RdmaIht.Iht
