import RdmaIht.Iht.Safety

/-! The pairs that `RdmaIHT` stores are pairs that were inserted.

Whatever holds of every pair that is inserted holds at every step of every E-List
that is allocated, of every copy a thread works on, and of the pair an answer is
read from. For the workload of `Client::Run`, whose inserts store the key as the
value, the assertions of `Client::Apply` follow.
-/

set_option autoImplicit false

namespace RdmaIht.Iht

open Concurrency

variable {K V : Type}

def EList.All (ok : Pair K V → Prop) (el : EList K V) : Prop := ∀ pair ∈ el.pairs, ok pair

def Mem.All (ok : Pair K V → Prop) (m : Mem K V) : Prop := ∀ e el, m.elists e = some el → el.All ok

/-- Of an E-List in place nothing more is said than of the memory. -/
def ElistRef.All (ok : Pair K V → Prop) : ElistRef K V → Prop
  | .inPlace _ => True
  | .copied _ el => el.All ok

def ReadFrom (T : Template K V) (ok : Pair K V → Prop) (op : IhtOp K V) (result : K) : Prop :=
  ∃ pair, ok pair ∧ pair.key = op.key ∧ result = T.toKey pair.val

def AnswerFrom (T : Template K V) (ok : Pair K V → Prop) (op : IhtOp K V) (res : HtRes V) : Prop :=
  op.isInsert = false → res.status = .trueState → ∃ result, ReadFrom T ok op result ∧ res.result = T.toValue result

def Pc.All (T : Template K V) (ok : Pair K V → Prop) (op : IhtOp K V) : Pc K V → Prop
  | .readRoot | .acquire _ | .refetch _ _ | .descend _ _ | .loadBase _ _ | .readElist _ _ _ => True
  | .search _ _ _ e _ | .newPlist _ _ _ e | .rehashSource _ _ _ e _ | .publishPlist _ _ _ e _
  | .updateCurr _ _ _ e _ | .unlockPlist _ _ _ e _ | .afterRehash _ _ e => e.All ok
  | .newElist _ _ pair => op.isInsert = true ∧ ok pair
  | .publishElist _ _ _ => op.isInsert = true
  | .storePair _ _ _ e pair => op.isInsert = true ∧ e.All ok ∧ ok pair
  | .storeCount _ _ _ e => op.isInsert = true ∧ e.All ok
  | .swapLast _ _ _ e _ result | .dropCount _ _ _ e result => e.All ok ∧ ReadFrom T ok op result
  | .writeBack _ _ _ e res => e.All ok ∧ AnswerFrom T ok op res
  | .rehashMove _ _ _ e _ source _ | .rehashFree _ _ _ e _ source => e.All ok ∧ source.All ok
  | .unlock _ _ _ res | .leave _ _ res => AnswerFrom T ok op res

def Pc.reads : Pc K V → List (ElistRef K V)
  | .search _ _ _ e _ | .storePair _ _ _ e _ | .storeCount _ _ _ e | .swapLast _ _ _ e _ _ | .dropCount _ _ _ e _
  | .writeBack _ _ _ e _ => [e]
  | .rehashMove _ _ _ _ _ source _ => [source]
  | _ => []

def Pc.toStore : Pc K V → Option (Pair K V)
  | .newElist _ _ pair | .storePair _ _ _ _ pair => some pair
  | _ => none

def NextAll (T : Template K V) (ok : Pair K V → Prop) (op : IhtOp K V) : Pc K V ⊕ HtRes V → Prop
  | .inl pc => pc.All T ok op
  | .inr res => AnswerFrom T ok op res

section Stores

variable {ok : Pair K V → Prop} {m : Mem K V} {el : EList K V} {e : ElistRef K V}

theorem EList.All.store (all : el.All ok) (i : Nat) {pair : Pair K V} (good : ok pair) : (el.store i pair).All ok := by
  intro stored mem
  simp only [EList.store, List.mem_append, List.mem_cons] at mem
  rcases mem with before | rfl | after
  · exact all _ (List.mem_of_mem_take before)
  · exact good
  · exact all _ (List.mem_of_mem_drop after)

theorem EList.All.withCount (all : el.All ok) (n : Nat) : (el.withCount n).All ok := all

theorem Template.elistInsert_all {T : Template K V} {el' : EList K V} {pair : Pair K V} (all : el.All ok)
    (good : ok pair) (inserted : T.elistInsert el pair = some el') : el'.All ok := by
  simp only [elistInsert] at inserted
  split at inserted <;> cases inserted
  exact (all.store _ good).withCount _

theorem Mem.All.setElist (all : m.All ok) (ptr : RemotePtr) (good : el.All ok) : (m.setElist ptr el).All ok := by
  intro q el' stored
  rw [Mem.elists_setElist] at stored
  split at stored
  · cases stored; exact good
  · exact all q el' stored

theorem Mem.All.freeElist (all : m.All ok) (ptr : RemotePtr) : (m.freeElist ptr).All ok := by
  intro q el' stored
  rw [Mem.elists_freeElist] at stored
  split at stored
  · cases stored
  · exact all q el' stored

theorem Mem.All.of_elists {m' : Mem K V} (all : m.All ok) (same : m'.elists = m.elists) : m'.All ok := by
  rw [Mem.All, same]
  exact all

theorem ElistRef.All.get (all : e.All ok) (memory : m.All ok) (stored : e.get m = some el) : el.All ok := by
  cases e with
  | inPlace ptr => exact memory ptr el stored
  | copied block copy => cases stored; exact all

theorem ElistRef.All.set (all : e.All ok) (memory : m.All ok) (good : el.All ok) :
    (e.set m el).1.All ok ∧ (e.set m el).2.All ok := by
  cases e with
  | inPlace ptr => exact ⟨memory.setElist ptr good, trivial⟩
  | copied block copy => exact ⟨memory, good⟩

theorem ElistRef.all_free (e : ElistRef K V) (memory : m.All ok) : (e.free m).All ok := by
  cases e with
  | inPlace ptr => exact memory.freeElist ptr
  | copied block copy => exact memory

theorem Traversal.elists_release (t : Traversal) (m : Mem K V) : (t.release m).elists = m.elists := by
  unfold Traversal.release
  split
  · cases t.curr <;> rfl
  · rfl

theorem PlistRef.elists_setBase (curr : PlistRef) (m : Mem K V) (b : Nat) (base : RemotePtr) :
    (curr.setBase m b base).1.elists = m.elists := by
  cases curr <;> rfl

theorem releaseElist_all (pool : Nat) (memory : m.All ok) (held : Option (RemotePtr × ElistRef K V)) :
    (releaseElist pool m held).All ok := by
  rcases held with _ | ⟨bb, e⟩
  · exact memory
  · simp only [releaseElist]
    split
    · exact memory
    · exact e.all_free memory

theorem moveInto_elists {T : Template K V} {pool depth count : Nat} {newP q : RemotePtr} {pair : Pair K V}
    {m' : Mem K V} {el' : EList K V} (moved : moveInto T pool m newP depth count pair = .ok m')
    (stored : m'.elists q = some el') :
    m.elists q = some el' ∨ ∃ el, (m.elists q = some el ∨ el = {}) ∧ T.elistInsert el pair = some el' := by
  cases moveInto_eq_ok.mp moved with
  | first found null inserted =>
    rw [Mem.elists_linkElist] at stored
    split at stored
    · cases stored
      exact .inr ⟨{}, .inr rfl, inserted⟩
    · exact .inl stored
  | more found notNull was inserted =>
    rw [Mem.elists_setElist] at stored
    split at stored
    · next here =>
      cases stored
      exact .inr ⟨_, .inl (here ▸ was), inserted⟩
    · exact .inl stored

theorem moveInto_all {T : Template K V} {pool depth count : Nat} {newP : RemotePtr} {pair : Pair K V}
    {m' : Mem K V} (memory : m.All ok) (good : ok pair) (moved : moveInto T pool m newP depth count pair = .ok m') :
    m'.All ok := by
  intro q el' stored
  rcases moveInto_elists moved stored with same | ⟨el, was | rfl, inserted⟩
  · exact memory q el' same
  · exact T.elistInsert_all (memory q el was) good inserted
  · exact T.elistInsert_all (fun _ mem => by cases mem) good inserted

end Stores

section Step

variable {T : Template K V} {pool : Nat} {root : RemotePtr} {op : IhtOp K V} {m m' : Mem K V}
  {pc : Pc K V} {next : Pc K V ⊕ HtRes V} {ok : Pair K V → Prop}

theorem onFound_all {t : Traversal} {b i : Nat} {bb : RemotePtr} {e : ElistRef K V} {el : EList K V} {pair : Pair K V}
    (all : e.All ok) (good : ok pair) (same : pair.key = op.key) : (onFound T op t b bb e el i pair).All T ok op := by
  have read : ReadFrom T ok op (T.toKey pair.val) := ⟨pair, good, same, rfl⟩
  cases op with
  | contains key => exact fun _ _ => ⟨_, read, rfl⟩
  | insert key value => exact fun reads => by cases reads
  | remove key =>
    simp only [onFound]
    split <;> exact ⟨all, read⟩

theorem onMissing_all {t : Traversal} {b : Nat} {bb : RemotePtr} {e : ElistRef K V} {el : EList K V} (all : e.All ok)
    (stores : ∀ pair, (onMissing T op t b bb e el).toStore = some pair → ok pair) :
    (onMissing T op t b bb e el).All T ok op := by
  cases op with
  | contains key | remove key => exact fun _ success => by cases success
  | insert key value =>
    simp only [onMissing] at stores ⊢
    split
    · next room =>
      rw [if_pos room] at stores
      exact ⟨rfl, all, stores ⟨key, value⟩ rfl⟩
    · exact all

theorem onEmpty_all {t : Traversal} {b : Nat} (stores : ∀ pair, (onEmpty T op t b).toStore = some pair → ok pair) :
    (onEmpty T op t b).All T ok op := by
  cases op with
  | contains key | remove key => exact fun _ success => by cases success
  | insert key value => exact ⟨rfl, stores ⟨key, value⟩ rfl⟩

theorem afterStore_all {t : Traversal} {b : Nat} {bb : RemotePtr} {e : ElistRef K V} {res : HtRes V} (all : e.All ok)
    (answer : AnswerFrom T ok op res) : (afterStore pool t b bb e res).All T ok op := by
  unfold afterStore
  split
  · exact answer
  · exact ⟨all, answer⟩

theorem AnswerFrom.of_insert {res : HtRes V} (inserts : op.isInsert = true) : AnswerFrom T ok op res := by
  intro reads
  rw [inserts] at reads
  cases reads

/-- What holds of the pairs keeps holding of them, and of the pair an answer is read from, if it holds
of the pair that the step has decided to store. -/
theorem Branch.all_of_stores [DecidableEq K] (branch : Branch T pool root op m pc m' next) (memory : m.All ok)
    (point : pc.All T ok op) (stores : ∀ pc' pair, next = .inl pc' → pc'.toStore = some pair → ok pair) :
    m'.All ok ∧ NextAll T ok op next := by
  cases branch with
  | readRoot | closed | locks | spins | refetch | loadRemote => exact ⟨memory, trivial⟩
  | descendLocal | descendRemote => exact ⟨memory.of_elists (Traversal.elists_release _ _), trivial⟩
  | loadNull => exact ⟨memory, onEmpty_all fun pair => stores _ pair rfl⟩
  | loadLocal => exact ⟨memory, trivial⟩
  | readElist stored => exact ⟨memory, memory _ _ stored⟩
  | found stored live at_ same =>
    have good := point.get memory stored _ (List.mem_of_getElem? at_)
    exact ⟨memory, onFound_all point good same⟩
  | turn => exact ⟨memory, point⟩
  | missing => exact ⟨memory, onMissing_all point fun pair => stores _ pair rfl⟩
  | newElist inserted =>
    have good := T.elistInsert_all (fun _ mem => by cases mem) point.2 inserted
    exact ⟨memory.setElist _ good, point.1⟩
  | publishElist => exact ⟨memory.of_elists rfl, .of_insert point⟩
  | @storePair t b bb e pair el stored room =>
    have stores := point.2.1.set memory ((point.2.1.get memory stored).store el.count point.2.2)
    exact ⟨stores.1, ⟨point.1, stores.2⟩⟩
  | @storeCount t b bb e el stored =>
    have stores := point.2.set memory ((point.2.get memory stored).withCount (el.count + 1))
    exact ⟨stores.1, afterStore_all stores.2 (.of_insert point.1)⟩
  | @swapLast t b bb e i result el last stored at_ =>
    have old := point.1.get memory stored
    have stores := point.1.set memory (old.store i (old _ (List.mem_of_getElem? at_)))
    exact ⟨stores.1, ⟨stores.2, point.2⟩⟩
  | @dropCount t b bb e result el stored =>
    have stores := point.1.set memory ((point.1.get memory stored).withCount (el.count - 1))
    exact ⟨stores.1, afterStore_all stores.2 fun _ _ => ⟨_, point.2, rfl⟩⟩
  | writeBack copy stored => exact ⟨memory.setElist _ (point.1.get memory copy), point.2⟩
  | newPlist => exact ⟨memory.of_elists (Mem.elists_newPlist _ _ _), point⟩
  | sourceLocal => exact ⟨memory, ⟨point, trivial⟩⟩
  | sourceRemote found far stored => exact ⟨memory, ⟨point, memory _ _ stored⟩⟩
  | move stored live at_ moved =>
    have good := point.2.get memory stored _ (List.mem_of_getElem? at_)
    exact ⟨moveInto_all memory good moved, point⟩
  | moved => exact ⟨memory, point⟩
  | rehashFree => exact ⟨ElistRef.all_free _ memory, point.1⟩
  | publishPlist => exact ⟨memory.of_elists rfl, point⟩
  | updateCurr => exact ⟨memory.of_elists (PlistRef.elists_setBase _ _ _ _), point⟩
  | unlockPlist => exact ⟨memory.of_elists rfl, point⟩
  | afterRehash => exact ⟨releaseElist_all _ memory _, trivial⟩
  | unlock => exact ⟨memory.of_elists rfl, point⟩
  | leave =>
    exact ⟨(releaseElist_all _ memory _).of_elists (Traversal.elists_release _ _), point⟩

theorem Branch.stores_own [DecidableEq K] {pc' : Pc K V} {pair : Pair K V}
    (branch : Branch T pool root op m pc m' (.inl pc')) (stores : pc'.toStore = some pair) :
    op = .insert pair.key pair.val := by
  generalize goes : (Sum.inl pc' : Pc K V ⊕ HtRes V) = next at branch
  cases branch with
  | loadNull =>
    cases goes
    cases op <;> cases stores
    rfl
  | found =>
    cases goes
    cases op <;> simp only [onFound] at stores
    case remove => split at stores <;> cases stores
    all_goals cases stores
  | missing =>
    cases goes
    cases op <;> simp only [onMissing] at stores
    case insert =>
      split at stores <;> cases stores
      rfl
    all_goals cases stores
  | storeCount | dropCount =>
    cases goes
    simp only [afterStore] at stores
    split at stores <;> cases stores
  | _ => cases goes <;> cases stores

theorem Branch.all [DecidableEq K] (branch : Branch T pool root op m pc m' next) (memory : m.All ok) (point : pc.All T ok op)
    (inserts : ∀ key value, op = .insert key value → ok ⟨key, value⟩) : m'.All ok ∧ NextAll T ok op next := by
  refine branch.all_of_stores memory point ?_
  rintro pc' pair rfl stores
  exact inserts pair.key pair.val (branch.stores_own stores)

theorem Pc.All.reads (point : pc.All T ok op) {e : ElistRef K V} (mem : e ∈ pc.reads) : e.All ok := by
  cases pc with
  | search => cases List.mem_singleton.mp mem; exact point
  | storePair => cases List.mem_singleton.mp mem; exact point.2.1
  | storeCount | rehashMove => cases List.mem_singleton.mp mem; exact point.2
  | swapLast | dropCount | writeBack => cases List.mem_singleton.mp mem; exact point.1
  | _ => cases mem

end Step

/-! ## Runs -/

structure Inserted (T : Template K V) (ok : Pair K V → Prop) (s : State K V) : Prop where
  memory : s.mem.All ok
  points : ∀ {c id op pc}, s.threads c = .running id op pc → pc.All T ok op ∧
    ∀ key value, op = .insert key value → ok ⟨key, value⟩

def InsertsOnly (ok : Pair K V → Prop) (_ : State K V) (action : Action K V) : Prop :=
  ∀ c key value, action = .invoke c (.insert key value) → ok ⟨key, value⟩

section Runs

variable [DecidableEq K] {T : Template K V} {peer : Nat → Nat} {s s' : State K V} {ok : Pair K V → Prop}

theorem Inserted.next (inserted : Inserted T ok s) {action : Action K V} (only : InsertsOnly ok s action)
    (enabled : exec T peer s action = some s') : Inserted T ok s' := by
  rcases exec_cases enabled with ⟨c, op, rfl, idle, rfl⟩ | ⟨c, id, op, pc, m, next, rfl, runs, stepped, ends⟩
  · refine ⟨inserted.memory, ?_⟩
    intro c' id' op' pc' runs'
    simp only [Function.update_apply] at runs'
    split at runs'
    · cases runs'
      exact ⟨trivial, fun key value same => only c key value (by rw [same])⟩
    · exact inserted.points runs'
  · obtain ⟨point, inserts⟩ := inserted.points runs
    obtain ⟨memory, goes⟩ := (step_branch stepped).all inserted.memory point inserts
    rcases ends with ⟨pc₁, rfl, rfl⟩ | ⟨res, rfl, rfl⟩
    all_goals
      refine ⟨memory, ?_⟩
      intro c' id' op' pc' runs'
      simp only [Function.update_apply] at runs'
      split at runs'
    · cases runs'
      exact ⟨goes, inserts⟩
    · exact inserted.points runs'
    · cases runs'
    · exact inserted.points runs'

theorem Inserted.run {host : Nat} (run : Steps (exec T peer) (InsertsOnly ok) (initial T host) s) :
    Inserted T ok s := by
  refine run.invariant (P := Inserted T ok) ⟨?_, ?_⟩ fun _ _ _ inserted only enabled => inserted.next only enabled
  · exact Mem.All.of_elists (m := Mem.empty) (fun _ _ stored => by cases stored) (Mem.elists_newPlist _ _ _)
  · intro c id op pc runs
    cases runs

theorem Inserted.answer (inserted : Inserted T ok s) {c id : Nat} {op : IhtOp K V} {pc : Pc K V} {m : Mem K V}
    {res : HtRes V} (runs : s.threads c = .running id op pc)
    (stepped : step T (peer c) s.root op s.mem pc = .ok (m, .inr res)) : AnswerFrom T ok op res := by
  obtain ⟨point, inserts⟩ := inserted.points runs
  exact ((step_branch stepped).all inserted.memory point inserts).2

end Runs

/-! ## The workload of a client -/

/-- `insert(k, value(k))` of `populate`. -/
def populateOp (value : BitVec 32 → BitVec 32) (k : BitVec 32) : IhtOp (BitVec 32) (BitVec 32) := .insert k (value k)

/-- `generator` of `Client::Run`, for the numbers it has drawn. -/
def generator (contains insert : Int) (rng : Rat) (k : BitVec 32) : IhtOp (BitVec 32) (BitVec 32) :=
  if rng < contains then .contains k else if rng < (contains + insert : Int) then .insert k k else .remove k

inductive Drawn : IhtOp (BitVec 32) (BitVec 32) → Prop where
  | populate (k : BitVec 32) : Drawn (populateOp (fun key => key) k)
  | stream (contains insert : Int) (rng : Rat) (k : BitVec 32) : Drawn (generator contains insert rng k)

/-- `ROME_ASSERT(res.result == op.key, ..)` of `Client::Apply`. -/
def applyAssert (op : IhtOp (BitVec 32) (BitVec 32)) (res : HtRes (BitVec 32)) : Prop :=
  match op with
  | .contains key | .remove key => res.status = .trueState → res.result = key
  | .insert _ _ => True

def DrawnOnly (_ : State (BitVec 32) (BitVec 32)) : Action (BitVec 32) (BitVec 32) → Prop
  | .invoke _ op => Drawn op
  | .step _ => True

theorem drawn_iff {op : IhtOp (BitVec 32) (BitVec 32)} : Drawn op ↔ ∀ key value, op = .insert key value → value = key := by
  constructor
  · rintro drawn key value rfl
    generalize same : IhtOp.insert key value = op at drawn
    cases drawn with
    | populate k => cases same; rfl
    | stream contains insert rng k =>
      unfold generator at same
      split at same
      · cases same
      · split at same <;> cases same
        rfl
  · intro workload
    cases op with
    | contains key => exact .stream 1 0 0 key
    | insert key value => cases workload key value rfl; exact .populate key
    | remove key =>
      have removes : generator 0 0 0 key = .remove key := by rw [generator, if_neg (by decide), if_neg (by decide)]
      exact removes ▸ .stream 0 0 0 key

instance (s : State (BitVec 32) (BitVec 32)) : ∀ action, Decidable (DrawnOnly s action)
  | .invoke _ (.insert key value) => decidable_of_iff (value = key) (by simp [DrawnOnly, drawn_iff])
  | .invoke _ (.contains _) | .invoke _ (.remove _) => .isTrue (drawn_iff.mpr (by simp))
  | .step _ => .isTrue trivial

/-- No assertion of `Client::Apply` fails, and every live pair of every E-List has
its key as value, in the memory and in the copies of the threads. -/
theorem apply_asserts (elistSize plistSize : Nat) (peer : Nat → Nat) (host : Nat) (s : State (BitVec 32) (BitVec 32))
    (run : Steps (exec (intTemplate elistSize plistSize) peer) DrawnOnly
      (initial (intTemplate elistSize plistSize) host) s) :
    (∀ e el, s.mem.elists e = some el → ∀ pair ∈ el.live, pair.val = pair.key) ∧
      (∀ c id op pc, s.threads c = .running id op pc → ∀ e ∈ pc.reads, ∀ el, e.get s.mem = some el →
        ∀ pair ∈ el.live, pair.val = pair.key) ∧
      ∀ c id op pc m res, s.threads c = .running id op pc →
        step (intTemplate elistSize plistSize) (peer c) s.root op s.mem pc = .ok (m, .inr res) → applyAssert op res := by
  have inserts : Steps (exec (intTemplate elistSize plistSize) peer) (InsertsOnly fun pair => pair.val = pair.key)
      (initial (intTemplate elistSize plistSize) host) s := by
    refine run.weaken ?_
    rintro t action drawn c key value rfl
    exact drawn_iff.mp drawn key value rfl
  have inserted := Inserted.run inserts
  refine ⟨?_, ?_, ?_⟩
  · intro e el stored pair live
    exact inserted.memory e el stored pair (List.mem_of_mem_take live)
  · intro c id op pc runs e reads el stored pair live
    have copy := (inserted.points runs).1.reads reads
    exact copy.get inserted.memory stored pair (List.mem_of_mem_take live)
  · intro c id op pc m res runs stepped
    have answer := inserted.answer runs stepped
    have read : op.isInsert = false → res.status = .trueState → res.result = op.key := by
      intro reads success
      obtain ⟨_, ⟨pair, same, key, rfl⟩, result⟩ := answer reads success
      calc
        res.result = pair.val := result
        _ = pair.key := same
        _ = op.key := key
    cases op with
    | insert key value => trivial
    | contains key | remove key => exact read rfl

/-- Client 1 removes, through a copy, what client 0 has inserted. -/
def removedRemotely : List (Action (BitVec 32) (BitVec 32)) :=
  .invoke 0 (.insert 1 1) :: List.replicate 7 (.step 0) ++ .invoke 1 (.remove 1) :: List.replicate 8 (.step 1)

theorem apply_asserts_removedRemotely : ∃ s id op t held, runAll (fun s action => if DrawnOnly s action then
      exec (intTemplate 1 2) (fun c => c) s action else none) (initial (intTemplate 1 2) 0) removedRemotely = some s ∧
    s.threads 1 = .running id op (.leave t held ⟨.trueState, 1⟩) ∧ applyAssert op ⟨.trueState, 1⟩ := by
  have ran : ((runAll (fun s action => if DrawnOnly s action then exec (intTemplate 1 2) (fun c => c) s action else none)
      (initial (intTemplate 1 2) 0) removedRemotely).any fun s => match s.threads 1 with
        | .idle => false
        | .running _ _ pc => pc.answer = some ⟨.trueState, 1⟩) = true := by decide +kernel
  obtain ⟨s, final, point⟩ := (Option.any_eq_true _ _).mp ran
  split at point
  · cases point
  · next id op pc runs =>
    obtain ⟨t, held, rfl⟩ := Pc.answer_eq_some.mp (of_decide_eq_true point)
    exact ⟨s, id, op, t, held, final, runs, (apply_asserts 1 2 (fun c => c) 0 s (steps_of_runAll _ final)).2.2
      1 id _ _ _ _ runs rfl⟩

end RdmaIht.Iht
